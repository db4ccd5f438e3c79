import OasValidator.Imp.Acceptance
import OasValidator.Imp.MappedOrder
import OasValidator.Imp.Operations
import OasValidator.PathTrie.Order

/-! How a specification is laid out.  The paths and methods of a document may come in any order, and
the tables they are kept in may be iterated in any order.  Where the templates of each method fork
evenly none of this shows: two validators whose documents declare the same operations give the same
codes. -/

namespace OasValidator

open Library.Cut Library.Table Library.Words PathTrie Checked ValidatorsStore

/-! ### Routes -/

section

variable {order order' : Hashing} {path : Bytes}

section

variable {paths paths' : List Bytes}

theorem begins_templates (hmem : ∀ p, p ∈ paths' ↔ p ∈ paths) (u : List Bytes) :
    Begins (templates paths) u ↔ Begins (templates paths') u := by
  simp only [Begins, templates, List.mem_map, List.mem_filter, hmem]

/-- Among the same paths, in whatever order they are declared and iterated, a walk through even forks
ends in the same way and records the same. -/
theorem walk_declared (heven : EvenForks (templates paths)) (hmem : ∀ p, p ∈ paths' ↔ p ∈ paths)
    (path : Bytes) :
    walk order' (templates paths') (cut slash path) = walk order (templates paths) (cut slash path) ∧
      captures order' 0 (templates paths') (fragments path) =
        captures order 0 (templates paths) (fragments path) := by
  obtain ⟨hwalk, hcaptures⟩ :=
    heven.walk_congr (begins_templates hmem) order order' (fragments path) 0
  rw [fragments_fst] at hwalk
  exact ⟨hwalk.symm, hcaptures.symm⟩

theorem route_declared (heven : EvenForks (templates paths)) (hmem : ∀ p, p ∈ paths' ↔ p ∈ paths) :
    route order' paths' path = route order paths path := by
  obtain ⟨hwalk, -⟩ := @walk_declared order order' _ _ heven hmem path
  simp only [route, hmem, hwalk]

theorem recordedBy_declared (heven : EvenForks (templates paths)) (hmem : ∀ p, p ∈ paths' ↔ p ∈ paths) :
    recordedBy order' paths' path = recordedBy order paths path := by
  obtain ⟨-, hcaptures⟩ := @walk_declared order order' _ _ heven hmem path
  simp only [recordedBy, hmem, hcaptures]

end

variable {paths paths' : HttpMethod → List Bytes}

theorem routed_declared (heven : ∀ method, EvenForks (templates (paths method)))
    (hmem : ∀ method p, p ∈ paths' method ↔ p ∈ paths method) (methods : List HttpMethod) :
    routed order' paths' path methods = routed order paths path methods := by
  simp only [routed, fun method => @route_declared order order' path _ _ (heven method) (hmem method)]

theorem recordedIn_declared (heven : ∀ method, EvenForks (templates (paths method)))
    (hmem : ∀ method p, p ∈ paths' method ↔ p ∈ paths method) (methods : List HttpMethod) :
    recordedIn order' paths' path methods = recordedIn order paths path methods := by
  induction methods with
  | nil => rfl
  | cons method rest ih =>
    rw [recordedIn, recordedIn, ih, recordedBy_declared (heven method) (hmem method),
      route_declared (heven method) (hmem method)]

end

/-! ### Checks -/

section

variable {σ : Type} {rj : RapidJson σ}

/-- The code of two checks one behind the other, where the first one leaves the store, is decided by
the code of the second. -/
theorem codeOf_andThen_congr {τ : Type} {x : τ} {r : Except Fault (Checked τ)}
    {next next' : τ → Bytes → Except Fault (Checked τ)} (hkeeps : Keeps x r)
    (h : ∀ m, codeOf (next x m) = codeOf (next' x m)) :
    codeOf (andThen r next) = codeOf (andThen r next') := by
  cases r with
  | error fault => rfl
  | ok c =>
    have hc : c.after = x := hkeeps c rfl
    simp only [andThen, bind, Except.bind]
    split
    · rw [hc]
      exact h c.errorMsg
    · rfl

/-- Where the checked object goes does not matter for the code. -/
theorem codeOf_after {τ υ : Type} (r : Except Fault (Checked τ)) (f : τ → υ) :
    codeOf (r >>= fun c => pure (c.map f)) = codeOf r := by
  cases r <;> rfl

/-- The headers are checked last, and in whatever order they are checked the code is the same. -/
theorem check_code (hreset : ResetRestores rj) {store : ValidatorsStore σ}
    (hguarded : Guarded rj store) (hcodes : HeaderCodes store)
    (herrors : ∀ p ∈ store.headerParamValidators, p.2.WritesErrors rj) (order order' : Hashing)
    (call : Call) (found : Found) (m : Bytes) :
    codeOf (call.check rj order' found store m) = codeOf (call.check rj order found store m) := by
  have hheaders : ∀ given m, codeOf (store.validateHeaderParams rj order' given m) =
      codeOf (store.validateHeaderParams rj order given m) := by
    intro given m
    obtain ⟨hpass, hfail⟩ :=
      validateHeaderParams_code hreset order hguarded hcodes herrors given m
    obtain ⟨hpass', hfail'⟩ :=
      validateHeaderParams_code hreset order' hguarded hcodes herrors given m
    by_cases hcleared : HeadersCleared rj store given
    · rw [hpass hcleared, hpass' hcleared]
    · rw [hfail hcleared, hfail' hcleared]
  have hrest := hguarded.rest
  have hparams : ∀ httpPath given m, codeOf (andThen (store.validatePathParams rj (dataOf httpPath)
        (found.paramIdxs.getD []) m) fun store m =>
          andThen (store.validateQueryParams rj (found.query.getD []) m) fun store m =>
            store.validateHeaderParams rj order' given m) =
      codeOf (andThen (store.validatePathParams rj (dataOf httpPath)
        (found.paramIdxs.getD []) m) fun store m =>
          andThen (store.validateQueryParams rj (found.query.getD []) m) fun store m =>
            store.validateHeaderParams rj order given m) := fun httpPath given m =>
    codeOf_andThen_congr (validatePathParams_keeps hreset hrest _ _ m) fun m =>
      codeOf_andThen_congr (validateQueryParams_keeps hreset hrest _ m) (hheaders given)
  cases call with
  | route | body | pathParam | queryParam | request | requestBody => rfl
  | headers method httpPath given => exact hheaders given m
  | requestHeaders method httpPath given => exact hparams httpPath given m
  | requestBodyHeaders method httpPath jsonBody given =>
    simp only [Call.check]
    refine codeOf_andThen_congr (validateBody_keeps hreset hrest jsonBody m) fun m => ?_
    exact hparams httpPath given m

/-! ### Calls -/

variable {order order' : Hashing} {files files' : Bytes → Option Bytes} {oasSpecs oasSpecs' : Bytes}
  {methodMap methodMap' : MethodMap} {doc doc' : Json} {imp imp' : OASValidatorImp σ}

/-- Documents that declare the same operations make the same tables. -/
theorem tables_of_operations (h : Constructs rj order files oasSpecs methodMap doc imp)
    (h' : Constructs rj order' files' oasSpecs' methodMap' doc' imp')
    (hsame : ∀ method path, operations doc' method path = operations doc method path)
    (method : HttpMethod) (path : Bytes) :
    (imp'.oasValidators method).perPathValidators.lookup path =
      (imp.oasValidators method).perPathValidators.lookup path := by
  have hbuilt := h'.builtFrom method path
  rw [hsame, h.builtFrom method path] at hbuilt
  exact (Except.ok.inj hbuilt).symm

theorem declared_of_operations (h : Constructs rj order files oasSpecs methodMap doc imp)
    (h' : Constructs rj order' files' oasSpecs' methodMap' doc' imp')
    (hsame : ∀ method path, operations doc' method path = operations doc method path)
    (method : HttpMethod) (path : Bytes) : path ∈ declared doc' method ↔ path ∈ declared doc method := by
  rw [← table_isSome_iff h.registered.1, ← table_isSome_iff h'.registered.1,
    tables_of_operations h h' hsame]

/-- An operation judges in the same way whatever order the headers are checked in. -/
theorem judge_declared (h : Constructs rj order files oasSpecs methodMap doc imp)
    (h' : Constructs rj order' files' oasSpecs' methodMap' doc' imp') (hreset : ResetRestores rj)
    (herrors : imp.Has fun _ store => ∀ p ∈ store.headerParamValidators, p.2.WritesErrors rj)
    (hsame : ∀ method path, operations doc' method path = operations doc method path) (call : Call)
    (ranges : ParamIdxs) (place : HttpMethod × Bytes) :
    imp'.judge rj order' call ranges place = imp.judge rj order call ranges place := by
  obtain ⟨method, path⟩ := place
  simp only [OASValidatorImp.judge, OASValidatorImp.withStore, ne_eq, not_true_eq_false, if_false,
    tables_of_operations h h' hsame]
  cases hstore : (imp.oasValidators method).perPathValidators.lookup path with
  | none => rfl
  | some store =>
    obtain ⟨_, -, hprocess⟩ := h
    have hguarded := guarded_kept.processDocument hprocess method path store hstore
    have hcodes := headerCodes_kept.processDocument hprocess method path store hstore
    have hcheck := check_code hreset hguarded hcodes (herrors method path store hstore) order order' call
      ⟨.NONE, [], some ranges, some (queryPart call.httpPath), some (method, path)⟩ []
    exact (codeOf_after _ _).trans (hcheck.trans (codeOf_after _ _).symm)

/-- The code of a call under a method of HTTP. -/
theorem call_code (h : Constructs rj order files oasSpecs methodMap doc imp) {errorMsg : Bytes}
    {call : Call} (hvalid : call.method ∈ kValidMethods) :
    codeOf (imp.call rj order errorMsg call) =
      match routed order (declared doc) (pathPart call.httpPath)
          (candidates order (buildCaseInsensitiveMap order methodMap) call.method) with
      | none => .ok .INVALID_ROUTE
      | some place => imp.judge rj order call (record (recordedIn order (declared doc)
          (pathPart call.httpPath)
          (candidates order (buildCaseInsensitiveMap order methodMap) call.method)) []) place := by
  obtain ⟨hreg, hmap, -⟩ := h.registered
  obtain ⟨found, hfound, ⟨hinvalid, -⟩ | ⟨-, hin⟩⟩ :=
    @OASValidatorImp.lookup_registered _ order imp _ hreg errorMsg call
  · exact absurd hvalid hinvalid
  have hquery : call.asks.2 → found.query = some (queryPart call.httpPath) := fun hask => by
    rw [OASValidatorImp.lookup, if_pos hask] at hfound
    exact getValidators_query hvalid hfound
  rw [hmap] at hin
  rw [OASValidatorImp.call_eq_lookup hreg, hfound]
  exact found_code hin hquery

theorem call_code_invalid (h : Constructs rj order files oasSpecs methodMap doc imp)
    {errorMsg : Bytes} {call : Call} (hinvalid : call.method ∉ kValidMethods) :
    codeOf (imp.call rj order errorMsg call) = .ok .INVALID_METHOD := by
  obtain ⟨hreg, -, -⟩ := h.registered
  obtain ⟨found, hfound, ⟨-, hcode⟩ | ⟨hvalid, -⟩⟩ :=
    @OASValidatorImp.lookup_registered _ order imp _ hreg errorMsg call
  · rw [OASValidatorImp.call_eq_lookup hreg, hfound]
    simp [OASValidatorImp.withStore, hcode, codeOf, bind, Except.bind, Except.map]
  · exact absurd hvalid hinvalid

/-- Two validators give the same codes if their documents declare the same operations, the templates of
each method fork evenly, and the mapped methods are tried in the same order: neither the order of the
declarations nor that of any other table shows.  The trees of errors that RapidJSON makes for the
headers are such that they can be written, as it depends on the order which header is reported. -/
theorem layout_code (h : Constructs rj order files oasSpecs methodMap doc imp)
    (h' : Constructs rj order' files' oasSpecs' methodMap' doc' imp') (hreset : ResetRestores rj)
    (herrors : imp.Has fun _ store => ∀ p ∈ store.headerParamValidators, p.2.WritesErrors rj)
    (hsame : ∀ method path, operations doc' method path = operations doc method path)
    (heven : ∀ method, EvenForks (templates (declared doc method))) (errorMsg errorMsg' : Bytes)
    {call : Call}
    (hmapped : candidates order' (buildCaseInsensitiveMap order' methodMap') call.method =
      candidates order (buildCaseInsensitiveMap order methodMap) call.method) :
    codeOf (imp'.call rj order' errorMsg' call) = codeOf (imp.call rj order errorMsg call) := by
  by_cases hvalid : call.method ∈ kValidMethods
  · rw [call_code h hvalid, call_code h' hvalid]
    rw [hmapped, routed_declared heven (declared_of_operations h h' hsame),
      recordedIn_declared heven (declared_of_operations h h' hsame)]
    cases routed order (declared doc) (pathPart call.httpPath)
        (candidates order (buildCaseInsensitiveMap order methodMap) call.method) with
    | none => rfl
    | some place => exact judge_declared h h' hreset herrors hsame call _ place
  · rw [call_code_invalid h hvalid, call_code_invalid h' hvalid]

end

/-! ### Reordered paths -/

section

/-- Members of `paths` with different names may come in any order. -/
theorem operationsIn_perm {paths paths' : List (Bytes × Json)} (hperm : paths.Perm paths')
    (hdistinct : (paths.map fun member => cstr member.1).Nodup) (method : HttpMethod) (path : Bytes) :
    operationsIn method path paths' = operationsIn method path paths := by
  induction hperm with
  | nil => rfl
  | cons member hperm ih =>
    simp only [List.map_cons, List.nodup_cons] at hdistinct
    simp only [operationsIn, List.flatMap_cons] at ih ⊢
    rw [ih hdistinct.2]
  | swap member member' rest =>
    have hne : ¬(cstr member.1 = path ∧ cstr member'.1 = path) := by
      rintro ⟨rfl, h⟩
      simp [h] at hdistinct
    simp only [operationsIn, List.flatMap_cons, ← List.append_assoc]
    by_cases h : cstr member.1 = path
    · simp [h, show cstr member'.1 ≠ path from fun h' => hne ⟨h, h'⟩]
    · simp [h]
  | trans hperm hperm' ih ih' =>
    rw [ih' ((hperm.map _).nodup_iff.mp hdistinct), ih hdistinct]

/-- One template forks nowhere. -/
theorem evenForks_of_subsingleton {L : List (List Bytes)} (h : ∀ w ∈ L, ∀ w' ∈ L, w = w') :
    EvenForks L := by
  have hsame : ∀ {u dir dir'}, Begins L (u ++ [dir]) → Begins L (u ++ [dir']) → dir = dir' := by
    rintro u dir dir' ⟨w, hw, hdir⟩ ⟨w', hw', hdir'⟩
    obtain rfl := h w hw w' hw'
    have heq := (List.prefix_of_prefix_length_le hdir hdir' (by simp)).eq_of_length (by simp)
    simpa using heq
  exact ⟨fun _ _ _ _ _ hb hb' => hsame hb hb', fun _ _ _ _ _ _ hb hb' w hw => hsame hb hb' ▸ hw⟩

end

/-- The last key comes first. -/
def Hashing.reversed : Hashing := ⟨List.reverse, List.reverse_perm⟩

theorem constructs_of_order {σ : Type} {rj : RapidJson σ} {order : Hashing}
    {files : Bytes → Option Bytes} {oasSpecs : Bytes} {doc : Json} {imp : OASValidatorImp σ}
    (h : Constructs rj order files oasSpecs [] doc imp) (order' : Hashing) :
    Constructs rj order' files oasSpecs [] doc imp := by
  have hnil : ∀ order : Hashing, buildCaseInsensitiveMap order [] = [] := fun order => by
    simp [buildCaseInsensitiveMap, keys, List.perm_nil.mp (order.perm [])]
  obtain ⟨fuel, hdoc, hprocess⟩ := h
  refine ⟨fuel, hdoc, ?_⟩
  rw [processDocument, hnil] at hprocess ⊢
  exact hprocess

/-- The path of an item that has an empty `get` and nothing else. -/
def bareGet : Bytes × Json → Option Bytes
  | (path, .object [(name, .object [])]) => if name = lit "get" then some path else none
  | _ => none

theorem bareGet_spec {member : Bytes × Json} {path : Bytes} (h : bareGet member = some path) :
    member = (path, .object [(lit "get", .object [])]) := by
  unfold bareGet at h
  split at h
  · split at h
    · rename_i hname
      rw [hname, Option.some.inj h]
    · simp at h
  · simp at h

theorem bareGets_spec {members : List (Bytes × Json)} {paths : List Bytes}
    (h : members.map bareGet = paths.map some) :
    members = paths.map fun path => (path, .object [(lit "get", .object [])]) := by
  induction members generalizing paths with
  | nil => rw [List.map_eq_nil_iff.mp h.symm, List.map_nil]
  | cons member members ih =>
    cases paths with
    | nil => simp at h
    | cons path paths =>
      obtain ⟨hmember, hmembers⟩ := List.cons.inj h
      rw [bareGet_spec hmember, ih hmembers, List.map_cons]

theorem layout_code_reversed : ∃ (doc doc' : Json) (imp imp' : OASValidatorImp Json),
    Constructs RapidJson.plain .insertion (fun _ => none)
      (pathsSpec [lit "/a/\x7bx\x7d", lit "/b"]) [] doc imp ∧
    Constructs RapidJson.plain .reversed (fun _ => none)
      (pathsSpec [lit "/b", lit "/a/\x7bx\x7d"]) [] doc' imp' ∧
    codeOf (imp'.call RapidJson.plain .reversed [] (.request (lit "GET") (lit "/a/1"))) =
      codeOf (imp.call RapidJson.plain .insertion [] (.request (lit "GET") (lit "/a/1"))) := by
  have hrun : ∀ paths ∈ [[lit "/a/\x7bx\x7d", lit "/b"], [lit "/b", lit "/a/\x7bx\x7d"]],
      trial (pathsSpec paths) (fun doc _ => ((membersOf (doc.member (lit "paths"))).map bareGet,
        (declaredUnderAll doc).map templates)) =
      some (.ok (paths.map some, [cut slash (lit "/a/\x7bx\x7d")] :: List.replicate 8 [])) := by
    decide +kernel
  obtain ⟨doc, imp, hdoc, hasked⟩ := trial_spec (hrun [lit "/a/\x7bx\x7d", lit "/b"] (.head _))
  obtain ⟨doc', imp', hdoc', hasked'⟩ :=
    trial_spec (hrun [lit "/b", lit "/a/\x7bx\x7d"] (.tail _ (.head _)))
  obtain ⟨hpaths, htemplates⟩ := Prod.mk.inj hasked
  obtain ⟨hpaths', -⟩ := Prod.mk.inj hasked'
  have hsame : ∀ method path, operations doc' method path = operations doc method path := by
    intro method path
    rw [operations, operations, bareGets_spec hpaths, bareGets_spec hpaths']
    exact operationsIn_perm (List.Perm.swap _ _ _) (by decide) method path
  have heven : ∀ method, EvenForks (templates (declared doc method)) := by
    intro method
    refine evenForks_of_subsingleton ?_
    simp only [declaredUnderAll, List.map_cons, List.map_nil, List.replicate, List.cons.injEq,
      and_true] at htemplates
    cases method <;> simp_all
  exact ⟨doc, doc', imp, imp', hdoc, constructs_of_order hdoc' _,
    layout_code hdoc (constructs_of_order hdoc' _) plain_resetRestores
      (fun _ _ _ _ p _ => plain_writesErrors p.2.toJsonValidator) hsame heven [] [] rfl⟩

end OasValidator
