import OasValidator.Imp.Captured
import OasValidator.Imp.ErrorTexts
import OasValidator.Imp.HeaderNames
import OasValidator.Imp.Operations
import OasValidator.Validators.Exploded

/-! What it takes for a request to be accepted.  The checks go through the parts of a request one after
the other, end early and hand states on; together they accept what meets each declaration of the
operation that the request routes to. -/

namespace OasValidator

open Library.Cut Library.Table PathTrie ValidatorsStore Checked

variable {σ : Type}

/-! ### Meeting declarations -/

section

variable (rj : RapidJson σ)

/-- The text is a document up to its first NUL, and the schema accepts it. -/
def JsonValidator.AcceptsText (v : JsonValidator σ) (text : Bytes) : Prop :=
  ∃ doc, rj.parse (cstr text) = .ok doc ∧ (rj.accept v.validator doc).1 = true

/-- The range is deserialized to a text that the schema accepts. -/
def ParamValidator.AcceptsRange (v : ParamValidator σ) (buf : Nat → UInt8) (beg end_ : Nat) : Prop :=
  ∃ text, (v.deserializer.deserialize buf beg end_).1 = .ok text ∧ v.toJsonValidator.AcceptsText rj text

/-- The fragment of a path parameter is recorded, and accepted. -/
def PathParamValidatorInfo.Takes (info : PathParamValidatorInfo σ) (httpPath : Bytes)
    (recorded : ParamIdxs) : Prop :=
  ∃ dir range, (fragments (pathPart httpPath))[info.idx]? = some (dir, range) ∧
    info.idx ∈ keys recorded ∧ info.validator.AcceptsRange rj (dataOf httpPath) range.beg range.end_

/-- A query parameter occurs nowhere and is optional, or stands behind `?` or `&` and accepts the text up
to the place in front of the next one that is located. -/
def QueryParamValidatorInfo.Takes (info : QueryParamValidatorInfo σ)
    (infos : List (QueryParamValidatorInfo σ)) (query : Bytes) : Prop :=
  match find info.name query with
  | none => info.validator.required = false
  | some start => Marked query start ∧ ∃ next, nextStart (startsOf infos query) start = .ok next ∧
      info.validator.AcceptsRange rj (dataOf query) start (next - 1)

/-- A header is missing and optional, or accepted. -/
def ParamValidator.TakesHeader (v : ParamValidator σ) (name : Bytes) (given : List (Bytes × Bytes)) :
    Prop :=
  match given.lookup name with
  | none => v.required = false
  | some param => v.AcceptsRange rj (dataOf param) 0 param.length

namespace ValidatorsStore

def TakesBody (store : ValidatorsStore σ) (jsonBody : Bytes) : Prop :=
  ∀ v ∈ store.bodyValidator, v.AcceptsText rj jsonBody

def TakesPath (store : ValidatorsStore σ) (httpPath : Bytes) (recorded : ParamIdxs) : Prop :=
  ∀ info ∈ store.pathParamValidators, info.Takes rj httpPath recorded

def TakesQuery (store : ValidatorsStore σ) (query : Bytes) : Prop :=
  ∀ info ∈ store.queryParamValidators, info.Takes rj store.queryParamValidators query

def TakesHeaders (store : ValidatorsStore σ) (given : List (Bytes × Bytes)) : Prop :=
  ∀ name v, store.headerParamValidators.lookup name = some v → v.TakesHeader rj name given

end ValidatorsStore

namespace Call

def jsonBody : Call → Option Bytes
  | .body _ _ jsonBody | .requestBody _ _ jsonBody | .requestBodyHeaders _ _ jsonBody _ => some jsonBody
  | _ => none

def givenHeaders : Call → Option (List (Bytes × Bytes))
  | .headers _ _ given | .requestHeaders _ _ given | .requestBodyHeaders _ _ _ given => some given
  | _ => none

/-- What a call asks to be checked is accepted by the validators of an operation. -/
structure Meets (call : Call) (recorded : ParamIdxs) (store : ValidatorsStore σ) : Prop where
  body : ∀ jsonBody ∈ call.jsonBody, store.TakesBody rj jsonBody
  path : call.asks.1 = true → store.TakesPath rj call.httpPath recorded
  query : call.asks.2 = true → store.TakesQuery rj (queryPart call.httpPath)
  headers : ∀ given ∈ call.givenHeaders, store.TakesHeaders rj given

variable {rj} in
theorem meets_iff {call : Call} {recorded : ParamIdxs} {store : ValidatorsStore σ} :
    call.Meets rj recorded store ↔ (∀ jsonBody ∈ call.jsonBody, store.TakesBody rj jsonBody) ∧
      (call.asks.1 = true → store.TakesPath rj call.httpPath recorded) ∧
      (call.asks.2 = true → store.TakesQuery rj (queryPart call.httpPath)) ∧
      ∀ given ∈ call.givenHeaders, store.TakesHeaders rj given :=
  ⟨fun h => ⟨h.body, h.path, h.query, h.headers⟩, fun h => ⟨h.1, h.2.1, h.2.2.1, h.2.2.2⟩⟩

end Call

end

/-! ### The single checks -/

section

variable {rj : RapidJson σ} {order : Hashing} {store : ValidatorsStore σ}

theorem validateParam_passes_iff_accepts {v : ParamValidator σ} (hcode : v.codeOnError ≠ .NONE)
    (buf : Nat → UInt8) (beg end_ : Nat) (m : Bytes) :
    Passes (v.validateParam rj buf beg end_ m) ↔ v.AcceptsRange rj buf beg end_ := by
  unfold ParamValidator.validateParam ParamValidator.AcceptsRange
  cases hread : (v.deserializer.deserialize buf beg end_).1 with
  | ok text =>
    simp only [Except.ok.injEq, exists_eq_left']
    exact passes_map_iff.trans (validate_passes_iff hcode text m)
  | error e =>
    cases e with
    | exception what => simp [Passes, hcode]
    | lengthError => simp [Passes]

theorem validateBody_passes_iff (hkeyed : store.Keyed) (jsonBody m : Bytes) :
    Passes (store.validateBody rj jsonBody m) ↔ store.TakesBody rj jsonBody := by
  unfold validateBody TakesBody
  cases hbody : store.bodyValidator with
  | none => simp [Passes]
  | some v =>
    simp only [Option.mem_some_iff, forall_eq']
    exact passes_map_iff.trans (validate_passes_iff (hkeyed.body v (by simp [hbody])).code jsonBody m)

theorem checkPathParams_passes_iff {infos : List (PathParamValidatorInfo σ)}
    (hcode : ∀ info ∈ infos, info.validator.codeOnError ≠ .NONE) (buf : Nat → UInt8)
    (paramIdxs : ParamIdxs) (m : Bytes) :
    Passes (checkPathParams rj buf paramIdxs infos m) ↔ ∀ info ∈ infos, ∃ range,
      paramIdxs.lookup info.idx = some range ∧ info.validator.AcceptsRange rj buf range.beg range.end_ := by
  induction infos generalizing m with
  | nil => simp [checkPathParams, Passes]
  | cons info rest ih =>
    have ih := ih fun i hi => hcode i (List.mem_cons_of_mem _ hi)
    have hinfo := hcode info List.mem_cons_self
    rw [List.forall_mem_cons]
    unfold checkPathParams
    cases hrange : paramIdxs.lookup info.idx with
    | none => simp [Passes, hinfo]
    | some range =>
      simp only [Option.some.injEq, exists_eq_left']
      refine (passes_next_iff
        (f := fun w m => checkPathParams rj buf paramIdxs rest m >>= fun cs =>
          pure (cs.map ({ info with validator := w } :: ·)))
        (g := fun w => { info with validator := w } :: rest)).trans ?_
      rw [← validateParam_passes_iff_accepts hinfo buf range.beg range.end_ m]
      simp only [passes_map_iff, ih]
      constructor
      · rintro ⟨c, hc, hnone, hrest⟩
        exact ⟨⟨c, hc, hnone⟩, hrest⟩
      · rintro ⟨⟨c, hc, hnone⟩, hrest⟩
        exact ⟨c, hc, hnone, hrest⟩

/-- A lookup finds the range of a fragment, where all recorded ranges are such. -/
theorem takes_iff_range {httpPath : Bytes} {recorded : ParamIdxs}
    (hranges : ∀ i range, (i, range) ∈ recorded → ∃ dir, (fragments (pathPart httpPath))[i]? =
      some (dir, range)) (info : PathParamValidatorInfo σ) :
    info.Takes rj httpPath recorded ↔ ∃ range, (record recorded []).lookup info.idx = some range ∧
      info.validator.AcceptsRange rj (dataOf httpPath) range.beg range.end_ := by
  have hfragment : ∀ range, (record recorded []).lookup info.idx = some range →
      ∃ dir, (fragments (pathPart httpPath))[info.idx]? = some (dir, range) := fun range h =>
    hranges _ _ ((mem_record (mem_of_lookup h)).resolve_left (by simp))
  constructor
  · rintro ⟨dir, range, hdir, hmem, haccepts⟩
    obtain ⟨range', hrange'⟩ := exists_lookup (mem_keys_record.mpr (Or.inr hmem))
    obtain ⟨dir', hdir'⟩ := hfragment range' hrange'
    obtain ⟨-, rfl⟩ := Prod.mk.inj (Option.some.inj (hdir.symm.trans hdir'))
    exact ⟨range, hrange', haccepts⟩
  · rintro ⟨range, hrange, haccepts⟩
    obtain ⟨dir, hdir⟩ := hfragment range hrange
    exact ⟨dir, range, hdir, by simpa using mem_keys_record.mp (mem_keys_of_lookup hrange), haccepts⟩

theorem validatePathParams_passes_iff (hkeyed : store.Keyed) {httpPath : Bytes} {recorded : ParamIdxs}
    (hranges : ∀ i range, (i, range) ∈ recorded → ∃ dir, (fragments (pathPart httpPath))[i]? =
      some (dir, range)) (m : Bytes) :
    Passes (store.validatePathParams rj (dataOf httpPath) (record recorded []) m) ↔
      store.TakesPath rj httpPath recorded := by
  refine passes_map_iff.trans ((checkPathParams_passes_iff
    (fun info hinfo => (hkeyed.path info hinfo).keyed.code) _ _ m).trans ?_)
  exact forall₂_congr fun info _ => (takes_iff_range hranges info).symm

theorem validateQueryParams_passes_iff_takes (hkeyed : store.Keyed) (query m : Bytes) :
    Passes (store.validateQueryParams rj query m) ↔ store.TakesQuery rj query := by
  rw [validateQueryParams_passes_iff_cleared rj fun info hinfo => (hkeyed.query info hinfo).code]
  refine forall₂_congr fun info hinfo => ?_
  have hcode := (hkeyed.query info hinfo).keyed.keyed.code
  unfold QueryParamValidatorInfo.Takes
  cases hfind : find info.name query with
  | none => simp [cutRange, hfind, RangePasses]
  | some start =>
    simp only [cutRange, hfind, Option.map_some, Option.some.injEq, forall_eq']
    cases hnext : nextStart (startsOf store.queryParamValidators query) start with
    | error fault => simp [Except.map, RangePasses]
    | ok next =>
      simp only [Except.map, RangePasses, Except.ok.injEq, exists_eq_left']
      exact and_congr_right fun _ =>
        passes_map_iff.trans (validateParam_passes_iff_accepts hcode _ _ _ _)

theorem validateHeaderParams_passes_iff (hreset : ResetRestores rj) (hrest : store.AtRest rj)
    (hkeyed : store.Keyed) (given : List (Bytes × Bytes)) (m : Bytes) :
    Passes (store.validateHeaderParams rj order given m) ↔ store.TakesHeaders rj given := by
  have hcode : ∀ p ∈ store.headerParamValidators, p.2.codeOnError ≠ .NONE := fun p hp =>
    (hkeyed.header p hp).keyed.code
  rw [validateHeaderParams, passes_map_iff, checkHeaderParams_passes_iff hreset given
    (fun _ hname => (order.perm _).mem_iff.mp hname) fun p hp => ⟨hrest.header p hp, hcode p hp⟩]
  have hcleared : ∀ name v, store.headerParamValidators.lookup name = some v →
      (HeaderCleared rj given name v ↔ v.TakesHeader rj name given) := fun name v hv => by
    unfold HeaderCleared ParamValidator.TakesHeader
    cases given.lookup name with
    | none => rfl
    | some param =>
      exact validateParam_passes_iff_accepts (hcode _ (mem_of_lookup hv)) _ _ _ _
  refine ⟨fun h name v hv => (hcleared name v hv).mp (h name ?_ v hv), fun h name _ v hv =>
    (hcleared name v hv).mpr (h name v hv)⟩
  exact (order.perm _).mem_iff.mpr (mem_keys_of_lookup hv)

/-! ### The checks of a call -/

/-- Two checks pass one behind the other when each passes, where the first one leaves the store. -/
theorem passes_andThen_iff {τ : Type} {x : τ} {r : Except Fault (Checked τ)}
    {next : τ → Bytes → Except Fault (Checked τ)} {P Q : Prop} (hkeeps : Keeps x r)
    (hr : Passes r ↔ P) (hnext : ∀ m, Passes (next x m) ↔ Q) :
    Passes (Checked.andThen r next) ↔ P ∧ Q := by
  rw [← hr]
  constructor
  · rintro ⟨c, hc, hnone⟩
    obtain ⟨d, hd, hc⟩ := bind_eq_ok_iff.mp hc
    split at hc
    · rename_i hcode
      refine ⟨⟨d, hd, hcode⟩, (hnext d.errorMsg).mp ⟨c, ?_, hnone⟩⟩
      rw [← hkeeps d hd]
      exact hc
    · rename_i hcode
      obtain rfl := Except.ok.inj hc
      exact absurd hnone hcode
  · rintro ⟨⟨d, hd, hcode⟩, hQ⟩
    obtain ⟨c, hc, hnone⟩ := (hnext d.errorMsg).mpr hQ
    refine ⟨c, ?_, hnone⟩
    simp only [Checked.andThen, hd, bind, Except.bind, hcode, if_true, hkeeps d hd]
    exact hc

/-- The check of a call passes when the request meets the validators. -/
theorem check_passes_iff (hreset : ResetRestores rj) (hrest : store.AtRest rj) (hkeyed : store.Keyed)
    {call : Call} {found : Found} {recorded : ParamIdxs}
    (hranges : ∀ i range, (i, range) ∈ recorded → ∃ dir, (fragments (pathPart call.httpPath))[i]? =
      some (dir, range))
    (hidxs : call.asks.1 = true → found.paramIdxs.getD [] = record recorded [])
    (hquery : call.asks.2 = true → found.query.getD [] = queryPart call.httpPath) (m : Bytes) :
    Passes (call.check rj order found store m) ↔ call.Meets rj recorded store := by
  have hbody : ∀ jsonBody m, Passes (store.validateBody rj jsonBody m) ↔ store.TakesBody rj jsonBody :=
    validateBody_passes_iff hkeyed
  have hpath : call.asks.1 = true → ∀ m, Passes (store.validatePathParams rj (dataOf call.httpPath)
      (found.paramIdxs.getD []) m) ↔ store.TakesPath rj call.httpPath recorded := fun h m => by
    rw [hidxs h]
    exact validatePathParams_passes_iff hkeyed hranges m
  have hparams : call.asks.2 = true → ∀ m, Passes (store.validateQueryParams rj (found.query.getD [])
      m) ↔ store.TakesQuery rj (queryPart call.httpPath) := fun h m => by
    rw [hquery h]
    exact validateQueryParams_passes_iff_takes hkeyed _ m
  have hheaders : ∀ given m, Passes (store.validateHeaderParams rj order given m) ↔
      store.TakesHeaders rj given := validateHeaderParams_passes_iff hreset hrest hkeyed
  have hboth : call.asks.1 = true → call.asks.2 = true → ∀ m,
      Passes (Checked.andThen (store.validatePathParams rj (dataOf call.httpPath)
        (found.paramIdxs.getD []) m) fun store m => store.validateQueryParams rj (found.query.getD []) m) ↔
      store.TakesPath rj call.httpPath recorded ∧ store.TakesQuery rj (queryPart call.httpPath) :=
    fun h h' m => passes_andThen_iff (validatePathParams_keeps hreset hrest _ _ m) (hpath h m) (hparams h')
  have hthree : call.asks.1 = true → call.asks.2 = true → ∀ given m,
      Passes (Checked.andThen (store.validatePathParams rj (dataOf call.httpPath)
        (found.paramIdxs.getD []) m) fun store m =>
          Checked.andThen (store.validateQueryParams rj (found.query.getD []) m) fun store m =>
            store.validateHeaderParams rj order given m) ↔
      store.TakesPath rj call.httpPath recorded ∧ store.TakesQuery rj (queryPart call.httpPath) ∧
        store.TakesHeaders rj given := fun h h' given m =>
    passes_andThen_iff (validatePathParams_keeps hreset hrest _ _ m) (hpath h m) fun m =>
      passes_andThen_iff (validateQueryParams_keeps hreset hrest _ m) (hparams h' m) (hheaders given)
  rw [Call.meets_iff]
  cases call with
  | route method httpPath => simp [Call.check, Passes, Call.jsonBody, Call.asks, Call.givenHeaders]
  | body method httpPath jsonBody =>
    refine (hbody jsonBody m).trans ?_
    simp [Call.jsonBody, Call.asks, Call.givenHeaders]
  | pathParam method httpPath =>
    refine (hpath rfl m).trans ?_
    simp [Call.jsonBody, Call.asks, Call.givenHeaders]
  | queryParam method httpPath =>
    refine (hparams rfl m).trans ?_
    simp [Call.jsonBody, Call.asks, Call.givenHeaders]
  | headers method httpPath given =>
    refine (hheaders given m).trans ?_
    simp [Call.jsonBody, Call.asks, Call.givenHeaders]
  | request method httpPath =>
    refine (hboth rfl rfl m).trans ?_
    simp [Call.jsonBody, Call.asks, Call.givenHeaders]
  | requestBody method httpPath jsonBody =>
    rw [Call.check]
    refine Iff.trans (passes_andThen_iff (validateBody_keeps hreset hrest jsonBody m)
      (hbody jsonBody m) (hboth rfl rfl)) ?_
    simp [Call.jsonBody, Call.asks, Call.givenHeaders]
  | requestHeaders method httpPath given =>
    refine (hthree rfl rfl given m).trans ?_
    simp [Call.jsonBody, Call.asks, Call.givenHeaders]
  | requestBodyHeaders method httpPath jsonBody given =>
    rw [Call.check]
    refine Iff.trans (passes_andThen_iff (validateBody_keeps hreset hrest jsonBody m)
      (hbody jsonBody m) (hthree rfl rfl given)) ?_
    simp [Call.jsonBody, Call.asks, Call.givenHeaders]

end

/-! ### Calls -/

section

variable {rj : RapidJson σ} {order : Hashing} {files : Bytes → Option Bytes} {oasSpecs : Bytes}
  {methodMap : MethodMap} {doc : Json} {imp : OASValidatorImp σ}

/-- What a call asks its lookup for is there when it returns. -/
theorem lookup_asked {errorMsg : Bytes} {call : Call}
    {found : Found} (hvalid : call.method ∈ kValidMethods)
    (hin : FoundIn order (declared doc) (pathPart call.httpPath) (if call.asks.1 then some [] else none)
      (candidates order imp.methodMap call.method) found)
    (hfound : imp.lookup order errorMsg call = .ok found) :
    (call.asks.1 = true → found.paramIdxs.getD [] = record (recordedIn order (declared doc)
      (pathPart call.httpPath) (candidates order imp.methodMap call.method)) []) ∧
    (call.asks.2 = true → found.query.getD [] = queryPart call.httpPath) := by
  refine ⟨fun h => ?_, fun h => ?_⟩
  · rw [hin.paramIdxs, if_pos h]
    rfl
  · rw [OASValidatorImp.lookup, if_pos h] at hfound
    rw [getValidators_query hvalid hfound]
    rfl

/-- A call that routes to a declared operation passes when it meets the validators of this operation. -/
theorem call_passes_iff_meets (h : Constructs rj order files oasSpecs methodMap doc imp)
    (hreset : ResetRestores rj) (errorMsg : Bytes) {call : Call} (hvalid : call.method ∈ kValidMethods)
    {method : HttpMethod} {path : Bytes} {store : ValidatorsStore σ}
    (hrouted : routed order (declared doc) (pathPart call.httpPath)
      (candidates order (buildCaseInsensitiveMap order methodMap) call.method) = some (method, path))
    (hstore : (imp.oasValidators method).perPathValidators.lookup path = some store) :
    Passes (imp.call rj order errorMsg call) ↔
      call.Meets rj (recordedIn order (declared doc) (pathPart call.httpPath)
        (candidates order (buildCaseInsensitiveMap order methodMap) call.method)) store := by
  obtain ⟨hreg, hmap, -⟩ := h.registered
  rw [← hmap] at hrouted ⊢
  rw [OASValidatorImp.call_eq_lookup hreg]
  obtain ⟨found, hfound, ⟨hinvalid, -⟩ | ⟨-, hin⟩⟩ :=
    @OASValidatorImp.lookup_registered _ order imp _ hreg errorMsg call
  · exact absurd hvalid hinvalid
  rw [hfound]
  have hcode : found.code = .NONE := by rw [hin.code, hin.validators, hrouted]; rfl
  obtain ⟨hidxs, hquery⟩ := lookup_asked hvalid hin hfound
  have hcheck : Passes (imp.withStore found (call.check rj order found)) ↔
      Passes (call.check rj order found store found.errorMsg) := by
    unfold OASValidatorImp.withStore
    rw [if_neg (by simp [hcode]), hin.validators, hrouted]
    simp only [hstore]
    exact passes_map_iff
  have hkeyed : store.Keyed := by
    obtain ⟨_, -, hprocess⟩ := h
    exact keyed_kept.processDocument hprocess method path store hstore
  refine hcheck.trans ?_
  exact check_passes_iff hreset (h.atRest method path store hstore) hkeyed
    (fun i range hmem => recordedBy_getElem (mem_recordedIn hmem).choose_spec.2) hidxs hquery _

/-- A call whose lookup fails does not pass. -/
theorem call_not_passes {paths : HttpMethod → List Bytes} (himp : Registered imp paths) {errorMsg : Bytes}
    {call : Call} {found : Found} (hfound : imp.lookup order errorMsg call = .ok found)
    (hcode : found.code ≠ .NONE) : ¬Passes (imp.call rj order errorMsg call) := by
  rw [OASValidatorImp.call_eq_lookup himp, hfound]
  rintro ⟨c, hc, hnone⟩
  obtain rfl : (⟨found.code, found.errorMsg, imp⟩ : Checked (OASValidatorImp σ)) = c := by
    simpa [OASValidatorImp.withStore, hcode, bind, Except.bind] using hc
  exact hcode hnone

/-- A call returns `NONE` if and only if its method is one of HTTP, its path routes to an operation that
the document declares, and what is to be checked meets the validators that the declarations of this
operation make. -/
theorem call_accepts_iff (h : Constructs rj order files oasSpecs methodMap doc imp)
    (hreset : ResetRestores rj) (errorMsg : Bytes) (call : Call) :
    Passes (imp.call rj order errorMsg call) ↔
      call.method ∈ kValidMethods ∧ ∃ method path store,
        routed order (declared doc) (pathPart call.httpPath)
          (candidates order (buildCaseInsensitiveMap order methodMap) call.method) =
            some (method, path) ∧
        storeOf rj path (operations doc method path) = .ok (some store) ∧
        call.Meets rj (recordedIn order (declared doc) (pathPart call.httpPath)
          (candidates order (buildCaseInsensitiveMap order methodMap) call.method)) store := by
  obtain ⟨hreg, hmap, -⟩ := h.registered
  obtain ⟨found, hfound, ⟨hinvalid, hcode⟩ | ⟨hvalid, hin⟩⟩ :=
    @OASValidatorImp.lookup_registered _ order imp _ hreg errorMsg call
  · exact iff_of_false (call_not_passes hreg hfound (by simp [hcode])) fun h => hinvalid h.1
  · cases hrouted : routed order (declared doc) (pathPart call.httpPath)
        (candidates order (buildCaseInsensitiveMap order methodMap) call.method) with
    | none =>
      have hcode : found.code = .INVALID_ROUTE := by
        rw [hin.code, hin.validators, hmap, hrouted]
        rfl
      exact iff_of_false (call_not_passes hreg hfound (by simp [hcode])) (by simp)
    | some selected =>
      obtain ⟨method, path⟩ := selected
      have hdeclared : path ∈ declared doc method := (route_spec (routed_spec hrouted).2).1
      obtain ⟨store, hstore⟩ := exists_lookup ((hreg.keys_iff method path).mpr hdeclared)
      rw [call_passes_iff_meets h hreset errorMsg hvalid hrouted hstore]
      simp [hvalid, h.builtFrom method path, hstore]

end

theorem call_accepts_iff_users : ∃ (doc : Json) (imp : OASValidatorImp Json),
    Constructs RapidJson.plain .insertion (fun _ => none) usersSpec [] doc imp ∧
      (Passes (imp.call RapidJson.plain .insertion [] (.request (lit "GET") (lit "/users/7"))) ↔
        lit "GET" ∈ kValidMethods ∧ ∃ method path store,
          routed .insertion (declared doc) (pathPart (lit "/users/7"))
            (candidates .insertion (buildCaseInsensitiveMap .insertion []) (lit "GET")) =
              some (method, path) ∧
          storeOf RapidJson.plain path (operations doc method path) = .ok (some store) ∧
          Call.Meets RapidJson.plain (.request (lit "GET") (lit "/users/7"))
            (recordedIn .insertion (declared doc) (pathPart (lit "/users/7"))
              (candidates .insertion (buildCaseInsensitiveMap .insertion []) (lit "GET"))) store) := by
  obtain ⟨doc, imp, -, hdoc, -⟩ := users_built
  exact ⟨doc, imp, hdoc, call_accepts_iff hdoc plain_resetRestores [] _⟩

end OasValidator
