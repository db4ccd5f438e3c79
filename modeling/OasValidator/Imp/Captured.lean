import OasValidator.Imp.Soundness

/-! The ranges of path parameters that a lookup records.  Each is the fragment of the request path at
the recorded index, which is the index that `GetPathParamIndices` gives the parameter; but a fragment
that is the text of the parameter itself leaves nothing recorded. -/

namespace OasValidator

open Library.Cut Library.Table Library.Words Library.Scanning PathTrie

/-! ### Ranges are fragments -/

theorem ranged_getElem {t dir : Bytes} {beg i : Nat} {range : ParamRange}
    (h : (ranged beg (cut slash t))[i]? = some (dir, range)) :
    ∃ before behind, t = before ++ dir ++ behind ∧ (∀ b ∈ behind.head?, b = slash) ∧
      range = ⟨beg + before.length, beg + before.length + dir.length⟩ := by
  induction i generalizing t beg with
  | zero =>
    by_cases ht : t = []
    · simp [ht, ranged] at h
    · rw [cut_step slash ht] at h
      obtain ⟨rfl, rfl⟩ : t.takeWhile (· ≠ slash) = dir ∧ _ = range := by simpa [ranged] using h
      refine ⟨[], t.dropWhile (· ≠ slash), by simp [List.takeWhile_append_dropWhile], ?_, by simp⟩
      intro b hb
      have hdrop := List.head?_dropWhile_not (fun b => b ≠ slash) t
      rw [Option.mem_def.mp hb] at hdrop
      simpa using hdrop
  | succ i ih =>
    by_cases ht : t = []
    · simp [ht, ranged] at h
    · rw [cut_step slash ht] at h
      simp only [ranged, List.getElem?_cons_succ] at h
      obtain ⟨before, behind, hrest, hbehind, hrange⟩ := ih h
      cases hd : t.dropWhile (· ≠ slash) with
      | nil =>
        rw [hd] at h
        simp [ranged] at h
      | cons b rest =>
        rw [hd, List.tail_cons] at hrest
        refine ⟨t.takeWhile (· ≠ slash) ++ b :: before, behind, ?_, hbehind, ?_⟩
        · calc t = t.takeWhile (· ≠ slash) ++ t.dropWhile (· ≠ slash) :=
                List.takeWhile_append_dropWhile.symm
            _ = _ := by rw [hd, hrest]; simp
        · rw [hrange]
          simp only [List.length_append, List.length_cons, ParamRange.mk.injEq]
          omega

/-- The fragment at an index, with its range. -/
theorem fragments_getElem {httpPath dir : Bytes} {i : Nat} {range : ParamRange}
    (h : (fragments (pathPart httpPath))[i]? = some (dir, range)) :
    (cut slash (pathPart httpPath))[i]? = some dir ∧
      slice (dataOf httpPath) range.beg range.end_ = dir := by
  constructor
  · rw [← fragments_fst, List.getElem?_map, h]
    rfl
  · obtain ⟨before, behind, hpath, -, rfl⟩ := ranged_getElem h
    have hhttp : httpPath = before ++ dir ++ (behind ++ queryPart httpPath) := by
      rw [← List.append_assoc, ← hpath]
      exact List.takeWhile_append_dropWhile.symm
    have := slice_dataOf before dir (behind ++ queryPart httpPath)
    rw [← hhttp] at this
    simpa using this

/-! ### Indices of path parameters -/

/-- What the loop of `GetPathParamIndices` maps names to. -/
theorem paramIndicesFrom_spec {fs : List Bytes} {d : Nat} {t : List (Bytes × Nat)} {name : Bytes}
    {i : Nat} (h : (paramIndicesFrom d fs t).lookup name = some i) :
    t.lookup name = some i ∨ ∃ j fragment, i = d + j ∧ fs[j]? = some fragment ∧
      paramName? fragment = some name := by
  induction fs generalizing d t with
  | nil => exact Or.inl h
  | cons fragment fs ih =>
    rcases ih h with h | ⟨j, f, rfl, hf, hname⟩
    · cases hp : paramName? fragment with
      | none => exact Or.inl (by simpa [hp] using h)
      | some name' =>
        simp only [hp, lookup_emplace] at h
        split at h
        · rename_i hcond
          simp only [Bool.and_eq_true, beq_iff_eq] at hcond
          obtain rfl := Option.some.inj h
          exact Or.inr ⟨0, fragment, rfl, rfl, by rw [hp, hcond.1]⟩
        · exact Or.inl h
    · exact Or.inr ⟨j + 1, f, by omega, by simpa using hf, hname⟩

theorem paramName_eq_some {fragment name : Bytes} (h : paramName? fragment = some name) :
    fragment = openBrace :: name ++ [closeBrace] := by
  unfold paramName? at h
  split at h
  · rename_i hends
    obtain rfl := Option.some.inj h
    cases fragment with
    | nil => simp at hends
    | cons b rest =>
      obtain ⟨hb, hlast⟩ := hends
      obtain rfl : b = openBrace := by simpa using hb
      cases rest with
      | nil => exact absurd hlast (by decide)
      | cons c rest =>
        rw [List.getLast?_cons_cons] at hlast
        simp only [List.drop_one, List.tail_cons, List.cons_append]
        rw [List.dropLast_append_getLast? closeBrace hlast]
  · simp at h

/-- The fragment at the index of a name is the name in braces. -/
theorem getPathParamIndices_spec {path name : Bytes} {i : Nat}
    (h : (getPathParamIndices path).lookup name = some i) :
    (cut slash path)[i]? = some (openBrace :: name ++ [closeBrace]) := by
  rcases paramIndicesFrom_spec h with h | ⟨j, fragment, rfl, hf, hname⟩
  · simp at h
  · rw [Nat.zero_add, hf, paramName_eq_some hname]

section

variable {order : Hashing} {paths : HttpMethod → List Bytes} {path : Bytes}

theorem mem_recordedIn {methods : List HttpMethod} {p : Nat × ParamRange}
    (h : p ∈ recordedIn order paths path methods) :
    ∃ m ∈ methods, p ∈ recordedBy order (paths m) path := by
  induction methods with
  | nil => simp [recordedIn] at h
  | cons m rest ih =>
    rcases List.mem_append.mp h with h | h
    · exact ⟨m, List.mem_cons_self, h⟩
    · split at h
      · simp at h
      · obtain ⟨m', hm', hp⟩ := ih h
        exact ⟨m', List.mem_cons_of_mem m hm', hp⟩

theorem recordedBy_getElem {ps : List Bytes} {i : Nat} {range : ParamRange}
    (h : (i, range) ∈ recordedBy order ps path) : ∃ dir, (fragments path)[i]? = some (dir, range) := by
  unfold recordedBy at h
  split at h
  · simp at h
  · simpa using (captures_getElem h).2

end

section

variable {σ : Type} {rj : RapidJson σ} {order : Hashing} {files : Bytes → Option Bytes}
  {oasSpecs : Bytes} {methodMap : MethodMap} {doc : Json} {imp : OASValidatorImp σ}

/-- What a lookup records under an index is the range of a fragment. -/
theorem recorded_getElem {paths : HttpMethod → List Bytes} (himp : Registered imp paths)
    {method httpPath errorMsg : Bytes} {query : Option Bytes} {found : Found}
    (hfound : imp.getValidators order method httpPath errorMsg (some []) query = .ok found) {i : Nat}
    {range : ParamRange} (hmem : (i, range) ∈ found.paramIdxs.getD []) :
    ∃ dir, (fragments (pathPart httpPath))[i]? = some (dir, range) := by
  by_cases hvalid : method ∈ kValidMethods
  · obtain ⟨found', h', hin⟩ :=
      getValidators_registered order himp hvalid httpPath errorMsg (some []) query
    obtain rfl : found' = found := Except.ok.inj (h'.symm.trans hfound)
    rw [hin.paramIdxs, Option.map_some, Option.getD_some] at hmem
    rcases mem_record hmem with hmem | hmem
    · simp at hmem
    · obtain ⟨m, -, hm⟩ := mem_recordedIn hmem
      exact recordedBy_getElem hm
  · obtain ⟨found', h', -, -, hidxs⟩ :=
      getValidators_invalid order imp hvalid httpPath errorMsg (some []) query
    obtain rfl : found' = found := Except.ok.inj (h'.symm.trans hfound)
    simp [hidxs] at hmem

/-- Whatever a lookup records under an index, under whichever methods it looked, is the fragment of
the request path at this index; and the index of a parameter of the selected path is that of its own
fragment there. -/
theorem recorded_fragments (h : Constructs rj order files oasSpecs methodMap doc imp)
    {method httpPath errorMsg : Bytes} {query : Option Bytes} {found : Found}
    (hfound : imp.getValidators order method httpPath errorMsg (some []) query = .ok found) :
    (∀ i range, (i, range) ∈ found.paramIdxs.getD [] →
      ∃ dir, (fragments (pathPart httpPath))[i]? = some (dir, range) ∧
        (cut slash (pathPart httpPath))[i]? = some dir ∧
        slice (dataOf httpPath) range.beg range.end_ = dir) ∧
    ∀ m key, found.validators = some (m, key) → ∀ name i,
      (getPathParamIndices key).lookup name = some i →
        (cut slash key)[i]? = some (openBrace :: name ++ [closeBrace]) := by
  refine ⟨fun i range hmem => ?_, fun _ key _ name i hi => getPathParamIndices_spec hi⟩
  obtain ⟨dir, hdir⟩ := recorded_getElem h.registered.1 hfound hmem
  exact ⟨dir, hdir, fragments_getElem hdir⟩

end

theorem recorded_fragments_users :
    ∃ (doc : Json) (imp : OASValidatorImp Json) (found : Found),
      Constructs RapidJson.plain .insertion (fun _ => none) usersSpec [] doc imp ∧
      found.paramIdxs = some [(2, ⟨7, 8⟩)] ∧
      ∃ dir, (fragments (pathPart (lit "/users/7")))[2]? = some (dir, ⟨7, 8⟩) ∧
        (cut slash (pathPart (lit "/users/7")))[2]? = some dir ∧
        slice (dataOf (lit "/users/7")) 7 8 = dir := by
  obtain ⟨doc, imp, -, hdoc, -, hfound, -⟩ := users_built
  have hspec := (recorded_fragments hdoc hfound).1 2 ⟨7, 8⟩ (by simp)
  exact ⟨doc, imp, ⟨.NONE, [], some [(2, ⟨7, 8⟩)], none, some (.GET, lit "/users/\x7bid\x7d")⟩, hdoc,
    rfl, hspec⟩

/-! ### Parameters without a range -/

section

variable {order : Hashing}

/-- The lookup that answers records an index if and only if the fragment there of the request path
is not that of the selected path. -/
theorem mem_keys_recordedBy {paths : List Bytes} {path key fragment : Bytes} {i : Nat}
    (h : route order paths path = some key) (hi : (cut slash key)[i]? = some fragment) :
    i ∈ keys (recordedBy order paths path) ↔ (cut slash path)[i]? ≠ (cut slash key)[i]? := by
  obtain ⟨-, ⟨hp, rfl⟩ | ⟨hp, frags, hw, rfl⟩⟩ := route_spec h
  · simp [recordedBy, hp]
  · have hcut := cut_dropLast_glue_prefix (walk_no_slash hw templates_no_slash)
    have hfrag : frags[i]? = some fragment := by
      obtain ⟨more, hmore⟩ := hcut
      obtain ⟨hlt, -⟩ := List.getElem?_eq_some_iff.mp hi
      rw [← hmore, List.getElem?_append_left hlt, hi]
    have hlength := (walk_stands hw).length_eq
    obtain ⟨hlt, -⟩ := List.getElem?_eq_some_iff.mp hfrag
    obtain ⟨dir, hdir⟩ : ∃ dir, (cut slash path)[i]? = some dir :=
      ⟨_, List.getElem?_eq_getElem (hlength ▸ hlt)⟩
    rw [recordedBy, if_neg hp, ← Nat.zero_add i,
      mem_captures_iff (by rw [fragments_fst]; exact hw) i, Nat.zero_add, hi, hdir, fragments_fst]
    constructor
    · rintro ⟨f, d, hf, hd, hne⟩
      rw [hfrag] at hf
      rw [hdir] at hd
      obtain rfl := Option.some.inj hf
      obtain rfl := Option.some.inj hd
      exact fun he => hne (Option.some.inj he).symm
    · intro hne
      exact ⟨fragment, dir, hfrag, hdir, fun he => hne (congrArg some he.symm)⟩

/-- The methods of a list that come before the first with an answer. -/
def unanswered (order : Hashing) (paths : HttpMethod → List Bytes) (path : Bytes)
    (methods : List HttpMethod) : List HttpMethod :=
  methods.takeWhile fun m => (route order (paths m) path).isNone

theorem mem_keys_recordedIn {paths : HttpMethod → List Bytes} {path key : Bytes}
    {methods : List HttpMethod} {m : HttpMethod}
    (h : routed order paths path methods = some (m, key)) (i : Nat) :
    i ∈ keys (recordedIn order paths path methods) ↔
      i ∈ keys (recordedBy order (paths m) path) ∨
        ∃ m' ∈ unanswered order paths path methods, i ∈ keys (recordedBy order (paths m') path) := by
  induction methods with
  | nil => simp [routed] at h
  | cons m' rest ih =>
    simp only [recordedIn, keys_append, List.mem_append, unanswered, List.takeWhile_cons]
    cases hr : route order (paths m') path with
    | none =>
      have h' : routed order paths path rest = some (m, key) := by simpa [routed, hr] using h
      simp only [Option.isSome_none, Bool.false_eq_true, if_false, Option.isNone_none, if_true,
        List.mem_cons, exists_eq_or_imp]
      rw [ih h', unanswered]
      tauto
    | some key' =>
      obtain ⟨rfl, rfl⟩ : m' = m ∧ key' = key := by simpa [routed, hr] using h
      simp

end

section

variable {σ : Type} {rj : RapidJson σ} {order : Hashing} {files : Bytes → Option Bytes}
  {oasSpecs : Bytes} {methodMap : MethodMap} {doc : Json} {imp : OASValidatorImp σ}

/-- After a lookup that succeeds, every path parameter of the selected validators has a range if and
only if at each one's index the fragments of the request path and of the selected path differ, or a
lookup under an earlier method has recorded the index. -/
theorem params_recorded_iff (h : Constructs rj order files oasSpecs methodMap doc imp)
    {method httpPath errorMsg : Bytes} {query : Option Bytes} {found : Found} {m : HttpMethod}
    {key : Bytes} {store : ValidatorsStore σ}
    (hfound : imp.getValidators order method httpPath errorMsg (some []) query = .ok found)
    (hcode : found.code = .NONE) (hv : found.validators = some (m, key))
    (hstore : (imp.oasValidators m).perPathValidators.lookup key = some store) :
    (∀ info ∈ store.pathParamValidators, info.idx ∈ keys (found.paramIdxs.getD [])) ↔
      ∀ info ∈ store.pathParamValidators,
        (cut slash (pathPart httpPath))[info.idx]? ≠ (cut slash key)[info.idx]? ∨
          ∃ m' ∈ unanswered order (declared doc) (pathPart httpPath)
              (candidates order imp.methodMap method),
            info.idx ∈ keys (recordedBy order (declared doc m') (pathPart httpPath)) := by
  obtain ⟨hreg, -, -⟩ := h.registered
  obtain ⟨-, hin, -⟩ := found_routed hreg hfound hcode
  have hrouted := hin.validators.symm.trans hv
  have hroute := (routed_spec hrouted).2
  apply forall_congr'
  intro info
  apply imp_congr_right
  intro hinfo
  obtain ⟨name, hname⟩ := hreg.indexed m key store hstore info hinfo
  have hi := getPathParamIndices_spec hname
  have hidxs : found.paramIdxs = some (record (recordedIn order (declared doc) (pathPart httpPath)
      (candidates order imp.methodMap method)) []) := hin.paramIdxs
  rw [hidxs, Option.getD_some, mem_keys_record, mem_keys_recordedIn hrouted,
    mem_keys_recordedBy hroute hi]
  simp

end

theorem params_recorded_iff_users :
    ∃ (doc : Json) (imp : OASValidatorImp Json) (store : ValidatorsStore Json),
      Constructs RapidJson.plain .insertion (fun _ => none) usersSpec [] doc imp ∧
      store.pathParamValidators.map (·.idx) = [2] ∧
      ((∀ info ∈ store.pathParamValidators, info.idx ∈ keys [(2, (⟨7, 8⟩ : ParamRange))]) ↔
        ∀ info ∈ store.pathParamValidators,
          (cut slash (pathPart (lit "/users/7")))[info.idx]? ≠
              (cut slash (lit "/users/\x7bid\x7d"))[info.idx]? ∨
            ∃ m' ∈ unanswered .insertion (declared doc) (pathPart (lit "/users/7"))
                (candidates .insertion imp.methodMap (lit "GET")),
              info.idx ∈ keys
                (recordedBy .insertion (declared doc m') (pathPart (lit "/users/7")))) := by
  obtain ⟨doc, imp, store, hdoc, -, hfound, -, hstore, hidxs⟩ := users_built
  exact ⟨doc, imp, store, hdoc, hidxs, params_recorded_iff hdoc hfound rfl rfl hstore⟩

/-- The path `/users/{id}`, taken as it stands, is found in the table, and its parameter has no
range. -/
theorem users_parameter_unrecorded : ¬∀ (rj : RapidJson Json) (order : Hashing)
    (files : Bytes → Option Bytes) (oasSpecs : Bytes) (methodMap : MethodMap) (doc : Json)
    (imp : OASValidatorImp Json), Constructs rj order files oasSpecs methodMap doc imp →
      ∀ (method httpPath errorMsg : Bytes) (query : Option Bytes) (found : Found) (m : HttpMethod)
        (key : Bytes) (store : ValidatorsStore Json),
        imp.getValidators order method httpPath errorMsg (some []) query = .ok found →
        found.code = .NONE → found.validators = some (m, key) →
        (imp.oasValidators m).perPathValidators.lookup key = some store →
          ∀ info ∈ store.pathParamValidators, info.idx ∈ keys (found.paramIdxs.getD []) := by
  intro h
  obtain ⟨doc, imp, store, hdoc, -, -, hfound, hstore, hidxs⟩ := users_built
  have hall := h _ _ _ _ _ _ _ hdoc _ _ _ _ _ _ _ _ hfound rfl rfl hstore
  have hmem : 2 ∈ store.pathParamValidators.map (·.idx) := by simp [hidxs]
  obtain ⟨info, hinfo, -⟩ := List.mem_map.mp hmem
  simpa using hall info hinfo

end OasValidator
