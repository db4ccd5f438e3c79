import OasValidator.Imp.Lookup
import OasValidator.Imp.Tables
import OasValidator.PathTrie.Walk

/-! Routing as a function of the declared paths.  `route` says which of the paths declared for a method
answers a request path; a lookup goes through the methods in order, takes the first answer, and
records the ranges of all walks on its way. -/

namespace OasValidator

open Library.Cut Library.Table Library.Words PathTrie

/-- The declared path that answers a request path: the path itself, or the key that a walk through
the templates puts together. -/
def route (order : Hashing) (paths : List Bytes) (path : Bytes) : Option Bytes :=
  if path ∈ paths then some path
  else (walk order (templates paths) (cut slash path)).bind fun key =>
    if (glue slash key).dropLast ∈ paths then some (glue slash key).dropLast else none

/-- The ranges that a lookup among the paths of one method records. -/
def recordedBy (order : Hashing) (paths : List Bytes) (path : Bytes) : ParamIdxs :=
  if path ∈ paths then [] else captures order 0 (templates paths) (fragments path)

/-- The methods of a list up to the first name that no method has. -/
def knownMethods : List Bytes → List HttpMethod
  | [] => []
  | name :: rest =>
    match kStringToMethod.lookup name with
    | some method => method :: knownMethods rest
    | none => []

/-- The methods that a request is looked up under, in order. -/
def candidates (order : Hashing) (methodMap : MethodMap) (method : Bytes) : List HttpMethod :=
  match kStringToMethod.lookup method with
  | none => []
  | some m =>
    match methodMap.lookup method with
    | none => [m]
    | some methods => m :: knownMethods (order.iterate methods)

/-- The first method with an answer, and the answer. -/
def routed (order : Hashing) (paths : HttpMethod → List Bytes) (path : Bytes)
    (methods : List HttpMethod) : Option (HttpMethod × Bytes) :=
  methods.findSome? fun m => (route order (paths m) path).map fun key => (m, key)

/-- The ranges that the lookups under all methods up to the first with an answer record. -/
def recordedIn (order : Hashing) (paths : HttpMethod → List Bytes) (path : Bytes) :
    List HttpMethod → ParamIdxs
  | [] => []
  | m :: rest =>
    recordedBy order (paths m) path ++
      if (route order (paths m) path).isSome then [] else recordedIn order paths path rest

theorem record_append (entries more paramIdxs : ParamIdxs) :
    record (entries ++ more) paramIdxs = record more (record entries paramIdxs) := by
  simp [record]

section

variable {order : Hashing} {paths : HttpMethod → List Bytes} {path : Bytes}

theorem routed_append (ms ns : List HttpMethod) :
    routed order paths path (ms ++ ns) =
      (routed order paths path ms).or (routed order paths path ns) := by
  simp [routed, List.findSome?_append]

theorem routed_eq_none_iff {ms : List HttpMethod} :
    routed order paths path ms = none ↔ ∀ m ∈ ms, route order (paths m) path = none := by
  simp [routed]

theorem recordedIn_append {ms : List HttpMethod} (ns : List HttpMethod)
    (h : routed order paths path ms = none) :
    recordedIn order paths path (ms ++ ns) =
      recordedIn order paths path ms ++ recordedIn order paths path ns := by
  induction ms with
  | nil => rfl
  | cons m ms ih =>
    rw [routed_eq_none_iff] at h
    have hm := h m (by simp)
    have hms : routed order paths path ms = none :=
      routed_eq_none_iff.mpr fun m' hm' => h m' (List.mem_cons_of_mem m hm')
    simp [recordedIn, hm, ih hms]

theorem recordedIn_append_of_isSome {ms : List HttpMethod} (ns : List HttpMethod)
    (h : (routed order paths path ms).isSome) :
    recordedIn order paths path (ms ++ ns) = recordedIn order paths path ms := by
  induction ms with
  | nil => simp [routed] at h
  | cons m ms ih =>
    simp only [List.cons_append, recordedIn]
    split
    · rfl
    · rename_i hm
      rw [ih]
      rw [Option.not_isSome_iff_eq_none] at hm
      simpa [routed, hm] using h

end

theorem walk_no_slash {order : Hashing} {L : List (List Bytes)} {dirs key : List Bytes}
    (h : walk order L dirs = some key) (hL : ∀ w ∈ L, ∀ f ∈ w, slash ∉ f) :
    ∀ f ∈ key, slash ∉ f := by
  induction dirs generalizing L key with
  | nil =>
    obtain rfl : key = [] := by simpa [walk] using h.symm
    simp
  | cons dir rest ih =>
    unfold walk at h
    split at h
    · simp at h
    · rename_i fragment child ht
      obtain ⟨key', hkey, rfl⟩ := Option.map_eq_some_iff.mp h
      intro f hf
      rcases List.mem_cons.mp hf with rfl | hf
      · obtain ⟨w, hw⟩ := mem_heads.mp (turn_fragment ht).1
        exact hL _ hw _ List.mem_cons_self
      · refine ih hkey (fun w hw f hf => ?_) f hf
        exact hL _ (mem_after.mp hw) f (List.mem_cons_of_mem _ hf)

theorem templates_no_slash {paths : List Bytes} : ∀ w ∈ templates paths, ∀ f ∈ w, slash ∉ f := by
  intro w hw f hf
  obtain ⟨p, -, rfl⟩ := List.mem_map.mp hw
  exact sep_not_mem_of_mem_cut hf

/-! ### What a lookup finds -/

/-- A lookup among the methods of `methods` has this outcome. -/
structure FoundIn (order : Hashing) (paths : HttpMethod → List Bytes) (path : Bytes)
    (paramIdxs : Option ParamIdxs) (methods : List HttpMethod) (found : Found) : Prop where
  validators : found.validators = routed order paths path methods
  code : found.code = if found.validators.isSome then .NONE else .INVALID_ROUTE
  paramIdxs : found.paramIdxs = paramIdxs.map (record (recordedIn order paths path methods))

section

variable {σ : Type} {order : Hashing} {imp : OASValidatorImp σ} {paths : HttpMethod → List Bytes}

theorem table_isSome_iff (himp : Registered imp paths) (method : HttpMethod) (path : Bytes) :
    ((imp.oasValidators method).perPathValidators.lookup path).isSome ↔ path ∈ paths method := by
  rw [lookup_isSome_iff, himp.keys_iff]

theorem searchTrie_registered (himp : Registered imp paths) (method : HttpMethod) (path : Bytes)
    (paramIdxs : Option ParamIdxs) :
    OASValidatorImp.searchTrie order (imp.oasValidators method).pathTrie path paramIdxs =
      .ok (match walk order (templates (paths method)) (cut slash path) with
        | some key => (true, (glue slash key).dropLast,
            paramIdxs.map (record (captures order 0 (templates (paths method)) (fragments path))))
        | none => (false, [],
            paramIdxs.map (record (captures order 0 (templates (paths method)) (fragments path))))) :=
    by
  rw [himp.trie_eq, ← fragments_fst path]
  cases paramIdxs with
  | none =>
    simp only [OASValidatorImp.searchTrie, search, searchFrom_holding, bind, Except.bind]
    cases walk order (templates (paths method)) ((fragments path).map Prod.fst) <;> rfl
  | some idxs =>
    simp only [OASValidatorImp.searchTrie, searchParams, searchParamsFrom_holding, bind, Except.bind]
    cases walk order (templates (paths method)) ((fragments path).map Prod.fst) <;> rfl

/-- A lookup under one method. -/
theorem getValidatorsOf_registered (order : Hashing) (himp : Registered imp paths) {mappedMethod : Bytes}
    {m : HttpMethod} (hm : kStringToMethod.lookup mappedMethod = some m)
    (method httpPath errorMsg : Bytes) (paramIdxs : Option ParamIdxs) (query : Option Bytes) :
    ∃ found, imp.getValidatorsOf order method mappedMethod httpPath errorMsg paramIdxs query =
      .ok found ∧ FoundIn order paths (pathPart httpPath) paramIdxs [m] found := by
  have hrecorded : recordedIn order paths (pathPart httpPath) [m] =
      recordedBy order (paths m) (pathPart httpPath) := by
    simp [recordedIn]
  have hrouted : routed order paths (pathPart httpPath) [m] =
      (route order (paths m) (pathPart httpPath)).map fun key => (m, key) := by
    simp only [routed, List.findSome?_cons, List.findSome?_nil]
    cases route order (paths m) (pathPart httpPath) <;> rfl
  simp only [OASValidatorImp.getValidatorsOf, hm]
  by_cases hdirect : pathPart httpPath ∈ paths m
  · rw [if_pos ((table_isSome_iff himp m _).mpr hdirect)]
    refine ⟨_, rfl, ?_, ?_, ?_⟩
    · simp [hrouted, route, hdirect]
    · simp
    · rw [hrecorded, recordedBy, if_pos hdirect]
      cases paramIdxs <;> rfl
  · rw [if_neg (by rwa [table_isSome_iff himp]), searchTrie_registered himp]
    simp only [bind, Except.bind]
    have hroute : route order (paths m) (pathPart httpPath) =
        (walk order (templates (paths m)) (cut slash (pathPart httpPath))).bind fun key =>
          if (glue slash key).dropLast ∈ paths m then some (glue slash key).dropLast else none := by
      rw [route, if_neg hdirect]
    have hby : recordedBy order (paths m) (pathPart httpPath) =
        captures order 0 (templates (paths m)) (fragments (pathPart httpPath)) := by
      rw [recordedBy, if_neg hdirect]
    cases hw : walk order (templates (paths m)) (cut slash (pathPart httpPath)) with
    | none =>
      refine ⟨_, rfl, ?_, ?_, ?_⟩
      · simp [hrouted, hroute, hw]
      · simp
      · simp [hrecorded, hby]
    | some key =>
      by_cases hk : (glue slash key).dropLast ∈ paths m
      · have hsome := (table_isSome_iff himp m _).mpr hk
        simp only [hsome, Bool.and_true, if_true]
        refine ⟨_, rfl, ?_, ?_, ?_⟩
        · simp [hrouted, hroute, hw, hk]
        · simp
        · simp [hrecorded, hby]
      · have hnone : ((imp.oasValidators m).perPathValidators.lookup
            (glue slash key).dropLast).isSome = false := by
          rw [Bool.eq_false_iff]
          exact fun h => hk ((table_isSome_iff himp m _).mp h)
        simp only [hnone, Bool.and_false, Bool.false_eq_true, if_false]
        refine ⟨_, rfl, ?_, ?_, ?_⟩
        · simp [hrouted, hroute, hw, hk]
        · simp
        · simp [hrecorded, hby]

/-- The loop over the mapped methods, behind lookups under `before` that found nothing. -/
theorem getMapped_registered (himp : Registered imp paths) (method httpPath : Bytes)
    (names : List Bytes) (paramIdxs : Option ParamIdxs) (before : List HttpMethod) (found : Found)
    (hfound : FoundIn order paths (pathPart httpPath) paramIdxs before found)
    (hcode : found.code = .INVALID_ROUTE) :
    ∃ found', OASValidatorImp.getMapped order imp method httpPath names found = .ok found' ∧
      FoundIn order paths (pathPart httpPath) paramIdxs (before ++ knownMethods names) found' := by
  induction names generalizing before found with
  | nil => exact ⟨found, rfl, by simpa [knownMethods] using hfound⟩
  | cons name rest ih =>
    have hnone : routed order paths (pathPart httpPath) before = none := by
      rw [← hfound.validators]
      have := hfound.code.symm.trans hcode
      cases hv : found.validators with
      | none => rfl
      | some p => simp [hv] at this
    cases hm : kStringToMethod.lookup name with
    | none =>
      refine ⟨found, ?_, by simpa [knownMethods, hm] using hfound⟩
      simp [OASValidatorImp.getMapped, OASValidatorImp.getValidatorsOf, hm, throw, throwThe,
        MonadExceptOf.throw]
    | some m =>
      obtain ⟨next, hnext, hin⟩ := getValidatorsOf_registered order himp hm method httpPath found.errorMsg
        found.paramIdxs found.query
      have hin' : FoundIn order paths (pathPart httpPath) paramIdxs (before ++ [m]) next :=
        ⟨by rw [hin.validators, routed_append, hnone, Option.none_or], hin.code, by
          rw [hin.paramIdxs, hfound.paramIdxs, recordedIn_append _ hnone, Option.map_map]
          congr 1
          funext idxs
          exact (record_append _ _ idxs).symm⟩
      simp only [OASValidatorImp.getMapped, hnext, knownMethods, hm]
      have hcode' := hin'.code
      by_cases hv : next.validators.isSome
      · rw [if_pos hv] at hcode'
        rw [if_pos hcode']
        refine ⟨next, rfl, ?_, hin'.code, ?_⟩
        · rw [List.append_cons, routed_append, ← hin'.validators]
          exact (Option.or_of_isSome hv).symm
        · rw [List.append_cons, recordedIn_append_of_isSome _ (hin'.validators ▸ hv)]
          exact hin'.paramIdxs
      · rw [if_neg hv] at hcode'
        rw [if_neg (by simp [hcode'])]
        have := ih (before ++ [m]) next hin' hcode'
        simpa using this

/-- The valid methods are the strings that name a method, each in lower or in upper case. -/
theorem valid_methods :
    (∀ name ∈ kValidMethods, (kStringToMethod.lookup name).isSome ∧
      (name.map toLower = name ∨ name.map toUpper = name)) ∧
    ∀ p ∈ kStringToMethod, p.1 ∈ kValidMethods := by
  decide +kernel

theorem lookup_of_valid {method : Bytes} (h : method ∈ kValidMethods) :
    ∃ m, kStringToMethod.lookup method = some m :=
  Option.isSome_iff_exists.mp (valid_methods.1 method h).1

/-- A whole lookup: it goes through the methods in order and takes the first answer. -/
theorem getValidators_registered (order : Hashing) (himp : Registered imp paths) {method : Bytes}
    (hvalid : method ∈ kValidMethods) (httpPath errorMsg : Bytes) (paramIdxs : Option ParamIdxs)
    (query : Option Bytes) :
    ∃ found, imp.getValidators order method httpPath errorMsg paramIdxs query = .ok found ∧
      FoundIn order paths (pathPart httpPath) paramIdxs (candidates order imp.methodMap method)
        found := by
  obtain ⟨m, hm⟩ := lookup_of_valid hvalid
  obtain ⟨first, hfirst, hin⟩ :=
    getValidatorsOf_registered order himp hm method httpPath errorMsg paramIdxs query
  have hrun : imp.getValidators order method httpPath errorMsg paramIdxs query =
      if first.code = .INVALID_ROUTE then
        match imp.methodMap.lookup method with
        | none => .ok first
        | some names => OASValidatorImp.getMapped order imp method httpPath (order.iterate names) first
      else .ok first := by
    simp only [OASValidatorImp.getValidators, MethodValidator.validate, if_pos hvalid, ne_eq,
      not_true_eq_false, if_false, hfirst]
    rfl
  rw [hrun]
  simp only [candidates, hm]
  by_cases hv : first.validators.isSome
  · have hcode : first.code = .NONE := by rw [hin.code, if_pos hv]
    rw [if_neg (by simp [hcode])]
    refine ⟨first, rfl, ?_⟩
    cases imp.methodMap.lookup method with
    | none => exact hin
    | some names =>
      refine ⟨?_, hin.code, ?_⟩
      · have := @routed_append order paths (pathPart httpPath) [m]
          (knownMethods (order.iterate names))
        rw [← hin.validators, Option.or_of_isSome hv] at this
        exact this.symm
      · have := recordedIn_append_of_isSome (knownMethods (order.iterate names))
          (hin.validators ▸ hv)
        exact hin.paramIdxs.trans (by rw [← this]; rfl)
  · have hcode : first.code = .INVALID_ROUTE := by rw [hin.code, if_neg hv]
    rw [if_pos hcode]
    cases imp.methodMap.lookup method with
    | none => exact ⟨first, rfl, hin⟩
    | some names => exact getMapped_registered himp method httpPath _ paramIdxs [m] first hin hcode

/-- A method that is not valid is refused before any lookup. -/
theorem getValidators_invalid (order : Hashing) (imp : OASValidatorImp σ) {method : Bytes}
    (hvalid : method ∉ kValidMethods) (httpPath errorMsg : Bytes) (paramIdxs : Option ParamIdxs) (query : Option Bytes) :
    ∃ found, imp.getValidators order method httpPath errorMsg paramIdxs query = .ok found ∧
      found.code = .INVALID_METHOD ∧ found.validators = none ∧ found.paramIdxs = paramIdxs := by
  simp only [OASValidatorImp.getValidators, MethodValidator.validate, if_neg hvalid]
  exact ⟨_, rfl, rfl, rfl, rfl⟩

/-- A lookup that finds validators answered under some method. -/
theorem found_routed (himp : Registered imp paths) {method httpPath errorMsg : Bytes}
    {paramIdxs : Option ParamIdxs} {query : Option Bytes} {found : Found}
    (h : imp.getValidators order method httpPath errorMsg paramIdxs query = .ok found)
    (hcode : found.code = .NONE) :
    method ∈ kValidMethods ∧
      FoundIn order paths (pathPart httpPath) paramIdxs (candidates order imp.methodMap method)
        found ∧ found.validators.isSome := by
  by_cases hvalid : method ∈ kValidMethods
  · obtain ⟨found', h', hin⟩ :=
      getValidators_registered order himp hvalid httpPath errorMsg paramIdxs query
    obtain rfl : found' = found := Except.ok.inj (h'.symm.trans h)
    refine ⟨hvalid, hin, ?_⟩
    have hc := hin.code.symm.trans hcode
    by_contra hv
    rw [if_neg hv] at hc
    simp at hc
  · obtain ⟨found', h', hc, -⟩ :=
      getValidators_invalid order imp hvalid httpPath errorMsg paramIdxs query
    obtain rfl : found' = found := Except.ok.inj (h'.symm.trans h)
    simp [hc] at hcode

end

end OasValidator
