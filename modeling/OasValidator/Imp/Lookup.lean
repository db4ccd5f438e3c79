import OasValidator.Imp.Construct

/-! Finding the validators of a request. -/

namespace OasValidator

open Library.Table

/-- What a lookup leaves behind: its code, `error_msg`, the ranges of path parameters and the query
where the caller asked for them, and the key of the validators in the table of a method. -/
structure Found where
  code : ValidationError
  errorMsg : Bytes
  paramIdxs : Option ParamIdxs
  query : Option Bytes
  validators : Option (HttpMethod × Bytes)
  deriving DecidableEq

/-- The text before a question mark. -/
def pathPart (httpPath : Bytes) : Bytes := httpPath.takeWhile (· ≠ question)

/-- The text from a question mark on. -/
def queryPart (httpPath : Bytes) : Bytes := httpPath.dropWhile (· ≠ question)

def invalidRoute (method httpPath : Bytes) : Bytes :=
  lit "\x7b\"errorCode\":\"INVALID_ROUTE\",\"details\":\x7b\"description\": \"Invalid HTTP method '" ++
    method ++ lit "' or path: '" ++ httpPath ++ lit "'\"\x7d\x7d"

namespace OASValidatorImp

variable {σ : Type} (order : Hashing) (imp : OASValidatorImp σ)

/-- Either `Search`, by whether the caller asks for ranges. -/
def searchTrie (trie : PathTrie.Node) (path : Bytes) :
    Option ParamIdxs → Except Fault (Bool × Bytes × Option ParamIdxs)
  | some idxs => do
    let (found, mapKey, idxs) ← PathTrie.searchParams order trie path idxs
    pure (found, mapKey, some idxs)
  | none => do
    let (found, mapKey) ← PathTrie.search order trie path
    pure (found, mapKey, none)

/-- The lookup under one method: first by the path itself, then by the key that the trie gives. -/
def getValidatorsOf (method mappedMethod httpPath errorMsg : Bytes) (paramIdxs : Option ParamIdxs)
    (query : Option Bytes) : Except Fault Found := do
  match kStringToMethod.lookup mappedMethod with
  | none => throw .outOfRange
  | some enumMethod =>
    let query := if question ∈ httpPath then query.map fun _ => queryPart httpPath else query
    let perMethod := imp.oasValidators enumMethod
    let path := pathPart httpPath
    if (perMethod.perPathValidators.lookup path).isSome then
      pure ⟨.NONE, errorMsg, paramIdxs, query, some (enumMethod, path)⟩
    else
      let (found, mapKey, paramIdxs) ← searchTrie order perMethod.pathTrie path paramIdxs
      if found && (perMethod.perPathValidators.lookup mapKey).isSome then
        pure ⟨.NONE, errorMsg, paramIdxs, query, some (enumMethod, mapKey)⟩
      else pure ⟨.INVALID_ROUTE, invalidRoute method httpPath, paramIdxs, query, none⟩

/-- The loop over the mapped methods.  A method that the table of methods lacks ends it, with the code
and the outputs of the lookup before. -/
def getMapped (method httpPath : Bytes) : List Bytes → Found → Except Fault Found
  | [], found => .ok found
  | mappedMethod :: rest, found =>
    match imp.getValidatorsOf order method mappedMethod httpPath found.errorMsg found.paramIdxs
      found.query with
    | .error .outOfRange => .ok found
    | .error x => .error x
    | .ok next => if next.code = .NONE then .ok next else getMapped method httpPath rest next

def getValidators (method httpPath errorMsg : Bytes) (paramIdxs : Option ParamIdxs)
    (query : Option Bytes) : Except Fault Found := do
  let (code, errorMsg) := MethodValidator.validate imp.methodValidator method errorMsg
  if code ≠ .NONE then pure ⟨code, errorMsg, paramIdxs, query, none⟩
  else
    let found ← imp.getValidatorsOf order method method httpPath errorMsg paramIdxs query
    if found.code = .INVALID_ROUTE then
      match imp.methodMap.lookup method with
      | none => pure found
      | some mappedMethods =>
        getMapped order imp method httpPath (order.iterate mappedMethods) found
    else pure found

end OASValidatorImp

section

/-! ### What a lookup leaves in its outputs -/

variable {σ : Type} {order : Hashing} {imp : OASValidatorImp σ}

/-- A lookup under one method leaves `error_msg` alone, or puts in the text of an invalid route. -/
theorem getValidatorsOf_errorMsg {method mappedMethod httpPath errorMsg : Bytes}
    {paramIdxs : Option ParamIdxs} {query : Option Bytes} {found : Found}
    (h : imp.getValidatorsOf order method mappedMethod httpPath errorMsg paramIdxs query = .ok found) :
    found.code = .NONE ∧ found.errorMsg = errorMsg ∨
      found.code = .INVALID_ROUTE ∧ found.errorMsg = invalidRoute method httpPath := by
  unfold OASValidatorImp.getValidatorsOf at h
  split at h
  · simp [throw, throwThe, MonadExceptOf.throw] at h
  · dsimp only at h
    split at h
    · obtain rfl := Except.ok.inj h
      exact Or.inl ⟨rfl, rfl⟩
    · obtain ⟨⟨b, mapKey, idxs⟩, -, h⟩ := bind_eq_ok_iff.mp h
      dsimp only at h
      split at h
      · obtain rfl := Except.ok.inj h
        exact Or.inl ⟨rfl, rfl⟩
      · obtain rfl := Except.ok.inj h
        exact Or.inr ⟨rfl, rfl⟩

/-- The loop over the mapped methods starts with the text of an invalid route, and ends with it also
where it finds a route. -/
theorem getMapped_errorMsg {method httpPath : Bytes} {names : List Bytes} {found found' : Found}
    (hfound : found.errorMsg = invalidRoute method httpPath)
    (h : OASValidatorImp.getMapped order imp method httpPath names found = .ok found') :
    found'.errorMsg = invalidRoute method httpPath := by
  induction names generalizing found with
  | nil =>
    obtain rfl := Except.ok.inj h
    exact hfound
  | cons name rest ih =>
    unfold OASValidatorImp.getMapped at h
    split at h
    · obtain rfl := Except.ok.inj h
      exact hfound
    · simp at h
    · rename_i next hnext
      have hmsg : next.errorMsg = invalidRoute method httpPath := by
        rcases getValidatorsOf_errorMsg hnext with ⟨-, hm⟩ | ⟨-, hm⟩
        · rw [hm, hfound]
        · exact hm
      split at h
      · obtain rfl := Except.ok.inj h
        exact hmsg
      · exact ih hmsg h

/-- A lookup of a valid method leaves `error_msg` alone if the path routes under the method itself,
and puts in the text of an invalid route if it does not. -/
theorem getValidators_errorMsg {method httpPath errorMsg : Bytes} {paramIdxs : Option ParamIdxs}
    {query : Option Bytes} {found : Found} (hvalid : method ∈ kValidMethods)
    (h : imp.getValidators order method httpPath errorMsg paramIdxs query = .ok found) :
    ∃ first, imp.getValidatorsOf order method method httpPath errorMsg paramIdxs query = .ok first ∧
      (first.code = .NONE ∧ found = first ∧ found.errorMsg = errorMsg ∨
        first.code = .INVALID_ROUTE ∧ found.errorMsg = invalidRoute method httpPath) := by
  simp only [OASValidatorImp.getValidators, MethodValidator.validate, if_pos hvalid, ne_eq,
    not_true_eq_false, if_false] at h
  obtain ⟨first, hfirst, h⟩ := bind_eq_ok_iff.mp h
  refine ⟨first, hfirst, ?_⟩
  rcases getValidatorsOf_errorMsg hfirst with ⟨hcode, hmsg⟩ | ⟨hcode, hmsg⟩
  · rw [if_neg (by simp [hcode])] at h
    obtain rfl := Except.ok.inj h
    exact Or.inl ⟨hcode, rfl, hmsg⟩
  · rw [if_pos hcode] at h
    refine Or.inr ⟨hcode, ?_⟩
    split at h
    · obtain rfl := Except.ok.inj h
      exact hmsg
    · exact getMapped_errorMsg hmsg h

/-- A lookup that is asked for the query gives all from the question mark on. -/
theorem getValidatorsOf_query {method mappedMethod httpPath errorMsg : Bytes}
    {paramIdxs : Option ParamIdxs} {query : Option Bytes} {found : Found}
    (hquery : query = some [] ∨ query = some (queryPart httpPath))
    (h : imp.getValidatorsOf order method mappedMethod httpPath errorMsg paramIdxs query = .ok found) :
    found.query = some (queryPart httpPath) := by
  unfold OASValidatorImp.getValidatorsOf at h
  split at h
  · simp [throw, throwThe, MonadExceptOf.throw] at h
  · have hpart : (if question ∈ httpPath then query.map fun _ => queryPart httpPath else query) =
        some (queryPart httpPath) := by
      split
      · rcases hquery with rfl | rfl <;> rfl
      · rename_i hnone
        have hempty : queryPart httpPath = [] := by
          rw [queryPart, List.dropWhile_eq_nil_iff]
          intro b hb
          simpa using fun heq : b = question => hnone (heq ▸ hb)
        rcases hquery with rfl | rfl
        · rw [hempty]
        · rfl
    simp only [hpart] at h
    split at h
    · obtain rfl := Except.ok.inj h
      rfl
    · obtain ⟨⟨b, mapKey, idxs⟩, -, h⟩ := bind_eq_ok_iff.mp h
      dsimp only at h
      split at h
      · obtain rfl := Except.ok.inj h
        rfl
      · obtain rfl := Except.ok.inj h
        rfl

theorem getMapped_query {method httpPath : Bytes} {names : List Bytes} {found found' : Found}
    (hquery : found.query = some (queryPart httpPath))
    (h : OASValidatorImp.getMapped order imp method httpPath names found = .ok found') :
    found'.query = some (queryPart httpPath) := by
  induction names generalizing found with
  | nil =>
    obtain rfl := Except.ok.inj h
    exact hquery
  | cons name rest ih =>
    unfold OASValidatorImp.getMapped at h
    split at h
    · obtain rfl := Except.ok.inj h
      exact hquery
    · simp at h
    · rename_i next hnext
      have hnext := getValidatorsOf_query (Or.inr hquery) hnext
      split at h
      · obtain rfl := Except.ok.inj h
        exact hnext
      · exact ih hnext h

theorem getValidators_query {method httpPath errorMsg : Bytes} {paramIdxs : Option ParamIdxs}
    {found : Found} (hvalid : method ∈ kValidMethods)
    (h : imp.getValidators order method httpPath errorMsg paramIdxs (some []) = .ok found) :
    found.query = some (queryPart httpPath) := by
  simp only [OASValidatorImp.getValidators, MethodValidator.validate, if_pos hvalid, ne_eq,
    not_true_eq_false, if_false] at h
  obtain ⟨first, hfirst, h⟩ := bind_eq_ok_iff.mp h
  have hquery := getValidatorsOf_query (Or.inl rfl) hfirst
  split at h
  · split at h
    · obtain rfl := Except.ok.inj h
      exact hquery
    · exact getMapped_query hquery h
  · obtain rfl := Except.ok.inj h
    exact hquery

end

end OasValidator
