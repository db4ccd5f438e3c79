import OasValidator.Library.Cut
import OasValidator.Validators.Param

/-! The validators of one operation, and the checks of a request against them. -/

namespace OasValidator

open Library.Cut Library.Table

structure PathParamValidatorInfo (σ : Type) where
  idx : Nat
  validator : ParamValidator σ

structure QueryParamValidatorInfo (σ : Type) where
  name : Bytes
  validator : QueryParamValidator σ

structure ValidatorsStore (σ : Type) where
  bodyValidator : Option (JsonValidator σ) := none
  pathParamValidators : List (PathParamValidatorInfo σ) := []
  queryParamValidators : List (QueryParamValidatorInfo σ) := []
  headerParamValidators : List (Bytes × ParamValidator σ) := []

/-- The name between the braces of a fragment. -/
def paramName? (fragment : Bytes) : Option Bytes :=
  if fragment.head? = some openBrace ∧ fragment.getLast? = some closeBrace then
    some (fragment.drop 1).dropLast
  else none

/-- The loop over the fragments of a path, with `frag_idx`. -/
def paramIndicesFrom (fragIdx : Nat) : List Bytes → List (Bytes × Nat) → List (Bytes × Nat)
  | [], paramIdxs => paramIdxs
  | fragment :: rest, paramIdxs =>
    paramIndicesFrom (fragIdx + 1) rest
      (match paramName? fragment with
        | some name => emplace name fragIdx paramIdxs
        | none => paramIdxs)

def getPathParamIndices (path : Bytes) : List (Bytes × Nat) :=
  paramIndicesFrom 0 (cut slash path) []

namespace ValidatorsStore

variable {σ : Type} (rj : RapidJson σ)

def ofBody (schemaVal : Json) (refKeys : List Bytes) : ValidatorsStore σ :=
  { bodyValidator := some (JsonValidator.ofSchema rj schemaVal refKeys .INVALID_BODY) }

/-- The store with the validator of one more parameter. -/
def addParam (pathParamIdxs : List (Bytes × Nat)) (refKeys : List Bytes) (paramVal : Json)
    (store : ValidatorsStore σ) : Except InitError (ValidatorsStore σ) := do
  let in_ ← (← paramVal.get (lit "in")).getString
  let name ← (← paramVal.get (lit "name")).getString
  let refKeys := refKeys ++ [name]
  if in_ = lit "path" then
    let idx ← tableAt pathParamIdxs name
    let validator ← ParamValidator.ofPath rj paramVal refKeys
    pure { store with pathParamValidators := store.pathParamValidators ++ [⟨idx, validator⟩] }
  else if in_ = lit "query" then
    let validator ← QueryParamValidator.ofQuery rj paramVal refKeys
    pure { store with queryParamValidators := store.queryParamValidators ++ [⟨name, validator⟩] }
  else if in_ = lit "header" then
    let validator ← ParamValidator.ofHeader rj paramVal refKeys
    pure { store with headerParamValidators := emplace name validator store.headerParamValidators }
  else
    throw (.validatorInitExc (lit "Invalid 'in' value '" ++ in_ ++ lit "' for parameter '" ++ name ++
      lit "'"))

/-- What one parameter adds to a store. -/
inductive Added (pathParamIdxs : List (Bytes × Nat)) (refKeys : List Bytes) (paramVal : Json)
    (name : Bytes) (store : ValidatorsStore σ) : ValidatorsStore σ → Prop
  | path {idx : Nat} {info : ParamInfo} (index : pathParamIdxs.lookup name = some idx)
      (built : getParamInfo paramVal (lit "simple") false true refKeys = .ok info) :
      Added pathParamIdxs refKeys paramVal name store
        { store with pathParamValidators := store.pathParamValidators ++
            [⟨idx, .ofInfo rj info refKeys .INVALID_PATH_PARAM⟩] }
  | query {info : ParamInfo} {emptyAllowed : Bool}
      (built : getParamInfo paramVal (lit "form") true false refKeys = .ok info) :
      Added pathParamIdxs refKeys paramVal name store
        { store with queryParamValidators := store.queryParamValidators ++
            [⟨name, ⟨.ofInfo rj info refKeys .INVALID_QUERY_PARAM, emptyAllowed⟩⟩] }
  | header {info : ParamInfo}
      (built : getParamInfo paramVal (lit "simple") false false refKeys = .ok info) :
      Added pathParamIdxs refKeys paramVal name store
        { store with headerParamValidators := (emplace name
            (.ofInfo rj info refKeys .INVALID_HEADER_PARAM) store.headerParamValidators) }

variable {rj} in
theorem addParam_added {pathParamIdxs : List (Bytes × Nat)} {refKeys : List Bytes} {paramVal : Json}
    {store store' : ValidatorsStore σ}
    (h : store.addParam rj pathParamIdxs refKeys paramVal = .ok store') :
    ∃ v name, paramVal.get (lit "name") = .ok v ∧ v.getString = .ok name ∧
      Added rj pathParamIdxs (refKeys ++ [name]) paramVal name store store' := by
  simp only [addParam, bind_eq_ok_iff] at h
  obtain ⟨_, -, in_, -, v, hv, name, hname, h⟩ := h
  refine ⟨v, name, hv, hname, ?_⟩
  split at h
  · obtain ⟨idx, hidx, h⟩ := bind_eq_ok_iff.mp h
    obtain ⟨validator, hvalidator, h⟩ := bind_eq_ok_iff.mp h
    obtain rfl := Except.ok.inj h
    obtain ⟨info, hinfo, hvalidator⟩ := bind_eq_ok_iff.mp hvalidator
    obtain rfl := Except.ok.inj hvalidator
    exact .path (tableAt_eq_ok hidx) hinfo
  · split at h
    · obtain ⟨validator, hvalidator, h⟩ := bind_eq_ok_iff.mp h
      obtain rfl := Except.ok.inj h
      obtain ⟨info, hinfo, hvalidator⟩ := bind_eq_ok_iff.mp hvalidator
      obtain ⟨emptyAllowed, -, hvalidator⟩ := bind_eq_ok_iff.mp hvalidator
      obtain rfl := Except.ok.inj hvalidator
      exact .query hinfo
    · split at h
      · obtain ⟨validator, hvalidator, h⟩ := bind_eq_ok_iff.mp h
        obtain rfl := Except.ok.inj h
        obtain ⟨info, hinfo, hvalidator⟩ := bind_eq_ok_iff.mp hvalidator
        obtain rfl := Except.ok.inj hvalidator
        exact .header hinfo
      · simp [throw, throwThe, MonadExceptOf.throw] at h

def addParams (pathParamIdxs : List (Bytes × Nat)) (refKeys : List Bytes) :
    List Json → ValidatorsStore σ → Except InitError (ValidatorsStore σ)
  | [], store => .ok store
  | paramVal :: rest, store => do
    addParams pathParamIdxs refKeys rest (← addParam rj pathParamIdxs refKeys paramVal store)

def addParamValidators (path : Bytes) (params : Json) (refKeys : List Bytes)
    (store : ValidatorsStore σ) : Except InitError (ValidatorsStore σ) := do
  addParams rj (getPathParamIndices path) refKeys (← params.getArray) store

def validateBody (store : ValidatorsStore σ) (jsonBody errorMsg : Bytes) :
    Except Fault (Checked (ValidatorsStore σ)) :=
  match store.bodyValidator with
  | none => .ok ⟨.NONE, errorMsg, store⟩
  | some v => do
    let c ← v.validate rj jsonBody errorMsg
    pure (c.map fun w => { store with bodyValidator := some w })

/-- The loop over the path parameters of a request whose bytes are `buf`. -/
def checkPathParams (buf : Nat → UInt8) (paramIdxs : ParamIdxs) :
    List (PathParamValidatorInfo σ) → Bytes →
      Except Fault (Checked (List (PathParamValidatorInfo σ)))
  | [], errorMsg => .ok ⟨.NONE, errorMsg, []⟩
  | info :: rest, errorMsg =>
    match paramIdxs.lookup info.idx with
    | none => .ok ⟨info.validator.codeOnError, info.validator.errorOnMissing, info :: rest⟩
    | some range => do
      let c ← info.validator.validateParam rj buf range.beg range.end_ errorMsg
      let info := { info with validator := c.after }
      if c.code = .NONE then
        let cs ← checkPathParams buf paramIdxs rest c.errorMsg
        pure (cs.map (info :: ·))
      else pure ⟨c.code, c.errorMsg, info :: rest⟩

def validatePathParams (store : ValidatorsStore σ) (buf : Nat → UInt8) (paramIdxs : ParamIdxs)
    (errorMsg : Bytes) : Except Fault (Checked (ValidatorsStore σ)) := do
  let c ← checkPathParams rj buf paramIdxs store.pathParamValidators errorMsg
  pure (c.map fun infos => { store with pathParamValidators := infos })

/-- What the loop that locates the query parameters ends with: an early return of a code and its
text, or `starts` and `start_map`. -/
abbrev Located := Except (ValidationError × Bytes) (List Nat × List (Bytes × Nat))

def misplaced (info : QueryParamValidatorInfo σ) : Bytes :=
  info.validator.errHeader ++ lit "\"description\": \"Query parameter '" ++ info.name ++
    lit "' should start with '?' or '&'\"\x7d\x7d"

/-- A name at the start of the query has no byte before it to look at. -/
def locate (query : Bytes) :
    List (QueryParamValidatorInfo σ) → List Nat → List (Bytes × Nat) → Except Fault Located
  | [], starts, startMap => .ok (.ok (starts, startMap))
  | info :: rest, starts, startMap =>
    match find info.name query with
    | none =>
      if info.validator.required then
        .ok (.error (info.validator.codeOnError, info.validator.errorOnMissing))
      else locate query rest starts startMap
    | some 0 => .error .undefined
    | some (start + 1) =>
      if dataOf query start ≠ question ∧ dataOf query start ≠ ampersand then
        .ok (.error (.INVALID_QUERY_PARAM, misplaced info))
      else locate query rest ((start + 1) :: starts) (emplace info.name (start + 1) startMap)

/-- `*std::next(starts.find(start))`, the next greater element. -/
def nextStart (starts : List Nat) (start : Nat) : Except Fault Nat :=
  match (starts.filter (start < ·)).min? with
  | some next => .ok next
  | none => .error .undefined

def checkQueryParams (query : Bytes) (starts : List Nat) (startMap : List (Bytes × Nat)) :
    List (QueryParamValidatorInfo σ) → Bytes →
      Except Fault (Checked (List (QueryParamValidatorInfo σ)))
  | [], errorMsg => .ok ⟨.NONE, errorMsg, []⟩
  | info :: rest, errorMsg =>
    match startMap.lookup info.name with
    | none =>
      if info.validator.required then
        .ok ⟨info.validator.codeOnError, info.validator.errorOnMissing, info :: rest⟩
      else do
        let cs ← checkQueryParams query starts startMap rest errorMsg
        pure (cs.map (info :: ·))
    | some start => do
      let end_ := (← nextStart starts start) - 1
      let c ← info.validator.validateParam rj (dataOf query) start end_ errorMsg
      let info := { info with validator := c.after }
      if c.code = .NONE then
        let cs ← checkQueryParams query starts startMap rest c.errorMsg
        pure (cs.map (info :: ·))
      else pure ⟨c.code, c.errorMsg, info :: rest⟩

def validateQueryParams (store : ValidatorsStore σ) (query errorMsg : Bytes) :
    Except Fault (Checked (ValidatorsStore σ)) := do
  match ← locate query store.queryParamValidators [] [] with
  | .error (code, errorMsg) => pure ⟨code, errorMsg, store⟩
  | .ok (starts, startMap) =>
    let c ← checkQueryParams rj query ((query.length + 1) :: starts) startMap
      store.queryParamValidators errorMsg
    pure (c.map fun infos => { store with queryParamValidators := infos })

/-- The loop over the header validators in the order in which the container holds them. -/
def checkHeaderParams (headers : List (Bytes × Bytes)) :
    List Bytes → List (Bytes × ParamValidator σ) → Bytes →
      Except Fault (Checked (List (Bytes × ParamValidator σ)))
  | [], validators, errorMsg => .ok ⟨.NONE, errorMsg, validators⟩
  | name :: rest, validators, errorMsg =>
    match validators.lookup name with
    | none => .error .undefined
    | some validator =>
      match headers.lookup name with
      | none =>
        if validator.required then
          .ok ⟨validator.codeOnError, validator.errorOnMissing, validators⟩
        else checkHeaderParams headers rest validators errorMsg
      | some param => do
        let c ← validator.validateParam rj (dataOf param) 0 param.length errorMsg
        let validators := put name c.after validators
        if c.code = .NONE then checkHeaderParams headers rest validators c.errorMsg
        else pure ⟨c.code, c.errorMsg, validators⟩

def validateHeaderParams (order : Hashing) (store : ValidatorsStore σ)
    (headers : List (Bytes × Bytes)) (errorMsg : Bytes) :
    Except Fault (Checked (ValidatorsStore σ)) := do
  let c ← checkHeaderParams rj headers (order.iterate (keys store.headerParamValidators))
    store.headerParamValidators errorMsg
  pure (c.map fun validators => { store with headerParamValidators := validators })

end ValidatorsStore

end OasValidator
