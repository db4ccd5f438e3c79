import OasValidator.Imp.Lookup

/-! The checks of a request. -/

namespace OasValidator.OASValidatorImp

open Library.Table

variable {σ : Type} (rj : RapidJson σ) (order : Hashing)

/-- The validator with other states of the validators of one operation. -/
def setStore (imp : OASValidatorImp σ) (method : HttpMethod) (key : Bytes)
    (store : ValidatorsStore σ) : OASValidatorImp σ :=
  let perMethod := imp.oasValidators method
  { imp with
    oasValidators := Function.update imp.oasValidators method
      { perMethod with perPathValidators := put key store perMethod.perPathValidators } }

/-- `validators->...`, a check with the validators that a lookup found, which stay where they are. -/
def withStore (imp : OASValidatorImp σ) (found : Found)
    (check : ValidatorsStore σ → Bytes → Except Fault (Checked (ValidatorsStore σ))) :
    Except Fault (Checked (OASValidatorImp σ)) :=
  if found.code ≠ .NONE then .ok ⟨found.code, found.errorMsg, imp⟩
  else
    match found.validators with
    | none => .error .undefined
    | some (method, key) =>
      match (imp.oasValidators method).perPathValidators.lookup key with
      | none => .error .undefined
      | some store => do
        let c ← check store found.errorMsg
        pure (c.map (imp.setStore method key))

def validateRoute (imp : OASValidatorImp σ) (method httpPath errorMsg : Bytes) :
    Except Fault (Checked (OASValidatorImp σ)) := do
  let found ← imp.getValidators order method httpPath errorMsg none none
  pure ⟨found.code, found.errorMsg, imp⟩

def validateBody (imp : OASValidatorImp σ) (method httpPath jsonBody errorMsg : Bytes) :
    Except Fault (Checked (OASValidatorImp σ)) := do
  let found ← imp.getValidators order method httpPath errorMsg none none
  imp.withStore found fun store errorMsg => store.validateBody rj jsonBody errorMsg

def validatePathParam (imp : OASValidatorImp σ) (method httpPath errorMsg : Bytes) :
    Except Fault (Checked (OASValidatorImp σ)) := do
  let found ← imp.getValidators order method httpPath errorMsg (some []) none
  imp.withStore found fun store errorMsg =>
    store.validatePathParams rj (dataOf httpPath) (found.paramIdxs.getD []) errorMsg

def validateQueryParam (imp : OASValidatorImp σ) (method httpPath errorMsg : Bytes) :
    Except Fault (Checked (OASValidatorImp σ)) := do
  let found ← imp.getValidators order method httpPath errorMsg none (some [])
  imp.withStore found fun store errorMsg =>
    store.validateQueryParams rj (found.query.getD []) errorMsg

def validateHeaders (imp : OASValidatorImp σ) (method httpPath : Bytes)
    (headers : List (Bytes × Bytes)) (errorMsg : Bytes) :
    Except Fault (Checked (OASValidatorImp σ)) := do
  let found ← imp.getValidators order method httpPath errorMsg none none
  imp.withStore found fun store errorMsg =>
    store.validateHeaderParams rj order headers errorMsg

/-! The four overloads of `ValidateRequest`. -/

def validateRequest (imp : OASValidatorImp σ) (method httpPath errorMsg : Bytes) :
    Except Fault (Checked (OASValidatorImp σ)) := do
  let found ← imp.getValidators order method httpPath errorMsg (some []) (some [])
  imp.withStore found fun store errorMsg =>
    Checked.andThen
      (store.validatePathParams rj (dataOf httpPath) (found.paramIdxs.getD []) errorMsg)
      fun store errorMsg => store.validateQueryParams rj (found.query.getD []) errorMsg

def validateRequestBody (imp : OASValidatorImp σ) (method httpPath jsonBody errorMsg : Bytes) :
    Except Fault (Checked (OASValidatorImp σ)) := do
  let found ← imp.getValidators order method httpPath errorMsg (some []) (some [])
  imp.withStore found fun store errorMsg =>
    Checked.andThen (store.validateBody rj jsonBody errorMsg) fun store errorMsg =>
    Checked.andThen
      (store.validatePathParams rj (dataOf httpPath) (found.paramIdxs.getD []) errorMsg)
      fun store errorMsg => store.validateQueryParams rj (found.query.getD []) errorMsg

def validateRequestHeaders (imp : OASValidatorImp σ) (method httpPath : Bytes)
    (headers : List (Bytes × Bytes)) (errorMsg : Bytes) :
    Except Fault (Checked (OASValidatorImp σ)) := do
  let found ← imp.getValidators order method httpPath errorMsg (some []) (some [])
  imp.withStore found fun store errorMsg =>
    Checked.andThen
      (store.validatePathParams rj (dataOf httpPath) (found.paramIdxs.getD []) errorMsg)
      fun store errorMsg =>
    Checked.andThen (store.validateQueryParams rj (found.query.getD []) errorMsg)
      fun store errorMsg => store.validateHeaderParams rj order headers errorMsg

def validateRequestBodyHeaders (imp : OASValidatorImp σ) (method httpPath jsonBody : Bytes)
    (headers : List (Bytes × Bytes)) (errorMsg : Bytes) :
    Except Fault (Checked (OASValidatorImp σ)) := do
  let found ← imp.getValidators order method httpPath errorMsg (some []) (some [])
  imp.withStore found fun store errorMsg =>
    Checked.andThen (store.validateBody rj jsonBody errorMsg) fun store errorMsg =>
    Checked.andThen
      (store.validatePathParams rj (dataOf httpPath) (found.paramIdxs.getD []) errorMsg)
      fun store errorMsg =>
    Checked.andThen (store.validateQueryParams rj (found.query.getD []) errorMsg)
      fun store errorMsg => store.validateHeaderParams rj order headers errorMsg

end OasValidator.OASValidatorImp
