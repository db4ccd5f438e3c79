import OasValidator.Deserializer.Build
import OasValidator.Validators.Json

/-! The validators of parameters, which deserialize a range of a buffer and check the JSON text that
this gives. -/

namespace OasValidator

open Library.Scanning

structure ParamInfo where
  name : Bytes
  required : Bool
  deserializer : Deserializer
  schema : Json

structure ParamValidator (σ : Type) extends JsonValidator σ where
  name : Bytes
  required : Bool
  deserializer : Deserializer

structure QueryParamValidator (σ : Type) extends ParamValidator σ where
  emptyAllowed : Bool

/-- The schema of the JSON content of a parameter. -/
def contentSchema (paramVal : Json) (refKeys : List Bytes) : Except InitError Json := do
  let noSchema : InitError :=
    .validatorInitExc (lit "Cannot generate deserializer for parameter: " ++ joinReference refKeys)
  if ← paramVal.hasMember (lit "content") then
    let content ← paramVal.get (lit "content")
    if ← content.hasMember (lit "application/json") then
      let media ← content.get (lit "application/json")
      if ← media.hasMember (lit "schema") then media.get (lit "schema")
      else throw noSchema
    else throw noSchema
  else throw noSchema

def getParamInfo (paramVal : Json) (defaultStyle : Bytes) (defaultExplode defaultRequired : Bool)
    (refKeys : List Bytes) : Except InitError ParamInfo := do
  let name ← (← paramVal.get (lit "name")).getString
  let required ← paramVal.optional (lit "required") Json.getBool defaultRequired
  let schema ←
    if ← paramVal.hasMember (lit "schema") then paramVal.get (lit "schema")
    else contentSchema paramVal refKeys
  let deserializer ← getDeserializer paramVal defaultStyle defaultExplode refKeys
  pure { name, required, deserializer, schema }

/-- The name of a parameter, and its deserializer. -/
theorem getParamInfo_eq_ok {paramVal : Json} {defaultStyle : Bytes}
    {defaultExplode defaultRequired : Bool} {refKeys : List Bytes} {info : ParamInfo}
    (h : getParamInfo paramVal defaultStyle defaultExplode defaultRequired refKeys = .ok info) :
    (∃ v, paramVal.get (lit "name") = .ok v ∧ v.getString = .ok info.name) ∧
      getDeserializer paramVal defaultStyle defaultExplode refKeys = .ok info.deserializer := by
  simp only [getParamInfo, bind_eq_ok_iff] at h
  obtain ⟨v, hv, name, hname, _, -, _, -, h⟩ := h
  split at h
  all_goals
    simp only [bind_eq_ok_iff] at h
    obtain ⟨_, -, d, hd, h⟩ := h
    obtain rfl := Except.ok.inj h
    exact ⟨⟨v, hv, hname⟩, hd⟩

namespace ParamValidator

variable {σ : Type} (rj : RapidJson σ)

def ofInfo (info : ParamInfo) (refKeys : List Bytes) (errCode : ValidationError) :
    ParamValidator σ :=
  { toJsonValidator := JsonValidator.ofSchema rj info.schema refKeys errCode
    name := info.name
    required := info.required
    deserializer := info.deserializer }

/-- The range from `beg` to `end_` of `buf`. -/
def validateParam (v : ParamValidator σ) (buf : Nat → UInt8) (beg end_ : Nat) (errorMsg : Bytes) :
    Except Fault (Checked (ParamValidator σ)) :=
  match (v.deserializer.deserialize buf beg end_).1 with
  | .ok ret => do
    let c ← v.toJsonValidator.validate rj ret errorMsg
    pure (c.map fun w => { v with toJsonValidator := w })
  | .error (.exception what) =>
    .ok ⟨v.codeOnError, v.errHeader ++ cstr what ++ lit "\x7d\x7d", v⟩
  | .error .lengthError => .error .lengthError

def errorOnMissing (v : ParamValidator σ) : Bytes :=
  v.errHeader ++ lit "\"description\":\"Missing required parameter '" ++ v.name ++
    lit "'\"\x7d\x7d"

def ofPath (paramVal : Json) (refKeys : List Bytes) : Except InitError (ParamValidator σ) := do
  let info ← getParamInfo paramVal (lit "simple") false true refKeys
  pure (ofInfo rj info refKeys .INVALID_PATH_PARAM)

def ofHeader (paramVal : Json) (refKeys : List Bytes) : Except InitError (ParamValidator σ) := do
  let info ← getParamInfo paramVal (lit "simple") false false refKeys
  pure (ofInfo rj info refKeys .INVALID_HEADER_PARAM)

end ParamValidator

namespace QueryParamValidator

variable {σ : Type} (rj : RapidJson σ)

def ofQuery (paramVal : Json) (refKeys : List Bytes) :
    Except InitError (QueryParamValidator σ) := do
  let info ← getParamInfo paramVal (lit "form") true false refKeys
  let emptyAllowed ← paramVal.optional (lit "allowEmptyValue") Json.getBool false
  pure
    { toParamValidator := ParamValidator.ofInfo rj info refKeys .INVALID_QUERY_PARAM
      emptyAllowed := emptyAllowed }

def validateParam (v : QueryParamValidator σ) (buf : Nat → UInt8) (beg end_ : Nat)
    (errorMsg : Bytes) : Except Fault (Checked (QueryParamValidator σ)) := do
  let c ← v.toParamValidator.validateParam rj buf beg end_ errorMsg
  pure (c.map fun w => { v with toParamValidator := w })

end QueryParamValidator

end OasValidator
