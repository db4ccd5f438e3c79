import OasValidator.Validators.Base

/-! The validator of JSON texts.  RapidJSON parses the text and checks the value against the schema;
the tree of errors it hands out is turned into the error text here. -/

namespace OasValidator

/-- The parts of RapidJSON that the validators call.  A parse error has a code and an offset, and
`σ` is what a `SchemaValidator` and its document hold. -/
structure RapidJson (σ : Type) where
  parse : Bytes → Except (Nat × Nat) Json
  getParseError_En : Nat → Bytes
  schemaValidator : Json → σ
  accept : σ → Json → Bool × σ
  getError : σ → Json
  reset : σ → σ
  getInt : Bytes → Int
  getValidateError_En : Int → Bytes
  numberToString : Bytes → Bytes

/-- Whether a value has the type that a schema names. -/
def hasType (schema value : Json) : Bool :=
  match schema.get (lit "type"), value with
  | .ok (.string type), .bool _ => type = lit "boolean"
  | .ok (.string type), .number lexeme =>
    type = lit "number" ∨ (type = lit "integer" ∧ '.'.toUInt8 ∉ lexeme)
  | .ok (.string type), .string _ => type = lit "string"
  | .ok (.string type), .array _ => type = lit "array"
  | .ok (.string type), .object _ => type = lit "object"
  | .ok (.string type), .null => type = lit "null"
  | _, _ => true

/-- RapidJSON as far as documents without errors and schemas with a `type` alone go. -/
def RapidJson.plain : RapidJson Json where
  parse t :=
    match Library.Json.parse t with
    | some v => .ok v
    | none => .error (3, 0)
  getParseError_En _ := lit "Invalid value."
  schemaValidator schema := schema
  accept schema value := (hasType schema value, schema)
  getError _ := .object []
  reset schema := schema
  getInt _ := 0
  getValidateError_En _ := lit "No error."
  numberToString lexeme := lexeme

structure JsonValidator (σ : Type) extends BaseValidator where
  validator : σ

namespace JsonValidator

variable {σ : Type} (rj : RapidJson σ)

/-- A validator is built with a `SchemaValidator`, so `Validate` never lacks one. -/
def ofSchema (schemaVal : Json) (refKeys : List Bytes) (errCode : ValidationError) :
    JsonValidator σ :=
  ⟨BaseValidator.ofKeys refKeys errCode, rj.schemaValidator schemaVal⟩

def getString : Json → Bytes
  | .string s => cstr s
  | .number lexeme => rj.numberToString lexeme
  | .bool b => if b then lit "true" else lit "false"
  | _ => []

/-- The text put in for a placeholder. -/
def insertString : Json → Bytes
  | .array items =>
    items.foldl (fun s item => (if s = [] then s else s ++ [comma]) ++ getString rj item) []
  | v => getString rj v

/-- `message.replace(insert_pos, insert_name.length(), insert_string)`. -/
def replaceAt (pos length : Nat) (by_ message : Bytes) : Bytes :=
  message.take pos ++ by_ ++ message.drop (pos + length)

/-- The loop that puts the members of an error into the first place of their name. -/
def fillMessage : List (Bytes × Json) → Bytes → Bytes
  | [], message => message
  | (name, value) :: rest, message =>
    let insertName := percent :: cstr name
    match find insertName message with
    | some insertPos =>
      fillMessage rest (replaceAt insertPos insertName.length (insertString rj value) message)
    | none => fillMessage rest message

/-- `error[name]`, where a missing member or one of another kind has no defined behaviour. -/
def textOf (members : List (Bytes × Json)) (name : Bytes) : Except Fault Bytes :=
  match members.lookup name with
  | some (.string s) => .ok (cstr s)
  | _ => .error .undefined

/-- The error text from `"code"` on, up to the nested errors. -/
def errorText (errorName context : Bytes) (members : List (Bytes × Json)) : Except Fault Bytes := do
  let code ← match members.lookup (lit "errorCode") with
    | some (.number lexeme) => pure (rj.getInt lexeme)
    | _ => throw .undefined
  let message := fillMessage rj members (rj.getValidateError_En code)
  let instanceRef ← textOf members (lit "instanceRef")
  let schemaRef ← textOf members (lit "schemaRef")
  pure (lit "\"code\":\"" ++ errorName ++ lit "\"," ++ lit "\"description\":\"" ++ message ++
    lit "\"," ++ lit "\"instance\":\"" ++ instanceRef ++ lit "\"," ++ lit "\"schema\":\"" ++
    schemaRef ++ lit "\"" ++
    if context = [] then [] else lit ",\"context\":\"" ++ context ++ lit "\"")

/-- `if (error_msg.back() == ',') error_msg.pop_back()`. -/
def popComma (errorMsg : Bytes) : Bytes :=
  if errorMsg.getLast? = some comma then errorMsg.dropLast else errorMsg

/-! `createErrorMessages` takes the members of an object of errors one after the other, and
`handleError` the members of one error.  The nested errors of an error are its first member
`errors`, which `childErrors` looks up. -/

mutual

def createErrorMessages (context : Bytes) (recursive : Bool) :
    Json → Bytes → Except Fault Bytes
  | .object members, errorMsg => createMembers context recursive members errorMsg
  | _, _ => .error .undefined

def createMembers (context : Bytes) (recursive : Bool) :
    List (Bytes × Json) → Bytes → Except Fault Bytes
  | [], errorMsg => .ok errorMsg
  | (name, content) :: rest, errorMsg => do
    let errorMsg ← match content with
      | .array items => handleErrors (cstr name) context recursive items errorMsg
      | .object members => handleError (cstr name) context recursive (.object members) errorMsg
      | _ => pure errorMsg
    createMembers context recursive rest errorMsg

def handleErrors (errorName context : Bytes) (recursive : Bool) :
    List Json → Bytes → Except Fault Bytes
  | [], errorMsg => .ok errorMsg
  | error :: rest, errorMsg => do
    let errorMsg ← handleError errorName context recursive error errorMsg
    handleErrors errorName context recursive rest errorMsg

def handleError (errorName context : Bytes) (recursive : Bool) : Json → Bytes → Except Fault Bytes
  | .object [], errorMsg => .ok errorMsg
  | .object (member :: members), errorMsg => do
    let errorMsg := if recursive then errorMsg ++ lit "\x7b" else errorMsg
    let text ← errorText rj errorName context (member :: members)
    let errorMsg ← childErrors errorName (member :: members) (errorMsg ++ text)
    pure (if recursive then errorMsg ++ lit "\x7d" else errorMsg)
  | _, _ => .error .undefined

def childErrors (errorName : Bytes) : List (Bytes × Json) → Bytes → Except Fault Bytes
  | [], errorMsg => .ok errorMsg
  | (name, content) :: rest, errorMsg =>
    if name = lit "errors" then do
      let errorMsg := errorMsg ++ lit ",\"errors\":["
      let errorMsg ← match content with
        | .array items => (popComma <$> createAll errorName items errorMsg)
        | .object members => (popComma <$> createAllMembers errorName members errorMsg)
        | _ => pure errorMsg
      pure (errorMsg ++ lit "]")
    else childErrors errorName rest errorMsg

def createAll (errorName : Bytes) : List Json → Bytes → Except Fault Bytes
  | [], errorMsg => .ok errorMsg
  | error :: rest, errorMsg => do
    let errorMsg ← createErrorMessages errorName true error errorMsg
    createAll errorName rest (errorMsg ++ [comma])

def createAllMembers (errorName : Bytes) : List (Bytes × Json) → Bytes → Except Fault Bytes
  | [], errorMsg => .ok errorMsg
  | (_, error) :: rest, errorMsg => do
    let errorMsg ← createErrorMessages errorName true error errorMsg
    createAllMembers errorName rest (errorMsg ++ [comma])

end

/-- The parser reads up to the first NUL.  The `SchemaValidator` is reset on both ways. -/
def validate (v : JsonValidator σ) (jsonStr errorMsg : Bytes) :
    Except Fault (Checked (JsonValidator σ)) :=
  match rj.parse (cstr jsonStr) with
  | .error (code, offset) =>
    .ok ⟨v.codeOnError, v.errHeader ++ lit "\"code\":\"parserError\",\"description\":\"" ++
      rj.getParseError_En code ++ lit "\",\"offset\":" ++ toString offset ++ lit "\x7d\x7d", v⟩
  | .ok doc =>
    let (accepted, validator) := rj.accept v.validator doc
    if accepted then .ok ⟨.NONE, errorMsg, { v with validator := rj.reset validator }⟩
    else do
      let errorMsg ← createErrorMessages rj [] false (rj.getError validator) v.errHeader
      pure ⟨v.codeOnError, errorMsg ++ lit "\x7d\x7d", { v with validator := rj.reset validator }⟩

end JsonValidator

end OasValidator
