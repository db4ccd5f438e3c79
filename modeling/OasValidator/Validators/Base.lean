import OasValidator.Common

/-! What all validators have: a code for their errors and the beginning of their error texts; and the
validator of method names. -/

namespace OasValidator

open Library.Table

structure BaseValidator where
  codeOnError : ValidationError
  errHeader : Bytes

def kErrHeaders : List (ValidationError × Bytes) :=
  [(.NONE, lit "NONE"),
    (.INVALID_METHOD, lit "\x7b\"errorCode\":\"INVALID_METHOD\",\"details\":\x7b"),
    (.INVALID_ROUTE, lit "\x7b\"errorCode\":\"INVALID_ROUTE\",\"details\":\x7b"),
    (.INVALID_PATH_PARAM, lit "\x7b\"errorCode\":\"INVALID_PATH_PARAM\",\"details\":\x7b"),
    (.INVALID_QUERY_PARAM, lit "\x7b\"errorCode\":\"INVALID_QUERY_PARAM\",\"details\":\x7b"),
    (.INVALID_HEADER_PARAM, lit "\x7b\"errorCode\":\"INVALID_HEADER_PARAM\",\"details\":\x7b"),
    (.INVALID_BODY, lit "\x7b\"errorCode\":\"INVALID_BODY\",\"details\":\x7b"),
    (.INVALID_RSP, lit "\x7b\"errorCode\":\"INVALID_RSP\",\"details\":\x7b")]

/-- `kErrHeaders.at(err_code)`; every code has a header. -/
def errHeaderOf (errCode : ValidationError) : Bytes := (kErrHeaders.lookup errCode).getD []

namespace BaseValidator

/-- The validator without a reference. -/
def plain (errCode : ValidationError) : BaseValidator := ⟨errCode, errHeaderOf errCode⟩

/-- The validator of the place that the keys lead to. -/
def ofKeys (refKeys : List Bytes) (errCode : ValidationError) : BaseValidator :=
  ⟨errCode, errHeaderOf errCode ++ lit "\"specRef\":\"" ++ joinReference refKeys ++ lit "\","⟩

end BaseValidator

def kValidMethods : List Bytes :=
  [lit "GET", lit "POST", lit "PUT", lit "DELETE", lit "HEAD", lit "OPTIONS", lit "PATCH",
    lit "CONNECT", lit "TRACE", lit "get", lit "post", lit "put", lit "delete", lit "head",
    lit "options", lit "patch", lit "connect", lit "trace"]

/-- The code and `err_msg`, to which a failure appends its text. -/
def MethodValidator.validate (v : BaseValidator) (method errMsg : Bytes) : ValidationError × Bytes :=
  if method ∈ kValidMethods then (.NONE, errMsg)
  else (.INVALID_METHOD, errMsg ++ v.errHeader ++
    lit "\"description\": \"Invalid HTTP method '" ++ method ++ lit "'" ++ lit "\"\x7d\x7d")

/-- What a check returns: the code, `error_msg`, and what was checked with, in the state it is left
in. -/
structure Checked (τ : Type) where
  code : ValidationError
  errorMsg : Bytes
  after : τ

namespace Checked

variable {τ υ : Type}

def map (f : τ → υ) (c : Checked τ) : Checked υ := ⟨c.code, c.errorMsg, f c.after⟩

/-- The code, and the error text if there is an error. -/
def verdict (c : Checked τ) : ValidationError × Option Bytes :=
  (c.code, if c.code = .NONE then none else some c.errorMsg)

/-- A check, and behind `CHECK_ERROR` the next one. -/
def andThen (r : Except Fault (Checked τ)) (next : τ → Bytes → Except Fault (Checked τ)) :
    Except Fault (Checked τ) := do
  let c ← r
  if c.code = .NONE then next c.after c.errorMsg else pure c

end Checked

end OasValidator
