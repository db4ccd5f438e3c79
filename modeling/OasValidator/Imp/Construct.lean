import Mathlib.Logic.Function.Basic
import OasValidator.Imp.References
import OasValidator.PathTrie
import OasValidator.Validators.Store

/-! Building the validator of a specification. -/

namespace OasValidator

open Library.Table

def kStringToMethod : List (Bytes × HttpMethod) :=
  [(lit "GET", .GET), (lit "POST", .POST), (lit "PUT", .PUT), (lit "DELETE", .DELETE),
    (lit "HEAD", .HEAD), (lit "OPTIONS", .OPTIONS), (lit "PATCH", .PATCH),
    (lit "CONNECT", .CONNECT), (lit "TRACE", .TRACE), (lit "get", .GET), (lit "post", .POST),
    (lit "put", .PUT), (lit "delete", .DELETE), (lit "head", .HEAD), (lit "options", .OPTIONS),
    (lit "patch", .PATCH), (lit "connect", .CONNECT), (lit "trace", .TRACE)]

structure PerMethod (σ : Type) where
  perPathValidators : List (Bytes × ValidatorsStore σ) := []
  pathTrie : PathTrie.Node := {}

/-- An `unordered_map` from strings to sets of strings. -/
abbrev MethodMap := List (Bytes × List Bytes)

structure OASValidatorImp (σ : Type) where
  methodMap : MethodMap
  oasValidators : HttpMethod → PerMethod σ := fun _ => {}
  methodValidator : BaseValidator := BaseValidator.plain .INVALID_METHOD

def toLower (c : UInt8) : UInt8 := if 'A'.toUInt8 ≤ c ∧ c ≤ 'Z'.toUInt8 then c + 32 else c

def toUpper (c : UInt8) : UInt8 := if 'a'.toUInt8 ≤ c ∧ c ≤ 'z'.toUInt8 then c - 32 else c

/-- The entries of the given map, taken in its order. -/
def buildCaseInsensitiveMap (order : Hashing) (methodMap : MethodMap) : MethodMap :=
  (order.iterate (keys methodMap)).foldl
    (fun map key =>
      let methods := (methodMap.lookup key).getD []
      put (key.map toUpper) methods (put (key.map toLower) methods map))
    []

/-- The files that can be opened, and RapidJSON.  `oasSpecs` is the name of a file, or the text of
the specification. -/
def parseSpecs {σ : Type} (rj : RapidJson σ) (files : Bytes → Option Bytes) (oasSpecs : Bytes) :
    Except InitError Json :=
  match rj.parse (cstr ((files (cstr oasSpecs)).getD oasSpecs)) with
  | .ok doc => .ok doc
  | .error (code, offset) =>
    .error (.validatorInitExc (lit "Unable to parse specs: " ++ oasSpecs ++ lit " \nError code: " ++
      toString code ++ lit " at offset: " ++ toString offset ++ lit " Error message: " ++
      rj.getParseError_En code))

section

variable {σ : Type} (rj : RapidJson σ)

/-- The schema of the JSON body of an operation. -/
def bodySchema (operation : Json) : Except InitError (Option Json) := do
  if ← operation.hasMember (lit "requestBody") then
    let requestBody ← operation.get (lit "requestBody")
    if ← requestBody.hasMember (lit "content") then
      let content ← requestBody.get (lit "content")
      if ← content.hasMember (lit "application/json") then
        let media ← content.get (lit "application/json")
        if ← media.hasMember (lit "schema") then return some (← media.get (lit "schema"))
  return none

def processRequestBody (path : Bytes) (refKeys : List Bytes) (operation : Json)
    (perPathValidators : List (Bytes × ValidatorsStore σ)) :
    Except InitError (List (Bytes × ValidatorsStore σ)) := do
  match ← bodySchema operation with
  | some schema =>
    let refKeys := refKeys ++ [lit "requestBody/content/application%2Fjson/schema"]
    pure (emplace path (ValidatorsStore.ofBody rj schema refKeys) perPathValidators)
  | none => pure (emplace path {} perPathValidators)

def processParameters (path : Bytes) (refKeys : List Bytes) (operation : Json)
    (perPathValidators : List (Bytes × ValidatorsStore σ)) :
    Except InitError (List (Bytes × ValidatorsStore σ)) := do
  if ← operation.hasMember (lit "parameters") then
    let store ← tableAt perPathValidators path
    let params ← operation.get (lit "parameters")
    let store ← store.addParamValidators rj path params (refKeys ++ [lit "parameters"])
    pure (put path store perPathValidators)
  else pure perPathValidators

/-- A path with a parameter, by its characters. -/
def hasPathParams (path : Bytes) : Bool := openBrace ∈ path ∧ closeBrace ∈ path

def processMethod (path : Bytes) (refKeys : List Bytes) (methodName : Bytes) (operation : Json)
    (imp : OASValidatorImp σ) : Except InitError (OASValidatorImp σ) := do
  let refKeys := refKeys ++ [cstr methodName]
  let method ← tableAt kStringToMethod (cstr methodName)
  let perMethod := imp.oasValidators method
  let table ← processRequestBody rj path refKeys operation perMethod.perPathValidators
  let table ← processParameters rj path refKeys operation table
  let trie :=
    if hasPathParams path then PathTrie.insert path perMethod.pathTrie else perMethod.pathTrie
  pure { imp with oasValidators := Function.update imp.oasValidators method ⟨table, trie⟩ }

def processMethods (path : Bytes) (refKeys : List Bytes) :
    List (Bytes × Json) → OASValidatorImp σ → Except InitError (OASValidatorImp σ)
  | [], imp => .ok imp
  | (methodName, operation) :: rest, imp => do
    processMethods path refKeys rest (← processMethod rj path refKeys methodName operation imp)

def processPath (refKeys : List Bytes) (pathName : Bytes) (methods : Json)
    (imp : OASValidatorImp σ) : Except InitError (OASValidatorImp σ) := do
  let path := cstr pathName
  processMethods rj path (refKeys ++ [escapeSlash path]) (← methods.getObject) imp

def processPaths (refKeys : List Bytes) :
    List (Bytes × Json) → OASValidatorImp σ → Except InitError (OASValidatorImp σ)
  | [], imp => .ok imp
  | (pathName, methods) :: rest, imp => do
    processPaths refKeys rest (← processPath rj refKeys pathName methods imp)

/-- The part of the constructor behind the resolving of references. -/
def processDocument (order : Hashing) (methodMap : MethodMap) (doc : Json) :
    Except InitError (OASValidatorImp σ) := do
  let paths ← (← doc.get (lit "paths")).getObject
  processPaths rj [lit "paths"] paths { methodMap := buildCaseInsensitiveMap order methodMap }

/-- The document with its references resolved, for a number of steps to resolve them in. -/
def resolvedSpecs (files : Bytes → Option Bytes) (fuel : Nat) (oasSpecs : Bytes) :
    Option (Except InitError Json) :=
  match parseSpecs rj files oasSpecs with
  | .error x => some (.error x)
  | .ok doc => resolveReferences fuel [] doc

/-- The constructor. -/
def construct (order : Hashing) (files : Bytes → Option Bytes) (fuel : Nat) (oasSpecs : Bytes)
    (methodMap : MethodMap) : Option (Except InitError (OASValidatorImp σ)) :=
  (resolvedSpecs rj files fuel oasSpecs).map fun r => r >>= processDocument rj order methodMap

end

end OasValidator
