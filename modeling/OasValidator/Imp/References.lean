import OasValidator.Common
import OasValidator.Library.Cut
import OasValidator.Library.Tree

/-! Resolving the references of a specification document in place.  A value of the document is known
by its place, the indices of the members and items that lead to it, and the document is passed along
in its present state.  The functions take a number of steps, as they do not end on every document. -/

namespace OasValidator

open Library.Cut Library.Json

def split (str : Bytes) : List Bytes := cut slash str

/-- The walk of `ResolvePath` over the members with the names `parts`, from a value on.  What comes
back is the place of the value it ends at, from there. -/
def resolveParts : List Bytes → Json → Except InitError Place
  | [], _ => .ok []
  | part :: parts, current =>
    match current.findMember (cstr part) with
    | none => .error (.validatorInitExc (lit "Invalid path or missing member:" ++ part))
    | some (i, value) => return i :: (← resolveParts parts value)

def resolvePath (doc : Json) (path : Bytes) : Except InitError Place :=
  resolveParts (split path) doc

/-- The reference of a member `$ref`, without `#/`. -/
def localRef (name : Bytes) (value : Json) : Option Bytes :=
  match value with
  | .string s =>
    if cstr name = lit "$ref" ∧ (lit "#/").isPrefixOf (cstr s) then some ((cstr s).drop 2) else none
  | _ => none

/-- A member `$ref` with a string, which is not entered. -/
def isRef (name : Bytes) (value : Json) : Bool :=
  match value with
  | .string _ => cstr name = lit "$ref"
  | _ => false

/-- `value.CopyFrom(*ref_value)`, which asserts that a value is not copied to itself. -/
def copyFrom (place target : Place) (doc : Json) : Except InitError Json :=
  if place = target then .error .assertion
  else match doc.at? target with
    | some value => .ok (doc.setAt place value)
    | none => .error .assertion

/-- A run that may need more steps than it was given, and one after it. -/
def thenRun (r : Option (Except InitError Json)) (next : Json → Option (Except InitError Json)) :
    Option (Except InitError Json) :=
  match r with
  | some (.ok doc) => next doc
  | r => r

mutual

def resolveReferences : Nat → Place → Json → Option (Except InitError Json)
  | 0, _, _ => none
  | n + 1, place, doc =>
    match doc.at? place with
    | some (.object _) => resolveMembers n place 0 doc
    | some (.array _) => resolveItems n place 0 doc
    | _ => some (.ok doc)

/-- The loop over the members from the one at index `i` on.  After a copy it starts again, at
`MemberBegin` of what the value then is. -/
def resolveMembers : Nat → Place → Nat → Json → Option (Except InitError Json)
  | 0, _, _, _ => none
  | n + 1, place, i, doc =>
    match doc.at? place with
    | some (.object members) =>
      match members[i]? with
      | none => some (.ok doc)
      | some (name, value) =>
        match localRef name value with
        | some ref =>
          match resolvePath doc ref >>= fun target => copyFrom place target doc with
          | .ok doc => resolveMembers n place 0 doc
          | .error x => some (.error x)
        | none =>
          if isRef name value then resolveMembers n place (i + 1) doc
          else thenRun (resolveReferences n (place ++ [i]) doc) (resolveMembers n place (i + 1))
    | _ => some (.error .assertion)

def resolveItems : Nat → Place → Nat → Json → Option (Except InitError Json)
  | 0, _, _, _ => none
  | n + 1, place, i, doc =>
    match doc.at? place with
    | some (.array items) =>
      if i < items.length then
        thenRun (resolveReferences n (place ++ [i]) doc) (resolveItems n place (i + 1))
      else some (.ok doc)
    | _ => some (.error .assertion)

end

end OasValidator
