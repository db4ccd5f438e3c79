import OasValidator.Deserializer.Base

/-! The four deserializers.  `deserialize` scans a range of a buffer and returns the JSON text. -/

namespace OasValidator

open Library.Scanning Library.Scanning.Scan BaseDeserializer

structure PrimitiveDeserializer extends BaseDeserializer where
  paramType : PrimitiveType
  deriving DecidableEq

structure ArrayDeserializer extends BaseDeserializer where
  itemsType : PrimitiveType
  separator : UInt8
  hasRunningName : Bool
  has20Separator : Bool
  deriving DecidableEq

/-- From quoted object keys to their types. -/
abbrev ObjKTMap := List (Bytes × PrimitiveType)

structure ObjectDeserializer extends BaseDeserializer where
  kvSeparator : UInt8
  vkSeparator : UInt8
  isDeepObj : Bool
  ktMap : ObjKTMap
  deriving DecidableEq

structure ContentDeserializer extends BaseDeserializer
  deriving DecidableEq

namespace PrimitiveDeserializer

variable (d : PrimitiveDeserializer) (buf : Nat → UInt8) (end_ : Nat)

/-- The value in front of the cursor, by the type of the parameter. -/
def deserializeValue (ret : Bytes) : Scanner Bytes :=
  match d.paramType with
  | .BOOLEAN => deserializeBoolean d.toBaseDeserializer buf end_ ret
  | .INTEGER => deserializeInteger d.toBaseDeserializer buf end_ ret
  | .NUMBER => deserializeNumber d.toBaseDeserializer buf end_ ret
  | .STRING => deserializeString d.toBaseDeserializer buf end_ ret

def deserialize : Scanner Bytes := do
  checkNSkipStart d.toBaseDeserializer buf
  if d.skipName then
    checkNSkipName d.toBaseDeserializer buf end_
    checkNSkipChar d.toBaseDeserializer buf end_ equals
  checkData d.toBaseDeserializer end_
  let ret ← deserializeValue d buf end_ []
  checkEnd d.toBaseDeserializer end_
  pure ret

end PrimitiveDeserializer

namespace ArrayDeserializer

variable (d : ArrayDeserializer) (buf : Nat → UInt8) (end_ : Nat)

def noItemData : DeserializeError :=
  DeserializationException (lit "Data for item of parameter '" ++ d.paramName ++ lit "' is missing")

def checkElementData : Scanner Unit :=
  before end_ (pure ()) (throw d.noItemData)

def checkSeparator : Scanner Unit :=
  before end_
    (do
      if d.has20Separator then
        checkNSkipChar d.toBaseDeserializer buf end_ percent
        checkNSkipChar d.toBaseDeserializer buf end_ '2'.toUInt8
        checkNSkipChar d.toBaseDeserializer buf end_ '0'.toUInt8
      else
        checkNSkipChar d.toBaseDeserializer buf end_ d.separator
      checkElementData d end_)
    (pure ())

/-- The item in front of the cursor, by the type of the items. -/
def deserializeItem (ret : Bytes) : Scanner Bytes :=
  match d.itemsType with
  | .BOOLEAN => deserializeBoolean d.toBaseDeserializer buf end_ ret
  | .INTEGER => deserializeInteger d.toBaseDeserializer buf end_ ret
  | .NUMBER => deserializeNumber d.toBaseDeserializer buf end_ ret
  | .STRING => deserializeStringTo d.toBaseDeserializer buf end_ d.separator ret

/-- One pass of the loops of the four `Deserialize*Array` functions, which differ in
`deserializeItem` only. -/
def deserializeElement (ret : Bytes) : Scanner Bytes := do
  if d.hasRunningName then
    checkNSkipName d.toBaseDeserializer buf end_
    checkNSkipChar d.toBaseDeserializer buf end_ equals
    checkElementData d end_
  let ret ← deserializeItem d buf end_ ret
  checkSeparator d buf end_
  pure (ret ++ [comma])

def deserializeItems : Nat → Bytes → Scanner Bytes
  | 0, ret => pure ret
  | n + 1, ret =>
    before end_ (deserializeElement d buf end_ ret >>= deserializeItems n) (pure ret)

def deserialize : Scanner Bytes := do
  checkNSkipStart d.toBaseDeserializer buf
  if d.skipName && !d.hasRunningName then
    checkNSkipName d.toBaseDeserializer buf end_
    checkNSkipChar d.toBaseDeserializer buf end_ equals
  checkData d.toBaseDeserializer end_
  let ret ← deserializeItems d buf end_ (end_ - (← position)) (lit "[")
  checkEnd d.toBaseDeserializer end_
  pure (if ret.getLast? = some comma then ret.dropLast ++ lit "]" else ret ++ lit "]")

end ArrayDeserializer

namespace ObjectDeserializer

variable (d : ObjectDeserializer) (buf : Nat → UInt8) (end_ : Nat)

def keyLoop (terminator : UInt8) : Nat → Bytes → Scanner Bytes
  | 0, key => pure key
  | n + 1, key =>
    look buf end_
      (fun b =>
        if b = terminator then pure key
        else advance 1 >>= fun _ => keyLoop terminator n (key ++ [b]))
      (pure key)

def deserializeKey (terminator : UInt8) (key : Bytes) : Scanner Bytes := do
  let key ← keyLoop buf end_ terminator (end_ - (← position)) (key ++ [quote])
  look buf end_ (fun b => if b = terminator then advance 1 else pure ()) (pure ())
  pure (key ++ [quote])

def invalidFormat : DeserializeError :=
  DeserializationException (lit "Invalid format for '" ++ d.paramName ++ lit "'")

/-- The quoted key in front of the cursor, in the two layouts. -/
def readKey : Scanner Bytes := do
  if d.isDeepObj then
    checkNSkipName d.toBaseDeserializer buf end_
    checkNSkipChar d.toBaseDeserializer buf end_ '['.toUInt8
    let key ← deserializeKey buf end_ ']'.toUInt8 []
    checkNSkipChar d.toBaseDeserializer buf end_ equals
    pure key
  else deserializeKey buf end_ d.kvSeparator []

def deserializeValue (paramType : PrimitiveType) (ret : Bytes) : Scanner Bytes :=
  match paramType with
  | .BOOLEAN => deserializeBoolean d.toBaseDeserializer buf end_ ret
  | .INTEGER => deserializeInteger d.toBaseDeserializer buf end_ ret
  | .NUMBER => deserializeNumber d.toBaseDeserializer buf end_ ret
  | .STRING => deserializeStringTo d.toBaseDeserializer buf end_ d.vkSeparator ret

/-- The key, its type in the map, and the value: one member of the text. -/
def deserializeMember (ret : Bytes) : Scanner Bytes := do
  let key ← readKey d buf end_
  match d.ktMap.lookup key with
  | none => throw d.invalidFormat
  | some paramType => deserializeValue d buf end_ paramType (ret ++ key ++ lit ":")

/-- `if (*cursor == vk_separator_)`, which does not ask whether the range has a byte left. -/
def skipVkSeparator (ret : Bytes) : Scanner Bytes := do
  if (← peek buf) = d.vkSeparator then
    advance 1
    pure (ret ++ [comma])
  else pure ret

/-- The loop over the members, in both layouts. -/
def deserializeMembers : Nat → Bytes → Scanner Bytes
  | 0, ret => pure ret
  | n + 1, ret =>
    before end_
      (do
        let ret ← deserializeMember d buf end_ ret
        let ret ← skipVkSeparator d buf ret
        deserializeMembers n ret)
      (pure ret)

/-- What comes before the members. -/
def checkNSkipHead : Scanner Unit := do
  checkNSkipStart d.toBaseDeserializer buf
  if d.skipName && !d.isDeepObj then
    checkNSkipName d.toBaseDeserializer buf end_
    checkNSkipChar d.toBaseDeserializer buf end_ equals
  checkData d.toBaseDeserializer end_

def deserialize : Scanner Bytes := do
  checkNSkipHead d buf end_
  let ret ← deserializeMembers d buf end_ (end_ - (← position)) (lit "\x7b")
  checkEnd d.toBaseDeserializer end_
  pure (ret ++ lit "\x7d")

end ObjectDeserializer

namespace ContentDeserializer

variable (d : ContentDeserializer) (buf : Nat → UInt8) (end_ : Nat)

/-- A cursor behind the range makes `end - cursor` a size that `reserve` refuses. -/
def deserialize : Scanner Bytes := do
  checkNSkipStart d.toBaseDeserializer buf
  if d.skipName then
    checkNSkipName d.toBaseDeserializer buf end_
    checkNSkipChar d.toBaseDeserializer buf end_ equals
  if end_ < (← position) then throw .lengthError
  let ret ← decodeLoop d.toBaseDeserializer buf end_ (fun _ => false) (end_ - (← position)) []
  checkEnd d.toBaseDeserializer end_
  pure ret

end ContentDeserializer

inductive Deserializer where
  | primitive (d : PrimitiveDeserializer)
  | array (d : ArrayDeserializer)
  | object (d : ObjectDeserializer)
  | content (d : ContentDeserializer)
  deriving DecidableEq

/-- What the four deserializers have in common. -/
def Deserializer.toBase : Deserializer → BaseDeserializer
  | .primitive d => d.toBaseDeserializer
  | .array d => d.toBaseDeserializer
  | .object d => d.toBaseDeserializer
  | .content d => d.toBaseDeserializer

def Deserializer.scan (buf : Nat → UInt8) (end_ : Nat) : Deserializer → Scanner Bytes
  | .primitive d => d.deserialize buf end_
  | .array d => d.deserialize buf end_
  | .object d => d.deserialize buf end_
  | .content d => d.deserialize buf end_

/-- `Deserialize(beg, end)`: the text or the failure, and where the cursor was left. -/
def Deserializer.deserialize (d : Deserializer) (buf : Nat → UInt8) (beg end_ : Nat) :
    Except DeserializeError Bytes × Cursor :=
  d.scan buf end_ ⟨beg, 0⟩

end OasValidator
