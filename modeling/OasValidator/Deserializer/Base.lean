import OasValidator.Common
import OasValidator.Library.Scanning

/-! The scanning functions that all deserializers share.  Each works on the bytes of a buffer from a
cursor on, up to the end of a range, and appends what it reads to a text.  `buf i` is the byte at
index `i`, behind the range as well, and a loop carries as many steps as the range has bytes left. -/

namespace OasValidator

open Library.Scanning Library.Scanning.Scan

/-- What leaves a deserializer: a `DeserializationException` with its text, or a
`std::length_error`. -/
inductive DeserializeError where
  | exception (what : Bytes)
  | lengthError
  deriving DecidableEq

def DeserializationException (message : Bytes) : DeserializeError :=
  .exception (lit "\"description\":\"" ++ message ++ lit "\"")

abbrev Scanner := Scan DeserializeError

theorem slice_dataOf (before dir behind : Bytes) :
    slice (dataOf (before ++ dir ++ behind)) before.length (before.length + dir.length) = dir := by
  apply List.ext_getElem
  · simp [slice]
  · intro i _ hi
    simp only [slice, dataOf, List.getElem_map, List.getElem_range', List.getD_eq_getElem?_getD,
      List.append_assoc, Nat.one_mul]
    rw [List.getElem?_append_right (by omega), List.getElem?_append_left (by omega)]
    simp [hi]

structure BaseDeserializer where
  paramName : Bytes
  start : UInt8
  skipName : Bool
  deriving DecidableEq

/-- The value of a hexadecimal digit, and -1 for any other byte. -/
def kHexLookupTable (i : UInt8) : Int :=
  if '0'.toUInt8 ≤ i ∧ i ≤ '9'.toUInt8 then i.toNat - 48
  else if 'A'.toUInt8 ≤ i ∧ i ≤ 'F'.toUInt8 then i.toNat - 65 + 10
  else if 'a'.toUInt8 ≤ i ∧ i ≤ 'f'.toUInt8 then i.toNat - 97 + 10
  else -1

/-- `static_cast<char>((dec1 << 4) | dec2)`. -/
def charOf (dec1 dec2 : Int) : UInt8 := UInt8.ofNat (dec1.toNat <<< 4 ||| dec2.toNat)

def minus : UInt8 := '-'.toUInt8
def point : UInt8 := '.'.toUInt8

namespace BaseDeserializer

variable (d : BaseDeserializer) (buf : Nat → UInt8) (end_ : Nat)

/-! The exceptions, with their texts. -/

def wrongStart : DeserializeError :=
  DeserializationException (lit "Parameter '" ++ d.paramName ++ lit "' should start with '" ++
    [d.start] ++ lit "'")

def wrongChar : DeserializeError :=
  DeserializationException (lit "Invalid serialization of ' for parameter '" ++ d.paramName ++
    lit "'")

def wrongName : DeserializeError :=
  DeserializationException (lit "Parameter name mismatch for the parameter '" ++ d.paramName ++
    lit "'")

def noData : DeserializeError :=
  DeserializationException (lit "Parameter '" ++ d.paramName ++ lit "' has no data")

def wrongEnd : DeserializeError :=
  DeserializationException (lit "Invalid serialization of parameter '" ++ d.paramName ++ lit "'")

def wrongBoolean : DeserializeError :=
  DeserializationException (lit "Invalid `boolean` value for parameter `" ++ d.paramName ++ lit "`")

def wrongInteger : DeserializeError :=
  DeserializationException (lit "Invalid 'integer' format for '" ++ d.paramName ++ lit "'")

def manyPoints : DeserializeError :=
  DeserializationException (lit "Multiple '.' in number for '" ++ d.paramName ++ lit "'")

def wrongNumber : DeserializeError :=
  DeserializationException (lit "Invalid 'number' format for '" ++ d.paramName ++ lit "'")

def shortEscape : DeserializeError :=
  DeserializationException (lit "Incomplete percent encoding for '" ++ d.paramName ++ lit "'")

def wrongHex : DeserializeError :=
  DeserializationException (lit "Invalid HEX character for '" ++ d.paramName ++ lit "'")

/-- The check of the first character, which does not ask whether the range has one. -/
def checkNSkipStart : Scanner Unit :=
  if d.start ≠ 0 then do
    if (← peek buf) = d.start then advance 1
    else throw d.wrongStart
  else pure ()

def checkNSkipChar (c : UInt8) : Scanner Unit :=
  look buf end_ (fun b => if b = c then advance 1 else throw d.wrongChar) (pure ())

def checkNSkipName : Scanner Unit := do
  if ← startsWith buf end_ d.paramName then advance d.paramName.length
  else throw d.wrongName

def checkData : Scanner Unit :=
  before end_ (pure ()) (throw d.noData)

def checkEnd : Scanner Unit := do
  if (← position) ≠ end_ then throw d.wrongEnd

def deserializeBoolean (ret : Bytes) : Scanner Bytes := do
  if ← startsWith buf end_ (lit "true") then
    advance (lit "true").length
    pure (ret ++ lit "true")
  else if ← startsWith buf end_ (lit "false") then
    advance (lit "false").length
    pure (ret ++ lit "false")
  else throw d.wrongBoolean

/-- `while (cursor < end && isdigit(*cursor)) ++cursor`. -/
def skipDigits : Nat → Scanner Unit
  | 0 => pure ()
  | n + 1 =>
    look buf end_
      (fun b => if isDigit b then advance 1 >>= fun _ => skipDigits n else pure ())
      (pure ())

def skipMinus : Scanner Unit :=
  look buf end_ (fun b => if b = minus then advance 1 else pure ()) (pure ())

/-- What `[start_cursor, cursor)` must be for an integer. -/
def integerWord (word : Bytes) : Bool :=
  word ≠ [] ∧ (word.length ≠ 1 ∨ word.head? ≠ some minus)

def deserializeInteger (ret : Bytes) : Scanner Bytes := do
  let (_, word) ← taken buf do
    skipMinus buf end_
    skipDigits buf end_ (end_ - (← position))
  if integerWord word then pure (ret ++ word)
  else throw d.wrongInteger

/-- The loop over digits and points, with `has_decimal_point`. -/
def skipNumber : Nat → Bool → Scanner Bool
  | 0, hasDecimalPoint => pure hasDecimalPoint
  | n + 1, hasDecimalPoint =>
    look buf end_
      (fun b =>
        if isDigit b ∨ b = point then
          if b = point ∧ hasDecimalPoint then throw d.manyPoints
          else advance 1 >>= fun _ => skipNumber n (hasDecimalPoint || b = point)
        else pure hasDecimalPoint)
      (pure hasDecimalPoint)

/-- What `[start_cursor, cursor)` must be for a number. -/
def numberWord (hasDecimalPoint : Bool) (word : Bytes) : Bool :=
  word ≠ [] ∧ (word.length ≠ 1 ∨ (word.head? ≠ some minus ∧ word.head? ≠ some point)) ∧
    (hasDecimalPoint = false ∨ word.getLast? ≠ some point)

def deserializeNumber (ret : Bytes) : Scanner Bytes := do
  let (hasDecimalPoint, word) ← taken buf do
    skipMinus buf end_
    skipNumber d buf end_ (end_ - (← position)) false
  if numberWord hasDecimalPoint word then pure (ret ++ word)
  else throw d.wrongNumber

/-- The `switch` behind `char c = *cursor++`. -/
def decodeChar (c : UInt8) (ret : Bytes) : Scanner Bytes :=
  if c = percent then
    lookTwo buf end_
      (fun a b =>
        let dec1 := kHexLookupTable a
        let dec2 := kHexLookupTable b
        if dec1 < 0 ∨ dec2 < 0 then throw d.wrongHex
        else pure (ret ++ [charOf dec1 dec2]))
      (throw d.shortEscape)
  else if c = '+'.toUInt8 then pure (ret ++ lit " ")
  else pure (ret ++ [c])

/-- The loop of both `DeserializeString` and of `ContentDeserializer`, up to a byte that `stop`
holds of. -/
def decodeLoop (stop : UInt8 → Bool) : Nat → Bytes → Scanner Bytes
  | 0, ret => pure ret
  | n + 1, ret =>
    look buf end_
      (fun c =>
        if stop c then pure ret
        else advance 1 >>= fun _ => decodeChar d buf end_ c ret >>= fun ret => decodeLoop stop n ret)
      (pure ret)

def deserializeString (ret : Bytes) : Scanner Bytes := do
  let ret ← decodeLoop d buf end_ (fun _ => false) (end_ - (← position)) (ret ++ [quote])
  pure (ret ++ [quote])

def deserializeStringTo (terminator : UInt8) (ret : Bytes) : Scanner Bytes := do
  let ret ← decodeLoop d buf end_ (· = terminator) (end_ - (← position)) (ret ++ [quote])
  pure (ret ++ [quote])

end BaseDeserializer

end OasValidator
