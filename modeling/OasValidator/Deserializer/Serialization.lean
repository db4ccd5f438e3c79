import OasValidator.Deserializer.Build
import OasValidator.Deserializer.Whole
import OasValidator.Library.JsonText

/-! How a client writes parameters.  The styles of OpenAPI say how a value, a list of values or a list
of named values is put into a path, a query or a header; a value is a word, and a string is
percent-encoded.  Nothing here is taken from the deserializers, which are to read these texts. -/

namespace OasValidator

open Library.Json Library.Scanning

/-! ### Words -/

/-- The bytes that RFC 3986 leaves as they are. -/
def unreserved (c : UInt8) : Bool :=
  isDigit c || ('A'.toUInt8 ≤ c && c ≤ 'Z'.toUInt8) || ('a'.toUInt8 ≤ c && c ≤ 'z'.toUInt8) ||
    c = '-'.toUInt8 || c = '.'.toUInt8 || c = '_'.toUInt8 || c = '~'.toUInt8

def hexDigit (n : Nat) : UInt8 := UInt8.ofNat (if n < 10 then 48 + n else 55 + n)

def encodeByte (c : UInt8) : Bytes :=
  if unreserved c then [c] else [percent, hexDigit (c.toNat / 16), hexDigit (c.toNat % 16)]

def percentEncode (s : Bytes) : Bytes := s.flatMap encodeByte

@[simp] theorem percentEncode_nil : percentEncode [] = [] := rfl

@[simp] theorem percentEncode_cons (c : UInt8) (s : Bytes) :
    percentEncode (c :: s) = encodeByte c ++ percentEncode s := by
  simp [percentEncode]

/-- A plain decimal number: a JSON number without exponent. -/
def PlainDecimal (word : Bytes) : Prop :=
  number word = some (word, []) ∧ ∀ c ∈ word, isDigit c ∨ c = minus ∨ c = point

/-- The values that are sent for a type. -/
def Sendable : PrimitiveType → Json → Prop
  | .BOOLEAN, .bool _ => True
  | .INTEGER, .number word => PlainDecimal word ∧ point ∉ word
  | .NUMBER, .number word => PlainDecimal word
  | .STRING, .string s => s ≠ [] ∧ NeedsNoEscape s
  | _, _ => False

/-- The word that stands for a value. -/
def wordOf : Json → Bytes
  | .bool b => if b then lit "true" else lit "false"
  | .number word => word
  | .string s => percentEncode s
  | _ => []

/-! ### Styles -/

/-- What stands in front of the word of a parameter that is a single value. -/
def primitivePrefix (in_ : Bytes) (style : ParamStyle) (name : Bytes) : Bytes :=
  match style with
  | .SIMPLE => []
  | .LABEL => lit "."
  | .MATRIX => lit ";" ++ name ++ lit "="
  | .CONTENT => if in_ = lit "query" then name ++ lit "=" else []
  | _ => name ++ lit "="

/-- The words of a list of values.  Objects of style `deepObject` and contents have no such form. -/
def serializeArray (style : ParamStyle) (explode : Bool) (name : Bytes) (words : List Bytes) :
    Bytes :=
  let joined (separator : Bytes) := separator.intercalate words
  let named (separator : Bytes) := separator.intercalate (words.map (name ++ lit "=" ++ ·))
  match style, explode with
  | .SIMPLE, _ => joined (lit ",")
  | .LABEL, false => lit "." ++ joined (lit ",")
  | .LABEL, true => lit "." ++ joined (lit ".")
  | .MATRIX, false => lit ";" ++ name ++ lit "=" ++ joined (lit ",")
  | .MATRIX, true => lit ";" ++ named (lit ";")
  | .FORM, false => name ++ lit "=" ++ joined (lit ",")
  | .SPACE_DELIM, false => name ++ lit "=" ++ joined (lit "%20")
  | .PIPE_DELIM, false => name ++ lit "=" ++ joined (lit "|")
  | .FORM, true | .SPACE_DELIM, true | .PIPE_DELIM, true => named (lit "&")
  | .DEEP_OBJ, _ | .CONTENT, _ => []

/-- What stands between the words of a list of values. -/
def rawSeparator (style : ParamStyle) (explode : Bool) : Bytes :=
  match style, explode with
  | .LABEL, true => lit "."
  | .MATRIX, true => lit ";"
  | .FORM, true | .SPACE_DELIM, true | .PIPE_DELIM, true | .DEEP_OBJ, _ => lit "&"
  | .SPACE_DELIM, false => lit "%20"
  | .PIPE_DELIM, false => lit "|"
  | _, _ => lit ","

/-- The members of an object, each a name and the word of its value.  Names are percent-encoded. -/
def serializeObject (style : ParamStyle) (explode : Bool) (name : Bytes)
    (members : List (Bytes × Bytes)) : Bytes :=
  let flat := (lit ",").intercalate (members.flatMap fun m => [percentEncode m.1, m.2])
  let pairs (separator : Bytes) :=
    separator.intercalate (members.map fun m => percentEncode m.1 ++ lit "=" ++ m.2)
  match style, explode with
  | .SIMPLE, false => flat
  | .SIMPLE, true => pairs (lit ",")
  | .LABEL, false => lit "." ++ flat
  | .LABEL, true => lit "." ++ pairs (lit ".")
  | .MATRIX, false => lit ";" ++ name ++ lit "=" ++ flat
  | .MATRIX, true => lit ";" ++ pairs (lit ";")
  | .FORM, false => name ++ lit "=" ++ flat
  | .FORM, true => pairs (lit "&")
  | .DEEP_OBJ, _ => (lit "&").intercalate
      (members.map fun m => name ++ lit "[" ++ percentEncode m.1 ++ lit "]=" ++ m.2)
  | .SPACE_DELIM, _ | .PIPE_DELIM, _ | .CONTENT, _ => []

/-! ### Reading words -/

namespace Text

variable {d : BaseDeserializer} {stop : UInt8 → Bool}

theorem hex_encodeByte (c : UInt8) :
    0 ≤ kHexLookupTable (hexDigit (c.toNat / 16)) ∧ 0 ≤ kHexLookupTable (hexDigit (c.toNat % 16)) ∧
      charOf (kHexLookupTable (hexDigit (c.toNat / 16)))
        (kHexLookupTable (hexDigit (c.toNat % 16))) = c := by
  apply @forall_byte fun c => 0 ≤ kHexLookupTable (hexDigit (c.toNat / 16)) ∧
    0 ≤ kHexLookupTable (hexDigit (c.toNat % 16)) ∧
      charOf (kHexLookupTable (hexDigit (c.toNat / 16)))
        (kHexLookupTable (hexDigit (c.toNat % 16))) = c
  decide +kernel

/-- The byte that the scanner looks at first when it reads an encoded byte. -/
def leading (c : UInt8) : UInt8 := if unreserved c then c else percent

theorem decode_encodeByte {c : UInt8} (hstop : stop (leading c) = false) (t : Bytes) :
    decode d stop (encodeByte c ++ t) = (decode d stop t).map fun p => (c :: p.1, p.2) := by
  by_cases hc : unreserved c
  · have hne : ∀ b, unreserved b = false → c ≠ b := by
      rintro b hb rfl
      rw [hb] at hc
      exact Bool.false_ne_true hc
    simp only [leading, hc, if_true] at hstop
    simp only [encodeByte, hc, if_true, List.singleton_append]
    rw [decode.eq_def]
    simp [hstop, hne percent (by decide), hne '+'.toUInt8 (by decide)]
  · obtain ⟨h1, h2, hchar⟩ := hex_encodeByte c
    simp only [leading, hc, Bool.false_eq_true, if_false] at hstop
    simp only [encodeByte, hc, Bool.false_eq_true, if_false, List.cons_append, List.nil_append]
    rw [decode.eq_def]
    have hneg : ¬(kHexLookupTable (hexDigit (c.toNat / 16)) < 0 ∨
        kHexLookupTable (hexDigit (c.toNat % 16)) < 0) := by
      omega
    simp only [hstop, Bool.false_eq_true, if_false, if_true, hneg, hchar]

/-- Encoded bytes are decoded to themselves. -/
theorem decode_append {s t : Bytes} (hs : ∀ c ∈ s, stop (leading c) = false) :
    decode d stop (percentEncode s ++ t) = (decode d stop t).map fun p => (s ++ p.1, p.2) := by
  induction s with
  | nil => cases h : decode d stop t <;> simp [h, Except.map]
  | cons c s ih =>
    rw [percentEncode_cons, List.append_assoc, decode_encodeByte (hs c List.mem_cons_self),
      ih fun b hb => hs b (List.mem_cons_of_mem c hb)]
    cases decode d stop t <;> rfl

/-- They are decoded up to a byte that ends the string. -/
theorem decode_percentEncode {s rest : Bytes} (hs : ∀ c ∈ s, stop (leading c) = false)
    (hrest : ∀ b ∈ rest.head?, stop b) :
    decode d stop (percentEncode s ++ rest) = .ok (s, rest) := by
  rw [decode_append hs]
  cases rest with
  | nil => simp [decode, Except.map]
  | cons b rest => simp [decode_cons, hrest b rfl, Except.map]

end Text

end OasValidator
