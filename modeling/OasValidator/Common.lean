import Mathlib.Data.List.Perm.Basic
import Mathlib.Tactic.Common
import OasValidator.Library.Json
import OasValidator.Library.Table

/-! Byte strings, the enumerations that all parts share, and what the standard library's strings and
unordered containers do.  A `std::string` is a list of bytes and a `char` is a byte. -/

namespace OasValidator

export Library.Json (quote backslash isDigit)

abbrev Bytes := List UInt8

instance decidableMemBytes (b : Bytes) (bs : List Bytes) : Decidable (b ∈ bs) := inferInstance

/-- The bytes of a string literal of ASCII characters. -/
def lit (s : String) : Bytes := s.toList.map Char.toUInt8

/-- What holds of the 256 bytes one by one holds of every byte. -/
theorem forall_byte {p : UInt8 → Prop} (h : ∀ n : Fin 256, p (UInt8.ofFin n)) (b : UInt8) : p b :=
  h b.toFin

def slash : UInt8 := '/'.toUInt8
def openBrace : UInt8 := '\x7b'.toUInt8
def closeBrace : UInt8 := '\x7d'.toUInt8
def question : UInt8 := '?'.toUInt8
def ampersand : UInt8 := '&'.toUInt8
def equals : UInt8 := '='.toUInt8
def percent : UInt8 := '%'.toUInt8
def comma : UInt8 := ','.toUInt8

/-- `std::string(s.c_str())`: the bytes before the first NUL. -/
def cstr (s : Bytes) : Bytes := s.takeWhile (· ≠ 0)

theorem cstr_of_not_mem {t : Bytes} (h : 0 ∉ t) : cstr t = t := by
  rw [cstr, List.takeWhile_eq_self_iff]
  intro c hc
  simpa using fun e : c = 0 => h (e ▸ hc)

/-- The bytes from `s.data()` on; those behind the string are NUL. -/
def dataOf (s : Bytes) (i : Nat) : UInt8 := s.getD i 0

/-- `hay.find(needle)`: the index of the first occurrence, or `std::string::npos`. -/
def find (needle : Bytes) : Bytes → Option Nat
  | [] => if needle = [] then some 0 else none
  | b :: hay => if needle.isPrefixOf (b :: hay) then some 0 else (find needle hay).map (· + 1)

/-- `std::to_string` of a number that is not negative. -/
def toString (n : Nat) : Bytes := lit (Nat.repr n)

/-- `std::to_string` writes a number: its digits, the first of which is no zero but for zero. -/
theorem toString_digits (n : Nat) :
    ∃ c rest, toString n = c :: rest ∧ (∀ b ∈ toString n, isDigit b) ∧ (n ≠ 0 → c ≠ 48) := by
  have hlit : ∀ m, toString m = (Nat.toDigits 10 m).map Char.toUInt8 := by
    intro m
    rw [toString, lit, Nat.toList_repr]
  have hdigit : ∀ d < 10, isDigit (Nat.digitChar d).toUInt8 ∧
      (d ≠ 0 → (Nat.digitChar d).toUInt8 ≠ 48) := by
    decide
  induction n using Nat.strong_induction_on with
  | _ n ih =>
    by_cases hn : n < 10
    · have hone : toString n = [(Nat.digitChar n).toUInt8] := by
        rw [hlit, Nat.toDigits_of_lt_base hn]
        rfl
      refine ⟨_, [], hone, ?_, (hdigit n hn).2⟩
      rw [hone]
      simpa using (hdigit n hn).1
    · have hsplit : toString n = toString (n / 10) ++ [(Nat.digitChar (n % 10)).toUInt8] := by
        rw [hlit, hlit, Nat.toDigits_of_base_le (by omega) (by omega), List.map_append]
        rfl
      obtain ⟨c, rest, hc, hdigits, hzero⟩ := ih (n / 10) (by omega)
      refine ⟨c, rest ++ [(Nat.digitChar (n % 10)).toUInt8], by rw [hsplit, hc]; rfl, ?_,
        fun _ => hzero (by omega)⟩
      rw [hsplit]
      intro b hb
      rcases List.mem_append.mp hb with hb | hb
      · exact hdigits b hb
      · obtain rfl := List.mem_singleton.mp hb
        exact (hdigit (n % 10) (by omega)).1

inductive ValidationError where
  | NONE
  | INVALID_METHOD
  | INVALID_ROUTE
  | INVALID_PATH_PARAM
  | INVALID_QUERY_PARAM
  | INVALID_HEADER_PARAM
  | INVALID_BODY
  | INVALID_RSP
  deriving DecidableEq

inductive HttpMethod where
  | GET
  | POST
  | PUT
  | DELETE
  | HEAD
  | OPTIONS
  | PATCH
  | CONNECT
  | TRACE
  deriving DecidableEq

inductive ParamStyle where
  | SIMPLE
  | LABEL
  | MATRIX
  | FORM
  | SPACE_DELIM
  | PIPE_DELIM
  | DEEP_OBJ
  | CONTENT
  deriving DecidableEq

inductive PrimitiveType where
  | BOOLEAN
  | INTEGER
  | NUMBER
  | STRING
  deriving DecidableEq

inductive ExtendedType where
  | BOOLEAN
  | INTEGER
  | NUMBER
  | STRING
  | ARRAY
  | OBJECT
  deriving DecidableEq

/-- How a function leaves its caller other than by returning: a `std::out_of_range` or a
`std::length_error` that nobody caught, or an operation without defined behaviour. -/
inductive Fault where
  | outOfRange
  | lengthError
  | undefined
  deriving DecidableEq

/-- How the constructor ends when it builds no validator: by its own exception, by a
`std::out_of_range`, or at an assertion of RapidJSON. -/
inductive InitError where
  | validatorInitExc (message : Bytes)
  | outOfRange
  | assertion
  deriving DecidableEq

/-- A sequence of two fallible steps returns what the second one returns. -/
theorem bind_eq_ok_iff {ε α β : Type} {x : Except ε α} {f : α → Except ε β} {b : β} :
    x >>= f = .ok b ↔ ∃ a, x = .ok a ∧ f a = .ok b := by
  cases x with
  | error e => simp [bind, Except.bind]
  | ok a => simp [bind, Except.bind]

theorem map_eq_ok_iff {ε α β : Type} {x : Except ε α} {f : α → β} {b : β} :
    x.map f = .ok b ↔ ∃ a, x = .ok a ∧ f a = b := by
  cases x <;> simp [Except.map]

/-- A range of a request path, by the indices of its ends. -/
structure ParamRange where
  beg : Nat
  end_ : Nat
  deriving DecidableEq

/-- The map from fragment indices to ranges that a search fills. -/
abbrev ParamIdxs := List (Nat × ParamRange)

/-- The order in which unordered containers of strings are iterated: some arrangement of the keys,
which may depend on the order in which they were added. -/
structure Hashing where
  iterate : List Bytes → List Bytes
  perm : ∀ ks, (iterate ks).Perm ks

/-- The key that `begin()` points to. -/
def Hashing.first (order : Hashing) (ks : List Bytes) : Option Bytes := (order.iterate ks).head?

theorem Hashing.first_mem {order : Hashing} {ks : List Bytes} {k : Bytes}
    (h : order.first ks = some k) : k ∈ ks :=
  (order.perm ks).mem_iff.mp (List.mem_of_head? h)

theorem Hashing.exists_first (order : Hashing) {ks : List Bytes} (h : ks ≠ []) :
    ∃ k ∈ ks, order.first ks = some k := by
  cases hf : order.first ks with
  | none =>
    rw [Hashing.first, List.head?_eq_none_iff] at hf
    exact absurd (List.perm_nil.mp (hf ▸ (order.perm ks).symm)) h
  | some k => exact ⟨k, Hashing.first_mem hf, rfl⟩

/-- Iteration in the order of insertion. -/
def Hashing.insertion : Hashing := ⟨id, fun _ => List.Perm.refl _⟩

/-! ### Values of a specification

A reading of a value that does not have the right kind, or of a member that does not exist, ends at
an assertion. -/

abbrev Json := Library.Json.Value

namespace Json

def getObject : Json → Except InitError (List (Bytes × Json))
  | .object members => .ok members
  | _ => .error .assertion

def getArray : Json → Except InitError (List Json)
  | .array items => .ok items
  | _ => .error .assertion

/-- `std::string(value.GetString())`. -/
def getString : Json → Except InitError Bytes
  | .string s => .ok (cstr s)
  | _ => .error .assertion

def getBool : Json → Except InitError Bool
  | .bool b => .ok b
  | _ => .error .assertion

def hasMember (v : Json) (name : Bytes) : Except InitError Bool := do
  let members ← v.getObject
  pure (members.lookup name).isSome

/-- `value[name]`, the first member of the name. -/
def get (v : Json) (name : Bytes) : Except InitError Json := do
  let members ← v.getObject
  match members.lookup name with
  | some w => pure w
  | none => throw .assertion

/-- `value.HasMember(name) ? read(value[name]) : default_`. -/
def optional {α : Type} (v : Json) (name : Bytes) (read : Json → Except InitError α) (default_ : α) :
    Except InitError α := do
  if ← v.hasMember name then read (← v.get name) else pure default_

end Json

/-- The prefix `#` and the keys, each behind a slash. -/
def joinReference (refKeys : List Bytes) : Bytes := lit "#" ++ refKeys.flatMap (slash :: ·)

def escapeSlash (str : Bytes) : Bytes := str.flatMap fun ch => if ch = slash then lit "%2F" else [ch]

end OasValidator
