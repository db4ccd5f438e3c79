import Mathlib.Data.List.TakeWhile
import Mathlib.Tactic.Common

/-! JSON texts and the values they stand for.  A text is a list of bytes; strings are kept as bytes
and numbers as they are written.  The parser accepts RFC 8259 documents, with bytes above 127 let
through in strings. -/

namespace Library.Json

inductive Value where
  | null
  | bool (b : Bool)
  | number (lexeme : List UInt8)
  | string (s : List UInt8)
  | array (items : List Value)
  | object (members : List (List UInt8 × Value))

namespace Value

mutual

def identical : Value → Value → Bool
  | .null, .null => true
  | .bool b, .bool b' => b = b'
  | .number lexeme, .number lexeme' => lexeme = lexeme'
  | .string s, .string s' => s = s'
  | .array items, .array items' => identicalItems items items'
  | .object members, .object members' => identicalMembers members members'
  | _, _ => false

def identicalItems : List Value → List Value → Bool
  | [], [] => true
  | v :: items, v' :: items' => identical v v' && identicalItems items items'
  | _, _ => false

def identicalMembers : List (List UInt8 × Value) → List (List UInt8 × Value) → Bool
  | [], [] => true
  | (name, v) :: members, (name', v') :: members' =>
    name = name' && identical v v' && identicalMembers members members'
  | _, _ => false

end

mutual

theorem identical_iff (v v' : Value) : identical v v' = true ↔ v = v' := by
  cases v with
  | array items =>
    cases v' with
    | array items' => simpa [identical] using identicalItems_iff items items'
    | _ => simp [identical]
  | object members =>
    cases v' with
    | object members' => simpa [identical] using identicalMembers_iff members members'
    | _ => simp [identical]
  | _ => cases v' <;> simp [identical]

theorem identicalItems_iff (items items' : List Value) :
    identicalItems items items' = true ↔ items = items' := by
  cases items with
  | nil => cases items' <;> simp [identicalItems]
  | cons v items =>
    cases items' with
    | nil => simp [identicalItems]
    | cons v' items' =>
      simp [identicalItems, identical_iff v v', identicalItems_iff items items']

theorem identicalMembers_iff (members members' : List (List UInt8 × Value)) :
    identicalMembers members members' = true ↔ members = members' := by
  cases members with
  | nil => cases members' <;> simp [identicalMembers]
  | cons m members =>
    cases members' with
    | nil => simp [identicalMembers]
    | cons m' members' =>
      simp [identicalMembers, identical_iff m.2 m'.2, identicalMembers_iff members members',
        Prod.ext_iff, and_assoc]

end

instance : DecidableEq Value := fun v v' => decidable_of_iff _ (identical_iff v v')

end Value

def quote : UInt8 := '"'.toUInt8
def backslash : UInt8 := '\\'.toUInt8

def isSpace (c : UInt8) : Bool := c = 32 ∨ c = 9 ∨ c = 10 ∨ c = 13

def skipSpace (t : List UInt8) : List UInt8 := t.dropWhile isSpace

def isDigit (c : UInt8) : Bool := '0'.toUInt8 ≤ c ∧ c ≤ '9'.toUInt8

def hexValue (c : UInt8) : Option Nat :=
  if isDigit c then some (c.toNat - 48)
  else if 65 ≤ c ∧ c ≤ 70 then some (c.toNat - 55)
  else if 97 ≤ c ∧ c ≤ 102 then some (c.toNat - 87)
  else none

/-- The number that the next four hexadecimal digits write, and what follows them. -/
def hexFour : List UInt8 → Option (Nat × List UInt8)
  | a :: b :: c :: d :: t => do
    let a ← hexValue a
    let b ← hexValue b
    let c ← hexValue c
    let d ← hexValue d
    some (((a * 16 + b) * 16 + c) * 16 + d, t)
  | _ => none

/-- The bytes of a code point in UTF-8. -/
def utf8 (n : Nat) : List UInt8 :=
  if n < 0x80 then [UInt8.ofNat n]
  else if n < 0x800 then [UInt8.ofNat (0xC0 + n / 64), UInt8.ofNat (0x80 + n % 64)]
  else if n < 0x10000 then
    [UInt8.ofNat (0xE0 + n / 4096), UInt8.ofNat (0x80 + n / 64 % 64), UInt8.ofNat (0x80 + n % 64)]
  else
    [UInt8.ofNat (0xF0 + n / 262144), UInt8.ofNat (0x80 + n / 4096 % 64),
      UInt8.ofNat (0x80 + n / 64 % 64), UInt8.ofNat (0x80 + n % 64)]

/-- The byte that a one-character escape stands for. -/
def escapeChar (c : UInt8) : Option UInt8 :=
  if c = quote ∨ c = backslash ∨ c = '/'.toUInt8 then some c
  else if c = 'b'.toUInt8 then some 8
  else if c = 'f'.toUInt8 then some 12
  else if c = 'n'.toUInt8 then some 10
  else if c = 'r'.toUInt8 then some 13
  else if c = 't'.toUInt8 then some 9
  else none

/-- The code point that `n` and a low surrogate behind it stand for. -/
def surrogate (n : Nat) : List UInt8 → Option (Nat × List UInt8)
  | s :: u :: t =>
    if s = backslash ∧ u = 'u'.toUInt8 then
      match hexFour t with
      | some (m, rest) =>
        if 0xDC00 ≤ m ∧ m ≤ 0xDFFF then some ((n - 0xD800) * 0x400 + (m - 0xDC00) + 0x10000, rest)
        else none
      | none => none
    else none
  | _ => none

/-- The bytes that the escape behind a backslash stands for, and what follows it. -/
def escape : List UInt8 → Option (List UInt8 × List UInt8)
  | [] => none
  | e :: t =>
    if e = 'u'.toUInt8 then
      match hexFour t with
      | some (n, rest) =>
        if n < 0xD800 ∨ 0xDFFF < n then some (utf8 n, rest)
        else if n ≤ 0xDBFF then (surrogate n rest).map fun p => (utf8 p.1, p.2)
        else none
      | none => none
    else (escapeChar e).map fun c => ([c], t)

/-- The string up to its closing quote, and what follows the quote. -/
def stringBody : Nat → List UInt8 → Option (List UInt8 × List UInt8)
  | 0, _ => none
  | _ + 1, [] => none
  | n + 1, c :: t =>
    if c = quote then some ([], t)
    else if c = backslash then
      (escape t).bind fun p => (stringBody n p.2).map fun q => (p.1 ++ q.1, q.2)
    else if c < 32 then none
    else (stringBody n t).map fun q => (c :: q.1, q.2)

def string (t : List UInt8) : Option (List UInt8 × List UInt8) := stringBody (t.length + 1) t

/-- The digits in front of a text, at least one. -/
def digits (t : List UInt8) : Option (List UInt8 × List UInt8) :=
  if t.takeWhile isDigit = [] then none else some (t.takeWhile isDigit, t.dropWhile isDigit)

/-- The whole part of a number, which starts with a zero only if it is one. -/
def wholePart (t : List UInt8) : Option (List UInt8 × List UInt8) :=
  match t with
  | [] => none
  | c :: rest => if c = 48 then some ([c], rest) else digits t

def fraction (t : List UInt8) : Option (List UInt8 × List UInt8) :=
  match t with
  | [] => some ([], t)
  | c :: rest =>
    if c = '.'.toUInt8 then (digits rest).map fun p => (c :: p.1, p.2) else some ([], t)

def exponent (t : List UInt8) : Option (List UInt8 × List UInt8) :=
  match t with
  | [] => some ([], t)
  | c :: rest =>
    if c = 'e'.toUInt8 ∨ c = 'E'.toUInt8 then
      match rest with
      | [] => none
      | s :: rest' =>
        if s = '+'.toUInt8 ∨ s = '-'.toUInt8 then
          (digits rest').map fun p => (c :: s :: p.1, p.2)
        else (digits rest).map fun p => (c :: p.1, p.2)
    else some ([], t)

/-- A number, as it is written. -/
def number (t : List UInt8) : Option (List UInt8 × List UInt8) := do
  let (sign, t) := if t.head? = some '-'.toUInt8 then (t.take 1, t.drop 1) else ([], t)
  let (whole, t) ← wholePart t
  let (frac, t) ← fraction t
  let (exp, t) ← exponent t
  some (sign ++ whole ++ frac ++ exp, t)

/-- What stands behind `word`, if the text starts with it. -/
def literal (word t : List UInt8) : Option (List UInt8) :=
  if word.isPrefixOf t then some (t.drop word.length) else none

def trueWord : List UInt8 := ['t'.toUInt8, 'r'.toUInt8, 'u'.toUInt8, 'e'.toUInt8]

def falseWord : List UInt8 := ['f'.toUInt8, 'a'.toUInt8, 'l'.toUInt8, 's'.toUInt8, 'e'.toUInt8]

def nullWord : List UInt8 := ['n'.toUInt8, 'u'.toUInt8, 'l'.toUInt8, 'l'.toUInt8]

mutual

/-- A value, with the space in front of it. -/
def value : Nat → List UInt8 → Option (Value × List UInt8)
  | 0, _ => none
  | n + 1, t =>
    match skipSpace t with
    | [] => none
    | c :: rest =>
      if c = quote then (string rest).map fun p => (.string p.1, p.2)
      else if c = '\x7b'.toUInt8 then
        match skipSpace rest with
        | [] => none
        | b :: rest' =>
          if b = '\x7d'.toUInt8 then some (.object [], rest')
          else (members n (b :: rest')).map fun p => (.object p.1, p.2)
      else if c = '['.toUInt8 then
        match skipSpace rest with
        | [] => none
        | b :: rest' =>
          if b = ']'.toUInt8 then some (.array [], rest')
          else (elements n (b :: rest')).map fun p => (.array p.1, p.2)
      else if c = 't'.toUInt8 then
        (literal trueWord (c :: rest)).map fun t => (.bool true, t)
      else if c = 'f'.toUInt8 then
        (literal falseWord (c :: rest)).map fun t => (.bool false, t)
      else if c = 'n'.toUInt8 then
        (literal nullWord (c :: rest)).map fun t => (.null, t)
      else (number (c :: rest)).map fun p => (.number p.1, p.2)

/-- The values of an array up to its closing bracket. -/
def elements : Nat → List UInt8 → Option (List Value × List UInt8)
  | 0, _ => none
  | n + 1, t =>
    (value n t).bind fun p =>
      match skipSpace p.2 with
      | [] => none
      | c :: rest =>
        if c = ','.toUInt8 then (elements n rest).map fun q => (p.1 :: q.1, q.2)
        else if c = ']'.toUInt8 then some ([p.1], rest)
        else none

/-- The members of an object up to its closing brace. -/
def members : Nat → List UInt8 → Option (List (List UInt8 × Value) × List UInt8)
  | 0, _ => none
  | n + 1, t =>
    match skipSpace t with
    | [] => none
    | c :: rest =>
      if c = quote then
        (string rest).bind fun k =>
          match skipSpace k.2 with
          | [] => none
          | c :: rest =>
            if c = ':'.toUInt8 then
              (value n rest).bind fun p =>
                match skipSpace p.2 with
                | [] => none
                | c :: rest =>
                  if c = ','.toUInt8 then
                    (members n rest).map fun q => ((k.1, p.1) :: q.1, q.2)
                  else if c = '\x7d'.toUInt8 then some ([(k.1, p.1)], rest)
                  else none
            else none
      else none

end

/-- The value that a text is, with space around it. -/
def parse (t : List UInt8) : Option Value :=
  match value (t.length + 1) t with
  | some (v, rest) => if skipSpace rest = [] then some v else none
  | none => none

/-! ### Strings that stand for their own bytes -/

theorem utf8_length (n : Nat) : (utf8 n).length ≤ 4 := by
  unfold utf8
  split
  · simp
  · split
    · simp
    · split <;> simp

theorem hexFour_eq_some {t rest : List UInt8} {n : Nat} (h : hexFour t = some (n, rest)) :
    ∃ p, t = p ++ rest ∧ quote ∉ p ∧ p.length = 4 := by
  have hnone : hexValue quote = none := by decide
  rcases t with _ | ⟨a, _ | ⟨b, _ | ⟨c, _ | ⟨d, t⟩⟩⟩⟩
  · simp [hexFour] at h
  · simp [hexFour] at h
  · simp [hexFour] at h
  · simp [hexFour] at h
  simp only [hexFour, Option.bind_eq_bind, Option.bind_eq_some_iff, Option.some.injEq,
    Prod.mk.injEq] at h
  obtain ⟨_, ha, _, hb, _, hc, _, hd, -, rfl⟩ := h
  refine ⟨[a, b, c, d], rfl, ?_, rfl⟩
  intro hm
  simp only [List.mem_cons, List.not_mem_nil, or_false] at hm
  rcases hm with rfl | rfl | rfl | rfl
  · rw [hnone] at ha; simp at ha
  · rw [hnone] at hb; simp at hb
  · rw [hnone] at hc; simp at hc
  · rw [hnone] at hd; simp at hd

theorem surrogate_eq_some {t rest : List UInt8} {n m : Nat} (h : surrogate n t = some (m, rest)) :
    ∃ p, t = p ++ rest ∧ quote ∉ p := by
  rcases t with _ | ⟨s, _ | ⟨u, t⟩⟩
  · simp [surrogate] at h
  · simp [surrogate] at h
  rw [surrogate] at h
  split at h
  · rename_i hsu
    cases hx : hexFour t with
    | none => simp [hx] at h
    | some q =>
      obtain ⟨m', rest'⟩ := q
      obtain ⟨p, rfl, hq, -⟩ := hexFour_eq_some hx
      simp only [hx] at h
      split at h
      · obtain rfl : rest' = rest := (Prod.mk.inj (Option.some.inj h)).2
        refine ⟨s :: u :: p, rfl, ?_⟩
        rw [hsu.1, hsu.2]
        simpa using ⟨by decide, by decide, hq⟩
      · simp at h
  · simp at h

/-- An escape takes a quote for itself, or no quote and no fewer bytes than it stands for. -/
theorem escape_eq_some {t out rest : List UInt8} (h : escape t = some (out, rest)) :
    ∃ p, t = p ++ rest ∧ ((p = [quote] ∧ out = [quote]) ∨ (quote ∉ p ∧ out.length ≤ p.length)) := by
  rcases t with _ | ⟨e, t⟩
  · simp [escape] at h
  rw [escape] at h
  split at h
  · rename_i he
    subst he
    cases hx : hexFour t with
    | none => simp [hx] at h
    | some q =>
      obtain ⟨n, mid⟩ := q
      obtain ⟨p, rfl, hq, hlen⟩ := hexFour_eq_some hx
      have hu : quote ∉ 'u'.toUInt8 :: p := by simpa using ⟨by decide, hq⟩
      simp only [hx] at h
      split at h
      · obtain ⟨rfl, rfl⟩ := Prod.mk.inj (Option.some.inj h)
        exact ⟨_ :: p, rfl, Or.inr ⟨hu, (utf8_length n).trans (by simp [hlen])⟩⟩
      · split at h
        · obtain ⟨⟨m, rest'⟩, hs, heq⟩ := Option.map_eq_some_iff.mp h
          obtain ⟨rfl, rfl⟩ := Prod.mk.inj heq
          obtain ⟨p', rfl, hq'⟩ := surrogate_eq_some hs
          refine ⟨'u'.toUInt8 :: p ++ p', by simp, Or.inr ⟨?_, ?_⟩⟩
          · rw [List.mem_append, not_or]
            exact ⟨hu, hq'⟩
          · have := utf8_length m
            simp only [List.length_append, List.length_cons]
            omega
        · simp at h
  · obtain ⟨c, hc, rfl, rfl⟩ : ∃ c, escapeChar e = some c ∧ [c] = out ∧ t = rest := by
      simpa using h
    refine ⟨[e], rfl, ?_⟩
    by_cases he : e = quote
    · subst he
      have : c = quote := by simpa [escapeChar, eq_comm] using hc
      exact Or.inl ⟨rfl, by rw [this]⟩
    · exact Or.inr ⟨by simpa using Ne.symm he, by simp⟩

/-- A string whose text has its first quote behind `w` has a quote among its first bytes, or is not
longer than `w`, and equal to it if it is as long. -/
theorem stringBody_first_quote {n : Nat} {t v rest w r : List UInt8}
    (h : stringBody n t = some (v, rest)) (ht : t = w ++ quote :: r) (hw : quote ∉ w) :
    (∃ i < w.length, v[i]? = some quote) ∨
      (v.length ≤ w.length ∧ (v.length = w.length → v = w ∧ backslash ∉ w ∧ rest = r)) := by
  induction n generalizing t v w with
  | zero => simp [stringBody] at h
  | succ n ih =>
    cases w with
    | nil =>
      subst ht
      obtain ⟨rfl, rfl⟩ : [] = v ∧ r = rest := by simpa [stringBody] using h
      exact Or.inr ⟨le_rfl, fun _ => ⟨rfl, by simp, rfl⟩⟩
    | cons c w =>
      subst ht
      obtain ⟨hc, hw'⟩ : c ≠ quote ∧ quote ∉ w := by
        simpa [eq_comm] using hw
      rw [List.cons_append, stringBody, if_neg hc] at h
      split at h
      · -- an escape stands for fewer bytes than it takes
        obtain ⟨⟨out, mid⟩, hesc, h⟩ := Option.bind_eq_some_iff.mp h
        obtain ⟨⟨v', rest'⟩, hrec, heq⟩ := Option.map_eq_some_iff.mp h
        obtain ⟨rfl, rfl⟩ := Prod.mk.inj heq
        obtain ⟨p, hp, ⟨-, hout⟩ | ⟨hq, hlen⟩⟩ := escape_eq_some hesc
        · exact Or.inl ⟨0, by simp, by simp [hout]⟩
        · obtain ⟨w', rfl, rfl⟩ : ∃ w', w = p ++ w' ∧ mid = w' ++ quote :: r := by
            rcases List.append_eq_append_iff.mp hp with ⟨b, hpb, hmid⟩ | ⟨w', hw'', hmid⟩
            · cases b with
              | nil => exact ⟨[], by simpa using hpb.symm, by simpa using hmid.symm⟩
              | cons x b =>
                obtain rfl : quote = x := (List.cons.inj hmid).1
                simp [hpb] at hq
            · exact ⟨w', hw'', hmid⟩
          rw [List.mem_append, not_or] at hw'
          rcases ih hrec rfl hw'.2 with ⟨i, hi, hget⟩ | ⟨hle, -⟩
          · refine Or.inl ⟨out.length + i, by simp; omega, ?_⟩
            rw [List.getElem?_append_right (Nat.le_add_right _ _)]
            simpa using hget
          · refine Or.inr ⟨by simp; omega, fun heq => ?_⟩
            simp only [List.length_append, List.length_cons] at heq
            omega
      · rename_i hback
        split at h
        · simp at h
        · obtain ⟨⟨v', rest'⟩, hrec, heq⟩ := Option.map_eq_some_iff.mp h
          obtain ⟨rfl, rfl⟩ := Prod.mk.inj heq
          rcases ih hrec rfl hw' with ⟨i, hi, hget⟩ | ⟨hle, heq⟩
          · exact Or.inl ⟨i + 1, by simpa using hi, by simpa using hget⟩
          · refine Or.inr ⟨by simpa using hle, fun hlen => ?_⟩
            obtain ⟨rfl, hb, hr⟩ := heq (by simpa using hlen)
            exact ⟨rfl, by simpa using ⟨Ne.symm hback, hb⟩, hr⟩

/-- A text that is read as itself up to the quote behind it has no quote and no backslash. -/
theorem string_eq_self {s rest r : List UInt8} (h : string (s ++ quote :: r) = some (s, rest)) :
    quote ∉ s ∧ backslash ∉ s ∧ rest = r := by
  by_cases hs : quote ∈ s
  · -- the first quote of the text would be among the bytes that the string has in front of it
    obtain ⟨w, r', hsplit, hw⟩ := List.eq_append_cons_of_mem hs
    have ht : s ++ quote :: r = w ++ quote :: (r' ++ quote :: r) := by rw [hsplit]; simp
    rcases stringBody_first_quote h ht hw with ⟨i, hi, hget⟩ | ⟨hle, -⟩
    · rw [hsplit, List.getElem?_append_left hi] at hget
      exact absurd (List.mem_of_getElem? hget) hw
    · rw [hsplit, List.length_append, List.length_cons] at hle
      omega
  · rcases stringBody_first_quote h rfl hs with ⟨i, hi, hget⟩ | ⟨-, heq⟩
    · exact absurd (List.mem_of_getElem? hget) hs
    · obtain ⟨-, hb, hr⟩ := heq rfl
      exact ⟨hs, hb, hr⟩

/-- A text without quotes and backslashes is read as itself, up to the quote behind it. -/
theorem string_of_plain {s v rest r : List UInt8} (hq : quote ∉ s) (hb : backslash ∉ s)
    (h : string (s ++ quote :: r) = some (v, rest)) : v = s ∧ rest = r := by
  have hplain : ∀ n, stringBody n (s ++ quote :: r) = some (v, rest) → v = s ∧ rest = r := by
    intro n hn
    clear h
    induction s generalizing n v with
    | nil =>
      cases n with
      | zero => simp [stringBody] at hn
      | succ n =>
        obtain ⟨rfl, rfl⟩ : [] = v ∧ r = rest := by simpa [stringBody] using hn
        exact ⟨rfl, rfl⟩
    | cons c s ih =>
      cases n with
      | zero => simp [stringBody] at hn
      | succ n =>
        simp only [List.mem_cons, not_or] at hq hb
        rw [List.cons_append, stringBody, if_neg (Ne.symm hq.1), if_neg (Ne.symm hb.1)] at hn
        split at hn
        · simp at hn
        · obtain ⟨⟨v', rest'⟩, hrec, heq⟩ := Option.map_eq_some_iff.mp hn
          obtain ⟨rfl, rfl⟩ := Prod.mk.inj heq
          obtain ⟨rfl, rfl⟩ := ih hq.2 hb.2 n hrec
          exact ⟨rfl, rfl⟩
  exact hplain _ h

/-! ### Values in front of a text -/

theorem skipSpace_cons {c : UInt8} (h : isSpace c = false) (t : List UInt8) :
    skipSpace (c :: t) = c :: t := by
  simp [skipSpace, h]

theorem value_string (n : Nat) (t : List UInt8) :
    value (n + 1) (quote :: t) = (string t).map fun p => (.string p.1, p.2) := by
  rw [value, skipSpace_cons (by decide)]
  simp

theorem literal_append (word t : List UInt8) : literal word (word ++ t) = some t := by
  simp [literal]

theorem value_true (n : Nat) (t : List UInt8) :
    value (n + 1) (trueWord ++ t) = some (.bool true, t) := by
  have hlit : literal trueWord (trueWord ++ t) = some t := literal_append _ t
  simp only [trueWord, List.cons_append] at hlit ⊢
  rw [value, skipSpace_cons (by decide)]
  simp only
  rw [if_neg (by decide), if_neg (by decide), if_neg (by decide), if_pos trivial]
  exact congrArg (Option.map _) hlit

theorem value_false (n : Nat) (t : List UInt8) :
    value (n + 1) (falseWord ++ t) = some (.bool false, t) := by
  have hlit : literal falseWord (falseWord ++ t) = some t := literal_append _ t
  simp only [falseWord, List.cons_append] at hlit ⊢
  rw [value, skipSpace_cons (by decide)]
  simp only
  rw [if_neg (by decide), if_neg (by decide), if_neg (by decide), if_neg (by decide),
    if_pos trivial]
  exact congrArg (Option.map _) hlit

/-- A byte that a number can have. -/
def isNumberByte (c : UInt8) : Bool :=
  isDigit c || c = '-'.toUInt8 || c = '+'.toUInt8 || c = '.'.toUInt8 || c = 'e'.toUInt8 ||
    c = 'E'.toUInt8

theorem digits_eq_some {t ds rest : List UInt8} (h : digits t = some (ds, rest)) :
    t = ds ++ rest ∧ ∀ c ∈ ds, isNumberByte c := by
  unfold digits at h
  split at h
  · simp at h
  · obtain ⟨rfl, rfl⟩ := Prod.mk.inj (Option.some.inj h)
    refine ⟨List.takeWhile_append_dropWhile.symm, fun c hc => ?_⟩
    simp [isNumberByte, List.mem_takeWhile_imp hc]

theorem wholePart_eq_some {t p rest : List UInt8} (h : wholePart t = some (p, rest)) :
    t = p ++ rest ∧ ∀ c ∈ p, isNumberByte c := by
  cases t with
  | nil => simp [wholePart] at h
  | cons c t =>
    simp only [wholePart] at h
    split at h
    · rename_i hc
      obtain ⟨rfl, rfl⟩ := Prod.mk.inj (Option.some.inj h)
      exact ⟨rfl, by simpa [hc] using (by decide : isNumberByte 48 = true)⟩
    · exact digits_eq_some h

theorem fraction_eq_some {t p rest : List UInt8} (h : fraction t = some (p, rest)) :
    t = p ++ rest ∧ ∀ c ∈ p, isNumberByte c := by
  cases t with
  | nil =>
    obtain ⟨rfl, rfl⟩ := Prod.mk.inj (Option.some.inj h)
    simp
  | cons c t =>
    simp only [fraction] at h
    split at h
    · rename_i hc
      obtain ⟨⟨ds, r⟩, hd, heq⟩ := Option.map_eq_some_iff.mp h
      obtain ⟨rfl, rfl⟩ := Prod.mk.inj heq
      obtain ⟨rfl, hds⟩ := digits_eq_some hd
      exact ⟨rfl, by simpa [hc, isNumberByte] using hds⟩
    · obtain ⟨rfl, rfl⟩ := Prod.mk.inj (Option.some.inj h)
      simp

theorem exponent_eq_some {t p rest : List UInt8} (h : exponent t = some (p, rest)) :
    t = p ++ rest ∧ ∀ c ∈ p, isNumberByte c := by
  cases t with
  | nil =>
    obtain ⟨rfl, rfl⟩ := Prod.mk.inj (Option.some.inj h)
    simp
  | cons c t =>
    simp only [exponent] at h
    split at h
    · rename_i hc
      have hcb : isNumberByte c := by rcases hc with rfl | rfl <;> decide
      cases t with
      | nil => simp at h
      | cons s t =>
        simp only at h
        split at h
        · rename_i hs
          have hsb : isNumberByte s := by rcases hs with rfl | rfl <;> decide
          obtain ⟨⟨ds, r⟩, hd, heq⟩ := Option.map_eq_some_iff.mp h
          obtain ⟨rfl, rfl⟩ := Prod.mk.inj heq
          obtain ⟨rfl, hds⟩ := digits_eq_some hd
          exact ⟨rfl, by simpa [hcb, hsb] using hds⟩
        · obtain ⟨⟨ds, r⟩, hd, heq⟩ := Option.map_eq_some_iff.mp h
          obtain ⟨rfl, rfl⟩ := Prod.mk.inj heq
          obtain ⟨hds', hds⟩ := digits_eq_some hd
          exact ⟨by rw [hds']; rfl, by simpa [hcb] using hds⟩
    · obtain ⟨rfl, rfl⟩ := Prod.mk.inj (Option.some.inj h)
      simp

theorem number_eq_some {t lexeme rest : List UInt8} (h : number t = some (lexeme, rest)) :
    t = lexeme ++ rest ∧ ∀ c ∈ lexeme, isNumberByte c := by
  simp only [number, Option.bind_eq_bind, Option.bind_eq_some_iff, Prod.exists] at h
  obtain ⟨whole, t1, hwhole, frac, t2, hfrac, exp, t3, hexp, heq⟩ := h
  obtain ⟨rfl, rfl⟩ := Prod.mk.inj (Option.some.inj heq)
  obtain ⟨hw, hwb⟩ := wholePart_eq_some hwhole
  obtain ⟨rfl, hfb⟩ := fraction_eq_some hfrac
  obtain ⟨rfl, heb⟩ := exponent_eq_some hexp
  have hbytes : ∀ c ∈ whole ++ frac ++ exp, isNumberByte c := by
    intro c hc
    simp only [List.mem_append] at hc
    rcases hc with (hc | hc) | hc
    · exact hwb c hc
    · exact hfb c hc
    · exact heb c hc
  cases t with
  | nil =>
    have hw' : [] = whole ++ (frac ++ (exp ++ t3)) := hw
    exact ⟨by simpa [← List.append_assoc] using hw', by simpa using hbytes⟩
  | cons c t =>
    by_cases hc : c = '-'.toUInt8
    · simp only [hc, List.head?_cons, if_true, List.take_succ_cons, List.take_zero, List.drop_succ_cons,
        List.drop_zero] at hw ⊢
      refine ⟨by simp [hw], ?_⟩
      simpa [isNumberByte] using hbytes
    · simp only [List.head?_cons, Option.some.injEq, hc, if_false] at hw ⊢
      exact ⟨by simp [hw], by simpa using hbytes⟩

/-- Nothing that a number is written with is space. -/
theorem isSpace_of_number {b : UInt8} (hb : isDigit b ∨ b = '-'.toUInt8 ∨ b = '.'.toUInt8) :
    isSpace b = false := by
  by_contra hs
  simp only [isSpace, Bool.not_eq_false, decide_eq_true_eq] at hs
  rcases hs with rfl | rfl | rfl | rfl <;> exact absurd hb (by decide)

/-- A number is read up to the first byte that no number has, if a byte that no number has follows
what is read. -/
theorem value_number {n : Nat} {word tail r : List UInt8} {v : Value} (hne : word ≠ [])
    (hword : ∀ c ∈ word, isDigit c ∨ c = '-'.toUInt8 ∨ c = '.'.toUInt8)
    (htail : ∀ c ∈ tail.head?, isNumberByte c = false)
    (h : value n (word ++ tail) = some (v, r))
    (hr : ∀ c ∈ (skipSpace r).head?, isNumberByte c = false) : v = .number word ∧ r = tail := by
  obtain ⟨c, w, rfl⟩ := List.exists_cons_of_ne_nil hne
  have hc := hword c List.mem_cons_self
  have hbyte : ∀ b, (isDigit b ∨ b = '-'.toUInt8 ∨ b = '.'.toUInt8) → isNumberByte b := by
    intro b hb
    rcases hb with hb | rfl | rfl
    · simp [isNumberByte, hb]
    · decide
    · decide
  cases n with
  | zero => simp [value] at h
  | succ n =>
    rw [List.cons_append, value, skipSpace_cons (isSpace_of_number hc)] at h
    simp only at h
    rw [if_neg (by rintro rfl; exact absurd hc (by decide)),
      if_neg (by rintro rfl; exact absurd hc (by decide)),
      if_neg (by rintro rfl; exact absurd hc (by decide)),
      if_neg (by rintro rfl; exact absurd hc (by decide)),
      if_neg (by rintro rfl; exact absurd hc (by decide)),
      if_neg (by rintro rfl; exact absurd hc (by decide))] at h
    obtain ⟨⟨lexeme, rest⟩, hnum, heq⟩ := Option.map_eq_some_iff.mp h
    obtain ⟨rfl, rfl⟩ := Prod.mk.inj heq
    obtain ⟨hsplit, hlex⟩ := number_eq_some hnum
    rw [← List.cons_append] at hsplit
    rcases List.append_eq_append_iff.mp hsplit with ⟨b, hlexeme, htail'⟩ | ⟨b, hw, hrest⟩
    · -- the number would go on into the tail
      cases b with
      | nil => exact ⟨by rw [hlexeme]; simp, by simpa using htail'.symm⟩
      | cons x b =>
        have hx := hlex x (by rw [hlexeme]; simp)
        rw [htail x (by rw [htail']; rfl)] at hx
        exact absurd hx Bool.false_ne_true
    · cases b with
      | nil => exact ⟨by rw [hw]; simp, by simpa using hrest⟩
      | cons x b =>
        -- the number would end in front of a byte of the word
        have hx := hbyte x (hword x (by rw [hw]; simp))
        have hxspace := isSpace_of_number (hword x (by rw [hw]; simp))
        rw [hrest, List.cons_append, skipSpace_cons hxspace] at hr
        rw [hr x rfl] at hx
        exact absurd hx Bool.false_ne_true

/-- What the first member of an object is made of, and what follows it. -/
theorem members_cons {n : Nat} {t r : List UInt8} {ms : List (List UInt8 × Value)}
    (h : members n (quote :: t) = some (ms, r)) :
    ∃ m k t1 t2 v t3, string t = some (k, t1) ∧ skipSpace t1 = ':'.toUInt8 :: t2 ∧
      value m t2 = some (v, t3) ∧
        ((∃ t4 ms', skipSpace t3 = ','.toUInt8 :: t4 ∧ members m t4 = some (ms', r) ∧
            ms = (k, v) :: ms') ∨
          (skipSpace t3 = '\x7d'.toUInt8 :: r ∧ ms = [(k, v)])) := by
  cases n with
  | zero => simp [members] at h
  | succ n =>
    rw [members, skipSpace_cons (by decide)] at h
    simp only [if_true] at h
    obtain ⟨⟨k, t1⟩, hk, h⟩ := Option.bind_eq_some_iff.mp h
    cases h1 : skipSpace t1 with
    | nil => simp [h1] at h
    | cons c t2 =>
      simp only [h1] at h
      split at h
      · rename_i hc
        obtain ⟨⟨v, t3⟩, hv, h⟩ := Option.bind_eq_some_iff.mp h
        refine ⟨n, k, t1, t2, v, t3, hk, by rw [h1, hc], hv, ?_⟩
        cases h3 : skipSpace t3 with
        | nil => simp [h3] at h
        | cons c t4 =>
          simp only [h3] at h
          split at h
          · rename_i hc
            obtain ⟨⟨ms', r'⟩, hrec, heq⟩ := Option.map_eq_some_iff.mp h
            obtain ⟨rfl, rfl⟩ := Prod.mk.inj heq
            exact Or.inl ⟨t4, ms', by rw [hc], hrec, rfl⟩
          · split at h
            · rename_i hc
              obtain ⟨rfl, rfl⟩ := Prod.mk.inj (Option.some.inj h)
              exact Or.inr ⟨by rw [hc], rfl⟩
            · simp at h
      · simp at h

/-- Members begin with a quote. -/
theorem members_eq_none {n : Nat} {c : UInt8} (t : List UInt8) (hc : isSpace c = false)
    (hq : c ≠ quote) : members n (c :: t) = none := by
  cases n with
  | zero => rfl
  | succ n => rw [members, skipSpace_cons hc]; simp [hq]

/-- A text that begins with a brace and a quote is an object with the members behind the brace. -/
theorem parse_object {t : List UInt8} {v : Value}
    (h : parse ('\x7b'.toUInt8 :: quote :: t) = some v) :
    ∃ n ms r, members n (quote :: t) = some (ms, r) ∧ v = .object ms := by
  unfold parse at h
  rw [value, skipSpace_cons (by decide)] at h
  simp only at h
  rw [if_neg (by decide), if_pos trivial, skipSpace_cons (by decide)] at h
  simp only at h
  rw [if_neg (by decide)] at h
  generalize hn : ('\x7b'.toUInt8 :: quote :: t).length = n at h
  cases hm : members n (quote :: t) with
  | none => simp [hm] at h
  | some p =>
    obtain ⟨ms, r⟩ := p
    simp only [hm, Option.map_some] at h
    split at h
    · exact ⟨n, ms, r, hm, (Option.some.inj h).symm⟩
    · simp at h

end Library.Json
