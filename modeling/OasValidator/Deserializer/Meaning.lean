import Mathlib.Data.List.Forall2
import OasValidator.Deserializer.Locality

/-! What an accepted object parameter means.  `Means` says that a text is a serialization of pairs and
that a JSON value has just these pairs.  An accepted object means what it says if each of its keys has
its separator, and no key and no decoded string has a quote or a backslash; the deserializer neither
asks for the former nor escapes the latter. -/

namespace OasValidator.Text

open Library.Scanning Library.Json

/-- The text of a key with the separators around it, in front of `t`. -/
def keyed (d : ObjectDeserializer) (k t : Bytes) : Bytes :=
  if d.isDeepObj then d.paramName ++ '['.toUInt8 :: (k ++ ']'.toUInt8 :: equals :: t)
  else k ++ d.kvSeparator :: t

/-- The byte that ends a key. -/
def terminator (d : ObjectDeserializer) : UInt8 :=
  if d.isDeepObj then ']'.toUInt8 else d.kvSeparator

/-- What stands in front of the pairs. -/
def head (d : ObjectDeserializer) : Bytes :=
  (if d.start = 0 then [] else [d.start]) ++
    if d.skipName && !d.isDeepObj then d.paramName ++ [equals] else []

/-- The key of a pair and the text of its value. -/
structure Pair where
  key : Bytes
  word : Bytes

def Pair.text (d : ObjectDeserializer) (p : Pair) : Bytes := keyed d p.key p.word

def quoted (s : Bytes) : Bytes := quote :: (s ++ [quote])

/-- The JSON value that the text of a value stands for. -/
def Stands (d : ObjectDeserializer) (word : Bytes) (v : Json) : PrimitiveType → Prop
  | .BOOLEAN => (word = lit "true" ∧ v = .bool true) ∨ (word = lit "false" ∧ v = .bool false)
  | .INTEGER => IsInteger word ∧ v = .number word
  | .NUMBER => IsNumber word ∧ v = .number word
  | .STRING => d.vkSeparator ∉ word ∧ ∃ s, percentDecode word = some s ∧ v = .string s

/-- A member has the key of the pair, and the value that the pair stands for under the type declared
for the key. -/
def PairMeans (d : ObjectDeserializer) (p : Pair) (m : Bytes × Json) : Prop :=
  m.1 = p.key ∧ ∃ type, d.ktMap.lookup (quoted p.key) = some type ∧ Stands d p.word m.2 type

/-- The pairs one after the other, with separators between them. -/
def joined (d : ObjectDeserializer) (pairs : List Pair) : Bytes :=
  [d.vkSeparator].intercalate (pairs.map (Pair.text d))

/-- The text is a serialization of pairs, at least one, and the value is the object with exactly their
keys, in order, and the values of the pairs. -/
def Means (d : ObjectDeserializer) (t : Bytes) (j : Json) : Prop :=
  ∃ pairs ms, pairs ≠ [] ∧ t = head d ++ joined d pairs ∧ (∀ p ∈ pairs, terminator d ∉ p.key) ∧
    j = .object ms ∧ List.Forall₂ (PairMeans d) pairs ms

/-- Neither a quote nor a backslash. -/
def Plain (s : Bytes) : Prop := quote ∉ s ∧ backslash ∉ s

/-- The starts of members that the loop over the members of `t` comes to. -/
inductive Reaches (d : ObjectDeserializer) : Bytes → Bytes → Prop where
  | here (t : Bytes) : Reaches d t t
  | next {t rest r : Bytes} (hne : t ≠ []) (h : Takes d t rest)
      (hr : Reaches d (behindSeparator d rest) r) : Reaches d t r

/-- A key stands here with its separators, and neither it nor the string behind it, decoded, has a
quote or a backslash. -/
def PlainAt (d : ObjectDeserializer) (t : Bytes) : Prop :=
  ∃ k rest, t = keyed d k rest ∧ terminator d ∉ k ∧ Plain k ∧
    (d.ktMap.lookup (quoted k) = some .STRING →
      ∀ s, percentDecode (rest.takeWhile (· ≠ d.vkSeparator)) = some s → Plain s)

/-- `PlainAt` for all members of a text. -/
def AllPlain (d : ObjectDeserializer) (t : Bytes) : Prop :=
  ∀ r, Reaches d t r → r ≠ [] → PlainAt d r

/-! ### Reading a key -/

section

variable {d : ObjectDeserializer}

theorem keyed_append (k t u : Bytes) : keyed d k (t ++ u) = keyed d k t ++ u := by
  unfold keyed
  split <;> simp

theorem keyed_ne_nil (k t : Bytes) : keyed d k t ≠ [] := by
  unfold keyed
  split <;> simp

theorem key_append {terminator : UInt8} {k : Bytes} (hk : terminator ∉ k) (t : Bytes) :
    key terminator (k ++ terminator :: t) = .ok (quoted k, t) := by
  have hne : ∀ a ∈ k, decide (a ≠ terminator) = true := fun a ha => by
    simpa using fun h : a = terminator => hk (h ▸ ha)
  simp only [key, Lexer.bind_apply, keyBytes, List.takeWhile_append_of_pos hne,
    List.dropWhile_append_of_pos hne]
  simp [skipTerminator, quoted]

/-- A key with its separators is read as it stands. -/
theorem memberKey_keyed {k : Bytes} (hk : terminator d ∉ k) (t : Bytes) :
    memberKey d (keyed d k t) = .ok (quoted k, t) := by
  unfold memberKey keyed
  rw [Lexer.ite_apply]
  by_cases hdeep : d.isDeepObj
  · simp only [terminator, if_pos hdeep] at hk ⊢
    have hname : skipName d.toBaseDeserializer
        (d.paramName ++ '['.toUInt8 :: (k ++ ']'.toUInt8 :: equals :: t)) =
          .ok ((), '['.toUInt8 :: (k ++ ']'.toUInt8 :: equals :: t)) := skipName_eq_ok_iff.mpr rfl
    simp [Lexer.bind_apply, hname, skipChar, key_append hk]
  · simp only [terminator, if_neg hdeep] at hk ⊢
    exact key_append hk t

theorem memberKey_eq_ok {t k rest : Bytes} (h : memberKey d t = .ok (k, rest)) :
    ∃ k', k = quoted k' := by
  simp only [memberKey, Lexer.ite_apply] at h
  split at h
  · obtain ⟨_, mid, -, h1⟩ := Lexer.bind_eq_ok_iff.mp h
    obtain ⟨_, mid1, -, h2⟩ := Lexer.bind_eq_ok_iff.mp h1
    obtain ⟨k1, mid2, hkey, h3⟩ := Lexer.bind_eq_ok_iff.mp h2
    obtain ⟨_, mid3, -, h4⟩ := Lexer.bind_eq_ok_iff.mp h3
    obtain rfl : k1 = k := (by simpa using h4 : k1 = k ∧ _).1
    exact ⟨_, (key_eq_ok hkey).1⟩
  · exact ⟨_, (key_eq_ok h).1⟩

/-- What a member puts out and leaves. -/
theorem member_parts {t o rest : Bytes} (h : member d [] t = .ok (o, rest)) :
    ∃ k after type word piece, memberKey d t = .ok (quoted k, after) ∧
      d.ktMap.lookup (quoted k) = some type ∧ after = word ++ rest ∧
      o = quoted k ++ ':'.toUInt8 :: piece ∧ Writes word piece type ∧
      (type = .STRING → (∀ b ∈ rest.head?, b = d.vkSeparator) ∧
        (d.vkSeparator ∈ word → 0 ≤ kHexLookupTable d.vkSeparator)) := by
  obtain ⟨k, after, hkey, h1⟩ := Lexer.bind_eq_ok_iff.mp h
  obtain ⟨k', rfl⟩ := memberKey_eq_ok hkey
  cases hk : d.ktMap.lookup (quoted k') with
  | none => simp [hk] at h1
  | some type =>
    simp only [hk] at h1
    obtain ⟨word, piece, hafter, ho, hw, hstop⟩ := value_eq_ok h1
    refine ⟨k', after, type, word, piece, hkey, hk, hafter, ?_, hw, fun hs => ?_⟩
    · rw [ho]
      simp [lit]
    · obtain ⟨hhead, hin⟩ := hstop hs
      exact ⟨by simpa using hhead, fun hmem => hin _ hmem (by simp)⟩

/-! ### Reading the JSON text -/

/-- The value that is written for the word of a value. -/
def Written (word : Bytes) (v : Json) : PrimitiveType → Prop
  | .BOOLEAN => (word = lit "true" ∧ v = .bool true) ∨ (word = lit "false" ∧ v = .bool false)
  | .INTEGER | .NUMBER => v = .number word
  | .STRING => ∃ s, percentDecode word = some s ∧ v = .string s

theorem quoted_append (s t : Bytes) : quoted s ++ t = quote :: (s ++ quote :: t) := by
  simp [quoted]

theorem quoted_inj {s t : Bytes} (h : quoted s = quoted t) : s = t := by
  simpa [quoted] using h

/-- Bytes of a number that is written in digits, a sign and a point. -/
def NumberByte (c : UInt8) : Prop := isDigit c ∨ c = '-'.toUInt8 ∨ c = '.'.toUInt8

theorem isInteger_bytes {word : Bytes} (h : IsInteger word) :
    word ≠ [] ∧ ∀ c ∈ word, NumberByte c := by
  obtain ⟨ds, hword, hne, hds⟩ := h
  rcases hword with rfl | rfl
  · exact ⟨hne, fun c hc => Or.inl (hds c hc)⟩
  · refine ⟨by simp, fun c hc => ?_⟩
    rcases List.mem_cons.mp hc with rfl | hc
    · exact Or.inr (Or.inl rfl)
    · exact Or.inl (hds c hc)

theorem isNumber_bytes {word : Bytes} (h : IsNumber word) :
    word ≠ [] ∧ ∀ c ∈ word, NumberByte c := by
  obtain ⟨ds, hword, hne, hform⟩ := h
  have hds : ∀ c ∈ ds, NumberByte c := by
    rcases hform with hds | ⟨whole, fraction, rfl, -, hw, hf⟩
    · exact fun c hc => Or.inl (hds c hc)
    · intro c hc
      rcases List.mem_append.mp hc with hc | hc
      · exact Or.inl (hw c hc)
      · rcases List.mem_cons.mp hc with rfl | hc
        · exact Or.inr (Or.inr rfl)
        · exact Or.inl (hf c hc)
  rcases hword with rfl | rfl
  · exact ⟨hne, hds⟩
  · refine ⟨by simp, fun c hc => ?_⟩
    rcases List.mem_cons.mp hc with rfl | hc
    · exact Or.inr (Or.inl rfl)
    · exact hds c hc

theorem not_numberByte_quote : ¬NumberByte quote := by
  unfold NumberByte
  decide

/-- Only strings are written between quotes. -/
theorem writes_quoted {word dec : Bytes} {type : PrimitiveType} (h : Writes word (quoted dec) type) :
    type = .STRING ∧ percentDecode word = some dec := by
  cases type with
  | BOOLEAN =>
    obtain ⟨rfl | rfl, hq⟩ := h
    · exact absurd (List.cons.inj hq).1 (by decide)
    · exact absurd (List.cons.inj hq).1 (by decide)
  | INTEGER =>
    obtain ⟨hint, rfl⟩ := h
    exact absurd ((isInteger_bytes hint).2 quote (by simp [quoted])) not_numberByte_quote
  | NUMBER =>
    obtain ⟨hnum, rfl⟩ := h
    exact absurd ((isNumber_bytes hnum).2 quote (by simp [quoted])) not_numberByte_quote
  | STRING =>
    obtain ⟨dec', hdec, hq⟩ := h
    obtain rfl : dec = dec' := quoted_inj hq
    exact ⟨rfl, hdec⟩

/-- The text that is written for a value is read back, as long as a string is plain or is read back
as it is. -/
theorem value_written {m : Nat} {word piece tail r : Bytes} {type : PrimitiveType} {v : Json}
    (hw : Writes word piece type) (h : Library.Json.value m (piece ++ tail) = some (v, r))
    (htail : ∀ c ∈ tail.head?, c = comma ∨ c = closeBrace ∨ c = quote)
    (hr : ∀ c ∈ (skipSpace r).head?, c = comma ∨ c = closeBrace)
    (hplain : ∀ dec, piece = quoted dec → Plain dec ∨ v = .string dec) :
    r = tail ∧ (∀ dec, piece = quoted dec → Plain dec) ∧ Written word v type := by
  have hnumber : word ≠ [] → (∀ c ∈ word, NumberByte c) →
      Library.Json.value m (word ++ tail) = some (v, r) →
        r = tail ∧ (∀ dec, word = quoted dec → Plain dec) ∧ v = .number word := by
    intro hne hbytes hv
    obtain ⟨hv', hr'⟩ := value_number hne hbytes
      (fun c hc => by rcases htail c hc with rfl | rfl | rfl <;> decide) hv
      (fun c hc => by rcases hr c hc with rfl | rfl <;> decide)
    refine ⟨hr', fun dec hdec => ?_, hv'⟩
    exact absurd (hbytes quote (by rw [hdec]; simp [quoted])) not_numberByte_quote
  cases m with
  | zero => simp [Library.Json.value] at h
  | succ m =>
    cases type with
    | BOOLEAN =>
      have hquoted : ∀ dec, piece = quoted dec → Plain dec := by
        rintro dec rfl
        exact absurd (writes_quoted hw).1 (by simp)
      refine and_left_comm.mp ⟨hquoted, ?_⟩
      clear hquoted hplain hr htail hnumber
      obtain ⟨rfl | rfl, rfl⟩ := hw
      · rw [show lit "true" = trueWord by decide, value_true] at h
        obtain ⟨rfl, rfl⟩ := Prod.mk.inj (Option.some.inj h)
        exact ⟨rfl, Or.inl ⟨rfl, rfl⟩⟩
      · rw [show lit "false" = falseWord by decide, value_false] at h
        obtain ⟨rfl, rfl⟩ := Prod.mk.inj (Option.some.inj h)
        exact ⟨rfl, Or.inr ⟨rfl, rfl⟩⟩
    | INTEGER =>
      obtain ⟨hint, rfl⟩ := hw
      obtain ⟨hne, hbytes⟩ := isInteger_bytes hint
      exact hnumber hne hbytes h
    | NUMBER =>
      obtain ⟨hnum, rfl⟩ := hw
      obtain ⟨hne, hbytes⟩ := isNumber_bytes hnum
      exact hnumber hne hbytes h
    | STRING =>
      obtain ⟨dec, hdec, rfl⟩ := hw
      rw [show quote :: dec ++ [quote] = quoted dec from rfl, quoted_append, value_string] at h
      obtain ⟨⟨s, r'⟩, hs, heq⟩ := Option.map_eq_some_iff.mp h
      obtain ⟨rfl, rfl⟩ := Prod.mk.inj heq
      rcases hplain dec rfl with hp | hv
      · obtain ⟨rfl, rfl⟩ := string_of_plain hp.1 hp.2 hs
        exact ⟨rfl, fun dec' hd => quoted_inj hd ▸ hp, s, hdec, rfl⟩
      · obtain rfl : s = dec := by simpa using hv
        obtain ⟨hq, hb, rfl⟩ := string_eq_self hs
        exact ⟨rfl, fun dec' hd => quoted_inj hd ▸ ⟨hq, hb⟩, s, hdec, rfl⟩

/-- The text that is written for a member is read back as its key and its value, as long as the key
and a string are plain or are read back as they are. -/
theorem member_written {m : Nat} {k word piece tail r : Bytes} {type : PrimitiveType}
    {ms : List (Bytes × Json)} (hw : Writes word piece type)
    (h : Library.Json.members m (quoted k ++ ':'.toUInt8 :: (piece ++ tail)) = some (ms, r))
    (htail : ∀ c ∈ tail.head?, c = comma ∨ c = closeBrace ∨ c = quote)
    (hk : Plain k ∨ ∃ v ms', ms = (k, v) :: ms')
    (hv : ∀ dec, piece = quoted dec → Plain dec ∨ ∃ k' ms', ms = (k', .string dec) :: ms') :
    Plain k ∧ (∀ dec, piece = quoted dec → Plain dec) ∧ ∃ v, Written word v type ∧
      ((∃ more ms' m', tail = comma :: more ∧ Library.Json.members m' more = some (ms', r) ∧
          ms = (k, v) :: ms') ∨
        (tail = closeBrace :: r ∧ ms = [(k, v)])) := by
  rw [quoted_append] at h
  obtain ⟨m', k', t1, t2, v, t3, hstring, hcolon, hvalue, hnext⟩ := Library.Json.members_cons h
  have hms : ∃ ms', ms = (k', v) :: ms' := by
    rcases hnext with ⟨_, ms', -, -, rfl⟩ | ⟨-, rfl⟩
    · exact ⟨ms', rfl⟩
    · exact ⟨[], rfl⟩
  obtain ⟨ms', hms⟩ := hms
  have hkey : Plain k ∧ k' = k ∧ t1 = ':'.toUInt8 :: (piece ++ tail) := by
    rcases hk with hp | ⟨v', ms'', hms'⟩
    · obtain ⟨rfl, rfl⟩ := string_of_plain hp.1 hp.2 hstring
      exact ⟨hp, rfl, rfl⟩
    · obtain rfl : k' = k := by
        rw [hms] at hms'
        exact (Prod.mk.inj (List.cons.inj hms').1).1
      obtain ⟨hq, hb, rfl⟩ := string_eq_self hstring
      exact ⟨⟨hq, hb⟩, rfl, rfl⟩
  obtain ⟨hplain, rfl, rfl⟩ := hkey
  rw [skipSpace_cons (by decide)] at hcolon
  obtain rfl := (List.cons.inj hcolon).2
  have hcont : ∀ c ∈ (skipSpace t3).head?, c = comma ∨ c = closeBrace := by
    intro c hc
    rcases hnext with ⟨t4, _, h3, -, -⟩ | ⟨h3, -⟩
    · rw [h3] at hc
      exact Or.inl (Option.some.inj hc).symm
    · rw [h3] at hc
      exact Or.inr (Option.some.inj hc).symm
  obtain ⟨rfl, hdec, hwritten⟩ := value_written hw hvalue htail hcont fun dec hd => by
    rcases hv dec hd with hp | ⟨k'', ms'', hms'⟩
    · exact Or.inl hp
    · rw [hms] at hms'
      exact Or.inr (Prod.mk.inj (List.cons.inj hms').1).2
  have hspace : skipSpace t3 = t3 := by
    cases t3 with
    | nil => rfl
    | cons c t =>
      refine skipSpace_cons ?_ t
      rcases htail c rfl with rfl | rfl | rfl <;> decide
  rw [hspace] at hnext
  refine ⟨hplain, hdec, v, hwritten, ?_⟩
  rcases hnext with ⟨t4, ms4, h3, hrec, rfl⟩ | ⟨h3, rfl⟩
  · exact Or.inl ⟨t4, ms4, m', h3, hrec, rfl⟩
  · exact Or.inr ⟨h3, rfl⟩

/-! ### Reading the members -/

theorem members_quote {n : Nat} {t out : Bytes} (ht : t ≠ []) (h : members d n [] t = .ok (out, [])) :
    out.head? = some quote := by
  cases n with
  | zero =>
    obtain ⟨-, rfl⟩ : [] = out ∧ t = [] := by simpa [members] using h
    exact absurd rfl ht
  | succ n =>
    obtain ⟨o, rest, out', hm, -, rfl⟩ := members_cons ht h
    obtain ⟨k, _, _, _, piece, -, -, -, rfl, -, -⟩ := member_parts hm
    simp [quoted]

/-- The first member of a text, in the text and in the JSON value: it is followed by nothing in both,
or by a separator and more members in both. -/
theorem first_member {n m : Nat} {t out r k after : Bytes} {ms : List (Bytes × Json)} (ht : t ≠ [])
    (h : members d (n + 1) [] t = .ok (out, []))
    (hjson : Library.Json.members m (out ++ [closeBrace]) = some (ms, r))
    (hkey : memberKey d t = .ok (quoted k, after))
    (hk : Plain k ∨ ∃ v ms', ms = (k, v) :: ms')
    (hv : ∀ word rest dec, after = word ++ rest → (∀ b ∈ rest.head?, b = d.vkSeparator) →
      (d.vkSeparator ∈ word → 0 ≤ kHexLookupTable d.vkSeparator) →
      d.ktMap.lookup (quoted k) = some .STRING → percentDecode word = some dec →
        Plain dec ∨ ∃ k' ms', ms = (k', .string dec) :: ms') :
    ∃ type word rest v, d.ktMap.lookup (quoted k) = some type ∧ after = word ++ rest ∧
      Takes d t rest ∧ Plain k ∧ Written word v type ∧
      (type = .INTEGER → IsInteger word) ∧ (type = .NUMBER → IsNumber word) ∧
      (type = .STRING → (∀ dec, percentDecode word = some dec → Plain dec) ∧
        (∀ b ∈ rest.head?, b = d.vkSeparator) ∧
        (d.vkSeparator ∈ word → 0 ≤ kHexLookupTable d.vkSeparator)) ∧
      ((rest = [] ∧ ms = [(k, v)]) ∨
        ∃ rest' out' ms' m', rest = d.vkSeparator :: rest' ∧ rest' ≠ [] ∧
          members d n [] rest' = .ok (out', []) ∧
          Library.Json.members m' (out' ++ [closeBrace]) = some (ms', r) ∧ ms = (k, v) :: ms') := by
  obtain ⟨o, rest, out', hm, hrec, rfl⟩ := members_cons ht h
  obtain ⟨k', after', type, word, piece, hkey', htype, hafter, rfl, hw, hstop⟩ := member_parts hm
  rw [hkey'] at hkey
  obtain ⟨hkk, rfl⟩ := Prod.mk.inj (Except.ok.inj hkey)
  obtain rfl := quoted_inj hkk
  clear hkey hkk
  -- what follows the member in the text and in the JSON text
  obtain ⟨tail, htail, hjson', hnext⟩ : ∃ tail,
      (∀ c ∈ tail.head?, c = comma ∨ c = closeBrace ∨ c = quote) ∧
      Library.Json.members m (quoted k' ++ ':'.toUInt8 :: (piece ++ tail)) = some (ms, r) ∧
      ((rest = [] ∧ tail = [closeBrace]) ∨
        (∃ rest', rest = d.vkSeparator :: rest' ∧ members d n [] rest' = .ok (out', []) ∧
          tail = comma :: (out' ++ [closeBrace])) ∨
        tail.head? = some quote) := by
    rcases rest with _ | ⟨b, rest'⟩
    · obtain rfl : out' = [] := by simpa [behindSeparator, eq_comm] using hrec
      exact ⟨[closeBrace], by simp, by simpa using hjson, Or.inl ⟨rfl, rfl⟩⟩
    · by_cases hb : b = d.vkSeparator
      · subst hb
        exact ⟨comma :: (out' ++ [closeBrace]), by simp, by simpa using hjson,
          Or.inr (Or.inl ⟨rest', rfl, by simpa [behindSeparator] using hrec, rfl⟩)⟩
      · have hquote : out'.head? = some quote := by
          rw [behindSeparator, if_neg hb] at hrec
          exact members_quote (by simp) hrec
        have hhead : (out' ++ [closeBrace]).head? = some quote := by simp [hquote]
        refine ⟨out' ++ [closeBrace], ?_, by simpa [hb] using hjson, Or.inr (Or.inr hhead)⟩
        intro c hc
        rw [hhead] at hc
        exact Or.inr (Or.inr (Option.some.inj hc).symm)
  have hstring : ∀ dec, piece = quoted dec → Plain dec ∨ ∃ k'' ms', ms = (k'', .string dec) :: ms' := by
    rintro dec rfl
    obtain ⟨rfl, hdec⟩ := writes_quoted hw
    obtain ⟨hhead, hin⟩ := hstop rfl
    exact hv word rest dec hafter hhead hin htype hdec
  obtain ⟨hplain, hdec, v, hwritten, hcont⟩ := member_written hw hjson' htail hk hstring
  refine ⟨type, word, rest, v, htype, hafter, ⟨_, hm⟩, hplain, hwritten, ?_, ?_, ?_, ?_⟩
  · rintro rfl
    exact hw.1
  · rintro rfl
    exact hw.1
  · rintro rfl
    obtain ⟨dec', hdec', rfl⟩ := hw
    refine ⟨fun dec hd => ?_, hstop rfl⟩
    obtain rfl : dec' = dec := Option.some.inj (hdec'.symm.trans hd)
    exact hdec dec' rfl
  · have hne : comma ≠ closeBrace ∧ quote ≠ comma ∧ quote ≠ closeBrace := by decide
    rcases hnext with ⟨hrest, rfl⟩ | ⟨rest', hrest, hrec', rfl⟩ | hquote
    · rcases hcont with ⟨more, _, _, htl, -, -⟩ | ⟨-, hms⟩
      · exact absurd (List.cons.inj htl).1.symm hne.1
      · exact Or.inl ⟨hrest, hms⟩
    · rcases hcont with ⟨more, ms', m', htl, hmore, hms⟩ | ⟨htl, -⟩
      · obtain rfl := (List.cons.inj htl).2
        refine Or.inr ⟨rest', out', ms', m', hrest, ?_, hrec', hmore, hms⟩
        rintro rfl
        obtain rfl : out' = [] := by simpa [eq_comm] using hrec'
        rw [List.nil_append, members_eq_none [] (by decide) (by decide)] at hmore
        simp at hmore
      · exact absurd (List.cons.inj htl).1 hne.1
    · rcases hcont with ⟨more, _, _, rfl, -, -⟩ | ⟨rfl, -⟩
      · exact absurd (Option.some.inj hquote).symm hne.2.1
      · exact absurd (Option.some.inj hquote).symm hne.2.2

/-! ### What the text means -/

theorem takeWhile_word {c : UInt8} {w r : Bytes} (hw : c ∉ w) (hr : ∀ b ∈ r.head?, b = c) :
    (w ++ r).takeWhile (· ≠ c) = w := by
  have hne : ∀ a ∈ w, decide (a ≠ c) = true := fun a ha => by
    simpa using fun h : a = c => hw (h ▸ ha)
  rw [List.takeWhile_append_of_pos hne]
  cases r with
  | nil => simp
  | cons b r =>
    obtain rfl := hr b rfl
    simp

theorem joined_cons (p : Pair) (ps : List Pair) :
    joined d (p :: ps) = keyed d p.key (p.word ++ if ps = [] then [] else
      d.vkSeparator :: joined d ps) := by
  rw [keyed_append]
  cases ps with
  | nil => simp [joined, Pair.text, List.intercalate]
  | cons q ps => simp [joined, Pair.text, List.intercalate, List.intersperse_cons_cons]

theorem joined_ne_nil {ps : List Pair} (h : ps ≠ []) : joined d ps ≠ [] := by
  obtain ⟨p, ps, rfl⟩ := List.exists_cons_of_ne_nil h
  rw [joined_cons]
  exact keyed_ne_nil _ _

theorem stands_of_written {word : Bytes} {v : Json} {type : PrimitiveType}
    (h : Written word v type) (hint : type = .INTEGER → IsInteger word)
    (hnum : type = .NUMBER → IsNumber word) (hstr : type = .STRING → d.vkSeparator ∉ word) :
    Stands d word v type := by
  cases type with
  | BOOLEAN => exact h
  | INTEGER => exact ⟨hint rfl, h⟩
  | NUMBER => exact ⟨hnum rfl, h⟩
  | STRING => exact ⟨hstr rfl, h⟩

/-- The value of a member that is no string pins the text it stands for. -/
theorem word_of_written {word w : Bytes} {v : Json} {type : PrimitiveType}
    (h : Written word v type) (h' : Stands d w v type) (hs : type = .STRING → word = w) :
    word = w := by
  have hbool : ∀ {b b' : Bool}, v = .bool b → v = .bool b' → b = b' := fun h1 h2 => by
    rw [h1] at h2
    exact Library.Json.Value.bool.inj h2
  have hnumber : ∀ {x y : Bytes}, v = .number x → v = .number y → x = y := fun h1 h2 => by
    rw [h1] at h2
    exact Library.Json.Value.number.inj h2
  cases type with
  | BOOLEAN =>
    rcases h with ⟨hw, hv⟩ | ⟨hw, hv⟩
    · rcases h' with ⟨hw', hv'⟩ | ⟨hw', hv'⟩
      · rw [hw, hw']
      · exact absurd (hbool hv hv') (by decide)
    · rcases h' with ⟨hw', hv'⟩ | ⟨hw', hv'⟩
      · exact absurd (hbool hv hv') (by decide)
      · rw [hw, hw']
  | INTEGER => exact hnumber h h'.2
  | NUMBER => exact hnumber h h'.2
  | STRING => exact hs rfl

/-- Members that are plain throughout are pairs of which the JSON value has just these. -/
theorem pairs_of_allPlain (hvk : kHexLookupTable d.vkSeparator < 0) {n m : Nat} {t out r : Bytes}
    {ms : List (Bytes × Json)} (ht : t ≠ []) (h : members d n [] t = .ok (out, []))
    (hjson : Library.Json.members m (out ++ [closeBrace]) = some (ms, r)) (hplain : AllPlain d t) :
    ∃ pairs, pairs ≠ [] ∧ t = joined d pairs ∧ (∀ p ∈ pairs, terminator d ∉ p.key) ∧
      List.Forall₂ (PairMeans d) pairs ms := by
  induction n generalizing m t out ms with
  | zero =>
    obtain ⟨-, rfl⟩ : [] = out ∧ t = [] := by simpa [members] using h
    exact absurd rfl ht
  | succ n ih =>
    obtain ⟨k, after, hkeyed, hterm, hk, hstring⟩ := hplain t (Reaches.here t) ht
    have hkey : memberKey d t = .ok (quoted k, after) := by rw [hkeyed, memberKey_keyed hterm]
    obtain ⟨type, word, rest, v, htype, hafter, htakes, -, hwritten, hint, hnum, hstr, hnext⟩ :=
      first_member ht h hjson hkey (Or.inl hk) fun word rest dec hafter hhead hin htype hdec => by
        have hword : d.vkSeparator ∉ word := fun hmem => absurd (hin hmem) (Int.not_le.mpr hvk)
        exact Or.inl (hstring htype dec (by rw [hafter, takeWhile_word hword hhead]; exact hdec))
    have hmeans : PairMeans d ⟨k, word⟩ (k, v) :=
      ⟨rfl, type, htype, stands_of_written hwritten hint hnum fun hs hmem =>
        absurd ((hstr hs).2.2 hmem) (Int.not_le.mpr hvk)⟩
    rcases hnext with ⟨rfl, rfl⟩ | ⟨rest', out', ms', m', rfl, hrest', hrec, hjson', rfl⟩
    · refine ⟨[⟨k, word⟩], by simp, ?_, by simpa using hterm, List.Forall₂.cons hmeans .nil⟩
      rw [joined_cons, hkeyed, hafter]
      simp
    · have hplain' : AllPlain d rest' := fun r' hr' => hplain r' (Reaches.next ht htakes (by
        simpa [behindSeparator] using hr'))
      obtain ⟨pairs, hne, hjoined, hterms, hforall⟩ := ih hrest' hrec hjson' hplain'
      refine ⟨⟨k, word⟩ :: pairs, by simp, ?_, ?_, List.Forall₂.cons hmeans hforall⟩
      · rw [joined_cons, hkeyed, hafter, if_neg hne, hjoined]
      · simpa using ⟨hterm, hterms⟩

/-- If a text is pairs of which the JSON value has just these, its members are plain throughout. -/
theorem allPlain_of_pairs (hvk : kHexLookupTable d.vkSeparator < 0) {n m : Nat} {out r : Bytes}
    {ms : List (Bytes × Json)} {pairs : List Pair} (hne : pairs ≠ [])
    (h : members d n [] (joined d pairs) = .ok (out, []))
    (hjson : Library.Json.members m (out ++ [closeBrace]) = some (ms, r))
    (hterms : ∀ p ∈ pairs, terminator d ∉ p.key) (hforall : List.Forall₂ (PairMeans d) pairs ms) :
    AllPlain d (joined d pairs) := by
  induction n generalizing m out ms pairs with
  | zero =>
    have : joined d pairs = [] := (by simpa [members] using h : [] = out ∧ joined d pairs = []).2
    exact absurd this (joined_ne_nil hne)
  | succ n ih =>
    obtain ⟨p, ps, rfl⟩ := List.exists_cons_of_ne_nil hne
    cases hforall with
    | cons hmeans hforall =>
    rename_i mem ms'
    obtain ⟨k, v⟩ := mem
    obtain ⟨hk, type, htype, hstands⟩ := hmeans
    obtain rfl : k = p.key := hk
    set tail : Bytes := if ps = [] then [] else d.vkSeparator :: joined d ps with htail
    have hterm : terminator d ∉ p.key := hterms p List.mem_cons_self
    have hkeyed : joined d (p :: ps) = keyed d p.key (p.word ++ tail) := joined_cons p ps
    have hheadtail : ∀ b ∈ tail.head?, b = d.vkSeparator := by
      intro b hb
      by_cases hps : ps = []
      · simp [htail, hps] at hb
      · simpa [htail, hps, eq_comm] using hb
    have hkey : memberKey d (joined d (p :: ps)) = .ok (quoted p.key, p.word ++ tail) := by
      rw [hkeyed, memberKey_keyed hterm]
    have hsame : ∀ {word rest : Bytes}, p.word ++ tail = word ++ rest →
        (∀ b ∈ rest.head?, b = d.vkSeparator) →
        (d.vkSeparator ∈ word → 0 ≤ kHexLookupTable d.vkSeparator) → d.vkSeparator ∉ p.word →
        word = p.word := by
      intro word rest heq hhead hin hp
      have hword : d.vkSeparator ∉ word := fun hmem => absurd (hin hmem) (Int.not_le.mpr hvk)
      rw [← takeWhile_word hword hhead, ← heq, takeWhile_word hp hheadtail]
    obtain ⟨type', word, rest, v', htype', hafter, htakes, hplain, hwritten, -, -, hstr, hnext⟩ :=
      first_member (joined_ne_nil hne) h hjson hkey (Or.inr ⟨v, ms', rfl⟩)
        fun word rest dec hafter hhead hin hstring hdec => by
          obtain rfl : type = .STRING := Option.some.inj (htype.symm.trans hstring)
          obtain ⟨hp, s, hs, rfl⟩ := hstands
          obtain rfl := hsame hafter hhead hin hp
          obtain rfl : s = dec := Option.some.inj (hs.symm.trans hdec)
          exact Or.inr ⟨p.key, ms', rfl⟩
    obtain rfl : type = type' := Option.some.inj (htype.symm.trans htype')
    have hv : v' = v := by
      rcases hnext with ⟨-, hms⟩ | ⟨_, _, _, _, -, -, -, -, hms⟩
      · exact (Prod.mk.inj (List.cons.inj hms).1).2.symm
      · exact (Prod.mk.inj (List.cons.inj hms).1).2.symm
    subst hv
    -- the value pins the word that was read
    have hword : word = p.word := word_of_written hwritten hstands fun hs => by
      subst hs
      exact hsame hafter (hstr rfl).2.1 (hstr rfl).2.2 hstands.1
    subst hword
    obtain rfl : tail = rest := List.append_cancel_left hafter
    intro r' hr' hne'
    cases hr' with
    | here =>
      refine ⟨p.key, p.word ++ tail, hkeyed, hterm, hplain, fun hs dec hdec => ?_⟩
      obtain rfl : type = .STRING := Option.some.inj (htype.symm.trans hs)
      rw [takeWhile_word hstands.1 hheadtail] at hdec
      exact (hstr rfl).1 dec hdec
    | next _ htakes' hr' =>
      obtain ⟨o, ho⟩ := htakes
      obtain ⟨o', ho'⟩ := htakes'
      obtain rfl := (Prod.mk.inj (Except.ok.inj (ho.symm.trans ho'))).2
      rcases hnext with ⟨hrest, -⟩ | ⟨rest', out', ms2, m', hrest, hrest', hrec, hjson', hms⟩
      · rw [hrest, behindSeparator] at hr'
        cases hr' with
        | here => exact absurd rfl hne'
        | next hnil => exact absurd rfl hnil
      · by_cases hps : ps = []
        · simp [htail, hps] at hrest
        · obtain rfl : joined d ps = rest' := by simpa [htail, hps] using hrest
          obtain rfl : ms' = ms2 := (List.cons.inj hms).2
          have hall := ih hps hrec hjson' (fun q hq => hterms q (List.mem_cons_of_mem _ hq)) hforall
          exact hall r' (by simpa [hrest, behindSeparator] using hr') hne'

theorem startChar_eq_ok {b : BaseDeserializer} {t rest : Bytes} {u : Unit}
    (h : startChar b t = .ok (u, rest)) :
    t = (if b.start = 0 then [] else [b.start]) ++ rest := by
  unfold startChar at h
  split at h
  · rename_i h0
    cases t with
    | nil => simp at h
    | cons c t =>
      simp only at h
      split at h
      · rename_i hc
        obtain rfl := (Prod.mk.inj (Except.ok.inj h)).2
        simp [h0, hc]
      · simp at h
  · rename_i h0
    obtain rfl := (Prod.mk.inj (Except.ok.inj h)).2
    simp [not_not.mp h0]

theorem data_eq_ok {b : BaseDeserializer} {t rest : Bytes} {u : Unit}
    (h : data b t = .ok (u, rest)) : t ≠ [] ∧ rest = t := by
  unfold data at h
  split at h
  · simp at h
  · rename_i hne
    exact ⟨hne, (Prod.mk.inj (Except.ok.inj h)).2.symm⟩

theorem objectStart_eq_ok {t s : Bytes} {u : Unit} (h : objectStart d t = .ok (u, s)) :
    t = head d ++ s ∧ s ≠ [] := by
  obtain ⟨_, t1, hstart, h1⟩ := Lexer.bind_eq_ok_iff.mp h
  obtain rfl := startChar_eq_ok hstart
  rw [Lexer.ite_apply] at h1
  split at h1
  · rename_i hname
    obtain ⟨_, t2, hskip, h2⟩ := Lexer.bind_eq_ok_iff.mp h1
    obtain ⟨_, t3, hequals, h3⟩ := Lexer.bind_eq_ok_iff.mp h2
    obtain rfl := skipName_eq_ok_iff.mp hskip
    obtain ⟨hne, rfl⟩ := data_eq_ok h3
    rcases skipChar_eq_ok_iff.mp hequals with ⟨-, rfl⟩ | rfl
    · exact absurd rfl hne
    · exact ⟨by simp [head, hname], hne⟩
  · rename_i hname
    obtain ⟨hne, rfl⟩ := data_eq_ok h1
    exact ⟨by simp [head, hname], hne⟩

/-- A text that is read as an object, and the JSON text that is written for it. -/
theorem object_eq_ok {t out rest : Bytes} (h : object d t = .ok (out, rest)) :
    ∃ s out', objectStart d t = .ok ((), s) ∧ s ≠ [] ∧ members d s.length [] s = .ok (out', []) ∧
      out = openBrace :: (out' ++ [closeBrace]) := by
  obtain ⟨_, s, hstart, h1⟩ := Lexer.bind_eq_ok_iff.mp h
  obtain ⟨ret, s1, hmembers, h2⟩ := Lexer.bind_eq_ok_iff.mp h1
  obtain ⟨_, s2, hfinish, h3⟩ := Lexer.bind_eq_ok_iff.mp h2
  obtain rfl : s1 = [] := by
    unfold finish at hfinish
    split at hfinish
    · assumption
    · simp at hfinish
  obtain ⟨rfl, rfl⟩ : ret ++ lit "\x7d" = out ∧ s2 = rest := by simpa using h3
  rw [allMembers, members_ret] at hmembers
  cases hm : members d s.length [] s with
  | error x => simp [hm, Except.map] at hmembers
  | ok p =>
    obtain ⟨out', s'⟩ := p
    obtain ⟨rfl, rfl⟩ : lit "\x7b" ++ out' = ret ∧ s' = [] := by
      simpa [hm, Except.map] using hmembers
    exact ⟨s, out', hstart, (objectStart_eq_ok hstart).2, hm, rfl⟩

/-- An object that is read and parsed means what it says if and only if its members are plain
throughout. -/
theorem means_iff (hvk : kHexLookupTable d.vkSeparator < 0) {t out rest : Bytes} {j : Json}
    (h : object d t = .ok (out, rest)) (hjson : parse out = some j) :
    Means d t j ↔ ∀ s, t = head d ++ s → AllPlain d s := by
  obtain ⟨s, out', hstart, hne, hmembers, rfl⟩ := object_eq_ok h
  obtain ⟨ht, -⟩ := objectStart_eq_ok hstart
  obtain ⟨x, hx⟩ : ∃ x, out' = quote :: x := by
    have := members_quote hne hmembers
    cases out' with
    | nil => simp at this
    | cons c x => exact ⟨x, by rw [Option.some.inj this]⟩
  obtain ⟨m, ms, r, hms, rfl⟩ := parse_object (t := x ++ [closeBrace]) (by
    rw [hx] at hjson
    exact hjson)
  rw [← List.cons_append, ← hx] at hms
  constructor
  · rintro ⟨pairs, ms', hpairs, ht', hterms, hj, hforall⟩ s' hs'
    obtain rfl : s = s' := List.append_cancel_left (ht.symm.trans hs')
    obtain rfl : ms = ms' := Library.Json.Value.object.inj hj
    obtain rfl : s = joined d pairs := List.append_cancel_left (ht.symm.trans ht')
    exact allPlain_of_pairs hvk hpairs hmembers hms hterms hforall
  · intro hall
    obtain ⟨pairs, hpairs, rfl, hterms, hforall⟩ :=
      pairs_of_allPlain hvk hne hmembers hms (hall s ht)
    exact ⟨pairs, ms, hpairs, ht, hterms, rfl, hforall⟩

end

end OasValidator.Text

namespace OasValidator

open Library.Scanning Library.Json Text

/-- The text of an accepted object parameter, and the JSON value that the text written for it is, are
a serialization of the same pairs if and only if every key of the text has its separators, and no key
and no decoded string has a quote or a backslash. -/
theorem accepted_object_means_iff {paramVal : Json} {defaultStyle : Bytes} {defaultExplode : Bool}
    {refKeys : List Bytes} {d : ObjectDeserializer}
    (hd : getDeserializer paramVal defaultStyle defaultExplode refKeys = .ok (.object d))
    {buf : Nat → UInt8} {beg length : Nat} {out : Bytes} {j : Json}
    (hout : ((Deserializer.object d).deserialize buf beg (beg + length)).1 = .ok out)
    (hj : parse out = some j) :
    Means d (slice buf beg (beg + length)) j ↔
      ∀ s, slice buf beg (beg + length) = head d ++ s → AllPlain d s := by
  obtain ⟨style, explode, -, -, hvk, -⟩ := getDeserializer_object hd
  have hbeg : (⟨beg, 0⟩ : Cursor).pos ≤ beg + length := Nat.le_add_right beg length
  obtain ⟨rest, hlexer⟩ := lexer_of_scan hbeg (Nat.zero_le _) hout
  exact means_iff (by rw [hvk]; exact getObjVKSep_not_hex style explode) hlexer hj

/-- An object of two strings in the query, not exploded. -/
def shapeParam : Json :=
  .object [(lit "name", .string (lit "shape")), (lit "in", .string (lit "query")),
    (lit "explode", .bool false),
    (lit "schema", .object [(lit "type", .string (lit "object")),
      (lit "properties", .object [(lit "R", .object [(lit "type", .string (lit "string"))]),
        (lit "G", .object [(lit "type", .string (lit "string"))])])])]

def shapeDeserializer : ObjectDeserializer :=
  { paramName := lit "shape", start := 0, skipName := true, kvSeparator := comma,
    vkSeparator := comma, isDeepObj := false,
    ktMap := [(lit "\"R\"", .STRING), (lit "\"G\"", .STRING)] }

theorem accepted_object_means_iff_shape :
    Means shapeDeserializer (slice (dataOf (lit "shape=R,x,G,y")) 0 (0 + 13))
        (.object [(lit "R", .string (lit "x")), (lit "G", .string (lit "y"))]) ↔
      ∀ s, slice (dataOf (lit "shape=R,x,G,y")) 0 (0 + 13) = head shapeDeserializer ++ s →
        AllPlain shapeDeserializer s := by
  have hd : getDeserializer shapeParam (lit "form") true [] = .ok (.object shapeDeserializer) := by
    decide
  have hout : ((Deserializer.object shapeDeserializer).deserialize (dataOf (lit "shape=R,x,G,y")) 0
      (0 + 13)).1 = .ok (lit "\x7b\"R\":\"x\",\"G\":\"y\"\x7d") := by
    decide +kernel
  exact accepted_object_means_iff hd hout (by decide +kernel)

/-- The encoded quotes in `shape=R,x%22%2C%22G%22:%22y` end the value of `R` and add a member `G`. -/
theorem shape_injected : ¬∀ (paramVal : Json) (style : Bytes) (explode : Bool) (refKeys : List Bytes)
    (d : ObjectDeserializer), getDeserializer paramVal style explode refKeys = .ok (.object d) →
      ∀ (buf : Nat → UInt8) (beg length : Nat) (out : Bytes) (j : Json),
        ((Deserializer.object d).deserialize buf beg (beg + length)).1 = .ok out →
          parse out = some j → Means d (slice buf beg (beg + length)) j := by
  intro h
  have hd : getDeserializer shapeParam (lit "form") true [] = .ok (.object shapeDeserializer) := by
    decide +kernel
  set t := lit "shape=R,x%22%2C%22G%22:%22y"
  set out := lit "\x7b\"R\":\"x\",\"G\":\"y\"\x7d"
  have hout : ((Deserializer.object shapeDeserializer).deserialize (dataOf t) 0 (0 + 27)).1 =
      .ok out := by
    decide +kernel
  obtain ⟨j, hj⟩ := Option.isSome_iff_exists.mp (by decide +kernel : (parse out).isSome)
  have hplain := (accepted_object_means_iff hd hout hj).mp (h _ _ _ _ _ hd _ 0 27 out j hout hj)
  obtain ⟨k, rest, hs, hk, -, hvalue⟩ := hplain (lit "R,x%22%2C%22G%22:%22y")
    (by decide +kernel) _ (Reaches.here _) (by decide)
  have hread := memberKey_keyed hk rest
  rw [← hs] at hread
  have hfirst : memberKey shapeDeserializer (lit "R,x%22%2C%22G%22:%22y") =
      .ok (quoted (lit "R"), lit "x%22%2C%22G%22:%22y") := by
    decide +kernel
  obtain ⟨hkey, rfl⟩ := Prod.mk.inj (Except.ok.inj (hread.symm.trans hfirst))
  obtain rfl := quoted_inj hkey
  have hdecoded : percentDecode (lit "x%22%2C%22G%22:%22y") = some (lit "x\",\"G\":\"y") := by
    decide +kernel
  have hword : (lit "x%22%2C%22G%22:%22y").takeWhile (· ≠ shapeDeserializer.vkSeparator) =
      lit "x%22%2C%22G%22:%22y" := by
    decide +kernel
  refine (hvalue (by decide +kernel) _ (hword ▸ hdecoded)).1 ?_
  decide +kernel

end OasValidator
