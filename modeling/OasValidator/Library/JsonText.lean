import OasValidator.Library.Cut
import OasValidator.Library.Json
import Mathlib.Data.List.Forall2

/-! Texts that are read as the values they write: strings without escapes, numbers, and the arrays and
objects made of them. -/

namespace Library.Json

/-- A string that stands for its own bytes between quotes. -/
def NeedsNoEscape (s : List UInt8) : Prop := ∀ c ∈ s, c ≠ quote ∧ c ≠ backslash ∧ 32 ≤ c

instance (s : List UInt8) : Decidable (NeedsNoEscape s) :=
  decidable_of_iff (s.all fun c => c ≠ quote ∧ c ≠ backslash ∧ 32 ≤ c) (by simp [NeedsNoEscape])

theorem needsNoEscape_append {s t : List UInt8} :
    NeedsNoEscape (s ++ t) ↔ NeedsNoEscape s ∧ NeedsNoEscape t :=
  List.forall_mem_append

/-! ### Strings -/

theorem stringBody_of_needsNoEscape {s : List UInt8} (h : NeedsNoEscape s) (r : List UInt8) {n : Nat}
    (hn : s.length < n) : stringBody n (s ++ quote :: r) = some (s, r) := by
  induction s generalizing n with
  | nil =>
    cases n with
    | zero => simp at hn
    | succ n => simp [stringBody]
  | cons c s ih =>
    cases n with
    | zero => simp at hn
    | succ n =>
      obtain ⟨hq, hb, hc⟩ := h c List.mem_cons_self
      have hrec := ih (fun b hb => h b (List.mem_cons_of_mem c hb)) (n := n) (by simpa using hn)
      have hlt : ¬c < 32 := by
        rw [UInt8.not_lt]
        exact hc
      rw [List.cons_append, stringBody, if_neg hq, if_neg hb, if_neg hlt, hrec]
      rfl

theorem string_of_needsNoEscape {s : List UInt8} (h : NeedsNoEscape s) (r : List UInt8) :
    string (s ++ quote :: r) = some (s, r) :=
  stringBody_of_needsNoEscape h r (by simp only [List.length_append, List.length_cons]; omega)

/-- What a string stands for is shorter than its text, which has a quote at its end. -/
theorem stringBody_length {n : Nat} {t v rest : List UInt8} (h : stringBody n t = some (v, rest)) :
    v.length < t.length := by
  induction n generalizing t v with
  | zero => simp [stringBody] at h
  | succ n ih =>
    cases t with
    | nil => simp [stringBody] at h
    | cons c t =>
      rw [stringBody] at h
      split at h
      · obtain ⟨rfl, rfl⟩ := Prod.mk.inj (Option.some.inj h)
        simp
      · split at h
        · obtain ⟨⟨out, mid⟩, hesc, h⟩ := Option.bind_eq_some_iff.mp h
          obtain ⟨⟨v', rest'⟩, hrec, heq⟩ := Option.map_eq_some_iff.mp h
          obtain ⟨rfl, rfl⟩ := Prod.mk.inj heq
          have hmid := ih hrec
          obtain ⟨p, rfl, ⟨rfl, rfl⟩ | ⟨-, hlen⟩⟩ := escape_eq_some hesc
          · simp only [List.length_append, List.length_cons, List.length_nil] at hmid ⊢
            omega
          · simp only [List.length_append, List.length_cons] at hmid ⊢
            omega
        · split at h
          · simp at h
          · obtain ⟨⟨v', rest'⟩, hrec, heq⟩ := Option.map_eq_some_iff.mp h
            obtain ⟨rfl, rfl⟩ := Prod.mk.inj heq
            simpa using ih hrec

/-- A text that is read as itself up to the quote behind it needs no escape. -/
theorem needsNoEscape_of_string {s rest r : List UInt8}
    (h : string (s ++ quote :: r) = some (s, rest)) : NeedsNoEscape s := by
  obtain ⟨hq, hb, -⟩ := string_eq_self h
  have hbody : ∀ n, stringBody n (s ++ quote :: r) = some (s, rest) → ∀ c ∈ s, 32 ≤ c := by
    intro n hn
    clear h
    induction s generalizing n with
    | nil => simp
    | cons c s ih =>
      simp only [List.mem_cons, not_or] at hq hb
      cases n with
      | zero => simp [stringBody] at hn
      | succ n =>
        rw [List.cons_append, stringBody, if_neg (Ne.symm hq.1), if_neg (Ne.symm hb.1)] at hn
        split at hn
        · simp at hn
        · rename_i hlt
          obtain ⟨⟨v', rest'⟩, hrec, heq⟩ := Option.map_eq_some_iff.mp hn
          obtain ⟨hv, rfl⟩ := Prod.mk.inj heq
          obtain rfl : v' = s := (List.cons.inj hv).2
          intro b hmem
          rcases List.mem_cons.mp hmem with rfl | hmem
          · rw [UInt8.not_lt] at hlt
            exact hlt
          · exact ih hq.2 hb.2 n hrec b hmem
  intro c hc
  exact ⟨fun e => hq (e ▸ hc), fun e => hb (e ▸ hc), hbody _ h c hc⟩

/-- What is read of a text that needs no escape at its start has this start. -/
theorem string_append {p t v rest : List UInt8} (hp : NeedsNoEscape p)
    (h : string (p ++ t) = some (v, rest)) : ∃ w, v = p ++ w := by
  unfold string at h
  generalize (p ++ t).length + 1 = n at h
  induction p generalizing n v with
  | nil => exact ⟨v, rfl⟩
  | cons c p ih =>
    cases n with
    | zero => simp [stringBody] at h
    | succ n =>
      obtain ⟨hq, hb, hc⟩ := hp c List.mem_cons_self
      have hlt : ¬c < 32 := by
        rw [UInt8.not_lt]
        exact hc
      rw [List.cons_append, stringBody, if_neg hq, if_neg hb, if_neg hlt] at h
      obtain ⟨⟨v', rest'⟩, hrec, heq⟩ := Option.map_eq_some_iff.mp h
      obtain ⟨rfl, rfl⟩ := Prod.mk.inj heq
      obtain ⟨w, rfl⟩ := ih (fun b hb => hp b (List.mem_cons_of_mem c hb)) n hrec
      exact ⟨w, rfl⟩

/-! ### Values in front of a text -/

/-- `t` is read as `v`, whatever follows it that is no part of a number. -/
def ReadsValue (t : List UInt8) (v : Value) : Prop :=
  ∀ n tail, (∀ c ∈ tail.head?, isNumberByte c = false) → value (n + 1) (t ++ tail) = some (v, tail)

/-- A value without space in front of it. -/
structure Reads (t : List UInt8) (v : Value) : Prop where
  value : ReadsValue t v
  head : ∃ c rest, t = c :: rest ∧ isSpace c = false ∧ c ≠ ']'.toUInt8 ∧ c ≠ '\x7d'.toUInt8

theorem ReadsValue.blank {t : List UInt8} {v : Value} (h : ReadsValue t v) :
    ReadsValue (32 :: t) v := by
  intro n tail htail
  have hskip : skipSpace (32 :: (t ++ tail)) = skipSpace (t ++ tail) :=
    List.dropWhile_cons_of_pos (by decide)
  rw [← h n tail htail, List.cons_append]
  simp only [Json.value, hskip]

/-- The whole text of a value. -/
theorem Reads.parse {t : List UInt8} {v : Value} (h : Reads t v) : parse t = some v := by
  have := h.value t.length [] (by simp)
  rw [List.append_nil] at this
  rw [Json.parse, this]
  rfl

theorem reads_string {s : List UInt8} (h : NeedsNoEscape s) :
    Reads (quote :: (s ++ [quote])) (.string s) where
  value n tail _ := by
    rw [List.cons_append, List.append_assoc, List.singleton_append, value_string,
      string_of_needsNoEscape h]
    rfl
  head := ⟨quote, _, rfl, by decide, by decide, by decide⟩

theorem reads_true : Reads trueWord (.bool true) where
  value n tail _ := value_true n tail
  head := ⟨_, _, rfl, by decide, by decide, by decide⟩

theorem reads_false : Reads falseWord (.bool false) where
  value n tail _ := value_false n tail
  head := ⟨_, _, rfl, by decide, by decide, by decide⟩

/-! ### Numbers -/

theorem takeWhile_isDigit_append {t tail : List UInt8}
    (htail : ∀ c ∈ tail.head?, isNumberByte c = false) :
    (t ++ tail).takeWhile isDigit = t.takeWhile isDigit ∧
      (t ++ tail).dropWhile isDigit = t.dropWhile isDigit ++ tail := by
  have hstop : tail.takeWhile isDigit = [] ∧ tail.dropWhile isDigit = tail := by
    cases tail with
    | nil => simp
    | cons c tail =>
      have hc := htail c rfl
      have hdigit : isDigit c = false := by
        simp only [isNumberByte, Bool.or_eq_false_iff] at hc
        exact hc.1.1.1.1.1
      simp [hdigit]
  induction t with
  | nil => simpa using hstop
  | cons b t ih =>
    by_cases hb : isDigit b
    · simpa [hb] using ih
    · simp [hb]

theorem digits_append {t tail ds rest : List UInt8}
    (htail : ∀ c ∈ tail.head?, isNumberByte c = false) (h : digits t = some (ds, rest)) :
    digits (t ++ tail) = some (ds, rest ++ tail) := by
  obtain ⟨htake, hdrop⟩ := takeWhile_isDigit_append (t := t) htail
  unfold digits at h ⊢
  rw [htake, hdrop]
  split at h
  · simp at h
  · rename_i hne
    obtain ⟨rfl, rfl⟩ := Prod.mk.inj (Option.some.inj h)
    rw [if_neg hne]

theorem wholePart_append {t tail p rest : List UInt8}
    (htail : ∀ c ∈ tail.head?, isNumberByte c = false) (h : wholePart t = some (p, rest)) :
    wholePart (t ++ tail) = some (p, rest ++ tail) := by
  cases t with
  | nil => simp [wholePart] at h
  | cons c t =>
    simp only [wholePart, List.cons_append] at h ⊢
    split at h
    · rename_i hc
      obtain ⟨rfl, rfl⟩ := Prod.mk.inj (Option.some.inj h)
      rw [if_pos hc]
    · rename_i hc
      rw [if_neg hc, ← List.cons_append]
      exact digits_append htail h

theorem fraction_append {t tail p rest : List UInt8}
    (htail : ∀ c ∈ tail.head?, isNumberByte c = false) (h : fraction t = some (p, rest)) :
    fraction (t ++ tail) = some (p, rest ++ tail) := by
  cases t with
  | nil =>
    obtain ⟨rfl, rfl⟩ := Prod.mk.inj (Option.some.inj h)
    cases tail with
    | nil => rfl
    | cons c tail =>
      have hc : c ≠ '.'.toUInt8 := by
        rintro rfl
        exact absurd (htail _ rfl) (by decide)
      simp [fraction, hc]
  | cons c t =>
    simp only [fraction, List.cons_append] at h ⊢
    split at h
    · rename_i hc
      rw [if_pos hc]
      obtain ⟨⟨ds, r⟩, hd, heq⟩ := Option.map_eq_some_iff.mp h
      obtain ⟨rfl, rfl⟩ := Prod.mk.inj heq
      rw [digits_append htail hd]
      rfl
    · rename_i hc
      obtain ⟨rfl, rfl⟩ := Prod.mk.inj (Option.some.inj h)
      simp [hc]

theorem exponent_append {t tail p rest : List UInt8}
    (htail : ∀ c ∈ tail.head?, isNumberByte c = false) (h : exponent t = some (p, rest)) :
    exponent (t ++ tail) = some (p, rest ++ tail) := by
  cases t with
  | nil =>
    obtain ⟨rfl, rfl⟩ := Prod.mk.inj (Option.some.inj h)
    cases tail with
    | nil => rfl
    | cons c tail =>
      have hc : ¬(c = 'e'.toUInt8 ∨ c = 'E'.toUInt8) := by
        rintro (rfl | rfl) <;> exact absurd (htail _ rfl) (by decide)
      simp [exponent, hc]
  | cons c t =>
    simp only [exponent, List.cons_append] at h ⊢
    split at h
    · rename_i hc
      rw [if_pos hc]
      cases t with
      | nil => simp at h
      | cons s t =>
        simp only [List.cons_append] at h ⊢
        split at h
        · rename_i hs
          rw [if_pos hs]
          obtain ⟨⟨ds, r⟩, hd, heq⟩ := Option.map_eq_some_iff.mp h
          obtain ⟨rfl, rfl⟩ := Prod.mk.inj heq
          rw [digits_append htail hd]
          rfl
        · rename_i hs
          rw [if_neg hs]
          obtain ⟨⟨ds, r⟩, hd, heq⟩ := Option.map_eq_some_iff.mp h
          obtain ⟨rfl, rfl⟩ := Prod.mk.inj heq
          rw [← List.cons_append, digits_append htail hd]
          rfl
    · rename_i hc
      obtain ⟨rfl, rfl⟩ := Prod.mk.inj (Option.some.inj h)
      simp [hc]

/-- A number is read the same in front of a byte that no number has. -/
theorem number_append {t tail lexeme rest : List UInt8}
    (htail : ∀ c ∈ tail.head?, isNumberByte c = false) (h : number t = some (lexeme, rest)) :
    number (t ++ tail) = some (lexeme, rest ++ tail) := by
  have hne : t ≠ [] := by
    rintro rfl
    simp [number, wholePart] at h
  obtain ⟨b, t, rfl⟩ := List.exists_cons_of_ne_nil hne
  by_cases hb : b = '-'.toUInt8
  · simp only [number, List.cons_append, List.head?_cons, hb, if_true, List.take_succ_cons,
      List.take_zero, List.drop_succ_cons, List.drop_zero, Option.bind_eq_bind,
      Option.bind_eq_some_iff, Prod.exists] at h ⊢
    obtain ⟨whole, t1, hwhole, frac, t2, hfrac, exp, t3, hexp, heq⟩ := h
    obtain ⟨rfl, rfl⟩ := Prod.mk.inj (Option.some.inj heq)
    exact ⟨whole, _, wholePart_append htail hwhole, frac, _, fraction_append htail hfrac, exp, _,
      exponent_append htail hexp, rfl⟩
  · simp only [number, List.cons_append, List.head?_cons, Option.some.injEq, hb, if_false,
      Option.bind_eq_bind, Option.bind_eq_some_iff, Prod.exists] at h ⊢
    obtain ⟨whole, t1, hwhole, frac, t2, hfrac, exp, t3, hexp, heq⟩ := h
    obtain ⟨rfl, rfl⟩ := Prod.mk.inj heq
    exact ⟨whole, _, wholePart_append htail hwhole, frac, _, fraction_append htail hfrac, exp, _,
      exponent_append htail hexp, rfl⟩

theorem reads_number {word : List UInt8} (h : number word = some (word, [])) :
    Reads word (.number word) := by
  have hne : word ≠ [] := by
    rintro rfl
    simp [number, wholePart] at h
  obtain ⟨c, rest, rfl⟩ := List.exists_cons_of_ne_nil hne
  have hc : isNumberByte c := (number_eq_some h).2 c List.mem_cons_self
  have hspace : isSpace c = false := by
    by_contra hs
    simp only [isSpace, Bool.not_eq_false, decide_eq_true_eq] at hs
    rcases hs with rfl | rfl | rfl | rfl <;> exact absurd hc (by decide)
  have hother : ∀ b : UInt8, isNumberByte b = false → c ≠ b := by
    rintro b hb rfl
    rw [hb] at hc
    exact Bool.false_ne_true hc
  refine ⟨fun n tail htail => ?_, c, rest, rfl, hspace, hother _ (by decide), hother _ (by decide)⟩
  have hnum := number_append htail h
  rw [List.cons_append, value, skipSpace_cons hspace]
  simp only
  rw [if_neg (hother _ (by decide)), if_neg (hother _ (by decide)), if_neg (hother _ (by decide)),
    if_neg (hother _ (by decide)), if_neg (hother _ (by decide)), if_neg (hother _ (by decide)),
    ← List.cons_append, hnum]
  rfl

/-! ### The texts of scalars -/

/-- The texts without space of a scalar. -/
def ScalarText (t : List UInt8) : Value → Prop
  | .null => t = nullWord
  | .bool b => t = if b then trueWord else falseWord
  | .number w => w = t ∧ number t = some (t, [])
  | _ => True

theorem literal_eq_some {word t rest : List UInt8} (h : literal word t = some rest) :
    t = word ++ rest := by
  unfold literal at h
  split at h
  · rename_i hpre
    obtain ⟨t', rfl⟩ := List.isPrefixOf_iff_prefix.mp hpre
    simpa [eq_comm] using h
  · simp at h

theorem parse_scalarText {t : List UInt8} {v : Value} (hspace : ∀ c ∈ t, isSpace c = false)
    (h : parse t = some v) : ScalarText t v := by
  have hskip : ∀ {u : List UInt8}, (∀ c ∈ u, isSpace c = false) → skipSpace u = u := by
    intro u hu
    cases u with
    | nil => rfl
    | cons c u => exact skipSpace_cons (hu c List.mem_cons_self) u
  obtain ⟨rest, hvalue, hrest⟩ : ∃ rest, value (t.length + 1) t = some (v, rest) ∧
      skipSpace rest = [] := by
    unfold parse at h
    split at h
    · rename_i w rest hv
      split at h
      · rename_i hr
        obtain rfl := Option.some.inj h
        exact ⟨rest, hv, hr⟩
      · simp at h
    · simp at h
  -- nothing is left behind a scalar
  have hend : ∀ {word}, t = word ++ rest → rest = [] := by
    rintro word rfl
    rwa [hskip fun c hc => hspace c (List.mem_append_right _ hc)] at hrest
  cases t with
  | nil => simp [value, skipSpace] at hvalue
  | cons c t =>
    rw [value, hskip hspace] at hvalue
    simp only at hvalue
    split at hvalue
    · obtain ⟨p, -, heq⟩ := Option.map_eq_some_iff.mp hvalue
      obtain ⟨rfl, -⟩ := Prod.mk.inj heq
      trivial
    split at hvalue
    · split at hvalue
      · simp at hvalue
      · split at hvalue
        · obtain ⟨rfl, -⟩ := Prod.mk.inj (Option.some.inj hvalue)
          trivial
        · obtain ⟨p, -, heq⟩ := Option.map_eq_some_iff.mp hvalue
          obtain ⟨rfl, -⟩ := Prod.mk.inj heq
          trivial
    split at hvalue
    · split at hvalue
      · simp at hvalue
      · split at hvalue
        · obtain ⟨rfl, -⟩ := Prod.mk.inj (Option.some.inj hvalue)
          trivial
        · obtain ⟨p, -, heq⟩ := Option.map_eq_some_iff.mp hvalue
          obtain ⟨rfl, -⟩ := Prod.mk.inj heq
          trivial
    have hword : ∀ {word : List UInt8} {w : Value},
        (literal word (c :: t)).map (fun u => (w, u)) = some (v, rest) → v = w ∧ c :: t = word := by
      intro word w hmap
      obtain ⟨u, hlit, heq⟩ := Option.map_eq_some_iff.mp hmap
      obtain ⟨rfl, rfl⟩ := Prod.mk.inj heq
      have ht := literal_eq_some hlit
      exact ⟨rfl, by rw [ht, hend ht, List.append_nil]⟩
    split at hvalue
    · obtain ⟨rfl, ht⟩ := hword hvalue
      exact ht
    split at hvalue
    · obtain ⟨rfl, ht⟩ := hword hvalue
      exact ht
    split at hvalue
    · obtain ⟨rfl, ht⟩ := hword hvalue
      exact ht
    · obtain ⟨⟨w, u⟩, hnum, heq⟩ := Option.map_eq_some_iff.mp hvalue
      obtain ⟨rfl, rfl⟩ := Prod.mk.inj heq
      have ht := (number_eq_some hnum).1
      obtain rfl := hend ht
      rw [List.append_nil] at ht
      exact ⟨ht.symm, ht ▸ hnum⟩

/-! ### Arrays and objects -/

/-- The texts with commas between them. -/
def commas (texts : List (List UInt8)) : List UInt8 := [','.toUInt8].intercalate texts

theorem commas_cons_cons (t u : List UInt8) (ts : List (List UInt8)) :
    commas (t :: u :: ts) = t ++ ','.toUInt8 :: commas (u :: ts) := by
  simp [commas, List.intercalate]

theorem commas_singleton (t : List UInt8) : commas [t] = t := by
  simp [commas, List.intercalate]

theorem Reads.ne_nil {t : List UInt8} {v : Value} (h : Reads t v) : t ≠ [] := by
  obtain ⟨c, rest, rfl, -⟩ := h.head
  simp

/-- What the texts of a list start with is what the first one starts with. -/
theorem commas_cons (t : List UInt8) (ts : List (List UInt8)) :
    ∃ rest, commas (t :: ts) = t ++ rest := by
  cases ts with
  | nil => exact ⟨[], by rw [commas_singleton, List.append_nil]⟩
  | cons u us => exact ⟨_, commas_cons_cons t u us⟩

theorem commas_append_singleton {ts : List (List UInt8)} (hne : ts ≠ []) (t : List UInt8) :
    commas (ts ++ [t]) = commas ts ++ ','.toUInt8 :: t := by
  induction ts with
  | nil => exact absurd rfl hne
  | cons u ts ih =>
    cases ts with
    | nil => rw [commas_singleton, List.singleton_append, commas_cons_cons, commas_singleton]
    | cons w ts =>
      rw [List.cons_append, List.cons_append, commas_cons_cons, ← List.cons_append, ih (by simp),
        commas_cons_cons]
      simp

/-- `t` is read as `v` in as many steps as it has bytes. -/
def ParsesValue (t : List UInt8) (v : Value) : Prop :=
  ∀ n tail, t.length < n → (∀ c ∈ tail.head?, isNumberByte c = false) →
    value n (t ++ tail) = some (v, tail)

/-- A value without space in front of it, in as many steps as it has bytes. -/
structure Parses (t : List UInt8) (v : Value) : Prop where
  value : ParsesValue t v
  head : ∃ c rest, t = c :: rest ∧ isSpace c = false ∧ c ≠ ']'.toUInt8

theorem ReadsValue.parses {t : List UInt8} {v : Value} (h : ReadsValue t v) : ParsesValue t v := by
  intro n tail hn htail
  obtain ⟨n, rfl⟩ : ∃ m, n = m + 1 := ⟨n - 1, by omega⟩
  exact h n tail htail

theorem Reads.parses {t : List UInt8} {v : Value} (h : Reads t v) : Parses t v := by
  obtain ⟨c, rest, ht, hspace, hbracket, -⟩ := h.head
  exact ⟨h.value.parses, c, rest, ht, hspace, hbracket⟩

theorem Parses.parse {t : List UInt8} {v : Value} (h : Parses t v) : parse t = some v := by
  have hrun := h.value (t.length + 1) [] (Nat.lt_succ_self _) (by simp)
  rw [List.append_nil] at hrun
  rw [Json.parse, hrun]
  rfl

/-- Items with commas between them are read one by one up to the closing bracket. -/
theorem elements_parses {texts : List (List UInt8)} {vs : List Value}
    (h : List.Forall₂ Parses texts vs) (hne : texts ≠ []) (r : List UInt8) {n : Nat}
    (hn : (commas texts).length + 1 < n) :
    elements n (commas texts ++ ']'.toUInt8 :: r) = some (vs, r) := by
  induction h generalizing n with
  | nil => exact absurd rfl hne
  | @cons t v ts vs ht hts ih =>
    obtain ⟨n, rfl⟩ : ∃ m, n = m + 1 := ⟨n - 1, by omega⟩
    cases hts with
    | nil =>
      rw [commas_singleton] at hn ⊢
      rw [elements, ht.value _ _ (by omega) (by simp; decide)]
      simp only [Option.bind_some]
      rw [skipSpace_cons (by decide)]
      rfl
    | @cons u w us ws hu hus =>
      rw [commas_cons_cons] at hn ⊢
      simp only [List.length_append, List.length_cons] at hn
      rw [List.append_assoc, List.cons_append, elements,
        ht.value _ _ (by omega) (by simp; decide)]
      simp only [Option.bind_some]
      rw [skipSpace_cons (by decide)]
      simp only [if_true]
      rw [ih (by simp) (by omega)]
      rfl

/-- An array of items that are read as values. -/
theorem parses_array {texts : List (List UInt8)} {vs : List Value}
    (h : List.Forall₂ Parses texts vs) (hne : texts ≠ []) :
    Parses ('['.toUInt8 :: (commas texts ++ [']'.toUInt8])) (.array vs) where
  value := by
    intro n tail hn _
    obtain ⟨n, rfl⟩ : ∃ m, n = m + 1 := ⟨n - 1, by omega⟩
    simp only [List.length_cons, List.length_append, List.length_nil] at hn
    have helements := elements_parses h hne tail (n := n) (by omega)
    obtain ⟨t, ts, rfl⟩ := List.exists_cons_of_ne_nil hne
    obtain ⟨more, hmore⟩ := commas_cons t ts
    cases h with
    | cons ht _ =>
      obtain ⟨c, rest, rfl, hspace, hbracket⟩ := ht.head
      rw [hmore] at helements ⊢
      simp only [List.cons_append, List.append_assoc, List.nil_append] at helements ⊢
      rw [Json.value, skipSpace_cons (by decide)]
      simp only
      rw [if_neg (by decide), if_neg (by decide), if_pos trivial, skipSpace_cons hspace]
      simp only
      rw [if_neg hbracket, helements]
      rfl
  head := ⟨_, _, rfl, by decide, by decide⟩

theorem parses_empty_array : Parses ['['.toUInt8, ']'.toUInt8] (.array []) where
  value := by
    intro n tail hn _
    obtain ⟨n, rfl⟩ : ∃ m, n = m + 1 := ⟨n - 1, by omega⟩
    rw [List.cons_append, List.cons_append, Json.value, skipSpace_cons (by decide)]
    simp only
    rw [if_neg (by decide), if_neg (by decide), if_pos trivial, skipSpace_cons (by decide)]
    rfl
  head := ⟨_, _, rfl, by decide, by decide⟩

/-- An array of items that are read as values. -/
theorem parse_array_reads {texts : List (List UInt8)} {vs : List Value}
    (h : List.Forall₂ Reads texts vs) (hne : texts ≠ []) :
    parse ('['.toUInt8 :: (commas texts ++ [']'.toUInt8])) = some (.array vs) :=
  (parses_array (h.imp fun _ _ ht => ht.parses) hne).parse

/-- The first item of an array stands behind the bracket, and no byte of a number behind it. -/
theorem parse_array_head {t : List UInt8} {v : Value} {vs : List Value}
    (h : parse ('['.toUInt8 :: t) = some (.array (v :: vs))) (ht : skipSpace t = t) :
    ∃ n r, value n t = some (v, r) ∧ ∀ c ∈ (skipSpace r).head?, isNumberByte c = false := by
  unfold parse at h
  rw [List.length_cons, value, skipSpace_cons (by decide)] at h
  simp only at h
  rw [if_neg (by decide), if_neg (by decide), if_pos trivial, ht] at h
  cases t with
  | nil => simp at h
  | cons b t =>
    simp only at h
    split at h
    · rename_i hsome
      split at hsome
      · obtain ⟨rfl, rfl⟩ := Prod.mk.inj (Option.some.inj hsome)
        split at h <;> simp at h
      · obtain ⟨⟨vs', r⟩, helements, heq⟩ := Option.map_eq_some_iff.mp hsome
        obtain ⟨rfl, rfl⟩ := Prod.mk.inj heq
        obtain rfl : vs' = v :: vs := by
          split at h
          · simpa using h
          · simp at h
        rw [List.length_cons, elements] at helements
        obtain ⟨⟨v', r'⟩, hv, hrest⟩ := Option.bind_eq_some_iff.mp helements
        cases hr : skipSpace r' with
        | nil => simp [hr] at hrest
        | cons c r2 =>
          simp only [hr] at hrest
          split at hrest
          · rename_i hc
            obtain ⟨q, -, heq⟩ := Option.map_eq_some_iff.mp hrest
            obtain rfl : v' = v := (List.cons.inj (Prod.mk.inj heq).1).1
            exact ⟨_, r', hv, by rw [hr, hc]; simp; decide⟩
          · split at hrest
            · rename_i hc
              obtain rfl : v' = v := (List.cons.inj (Prod.mk.inj (Option.some.inj hrest)).1).1
              exact ⟨_, r', hv, by rw [hr, hc]; simp; decide⟩
            · simp at hrest
    · simp at h

/-- A member of an object, whose name needs no escape. -/
def memberText (name text : List UInt8) : List UInt8 :=
  quote :: (name ++ quote :: ':'.toUInt8 :: text)

/-- `t` is the text of a member. -/
def ReadsMember (t : List UInt8) (m : List UInt8 × Value) : Prop :=
  NeedsNoEscape m.1 ∧ ∃ text, t = memberText m.1 text ∧ ReadsValue text m.2

/-- `t` is the text of a member, read in as many steps as it has bytes. -/
def ParsesMember (t : List UInt8) (m : List UInt8 × Value) : Prop :=
  NeedsNoEscape m.1 ∧ ∃ text, t = memberText m.1 text ∧ ParsesValue text m.2

theorem ReadsMember.parses {t : List UInt8} {m : List UInt8 × Value} (h : ReadsMember t m) :
    ParsesMember t m := by
  obtain ⟨hname, text, ht, htext⟩ := h
  exact ⟨hname, text, ht, htext.parses⟩

/-- Members with commas between them are read one by one up to the closing brace. -/
theorem members_parses {texts : List (List UInt8)} {ms : List (List UInt8 × Value)}
    (h : List.Forall₂ ParsesMember texts ms) (hne : texts ≠ []) (r : List UInt8) {n : Nat}
    (hn : (commas texts).length < n) :
    members n (commas texts ++ '\x7d'.toUInt8 :: r) = some (ms, r) := by
  induction h generalizing n with
  | nil => exact absurd rfl hne
  | @cons t m ts ms ht hts ih =>
    obtain ⟨n, rfl⟩ : ∃ k, n = k + 1 := ⟨n - 1, by omega⟩
    obtain ⟨hname, text, rfl, htext⟩ := ht
    have hstart : ∀ tail, memberText m.1 text ++ tail =
        quote :: (m.1 ++ quote :: ':'.toUInt8 :: (text ++ tail)) := by
      simp [memberText]
    have hlength : text.length + 3 ≤ (memberText m.1 text).length := by
      simp only [memberText, List.length_cons, List.length_append]
      omega
    cases hts with
    | nil =>
      rw [commas_singleton] at hn ⊢
      rw [hstart, members, skipSpace_cons (by decide)]
      simp only [if_true]
      rw [string_of_needsNoEscape hname]
      simp only [Option.bind_some]
      rw [skipSpace_cons (by decide)]
      simp only [if_true]
      rw [htext _ _ (by omega) (by simp; decide)]
      simp only [Option.bind_some]
      rw [skipSpace_cons (by decide)]
      rfl
    | @cons u w us ws hu hus =>
      rw [commas_cons_cons] at hn ⊢
      simp only [List.length_append, List.length_cons] at hn
      rw [List.append_assoc, List.cons_append, hstart, members, skipSpace_cons (by decide)]
      simp only [if_true]
      rw [string_of_needsNoEscape hname]
      simp only [Option.bind_some]
      rw [skipSpace_cons (by decide)]
      simp only [if_true]
      rw [htext _ _ (by omega) (by simp; decide)]
      simp only [Option.bind_some]
      rw [skipSpace_cons (by decide)]
      simp only [if_true]
      rw [ih (by simp) (by omega)]
      rfl

/-- An object of members that are read as values. -/
theorem parses_object {texts : List (List UInt8)} {ms : List (List UInt8 × Value)}
    (h : List.Forall₂ ParsesMember texts ms) (hne : texts ≠ []) :
    Parses ('\x7b'.toUInt8 :: (commas texts ++ ['\x7d'.toUInt8])) (.object ms) where
  value := by
    intro n tail hn _
    obtain ⟨n, rfl⟩ : ∃ m, n = m + 1 := ⟨n - 1, by omega⟩
    simp only [List.length_cons, List.length_append, List.length_nil] at hn
    have hmembers := members_parses h hne tail (n := n) (by omega)
    obtain ⟨t, ts, rfl⟩ := List.exists_cons_of_ne_nil hne
    obtain ⟨more, hmore⟩ := commas_cons t ts
    cases h with
    | cons ht _ =>
      obtain ⟨-, text, rfl, -⟩ := ht
      rw [hmore, memberText] at hmembers ⊢
      simp only [List.cons_append, List.append_assoc, List.nil_append] at hmembers ⊢
      rw [Json.value, skipSpace_cons (by decide)]
      simp only
      rw [if_neg (by decide), if_pos trivial, skipSpace_cons (by decide)]
      simp only
      rw [if_neg (by decide), hmembers]
      rfl
  head := ⟨_, _, rfl, by decide, by decide⟩

/-- An object of members that are read as values. -/
theorem parse_object_reads {texts : List (List UInt8)} {ms : List (List UInt8 × Value)}
    (h : List.Forall₂ ReadsMember texts ms) (hne : texts ≠ []) :
    parse ('\x7b'.toUInt8 :: (commas texts ++ ['\x7d'.toUInt8])) = some (.object ms) :=
  (parses_object (h.imp fun _ _ ht => ht.parses) hne).parse

/-- An object with a member that is read as a value and one that is an object of such members. -/
theorem parse_nested_object {name inner text : List UInt8} {v : Value}
    {texts : List (List UInt8)} {ms : List (List UInt8 × Value)} (hname : NeedsNoEscape name)
    (hinner : NeedsNoEscape inner) (htext : ParsesValue text v)
    (h : List.Forall₂ ParsesMember texts ms) (hne : texts ≠ []) :
    parse ('\x7b'.toUInt8 :: (memberText name text ++ ','.toUInt8 ::
        memberText inner ('\x7b'.toUInt8 :: (commas texts ++ ['\x7d'.toUInt8])) ++
          ['\x7d'.toUInt8])) =
      some (.object [(name, v), (inner, .object ms)]) := by
  have hmembers : List.Forall₂ ParsesMember
      [memberText name text, memberText inner ('\x7b'.toUInt8 :: (commas texts ++ ['\x7d'.toUInt8]))]
      [(name, v), (inner, .object ms)] :=
    .cons ⟨hname, text, rfl, htext⟩
      (.cons ⟨hinner, _, rfl, (parses_object h hne).value⟩ .nil)
  have hparse := (parses_object hmembers (by simp)).parse
  rwa [commas_cons_cons, commas_singleton] at hparse

end Library.Json
