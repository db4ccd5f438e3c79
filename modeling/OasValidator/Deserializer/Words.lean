import OasValidator.Deserializer.Serialization

/-! The words of sent values.  Each is read in front of a byte that cannot go on with it, and the JSON
text that is written for it is read as the value again. -/

namespace OasValidator.Text

open Library.Json Library.Scanning BaseDeserializer

variable {d : BaseDeserializer}

/-- The JSON text of a sent value. -/
def pieceOf : Json → Bytes
  | .string s => quote :: (s ++ [quote])
  | v => wordOf v

/-! ### Plain decimals -/

/-- An optional sign, digits, and an optional fraction. -/
structure Decimal (word : Bytes) where
  sign : Bytes
  whole : Bytes
  fraction : Bytes
  eq : word = sign ++ (whole ++ fraction)
  sign_eq : sign = [] ∨ sign = [minus]
  whole_ne : whole ≠ []
  whole_digits : ∀ c ∈ whole, isDigit c
  fraction_eq : fraction = [] ∨ ∃ ds, fraction = point :: ds ∧ ds ≠ [] ∧ ∀ c ∈ ds, isDigit c

theorem digits_spec {t ds rest : Bytes} (h : Library.Json.digits t = some (ds, rest)) :
    ds ≠ [] ∧ ∀ c ∈ ds, isDigit c := by
  unfold Library.Json.digits at h
  split at h
  · simp at h
  · rename_i hne
    obtain ⟨rfl, -⟩ := Prod.mk.inj (Option.some.inj h)
    exact ⟨hne, fun c hc => List.mem_takeWhile_imp hc⟩

theorem wholePart_spec {t p rest : Bytes} (h : wholePart t = some (p, rest)) :
    p ≠ [] ∧ ∀ c ∈ p, isDigit c := by
  cases t with
  | nil => simp [wholePart] at h
  | cons c t =>
    simp only [wholePart] at h
    split at h
    · rename_i hc
      obtain ⟨rfl, -⟩ := Prod.mk.inj (Option.some.inj h)
      refine ⟨by simp, ?_⟩
      simpa [hc] using show isDigit 48 = true by decide
    · exact digits_spec h

theorem fraction_spec {t p rest : Bytes} (h : fraction t = some (p, rest)) :
    p = [] ∨ ∃ ds, p = point :: ds ∧ ds ≠ [] ∧ ∀ c ∈ ds, isDigit c := by
  cases t with
  | nil =>
    obtain ⟨rfl, -⟩ := Prod.mk.inj (Option.some.inj h)
    exact Or.inl rfl
  | cons c t =>
    simp only [fraction] at h
    split at h
    · rename_i hc
      obtain ⟨⟨ds, r⟩, hds, heq⟩ := Option.map_eq_some_iff.mp h
      obtain ⟨rfl, -⟩ := Prod.mk.inj heq
      exact Or.inr ⟨ds, by rw [hc]; rfl, digits_spec hds⟩
    · obtain ⟨rfl, -⟩ := Prod.mk.inj (Option.some.inj h)
      exact Or.inl rfl

theorem exponent_spec {t p rest : Bytes} (h : exponent t = some (p, rest)) :
    p = [] ∨ 'e'.toUInt8 ∈ p ∨ 'E'.toUInt8 ∈ p := by
  cases t with
  | nil =>
    obtain ⟨rfl, -⟩ := Prod.mk.inj (Option.some.inj h)
    exact Or.inl rfl
  | cons c t =>
    simp only [exponent] at h
    split at h
    · rename_i hc
      have hmem : ∀ u : Bytes, 'e'.toUInt8 ∈ c :: u ∨ 'E'.toUInt8 ∈ c :: u := by
        intro u
        rcases hc with rfl | rfl <;> simp
      cases t with
      | nil => simp at h
      | cons s t =>
        simp only at h
        split at h
        · obtain ⟨q, -, heq⟩ := Option.map_eq_some_iff.mp h
          obtain ⟨rfl, -⟩ := Prod.mk.inj heq
          exact Or.inr (hmem _)
        · obtain ⟨q, -, heq⟩ := Option.map_eq_some_iff.mp h
          obtain ⟨rfl, -⟩ := Prod.mk.inj heq
          exact Or.inr (hmem _)
    · obtain ⟨rfl, -⟩ := Prod.mk.inj (Option.some.inj h)
      exact Or.inl rfl

/-- A number is made of these parts. -/
theorem number_parts {word : Bytes} (h : Library.Json.number word = some (word, [])) :
    ∃ sign whole fraction exponent, word = sign ++ (whole ++ fraction) ++ exponent ∧
      (sign = [] ∨ sign = [minus]) ∧ (whole ≠ [] ∧ ∀ c ∈ whole, isDigit c) ∧
      (fraction = [] ∨ ∃ ds, fraction = point :: ds ∧ ds ≠ [] ∧ ∀ c ∈ ds, isDigit c) ∧
      (exponent = [] ∨ 'e'.toUInt8 ∈ exponent ∨ 'E'.toUInt8 ∈ exponent) := by
  simp only [Library.Json.number, Option.bind_eq_bind, Option.bind_eq_some_iff, Prod.exists] at h
  obtain ⟨whole, t1, hwhole, frac, t2, hfrac, exp, t3, hexp, heq⟩ := h
  obtain ⟨hword, -⟩ := Prod.mk.inj (Option.some.inj heq)
  refine ⟨_, whole, frac, exp, by rw [← List.append_assoc]; exact hword.symm, ?_,
    wholePart_spec hwhole, fraction_spec hfrac, exponent_spec hexp⟩
  by_cases hc : word.head? = some '-'.toUInt8
  · obtain ⟨rest, rfl⟩ : ∃ rest, word = '-'.toUInt8 :: rest := by
      cases word with
      | nil => simp at hc
      | cons b rest => exact ⟨rest, by rw [Option.some.inj hc]⟩
    exact Or.inr rfl
  · exact Or.inl (by simp [hc])

/-- A plain decimal is made of these parts. -/
theorem decimal_of_plain {word : Bytes} (h : PlainDecimal word) : Nonempty (Decimal word) := by
  obtain ⟨hnumber, hbytes⟩ := h
  obtain ⟨sign, whole, frac, exp, heq, hsign, hwhole, hfrac, hexp⟩ := number_parts hnumber
  obtain rfl : exp = [] := by
    rcases hexp with hnil | hmem
    · exact hnil
    · rcases hmem with hmem | hmem
      · exact absurd (hbytes _ (heq ▸ List.mem_append_right _ hmem)) (by decide)
      · exact absurd (hbytes _ (heq ▸ List.mem_append_right _ hmem)) (by decide)
  exact ⟨⟨sign, whole, frac, by simpa using heq, hsign, hwhole.1, hwhole.2, hfrac⟩⟩

/-- The plain decimals are the numbers without exponent. -/
theorem plainDecimal_iff {word : Bytes} :
    PlainDecimal word ↔ Library.Json.number word = some (word, []) ∧
      'e'.toUInt8 ∉ word ∧ 'E'.toUInt8 ∉ word := by
  constructor
  · rintro ⟨hnumber, hbytes⟩
    exact ⟨hnumber, fun he => absurd (hbytes _ he) (by decide),
      fun he => absurd (hbytes _ he) (by decide)⟩
  · rintro ⟨hnumber, he, hE⟩
    refine ⟨hnumber, ?_⟩
    obtain ⟨sign, whole, frac, exp, rfl, hsign, hwhole, hfrac, hexp⟩ := number_parts hnumber
    obtain rfl : exp = [] := by
      rcases hexp with hnil | hmem | hmem
      · exact hnil
      · exact absurd (List.mem_append_right _ hmem) he
      · exact absurd (List.mem_append_right _ hmem) hE
    intro c hc
    simp only [List.append_nil, List.mem_append] at hc
    rcases hc with hc | hc | hc
    · rcases hsign with rfl | rfl
      · simp at hc
      · exact Or.inr (Or.inl (List.mem_singleton.mp hc))
    · exact Or.inl (hwhole.2 c hc)
    · rcases hfrac with rfl | ⟨ds, rfl, -, hds⟩
      · simp at hc
      · rcases List.mem_cons.mp hc with rfl | hc
        · exact Or.inr (Or.inr rfl)
        · exact Or.inl (hds c hc)

theorem isInteger_of_plain {word : Bytes} (h : PlainDecimal word) (hpoint : point ∉ word) :
    IsInteger word := by
  obtain ⟨⟨sgn, whole, frac, rfl, hsign, hne, hdigits, hfrac⟩⟩ := decimal_of_plain h
  obtain rfl : frac = [] := by
    rcases hfrac with hnil | ⟨ds, rfl, -⟩
    · exact hnil
    · simp at hpoint
  rw [List.append_nil]
  exact ⟨whole, hsign.imp (by rintro rfl; rfl) (by rintro rfl; rfl), hne, hdigits⟩

theorem isNumber_of_plain {word : Bytes} (h : PlainDecimal word) : IsNumber word := by
  obtain ⟨⟨sgn, whole, frac, rfl, hsign, hne, hdigits, hfrac⟩⟩ := decimal_of_plain h
  refine ⟨whole ++ frac, hsign.imp (by rintro rfl; rfl) (by rintro rfl; rfl), by simp [hne], ?_⟩
  rcases hfrac with rfl | ⟨ds, rfl, hds, hdsdigits⟩
  · rw [List.append_nil]
    exact Or.inl hdigits
  · exact Or.inr ⟨whole, ds, rfl, hds, hdigits, hdsdigits⟩

/-! ### Reading them -/

theorem isDigit_ne {c : UInt8} (h : isDigit c) : c ≠ minus ∧ c ≠ point := by
  constructor <;> rintro rfl <;> exact absurd h (by decide)

/-- The sign is dropped in front of digits. -/
theorem dropMinus_sign {sign u : Bytes} (hsign : sign = [] ∨ sign = [minus])
    (hu : ∀ c ∈ u.head?, c ≠ minus) : dropMinus (sign ++ u) = u := by
  rcases hsign with rfl | rfl
  · cases u with
    | nil => rfl
    | cons c u => simp [dropMinus, hu c rfl]
  · simp [dropMinus]

theorem taken_append {α : Type} {f : Lexer α} {word rest : Bytes} {a : α}
    (h : f (word ++ rest) = .ok (a, rest)) : Lexer.taken f (word ++ rest) = .ok ((a, word), rest) := by
  simp [Lexer.taken, h]

theorem dropWhile_digits {ds rest : Bytes} (hds : ∀ c ∈ ds, isDigit c)
    (hrest : ∀ c ∈ rest.head?, isDigit c = false) : (ds ++ rest).dropWhile isDigit = rest := by
  induction ds with
  | nil =>
    cases rest with
    | nil => rfl
    | cons c rest => simp [hrest c rfl]
  | cons c ds ih =>
    rw [List.cons_append, List.dropWhile_cons_of_pos (hds c List.mem_cons_self)]
    exact ih fun b hb => hds b (List.mem_cons_of_mem c hb)

theorem signed_eq {word ds : Bytes} (h : word = ds ∨ word = minus :: ds) :
    ∃ sgn, (sgn = [] ∨ sgn = [minus]) ∧ word = sgn ++ ds := by
  rcases h with rfl | rfl
  · exact ⟨[], Or.inl rfl, rfl⟩
  · exact ⟨[minus], Or.inr rfl, rfl⟩

theorem integer_word {word rest ret : Bytes} (hword : IsInteger word)
    (hrest : ∀ c ∈ rest.head?, isDigit c = false) :
    integer d ret (word ++ rest) = .ok (ret ++ word, rest) := by
  obtain ⟨ds, hform, hne, hdigits⟩ := hword
  obtain ⟨sgn, hsign, rfl⟩ := signed_eq hform
  obtain ⟨c, ds, rfl⟩ := List.exists_cons_of_ne_nil hne
  have hc := isDigit_ne (hdigits c List.mem_cons_self)
  have hlex : (do sign; digits : Lexer Unit) (sgn ++ c :: ds ++ rest) = .ok ((), rest) := by
    rw [List.append_assoc, Lexer.bind_apply, Text.sign, dropMinus_sign hsign (by simpa using hc.1)]
    simp only [Text.digits, dropWhile_digits hdigits hrest]
  have hok : integerWord (sgn ++ c :: ds) := by
    rcases hsign with rfl | rfl <;> simp [integerWord, hc.1]
  simp only [integer, Lexer.bind_apply, taken_append hlex, Lexer.ite_apply, hok, if_true,
    Lexer.pure_apply]

theorem numberRest_digits {ds t : Bytes} (hds : ∀ c ∈ ds, isDigit c) (has : Bool) :
    numberRest d has (ds ++ t) = numberRest d has t := by
  induction ds with
  | nil => rfl
  | cons c ds ih =>
    have hc := hds c List.mem_cons_self
    rw [List.cons_append, numberRest]
    simp only [hc, true_or, if_true, (isDigit_ne hc).2, false_and, if_false, decide_false,
      Bool.or_false]
    exact ih fun b hb => hds b (List.mem_cons_of_mem c hb)

theorem numberRest_stop {t : Bytes} (h : ∀ c ∈ t.head?, isDigit c = false ∧ c ≠ point) (has : Bool) :
    numberRest d has t = .ok (has, t) := by
  cases t with
  | nil => rfl
  | cons c t =>
    obtain ⟨hdigit, hpoint⟩ := h c rfl
    simp [numberRest, hdigit, hpoint]

/-- No point ends a text that digits end. -/
theorem getLast?_ne_point {u ds : Bytes} (hne : ds ≠ []) (hds : ∀ c ∈ ds, isDigit c) :
    (u ++ point :: ds).getLast? ≠ some point := by
  intro hu
  rw [List.getLast?_append, List.getLast?_cons_of_ne_nil hne] at hu
  have hlast : ds.getLast? = some point := by
    cases hl : ds.getLast? with
    | none => exact absurd (List.getLast?_eq_none_iff.mp hl) hne
    | some b => simpa [hl] using hu
  exact (isDigit_ne (hds _ (List.mem_of_getLast? hlast))).2 rfl

theorem number_word {word rest ret : Bytes} (hword : IsNumber word)
    (hrest : ∀ c ∈ rest.head?, isDigit c = false ∧ c ≠ point) :
    number d ret (word ++ rest) = .ok (ret ++ word, rest) := by
  obtain ⟨ds, hform, hne, hds⟩ := hword
  obtain ⟨sgn, hsign, rfl⟩ := signed_eq hform
  obtain ⟨has, hhead, hlex, hok⟩ : ∃ has, (∀ c ∈ (ds ++ rest).head?, c ≠ minus) ∧
      numberRest d false (ds ++ rest) = .ok (has, rest) ∧ numberWord has (sgn ++ ds) := by
    rcases hds with hdigits | ⟨whole, fraction, rfl, hfraction, hwhole, hdigits⟩
    · obtain ⟨c, ds, rfl⟩ := List.exists_cons_of_ne_nil hne
      have hc := isDigit_ne (hdigits c List.mem_cons_self)
      refine ⟨false, by simpa using hc.1, ?_, ?_⟩
      · rw [numberRest_digits hdigits, numberRest_stop hrest]
      · rcases hsign with rfl | rfl <;> simp [numberWord, hc.1, hc.2]
    · refine ⟨true, ?_, ?_, ?_⟩
      · cases whole with
        | nil =>
          have hne : point ≠ minus := by decide
          simpa using hne
        | cons c whole => simpa using (isDigit_ne (hwhole c List.mem_cons_self)).1
      · rw [List.append_assoc, numberRest_digits hwhole, List.cons_append, numberRest]
        simp only [or_true, if_true, Bool.false_eq_true, and_false, if_false, decide_true,
          Bool.or_true]
        rw [numberRest_digits hdigits, numberRest_stop hrest]
      · have hlength : fraction.length ≠ 0 := by simpa using hfraction
        have hlast := getLast?_ne_point (u := sgn ++ whole) hfraction hdigits
        rw [List.append_assoc] at hlast
        simp only [numberWord, ne_eq, Bool.true_eq_false, false_or, decide_eq_true_eq]
        refine ⟨by simp, Or.inl ?_, hlast⟩
        simp only [List.length_append, List.length_cons]
        omega
  have htaken : (do sign; numberRest d false : Lexer Bool) (sgn ++ ds ++ rest) =
      .ok (has, rest) := by
    rw [List.append_assoc, Lexer.bind_apply, Text.sign, dropMinus_sign hsign hhead]
    exact hlex
  simp only [number, Lexer.bind_apply, taken_append htaken, Lexer.ite_apply, hok, if_true,
    Lexer.pure_apply]

/-- A point behind a number without one is taken for a part of it. -/
theorem number_takes_point {word more ret out rest : Bytes} (hword : PlainDecimal word)
    (hpoint : point ∉ word) (h : number d ret (word ++ point :: more) = .ok (out, rest)) :
    ∃ ds, out = ret ++ (word ++ point :: ds) ∧ more = ds ++ rest ∧ IsNumber (word ++ point :: ds) := by
  obtain ⟨taken, htaken, hout, hnumber⟩ := number_eq_ok h
  obtain ⟨⟨sgn, whole, frac, rfl, hsign, hne, hdigits, hfrac⟩⟩ := decimal_of_plain hword
  obtain rfl : frac = [] := by
    rcases hfrac with hnil | ⟨ds, rfl, -⟩
    · exact hnil
    · simp at hpoint
  have hhead : ∀ c ∈ (whole ++ point :: more).head?, c ≠ minus := by
    obtain ⟨c, whole, rfl⟩ := List.exists_cons_of_ne_nil hne
    simpa using (isDigit_ne (hdigits c List.mem_cons_self)).1
  simp only [number, Lexer.bind_eq_ok_iff] at h
  obtain ⟨⟨has, w⟩, mid, hsigned, hif⟩ := h
  obtain ⟨hlex, -⟩ := signed_eq_ok hsigned
  rw [List.append_nil, List.append_assoc, dropMinus_sign hsign hhead, numberRest_digits hdigits,
    numberRest] at hlex
  simp only [or_true, if_true, Bool.false_eq_true, and_false, if_false, decide_true,
    Bool.or_true] at hlex
  obtain ⟨ds, hmore, -⟩ := numberRest_eq_ok hlex
  obtain rfl : mid = rest := by
    rw [Lexer.ite_apply] at hif
    split at hif
    · exact (by simpa using hif : _ ∧ mid = rest).2
    · simp at hif
  have hsame : taken = sgn ++ (whole ++ []) ++ point :: ds := by
    apply @List.append_cancel_right _ _ mid
    rw [← htaken, hmore]
    simp
  exact ⟨ds, by rw [hout, hsame], hmore, hsame ▸ hnumber⟩

/-- What follows a word cannot go on with it. -/
def Ends (stop : UInt8 → Bool) (rest : Bytes) : PrimitiveType → Prop
  | .BOOLEAN => True
  | .INTEGER => ∀ c ∈ rest.head?, isDigit c = false
  | .NUMBER => ∀ c ∈ rest.head?, isDigit c = false ∧ c ≠ point
  | .STRING => ∀ c ∈ rest.head?, stop c

/-- No byte ends a string before its end. -/
def Unstopped (stop : UInt8 → Bool) (v : Json) : Prop :=
  ∀ s, v = .string s → ∀ c ∈ s, stop (leading c) = false

/-- The word of a value is read up to what cannot go on with it. -/
theorem value_word {stop : UInt8 → Bool} {type : PrimitiveType} {v : Json} {rest : Bytes}
    (hv : Sendable type v) (hstop : Unstopped stop v) (hrest : Ends stop rest type) (ret : Bytes) :
    value d stop ret type (wordOf v ++ rest) = .ok (ret ++ pieceOf v, rest) := by
  cases type with
  | BOOLEAN =>
    cases v with
    | bool b =>
      cases b with
      | true => simp [Text.value, boolean, wordOf, pieceOf]
      | false =>
        have hnot : (lit "true").isPrefixOf (lit "false" ++ rest) = false := rfl
        simp [Text.value, boolean, wordOf, pieceOf, hnot]
    | _ => exact hv.elim
  | INTEGER =>
    cases v with
    | number word => exact integer_word (isInteger_of_plain hv.1 hv.2) hrest
    | _ => exact hv.elim
  | NUMBER =>
    cases v with
    | number word => exact number_word (isNumber_of_plain hv) hrest
    | _ => exact hv.elim
  | STRING =>
    cases v with
    | string s =>
      have hdecode := decode_percentEncode (d := d) (hstop s rfl) hrest
      simp [Text.value, Text.string, Lexer.bind_apply, wordOf, pieceOf, hdecode]
    | _ => exact hv.elim

theorem reads_pieceOf {type : PrimitiveType} {v : Json} (hv : Sendable type v) :
    Reads (pieceOf v) v := by
  cases type with
  | BOOLEAN =>
    cases v with
    | bool b => cases b with
      | true => exact reads_true
      | false => exact reads_false
    | _ => exact hv.elim
  | INTEGER =>
    cases v with
    | number word => exact reads_number hv.1.1
    | _ => exact hv.elim
  | NUMBER =>
    cases v with
    | number word => exact reads_number hv.1
    | _ => exact hv.elim
  | STRING =>
    cases v with
    | string s => exact reads_string hv.2
    | _ => exact hv.elim

theorem wordOf_ne_nil {type : PrimitiveType} {v : Json} (hv : Sendable type v) : wordOf v ≠ [] := by
  cases type with
  | BOOLEAN =>
    cases v with
    | bool b => cases b <;> decide
    | _ => exact hv.elim
  | INTEGER =>
    cases v with
    | number word => exact (reads_number hv.1.1).ne_nil
    | _ => exact hv.elim
  | NUMBER =>
    cases v with
    | number word => exact (reads_number hv.1).ne_nil
    | _ => exact hv.elim
  | STRING =>
    cases v with
    | string s =>
      obtain ⟨c, s, rfl⟩ := List.exists_cons_of_ne_nil hv.1
      simp only [wordOf, percentEncode_cons, encodeByte]
      split <;> simp
    | _ => exact hv.elim

/-! ### Bytes that a scanner looks at -/

theorem isDigit_of_reserved {b : UInt8} (hb : unreserved b = false) : isDigit b = false := by
  simp only [unreserved, Bool.or_eq_false_iff] at hb
  exact hb.1.1.1.1.1.1

/-- In front of a separator a word ends, unless the separator is the point behind a number. -/
theorem ends_of_head {b : UInt8} {rest : Bytes} {type : PrimitiveType} (hhead : rest.head? = some b)
    (hdigit : isDigit b = false) (hpoint : type = .NUMBER → b ≠ point) : Ends (· = b) rest type := by
  have hb : ∀ c ∈ rest.head?, c = b := by
    intro c hc
    exact Option.some.inj (hc.symm.trans hhead)
  cases type with
  | BOOLEAN => trivial
  | INTEGER => exact fun c hc => hb c hc ▸ hdigit
  | NUMBER => exact fun c hc => hb c hc ▸ ⟨hdigit, hpoint rfl⟩
  | STRING => exact fun c hc => by simp [hb c hc]

theorem not_mem_of_apart {b : UInt8} {t : Bytes} (h : ¬[b] <:+: t) : b ∉ t := by
  intro hmem
  obtain ⟨s, r, rfl⟩ := List.append_of_mem hmem
  exact h ⟨s, r, by simp⟩

theorem leading_ne {b : UInt8} (hb : unreserved b = false) (hpercent : b ≠ percent) (c : UInt8) :
    leading c ≠ b := by
  unfold leading
  split
  · rename_i hc
    rintro rfl
    rw [hb] at hc
    exact Bool.false_ne_true hc
  · exact hpercent.symm

theorem leading_mem {c : UInt8} {s : Bytes} (hc : c ∈ s) : leading c ∈ percentEncode s := by
  apply List.mem_flatMap.mpr
  refine ⟨c, hc, ?_⟩
  unfold leading encodeByte
  split <;> simp

/-- A byte that is neither unreserved nor the percent sign ends no encoded string before its end. -/
theorem unstopped_of_reserved {b : UInt8} (hb : unreserved b = false) (hpercent : b ≠ percent)
    (v : Json) : Unstopped (· = b) v := fun s _ c _ => by
  simpa using leading_ne hb hpercent c

/-- Nor does a byte that the word does not have. -/
theorem unstopped_of_not_mem {b : UInt8} {v : Json} (h : b ∉ wordOf v) : Unstopped (· = b) v := by
  rintro s rfl c hc
  simpa using fun e : leading c = b => h (e ▸ leading_mem hc)

end OasValidator.Text
