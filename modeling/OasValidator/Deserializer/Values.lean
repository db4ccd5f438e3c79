import Mathlib.Data.List.TakeWhile
import OasValidator.Deserializer.Text

/-! What a value is made of: the words that the functions on texts take, and the JSON text that a
word is turned into. -/

namespace OasValidator.Text

open Library.Scanning BaseDeserializer

variable (d : BaseDeserializer)

/-- The bytes that a percent-encoded text stands for, with a plus sign for a space. -/
def percentDecode : Bytes → Option Bytes
  | [] => some []
  | c :: t =>
    if c = percent then
      match t with
      | a :: b :: t =>
        if kHexLookupTable a < 0 ∨ kHexLookupTable b < 0 then none
        else (percentDecode t).map (charOf (kHexLookupTable a) (kHexLookupTable b) :: ·)
      | _ => none
    else (percentDecode t).map ((if c = '+'.toUInt8 then ' '.toUInt8 else c) :: ·)

/-- An optional sign in front of digits. -/
def IsInteger (word : Bytes) : Prop :=
  ∃ ds, (word = ds ∨ word = minus :: ds) ∧ ds ≠ [] ∧ ∀ c ∈ ds, isDigit c

/-- An optional sign in front of digits with at most one point among them, which digits follow. -/
def IsNumber (word : Bytes) : Prop :=
  ∃ ds, (word = ds ∨ word = minus :: ds) ∧ ds ≠ [] ∧
    ((∀ c ∈ ds, isDigit c) ∨ ∃ whole fraction, ds = whole ++ point :: fraction ∧ fraction ≠ [] ∧
      (∀ c ∈ whole, isDigit c) ∧ ∀ c ∈ fraction, isDigit c)

/-- The JSON text `piece` that the text `word` of a value is turned into. -/
def Writes (word piece : Bytes) : PrimitiveType → Prop
  | .BOOLEAN => (word = lit "true" ∨ word = lit "false") ∧ piece = word
  | .INTEGER => IsInteger word ∧ piece = word
  | .NUMBER => IsNumber word ∧ piece = word
  | .STRING => ∃ out, percentDecode word = some out ∧ piece = quote :: out ++ [quote]

section

variable {d}

theorem skipChar_eq_ok_iff {d : BaseDeserializer} {c : UInt8} {t rest : Bytes} {u : Unit} :
    skipChar d c t = .ok (u, rest) ↔ (t = [] ∧ rest = []) ∨ t = c :: rest := by
  cases t with
  | nil => simp [skipChar, eq_comm]
  | cons b t =>
    simp only [skipChar]
    split
    · simp_all
    · simp_all

theorem skipName_eq_ok_iff {t rest : Bytes} {u : Unit} :
    skipName d t = .ok (u, rest) ↔ t = d.paramName ++ rest := by
  unfold skipName
  split
  · rename_i h
    obtain ⟨t', rfl⟩ := List.isPrefixOf_iff_prefix.mp h
    simp
  · rename_i h
    simp only [reduceCtorEq, false_iff]
    rintro rfl
    exact h (List.isPrefixOf_iff_prefix.mpr (List.prefix_append _ _))

theorem boolean_eq_ok {ret t out rest : Bytes} (h : boolean d ret t = .ok (out, rest)) :
    ∃ word, t = word ++ rest ∧ out = ret ++ word ∧ (word = lit "true" ∨ word = lit "false") := by
  unfold boolean at h
  split at h
  · rename_i hpre
    obtain ⟨t', rfl⟩ := List.isPrefixOf_iff_prefix.mp hpre
    simp only [Except.ok.injEq, Prod.mk.injEq, List.drop_left] at h
    exact ⟨lit "true", by rw [h.2], h.1.symm, Or.inl rfl⟩
  · split at h
    · rename_i hpre
      obtain ⟨t', rfl⟩ := List.isPrefixOf_iff_prefix.mp hpre
      simp only [Except.ok.injEq, Prod.mk.injEq, List.drop_left] at h
      exact ⟨lit "false", by rw [h.2], h.1.symm, Or.inr rfl⟩
    · simp at h

theorem dropMinus_eq (t : Bytes) : t = dropMinus t ∨ t = minus :: dropMinus t := by
  cases t with
  | nil => exact Or.inl rfl
  | cons b t =>
    by_cases h : b = minus
    · simp [dropMinus, h]
    · simp [dropMinus, h]

/-- A word that a sign may start is what the lexer behind the sign takes, or has the sign in front
of it. -/
theorem signed_eq_ok {α : Type} {f : Lexer α} {t word mid : Bytes} {a : α}
    (h : Lexer.taken (sign >>= fun _ => f) t = .ok ((a, word), mid)) :
    f (dropMinus t) = .ok (a, mid) ∧
      ∀ ds, dropMinus t = ds ++ mid → (word = ds ∨ word = minus :: ds) ∧ t = word ++ mid := by
  obtain ⟨hlex, hword⟩ := Lexer.taken_eq_ok h
  refine ⟨hlex, fun ds hds => ?_⟩
  rcases dropMinus_eq t with ht | ht
  · have ht' : t = ds ++ mid := ht.trans hds
    exact ⟨Or.inl (hword ds ht'), by rw [hword ds ht']; exact ht'⟩
  · have ht' : t = (minus :: ds) ++ mid := by rw [List.cons_append, ← hds]; exact ht
    exact ⟨Or.inr (hword _ ht'), by rw [hword _ ht']; exact ht'⟩

theorem integer_eq_ok {ret t out rest : Bytes} (h : integer d ret t = .ok (out, rest)) :
    ∃ word, t = word ++ rest ∧ out = ret ++ word ∧ IsInteger word := by
  simp only [integer, Lexer.bind_eq_ok_iff] at h
  obtain ⟨⟨u, word⟩, mid, htaken, hif⟩ := h
  obtain ⟨hlex, hword⟩ := signed_eq_ok htaken
  have hmid : (dropMinus t).dropWhile isDigit = mid := by simpa [digits] using hlex
  obtain ⟨hform, ht⟩ := hword ((dropMinus t).takeWhile isDigit) (by
    rw [← hmid, List.takeWhile_append_dropWhile])
  rw [Lexer.ite_apply] at hif
  split at hif
  · rename_i hok
    obtain ⟨rfl, rfl⟩ : ret ++ word = out ∧ mid = rest := by simpa using hif
    refine ⟨word, ht, rfl, _, hform, ?_, fun c hc => List.mem_takeWhile_imp hc⟩
    intro hnil
    rw [hnil] at hform
    rcases hform with rfl | rfl <;> simp [integerWord] at hok
  · simp at hif

theorem numberRest_eq_ok {has has' : Bool} {t rest : Bytes}
    (h : numberRest d has t = .ok (has', rest)) :
    ∃ ds, t = ds ++ rest ∧ ((has' = has ∧ ∀ c ∈ ds, isDigit c) ∨
      has = false ∧ has' = true ∧ ∃ whole fraction, ds = whole ++ point :: fraction ∧
        (∀ c ∈ whole, isDigit c) ∧ ∀ c ∈ fraction, isDigit c) := by
  induction t generalizing has with
  | nil =>
    obtain ⟨rfl, rfl⟩ : has = has' ∧ [] = rest := by simpa [numberRest] using h
    exact ⟨[], rfl, Or.inl ⟨rfl, by simp⟩⟩
  | cons b t ih =>
    rw [numberRest] at h
    split at h
    · rename_i hb
      split at h
      · simp at h
      · rename_i hno
        obtain ⟨ds, rfl, hds⟩ := ih h
        refine ⟨b :: ds, rfl, ?_⟩
        by_cases hpoint : b = point
        · -- the first point: what follows has none
          have hfalse : has = false := by simpa [hpoint] using hno
          rcases hds with ⟨rfl, hd⟩ | ⟨hcontra, -⟩
          · exact Or.inr ⟨hfalse, by simp [hpoint], [], ds, by simp [hpoint], by simp, hd⟩
          · simp [hpoint] at hcontra
        · have hdigit : isDigit b := hb.resolve_right hpoint
          rcases hds with ⟨hhas, hd⟩ | ⟨hfalse, htrue, whole, fraction, rfl, hw, hf⟩
          · exact Or.inl ⟨by simpa [hpoint] using hhas, by simpa [hdigit] using hd⟩
          · exact Or.inr ⟨by simpa [hpoint] using hfalse, htrue, b :: whole, fraction, rfl,
              by simpa [hdigit] using hw, hf⟩
    · obtain ⟨rfl, rfl⟩ : has = has' ∧ b :: t = rest := by simpa using h
      exact ⟨[], rfl, Or.inl ⟨rfl, by simp⟩⟩

theorem number_eq_ok {ret t out rest : Bytes} (h : number d ret t = .ok (out, rest)) :
    ∃ word, t = word ++ rest ∧ out = ret ++ word ∧ IsNumber word := by
  simp only [number, Lexer.bind_eq_ok_iff] at h
  obtain ⟨⟨has, word⟩, mid, htaken, hif⟩ := h
  obtain ⟨hlex, hword⟩ := signed_eq_ok htaken
  obtain ⟨ds, hds, hform⟩ := numberRest_eq_ok hlex
  obtain ⟨hsign, ht⟩ := hword ds hds
  rw [Lexer.ite_apply] at hif
  split at hif
  · rename_i hok
    obtain ⟨rfl, rfl⟩ : ret ++ word = out ∧ mid = rest := by simpa using hif
    refine ⟨word, ht, rfl, ds, hsign, ?_, ?_⟩
    · rintro rfl
      rcases hsign with rfl | rfl <;> simp [numberWord] at hok
    · rcases hform with ⟨-, hd⟩ | ⟨-, rfl, whole, fraction, rfl, hw, hf⟩
      · exact Or.inl hd
      · refine Or.inr ⟨whole, fraction, rfl, ?_, hw, hf⟩
        rintro rfl
        rcases hsign with rfl | rfl <;> simp [numberWord, List.getLast?_cons] at hok
  · simp at hif

theorem decodeOne_eq_ok {c b : UInt8} {t rest : Bytes} (h : decodeOne d c t = .ok (b, rest)) :
    ∃ w, t = w ++ rest ∧ (∀ x ∈ w, 0 ≤ kHexLookupTable x) ∧
      ∀ s, percentDecode (c :: (w ++ s)) = (percentDecode s).map (b :: ·) := by
  unfold decodeOne at h
  split at h
  · rename_i hc
    rcases t with _ | ⟨x, _ | ⟨y, t⟩⟩
    · simp at h
    · simp at h
    · simp only at h
      split at h
      · simp at h
      · rename_i hhex
        obtain ⟨rfl, rfl⟩ : charOf (kHexLookupTable x) (kHexLookupTable y) = b ∧ t = rest := by
          simpa using h
        refine ⟨[x, y], rfl, by simpa [not_or] using hhex, fun s => ?_⟩
        rw [percentDecode.eq_def]
        simp [hc, hhex]
  · rename_i hc
    obtain ⟨rfl, rfl⟩ : (if c = '+'.toUInt8 then ' '.toUInt8 else c) = b ∧ t = rest := by
      simpa using h
    refine ⟨[], rfl, by simp, fun s => ?_⟩
    rw [percentDecode.eq_def]
    simp [hc]

/-- What was decoded is the text up to the first byte that `stop` holds of, where a digit of an
escape is no such byte. -/
theorem decode_eq_ok {stop : UInt8 → Bool} {t out rest : Bytes}
    (h : decode d stop t = .ok (out, rest)) :
    ∃ word, t = word ++ rest ∧ percentDecode word = some out ∧ (∀ b ∈ rest.head?, stop b) ∧
      ∀ b ∈ word, stop b → 0 ≤ kHexLookupTable b := by
  induction hn : t.length using Nat.strong_induction_on generalizing t out with
  | _ n ih =>
    cases t with
    | nil =>
      obtain ⟨rfl, rfl⟩ : [] = out ∧ [] = rest := by simpa [decode] using h
      exact ⟨[], rfl, rfl, by simp, by simp⟩
    | cons c t =>
      rw [decode_cons] at h
      split at h
      · rename_i hstop
        obtain ⟨rfl, rfl⟩ : [] = out ∧ c :: t = rest := by simpa using h
        exact ⟨[], rfl, rfl, by simpa using hstop, by simp⟩
      · rename_i hstop
        cases hone : decodeOne d c t with
        | error x => simp [hone] at h
        | ok p =>
          obtain ⟨b, mid⟩ := p
          obtain ⟨w, rfl, hhex, hdec⟩ := decodeOne_eq_ok hone
          simp only [hone] at h
          cases hrec : decode d stop mid with
          | error x => simp [hrec, Except.map] at h
          | ok q =>
            obtain ⟨rfl, rfl⟩ : b :: q.1 = out ∧ q.2 = rest := by simpa [hrec, Except.map] using h
            obtain ⟨word, hmid, hword, hhead, hin⟩ := ih mid.length (by simp at hn; omega) hrec rfl
            refine ⟨c :: (w ++ word), by simp [← hmid], by rw [hdec, hword]; rfl, hhead, ?_⟩
            intro x hx hs
            rcases List.mem_cons.mp hx with rfl | hx
            · exact absurd hs hstop
            · rcases List.mem_append.mp hx with hx | hx
              · exact hhex x hx
              · exact hin x hx hs

/-- What is put out goes behind what was there. -/
theorem value_ret (stop : UInt8 → Bool) (type : PrimitiveType) (t ret : Bytes) :
    value d stop ret type t = (value d stop [] type t).map fun p => (ret ++ p.1, p.2) := by
  cases type with
  | BOOLEAN =>
    simp only [value, boolean]
    split
    · rfl
    · split <;> rfl
  | INTEGER =>
    simp only [value, integer, Lexer.bind_apply]
    cases Lexer.taken _ t with
    | error x => rfl
    | ok p => simp only [Lexer.ite_apply]; split <;> rfl
  | NUMBER =>
    simp only [value, number, Lexer.bind_apply]
    cases Lexer.taken _ t with
    | error x => rfl
    | ok p => simp only [Lexer.ite_apply]; split <;> rfl
  | STRING =>
    simp only [value, string, Lexer.bind_apply]
    cases decode d stop t <;> rfl

/-- A value takes a word of the text, and writes what the word stands for.  A string ends where `stop`
says. -/
theorem value_eq_ok {stop : UInt8 → Bool} {ret t out rest : Bytes} {type : PrimitiveType}
    (h : value d stop ret type t = .ok (out, rest)) :
    ∃ word piece, t = word ++ rest ∧ out = ret ++ piece ∧ Writes word piece type ∧
      (type = .STRING → (∀ b ∈ rest.head?, stop b) ∧
        ∀ b ∈ word, stop b → 0 ≤ kHexLookupTable b) := by
  cases type with
  | BOOLEAN =>
    obtain ⟨word, ht, hout, hword⟩ := boolean_eq_ok h
    exact ⟨word, word, ht, hout, ⟨hword, rfl⟩, by simp⟩
  | INTEGER =>
    obtain ⟨word, ht, hout, hword⟩ := integer_eq_ok h
    exact ⟨word, word, ht, hout, ⟨hword, rfl⟩, by simp⟩
  | NUMBER =>
    obtain ⟨word, ht, hout, hword⟩ := number_eq_ok h
    exact ⟨word, word, ht, hout, ⟨hword, rfl⟩, by simp⟩
  | STRING =>
    obtain ⟨dec, mid, hdec, hpure⟩ := Lexer.bind_eq_ok_iff.mp h
    obtain ⟨rfl, rfl⟩ : ret ++ (quote :: dec ++ [quote]) = out ∧ mid = rest := by
      simpa using hpure
    obtain ⟨word, ht, hword, hrest, hin⟩ := decode_eq_ok hdec
    exact ⟨word, _, ht, rfl, ⟨dec, hword, rfl⟩, fun _ => ⟨hrest, hin⟩⟩

end

end OasValidator.Text
