import OasValidator.Library.JsonText

/-! What may stand next to what in a JSON text.  A scan of a text keeps what stood last outside of
strings, and gets stuck where two marks stand together that never do in a text that is read: this
refutes texts by a look at one place in them. -/

namespace Library.Json

/-- What stood last outside of strings. -/
inductive Last where
  | start
  | opening
  | comma
  | colon
  | closing
  | string
  | other
  deriving DecidableEq

namespace Last

/-- A value may follow. -/
def Awaits (last : Last) : Prop := last = .start ∨ last = .opening ∨ last = .comma ∨ last = .colon

/-- A value has ended. -/
def Ended (last : Last) : Prop := last = .closing ∨ last = .string ∨ last = .other

instance (last : Last) : Decidable last.Awaits := inferInstanceAs (Decidable (_ ∨ _))

instance (last : Last) : Decidable last.Ended := inferInstanceAs (Decidable (_ ∨ _))

end Last

inductive Scan where
  | outside (last : Last)
  | inside
  | escaped
  deriving DecidableEq

def step : Scan → UInt8 → Option Scan
  | .inside, c =>
    if c = quote then some (.outside .string)
    else if c = backslash then some .escaped
    else some .inside
  | .escaped, _ => some .inside
  | .outside last, c =>
    if isSpace c then some (.outside last)
    else if c = quote then if last.Awaits then some .inside else none
    else if c = '\x7b'.toUInt8 ∨ c = '['.toUInt8 then
      if last.Awaits then some (.outside .opening) else none
    else if c = '\x7d'.toUInt8 ∨ c = ']'.toUInt8 then
      if last = .opening ∨ last.Ended then some (.outside .closing) else none
    else if c = ','.toUInt8 then if last.Ended then some (.outside .comma) else none
    else if c = ':'.toUInt8 then if last = .string then some (.outside .colon) else none
    else if last.Awaits ∨ last = .other then some (.outside .other)
    else none

def run (scan : Scan) : List UInt8 → Option Scan
  | [] => some scan
  | c :: t => (step scan c).bind fun scan => run scan t

@[simp] theorem run_nil (scan : Scan) : run scan [] = some scan := rfl

theorem run_append (scan : Scan) (s t : List UInt8) :
    run scan (s ++ t) = (run scan s).bind fun scan => run scan t := by
  induction s generalizing scan with
  | nil => rfl
  | cons c s ih => simp only [List.cons_append, run, Option.bind_assoc, ih]

/-- A scan that gets stuck stays stuck. -/
theorem run_append_none {scan : Scan} {s : List UInt8} (h : run scan s = none) (t : List UInt8) :
    run scan (s ++ t) = none := by
  rw [run_append, h]
  rfl

theorem run_append_some {scan scan' : Scan} {s : List UInt8} (h : run scan s = some scan')
    (t : List UInt8) : run scan (s ++ t) = run scan' t := by
  rw [run_append, h]
  rfl

/-! ### Strings -/

theorem hexValue_ne {c : UInt8} {n : Nat} (h : hexValue c = some n) :
    c ≠ quote ∧ c ≠ backslash ∧ c ≠ 0 := by
  refine ⟨?_, ?_, ?_⟩ <;> rintro rfl <;> exact absurd h (by decide +revert)

theorem step_inside {c : UInt8} (hquote : c ≠ quote) (hback : c ≠ backslash) :
    step .inside c = some .inside := by
  rw [step, if_neg hquote, if_neg hback]

theorem hexFour_run {t rest : List UInt8} {n : Nat} (h : hexFour t = some (n, rest)) :
    ∃ p, t = p ++ rest ∧ 0 ∉ p ∧ run .inside p = some .inside := by
  rcases t with _ | ⟨a, _ | ⟨b, _ | ⟨c, _ | ⟨d, t⟩⟩⟩⟩
  · simp [hexFour] at h
  · simp [hexFour] at h
  · simp [hexFour] at h
  · simp [hexFour] at h
  simp only [hexFour, Option.bind_eq_bind, Option.bind_eq_some_iff, Option.some.injEq,
    Prod.mk.injEq] at h
  obtain ⟨_, ha, _, hb, _, hc, _, hd, -, rfl⟩ := h
  have hinside : ∀ {c : UInt8} {x : Nat}, hexValue c = some x → step .inside c = some .inside :=
    fun hx => step_inside (hexValue_ne hx).1 (hexValue_ne hx).2.1
  refine ⟨[a, b, c, d], rfl, ?_, ?_⟩
  · simp [(hexValue_ne ha).2.2.symm, (hexValue_ne hb).2.2.symm, (hexValue_ne hc).2.2.symm,
      (hexValue_ne hd).2.2.symm]
  · simp only [run, hinside ha, hinside hb, hinside hc, hinside hd, Option.bind_some]

theorem escape_run {t out rest : List UInt8} (h : escape t = some (out, rest)) :
    ∃ p, t = p ++ rest ∧ 0 ∉ p ∧ run .escaped p = some .inside := by
  rcases t with _ | ⟨e, t⟩
  · simp [escape] at h
  rw [escape] at h
  split at h
  · rename_i he
    have hzero : (0 : UInt8) ≠ e := by
      rw [he]
      decide
    cases hx : hexFour t with
    | none => simp [hx] at h
    | some q =>
      obtain ⟨n, mid⟩ := q
      obtain ⟨p, rfl, hnul, hp⟩ := hexFour_run hx
      simp only [hx] at h
      split at h
      · obtain ⟨rfl, rfl⟩ := Prod.mk.inj (Option.some.inj h)
        exact ⟨e :: p, rfl, by simp [hzero, hnul], by simpa [run, step] using hp⟩
      · split at h
        · -- a surrogate, with an escape for the other half behind it
          obtain ⟨⟨m, rest'⟩, hs, heq⟩ := Option.map_eq_some_iff.mp h
          obtain ⟨rfl, rfl⟩ := Prod.mk.inj heq
          rcases mid with _ | ⟨s, _ | ⟨u, mid⟩⟩
          · simp [surrogate] at hs
          · simp [surrogate] at hs
          rw [surrogate] at hs
          split at hs
          · rename_i hsu
            cases hy : hexFour mid with
            | none => simp [hy] at hs
            | some q =>
              obtain ⟨m', rest2⟩ := q
              obtain ⟨p', rfl, hnul', hp'⟩ := hexFour_run hy
              simp only [hy] at hs
              split at hs
              · obtain rfl : rest2 = rest' := (Prod.mk.inj (Option.some.inj hs)).2
                have hsu' : (0 : UInt8) ≠ s ∧ (0 : UInt8) ≠ u := by
                  rw [hsu.1, hsu.2]
                  decide
                refine ⟨e :: (p ++ (s :: u :: p')), by simp, by simp [hzero, hnul, hsu', hnul'], ?_⟩
                have hback : step .inside s = some .escaped := by
                  rw [hsu.1]
                  decide
                have hchar : step .escaped u = some .inside := rfl
                rw [run, step, Option.bind_some, run_append_some hp, run, hback, Option.bind_some,
                  run, hchar, Option.bind_some, hp']
              · simp at hs
          · simp at hs
        · simp at h
  · obtain ⟨c, hchar, rfl, rfl⟩ : ∃ c, escapeChar e = some c ∧ [c] = out ∧ t = rest := by
      simpa using h
    have hzero : (0 : UInt8) ≠ e := by
      rintro rfl
      simp [show escapeChar 0 = none by decide] at hchar
    exact ⟨[e], rfl, by simpa using hzero, rfl⟩

theorem stringBody_run {n : Nat} {t v rest : List UInt8} (h : stringBody n t = some (v, rest)) :
    ∃ p, t = p ++ rest ∧ 0 ∉ p ∧ run .inside p = some (.outside .string) := by
  induction n generalizing t v with
  | zero => simp [stringBody] at h
  | succ n ih =>
    cases t with
    | nil => simp [stringBody] at h
    | cons c t =>
      rw [stringBody] at h
      split at h
      · rename_i hc
        obtain ⟨rfl, rfl⟩ := Prod.mk.inj (Option.some.inj h)
        exact ⟨[c], rfl, by simp [hc, show (0 : UInt8) ≠ quote by decide], by simp [run, step, hc]⟩
      · rename_i hquote
        split at h
        · rename_i hback
          obtain ⟨⟨out, mid⟩, hesc, hrest⟩ := Option.bind_eq_some_iff.mp h
          obtain ⟨⟨v', rest'⟩, hrec, heq⟩ := Option.map_eq_some_iff.mp hrest
          obtain ⟨rfl, rfl⟩ := Prod.mk.inj heq
          obtain ⟨p, rfl, hnul, hp⟩ := escape_run hesc
          obtain ⟨p', rfl, hnul', hp'⟩ := ih hrec
          have hzero : (0 : UInt8) ≠ c := by
            rw [hback]
            decide
          refine ⟨c :: (p ++ p'), by simp, by simp [hzero, hnul, hnul'], ?_⟩
          have hstep : step .inside c = some .escaped := by simp [step, hback]; decide
          rw [run, hstep, Option.bind_some, run_append_some hp, hp']
        · rename_i hback
          split at h
          · simp at h
          · rename_i hcontrol
            obtain ⟨⟨v', rest'⟩, hrec, heq⟩ := Option.map_eq_some_iff.mp h
            obtain ⟨rfl, rfl⟩ := Prod.mk.inj heq
            obtain ⟨p, rfl, hnul, hp⟩ := ih hrec
            have hzero : (0 : UInt8) ≠ c := by
              rintro rfl
              exact hcontrol (by decide)
            refine ⟨c :: p, rfl, by simp [hzero, hnul], ?_⟩
            rw [run, step_inside hquote hback, Option.bind_some, hp]

/-! ### What is read is scanned -/

/-- What is in front of `rest` in `t` is scanned from `last` to `last'`. -/
def Scanned (last last' : Last) (t rest : List UInt8) : Prop :=
  ∃ p, t = p ++ rest ∧ run (.outside last) p = some (.outside last')

theorem Scanned.trans {a b c : Last} {t u w : List UInt8} (h : Scanned a b t u)
    (h' : Scanned b c u w) : Scanned a c t w := by
  obtain ⟨p, rfl, hp⟩ := h
  obtain ⟨q, rfl, hq⟩ := h'
  exact ⟨p ++ q, by simp, by rw [run_append_some hp, hq]⟩

theorem Scanned.mark {a b : Last} {c : UInt8} (h : step (.outside a) c = some (.outside b))
    (t : List UInt8) : Scanned a b (c :: t) t :=
  ⟨[c], rfl, by rw [run, h]; rfl⟩

theorem scanned_skipSpace (last : Last) (t : List UInt8) : Scanned last last t (skipSpace t) := by
  induction t with
  | nil => exact ⟨[], rfl, rfl⟩
  | cons c t ih =>
    by_cases hc : isSpace c
    · have hskip : skipSpace (c :: t) = skipSpace t := List.dropWhile_cons_of_pos hc
      rw [hskip]
      exact (Scanned.mark (by rw [step, if_pos hc]) t).trans ih
    · rw [skipSpace_cons (by simpa using hc)]
      exact ⟨[], rfl, rfl⟩

/-- A byte of a number or of a literal. -/
def IsWordByte (c : UInt8) : Prop :=
  isSpace c = false ∧ c ≠ quote ∧ c ≠ '\x7b'.toUInt8 ∧ c ≠ '['.toUInt8 ∧ c ≠ '\x7d'.toUInt8 ∧
    c ≠ ']'.toUInt8 ∧ c ≠ ','.toUInt8 ∧ c ≠ ':'.toUInt8

instance (c : UInt8) : Decidable (IsWordByte c) := inferInstanceAs (Decidable (_ ∧ _))

theorem scanned_word {w : List UInt8} (hne : w ≠ []) (hw : ∀ c ∈ w, IsWordByte c) {last : Last}
    (hlast : last.Awaits) (rest : List UInt8) : Scanned last .other (w ++ rest) rest := by
  have hstep : ∀ {c : UInt8} {last : Last}, IsWordByte c → last.Awaits ∨ last = .other →
      step (.outside last) c = some (.outside .other) := by
    rintro c last ⟨hspace, hquote, hbrace, hbracket, hclose, hclose', hcomma, hcolon⟩ hlast
    simp [step, hspace, hquote, hbrace, hbracket, hclose, hclose', hcomma, hcolon, hlast]
  have hrun : ∀ {w : List UInt8}, (∀ c ∈ w, IsWordByte c) →
      run (.outside .other) w = some (.outside .other) := by
    intro w hw
    induction w with
    | nil => rfl
    | cons c w ih =>
      rw [run, hstep (hw c List.mem_cons_self) (Or.inr rfl), Option.bind_some,
        ih fun b hb => hw b (List.mem_cons_of_mem c hb)]
  obtain ⟨c, w, rfl⟩ := List.exists_cons_of_ne_nil hne
  refine ⟨c :: w, rfl, ?_⟩
  rw [run, hstep (hw c List.mem_cons_self) (Or.inl hlast), Option.bind_some,
    hrun fun b hb => hw b (List.mem_cons_of_mem c hb)]

theorem isWordByte_of_number {c : UInt8} (h : isNumberByte c) : IsWordByte c := by
  have hne : ∀ b : UInt8, isNumberByte b = false → c ≠ b := by
    rintro b hb rfl
    rw [hb] at h
    exact Bool.false_ne_true h
  refine ⟨?_, hne _ (by decide), hne _ (by decide), hne _ (by decide), hne _ (by decide),
    hne _ (by decide), hne _ (by decide), hne _ (by decide)⟩
  by_contra hs
  simp only [isSpace, Bool.not_eq_false, decide_eq_true_eq] at hs
  rcases hs with rfl | rfl | rfl | rfl <;> exact absurd h (by decide)

/-- A string behind its quote. -/
theorem scanned_string {last : Last} (hlast : last.Awaits) {t v rest : List UInt8}
    (h : string t = some (v, rest)) : Scanned last .string (quote :: t) rest := by
  obtain ⟨p, rfl, -, hp⟩ := stringBody_run h
  have hstep : step (.outside last) quote = some .inside := by
    have hspace : isSpace quote = false := by decide
    simp [step, hspace, hlast]
  exact ⟨quote :: p, rfl, by rw [run, hstep, Option.bind_some, hp]⟩

theorem scanned_literal {word t rest : List UInt8} (h : literal word t = some rest) (hne : word ≠ [])
    (hword : word.all (fun c => decide (IsWordByte c)) = true) {last : Last} (hlast : last.Awaits) :
    Scanned last .other t rest := by
  rw [literal_eq_some h]
  exact scanned_word hne (by simpa using hword) hlast rest

theorem scanned_number {t w rest : List UInt8} (h : number t = some (w, rest)) {last : Last}
    (hlast : last.Awaits) : Scanned last .other t rest := by
  obtain ⟨rfl, hbytes⟩ := number_eq_some h
  refine scanned_word ?_ (fun c hc => isWordByte_of_number (hbytes c hc)) hlast rest
  rintro rfl
  simp only [number, Option.bind_eq_bind, Option.bind_eq_some_iff, Prod.exists] at h
  obtain ⟨whole, t1, hwhole, frac, t2, -, exp, t3, -, heq⟩ := h
  have hempty := (Prod.mk.inj (Option.some.inj heq)).1
  have hwhole_nil : whole = [] := by
    simp only [List.append_eq_nil_iff] at hempty
    exact hempty.1.1.2
  subst hwhole_nil
  obtain ⟨u, hu⟩ : ∃ u, wholePart u = some ([], t1) := ⟨_, hwhole⟩
  cases u with
  | nil => simp [wholePart] at hu
  | cons c u =>
    simp only [wholePart, digits] at hu
    split at hu
    · simp at hu
    · split at hu
      · simp at hu
      · rename_i hne
        exact hne (Prod.mk.inj (Option.some.inj hu)).1

/-- The marks between values. -/
theorem step_open {last : Last} (h : last.Awaits) {c : UInt8}
    (hc : c = '\x7b'.toUInt8 ∨ c = '['.toUInt8) :
    step (.outside last) c = some (.outside .opening) := by
  rcases hc with rfl | rfl <;> rcases h with rfl | rfl | rfl | rfl <;> decide

theorem step_close {last : Last} (h : last = .opening ∨ last.Ended) {c : UInt8}
    (hc : c = '\x7d'.toUInt8 ∨ c = ']'.toUInt8) :
    step (.outside last) c = some (.outside .closing) := by
  rcases hc with rfl | rfl <;> rcases h with rfl | rfl | rfl | rfl <;> decide

theorem step_comma {last : Last} (h : last.Ended) :
    step (.outside last) ','.toUInt8 = some (.outside .comma) := by
  rcases h with rfl | rfl | rfl <;> decide

theorem step_colon : step (.outside .string) ':'.toUInt8 = some (.outside .colon) := by decide

/-- What the parser may move over, as a relation of what stood last before and behind it and of the
texts from there on. -/
structure Moves (R : Last → Last → List UInt8 → List UInt8 → Prop) : Prop where
  trans {a b c t u w} : R a b t u → R b c u w → R a c t w
  space (last t) : R last last t (skipSpace t)
  opening {last c} (t) : last.Awaits → c = '\x7b'.toUInt8 ∨ c = '['.toUInt8 → R last .opening (c :: t) t
  closing {last c} (t) : last = .opening ∨ last.Ended → c = '\x7d'.toUInt8 ∨ c = ']'.toUInt8 →
    R last .closing (c :: t) t
  comma {last} (t) : last.Ended → R last .comma (','.toUInt8 :: t) t
  colon (t) : R .string .colon (':'.toUInt8 :: t) t
  string {last t v rest} : last.Awaits → string t = some (v, rest) → R last .string (quote :: t) rest
  literal {last word t rest} : last.Awaits → word = trueWord ∨ word = falseWord ∨ word = nullWord →
    literal word t = some rest → R last .other t rest
  number {last t w rest} : last.Awaits → number t = some (w, rest) → R last .other t rest

section

variable {R : Last → Last → List UInt8 → List UInt8 → Prop} {n : Nat}

/-- The parser moves over a value where one is due. -/
def MovesValue (R : Last → Last → List UInt8 → List UInt8 → Prop) (n : Nat) : Prop :=
  ∀ {t v rest last}, last.Awaits → value n t = some (v, rest) → ∃ last', last'.Ended ∧ R last last' t rest

/-- The parser moves over the values up to the closing bracket. -/
def MovesElements (R : Last → Last → List UInt8 → List UInt8 → Prop) (n : Nat) : Prop :=
  ∀ {t vs rest last}, last.Awaits → elements n t = some (vs, rest) → R last .closing t rest

/-- The parser moves over the members up to the closing brace. -/
def MovesMembers (R : Last → Last → List UInt8 → List UInt8 → Prop) (n : Nat) : Prop :=
  ∀ {t ms rest last}, last.Awaits → members n t = some (ms, rest) → R last .closing t rest

theorem Moves.next (hR : Moves R) {last : Last} {t u : List UInt8} {c : UInt8}
    (h : skipSpace t = c :: u) : R last last t (c :: u) :=
  h ▸ hR.space last t

theorem Moves.value_succ (hR : Moves R) (ihelements : MovesElements R n)
    (ihmembers : MovesMembers R n) : MovesValue R (n + 1) := by
  intro t v rest last hlast h
  rw [Json.value] at h
  cases hskip : skipSpace t with
  | nil => simp [hskip] at h
  | cons c u =>
    have hnext : R last last t (c :: u) := hR.next hskip
    simp only [hskip] at h
    split at h
    · rename_i hc
      obtain ⟨⟨s, r⟩, hs, heq⟩ := Option.map_eq_some_iff.mp h
      obtain ⟨-, rfl⟩ := Prod.mk.inj heq
      exact ⟨_, Or.inr (Or.inl rfl), hR.trans hnext (hc ▸ hR.string hlast hs)⟩
    split at h
    · rename_i hc
      have hopen := hR.trans hnext (hR.opening u hlast (Or.inl hc))
      cases hskip' : skipSpace u with
      | nil => simp [hskip'] at h
      | cons b w =>
        have hnext' := hR.trans hopen (hR.next hskip')
        simp only [hskip'] at h
        split at h
        · rename_i hb
          obtain ⟨-, rfl⟩ := Prod.mk.inj (Option.some.inj h)
          exact ⟨_, Or.inl rfl, hR.trans hnext' (hR.closing w (Or.inl rfl) (Or.inl hb))⟩
        · obtain ⟨⟨ms, r⟩, hms, heq⟩ := Option.map_eq_some_iff.mp h
          obtain ⟨-, rfl⟩ := Prod.mk.inj heq
          exact ⟨_, Or.inl rfl, hR.trans hnext' (ihmembers (Or.inr (Or.inl rfl)) hms)⟩
    split at h
    · rename_i hc
      have hopen := hR.trans hnext (hR.opening u hlast (Or.inr hc))
      cases hskip' : skipSpace u with
      | nil => simp [hskip'] at h
      | cons b w =>
        have hnext' := hR.trans hopen (hR.next hskip')
        simp only [hskip'] at h
        split at h
        · rename_i hb
          obtain ⟨-, rfl⟩ := Prod.mk.inj (Option.some.inj h)
          exact ⟨_, Or.inl rfl, hR.trans hnext' (hR.closing w (Or.inl rfl) (Or.inr hb))⟩
        · obtain ⟨⟨vs, r⟩, hvs, heq⟩ := Option.map_eq_some_iff.mp h
          obtain ⟨-, rfl⟩ := Prod.mk.inj heq
          exact ⟨_, Or.inl rfl, hR.trans hnext' (ihelements (Or.inr (Or.inl rfl)) hvs)⟩
    have hother : Last.other.Ended := Or.inr (Or.inr rfl)
    split at h
    · obtain ⟨r, hlit, heq⟩ := Option.map_eq_some_iff.mp h
      obtain ⟨-, rfl⟩ := Prod.mk.inj heq
      exact ⟨_, hother, hR.trans hnext (hR.literal hlast (Or.inl rfl) hlit)⟩
    split at h
    · obtain ⟨r, hlit, heq⟩ := Option.map_eq_some_iff.mp h
      obtain ⟨-, rfl⟩ := Prod.mk.inj heq
      exact ⟨_, hother, hR.trans hnext (hR.literal hlast (Or.inr (Or.inl rfl)) hlit)⟩
    split at h
    · obtain ⟨r, hlit, heq⟩ := Option.map_eq_some_iff.mp h
      obtain ⟨-, rfl⟩ := Prod.mk.inj heq
      exact ⟨_, hother, hR.trans hnext (hR.literal hlast (Or.inr (Or.inr rfl)) hlit)⟩
    · obtain ⟨⟨w, r⟩, hnumber, heq⟩ := Option.map_eq_some_iff.mp h
      obtain ⟨-, rfl⟩ := Prod.mk.inj heq
      exact ⟨_, hother, hR.trans hnext (hR.number hlast hnumber)⟩

theorem Moves.elements_succ (hR : Moves R) (ihvalue : MovesValue R n) (ihelements : MovesElements R n) :
    MovesElements R (n + 1) := by
  intro t vs rest last hlast h
  rw [elements] at h
  obtain ⟨⟨v, mid⟩, hv, h'⟩ := Option.bind_eq_some_iff.mp h
  obtain ⟨last', hended, hscan⟩ := ihvalue hlast hv
  cases hskip : skipSpace mid with
  | nil => simp [hskip] at h'
  | cons c u =>
    have hnext := hR.trans hscan (hR.next hskip)
    simp only [hskip] at h'
    split at h'
    · rename_i hc
      obtain ⟨⟨vs', r⟩, hvs, heq⟩ := Option.map_eq_some_iff.mp h'
      obtain ⟨-, rfl⟩ := Prod.mk.inj heq
      exact hR.trans (hR.trans hnext (hc ▸ hR.comma u hended))
        (ihelements (Or.inr (Or.inr (Or.inl rfl))) hvs)
    · split at h'
      · rename_i hc
        obtain ⟨-, rfl⟩ := Prod.mk.inj (Option.some.inj h')
        exact hR.trans hnext (hR.closing u (Or.inr hended) (Or.inr hc))
      · simp at h'

theorem Moves.members_succ (hR : Moves R) (ihvalue : MovesValue R n) (ihmembers : MovesMembers R n) :
    MovesMembers R (n + 1) := by
  intro t ms rest last hlast h
  rw [members] at h
  cases hskip : skipSpace t with
  | nil => simp [hskip] at h
  | cons c u =>
    have hnext : R last last t (c :: u) := hR.next hskip
    simp only [hskip] at h
    split at h
    · rename_i hc
      obtain ⟨⟨k, t1⟩, hk, h1⟩ := Option.bind_eq_some_iff.mp h
      have hname := hR.trans hnext (hc ▸ hR.string hlast hk)
      cases hskip1 : skipSpace t1 with
      | nil => simp [hskip1] at h1
      | cons c1 u1 =>
        have hnext1 := hR.trans hname (hR.next hskip1)
        simp only [hskip1] at h1
        split at h1
        · rename_i hc1
          have hcolon := hR.trans hnext1 (hc1 ▸ hR.colon u1)
          obtain ⟨⟨v, t2⟩, hv, h2⟩ := Option.bind_eq_some_iff.mp h1
          obtain ⟨last', hended, hscan⟩ := ihvalue (Or.inr (Or.inr (Or.inr rfl))) hv
          cases hskip2 : skipSpace t2 with
          | nil => simp [hskip2] at h2
          | cons c2 u2 =>
            have hnext2 := hR.trans (hR.trans hcolon hscan) (hR.next hskip2)
            simp only [hskip2] at h2
            split at h2
            · rename_i hc2
              obtain ⟨⟨ms', r⟩, hms, heq⟩ := Option.map_eq_some_iff.mp h2
              obtain ⟨-, rfl⟩ := Prod.mk.inj heq
              exact hR.trans (hR.trans hnext2 (hc2 ▸ hR.comma u2 hended))
                (ihmembers (Or.inr (Or.inr (Or.inl rfl))) hms)
            · split at h2
              · rename_i hc2
                obtain ⟨-, rfl⟩ := Prod.mk.inj (Option.some.inj h2)
                exact hR.trans hnext2 (hR.closing u2 (Or.inr hended) (Or.inl hc2))
              · simp at h2
        · simp at h1
    · simp at h

/-- The parser moves over a value, and over the values and the members up to the closing mark, each
where a value is due. -/
theorem Moves.value (hR : Moves R) (n : Nat) :
    MovesValue R n ∧ MovesElements R n ∧ MovesMembers R n := by
  induction n with
  | zero => simp [MovesValue, MovesElements, MovesMembers, Json.value, elements, members]
  | succ n ih =>
    obtain ⟨ihvalue, ihelements, ihmembers⟩ := ih
    exact ⟨hR.value_succ ihelements ihmembers, hR.elements_succ ihvalue ihelements,
      hR.members_succ ihvalue ihmembers⟩

end

theorem scanned_moves : Moves Scanned where
  trans := Scanned.trans
  space := scanned_skipSpace
  opening t hlast hc := .mark (step_open hlast hc) t
  closing t hlast hc := .mark (step_close hlast hc) t
  comma t hlast := .mark (step_comma hlast) t
  colon t := .mark step_colon t
  string hlast h := scanned_string hlast h
  literal hlast hword h := by
    rcases hword with rfl | rfl | rfl <;> exact scanned_literal h (by decide) (by decide) hlast
  number hlast h := scanned_number h hlast

/-- A text that is read is scanned to the end of a value. -/
theorem run_of_parse {t : List UInt8} {v : Value} (h : parse t = some v) :
    ∃ last, last.Ended ∧ run (.outside .start) t = some (.outside last) := by
  unfold parse at h
  split at h
  · rename_i w rest hvalue
    split at h
    · rename_i hrest
      obtain ⟨last, hended, hscan⟩ := (scanned_moves.value _).1 (Or.inl rfl) hvalue
      obtain ⟨p, hp, hrun⟩ := hscan.trans (scanned_skipSpace last rest)
      rw [hrest, List.append_nil] at hp
      exact ⟨last, hended, hp ▸ hrun⟩
    · simp at h
  · simp at h

/-- No byte that the parser moves over is NUL. -/
theorem nulFree_moves : Moves fun _ _ t rest => ∃ p, t = p ++ rest ∧ (0 : UInt8) ∉ p where
  trans := by
    rintro _ _ _ _ _ _ ⟨p, rfl, hp⟩ ⟨q, rfl, hq⟩
    exact ⟨p ++ q, by simp, by simp [hp, hq]⟩
  space _ t := by
    refine ⟨t.takeWhile isSpace, (List.takeWhile_append_dropWhile).symm, fun hmem => ?_⟩
    exact absurd (List.mem_takeWhile_imp hmem) (by decide)
  opening t _ hc := ⟨[_], rfl, by rcases hc with rfl | rfl <;> decide⟩
  closing t _ hc := ⟨[_], rfl, by rcases hc with rfl | rfl <;> decide⟩
  comma t _ := ⟨[_], rfl, by decide⟩
  colon t := ⟨[_], rfl, by decide⟩
  string _ h := by
    obtain ⟨p, rfl, hp, -⟩ := stringBody_run h
    exact ⟨quote :: p, rfl, by simp [hp, show (0 : UInt8) ≠ quote by decide]⟩
  literal _ hword h := ⟨_, literal_eq_some h, by rcases hword with rfl | rfl | rfl <;> decide⟩
  number _ h := by
    obtain ⟨rfl, hbytes⟩ := number_eq_some h
    exact ⟨_, rfl, fun hmem => absurd (hbytes 0 hmem) (by decide)⟩

theorem nulFree_of_parse {t : List UInt8} {v : Value} (h : parse t = some v) : 0 ∉ t := by
  unfold parse at h
  split at h
  · rename_i w rest hvalue
    split at h
    · rename_i hrest
      obtain ⟨last, -, p, rfl, hp⟩ := (nulFree_moves.value _).1 (Or.inl rfl : Last.start.Awaits) hvalue
      obtain ⟨q, hq, hq'⟩ := nulFree_moves.space .start rest
      rw [hrest, List.append_nil] at hq
      simp [hp, hq, hq']
    · simp at h
  · simp at h

/-- A text at which the scan gets stuck is not read. -/
theorem parse_eq_none {t : List UInt8} (h : run (.outside .start) t = none) : parse t = none := by
  cases hparse : parse t with
  | none => rfl
  | some v =>
    obtain ⟨last, -, hrun⟩ := run_of_parse hparse
    simp [h] at hrun

/-! ### Texts in a place where a value may stand -/

/-- Where a value may stand, the scan gets stuck in `t`. -/
def Stuck (t : List UInt8) : Prop := ∀ last : Last, last.Awaits → run (.outside last) t = none

/-- Where a value may stand, the scan leads to the end of a value. -/
def Completes (t : List UInt8) : Prop :=
  ∀ last : Last, last.Awaits → ∃ last' : Last, last'.Ended ∧ run (.outside last) t = some (.outside last')

theorem Stuck.append {t : List UInt8} (h : Stuck t) (r : List UInt8) : Stuck (t ++ r) :=
  fun last hlast => run_append_none (h last hlast) r

theorem not_completes_nil : ¬ Completes [] := by
  intro h
  obtain ⟨last', hended, hrun⟩ := h .start (by decide)
  obtain rfl : Last.start = last' := by simpa using hrun
  exact absurd hended (by decide)

theorem Stuck.not_completes {t : List UInt8} (h : Stuck t) : ¬ Completes t := by
  intro hcompletes
  obtain ⟨last', -, hrun⟩ := hcompletes .start (by decide)
  rw [h .start (by decide)] at hrun
  simp at hrun

theorem ParsesValue.completes {t : List UInt8} {v : Value} (h : ParsesValue t v) : Completes t := by
  intro last hlast
  have hvalue := h (t.length + 1) [] (by omega) (by simp)
  rw [List.append_nil] at hvalue
  obtain ⟨last', hended, p, hp, hrun⟩ := (scanned_moves.value _).1 hlast hvalue
  rw [List.append_nil] at hp
  exact ⟨last', hended, hp ▸ hrun⟩

theorem run_needsNoEscape {s : List UInt8} (h : NeedsNoEscape s) : run .inside s = some .inside := by
  induction s with
  | nil => rfl
  | cons c s ih =>
    have hc := h c List.mem_cons_self
    rw [run, step_inside hc.1 hc.2.1, Option.bind_some,
      ih fun b hb => h b (List.mem_cons_of_mem _ hb)]

theorem ParsesMember.completes {t : List UInt8} {m : List UInt8 × Value} (h : ParsesMember t m) :
    Completes t := by
  obtain ⟨hname, text, rfl, htext⟩ := h
  intro last hlast
  have hquote : step (.outside last) quote = some .inside := by
    simp only [step, show isSpace quote = false by decide]
    simp [hlast]
  have hend : step .inside quote = some (.outside .string) := rfl
  obtain ⟨last', hended, hrun⟩ := htext.completes .colon (by decide)
  refine ⟨last', hended, ?_⟩
  rw [memberText, run, hquote, Option.bind_some, run_append_some (run_needsNoEscape hname), run,
    hend, Option.bind_some, run, step_colon, Option.bind_some, hrun]

theorem completes_of_members {texts : List (List UInt8)} {ms : List (List UInt8 × Value)}
    (h : List.Forall₂ ParsesMember texts ms) : ∀ t ∈ texts, Completes t := by
  induction h with
  | nil => simp
  | cons ht _ ih => exact List.forall_mem_cons.mpr ⟨ht.completes, ih⟩

/-- Pieces with commas between them are scanned one after the other. -/
theorem commas_completes {texts : List (List UInt8)} (h : ∀ t ∈ texts, Completes t) (hne : texts ≠ []) :
    Completes (commas texts) := by
  induction texts with
  | nil => exact absurd rfl hne
  | cons t texts ih =>
    have ht := h t List.mem_cons_self
    cases texts with
    | nil => rwa [commas_singleton]
    | cons u texts =>
      intro last hlast
      obtain ⟨last', hended, hrun⟩ := ht last hlast
      rw [commas_cons_cons, run_append_some hrun, run, step_comma hended]
      exact ih (fun b hb => h b (List.mem_cons_of_mem _ hb)) (by simp) .comma (by decide)

/-- Where pieces with commas between them have one that is no value, the scan gets stuck before
the bracket behind them.  One empty piece alone leaves an empty array. -/
theorem commas_stuck {texts : List (List UInt8)} (h : ∀ t ∈ texts, t = [] ∨ Stuck t ∨ Completes t)
    (hbad : ∃ t ∈ texts, ¬ Completes t) {last : Last}
    (hlast : last = .comma ∨ (last = .opening ∧ texts ≠ [[]])) (r : List UInt8) :
    run (.outside last) (commas texts ++ ']'.toUInt8 :: r) = none := by
  have hawaits : last.Awaits := by
    rcases hlast with rfl | ⟨rfl, -⟩ <;> decide
  induction texts generalizing last with
  | nil => simp at hbad
  | cons t texts ih =>
    rcases h t List.mem_cons_self with rfl | ht | ht
    · cases texts with
      | nil =>
        obtain rfl : last = .comma := by simpa using hlast
        rw [commas_singleton]
        rfl
      | cons u texts =>
        have hcomma : step (.outside last) ','.toUInt8 = none := by
          rcases hlast with rfl | ⟨rfl, -⟩ <;> decide
        rw [commas_cons_cons, List.nil_append, List.cons_append, run, hcomma]
        rfl
    · obtain ⟨more, hmore⟩ := commas_cons t texts
      rw [hmore, List.append_assoc]
      exact run_append_none (ht last hawaits) _
    · obtain ⟨b, hb, hbp⟩ := hbad
      have hrest : b ∈ texts := by
        rcases List.mem_cons.mp hb with rfl | hb
        · exact absurd ht hbp
        · exact hb
      cases texts with
      | nil => simp at hrest
      | cons u texts =>
        obtain ⟨last', hended, hrun⟩ := ht last hawaits
        rw [commas_cons_cons, List.append_assoc, run_append_some hrun, List.cons_append, run,
          step_comma hended]
        exact ih (fun b hb => h b (List.mem_cons_of_mem _ hb)) ⟨b, hrest, hbp⟩ (Or.inl rfl)
          (by decide)

end Library.Json
