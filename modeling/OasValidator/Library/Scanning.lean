import Mathlib.Data.List.Range
import Mathlib.Tactic.Common

/-! Scanners that move a cursor over a buffer, and what it means that one stays inside a range.  A
buffer is a function from indices to bytes, without end.  The cursor remembers the furthest byte that
was inspected, also when the scanner fails.  `Refines` relates a scanner to a function on the text of
the range: it reads nothing behind the range, and does what the function says. -/

namespace Library.Scanning

variable {β ε α γ : Type}

/-- A position in a buffer, and the index behind the furthest byte inspected so far. -/
structure Cursor where
  pos : Nat
  seen : Nat
  deriving DecidableEq

/-- A scanner returns or fails, and leaves the cursor somewhere in both cases. -/
def Scan (ε α : Type) := Cursor → Except ε α × Cursor

/-- A lexer takes a text to a result and the text that is left, or fails. -/
def Lexer (β ε α : Type) := List β → Except ε (α × List β)

instance : Monad (Scan ε) where
  pure a := fun c => (.ok a, c)
  bind m k := fun c =>
    match m c with
    | (.ok a, c') => k a c'
    | (.error x, c') => (.error x, c')

instance : Monad (Lexer β ε) where
  pure a := fun t => .ok (a, t)
  bind m k := fun t =>
    match m t with
    | .ok (a, rest) => k a rest
    | .error x => .error x

namespace Scan

def throw (x : ε) : Scan ε α := fun c => (.error x, c)

def position : Scan ε Nat := fun c => (.ok c.pos, c)

def advance (n : Nat) : Scan ε Unit := fun c => (.ok (), { c with pos := c.pos + n })

/-- The byte `k` places behind the cursor. -/
def peekAt (buf : Nat → β) (k : Nat) : Scan ε β := fun c =>
  (.ok (buf (c.pos + k)), { c with seen := max c.seen (c.pos + k + 1) })

def peek (buf : Nat → β) : Scan ε β := peekAt buf 0

/-- A choice by whether the cursor is before `e`. -/
def before (e : Nat) (m n : Scan ε α) : Scan ε α := do
  if (← position) < e then m else n

/-- The byte at the cursor while the cursor is before `e`. -/
def look (buf : Nat → β) (e : Nat) (onByte : β → Scan ε α) (atEnd : Scan ε α) : Scan ε α := do
  if (← position) < e then onByte (← peek buf) else atEnd

/-- Compares the bytes from `k` places behind the cursor on, up to the first difference. -/
def equalAt [DecidableEq β] (buf : Nat → β) : List β → Nat → Scan ε Bool
  | [], _ => pure true
  | b :: bs, k => do if (← peekAt buf k) = b then equalAt buf bs (k + 1) else pure false

/-- The next two bytes, one after the other, when the range up to `e` has them. -/
def lookTwo (buf : Nat → β) (e : Nat) (onBytes : β → β → Scan ε α) (short : Scan ε α) :
    Scan ε α := do
  if e ≤ (← position) + 1 then short
  else
    let a ← peek buf
    advance 1
    let b ← peek buf
    advance 1
    onBytes a b

/-- Whether the range up to `e` goes on with `bs` at the cursor. -/
def startsWith [DecidableEq β] (buf : Nat → β) (e : Nat) (bs : List β) : Scan ε Bool := do
  if e < (← position) + bs.length then pure false else equalAt buf bs 0

end Scan

namespace Lexer

def fail (x : ε) : Lexer β ε α := fun _ => .error x

def drop (n : Nat) : Lexer β ε Unit := fun t => .ok ((), t.drop n)

/-- Runs `f` and returns its result with what it took from the front of the text. -/
def taken (f : Lexer β ε α) : Lexer β ε (α × List β) := fun t =>
  match f t with
  | .ok (a, rest) => .ok ((a, t.take (t.length - rest.length)), rest)
  | .error x => .error x

@[simp] theorem fail_apply (x : ε) (t : List β) : (fail x : Lexer β ε α) t = .error x := rfl

@[simp] theorem drop_apply (n : Nat) (t : List β) :
    (drop n : Lexer β ε Unit) t = .ok ((), t.drop n) := rfl

@[simp] theorem pure_apply (a : α) (t : List β) : (pure a : Lexer β ε α) t = .ok (a, t) := rfl

theorem bind_apply (m : Lexer β ε α) (k : α → Lexer β ε γ) (t : List β) :
    (m >>= k) t = match m t with
      | .ok (a, rest) => k a rest
      | .error x => .error x := rfl

/-- A sequence of two lexers returns what the second one returns on what the first one left. -/
theorem bind_eq_ok_iff {m : Lexer β ε α} {k : α → Lexer β ε γ} {t rest : List β} {c : γ} :
    (m >>= k) t = .ok (c, rest) ↔ ∃ a mid, m t = .ok (a, mid) ∧ k a mid = .ok (c, rest) := by
  rw [bind_apply]
  cases h : m t with
  | error x => simp
  | ok p =>
    obtain ⟨a, mid⟩ := p
    simp

/-- What was taken is what stands in front of the text that is left. -/
theorem taken_eq_ok {f : Lexer β ε α} {t rest w : List β} {a : α}
    (h : taken f t = .ok ((a, w), rest)) :
    f t = .ok (a, rest) ∧ ∀ w', t = w' ++ rest → w = w' := by
  unfold taken at h
  split at h
  · rename_i hf
    simp only [Except.ok.injEq, Prod.mk.injEq] at h
    obtain ⟨⟨rfl, rfl⟩, rfl⟩ := h
    refine ⟨hf, ?_⟩
    rintro w' rfl
    simp
  · simp at h

@[simp] theorem ite_apply (p : Prop) [Decidable p] (f g : Lexer β ε α) (t : List β) :
    (if p then f else g) t = if p then f t else g t := by
  split <;> rfl

end Lexer

/-- The bytes of `buf` from `p` up to `e`. -/
def slice (buf : Nat → β) (p e : Nat) : List β := (List.range' p (e - p)).map buf

/-- Runs `m` and returns its result with the bytes that it moved over. -/
def Scan.taken (buf : Nat → β) (m : Scan ε α) : Scan ε (α × List β) := do
  let start ← position
  let a ← m
  let stop ← position
  pure (a, slice buf start stop)

theorem slice_of_le {buf : Nat → β} {p e : Nat} (h : e ≤ p) : slice buf p e = [] := by
  simp [slice, Nat.sub_eq_zero_of_le h]

theorem slice_cons {buf : Nat → β} {p e : Nat} (h : p < e) :
    slice buf p e = buf p :: slice buf (p + 1) e := by
  obtain ⟨n, hn⟩ : ∃ n, e - p = n + 1 := ⟨e - p - 1, by omega⟩
  rw [slice, hn, List.range'_succ, slice, show e - (p + 1) = n by omega]
  rfl

@[simp] theorem length_slice (buf : Nat → β) (p e : Nat) : (slice buf p e).length = e - p := by
  simp [slice]

theorem slice_eq_nil_iff {buf : Nat → β} {p e : Nat} : slice buf p e = [] ↔ e ≤ p := by
  rw [← List.length_eq_zero_iff, length_slice]
  omega

/-- A range is cut at any place between its ends. -/
theorem slice_append (buf : Nat → β) {p q e : Nat} (hp : p ≤ q) (he : q ≤ e) :
    slice buf p q ++ slice buf q e = slice buf p e := by
  obtain ⟨k, rfl⟩ : ∃ k, q = p + k := ⟨q - p, by omega⟩
  obtain ⟨m, rfl⟩ : ∃ m, e = p + k + m := ⟨e - (p + k), by omega⟩
  simp only [slice, ← List.map_append, show p + k - p = k by omega,
    show p + k + m - (p + k) = m by omega, show p + k + m - p = k + m by omega]
  rw [List.range'_append_1]

theorem slice_congr {buf buf' : Nat → β} {p e : Nat} (h : ∀ i, p ≤ i → i < e → buf' i = buf i) :
    slice buf' p e = slice buf p e := by
  apply List.map_congr_left
  intro i hi
  rw [List.mem_range'_1] at hi
  exact h i hi.1 (by omega)

theorem drop_slice (buf : Nat → β) {p e n : Nat} (h : p + n ≤ e) :
    (slice buf p e).drop n = slice buf (p + n) e := by
  rw [← slice_append buf (show p ≤ p + n by omega) h, List.drop_append_of_le_length (by simp)]
  simp

/-- From the cursor `c`, `m` stays in the range up to `e` and does to the text what `f` says. -/
def RefinesAt (buf : Nat → β) (e : Nat) (c : Cursor) (m : Scan ε α) (f : Lexer β ε α) : Prop :=
  c.pos ≤ (m c).2.pos ∧ (m c).2.pos ≤ e ∧ (m c).2.seen ≤ e ∧
    match f (slice buf c.pos e) with
    | .ok (a, rest) => (m c).1 = .ok a ∧ rest = slice buf (m c).2.pos e
    | .error x => (m c).1 = .error x

/-- `RefinesAt` from every cursor in the range. -/
def Refines (buf : Nat → β) (e : Nat) (m : Scan ε α) (f : Lexer β ε α) : Prop :=
  ∀ c : Cursor, c.pos ≤ e → c.seen ≤ e → RefinesAt buf e c m f

variable {buf : Nat → β} {e : Nat}

namespace RefinesAt

variable {c : Cursor}

/-- A lexer may be replaced by one that does the same on the text at hand. -/
theorem congr {m : Scan ε α} {f g : Lexer β ε α} (h : RefinesAt buf e c m f)
    (hfg : f (slice buf c.pos e) = g (slice buf c.pos e)) : RefinesAt buf e c m g := by
  unfold RefinesAt at *
  rwa [hfg] at h

/-- Where the lexer returns, the scanner does, and stands in front of what the lexer left. -/
theorem run_ok {m : Scan ε α} {f : Lexer β ε α} {a : α} {rest : List β}
    (hm : RefinesAt buf e c m f) (hf : f (slice buf c.pos e) = .ok (a, rest)) :
    ∃ c', m c = (.ok a, c') ∧ rest = slice buf c'.pos e ∧ c.pos ≤ c'.pos ∧ c'.pos ≤ e ∧
      c'.seen ≤ e := by
  obtain ⟨hle, hp1, hs1, hres⟩ := hm
  simp only [hf] at hres
  exact ⟨(m c).2, Prod.ext hres.1 rfl, hres.2, hle, hp1, hs1⟩

theorem bind {m : Scan ε α} {f : Lexer β ε α} {k : α → Scan ε γ} {g : α → Lexer β ε γ}
    (hm : RefinesAt buf e c m f)
    (hk : ∀ a c', c.pos ≤ c'.pos → c'.pos ≤ e → c'.seen ≤ e →
      f (slice buf c.pos e) = .ok (a, slice buf c'.pos e) → RefinesAt buf e c' (k a) (g a)) :
    RefinesAt buf e c (m >>= k) (f >>= g) := by
  obtain ⟨hle, hp1, hs1, hres⟩ := hm
  simp only [RefinesAt, Bind.bind]
  cases hmc : m c with
  | mk r c1 =>
    rw [hmc] at hle hp1 hs1 hres
    simp only at hle hp1 hs1 hres
    cases hf : f (slice buf c.pos e) with
    | error x =>
      simp only [hf] at hres ⊢
      subst hres
      exact ⟨hle, hp1, hs1, rfl⟩
    | ok res =>
      obtain ⟨a, rest⟩ := res
      simp only [hf] at hres ⊢
      obtain ⟨rfl, rfl⟩ := hres
      obtain ⟨hle2, hp2, hs2, hres2⟩ := hk a c1 hle hp1 hs1 hf
      exact ⟨hle.trans hle2, hp2, hs2, hres2⟩

/-- Moving on by `n` bytes that the range has, and then doing `m`. -/
theorem advance {m : Scan ε α} {f : Lexer β ε α} {n : Nat} (hp : c.pos + n ≤ e)
    (hm : RefinesAt buf e { c with pos := c.pos + n } m f) :
    RefinesAt buf e c (Scan.advance n >>= fun _ => m) (Lexer.drop n >>= fun _ => f) := by
  obtain ⟨hle, hp1, hs1, hres⟩ := hm
  refine ⟨by simp only [Bind.bind, Scan.advance] at *; omega, hp1, hs1, ?_⟩
  simp only [Lexer.bind_apply, Lexer.drop_apply, drop_slice buf hp]
  exact hres

/-- A scanner that is given the position. -/
theorem position {m : Nat → Scan ε α} {f : Lexer β ε α} (hm : RefinesAt buf e c (m c.pos) f) :
    RefinesAt buf e c (Scan.position >>= m) f := hm

theorem pure (a : α) (hp : c.pos ≤ e) (hs : c.seen ≤ e) :
    RefinesAt buf e c (Pure.pure a : Scan ε α) (Pure.pure a) := ⟨le_rfl, hp, hs, rfl, rfl⟩

theorem throw (x : ε) (hp : c.pos ≤ e) (hs : c.seen ≤ e) :
    RefinesAt buf e c (Scan.throw x : Scan ε α) (Lexer.fail x) := ⟨le_rfl, hp, hs, rfl⟩

theorem ite {p : Prop} [Decidable p] {m n : Scan ε α} {f g : Lexer β ε α}
    (hm : p → RefinesAt buf e c m f) (hn : ¬p → RefinesAt buf e c n g) :
    RefinesAt buf e c (if p then m else n) (if p then f else g) := by
  split
  · exact hm ‹_›
  · exact hn ‹_›

/-- Moving on by `n` bytes that the range has. -/
theorem advance_only {n : Nat} (hp : c.pos + n ≤ e) (hs : c.seen ≤ e) :
    RefinesAt buf e c (Scan.advance n : Scan ε Unit) (Lexer.drop n) :=
  ⟨Nat.le_add_right _ _, hp, hs, rfl, drop_slice buf hp⟩

/-- Being before the end of the range is having some text left. -/
theorem before {m n : Scan ε α} {f g : Lexer β ε α} (hm : c.pos < e → RefinesAt buf e c m f)
    (hn : e ≤ c.pos → RefinesAt buf e c n g) :
    RefinesAt buf e c (Scan.before e m n) fun t => if t = [] then g t else f t := by
  by_cases h : c.pos < e
  · have := hm h
    have hne : slice buf c.pos e ≠ [] := by simpa [slice_eq_nil_iff] using h
    simp only [RefinesAt, Scan.before, Scan.position, Bind.bind, if_pos h, if_neg hne] at this ⊢
    exact this
  · have := hn (by omega)
    have hnil : slice buf c.pos e = [] := slice_of_le (by omega)
    simp only [RefinesAt, Scan.before, Scan.position, Bind.bind, if_neg h, if_pos hnil] at this ⊢
    exact this

/-- A guarded look at the next byte is a case split on the text. -/
theorem look {onByte : β → Scan ε α} {atEnd : Scan ε α} {g : β → Lexer β ε α} {f : Lexer β ε α}
    (hs : c.seen ≤ e)
    (hb : ∀ b s, c.pos < e → s ≤ e → RefinesAt buf e ⟨c.pos, s⟩ (onByte b) (g b))
    (he : e ≤ c.pos → RefinesAt buf e c atEnd f) :
    RefinesAt buf e c (Scan.look buf e onByte atEnd) fun t =>
      match t with
      | b :: _ => g b t
      | [] => f t := by
  by_cases h : c.pos < e
  · have hrun : Scan.look buf e onByte atEnd c =
        onByte (buf c.pos) ⟨c.pos, max c.seen (c.pos + 1)⟩ := by
      simp [Scan.look, Scan.position, Scan.peek, Scan.peekAt, Bind.bind, h]
    have := hb (buf c.pos) (max c.seen (c.pos + 1)) h (by omega)
    simp only [RefinesAt, hrun] at this ⊢
    rwa [slice_cons h] at this ⊢
  · have hrun : Scan.look buf e onByte atEnd c = atEnd c := by
      simp [Scan.look, Scan.position, Bind.bind, h]
    have := he (by omega)
    simp only [RefinesAt, hrun] at this ⊢
    rwa [slice_of_le (by omega)] at this ⊢

/-- Two guarded looks at once. -/
theorem lookTwo {onBytes : β → β → Scan ε α} {short : Scan ε α} {g : β → β → Lexer β ε α}
    {f : Lexer β ε α} (hs : c.seen ≤ e)
    (hb : ∀ a b s, c.pos + 2 ≤ e → s ≤ e → RefinesAt buf e ⟨c.pos + 2, s⟩ (onBytes a b) (g a b))
    (he : RefinesAt buf e c short f) :
    RefinesAt buf e c (Scan.lookTwo buf e onBytes short) fun t =>
      match t with
      | a :: b :: rest => g a b rest
      | _ => f t := by
  by_cases h : e ≤ c.pos + 1
  · have hrun : Scan.lookTwo buf e onBytes short c = short c := by
      simp [Scan.lookTwo, Scan.position, Bind.bind, h]
    refine congr (f := f) (by simpa only [RefinesAt, hrun] using he) ?_
    rcases Nat.lt_or_ge c.pos e with hlt | hge
    · simp [slice_cons hlt, slice_of_le h]
    · simp [slice_of_le hge]
  · have hrun : Scan.lookTwo buf e onBytes short c =
        onBytes (buf c.pos) (buf (c.pos + 1))
          ⟨c.pos + 2, max (max c.seen (c.pos + 1)) (c.pos + 2)⟩ := by
      simp [Scan.lookTwo, Scan.position, Scan.peek, Scan.peekAt, Scan.advance, Bind.bind, h]
    have := hb (buf c.pos) (buf (c.pos + 1)) _ (by omega)
      (show max (max c.seen (c.pos + 1)) (c.pos + 2) ≤ e by omega)
    simp only [RefinesAt, hrun, slice_cons (show c.pos < e by omega),
      slice_cons (show c.pos + 1 < e by omega)] at this ⊢
    exact ⟨by omega, this.2⟩

theorem equalAt_run [DecidableEq β] (bs : List β) (k : Nat) (hs : c.seen ≤ e)
    (hk : c.pos + k + bs.length ≤ e) :
    ∃ s, s ≤ e ∧ (Scan.equalAt buf bs k : Scan ε Bool) c =
      (.ok (bs.isPrefixOf (slice buf (c.pos + k) e)), ⟨c.pos, s⟩) := by
  induction bs generalizing k c with
  | nil => exact ⟨c.seen, hs, rfl⟩
  | cons b bs ih =>
    simp only [List.length_cons] at hk
    rw [slice_cons (by omega)]
    by_cases h : buf (c.pos + k) = b
    · obtain ⟨s, hse, hrun⟩ := ih (c := ⟨c.pos, max c.seen (c.pos + k + 1)⟩) (k + 1)
        (by simp only; omega) (by simp only; omega)
      refine ⟨s, hse, ?_⟩
      simp only [Scan.equalAt, Scan.peekAt, Bind.bind, if_pos h, hrun]
      simp [h, List.isPrefixOf, Nat.add_assoc]
    · refine ⟨max c.seen (c.pos + k + 1), by omega, ?_⟩
      simp only [Scan.equalAt, Scan.peekAt, Bind.bind, if_neg h]
      simp [List.isPrefixOf, Ne.symm h, Pure.pure]

/-- Going on behind `bs` where the text starts with it, and some other way where it does not. -/
theorem startsWith [DecidableEq β] (bs : List β) {m n : Scan ε α} {f g : Lexer β ε α}
    (hp : c.pos ≤ e) (hs : c.seen ≤ e)
    (hm : ∀ s, c.pos + bs.length ≤ e → s ≤ e → RefinesAt buf e ⟨c.pos + bs.length, s⟩ m f)
    (hn : ∀ s, s ≤ e → RefinesAt buf e ⟨c.pos, s⟩ n g) :
    RefinesAt buf e c
      (Scan.startsWith buf e bs >>= fun b =>
        if b then Scan.advance bs.length >>= fun _ => m else n)
      fun t => if bs.isPrefixOf t then f (t.drop bs.length) else g t := by
  by_cases hlen : e < c.pos + bs.length
  · have hrun : (Scan.startsWith buf e bs : Scan ε Bool) c = (.ok false, c) := by
      simp [Scan.startsWith, Scan.position, Bind.bind, hlen, Pure.pure]
    have hpre : bs.isPrefixOf (slice buf c.pos e) = false := by
      rw [Bool.eq_false_iff]
      intro h
      have := (List.isPrefixOf_iff_prefix.mp h).length_le
      rw [length_slice] at this
      omega
    have := hn c.seen hs
    simp only [RefinesAt, Bind.bind, hrun, hpre] at this ⊢
    exact this
  · obtain ⟨s, hse, heq⟩ := @equalAt_run β ε buf e c _ bs 0 hs (by omega)
    have hrun : (Scan.startsWith buf e bs : Scan ε Bool) c =
        (.ok (bs.isPrefixOf (slice buf c.pos e)), ⟨c.pos, s⟩) := by
      simpa [Scan.startsWith, Scan.position, Bind.bind, hlen] using heq
    cases hpre : bs.isPrefixOf (slice buf c.pos e) with
    | true =>
      have := advance (c := ⟨c.pos, s⟩) (n := bs.length) (by simp only; omega)
        (hm s (by omega) hse)
      simp only [RefinesAt, Bind.bind, hrun, hpre, if_true] at this ⊢
      exact this
    | false =>
      have := hn s hse
      simp only [RefinesAt, Bind.bind, hrun, hpre] at this ⊢
      exact this

end RefinesAt

namespace Refines

theorem pure (a : α) : Refines buf e (Pure.pure a : Scan ε α) (Pure.pure a) :=
  fun _ hp hs => RefinesAt.pure a hp hs

theorem throw (x : ε) : Refines buf e (Scan.throw x : Scan ε α) (Lexer.fail x) :=
  fun _ hp hs => RefinesAt.throw x hp hs

theorem bind {m : Scan ε α} {f : Lexer β ε α} {k : α → Scan ε γ} {g : α → Lexer β ε γ}
    (hm : Refines buf e m f) (hk : ∀ a, Refines buf e (k a) (g a)) :
    Refines buf e (m >>= k) (f >>= g) :=
  fun c hp hs => (hm c hp hs).bind fun a c' _ hp' hs' _ => hk a c' hp' hs'

theorem ite {p : Prop} [Decidable p] {m n : Scan ε α} {f g : Lexer β ε α}
    (hm : p → Refines buf e m f) (hn : ¬p → Refines buf e n g) :
    Refines buf e (if p then m else n) (if p then f else g) :=
  fun c hp hs => RefinesAt.ite (fun h => hm h c hp hs) fun h => hn h c hp hs

/-- The bytes moved over are what the text has in front of what is left. -/
theorem taken {m : Scan ε α} {f : Lexer β ε α} (hm : Refines buf e m f) :
    Refines buf e (Scan.taken buf m) (Lexer.taken f) := by
  intro c hp hs
  obtain ⟨hle, hp1, hs1, hres⟩ := hm c hp hs
  simp only [RefinesAt, Scan.taken, Lexer.taken, Scan.position, Bind.bind]
  cases hmc : m c with
  | mk r c1 =>
    rw [hmc] at hle hp1 hs1 hres
    simp only at hle hp1 hs1 hres
    cases hf : f (slice buf c.pos e) with
    | error x =>
      simp only [hf] at hres ⊢
      subst hres
      exact ⟨hle, hp1, hs1, rfl⟩
    | ok res =>
      obtain ⟨a, rest⟩ := res
      simp only [hf] at hres ⊢
      obtain ⟨rfl, rfl⟩ := hres
      refine ⟨hle, hp1, hs1, ?_, rfl⟩
      simp only [Pure.pure, length_slice]
      rw [← slice_append buf hle hp1, List.take_append_of_le_length (by simp; omega)]
      rw [List.take_of_length_le (by simp; omega)]

end Refines

/-- Scanners that do to the same text what one lexer says return the same. -/
theorem RefinesAt.same_result {buf' : Nat → β} {c : Cursor} {m m' : Scan ε α} {f : Lexer β ε α}
    (h : RefinesAt buf e c m f) (h' : RefinesAt buf' e c m' f)
    (hbuf : slice buf' c.pos e = slice buf c.pos e) : (m' c).1 = (m c).1 := by
  obtain ⟨-, -, -, h1⟩ := h
  obtain ⟨-, -, -, h2⟩ := h'
  rw [hbuf] at h2
  cases hf : f (slice buf c.pos e) with
  | error x =>
    simp only [hf] at h1 h2
    rw [h1, h2]
  | ok res =>
    simp only [hf] at h1 h2
    rw [h1.1, h2.1]

/-! ### How a scanner fails -/

/-- From whatever position, the scanner fails only in a way that `p` holds of. -/
def Fails (p : ε → Prop) (m : Scan ε α) : Prop := ∀ c x, (m c).1 = .error x → p x

namespace Fails

variable {p : ε → Prop}

theorem pure (a : α) : Fails p (Pure.pure a : Scan ε α) := by
  intro c x h
  simp [Pure.pure] at h

theorem throw {x : ε} (hx : p x) : Fails p (Scan.throw x : Scan ε α) := by
  intro c y h
  exact Except.error.inj h ▸ hx

theorem bind {m : Scan ε α} {k : α → Scan ε γ} (hm : Fails p m) (hk : ∀ a, Fails p (k a)) :
    Fails p (m >>= k) := by
  intro c x h
  have hrun : (m >>= k) c = match m c with
    | (.ok a, c') => k a c'
    | (.error x, c') => (.error x, c') := rfl
  rw [hrun] at h
  cases hmc : m c with
  | mk r c' =>
    rw [hmc] at h
    cases r with
    | error y =>
      obtain rfl : y = x := by simpa using h
      exact hm c y (by rw [hmc])
    | ok a => exact hk a c' x h

theorem mono {q : ε → Prop} {m : Scan ε α} (hm : Fails p m) (h : ∀ x, p x → q x) : Fails q m :=
  fun c x hx => h x (hm c x hx)

theorem ite {q : Prop} [Decidable q] {m n : Scan ε α} (hm : Fails p m) (hn : Fails p n) :
    Fails p (if q then m else n) := by
  split
  · exact hm
  · exact hn

theorem position : Fails p (Scan.position : Scan ε Nat) := by
  intro c x h
  simp [Scan.position] at h

theorem advance (n : Nat) : Fails p (Scan.advance n : Scan ε Unit) := by
  intro c x h
  simp [Scan.advance] at h

theorem peekAt (buf : Nat → β) (k : Nat) : Fails p (Scan.peekAt buf k : Scan ε β) := by
  intro c x h
  simp [Scan.peekAt] at h

theorem before {e : Nat} {m n : Scan ε α} (hm : Fails p m) (hn : Fails p n) :
    Fails p (Scan.before e m n) :=
  position.bind fun _ => ite hm hn

theorem look {buf : Nat → β} {e : Nat} {onByte : β → Scan ε α} {atEnd : Scan ε α}
    (hbyte : ∀ b, Fails p (onByte b)) (hend : Fails p atEnd) :
    Fails p (Scan.look buf e onByte atEnd) :=
  position.bind fun _ => ite ((peekAt buf 0).bind hbyte) hend

theorem lookTwo {buf : Nat → β} {e : Nat} {onBytes : β → β → Scan ε α} {short : Scan ε α}
    (hbytes : ∀ a b, Fails p (onBytes a b)) (hshort : Fails p short) :
    Fails p (Scan.lookTwo buf e onBytes short) :=
  position.bind fun _ => ite hshort <| (peekAt buf 0).bind fun a => (advance 1).bind fun _ =>
    (peekAt buf 0).bind fun b => (advance 1).bind fun _ => hbytes a b

theorem startsWith [DecidableEq β] (buf : Nat → β) (e : Nat) (bs : List β) :
    Fails p (Scan.startsWith buf e bs : Scan ε Bool) := by
  have hequal : ∀ (bs : List β) (k : Nat), Fails p (Scan.equalAt buf bs k : Scan ε Bool) := by
    intro bs
    induction bs with
    | nil => exact fun _ => pure true
    | cons b bs ih => exact fun k => (peekAt buf k).bind fun _ => ite (ih (k + 1)) (pure false)
  exact position.bind fun _ => ite (pure false) (hequal bs 0)

theorem taken {buf : Nat → β} {m : Scan ε α} (hm : Fails p m) : Fails p (Scan.taken buf m) :=
  position.bind fun _ => hm.bind fun _ => position.bind fun _ => pure _

end Fails

/-- From every cursor in the range, the scanner fails only in a way that `p` holds of. -/
def FailsUpTo (p : ε → Prop) (e : Nat) (m : Scan ε α) : Prop :=
  ∀ c : Cursor, c.pos ≤ e → c.seen ≤ e → ∀ x, (m c).1 = .error x → p x

section

variable {p : ε → Prop} {buf : Nat → β} {e : Nat} {m : Scan ε α} {f : Lexer β ε α}
  {k : α → Scan ε γ}

/-- Behind a scanner that stays in the range, only cursors in the range matter. -/
theorem Fails.bindAt {c : Cursor} (hm : Fails p m) (href : RefinesAt buf e c m f)
    (hk : ∀ a, FailsUpTo p e (k a)) {x : ε} (hx : ((m >>= k) c).1 = .error x) : p x := by
  have hrun : (m >>= k) c = match m c with
    | (.ok a, c') => k a c'
    | (.error x, c') => (.error x, c') := rfl
  obtain ⟨-, hp, hs, -⟩ := href
  rw [hrun] at hx
  cases hmc : m c with
  | mk r c' =>
    rw [hmc] at hx hp hs
    cases r with
    | error y =>
      obtain rfl : y = x := by simpa using hx
      exact hm c y (by rw [hmc])
    | ok a => exact hk a c' hp hs x hx

theorem FailsUpTo.bind (hm : Fails p m) (href : Refines buf e m f)
    (hk : ∀ a, FailsUpTo p e (k a)) : FailsUpTo p e (m >>= k) :=
  fun c hp hs _ hx => hm.bindAt (href c hp hs) hk hx

theorem Fails.upTo (hm : Fails p m) : FailsUpTo p e m := fun c _ _ x hx => hm c x hx

/-- What is done behind the range does not matter. -/
theorem FailsUpTo.guard {n : Scan ε α} (hm : FailsUpTo p e m) :
    FailsUpTo p e (Scan.position >>= fun q => if e < q then n else m) := by
  intro c hp hs x hx
  have hrun : (Scan.position >>= fun q => if e < q then n else m) c =
      (if e < c.pos then n else m) c := rfl
  rw [hrun, if_neg (by omega)] at hx
  exact hm c hp hs x hx

end

end Library.Scanning
