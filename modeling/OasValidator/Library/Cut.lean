import Mathlib.Algebra.GroupWithZero.Nat
import Mathlib.Data.List.TakeWhile
import Mathlib.Tactic.Common

/-! Cutting a list at a separator that ends each piece, and gluing pieces back together.  A loop that
seeks the next separator and skips it walks over these pieces.  The offset of a piece is where it
starts in the joined list. -/

namespace Library.Cut

variable {α : Type}

/-- The pieces one after the other, each with a separator behind it. -/
def glue (sep : α) (fs : List (List α)) : List α := fs.flatMap fun f => f ++ [sep]

@[simp] theorem glue_nil (sep : α) : glue sep [] = [] := rfl

@[simp] theorem glue_cons (sep : α) (f : List α) (fs : List (List α)) :
    glue sep (f :: fs) = f ++ sep :: glue sep fs := by
  simp [glue]

theorem glue_append (sep : α) (fs gs : List (List α)) :
    glue sep (fs ++ gs) = glue sep fs ++ glue sep gs := by
  simp [glue]

variable [DecidableEq α]

/-- The pieces of a list, each ended by `sep` or by the end of the list.  No empty piece follows a
last separator. -/
def cut (sep : α) : List α → List (List α)
  | [] => []
  | a :: s =>
    if a = sep then [] :: cut sep s
    else match cut sep s with
      | [] => [[a]]
      | f :: fs => (a :: f) :: fs

@[simp] theorem cut_nil (sep : α) : cut sep [] = [] := rfl

@[simp] theorem cut_sep (sep : α) (s : List α) : cut sep (sep :: s) = [] :: cut sep s := by
  simp [cut]

theorem cut_ne_nil (sep : α) {s : List α} (h : s ≠ []) : cut sep s ≠ [] := by
  cases s with
  | nil => exact absurd rfl h
  | cons a s =>
    unfold cut
    split
    · simp
    · split <;> simp

/-- One pass of the seeking loop: the first piece runs to the next separator, and the loop goes on
behind it. -/
theorem cut_step (sep : α) {s : List α} (h : s ≠ []) :
    cut sep s = s.takeWhile (· ≠ sep) :: cut sep (s.dropWhile (· ≠ sep)).tail := by
  induction s with
  | nil => exact absurd rfl h
  | cons a s ih =>
    by_cases ha : a = sep
    · simp [ha]
    · cases s with
      | nil => simp [cut, ha]
      | cons b s =>
        have := ih (by simp)
        simp only [cut, if_neg ha] at this ⊢
        rw [this]
        simp [ha]

/-- A piece and a separator in front of a list are cut off as one piece. -/
theorem cut_append_sep {sep : α} {f : List α} (hf : sep ∉ f) (s : List α) :
    cut sep (f ++ sep :: s) = f :: cut sep s := by
  rw [cut_step sep (by simp)]
  have hne : ∀ a ∈ f, decide (a ≠ sep) = true := fun a ha => by
    simpa using fun h : a = sep => hf (h ▸ ha)
  rw [List.takeWhile_append_of_pos hne, List.dropWhile_append_of_pos hne]
  simp

/-- What stands in front of the first separator, and what behind it. -/
theorem append_sep_inj {sep : α} {f g s t : List α} (hf : sep ∉ f) (hg : sep ∉ g) :
    f ++ sep :: s = g ++ sep :: t ↔ f = g ∧ s = t := by
  constructor
  · intro h
    have hcut := congrArg (cut sep) h
    rw [cut_append_sep hf, cut_append_sep hg] at hcut
    obtain rfl := (List.cons.inj hcut).1
    exact ⟨rfl, (List.cons.inj (List.append_cancel_left h)).2⟩
  · rintro ⟨rfl, rfl⟩
    rfl

theorem cut_of_not_mem {sep : α} {f : List α} (hf : sep ∉ f) (hne : f ≠ []) : cut sep f = [f] := by
  have htake : f.takeWhile (· ≠ sep) = f := by
    simpa [List.takeWhile_eq_self_iff] using fun a ha (h : a = sep) => hf (h ▸ ha)
  have hdrop : f.dropWhile (· ≠ sep) = [] := by
    simpa [List.dropWhile_eq_nil_iff] using fun a ha (h : a = sep) => hf (h ▸ ha)
  rw [cut_step sep hne, htake, hdrop]
  rfl

theorem sep_not_mem_of_mem_cut {sep : α} {s f : List α} (h : f ∈ cut sep s) : sep ∉ f := by
  induction s generalizing f with
  | nil => simp at h
  | cons a s ih =>
    unfold cut at h
    split at h
    · rcases List.mem_cons.mp h with rfl | h
      · simp
      · exact ih h
    · rename_i ha
      split at h
      · obtain rfl : f = [a] := by simpa using h
        simpa using Ne.symm ha
      · rename_i g gs hg
        rcases List.mem_cons.mp h with rfl | h
        · simpa using ⟨Ne.symm ha, ih (hg ▸ List.mem_cons_self)⟩
        · exact ih (hg ▸ List.mem_cons_of_mem _ h)

omit [DecidableEq α] in
theorem getLast?_glue {sep : α} {fs : List (List α)} (hne : fs ≠ []) :
    (glue sep fs).getLast? = some sep := by
  obtain rfl | ⟨fs, f, rfl⟩ : fs = [] ∨ ∃ gs f, fs = gs ++ [f] := by
    simpa using List.eq_nil_or_concat fs
  · exact absurd rfl hne
  · rw [glue_append, glue_cons, glue_nil, List.getLast?_append]
    simp

omit [DecidableEq α] in
/-- Without the last separator, the pieces stand between separators. -/
theorem dropLast_glue (sep : α) (fs : List (List α)) :
    (glue sep fs).dropLast = [sep].intercalate fs := by
  induction fs with
  | nil => rfl
  | cons f fs ih =>
    cases fs with
    | nil => simp
    | cons g fs =>
      have hne : sep :: glue sep (g :: fs) ≠ [] := by simp
      have hne' : glue sep (g :: fs) ≠ [] := by simp
      rw [glue_cons, List.dropLast_append_of_ne_nil hne, List.dropLast_cons_of_ne_nil hne', ih]
      simp [List.intercalate]

omit [DecidableEq α] in
/-- Joined pieces that are not empty take at least one place each. -/
theorem length_intercalate (sep : List α) {fs : List (List α)} (h : ∀ f ∈ fs, f ≠ []) :
    fs.length ≤ (sep.intercalate fs).length := by
  induction fs with
  | nil => simp
  | cons f fs ih =>
    have hf : 0 < f.length := List.length_pos_iff.mpr (h f List.mem_cons_self)
    have hfs := ih fun g hg => h g (List.mem_cons_of_mem f hg)
    cases fs with
    | nil =>
      rw [List.intercalate_singleton, List.length_singleton]
      omega
    | cons g fs =>
      rw [List.intercalate_cons_cons]
      simp only [List.length_append, List.length_cons] at hfs ⊢
      omega

theorem cut_glue {sep : α} {fs : List (List α)} (h : ∀ f ∈ fs, sep ∉ f) :
    cut sep (glue sep fs) = fs := by
  induction fs with
  | nil => rfl
  | cons f fs ih =>
    rw [glue_cons, cut_append_sep (h f (by simp)), ih fun g hg => h g (by simp [hg])]

/-- Gluing gives the list back, with a separator behind it if it does not end in one. -/
theorem glue_cut (sep : α) (s : List α) :
    glue sep (cut sep s) = if s = [] ∨ s.getLast? = some sep then s else s ++ [sep] := by
  induction s with
  | nil => rfl
  | cons a s ih =>
    by_cases ha : a = sep
    · subst ha
      rw [cut_sep, glue_cons, ih]
      cases s with
      | nil => simp
      | cons b s => simp [List.getLast?_cons_cons]; split <;> simp
    · cases s with
      | nil => simp [cut, ha]
      | cons b s =>
        obtain ⟨f, fs, hf⟩ := List.exists_cons_of_ne_nil (cut_ne_nil sep (s := b :: s)
          (by simp))
        have hc : cut sep (a :: b :: s) = (a :: f) :: fs := by
          rw [cut, if_neg ha, hf]
        rw [hf] at ih
        rw [hc, glue_cons, List.cons_append, ← glue_cons, ih]
        simp only [List.getLast?_cons_cons, reduceCtorEq, false_or]
        split <;> simp

/-- Without a separator at its end, a list is its pieces with the last separator taken off. -/
theorem dropLast_glue_cut {sep : α} {s : List α} (h : s.getLast? ≠ some sep) :
    (glue sep (cut sep s)).dropLast = s := by
  rw [glue_cut]
  by_cases hs : s = []
  · simp [hs]
  · simp [hs, h]

theorem cut_glue_append {sep : α} {fs : List (List α)} {f : List α} (h : ∀ g ∈ fs, sep ∉ g)
    (hf : sep ∉ f) (hne : f ≠ []) : cut sep (glue sep fs ++ f) = fs ++ [f] := by
  induction fs with
  | nil => simpa using cut_of_not_mem hf hne
  | cons g gs ih =>
    rw [glue_cons, List.append_assoc, List.cons_append, cut_append_sep (h g (by simp)),
      ih fun x hx => h x (by simp [hx])]
    rfl

/-- A list that ends in no separator, made of pieces with the last separator taken off, is cut into
these pieces. -/
theorem cut_dropLast_glue {sep : α} {fs : List (List α)} (h : ∀ f ∈ fs, sep ∉ f)
    (hlast : (glue sep fs).dropLast.getLast? ≠ some sep) (hne : (glue sep fs).dropLast ≠ []) :
    cut sep (glue sep fs).dropLast = fs := by
  obtain rfl | ⟨fs, f, rfl⟩ : fs = [] ∨ ∃ gs f, fs = gs ++ [f] := by
    simpa using List.eq_nil_or_concat fs
  · simp at hne
  have hdrop : (glue sep (fs ++ [f])).dropLast = glue sep fs ++ f := by
    simp [glue_append, ← List.append_assoc]
  rw [hdrop] at hlast hne ⊢
  refine cut_glue_append (fun g hg => h g (by simp [hg])) (h f (by simp)) ?_
  -- an empty last piece would leave the separator of the piece before it at the end
  rintro rfl
  obtain rfl | ⟨gs, g, rfl⟩ : fs = [] ∨ ∃ gs g, fs = gs ++ [g] := by
    simpa using List.eq_nil_or_concat fs
  · simp at hne
  · simp [glue_append] at hlast

/-- Joined pieces, the last of which is not empty, are cut into these pieces. -/
theorem cut_intercalate {sep : α} {fs : List (List α)} (h : ∀ f ∈ fs, sep ∉ f)
    (hlast : fs.getLast? ≠ some []) : cut sep ([sep].intercalate fs) = fs := by
  rw [← dropLast_glue]
  obtain rfl | ⟨gs, f, rfl⟩ : fs = [] ∨ ∃ gs f, fs = gs ++ [f] := by
    simpa using List.eq_nil_or_concat fs
  · rfl
  · have hdrop : (glue sep (gs ++ [f])).dropLast = glue sep gs ++ f := by
      simp [glue_append, ← List.append_assoc]
    rw [hdrop]
    exact cut_glue_append (fun g hg => h g (by simp [hg])) (h f (by simp)) (by simpa using hlast)

/-- Pieces with the last separator taken off are cut into the same pieces, but for an empty last one. -/
theorem cut_dropLast_glue_prefix {sep : α} {fs : List (List α)} (h : ∀ f ∈ fs, sep ∉ f) :
    cut sep (glue sep fs).dropLast <+: fs := by
  obtain rfl | ⟨gs, f, rfl⟩ : fs = [] ∨ ∃ gs f, fs = gs ++ [f] := by
    simpa using List.eq_nil_or_concat fs
  · simp
  have hdrop : (glue sep (gs ++ [f])).dropLast = glue sep gs ++ f := by
    simp [glue_append, ← List.append_assoc]
  have hgs : ∀ g ∈ gs, sep ∉ g := fun g hg => h g (by simp [hg])
  rw [hdrop]
  by_cases hf : f = []
  · subst hf
    rw [List.append_nil, cut_glue hgs]
    exact List.prefix_append gs [[]]
  · simp only [cut_glue_append hgs (h f (by simp)) hf, List.prefix_refl]

omit [DecidableEq α] in
theorem dropLast_glue_append (sep : α) {fs : List (List α)} (hne : fs ≠ []) :
    (glue sep fs).dropLast ++ [sep] = glue sep fs := by
  obtain ⟨gs, f, rfl⟩ : ∃ gs f, fs = gs ++ [f] := by
    simpa [hne] using List.eq_nil_or_concat fs
  simp [glue_append, ← List.append_assoc]

/-- Different pieces differ also with the last separator taken off. -/
theorem dropLast_glue_inj {sep : α} {fs gs : List (List α)} (hf : ∀ f ∈ fs, sep ∉ f)
    (hg : ∀ g ∈ gs, sep ∉ g) (hfne : fs ≠ []) (hgne : gs ≠ [])
    (h : (glue sep fs).dropLast = (glue sep gs).dropLast) : fs = gs := by
  have hglue : glue sep fs = glue sep gs := by
    rw [← dropLast_glue_append sep hfne, ← dropLast_glue_append sep hgne, h]
  rw [← cut_glue hf, hglue, cut_glue hg]

/-! ### Where the pieces stand

The pieces are those of a list with separators between them. -/

omit [DecidableEq α]

/-- The index at which piece `k` starts. -/
def offset (fs : List (List α)) (k : Nat) : Nat := ((fs.take k).map (·.length + 1)).sum

@[simp] theorem offset_zero (fs : List (List α)) : offset fs 0 = 0 := by simp [offset]

@[simp] theorem offset_cons (f : List α) (fs : List (List α)) (k : Nat) :
    offset (f :: fs) (k + 1) = f.length + 1 + offset fs k := by
  simp [offset]

theorem offset_succ {fs : List (List α)} {f : List α} {k : Nat} (h : fs[k]? = some f) :
    offset fs (k + 1) = offset fs k + f.length + 1 := by
  induction fs generalizing k with
  | nil => simp at h
  | cons g gs ih =>
    cases k with
    | zero =>
      obtain rfl : g = f := by simpa using h
      simp
    | succ k =>
      rw [offset_cons, offset_cons, ih (by simpa using h)]
      omega

theorem offset_lt {fs : List (List α)} {k m : Nat} (h : k < m) (hm : m ≤ fs.length) :
    offset fs k < offset fs m := by
  induction m with
  | zero => omega
  | succ m ih =>
    have hstep := offset_succ (List.getElem?_eq_getElem (show m < fs.length by omega))
    rcases Nat.lt_succ_iff_lt_or_eq.mp h with hlt | rfl
    · have := ih hlt (by omega)
      omega
    · omega

/-- No two pieces start at the same index. -/
theorem offset_inj {fs : List (List α)} {k m : Nat} (hk : k < fs.length) (hm : m < fs.length)
    (h : offset fs k = offset fs m) : k = m := by
  rcases Nat.lt_trichotomy k m with hlt | rfl | hlt
  · have := offset_lt hlt hm.le
    omega
  · rfl
  · have := offset_lt hlt hk.le
    omega

/-- Behind the start of piece `k` there are this piece and the later ones. -/
theorem drop_offset (sep : α) (fs : List (List α)) (k : Nat) :
    ([sep].intercalate fs).drop (offset fs k) = [sep].intercalate (fs.drop k) := by
  induction fs generalizing k with
  | nil => simp
  | cons f fs ih =>
    cases k with
    | zero => simp
    | succ k =>
      cases fs with
      | nil =>
        simp only [offset_cons, List.intercalate_singleton, List.drop_succ_cons, List.drop_nil,
          List.intercalate_nil, List.drop_eq_nil_iff]
        omega
      | cons g gs =>
        rw [offset_cons, List.intercalate_cons_cons, ← List.drop_drop, List.drop_succ_cons, ← ih k]
        simp

/-- The last piece ends at the end of the list. -/
theorem offset_length (sep : α) {fs : List (List α)} (h : fs ≠ []) :
    offset fs fs.length = ([sep].intercalate fs).length + 1 := by
  induction fs with
  | nil => exact absurd rfl h
  | cons f fs ih =>
    cases fs with
    | nil => simp
    | cons g gs =>
      rw [List.length_cons, offset_cons, ih (by simp), List.intercalate_cons_cons]
      simp only [List.length_append, List.length_singleton]
      omega

/-- A piece stands in the list with the end of the list or a separator behind it. -/
theorem drop_offset_of_getElem? (sep : α) {fs : List (List α)} {f : List α} {k : Nat}
    (h : fs[k]? = some f) :
    ∃ rest, ([sep].intercalate fs).drop (offset fs k) = f ++ rest ∧
      (rest = [] ∧ k + 1 = fs.length ∨ rest.head? = some sep ∧ k + 1 < fs.length) := by
  obtain ⟨hk, rfl⟩ := List.getElem?_eq_some_iff.mp h
  rw [drop_offset, List.drop_eq_getElem_cons hk]
  by_cases hlast : k + 1 = fs.length
  · exact ⟨[], by simp [List.drop_of_length_le hlast.ge], Or.inl ⟨rfl, hlast⟩⟩
  · have hnext : k + 1 < fs.length := by omega
    refine ⟨sep :: [sep].intercalate (fs.drop (k + 1)), ?_, Or.inr ⟨rfl, hnext⟩⟩
    rw [List.drop_eq_getElem_cons hnext, List.intercalate_cons_cons]
    simp

theorem intercalate_append (sep : α) {fs gs : List (List α)} (hfs : fs ≠ []) (hgs : gs ≠ []) :
    [sep].intercalate (fs ++ gs) = [sep].intercalate fs ++ sep :: [sep].intercalate gs := by
  induction fs with
  | nil => exact absurd rfl hfs
  | cons f fs ih =>
    cases fs with
    | nil =>
      cases gs with
      | nil => exact absurd rfl hgs
      | cons g gs => simp [List.intercalate_cons_cons]
    | cons f' fs =>
      rw [List.cons_append, List.cons_append, List.intercalate_cons_cons, ← List.cons_append,
        ih (by simp), List.intercalate_cons_cons]
      simp

/-- Pieces in a row stand in the list as a list of their own, with the end of the list or a separator
behind it. -/
theorem drop_offset_block (sep : α) {fs gs hs : List (List α)} (hgs : gs ≠ []) :
    ∃ rest, ([sep].intercalate (fs ++ gs ++ hs)).drop (offset (fs ++ gs ++ hs) fs.length) =
        [sep].intercalate gs ++ rest ∧
      (rest = [] ∧ hs = [] ∨ rest.head? = some sep ∧ hs ≠ []) := by
  rw [drop_offset, List.append_assoc, List.drop_left]
  by_cases hhs : hs = []
  · exact ⟨[], by simp [hhs], Or.inl ⟨rfl, hhs⟩⟩
  · exact ⟨sep :: [sep].intercalate hs, intercalate_append sep hgs hhs, Or.inr ⟨rfl, hhs⟩⟩

theorem offset_block (sep : α) {fs gs hs : List (List α)} (hgs : gs ≠ []) :
    offset (fs ++ gs ++ hs) (fs.length + gs.length) =
      offset (fs ++ gs ++ hs) fs.length + ([sep].intercalate gs).length + 1 := by
  have hsum : offset (fs ++ gs ++ hs) (fs.length + gs.length) =
      offset (fs ++ gs ++ hs) fs.length + offset gs gs.length := by
    simp [offset, List.take_append, List.take_of_length_le]
  rw [hsum, offset_length sep hgs, Nat.add_assoc]

end Library.Cut
