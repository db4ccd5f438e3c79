import Mathlib.Data.List.Basic
import Mathlib.Tactic.Common

/-! Lists of words and what remains of them behind a common beginning.  A prefix tree that words are
inserted into one after the other is, at each node, the list of the words' remainders there in the
order of insertion. -/

namespace Library.Words

variable {F : Type} [DecidableEq F]

/-- The remainders of the words of `L` that begin with `a`. -/
def after (a : F) : List (List F) → List (List F)
  | [] => []
  | [] :: L => after a L
  | (b :: w) :: L => if b = a then w :: after a L else after a L

/-- The first letters of the words of `L`, in order. -/
def heads (L : List (List F)) : List F := L.filterMap List.head?

/-- The distinct first letters, in the order in which they first occur. -/
def firsts (L : List (List F)) : List F := (heads L).eraseDups

omit [DecidableEq F] in
@[simp] theorem heads_nil : heads ([] : List (List F)) = [] := rfl

omit [DecidableEq F] in
@[simp] theorem heads_append (L M : List (List F)) : heads (L ++ M) = heads L ++ heads M := by
  simp [heads]

omit [DecidableEq F] in
@[simp] theorem heads_cons_cons (a : F) (w : List F) (L : List (List F)) :
    heads ((a :: w) :: L) = a :: heads L := rfl

omit [DecidableEq F] in
@[simp] theorem heads_cons_nil (L : List (List F)) : heads ([] :: L) = heads L := rfl

omit [DecidableEq F] in
theorem mem_heads {a : F} {L : List (List F)} : a ∈ heads L ↔ ∃ w, a :: w ∈ L := by
  simp only [heads, List.mem_filterMap]
  constructor
  · rintro ⟨w, hw, ha⟩
    cases w with
    | nil => simp at ha
    | cons b w => exact ⟨w, by simpa [show b = a by simpa using ha] using hw⟩
  · rintro ⟨w, hw⟩
    exact ⟨a :: w, hw, rfl⟩

theorem mem_firsts {a : F} {L : List (List F)} : a ∈ firsts L ↔ a ∈ heads L :=
  List.mem_eraseDups

theorem mem_after {a : F} {w : List F} {L : List (List F)} : w ∈ after a L ↔ a :: w ∈ L := by
  induction L using after.induct a with
  | case1 => simp [after]
  | case2 L ih => simp [after, ih]
  | case3 w' L ih => simp [after, ih]
  | case4 b w' L hb ih => simp [after, hb, ih, Ne.symm hb]

theorem after_append (a : F) (L M : List (List F)) :
    after a (L ++ M) = after a L ++ after a M := by
  induction L using after.induct a with
  | case1 => rfl
  | case2 L ih => simpa [after] using ih
  | case3 w' L ih => simpa [after] using ih
  | case4 b w' L hb ih => simpa [after, hb] using ih

@[simp] theorem after_singleton_cons (a : F) (w : List F) : after a [a :: w] = [w] := by
  simp [after]

theorem after_singleton_of_ne {a b : F} (w : List F) (h : b ≠ a) : after a [b :: w] = [] := by
  simp [after, h]

@[simp] theorem after_singleton_nil (a : F) : after a [[]] = [] := rfl

theorem after_eq_nil_iff {a : F} {L : List (List F)} : after a L = [] ↔ a ∉ heads L := by
  rw [mem_heads, List.eq_nil_iff_forall_not_mem]
  simp [mem_after]

/-- A word added behind the others keeps the distinct first letters, or adds its own last. -/
theorem firsts_append_singleton (L : List (List F)) (a : F) (w : List F) :
    firsts (L ++ [a :: w]) = if a ∈ firsts L then firsts L else firsts L ++ [a] := by
  have hm : a ∈ firsts L ↔ a ∈ heads L := mem_firsts
  simp only [hm]
  simp only [firsts, heads_append, List.eraseDups_append]
  by_cases h : a ∈ heads L
  · simp [h, List.removeAll, heads_cons_cons]
  · simp [h, List.removeAll, heads_cons_cons, List.eraseDups_cons]

@[simp] theorem firsts_append_nil (L : List (List F)) : firsts (L ++ [[]]) = firsts L := by
  simp [firsts]

/-! ### Beginnings -/

omit [DecidableEq F] in
/-- Some word of `L` begins with `u`. -/
def Begins (L : List (List F)) (u : List F) : Prop := ∃ w ∈ L, u <+: w

/-- The remainders behind a beginning. -/
def behind (u : List F) (L : List (List F)) : List (List F) := u.foldl (fun L a => after a L) L

@[simp] theorem behind_nil (L : List (List F)) : behind [] L = L := rfl

@[simp] theorem behind_cons (a : F) (u : List F) (L : List (List F)) :
    behind (a :: u) L = behind u (after a L) := rfl

theorem behind_append (u : List F) (L M : List (List F)) :
    behind u (L ++ M) = behind u L ++ behind u M := by
  induction u generalizing L M with
  | nil => rfl
  | cons a u ih => rw [behind_cons, behind_cons, behind_cons, after_append, ih]

theorem behind_singleton (u w : List F) : behind u [u ++ w] = [w] := by
  induction u with
  | nil => rfl
  | cons a u ih => simpa using ih

omit [DecidableEq F] in
theorem begins_congr {L M : List (List F)} (h : L.Perm M) (u : List F) : Begins L u ↔ Begins M u := by
  simp only [Begins, h.mem_iff]

omit [DecidableEq F] in
theorem Begins.of_prefix {L : List (List F)} {u v : List F} (h : Begins L v) (huv : u <+: v) :
    Begins L u := by
  obtain ⟨w, hw, hv⟩ := h
  exact ⟨w, hw, huv.trans hv⟩

omit [DecidableEq F] in
theorem mem_heads_iff_begins {L : List (List F)} {a : F} : a ∈ heads L ↔ Begins L [a] := by
  rw [mem_heads]
  constructor
  · rintro ⟨w, hw⟩
    exact ⟨a :: w, hw, by simp⟩
  · rintro ⟨w, hw, v, rfl⟩
    exact ⟨v, hw⟩

theorem begins_after {L : List (List F)} {a : F} {u : List F} :
    Begins (after a L) u ↔ Begins L (a :: u) := by
  constructor
  · rintro ⟨w, hw, hu⟩
    exact ⟨a :: w, mem_after.mp hw, List.cons_prefix_cons.mpr ⟨rfl, hu⟩⟩
  · rintro ⟨w, hw, v, rfl⟩
    exact ⟨u ++ v, mem_after.mpr hw, List.prefix_append u v⟩

theorem begins_behind {L : List (List F)} {u v : List F} :
    Begins (behind u L) v ↔ Begins L (u ++ v) := by
  induction u generalizing L with
  | nil => rfl
  | cons a u ih => rw [behind_cons, ih, begins_after, List.cons_append]

theorem firsts_ne_nil {a : F} {L : List (List F)} (h : a ∈ heads L) : firsts L ≠ [] :=
  List.ne_nil_of_mem (mem_firsts.mpr h)

end Library.Words
