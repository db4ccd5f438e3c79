import Mathlib.Data.Set.Lattice
import OasValidator.Library.Table

/-! Trees of cells in a heap.  Cells are allocated, written and released under addresses, and no
address is given out twice.  A cell has links to other cells under labels.  A tree in the heap has a
footprint, the addresses of its cells, and nothing outside the footprint matters to it. -/

namespace Library.Cells

open Library.Table

structure Heap (α : Type) where
  cells : Nat → Option α := fun _ => none
  next : Nat := 0

namespace Heap

variable {α : Type}

/-- The address of a new cell, and the heap with it. -/
def alloc (cell : α) (heap : Heap α) : Nat × Heap α :=
  (heap.next, ⟨Function.update heap.cells heap.next (some cell), heap.next + 1⟩)

def store (a : Nat) (cell : α) (heap : Heap α) : Heap α :=
  { heap with cells := Function.update heap.cells a (some cell) }

def release (a : Nat) (heap : Heap α) : Heap α :=
  { heap with cells := Function.update heap.cells a none }

@[simp] theorem next_alloc (cell : α) (heap : Heap α) :
    (heap.alloc cell).2.next = heap.next + 1 := rfl

@[simp] theorem next_store (a : Nat) (cell : α) (heap : Heap α) :
    (heap.store a cell).next = heap.next := rfl

@[simp] theorem next_release (a : Nat) (heap : Heap α) : (heap.release a).next = heap.next := rfl

@[simp] theorem cells_store_same (a : Nat) (cell : α) (heap : Heap α) :
    (heap.store a cell).cells a = some cell := by
  simp [store]

theorem cells_store_ne {a x : Nat} (h : x ≠ a) (cell : α) (heap : Heap α) :
    (heap.store a cell).cells x = heap.cells x := by
  simp [store, h]

@[simp] theorem cells_release_same (a : Nat) (heap : Heap α) : (heap.release a).cells a = none := by
  simp [release]

/-- Writing what is there changes nothing. -/
theorem store_of_read {a : Nat} {cell : α} {heap : Heap α} (h : heap.cells a = some cell) :
    heap.store a cell = heap := by
  simp [store, ← h]

theorem cells_release_ne {a x : Nat} (h : x ≠ a) (heap : Heap α) :
    (heap.release a).cells x = heap.cells x := by
  simp [release, h]

@[simp] theorem cells_alloc_same (cell : α) (heap : Heap α) :
    (heap.alloc cell).2.cells heap.next = some cell := by
  simp [alloc]

theorem cells_alloc_ne {x : Nat} {heap : Heap α} (h : x ≠ heap.next) (cell : α) :
    (heap.alloc cell).2.cells x = heap.cells x := by
  simp [alloc, h]

/-- All cells have addresses that were given out. -/
def Bounded (heap : Heap α) : Prop := ∀ a, heap.cells a ≠ none → a < heap.next

theorem Bounded.alloc {heap : Heap α} (h : heap.Bounded) (cell : α) : (heap.alloc cell).2.Bounded := by
  intro x hx
  by_cases hnew : x = heap.next
  · exact hnew ▸ Nat.lt_succ_self _
  · rw [cells_alloc_ne hnew] at hx
    exact Nat.lt_succ_of_lt (h x hx)

theorem Bounded.store {heap : Heap α} (h : heap.Bounded) {a : Nat} (ha : a < heap.next) (cell : α) :
    (heap.store a cell).Bounded := by
  intro x hx
  by_cases hsame : x = a
  · exact hsame ▸ ha
  · rw [cells_store_ne hsame] at hx
    exact h x hx

theorem Bounded.release {heap : Heap α} (h : heap.Bounded) (a : Nat) : (heap.release a).Bounded := by
  intro x hx
  by_cases hsame : x = a
  · rw [hsame, cells_release_same] at hx
    exact absurd rfl hx
  · rw [cells_release_ne hsame] at hx
    exact h x hx

end Heap

/-- From one heap to another the cells at `S` grew to cells at `S'`: all new addresses were taken for
them, and no other cell changed. -/
structure Grows {α : Type} (heap : Heap α) (S : Set Nat) (heap' : Heap α) (S' : Set Nat) : Prop where
  next_le : heap.next ≤ heap'.next
  footprint : ∀ x, x ∈ S' ↔ x ∈ S ∨ heap.next ≤ x ∧ x < heap'.next
  frame : ∀ x, x ∉ S → x < heap.next → heap'.cells x = heap.cells x
  bounded : heap'.Bounded

/-- From one heap to another the cells at `S` were released, and nothing else happened. -/
structure Released {α : Type} (S : Set Nat) (heap heap' : Heap α) : Prop where
  next : heap'.next = heap.next
  gone : ∀ x ∈ S, heap'.cells x = none
  kept : ∀ x, x ∉ S → heap'.cells x = heap.cells x

theorem Released.bounded {α : Type} {S : Set Nat} {heap heap' : Heap α} (h : Released S heap heap')
    (hb : heap.Bounded) : heap'.Bounded := by
  intro x hx
  by_cases hmem : x ∈ S
  · exact absurd (h.gone x hmem) hx
  · rw [h.kept x hmem] at hx
    exact h.next ▸ hb x hx

/-- How cells stand for the nodes of trees: the links of a cell, the children of a node, and what else
they have in common. -/
structure Layout (κ α τ : Type) where
  links : α → List (κ × Nat)
  children : τ → List (κ × τ)
  Same : α → τ → Prop

variable {κ α τ : Type} [BEq κ] {layout : Layout κ α τ}

/-- The cells at the addresses `S` are the tree `t`, and the one at `a` is its root.  The footprints of
the children are `sub`, one for each label. -/
inductive TreeAt (layout : Layout κ α τ) (heap : Heap α) : Nat → τ → Set Nat → Prop
  | node {a : Nat} {t : τ} {S : Set Nat} (cell : α) (sub : κ → Set Nat)
      (read : heap.cells a = some cell) (same : layout.Same cell t)
      (labels : keys (layout.links cell) = keys (layout.children t))
      (nodup : (keys (layout.links cell)).Nodup)
      (child : ∀ k c s, (layout.links cell).lookup k = some c →
        (layout.children t).lookup k = some s → TreeAt layout heap c s (sub k))
      (root : ∀ k ∈ keys (layout.links cell), a ∉ sub k)
      (apart : ∀ k ∈ keys (layout.links cell), ∀ k' ∈ keys (layout.links cell), k ≠ k' →
        ∀ x ∈ sub k, x ∉ sub k')
      (footprint : ∀ x, x ∈ S ↔ x = a ∨ ∃ k ∈ keys (layout.links cell), x ∈ sub k) :
      TreeAt layout heap a t S

namespace TreeAt

variable {heap heap' : Heap α} {a : Nat} {t : τ} {S : Set Nat}

theorem root_mem (h : TreeAt layout heap a t S) : a ∈ S := by
  cases h with
  | node cell sub read same labels nodup child root apart footprint =>
    exact (footprint a).mpr (Or.inl rfl)

/-- A cell without links is a tree without children. -/
theorem leaf (layout : Layout κ α τ) (cell : α) (read : heap.cells a = some cell) (same : layout.Same cell t)
    (hlinks : layout.links cell = []) (hchildren : layout.children t = []) :
    TreeAt layout heap a t {a} := by
  refine .node cell (fun _ => ∅) read same (by rw [hlinks, hchildren]; rfl) (by simp [hlinks])
    (by simp [hlinks]) (by simp) (by simp) ?_
  simp [hlinks]

variable [LawfulBEq κ]

/-- A label has a link and a child. -/
theorem exists_child (layout : Layout κ α τ) {cell : α} {k : κ} (labels : keys (layout.links cell) = keys (layout.children t))
    (hk : k ∈ keys (layout.links cell)) :
    ∃ c s, (layout.links cell).lookup k = some c ∧ (layout.children t).lookup k = some s := by
  obtain ⟨c, hc⟩ := exists_lookup hk
  obtain ⟨s, hs⟩ := exists_lookup (labels ▸ hk)
  exact ⟨c, s, hc, hs⟩

/-- There is a cell at each address of the footprint. -/
theorem live (h : TreeAt layout heap a t S) {x : Nat} (hx : x ∈ S) : heap.cells x ≠ none := by
  induction h with
  | node cell sub read same labels nodup child root apart footprint ih =>
    rcases (footprint x).mp hx with rfl | ⟨k, hk, hx⟩
    · simp [read]
    · obtain ⟨c, s, hc, hs⟩ := exists_child layout labels hk
      exact ih k c s hc hs hx

/-- A heap with the same cells in the footprint has the tree too. -/
theorem frame (h : TreeAt layout heap a t S) (hsame : ∀ x ∈ S, heap'.cells x = heap.cells x) :
    TreeAt layout heap' a t S := by
  induction h with
  | node cell sub read same labels nodup child root apart footprint ih =>
    refine .node cell sub ?_ same labels nodup (fun k c s hc hs => ?_) root apart footprint
    · rw [hsame _ ((footprint _).mpr (Or.inl rfl)), read]
    · apply ih k c s hc hs
      intro x hx
      exact hsame x ((footprint x).mpr (Or.inr ⟨k, mem_keys_of_lookup hc, hx⟩))

theorem lt_next (h : TreeAt layout heap a t S) (hb : heap.Bounded) {x : Nat} (hx : x ∈ S) :
    x < heap.next :=
  hb x (h.live hx)

/-- The cell at the root is written, with one link of it to another tree, new or grown; the trees under
the other labels stay where they are. -/
theorem relink (layout : Layout κ α τ) {cell cell' : α} {t' s' : τ} {k : κ} {c' : Nat}
    {sub : κ → Set Nat} {S' : Set Nat}
    (labels : keys (layout.links cell) = keys (layout.children t))
    (nodup : (keys (layout.links cell)).Nodup)
    (child : ∀ j c s, j ≠ k → (layout.links cell).lookup j = some c →
      (layout.children t).lookup j = some s → TreeAt layout heap' c s (sub j))
    (root : ∀ j ∈ keys (layout.links cell), a ∉ sub j)
    (apart : ∀ j ∈ keys (layout.links cell), ∀ j' ∈ keys (layout.links cell), j ≠ j' →
      ∀ x ∈ sub j, x ∉ sub j')
    (read : heap'.cells a = some cell') (same : layout.Same cell' t')
    (hlinks : layout.links cell' = put k c' (layout.links cell))
    (hchildren : layout.children t' = put k s' (layout.children t))
    (htree : TreeAt layout heap' c' s' S') (hroot : a ∉ S')
    (hapart : ∀ j ∈ keys (layout.links cell), j ≠ k → ∀ x ∈ sub j, x ∉ S') :
    TreeAt layout heap' a t'
      {x | x = a ∨ x ∈ S' ∨ ∃ j ∈ keys (layout.links cell), j ≠ k ∧ x ∈ sub j} := by
  classical
  have hkeys : ∀ j, j ∈ keys (layout.links cell') ↔ j ∈ keys (layout.links cell) ∨ j = k := by
    intro j
    rw [hlinks, keys_put]
    split
    · rename_i hk
      exact ⟨Or.inl, fun hj => hj.elim id fun e => e ▸ hk⟩
    · simp
  refine .node cell' (fun j => if j = k then S' else sub j) read same ?_ ?_ ?_ ?_ ?_ ?_
  · rw [hlinks, hchildren, keys_put, keys_put, labels]
  · rw [hlinks]
    exact nodup_keys_put nodup
  · intro j c s hc hs
    rw [hlinks, lookup_put] at hc
    rw [hchildren, lookup_put] at hs
    by_cases hj : j = k
    · subst hj
      simp only [BEq.rfl, if_true, Option.some.injEq] at hc hs ⊢
      exact hc ▸ hs ▸ htree
    · simp only [beq_iff_eq, hj, if_false] at hc hs ⊢
      exact child j c s hj hc hs
  · intro j hj
    rcases (hkeys j).mp hj with hj | hj <;> by_cases hjk : j = k
    · simpa [hjk] using hroot
    · simpa [hjk] using root j hj
    · simpa [hjk] using hroot
    · exact absurd hj hjk
  · intro j hj j' hj' hne x hx
    have hold : ∀ {i}, i ∈ keys (layout.links cell') → i ≠ k → i ∈ keys (layout.links cell) :=
      fun hi hik => ((hkeys _).mp hi).resolve_right hik
    by_cases hjk : j = k <;> by_cases hjk' : j' = k
    · exact absurd (hjk.trans hjk'.symm) hne
    · simp only [hjk, if_true, hjk', if_false] at hx ⊢
      exact fun hx' => hapart j' (hold hj' hjk') hjk' x hx' hx
    · simp only [hjk, if_false, hjk', if_true] at hx ⊢
      exact hapart j (hold hj hjk) hjk x hx
    · simp only [hjk, if_false, hjk'] at hx ⊢
      exact apart j (hold hj hjk) j' (hold hj' hjk') hne x hx
  · intro x
    constructor
    · rintro (rfl | hx | ⟨j, hj, hjk, hx⟩)
      · exact Or.inl rfl
      · exact Or.inr ⟨k, (hkeys k).mpr (Or.inr rfl), by simpa using hx⟩
      · exact Or.inr ⟨j, (hkeys j).mpr (Or.inl hj), by simpa [hjk] using hx⟩
    · rintro (rfl | ⟨j, hj, hx⟩)
      · exact Or.inl rfl
      · by_cases hjk : j = k
        · simp only [hjk, if_true] at hx
          exact Or.inr (Or.inl hx)
        · simp only [hjk, if_false] at hx
          exact Or.inr (Or.inr ⟨j, ((hkeys j).mp hj).resolve_right hjk, hjk, hx⟩)

end TreeAt

/-- Links lead from one cell to another. -/
inductive Reaches (layout : Layout κ α τ) (heap : Heap α) (a : Nat) : Nat → Prop
  | root : Reaches layout heap a a
  | link {b c : Nat} {cell : α} {k : κ} (above : Reaches layout heap a b)
    (read : heap.cells b = some cell) (mem : (k, c) ∈ layout.links cell) : Reaches layout heap a c

omit [BEq κ] in
theorem Reaches.trans {heap : Heap α} {a b c : Nat} (h : Reaches layout heap a b)
    (h' : Reaches layout heap b c) : Reaches layout heap a c := by
  induction h' with
  | root => exact h
  | link above read mem ih => exact ih.link read mem

section

variable [LawfulBEq κ]

/-- The footprint of a tree is closed under links. -/
theorem TreeAt.link_mem {heap : Heap α} {a : Nat} {t : τ} {S : Set Nat} (h : TreeAt layout heap a t S)
    {b c : Nat} {cell : α} {k : κ} (hb : b ∈ S) (read : heap.cells b = some cell)
    (mem : (k, c) ∈ layout.links cell) : c ∈ S := by
  induction h with
  | node cell' sub read' same labels nodup child root apart footprint ih =>
    rcases (footprint b).mp hb with rfl | ⟨j, hj, hb⟩
    · obtain rfl := Option.some.inj (read'.symm.trans read)
      have hlookup := lookup_of_mem nodup mem
      have hk := mem_keys_of_lookup hlookup
      obtain ⟨s, hs⟩ := exists_lookup (labels ▸ hk)
      exact (footprint c).mpr (Or.inr ⟨k, hk, (child k c s hlookup hs).root_mem⟩)
    · obtain ⟨d, s, hd, hs⟩ := exists_child layout labels hj
      exact (footprint c).mpr (Or.inr ⟨j, hj, ih j d s hd hs hb⟩)

/-- The footprint of a tree is what its root reaches. -/
theorem TreeAt.reaches_iff {heap : Heap α} {a : Nat} {t : τ} {S : Set Nat}
    (h : TreeAt layout heap a t S) (x : Nat) : Reaches layout heap a x ↔ x ∈ S := by
  constructor
  · intro hx
    induction hx with
    | root => exact h.root_mem
    | link above read mem ih => exact h.link_mem ih read mem
  · intro hx
    induction h with
    | node cell sub read same labels nodup child root apart footprint ih =>
      rcases (footprint x).mp hx with rfl | ⟨k, hk, hx⟩
      · exact .root
      · obtain ⟨c, s, hc, hs⟩ := exists_child layout labels hk
        exact (Reaches.root.link read (mem_of_lookup hc)).trans (ih k c s hc hs hx)

end

end Library.Cells
