import Mathlib.Data.Finset.Card
import OasValidator.PathTrie.Linked

/-! What the functions on nodes and pointers do where the nodes are a tree: searches find what they
find in the tree, an insertion makes the nodes the tree with the path, a copy is the same tree on new
nodes, and a deletion releases each node of the tree once. -/

namespace OasValidator.PathTrie.Linked

open Library.Cells Library.Table

def layout : Layout Bytes Cell Node where
  links := Cell.children
  children := Node.children
  Same cell node :=
    cell.dir = node.dir ∧ cell.isParam = node.isParam ∧ cell.fragIdx = node.fragIdx

variable {order : Hashing} {heap : Heap Cell} {a : Nat} {t : Node} {S : Set Nat}

theorem deref_of_read {cell : Cell} (h : heap.cells a = some cell) : deref a heap = .ok cell := by
  simp [deref, h]

theorem setChild_of_read {cell : Cell} (h : heap.cells a = some cell) (dir : Bytes) (child : Nat) :
    setChild a dir child heap =
      .ok (heap.store a { cell with children := put dir child cell.children }) := by
  simp [setChild, deref_of_read h, bind, Except.bind, pure, Except.pure]

/-! ### Loops over a map -/

theorem mem_entries {children : List (Bytes × Nat)} {dir : Bytes} {c : Nat} :
    (dir, c) ∈ entries order children ↔ children.lookup dir = some c := by
  simp only [entries, List.mem_filterMap, Option.map_eq_some_iff, Prod.mk.injEq]
  constructor
  · rintro ⟨k, -, v, hv, rfl, rfl⟩
    exact hv
  · intro h
    exact ⟨dir, (order.perm _).mem_iff.mpr (mem_keys_of_lookup h), c, h, rfl, rfl⟩

theorem keys_entries (children : List (Bytes × Nat)) :
    keys (entries order children) = order.iterate (keys children) := by
  have hall : ∀ ks : List Bytes, (∀ k ∈ ks, k ∈ keys children) →
      keys (ks.filterMap fun dir => (children.lookup dir).map (dir, ·)) = ks := by
    intro ks hks
    induction ks with
    | nil => rfl
    | cons k ks ih =>
      obtain ⟨c, hc⟩ := exists_lookup (hks k List.mem_cons_self)
      simp only [List.filterMap_cons, hc, Option.map_some, keys_cons]
      rw [ih fun j hj => hks j (List.mem_cons_of_mem k hj)]
  exact hall _ fun k hk => (order.perm _).mem_iff.mp hk

theorem nodup_keys_entries {children : List (Bytes × Nat)} (h : (keys children).Nodup) :
    (keys (entries order children)).Nodup := by
  rw [keys_entries]
  exact (order.perm _).nodup_iff.mpr h

/-! ### Searches -/

/-- The first child of a node is the first child in the tree. -/
theorem beginChild_tree (order : Hashing) {cell : Cell} {sub : Bytes → Set Nat}
    (labels : keys cell.children = keys t.children)
    (child : ∀ k c s, cell.children.lookup k = some c → t.children.lookup k = some s →
      TreeAt layout heap c s (sub k)) :
    (∃ c s k, beginChild order cell = .ok c ∧ PathTrie.beginChild order t = .ok s ∧
        TreeAt layout heap c s (sub k)) ∨
      beginChild order cell = .error .undefined ∧ PathTrie.beginChild order t = .error .undefined := by
  unfold beginChild PathTrie.beginChild
  rw [← labels]
  cases hfirst : order.first (keys cell.children) with
  | none => exact Or.inr ⟨rfl, rfl⟩
  | some k =>
    have hk := Hashing.first_mem hfirst
    obtain ⟨c, s, hc, hs⟩ := TreeAt.exists_child layout labels hk
    exact Or.inl ⟨c, s, k, by simp_all [layout], by simp_all [layout], child k c s hc hs⟩

theorem searchFrom_tree (h : TreeAt layout heap a t S) (oasPath : Bytes)
    (frags : List (Bytes × ParamRange)) :
    searchFrom order heap oasPath frags a = PathTrie.searchFrom order oasPath frags t := by
  induction frags generalizing oasPath a t S with
  | nil => rfl
  | cons p rest ih =>
    obtain ⟨dir, range⟩ := p
    cases h with
    | node cell sub read same labels nodup child root apart footprint =>
      obtain ⟨hdir, hparam, -⟩ := same
      simp only [searchFrom, deref_of_read read, bind, Except.bind, PathTrie.searchFrom]
      by_cases hk : dir ∈ keys cell.children
      · obtain ⟨c, s, hc, hs⟩ := TreeAt.exists_child layout labels hk
        have htree := child dir c s hc hs
        simp only [layout] at hc hs
        simp only [hc, hs]
        exact ih htree _
      · have hs : t.children.lookup dir = none := by
          rw [lookup_eq_none_iff]
          exact fun hmem => hk (labels ▸ hmem)
        simp only [lookup_eq_none_iff.mpr hk, hs, hparam, hdir]
        split
        · rcases beginChild_tree order labels child with
            ⟨c, s, k, hc, hs, htree⟩ | ⟨hc, hs⟩
          · simp only [hc, hs]
            exact ih htree _
          · simp only [hc, hs]
        · rfl

theorem searchParamsFrom_tree (h : TreeAt layout heap a t S) (oasPath : Bytes)
    (paramIdxs : ParamIdxs) (frags : List (Bytes × ParamRange)) :
    searchParamsFrom order heap oasPath paramIdxs frags a =
      PathTrie.searchParamsFrom order oasPath paramIdxs frags t := by
  induction frags generalizing oasPath paramIdxs a t S with
  | nil => rfl
  | cons p rest ih =>
    obtain ⟨dir, range⟩ := p
    cases h with
    | node cell sub read same labels nodup child root apart footprint =>
      obtain ⟨hdir, hparam, hidx⟩ := same
      simp only [searchParamsFrom, deref_of_read read, bind, Except.bind, PathTrie.searchParamsFrom]
      by_cases hk : dir ∈ keys cell.children
      · obtain ⟨c, s, hc, hs⟩ := TreeAt.exists_child layout labels hk
        have htree := child dir c s hc hs
        simp only [layout] at hc hs
        simp only [hc, hs]
        exact ih htree _ _
      · have hs : t.children.lookup dir = none := by
          rw [lookup_eq_none_iff]
          exact fun hmem => hk (labels ▸ hmem)
        simp only [lookup_eq_none_iff.mpr hk, hs, hparam, hdir, hidx]
        split
        · rcases beginChild_tree order labels child with
            ⟨c, s, k, hc, hs, htree⟩ | ⟨hc, hs⟩
          · simp only [hc, hs]
            exact ih htree _ _
          · simp only [hc, hs]
        · rfl

/-! ### Insertions -/

/-- A node that a fragment is inserted below. -/
def mark (dir : Bytes) (node : Node) : Node :=
  if isParamDir dir then { node with isParam := true, dir := dir } else node

def markCell (dir : Bytes) (cell : Cell) : Cell :=
  if isParamDir dir then { cell with isParam := true, dir := dir } else cell

theorem mark_children (dir : Bytes) (node : Node) : (mark dir node).children = node.children := by
  unfold mark
  split <;> rfl

theorem markCell_children (dir : Bytes) (cell : Cell) :
    (markCell dir cell).children = cell.children := by
  unfold markCell
  split <;> rfl

theorem same_mark {cell : Cell} (h : layout.Same cell t) (dir : Bytes) :
    layout.Same (markCell dir cell) (mark dir t) := by
  unfold mark markCell
  split
  · exact ⟨rfl, rfl, h.2.2⟩
  · exact h

theorem insertFrom_cons (fragmentIndex : Nat) (dir : Bytes) (rest : List Bytes) (node : Node) :
    PathTrie.insertFrom fragmentIndex (dir :: rest) node =
      { mark dir node with
        children := put dir (PathTrie.insertFrom (fragmentIndex + 1) rest
          ((node.children.lookup dir).getD { fragIdx := fragmentIndex + 1 })) (mark dir node).children } := by
  rw [← mark_children dir node]
  rfl

/-- What the functions write to a node that a fragment is inserted below. -/
theorem store_mark {cell : Cell} (h : heap.cells a = some cell) (dir : Bytes) :
    (if isParamDir dir then heap.store a { cell with isParam := true, dir := dir } else heap) =
      heap.store a (markCell dir cell) := by
  unfold markCell
  split
  · rfl
  · exact (Heap.store_of_read h).symm

/-- One step of an insertion, which marks the node at `a` and links it to the node at `c`, new or not:
if the rest of the insertion goes on well from `c`, it goes well from `a`. -/
theorem insert_below (dir : Bytes) {cell : Cell} {sub : Bytes → Set Nat} {s' : Node}
    {heap₁ heap₂ : Heap Cell} {c : Nat} {C C' : Set Nat} (htree : TreeAt layout heap₂ c s' C')
    (hgrows : Grows heap₁ C heap₂ C') (hb : heap.Bounded)
    (read : heap.cells a = some cell) (same : layout.Same cell t)
    (labels : keys cell.children = keys t.children) (nodup : (keys cell.children).Nodup)
    (child : ∀ k c s, cell.children.lookup k = some c → t.children.lookup k = some s →
      TreeAt layout heap c s (sub k))
    (root : ∀ k ∈ keys cell.children, a ∉ sub k)
    (apart : ∀ k ∈ keys cell.children, ∀ k' ∈ keys cell.children, k ≠ k' → ∀ x ∈ sub k, x ∉ sub k')
    (footprint : ∀ x, x ∈ S ↔ x = a ∨ ∃ k ∈ keys cell.children, x ∈ sub k)
    (read₁ : heap₁.cells a =
      some { markCell dir cell with children := put dir c (markCell dir cell).children })
    (hC : ∀ x, x ∈ C ↔ (dir ∈ keys cell.children ∧ x ∈ sub dir) ∨ heap.next ≤ x ∧ x < heap₁.next)
    (hnext : heap.next ≤ heap₁.next)
    (hframe : ∀ x, x ≠ a → x < heap.next → heap₁.cells x = heap.cells x) :
    ∃ S', TreeAt layout heap₂ a { mark dir t with children := put dir s' (mark dir t).children } S' ∧
      Grows heap S heap₂ S' := by
  have ha : a < heap.next := hb a (by simp [read])
  have hold : ∀ k ∈ keys cell.children, ∀ x ∈ sub k, x < heap.next := by
    intro k hk x hx
    obtain ⟨c, s, hc, hs⟩ := TreeAt.exists_child layout labels hk
    exact (child k c s hc hs).lt_next hb hx
  have haC : a ∉ C := by
    rw [hC]
    rintro (⟨hk, hx⟩ | ⟨hle, -⟩)
    · exact root dir hk hx
    · omega
  have hother : ∀ k ∈ keys cell.children, k ≠ dir → ∀ x ∈ sub k, x ∉ C := by
    intro k hk hne x hx hxC
    rcases (hC x).mp hxC with ⟨hdir, hx'⟩ | ⟨hle, -⟩
    · exact apart k hk dir hdir hne x hx hx'
    · have := hold k hk x hx
      omega
  have hafter : ∀ x, x ∉ C → x < heap.next → x ≠ a → heap₂.cells x = heap.cells x :=
    fun x hx hlt hne => (hgrows.frame x hx (by omega)).trans (hframe x hne hlt)
  have hC' : ∀ x, x ∈ C' ↔ x ∈ C ∨ heap₁.next ≤ x ∧ x < heap₂.next := hgrows.footprint
  refine ⟨_, TreeAt.relink layout labels nodup ?_ root apart
    ((hgrows.frame a haC (by omega)).trans read₁) (same_mark same dir)
    (congrArg (put dir c) (markCell_children dir cell)) (congrArg (put dir s') (mark_children dir t))
    htree ?_ ?_, ?_⟩
  · intro j c s hj hc hs
    have hmem : j ∈ keys cell.children := mem_keys_of_lookup hc
    apply (child j c s hc hs).frame
    intro x hx
    exact hafter x (hother j hmem hj x hx) (hold j hmem x hx) fun e => root j hmem (e ▸ hx)
  · rw [hC']
    rintro (hx | ⟨hle, -⟩)
    · exact haC hx
    · omega
  · intro j hj hne x hx hx'
    rcases (hC' x).mp hx' with hx' | ⟨hle, -⟩
    · exact hother j hj hne x hx hx'
    · have := hold j hj x hx
      omega
  · refine ⟨hnext.trans hgrows.next_le, fun x => ?_, fun x hx hlt => ?_, hgrows.bounded⟩
    · have hle := hgrows.next_le
      simp only [Set.mem_ofPred_eq, hC', hC, footprint]
      constructor
      · rintro (rfl | ((⟨hk, hx⟩ | hx) | hx) | ⟨j, hj, -, hx⟩)
        · exact Or.inl (Or.inl rfl)
        · exact Or.inl (Or.inr ⟨dir, hk, hx⟩)
        · exact Or.inr ⟨hx.1, by omega⟩
        · exact Or.inr ⟨by omega, hx.2⟩
        · exact Or.inl (Or.inr ⟨j, hj, hx⟩)
      · rintro ((rfl | ⟨j, hj, hx⟩) | ⟨hx, hx'⟩)
        · exact Or.inl rfl
        · by_cases hjd : j = dir
          · exact Or.inr (Or.inl (Or.inl (Or.inl ⟨hjd ▸ hj, hjd ▸ hx⟩)))
          · exact Or.inr (Or.inr ⟨j, hj, hjd, hx⟩)
        · by_cases hlt : x < heap₁.next
          · exact Or.inr (Or.inl (Or.inl (Or.inr ⟨hx, hlt⟩)))
          · exact Or.inr (Or.inl (Or.inr ⟨by omega, hx'⟩))
    · rw [footprint] at hx
      push Not at hx
      apply hafter x _ hlt hx.1
      rw [hC]
      rintro (⟨hk, hxs⟩ | ⟨hle, -⟩)
      · exact hx.2 dir hk hxs
      · omega

theorem insertFrom_tree (dirs : List Bytes) (fragmentIndex : Nat) (h : TreeAt layout heap a t S)
    (hb : heap.Bounded) :
    ∃ heap' S', insertFrom fragmentIndex dirs a heap = .ok heap' ∧
      TreeAt layout heap' a (PathTrie.insertFrom fragmentIndex dirs t) S' ∧
      Grows heap S heap' S' := by
  induction dirs generalizing heap a t S fragmentIndex with
  | nil =>
    refine ⟨heap, S, rfl, h, le_rfl, fun x => ?_, fun _ _ _ => rfl, hb⟩
    constructor
    · exact Or.inl
    · rintro (hx | ⟨hle, hlt⟩)
      · exact hx
      · omega
  | cons dir rest ih =>
    cases h with
    | node cell sub read same labels nodup child root apart footprint =>
      have ha : a < heap.next := hb a (by simp [read])
      have hmarked : (heap.store a (markCell dir cell)).Bounded := hb.store ha _
      rw [insertFrom_cons]
      simp only [insertFrom, deref_of_read read, bind, Except.bind, store_mark read]
      by_cases hk : dir ∈ keys cell.children
      · -- the fragment has a node
        obtain ⟨c, s, hc, hs⟩ := TreeAt.exists_child layout labels hk
        have htree : TreeAt layout (heap.store a (markCell dir cell)) c s (sub dir) :=
          (child dir c s hc hs).frame fun x hx =>
            Heap.cells_store_ne (fun e : x = a => root dir hk (e ▸ hx)) _ heap
        simp only [layout] at hc hs
        simp only [hc, hs, Option.getD_some]
        obtain ⟨heap₂, C', hins, htree₂, hgrows⟩ := ih (fragmentIndex + 1) htree hmarked
        obtain ⟨S', h'⟩ := insert_below dir htree₂ hgrows hb read same labels nodup child root apart footprint
          (by
            rw [Heap.cells_store_same, markCell_children, put_of_lookup hc,
              ← markCell_children dir cell])
          (fun x => by simp [show dir ∈ keys cell.children from hk]) le_rfl
          (fun x hx _ => Heap.cells_store_ne hx _ heap)
        exact ⟨heap₂, S', hins, h'⟩
      · -- the fragment is new, and so is its node
        have hc : cell.children.lookup dir = none := lookup_eq_none_iff.mpr hk
        have hs : t.children.lookup dir = none := by
          rw [lookup_eq_none_iff]
          exact fun hmem => hk (labels ▸ hmem)
        have hne : ∀ x, x < heap.next → x ≠ (heap.store a (markCell dir cell)).next := fun x hx => by
          rw [Heap.next_store]
          omega
        have hread : ((heap.store a (markCell dir cell)).alloc { fragIdx := fragmentIndex + 1 }).2.cells
            a = some (markCell dir cell) := by
          rw [Heap.cells_alloc_ne (hne a ha), Heap.cells_store_same]
        simp only [hc, hs, Option.getD_none]
        rw [show ((heap.store a (markCell dir cell)).alloc { fragIdx := fragmentIndex + 1 }).1 =
          heap.next from rfl, setChild_of_read hread]
        have hleaf : TreeAt layout
            (((heap.store a (markCell dir cell)).alloc { fragIdx := fragmentIndex + 1 }).2.store a
              { markCell dir cell with children := put dir heap.next (markCell dir cell).children })
            heap.next { fragIdx := fragmentIndex + 1 } {heap.next} := by
          refine TreeAt.leaf layout { fragIdx := fragmentIndex + 1 } ?_ ⟨rfl, rfl, rfl⟩ rfl rfl
          rw [Heap.cells_store_ne (by omega)]
          exact Heap.cells_alloc_same _ _
        obtain ⟨heap₂, C', hins, htree₂, hgrows⟩ := ih (fragmentIndex + 1) hleaf
          ((hmarked.alloc _).store (show a < heap.next + 1 by omega) _)
        obtain ⟨S', h'⟩ := insert_below dir htree₂ hgrows hb read same labels nodup child root apart footprint
          (Heap.cells_store_same a _ _)
          (fun x => by
            have hlast : x ∈ ({heap.next} : Set Nat) ↔ heap.next ≤ x ∧ x < heap.next + 1 := by
              rw [Set.mem_singleton_iff]
              omega
            simpa [show dir ∉ keys cell.children from hk] using hlast)
          (Nat.le_succ heap.next)
          (fun x hx hlt => by
            rw [Heap.cells_store_ne hx, Heap.cells_alloc_ne (hne x hlt), Heap.cells_store_ne hx])
        exact ⟨heap₂, S', hins, h'⟩

end OasValidator.PathTrie.Linked
