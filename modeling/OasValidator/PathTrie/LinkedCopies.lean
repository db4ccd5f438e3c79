import OasValidator.PathTrie.LinkedTrees

/-! Deleting and copying tries of nodes and pointers.  Deleting a tree releases each of its nodes once;
a copy is the same tree on new nodes, and one node more is made that nothing points to. -/

namespace OasValidator.PathTrie.Linked

open Library.Cells Library.Table

variable {order : Hashing} {heap : Heap Cell} {a : Nat} {t : Node} {S : Set Nat}

/-! ### Deletion -/

/-- The loop over the children, each of which is released where its footprint is as it was. -/
theorem deleteAll_released {depth : Nat} {sub : Bytes → Set Nat} {todo : List (Bytes × Nat)}
    {heap₁ : Heap Cell} (nodup : (keys todo).Nodup)
    (hdelete : ∀ p ∈ todo, ∀ heap₁ : Heap Cell, (∀ x ∈ sub p.1, heap₁.cells x = heap.cells x) →
      ∃ heap₂, deleteNode order depth p.2 heap₁ = .ok heap₂ ∧ Released (sub p.1) heap₁ heap₂)
    (apart : ∀ k ∈ keys todo, ∀ k' ∈ keys todo, k ≠ k' → ∀ x ∈ sub k, x ∉ sub k')
    (hsame : ∀ k ∈ keys todo, ∀ x ∈ sub k, heap₁.cells x = heap.cells x) :
    ∃ heap₂, todo.foldlM (fun heap child => deleteNode order depth child.2 heap) heap₁ = .ok heap₂ ∧
      Released {x | ∃ k ∈ keys todo, x ∈ sub k} heap₁ heap₂ := by
  induction todo generalizing heap₁ with
  | nil => exact ⟨heap₁, rfl, rfl, by simp, fun _ _ => rfl⟩
  | cons p rest ih =>
    rw [keys_cons, List.nodup_cons] at nodup
    obtain ⟨heap₂, hdel, hrel⟩ := hdelete p List.mem_cons_self heap₁ (hsame p.1 (by simp))
    have hapart : ∀ k ∈ keys rest, ∀ x ∈ sub k, x ∉ sub p.1 := fun k hk =>
      apart k (by simp [hk]) p.1 (by simp) fun e => nodup.1 (e ▸ hk)
    obtain ⟨heap₃, hloop, hrest⟩ := ih nodup.2
      (fun q hq => hdelete q (List.mem_cons_of_mem p hq))
      (fun k hk k' hk' => apart k (by simp [hk]) k' (by simp [hk']))
      (fun k hk x hx => by rw [hrel.kept x (hapart k hk x hx), hsame k (by simp [hk]) x hx])
    refine ⟨heap₃, by simp [List.foldlM_cons, hdel, hloop, bind, Except.bind], hrest.next.trans hrel.next,
      ?_, ?_⟩
    · rintro x ⟨k, hk, hx⟩
      by_cases hmem : ∃ j ∈ keys rest, x ∈ sub j
      · exact hrest.gone x hmem
      · rw [hrest.kept x hmem]
        rcases List.mem_cons.mp hk with rfl | hk
        · exact hrel.gone x hx
        · exact absurd ⟨k, hk, hx⟩ hmem
    · intro x hx
      rw [hrest.kept x fun ⟨k, hk, hxk⟩ => hx ⟨k, by simp [hk], hxk⟩]
      exact hrel.kept x fun hxp => hx ⟨p.1, by simp, hxp⟩

/-- A depth of as many nodes as the tree may have is enough. -/
theorem deleteNode_tree (h : TreeAt layout heap a t S) {F : Finset Nat} (hF : ∀ x ∈ S, x ∈ F)
    {depth : Nat} (hdepth : F.card ≤ depth) {heap₁ : Heap Cell}
    (hsame : ∀ x ∈ S, heap₁.cells x = heap.cells x) :
    ∃ heap₂, deleteNode order depth a heap₁ = .ok heap₂ ∧ Released S heap₁ heap₂ := by
  induction h generalizing F depth heap₁ with
  | @node a t S cell sub read same labels nodup child root apart footprint ih =>
    have haS : a ∈ S := (footprint a).mpr (Or.inl rfl)
    have haF : a ∈ F := hF a haS
    obtain ⟨depth, rfl⟩ : ∃ d, depth = d + 1 := by
      have := Finset.card_pos.mpr ⟨a, haF⟩
      exact ⟨depth - 1, by omega⟩
    have hsub : ∀ k ∈ keys cell.children, ∀ x ∈ sub k, x ∈ S := fun k hk x hx =>
      (footprint x).mpr (Or.inr ⟨k, hk, hx⟩)
    have hread : heap₁.cells a = some cell := (hsame a haS).trans read
    have hkeys : ∀ k, k ∈ keys (entries order cell.children) ↔ k ∈ keys cell.children := fun k => by
      rw [keys_entries, (order.perm _).mem_iff]
    have hdelete : ∀ p ∈ entries order cell.children, ∀ heap₁ : Heap Cell,
        (∀ x ∈ sub p.1, heap₁.cells x = heap.cells x) →
        ∃ heap₂, deleteNode order depth p.2 heap₁ = .ok heap₂ ∧ Released (sub p.1) heap₁ heap₂ := by
      rintro ⟨k, c⟩ hp heap₁ hsame
      have hc : cell.children.lookup k = some c := mem_entries.mp hp
      have hk : k ∈ keys cell.children := mem_keys_of_lookup hc
      obtain ⟨s, hs⟩ := exists_lookup (show k ∈ keys t.children from labels ▸ hk)
      refine ih k c s hc hs (F := F.erase a) (fun x hx => ?_) ?_ hsame
      · exact Finset.mem_erase.mpr ⟨fun e => root k hk (e ▸ hx), hF x (hsub k hk x hx)⟩
      · rw [Finset.card_erase_of_mem haF]
        omega
    obtain ⟨heap₂, hloop, hrel⟩ := deleteAll_released
      (nodup_keys_entries (show (keys cell.children).Nodup from nodup)) hdelete
      (fun k hk k' hk' => apart k ((hkeys k).mp hk) k' ((hkeys k').mp hk'))
      (fun k hk x hx => hsame x (hsub k ((hkeys k).mp hk) x hx))
    have hlive : heap₂.cells a = some cell := by
      rw [hrel.kept a, hread]
      rintro ⟨k, hk, hx⟩
      exact root k ((hkeys k).mp hk) hx
    refine ⟨heap₂.release a, ?_, ?_, ?_, ?_⟩
    · simp only [deleteNode, deref_of_read hread, bind, Except.bind]
      simp only [hloop, free, deref_of_read hlive, bind, Except.bind, pure, Except.pure]
    · exact hrel.next
    · intro x hx
      by_cases hxa : x = a
      · rw [hxa, Heap.cells_release_same]
      · rw [Heap.cells_release_ne hxa]
        obtain ⟨k, hk, hx⟩ := ((footprint x).mp hx).resolve_left hxa
        exact hrel.gone x ⟨k, (hkeys k).mpr hk, hx⟩
    · intro x hx
      rw [footprint] at hx
      push Not at hx
      rw [Heap.cells_release_ne hx.1]
      exact hrel.kept x fun ⟨k, hk, hxk⟩ => hx.2 k ((hkeys k).mp hk) hxk

/-- `DeleteNode` with the depth that the number of addresses gives. -/
theorem deleteNode_root (order : Hashing) (h : TreeAt layout heap a t S) (hb : heap.Bounded) :
    ∃ heap', deleteNode order heap.next a heap = .ok heap' ∧ Released S heap heap' :=
  deleteNode_tree h (F := Finset.range heap.next)
    (fun _ hx => Finset.mem_range.mpr (h.lt_next hb hx)) (by simp) fun _ _ => rfl

/-! ### Copies -/

/-- The heap after a pointer is written. -/
def Slot.written (slot : Slot) (node : Nat) (heap : Heap Cell) : Heap Cell :=
  match slot with
  | .root => heap
  | .child parent dir =>
    match heap.cells parent with
    | some cell => heap.store parent { cell with children := put dir node cell.children }
    | none => heap

/-- The pointer is in a node that lives, at none of the addresses `S`. -/
def Slot.Outside (slot : Slot) (S : Set Nat) (heap : Heap Cell) : Prop :=
  ∀ parent dir, slot = .child parent dir → parent ∉ S ∧ heap.cells parent ≠ none

theorem Slot.assign_eq {slot : Slot} (h : slot.Outside S heap) (node : Nat) :
    slot.assign node heap = .ok (slot.written node heap) := by
  cases slot with
  | root => rfl
  | child parent dir =>
    obtain ⟨cell, hcell⟩ := Option.ne_none_iff_exists'.mp (h parent dir rfl).2
    simp [Slot.assign, Slot.written, setChild_of_read hcell, hcell]

theorem Slot.next_written (slot : Slot) (node : Nat) (heap : Heap Cell) :
    (slot.written node heap).next = heap.next := by
  cases slot with
  | root => rfl
  | child parent dir =>
    simp only [Slot.written]
    split <;> rfl

/-- Writing a pointer changes at most the node that it is in. -/
theorem Slot.cells_written {slot : Slot} {x : Nat} (h : ∀ parent dir, slot = .child parent dir → x ≠ parent)
    (node : Nat) : (slot.written node heap).cells x = heap.cells x := by
  cases slot with
  | root => rfl
  | child parent dir =>
    simp only [Slot.written]
    split
    · exact Heap.cells_store_ne (h parent dir rfl) _ heap
    · rfl

theorem Slot.bounded_written {slot : Slot} (h : slot.Outside S heap) (hb : heap.Bounded) (node : Nat) :
    (slot.written node heap).Bounded := by
  cases slot with
  | root => exact hb
  | child parent dir =>
    simp only [Slot.written]
    split
    · exact hb.store (hb parent (h parent dir rfl).2) _
    · exact hb

/-- Writing a pointer sees of a heap only the node that it is in. -/
theorem Slot.written_congr {slot : Slot} {heap' : Heap Cell} {x : Nat}
    (h : ∀ parent dir, slot = .child parent dir → heap'.cells parent = heap.cells parent)
    (hx : heap'.cells x = heap.cells x) (node : Nat) :
    (slot.written node heap').cells x = (slot.written node heap).cells x := by
  cases slot with
  | root => exact hx
  | child parent dir =>
    simp only [Slot.written, h parent dir rfl]
    split
    · by_cases hp : x = parent
      · simp [hp]
      · rw [Heap.cells_store_ne hp, Heap.cells_store_ne hp, hx]
    · exact hx

/-- A copy of the tree `t` at the new node `node`, which a pointer leads to. -/
structure CopyAt (slot : Slot) (t : Node) (heap : Heap Cell) (node : Nat) (heap' : Heap Cell) :
    Prop where
  next_le : heap.next ≤ heap'.next
  tree : TreeAt layout heap' node t {x | heap.next ≤ x ∧ x < heap'.next}
  frame : ∀ x < heap.next, heap'.cells x = (slot.written node heap).cells x
  bounded : heap'.Bounded

/-- The children `ks` of the node at `node` are copied: its links to them lead to trees of their own,
which all new addresses are for, and nothing else happened. -/
structure Copied (node : Nat) (cell : Cell) (kids : List (Bytes × Node)) (ks : List Bytes)
    (heap heap' : Heap Cell) (children : List (Bytes × Nat)) (sub : Bytes → Set Nat) : Prop where
  next_le : heap.next ≤ heap'.next
  bounded : heap'.Bounded
  read : heap'.cells node = some { cell with children := children }
  labels : keys children = keys cell.children
  kept : ∀ k, k ∉ ks → children.lookup k = cell.children.lookup k
  child : ∀ k ∈ ks, ∀ c s, children.lookup k = some c → kids.lookup k = some s →
    TreeAt layout heap' c s (sub k)
  footprint : ∀ x, (∃ k ∈ ks, x ∈ sub k) ↔ heap.next ≤ x ∧ x < heap'.next
  apart : ∀ k ∈ ks, ∀ k' ∈ ks, k ≠ k' → ∀ x ∈ sub k, x ∉ sub k'
  frame : ∀ x < heap.next, x ≠ node → heap'.cells x = heap.cells x

section

variable {dir : Bytes} {node new : Nat} {cell : Cell} {s : Node} {kids : List (Bytes × Node)}
  {heap₁ heap₂ heap₃ : Heap Cell} {ks : List Bytes} {children : List (Bytes × Nat)}
  {sub : Bytes → Set Nat}

theorem CopyAt.cells_child (h : CopyAt (.child node dir) s heap₁ new heap₂)
    (read : heap₁.cells node = some cell) {x : Nat} (hx : x < heap₁.next) :
    heap₂.cells x =
      (heap₁.store node { cell with children := put dir new cell.children }).cells x := by
  rw [h.frame x hx, Slot.written, read]

/-- One more child is copied. -/
theorem Copied.cons (hat : CopyAt (.child node dir) s heap₁ new heap₂) (hb : heap₁.Bounded)
    (read : heap₁.cells node = some cell) (hs : kids.lookup dir = some s)
    (hdir : dir ∈ keys cell.children) (hnew : dir ∉ ks)
    (h : Copied node { cell with children := put dir new cell.children } kids ks heap₂ heap₃
      children sub) :
    Copied node cell kids (dir :: ks) heap₁ heap₃ children
      (fun k => if k = dir then {x | heap₁.next ≤ x ∧ x < heap₂.next} else sub k) := by
  have hlt : node < heap₁.next := hb node (by simp [read])
  have hne : ∀ {k}, k ∈ ks → k ≠ dir := fun hk e => hnew (e ▸ hk)
  have hold : ∀ {k}, k ∈ dir :: ks → k ≠ dir → k ∈ ks := fun hk hkd =>
    (List.mem_cons.mp hk).resolve_left hkd
  have hlater : ∀ {k}, k ∈ ks → ∀ x ∈ sub k, heap₂.next ≤ x := fun hk x hx =>
    ((h.footprint x).mp ⟨_, hk, hx⟩).1
  have hmid := hat.next_le
  have hend := h.next_le
  constructor
  · exact hmid.trans hend
  · exact h.bounded
  · exact h.read
  · rw [h.labels]
    show keys (put dir new cell.children) = _
    rw [keys_put, if_pos hdir]
  · intro k hk
    rw [List.mem_cons, not_or] at hk
    rw [h.kept k hk.2, lookup_put, if_neg (by simpa using hk.1)]
  · intro k hk c' s' hc hs'
    rcases List.mem_cons.mp hk with rfl | hk
    · rw [h.kept k hnew, lookup_put, if_pos BEq.rfl] at hc
      obtain rfl := Option.some.inj hc
      obtain rfl := Option.some.inj (hs.symm.trans hs')
      rw [if_pos rfl]
      exact hat.tree.frame fun x hx => h.frame x hx.2 (by have := hx.1; omega)
    · rw [if_neg (hne hk)]
      exact h.child k hk c' s' hc hs'
  · intro x
    constructor
    · rintro ⟨k, hk, hx⟩
      by_cases hkd : k = dir
      · rw [if_pos hkd] at hx
        exact ⟨hx.1, by have := hx.2; omega⟩
      · rw [if_neg hkd] at hx
        obtain ⟨hle, hlt⟩ := (h.footprint x).mp ⟨k, hold hk hkd, hx⟩
        exact ⟨by omega, hlt⟩
    · rintro ⟨hle, hlt⟩
      by_cases hx : x < heap₂.next
      · exact ⟨dir, by simp, by simpa using ⟨hle, hx⟩⟩
      · obtain ⟨k, hk, hxk⟩ := (h.footprint x).mpr ⟨by omega, hlt⟩
        exact ⟨k, by simp [hk], by rwa [if_neg (hne hk)]⟩
  · intro k hk k' hk' hkk x hx hx'
    by_cases hkd : k = dir <;> by_cases hkd' : k' = dir
    · exact hkk (hkd.trans hkd'.symm)
    · rw [if_pos hkd] at hx
      rw [if_neg hkd'] at hx'
      have := hlater (hold hk' hkd') x hx'
      have := hx.2
      omega
    · rw [if_neg hkd] at hx
      rw [if_pos hkd'] at hx'
      have := hlater (hold hk hkd) x hx
      have := hx'.2
      omega
    · rw [if_neg hkd] at hx
      rw [if_neg hkd'] at hx'
      exact h.apart k (hold hk hkd) k' (hold hk' hkd') hkk x hx hx'
  · intro x hx hxn
    rw [h.frame x (lt_of_lt_of_le hx hmid) hxn, hat.cells_child read hx, Heap.cells_store_ne hxn]

end

/-- The loop over the children, each of which is copied where its footprint is as it was. -/
theorem copyAll_copied {depth node : Nat} {cell : Cell} {kids : List (Bytes × Node)}
    {sub : Bytes → Set Nat} {todo : List (Bytes × Nat)} {heap₁ : Heap Cell}
    (nodup : (keys todo).Nodup) (hlabels : ∀ k ∈ keys todo, k ∈ keys cell.children)
    (hcopy : ∀ p ∈ todo, ∃ s, kids.lookup p.1 = some s ∧ ∀ heap₁ : Heap Cell, heap₁.Bounded →
      heap₁.cells node ≠ none → (∀ x ∈ sub p.1, heap₁.cells x = heap.cells x) →
      ∃ new heap₂, copyNode order depth (.child node p.1) p.2 heap₁ = .ok (new, heap₂) ∧
        CopyAt (.child node p.1) s heap₁ new heap₂)
    (hsub : ∀ k ∈ keys todo, ∀ x ∈ sub k, x ≠ node ∧ x < heap₁.next ∧ heap₁.cells x = heap.cells x)
    (read : heap₁.cells node = some cell) (hb : heap₁.Bounded) :
    ∃ heap₂ children sub', todo.foldlM (fun heap child => do
        let (_, heap) ← copyNode order depth (.child node child.1) child.2 heap
        pure heap) heap₁ = .ok heap₂ ∧
      Copied node cell kids (keys todo) heap₁ heap₂ children sub' := by
  induction todo generalizing heap₁ cell with
  | nil =>
    exact ⟨heap₁, cell.children, fun _ => ∅, rfl, le_rfl, hb, read, rfl, fun _ _ => rfl, by simp,
      fun x => by simp, by simp, fun _ _ _ => rfl⟩
  | cons p rest ih =>
    obtain ⟨dir, c⟩ := p
    rw [keys_cons, List.nodup_cons] at nodup
    obtain ⟨s, hs, hone⟩ := hcopy (dir, c) List.mem_cons_self
    obtain ⟨new, heap₂, hnew, hat⟩ := hone heap₁ hb (by simp [read])
      fun x hx => (hsub dir (by simp) x hx).2.2
    have hdir : dir ∈ keys cell.children := hlabels dir (by simp)
    have hread : heap₂.cells node = some { cell with children := put dir new cell.children } := by
      rw [hat.cells_child read (hb node (by simp [read])), Heap.cells_store_same]
    obtain ⟨heap₃, children, sub', hloop, hcopied⟩ := ih nodup.2
      (fun k hk => by
        rw [keys_put, if_pos hdir]
        exact hlabels k (by simp [hk]))
      (fun q hq => hcopy q (List.mem_cons_of_mem _ hq))
      (fun k hk x hx => by
        obtain ⟨hne, hlt, hsame⟩ := hsub k (by simp [hk]) x hx
        refine ⟨hne, lt_of_lt_of_le hlt hat.next_le, ?_⟩
        rw [hat.cells_child read hlt, Heap.cells_store_ne hne, hsame])
      hread hat.bounded
    refine ⟨heap₃, children, _, ?_, hcopied.cons hat hb read hs hdir nodup.1⟩
    simp only [List.foldlM_cons, hnew, bind, Except.bind, pure, Except.pure]
    simp only [bind, Except.bind, pure, Except.pure] at hloop
    exact hloop

/-- A depth of as many nodes as the tree may have is enough. -/
theorem copyNode_tree (h : TreeAt layout heap a t S) {F : Finset Nat} (hF : ∀ x ∈ S, x ∈ F)
    {depth : Nat} (hdepth : F.card ≤ depth) {slot : Slot} {heap₁ : Heap Cell} (hb : heap₁.Bounded)
    (hslot : slot.Outside S heap₁) (hsame : ∀ x ∈ S, heap₁.cells x = heap.cells x) :
    ∃ node heap₂, copyNode order depth slot a heap₁ = .ok (node, heap₂) ∧
      CopyAt slot t heap₁ node heap₂ := by
  induction h generalizing F depth slot heap₁ with
  | @node a t S cell sub read same labels nodup child root apart footprint ih =>
    have htree := TreeAt.node cell sub read same labels nodup child root apart footprint
    have haF : a ∈ F := hF a htree.root_mem
    obtain ⟨depth, rfl⟩ : ∃ d, depth = d + 1 := by
      have := Finset.card_pos.mpr ⟨a, haF⟩
      exact ⟨depth - 1, by omega⟩
    have hsub : ∀ k ∈ keys cell.children, ∀ x ∈ sub k, x ∈ S := fun k hk x hx =>
      (footprint x).mpr (Or.inr ⟨k, hk, hx⟩)
    have hlt : ∀ x ∈ S, x < heap₁.next := fun x hx => hb x (by rw [hsame x hx]; exact htree.live hx)
    have hread : heap₁.cells a = some cell := (hsame a htree.root_mem).trans read
    -- the new node, with the pointers of the old one, and the pointer to it
    have hslot' : slot.Outside S (heap₁.alloc cell).2 := fun parent dir hs => by
      obtain ⟨hout, hlive⟩ := hslot parent dir hs
      rw [Heap.cells_alloc_ne (hb parent hlive).ne]
      exact ⟨hout, hlive⟩
    have hnext₂ : (slot.written heap₁.next (heap₁.alloc cell).2).next = heap₁.next + 1 :=
      slot.next_written _ _
    have hread₂ : (slot.written heap₁.next (heap₁.alloc cell).2).cells heap₁.next = some cell := by
      rw [Slot.cells_written fun parent dir hs => (hb parent (hslot parent dir hs).2).ne',
        Heap.cells_alloc_same]
    have hframe₂ : ∀ x < heap₁.next, (slot.written heap₁.next (heap₁.alloc cell).2).cells x =
        (slot.written heap₁.next heap₁).cells x := fun x hx =>
      Slot.written_congr (fun parent dir hs =>
        Heap.cells_alloc_ne (hb parent (hslot parent dir hs).2).ne cell)
        (Heap.cells_alloc_ne hx.ne cell) _
    have hsame₂ : ∀ x ∈ S, (slot.written heap₁.next (heap₁.alloc cell).2).cells x = heap.cells x := by
      intro x hx
      rw [hframe₂ x (hlt x hx), Slot.cells_written, hsame x hx]
      exact fun parent dir hs e => (hslot parent dir hs).1 (e ▸ hx)
    -- the loop
    have hkeys : ∀ k, k ∈ keys (entries order cell.children) ↔ k ∈ keys cell.children := fun k => by
      rw [keys_entries, (order.perm _).mem_iff]
    have hcopy : ∀ p ∈ entries order cell.children, ∃ s, t.children.lookup p.1 = some s ∧
        ∀ heap₂ : Heap Cell, heap₂.Bounded → heap₂.cells heap₁.next ≠ none →
        (∀ x ∈ sub p.1, heap₂.cells x = heap.cells x) →
        ∃ new heap₃, copyNode order depth (.child heap₁.next p.1) p.2 heap₂ = .ok (new, heap₃) ∧
          CopyAt (.child heap₁.next p.1) s heap₂ new heap₃ := by
      rintro ⟨k, c⟩ hp
      have hc : cell.children.lookup k = some c := mem_entries.mp hp
      have hk : k ∈ keys cell.children := mem_keys_of_lookup hc
      obtain ⟨s, hs⟩ := exists_lookup (show k ∈ keys t.children from labels ▸ hk)
      refine ⟨s, hs, fun heap₂ hb₂ hlive hsame₂ => ?_⟩
      refine ih k c s hc hs (F := F.erase a) (fun x hx => ?_) ?_ hb₂ ?_ hsame₂
      · exact Finset.mem_erase.mpr ⟨fun e => root k hk (e ▸ hx), hF x (hsub k hk x hx)⟩
      · rw [Finset.card_erase_of_mem haF]
        omega
      · rintro _ _ ⟨⟩
        exact ⟨fun hx => (hlt _ (hsub k hk _ hx)).ne rfl, hlive⟩
    have hold : ∀ k ∈ keys (entries order cell.children), ∀ x ∈ sub k, x ≠ heap₁.next ∧
        x < (slot.written heap₁.next (heap₁.alloc cell).2).next ∧
        (slot.written heap₁.next (heap₁.alloc cell).2).cells x = heap.cells x := by
      intro k hk x hx
      have hxS := hsub k ((hkeys k).mp hk) x hx
      have := hlt x hxS
      exact ⟨this.ne, by omega, hsame₂ x hxS⟩
    obtain ⟨heap₃, children, sub', hloop, hcopied⟩ := copyAll_copied
      (nodup_keys_entries (show (keys cell.children).Nodup from nodup)) (fun k hk => (hkeys k).mp hk)
      hcopy hold hread₂ (Slot.bounded_written hslot' (hb.alloc cell) _)
    have hle := hcopied.next_le
    have hkeys' : ∀ k, k ∈ keys children ↔ k ∈ keys (entries order cell.children) := fun k => by
      rw [hcopied.labels, hkeys]
    have hnew : ∀ k ∈ keys children, ∀ x ∈ sub' k, heap₁.next < x ∧ x < heap₃.next := by
      intro k hk x hx
      have := (hcopied.footprint x).mp ⟨k, (hkeys' k).mp hk, hx⟩
      omega
    refine ⟨heap₁.next, heap₃, ?_, ?_, ?_, ?_, hcopied.bounded⟩
    · simp only [bind, Except.bind, pure, Except.pure] at hloop
      simp only [copyNode, deref_of_read hread, bind, Except.bind, pure, Except.pure]
      rw [show (heap₁.alloc cell).1 = heap₁.next from rfl, Slot.assign_eq hslot']
      simp only [hloop]
    · omega
    · refine .node { cell with children := children } sub' hcopied.read same (hcopied.labels.trans labels)
        (hcopied.labels ▸ nodup) (fun k c s hc hs => ?_) (fun k hk hx => ?_) (fun k hk k' hk' => ?_)
        fun x => ?_
      · exact hcopied.child k ((hkeys' k).mp (mem_keys_of_lookup hc)) c s hc hs
      · exact (hnew k hk _ hx).1.ne rfl
      · exact hcopied.apart k ((hkeys' k).mp hk) k' ((hkeys' k').mp hk')
      · constructor
        · rintro ⟨hx, hx'⟩
          by_cases hroot : x = heap₁.next
          · exact Or.inl hroot
          · obtain ⟨k, hk, hxk⟩ := (hcopied.footprint x).mpr ⟨by omega, hx'⟩
            exact Or.inr ⟨k, (hkeys' k).mpr hk, hxk⟩
        · rintro (rfl | ⟨k, hk, hx⟩)
          · exact ⟨le_rfl, by omega⟩
          · obtain ⟨h₁, h₂⟩ := hnew k hk x hx
            exact ⟨h₁.le, h₂⟩
    · intro x hx
      rw [hcopied.frame x (by omega) hx.ne, hframe₂ x hx]

/-- Copy construction makes the tree on new nodes.  The first new node is no part of it. -/
theorem copyRoot_tree (order : Hashing) (h : TreeAt layout heap a t S) (hb : heap.Bounded) :
    ∃ node heap', copyRoot order a heap = .ok (node, heap') ∧ heap.next < heap'.next ∧
      TreeAt layout heap' node t {x | heap.next < x ∧ x < heap'.next} ∧
      heap'.cells heap.next ≠ none ∧ (∀ x < heap.next, heap'.cells x = heap.cells x) ∧
      heap'.Bounded := by
  obtain ⟨cell, hread⟩ := Option.ne_none_iff_exists'.mp (h.live h.root_mem)
  have hsame : ∀ x < heap.next, (heap.alloc cell).2.cells x = heap.cells x := fun x hx =>
    Heap.cells_alloc_ne hx.ne cell
  have hlt : ∀ x ∈ S, x < heap.next := fun x hx => h.lt_next hb hx
  have hdepth : (Finset.range heap.next).card ≤ heap.next + 1 := by simp
  have hslot : Slot.root.Outside S (heap.alloc cell).2 := by rintro _ _ ⟨⟩
  obtain ⟨node, heap', hcopy, hat⟩ := copyNode_tree h
    (fun x hx => Finset.mem_range.mpr (hlt x hx)) hdepth (hb.alloc cell) hslot
    fun x hx => hsame x (hlt x hx)
  have hle : heap.next + 1 ≤ heap'.next := hat.next_le
  refine ⟨node, heap', ?_, hle, hat.tree, ?_, fun x hx => ?_, hat.bounded⟩
  · simp only [copyRoot, deref_of_read hread, bind, Except.bind]
    exact hcopy
  · rw [hat.frame heap.next (Nat.lt_succ_self _)]
    show (heap.alloc cell).2.cells heap.next ≠ none
    simp
  · rw [hat.frame x (Nat.lt_succ_of_lt hx)]
    exact hsame x hx

end OasValidator.PathTrie.Linked
