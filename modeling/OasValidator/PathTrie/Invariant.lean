import OasValidator.PathTrie.Order

/-! What holds of every node of a trie, after any insertions: its index is its depth, its children
have distinct fragments, and it is a parameter's if and only if some child's fragment is one, under the
name of such a child.  A search of a trie with this invariant is defined on every path. -/

namespace OasValidator.PathTrie

open Library.Cut Library.Table Library.Words

/-- The fragments on the way from the root to the node are this many. -/
inductive Leads (root : Node) : Nat → Node → Prop
  | root : Leads root 0 root
  | child {depth : Nat} {node child : Node} {dir : Bytes} (above : Leads root depth node)
    (mem : (dir, child) ∈ node.children) : Leads root (depth + 1) child

structure NodeInv (depth : Nat) (node : Node) : Prop where
  fragIdx : node.fragIdx = depth
  distinct : (keys node.children).Nodup
  dir : node.isParam → isParamDir node.dir ∧ node.dir ∈ keys node.children
  isParam_iff : node.isParam ↔ ∃ dir ∈ keys node.children, isParamDir dir

def Invariant (root : Node) : Prop := ∀ depth node, Leads root depth node → NodeInv depth node

/-! ### Insertions keep the invariant -/

theorem holding_distinct (d : Nat) (L : List (List Bytes)) : (keys (holding d L).children).Nodup := by
  induction L using List.reverseRecOn with
  | nil => exact List.nodup_nil
  | append_singleton L w ih =>
    rw [holding_snoc]
    cases w with
    | nil => exact ih
    | cons dir rest =>
      simp only [insertFrom]
      split <;> exact nodup_keys_put ih

theorem holding_inv (d : Nat) (L : List (List Bytes)) : NodeInv d (holding d L) where
  fragIdx := holding_fragIdx d L
  distinct := holding_distinct d L
  dir := by
    obtain ⟨hparam, hdir⟩ := holding_param d L
    intro h
    rw [hparam] at h
    obtain ⟨dir, hlast⟩ := Option.isSome_iff_exists.mp h
    obtain ⟨hmem, hbrace⟩ := mem_heads_of_mem_paramHeads (List.mem_of_getLast? hlast)
    rw [hdir, hlast, (holding_children d L).1]
    exact ⟨hbrace, mem_firsts.mpr hmem⟩
  isParam_iff := by
    rw [(holding_param d L).1, (holding_children d L).1, List.getLast?_isSome]
    constructor
    · intro h
      obtain ⟨dir, hdir⟩ := List.exists_mem_of_ne_nil _ h
      obtain ⟨hmem, hbrace⟩ := mem_heads_of_mem_paramHeads hdir
      exact ⟨dir, mem_firsts.mpr hmem, hbrace⟩
    · rintro ⟨dir, hmem, hbrace⟩
      exact List.ne_nil_of_mem (List.mem_filter.mpr ⟨mem_firsts.mp hmem, hbrace⟩)

theorem leads_holding {L : List (List Bytes)} {depth : Nat} {node : Node}
    (h : Leads (holding 0 L) depth node) : ∃ L', node = holding depth L' := by
  induction h with
  | root => exact ⟨L, rfl⟩
  | @child depth node child dir above mem ih =>
    obtain ⟨L', rfl⟩ := ih
    have hlookup := lookup_of_mem (holding_distinct depth L') mem
    have hkey : dir ∈ heads L' := by
      rw [← mem_firsts, ← (holding_children depth L').1]
      exact mem_keys_of_lookup hlookup
    rw [holding_lookup_of_mem hkey] at hlookup
    exact ⟨after dir L', (Option.some.inj hlookup).symm⟩

theorem insertAll_invariant (paths : List Bytes) : Invariant (insertAll paths) := by
  intro depth node h
  rw [insertAll_eq] at h
  obtain ⟨L, rfl⟩ := leads_holding h
  exact holding_inv depth L

/-! ### Searches of a trie with the invariant -/

section

variable {root node : Node} {depth : Nat}

/-- A parameter's node has a first child. -/
theorem Invariant.beginChild (h : Invariant root) (hnode : Leads root depth node)
    (hparam : node.isParam) (order : Hashing) :
    ∃ child, beginChild order node = .ok child ∧ Leads root (depth + 1) child := by
  have hmem := ((h depth node hnode).dir hparam).2
  obtain ⟨dir, hdir, hfirst⟩ := order.exists_first (List.ne_nil_of_mem hmem)
  obtain ⟨child, hchild⟩ := exists_lookup hdir
  exact ⟨child, by simp [PathTrie.beginChild, hfirst, hchild], .child hnode (mem_of_lookup hchild)⟩

theorem Invariant.searchFrom (h : Invariant root) (hnode : Leads root depth node) (order : Hashing)
    (oasPath : Bytes) (frags : List (Bytes × ParamRange)) :
    ∃ r, searchFrom order oasPath frags node = .ok r := by
  induction frags generalizing oasPath depth node with
  | nil => exact ⟨_, rfl⟩
  | cons p rest ih =>
    obtain ⟨dir, range⟩ := p
    simp only [PathTrie.searchFrom]
    cases hlookup : node.children.lookup dir with
    | some child => exact ih (.child hnode (mem_of_lookup hlookup)) _
    | none =>
      by_cases hparam : node.isParam
      · obtain ⟨child, hchild, hleads⟩ := h.beginChild hnode hparam order
        simp only [if_pos hparam, hchild]
        exact ih hleads _
      · simp only [if_neg hparam]
        exact ⟨_, rfl⟩

theorem Invariant.searchParamsFrom (h : Invariant root) (hnode : Leads root depth node)
    (order : Hashing) (oasPath : Bytes) (paramIdxs : ParamIdxs) (frags : List (Bytes × ParamRange)) :
    ∃ r, searchParamsFrom order oasPath paramIdxs frags node = .ok r := by
  induction frags generalizing oasPath paramIdxs depth node with
  | nil => exact ⟨_, rfl⟩
  | cons p rest ih =>
    obtain ⟨dir, range⟩ := p
    simp only [PathTrie.searchParamsFrom]
    cases hlookup : node.children.lookup dir with
    | some child => exact ih (.child hnode (mem_of_lookup hlookup)) _ _
    | none =>
      by_cases hparam : node.isParam
      · obtain ⟨child, hchild, hleads⟩ := h.beginChild hnode hparam order
        simp only [if_pos hparam, hchild]
        exact ih hleads _ _
      · simp only [if_neg hparam]
        exact ⟨_, rfl⟩

end

/-! ### Searches for inserted paths -/

/-- The path without one `/` at its end. -/
def withoutSlash (path : Bytes) : Bytes :=
  if path.getLast? = some slash then path.dropLast else path

theorem dropLast_glue_cut_eq (path : Bytes) :
    (glue slash (cut slash path)).dropLast = withoutSlash path := by
  unfold withoutSlash
  split
  · rename_i h
    rw [glue_cut, if_pos (Or.inr h)]
  · rename_i h
    exact dropLast_glue_cut h

theorem search_inserted {paths : List Bytes} {path : Bytes} (h : path ∈ paths) (order : Hashing) :
    search order (insertAll paths) path = .ok (true, withoutSlash path) := by
  have hbegins : Begins (paths.map (cut slash)) (cut slash path) :=
    ⟨cut slash path, List.mem_map_of_mem h, List.prefix_rfl⟩
  rw [search, insertAll_eq, searchFrom_holding, fragments_fst, walk_of_begins hbegins]
  simp [dropLast_glue_cut_eq]

theorem searchParams_inserted {paths : List Bytes} {path : Bytes} (h : path ∈ paths)
    (order : Hashing) (paramIdxs : ParamIdxs) :
    ∃ paramIdxs', searchParams order (insertAll paths) path paramIdxs =
      .ok (true, withoutSlash path, paramIdxs') := by
  have hbegins : Begins (paths.map (cut slash)) (cut slash path) :=
    ⟨cut slash path, List.mem_map_of_mem h, List.prefix_rfl⟩
  rw [searchParams_insertAll, walk_of_begins hbegins, ← dropLast_glue_cut_eq]
  exact ⟨_, rfl⟩

/-- After any insertions every node has the invariant, both searches are defined on every path, and
they find each inserted path. -/
theorem trie_invariant (paths : List Bytes) :
    (∀ depth node, Leads (insertAll paths) depth node → NodeInv depth node) ∧
      (∀ order path paramIdxs, (∃ r, search order (insertAll paths) path = .ok r) ∧
        ∃ r, searchParams order (insertAll paths) path paramIdxs = .ok r) ∧
      ∀ path ∈ paths, ∀ order paramIdxs,
        search order (insertAll paths) path = .ok (true, withoutSlash path) ∧
          ∃ paramIdxs', searchParams order (insertAll paths) path paramIdxs =
            .ok (true, withoutSlash path, paramIdxs') := by
  have hinv := insertAll_invariant paths
  refine ⟨hinv, fun order path paramIdxs => ⟨?_, ?_⟩, fun path hpath order paramIdxs => ?_⟩
  · exact hinv.searchFrom .root order [] (fragments path)
  · exact hinv.searchParamsFrom .root order [] paramIdxs (fragments path)
  · exact ⟨search_inserted hpath order, searchParams_inserted hpath order paramIdxs⟩

end OasValidator.PathTrie
