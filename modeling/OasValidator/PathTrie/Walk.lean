import Mathlib.Data.List.Forall2
import OasValidator.PathTrie

/-! Searches as walks through lists of paths.  A walk stands at the list of what remains of the
inserted paths; a fragment that some path has next leads to the paths that have it, and any other
fragment, where some path has a parameter next, to the paths behind whatever child the table of
children keeps first, under the name of the parameter inserted last. -/

namespace OasValidator.PathTrie

open Library.Cut Library.Table Library.Words

/-- One step of a walk from `L` at `dir`: the fragment it adds to the key, and the fragment of the
child it goes on to. -/
def turn (order : Hashing) (L : List (List Bytes)) (dir : Bytes) : Option (Bytes × Bytes) :=
  if dir ∈ heads L then some (dir, dir)
  else match (paramHeads L).getLast? with
    | none => none
    | some param => (order.first (firsts L)).map fun child => (param, child)

/-- The fragments of the key that a walk from `L` puts together. -/
def walk (order : Hashing) : List (List Bytes) → List Bytes → Option (List Bytes)
  | _, [] => some []
  | L, dir :: rest =>
    match turn order L dir with
    | none => none
    | some (fragment, child) => (walk order (after child L) rest).map (fragment :: ·)

/-- The ranges that a walk records on its way, also when it ends before the path does. -/
def captures (order : Hashing) (d : Nat) :
    List (List Bytes) → List (Bytes × ParamRange) → ParamIdxs
  | _, [] => []
  | L, (dir, range) :: rest =>
    match turn order L dir with
    | none => []
    | some (_, child) =>
      if dir ∈ heads L then captures order (d + 1) (after child L) rest
      else (d, range) :: captures order (d + 1) (after child L) rest

/-- Adding recorded ranges to a map in order. -/
def record (entries paramIdxs : ParamIdxs) : ParamIdxs :=
  entries.foldl (fun t p => emplace p.1 p.2 t) paramIdxs

variable {order : Hashing}

theorem turn_of_mem {L : List (List Bytes)} {dir : Bytes} (h : dir ∈ heads L) :
    turn order L dir = some (dir, dir) := by
  simp [turn, h]

theorem mem_heads_of_mem_paramHeads {L : List (List Bytes)} {dir : Bytes}
    (h : dir ∈ paramHeads L) : dir ∈ heads L ∧ isParamDir dir := by
  simpa [paramHeads] using h

/-- Where no path has the fragment next, a step is one of two things. -/
theorem turn_of_not_mem (order : Hashing) {L : List (List Bytes)} {dir : Bytes}
    (h : dir ∉ heads L) :
    (paramHeads L = [] ∧ turn order L dir = none) ∨
    ∃ param child, (paramHeads L).getLast? = some param ∧ order.first (firsts L) = some child ∧
      turn order L dir = some (param, child) := by
  simp only [turn, if_neg h]
  cases hp : (paramHeads L).getLast? with
  | none => exact Or.inl ⟨List.getLast?_eq_none_iff.mp hp, rfl⟩
  | some param =>
    have hm := (mem_heads_of_mem_paramHeads (List.mem_of_getLast? hp)).1
    obtain ⟨child, -, hchild⟩ := order.exists_first (firsts_ne_nil hm)
    exact Or.inr ⟨param, child, rfl, hchild, by simp [hchild]⟩

/-- The fragment a step adds is the one it stands for, or a parameter of some path there. -/
theorem turn_fragment {L : List (List Bytes)} {dir fragment child : Bytes}
    (h : turn order L dir = some (fragment, child)) :
    fragment ∈ heads L ∧ child ∈ heads L ∧
      ((dir ∈ heads L ∧ fragment = dir ∧ child = dir) ∨
        (dir ∉ heads L ∧ (paramHeads L).getLast? = some fragment ∧
          order.first (firsts L) = some child)) := by
  by_cases hm : dir ∈ heads L
  · rw [turn_of_mem hm] at h
    obtain ⟨rfl, rfl⟩ : dir = fragment ∧ dir = child := by simpa using h
    exact ⟨hm, hm, Or.inl ⟨hm, rfl, rfl⟩⟩
  · rcases turn_of_not_mem order hm with ⟨-, hn⟩ | ⟨param, c, hp, hc, ht⟩
    · rw [hn] at h; simp at h
    · obtain ⟨rfl, rfl⟩ : param = fragment ∧ c = child := by simpa [ht] using h
      exact ⟨(mem_heads_of_mem_paramHeads (List.mem_of_getLast? hp)).1,
        mem_firsts.mp (Hashing.first_mem hc), Or.inr ⟨hm, hp, hc⟩⟩

theorem beginChild_holding {d : Nat} {L : List (List Bytes)} {child : Bytes}
    (h : order.first (firsts L) = some child) :
    beginChild order (holding d L) = .ok (holding (d + 1) (after child L)) := by
  have hm : child ∈ heads L := mem_firsts.mp (Hashing.first_mem h)
  rw [beginChild, (holding_children d L).1, h]
  simp [holding_lookup_of_mem hm]

/-- A search is a walk through the paths that the trie holds. -/
theorem searchFrom_holding (oasPath : Bytes) (frags : List (Bytes × ParamRange)) (d : Nat)
    (L : List (List Bytes)) :
    searchFrom order oasPath frags (holding d L) =
      .ok (match walk order L (frags.map Prod.fst) with
        | some key => (true, (oasPath ++ glue slash key).dropLast)
        | none => (false, [])) := by
  induction frags generalizing oasPath d L with
  | nil => simp [searchFrom, walk]
  | cons p rest ih =>
    obtain ⟨dir, range⟩ := p
    by_cases hm : dir ∈ heads L
    · simp only [searchFrom, holding_lookup_of_mem hm, List.map_cons, walk, turn_of_mem hm, ih]
      cases walk order (after dir L) (rest.map Prod.fst) <;> simp
    · simp only [searchFrom, holding_lookup_of_not_mem hm, List.map_cons, walk]
      rw [(holding_param d L).1, (holding_param d L).2]
      rcases turn_of_not_mem order hm with ⟨hp, ht⟩ | ⟨param, child, hp, hc, ht⟩
      · simp [hp, ht]
      · rw [hp, ht, beginChild_holding hc]
        simp only [Option.isSome_some, if_true, Option.getD_some, bind, Except.bind, ih]
        cases walk order (after child L) (rest.map Prod.fst) <;> simp

/-- The other search finds the same, and records what the walk passes by. -/
theorem searchParamsFrom_holding (oasPath : Bytes) (paramIdxs : ParamIdxs)
    (frags : List (Bytes × ParamRange)) (d : Nat) (L : List (List Bytes)) :
    searchParamsFrom order oasPath paramIdxs frags (holding d L) =
      .ok (match walk order L (frags.map Prod.fst) with
        | some key => (true, (oasPath ++ glue slash key).dropLast,
            record (captures order d L frags) paramIdxs)
        | none => (false, [], record (captures order d L frags) paramIdxs)) := by
  induction frags generalizing oasPath paramIdxs d L with
  | nil => simp [searchParamsFrom, walk, captures, record]
  | cons p rest ih =>
    obtain ⟨dir, range⟩ := p
    by_cases hm : dir ∈ heads L
    · simp only [searchParamsFrom, holding_lookup_of_mem hm, List.map_cons, walk, turn_of_mem hm, ih,
        captures, if_pos hm]
      cases walk order (after dir L) (rest.map Prod.fst) <;> simp
    · simp only [searchParamsFrom, holding_lookup_of_not_mem hm, List.map_cons, walk, captures]
      rw [(holding_param d L).1, (holding_param d L).2, holding_fragIdx]
      rcases turn_of_not_mem order hm with ⟨hp, ht⟩ | ⟨param, child, hp, hc, ht⟩
      · simp [hp, ht, record]
      · rw [hp, ht, beginChild_holding hc]
        simp only [Option.isSome_some, if_true, Option.getD_some, bind, Except.bind, ih, if_neg hm]
        cases walk order (after child L) (rest.map Prod.fst) <;> simp [record]

/-! ### What a walk says about the path -/

/-- A fragment of a key stands for a fragment of a request path. -/
def Stands (fragment dir : Bytes) : Prop := fragment = dir ∨ isParamDir fragment

theorem walk_stands {L : List (List Bytes)} {dirs key : List Bytes}
    (h : walk order L dirs = some key) : List.Forall₂ Stands key dirs := by
  induction dirs generalizing L key with
  | nil =>
    obtain rfl : key = [] := by simpa [walk] using h.symm
    exact List.Forall₂.nil
  | cons dir rest ih =>
    unfold walk at h
    split at h
    · simp at h
    · rename_i fragment child ht
      obtain ⟨key', hkey, rfl⟩ : ∃ k, walk order (after child L) rest = some k ∧ fragment :: k = key := by
        simpa using h
      refine List.Forall₂.cons ?_ (ih hkey)
      rcases (turn_fragment ht).2.2 with ⟨-, rfl, -⟩ | ⟨-, hp, -⟩
      · exact Or.inl rfl
      · exact Or.inr (mem_heads_of_mem_paramHeads (List.mem_of_getLast? hp)).2

/-- Every recorded range is that of the fragment at the recorded index. -/
theorem captures_getElem {d : Nat} {L : List (List Bytes)} {frags : List (Bytes × ParamRange)}
    {i : Nat} {range : ParamRange} (h : (i, range) ∈ captures order d L frags) :
    d ≤ i ∧ ∃ dir, frags[i - d]? = some (dir, range) := by
  induction frags generalizing d L with
  | nil => simp [captures] at h
  | cons p rest ih =>
    obtain ⟨dir, r⟩ := p
    have later : ∀ {child}, (i, range) ∈ captures order (d + 1) (after child L) rest →
        d ≤ i ∧ ∃ dir', ((dir, r) :: rest)[i - d]? = some (dir', range) := fun hc => by
      obtain ⟨hle, dir', hget⟩ := ih hc
      exact ⟨by omega, dir', by rw [show i - d = (i - (d + 1)) + 1 by omega]; simpa using hget⟩
    unfold captures at h
    split at h
    · simp at h
    · split at h
      · exact later h
      · rcases List.mem_cons.mp h with h | h
        · obtain ⟨rfl, rfl⟩ : i = d ∧ range = r := by simpa using h
          exact ⟨le_rfl, dir, by simp⟩
        · exact later h

/-- A finished walk records exactly the indices where the key differs from the path. -/
theorem mem_captures_iff {d : Nat} {L : List (List Bytes)} {frags : List (Bytes × ParamRange)}
    {key : List Bytes} (h : walk order L (frags.map Prod.fst) = some key) (i : Nat) :
    d + i ∈ keys (captures order d L frags) ↔
      ∃ fragment dir, key[i]? = some fragment ∧ (frags.map Prod.fst)[i]? = some dir ∧
        fragment ≠ dir := by
  induction frags generalizing d L key i with
  | nil => simp [captures]
  | cons p rest ih =>
    obtain ⟨dir, range⟩ := p
    simp only [List.map_cons, walk] at h
    split at h
    · simp at h
    rename_i fragment child ht
    obtain ⟨key', hkey, rfl⟩ : ∃ k, walk order (after child L) (rest.map Prod.fst) = some k ∧
      fragment :: k = key := by simpa using h
    have behind := fun j => ih (d := d + 1) hkey j
    simp only [show ∀ j, d + 1 + j = d + (j + 1) by omega] at behind
    have front : d ∉ keys (captures order (d + 1) (after child L) rest) := by
      intro hd
      obtain ⟨⟨i', r⟩, hmem, rfl⟩ := List.mem_map.mp hd
      have := (captures_getElem hmem).1
      simp only at this
      omega
    simp only [captures, ht]
    rcases (turn_fragment ht).2.2 with ⟨hm, rfl, -⟩ | ⟨hm, hp, -⟩
    · rw [if_pos hm]
      cases i with
      | zero => simpa using front
      | succ j => simpa using behind j
    · rw [if_neg hm, keys_cons]
      have hne : fragment ≠ dir := fun e =>
        hm (e ▸ (mem_heads_of_mem_paramHeads (List.mem_of_getLast? hp)).1)
      cases i with
      | zero => simpa using hne
      | succ j => simpa using behind j

theorem fragments_fst (path : Bytes) : (fragments path).map Prod.fst = cut slash path := by
  have hranged : ∀ (fs : List Bytes) (beg : Nat), (ranged beg fs).map Prod.fst = fs := by
    intro fs
    induction fs with
    | nil => intro _; rfl
    | cons f fs ih => intro beg; simp [ranged, ih]
  exact hranged _ 0

theorem mem_record {entries paramIdxs : ParamIdxs} {i : Nat} {range : ParamRange}
    (h : (i, range) ∈ record entries paramIdxs) : (i, range) ∈ paramIdxs ∨ (i, range) ∈ entries := by
  induction entries generalizing paramIdxs with
  | nil => exact Or.inl h
  | cons p rest ih =>
    rcases ih h with h | h
    · rcases mem_emplace h with h | ⟨rfl, rfl⟩
      · exact Or.inl h
      · exact Or.inr List.mem_cons_self
    · exact Or.inr (List.mem_cons_of_mem _ h)

theorem mem_keys_record {entries paramIdxs : ParamIdxs} {i : Nat} :
    i ∈ keys (record entries paramIdxs) ↔ i ∈ keys paramIdxs ∨ i ∈ keys entries := by
  induction entries generalizing paramIdxs with
  | nil => simp [record]
  | cons p rest ih =>
    rw [show record (p :: rest) paramIdxs = record rest (emplace p.1 p.2 paramIdxs) from rfl, ih,
      mem_keys_emplace, keys_cons, List.mem_cons]
    tauto

end OasValidator.PathTrie
