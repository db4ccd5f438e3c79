import Mathlib.Data.List.Induction
import OasValidator.Common
import OasValidator.Library.Cut
import OasValidator.Library.Words

/-! The trie of declared paths, and what it holds: after any sequence of insertions each node is
determined by the remainders of the inserted paths there, so that a search is a walk through lists of
paths. -/

namespace OasValidator.PathTrie

open Library.Cut Library.Table Library.Words

structure Node where
  dir : Bytes := []
  isParam : Bool := false
  fragIdx : Nat := 0
  children : List (Bytes × Node) := []

/-- A fragment that the trie takes for a parameter. -/
def isParamDir (dir : Bytes) : Bool := dir.head? = some openBrace

/-- The loop of `insert`, from a node that `fragmentIndex` fragments lead to. -/
def insertFrom (fragmentIndex : Nat) : List Bytes → Node → Node
  | [], node => node
  | dir :: rest, node =>
    let node := if isParamDir dir then { node with isParam := true, dir := dir } else node
    let child := (node.children.lookup dir).getD { fragIdx := fragmentIndex + 1 }
    { node with children := put dir (insertFrom (fragmentIndex + 1) rest child) node.children }

def insert (path : Bytes) (root : Node) : Node := insertFrom 0 (cut slash path) root

/-- Fragments with their ranges, the first one starting at `beg`. -/
def ranged (beg : Nat) : List Bytes → List (Bytes × ParamRange)
  | [] => []
  | dir :: rest => (dir, ⟨beg, beg + dir.length⟩) :: ranged (beg + dir.length + 1) rest

/-- The fragments of a request path that a search steps through. -/
def fragments (path : Bytes) : List (Bytes × ParamRange) := ranged 0 (cut slash path)

/-- `children.begin()->second`, undefined on an empty map. -/
def beginChild (order : Hashing) (node : Node) : Except Fault Node :=
  match (order.first (keys node.children)).bind fun dir => node.children.lookup dir with
  | some child => .ok child
  | none => .error .undefined

/-- The loop of `search`: whether it ends at the end of the path, with `oas_path`. -/
def searchFrom (order : Hashing) (oasPath : Bytes) :
    List (Bytes × ParamRange) → Node → Except Fault (Bool × Bytes)
  | [], _ => .ok (true, oasPath.dropLast)
  | (dir, _) :: rest, node =>
    match node.children.lookup dir with
    | none =>
      if node.isParam then do
        searchFrom order (oasPath ++ (node.dir ++ [slash])) rest (← beginChild order node)
      else .ok (false, [])
    | some child => searchFrom order (oasPath ++ (dir ++ [slash])) rest child

def search (order : Hashing) (root : Node) (path : Bytes) : Except Fault (Bool × Bytes) :=
  searchFrom order [] (fragments path) root

/-- The loop of the other `search`, which records the ranges that stand for parameters. -/
def searchParamsFrom (order : Hashing) (oasPath : Bytes) (paramIdxs : ParamIdxs) :
    List (Bytes × ParamRange) → Node → Except Fault (Bool × Bytes × ParamIdxs)
  | [], _ => .ok (true, oasPath.dropLast, paramIdxs)
  | (dir, range) :: rest, node =>
    match node.children.lookup dir with
    | none =>
      if node.isParam then do
        searchParamsFrom order (oasPath ++ (node.dir ++ [slash]))
          (emplace node.fragIdx range paramIdxs) rest (← beginChild order node)
      else .ok (false, [], paramIdxs)
    | some child => searchParamsFrom order (oasPath ++ (dir ++ [slash])) paramIdxs rest child

def searchParams (order : Hashing) (root : Node) (path : Bytes) (paramIdxs : ParamIdxs) :
    Except Fault (Bool × Bytes × ParamIdxs) :=
  searchParamsFrom order [] paramIdxs (fragments path) root

/-! ### What a node holds -/

/-- The node that `d` fragments lead to, after the remainders `L` went through it. -/
def holding (d : Nat) (L : List (List Bytes)) : Node :=
  L.foldl (fun node w => insertFrom d w node) { fragIdx := d }

/-- The parameter fragments among the first ones of `L`, in order. -/
def paramHeads (L : List (List Bytes)) : List Bytes := (heads L).filter isParamDir

theorem holding_snoc (d : Nat) (L : List (List Bytes)) (w : List Bytes) :
    holding d (L ++ [w]) = insertFrom d w (holding d L) := by
  simp [holding]

theorem holding_fragIdx (d : Nat) (L : List (List Bytes)) : (holding d L).fragIdx = d := by
  induction L using List.reverseRecOn with
  | nil => rfl
  | append_singleton L w ih =>
    rw [holding_snoc]
    cases w with
    | nil => exact ih
    | cons dir rest => simp only [insertFrom]; split <;> exact ih

theorem paramHeads_snoc_cons (L : List (List Bytes)) (dir : Bytes) (w : List Bytes) :
    paramHeads (L ++ [dir :: w]) = if isParamDir dir then paramHeads L ++ [dir] else paramHeads L := by
  simp only [paramHeads, heads_append, heads_cons_cons, heads_nil, List.filter_append,
    List.filter_cons, List.filter_nil]
  split <;> simp

/-- A node is a parameter's, under the name of the parameter inserted last. -/
theorem holding_param (d : Nat) (L : List (List Bytes)) :
    (holding d L).isParam = (paramHeads L).getLast?.isSome ∧
      (holding d L).dir = (paramHeads L).getLast?.getD [] := by
  induction L using List.reverseRecOn with
  | nil => exact ⟨rfl, rfl⟩
  | append_singleton L w ih =>
    rw [holding_snoc]
    cases w with
    | nil => simpa [insertFrom, paramHeads] using ih
    | cons dir rest =>
      rw [paramHeads_snoc_cons]
      simp only [insertFrom]
      split
      · simp
      · exact ih

/-- The children of a node are the first fragments of the remainders there, and each child holds
what remains behind its fragment. -/
theorem holding_children (d : Nat) (L : List (List Bytes)) :
    keys (holding d L).children = firsts L ∧
      ∀ dir, (holding d L).children.lookup dir =
        if dir ∈ heads L then some (holding (d + 1) (after dir L)) else none := by
  induction L using List.reverseRecOn with
  | nil => exact ⟨rfl, fun _ => rfl⟩
  | append_singleton L w ih =>
    obtain ⟨hkeys, hlookup⟩ := ih
    rw [holding_snoc]
    cases w with
    | nil =>
      refine ⟨by simpa [insertFrom] using hkeys, fun dir => ?_⟩
      simpa [insertFrom, after_append] using hlookup dir
    | cons dir rest =>
      have hchildren : (insertFrom d (dir :: rest) (holding d L)).children =
          put dir (holding (d + 1) (after dir L ++ [rest])) (holding d L).children := by
        have hchild : ((holding d L).children.lookup dir).getD { fragIdx := d + 1 } =
            holding (d + 1) (after dir L) := by
          rw [hlookup]
          split
          · rfl
          · rename_i h
            rw [after_eq_nil_iff.mpr h]
            rfl
        rw [holding_snoc, ← hchild]
        simp only [insertFrom]
        split <;> rfl
      rw [hchildren]
      refine ⟨?_, fun dir' => ?_⟩
      · rw [keys_put, hkeys, firsts_append_singleton]
        by_cases h : dir ∈ firsts L <;> simp [h]
      · rw [lookup_put, hlookup, after_append]
        by_cases h : dir' = dir
        · subst h
          simp
        · simp [h, after_singleton_of_ne rest (Ne.symm h)]

theorem holding_lookup_of_mem {d : Nat} {L : List (List Bytes)} {dir : Bytes} (h : dir ∈ heads L) :
    (holding d L).children.lookup dir = some (holding (d + 1) (after dir L)) := by
  rw [(holding_children d L).2, if_pos h]

theorem holding_lookup_of_not_mem {d : Nat} {L : List (List Bytes)} {dir : Bytes}
    (h : dir ∉ heads L) : (holding d L).children.lookup dir = none := by
  rw [(holding_children d L).2, if_neg h]

end OasValidator.PathTrie
