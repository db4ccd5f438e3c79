import OasValidator.PathTrie.Invariant
import OasValidator.PathTrie.LinkedCopies

/-! Programs that construct, copy, assign, fill, search and destroy tries.  What such a program means
is said without nodes: a living trie is the list of the paths inserted into it, and a copy takes the
list over.  The tries of nodes and pointers give the same answers, each on nodes of its own. -/

namespace OasValidator.PathTrie.Linked

open Library.Cells Library.Table

/-! ### What programs mean -/

/-- The paths inserted into each living trie, oldest first. -/
abbrev Histories := Nat → Option (List Bytes)

def Histories.step (order : Hashing) (h : Histories) :
    Op → Option (Except Fault (Histories × Answer))
  | .construct trie =>
    match h trie with
    | some _ => none
    | none => some (.ok (Function.update h trie (some []), .done))
  | .copyConstruct trie other =>
    match h trie, h other with
    | none, some paths => some (.ok (Function.update h trie (some paths), .done))
    | _, _ => none
  | .assign trie other =>
    match h trie, h other with
    | some _, some paths => some (.ok (Function.update h trie (some paths), .done))
    | _, _ => none
  | .insert trie path =>
    (h trie).map fun paths => .ok (Function.update h trie (some (paths ++ [path])), .done)
  | .search trie path =>
    (h trie).map fun paths => do
      let result ← PathTrie.search order (insertAll paths) path
      pure (h, .found result)
  | .searchParams trie path paramIdxs =>
    (h trie).map fun paths => do
      let result ← PathTrie.searchParams order (insertAll paths) path paramIdxs
      pure (h, .foundParams result)
  | .destroy trie => (h trie).map fun _ => .ok (Function.update h trie none, .done)

def Histories.run (order : Hashing) (h : Histories) :
    List Op → Option (Except Fault (Histories × List Answer))
  | [] => some (.ok (h, []))
  | op :: ops =>
    match h.step order op with
    | none => none
    | some (.error e) => some (.error e)
    | some (.ok (h, answer)) =>
      (Histories.run order h ops).map fun r => r.map fun p => (p.1, answer :: p.2)

/-- An operation that copies a trie. -/
def isCopy : Op → Bool
  | .copyConstruct _ _ => true
  | .assign trie other => trie ≠ other
  | _ => false

/-! ### What the nodes are -/

/-- A trie lives on the nodes at `S`, or does not live and has none. -/
def Standing (heap : Heap Cell) (root : Option Nat) (paths : Option (List Bytes)) (S : Set Nat) :
    Prop :=
  match root, paths with
  | some a, some paths => TreeAt layout heap a (insertAll paths) S
  | none, none => S = ∅
  | _, _ => False

/-- Each trie has nodes of its own, and all other nodes are lost. -/
structure Represents (s : Tries) (h : Histories) (foot : Nat → Set Nat) (lost : List Nat) : Prop where
  bounded : s.heap.Bounded
  trie : ∀ v, Standing s.heap (s.roots v) (h v) (foot v)
  apart : ∀ v v', v ≠ v' → ∀ x ∈ foot v, x ∉ foot v'
  nodup : lost.Nodup
  live : ∀ x ∈ lost, s.heap.cells x ≠ none
  free : ∀ x ∈ lost, ∀ v, x ∉ foot v
  owned : ∀ x, s.heap.cells x ≠ none → x ∈ lost ∨ ∃ v, x ∈ foot v

theorem represents_empty : Represents {} (fun _ => none) (fun _ => ∅) [] where
  bounded _ h := absurd rfl h
  trie _ := rfl
  apart := by simp
  nodup := List.nodup_nil
  live := by simp
  free := by simp
  owned _ h := absurd rfl h

variable {order : Hashing} {s : Tries} {h : Histories} {foot : Nat → Set Nat} {lost : List Nat}

theorem Standing.frame {heap heap' : Heap Cell} {root : Option Nat} {paths : Option (List Bytes)}
    {S : Set Nat} (hs : Standing heap root paths S) (hsame : ∀ x ∈ S, heap'.cells x = heap.cells x) :
    Standing heap' root paths S := by
  unfold Standing at hs ⊢
  split at hs
  · exact TreeAt.frame hs hsame
  · exact hs
  · exact hs

theorem Standing.live {heap : Heap Cell} {root : Option Nat} {paths : Option (List Bytes)}
    {S : Set Nat} (hs : Standing heap root paths S) {x : Nat} (hx : x ∈ S) : heap.cells x ≠ none := by
  unfold Standing at hs
  split at hs
  · exact TreeAt.live hs hx
  · rw [hs] at hx
    exact absurd hx (Set.notMem_empty x)
  · exact hs.elim

namespace Represents

theorem lt_next (hs : Represents s h foot lost) {v x : Nat} (hx : x ∈ foot v) : x < s.heap.next :=
  hs.bounded x ((hs.trie v).live hx)

/-- A change of one trie, which takes new nodes and may lose some of them. -/
theorem change (hs : Represents s h foot lost) (v : Nat) {heap : Heap Cell} (root : Option Nat)
    (paths : Option (List Bytes)) (S : Set Nat) (more : List Nat) (hb : heap.Bounded)
    (hframe : ∀ x, x ∉ foot v → x < s.heap.next → heap.cells x = s.heap.cells x)
    (hfoot : ∀ x ∈ S, x ∈ foot v ∨ s.heap.next ≤ x) (hnodup : more.Nodup)
    (hmore : ∀ x ∈ more, s.heap.next ≤ x ∧ x ∉ S ∧ heap.cells x ≠ none)
    (howned : ∀ x, x ∈ foot v ∨ s.heap.next ≤ x → heap.cells x ≠ none → x ∈ S ∨ x ∈ more)
    (hstand : Standing heap root paths S) :
    Represents ⟨heap, Function.update s.roots v root⟩ (Function.update h v paths)
      (Function.update foot v S) (lost ++ more) := by
  have hlost : ∀ x ∈ lost, x < s.heap.next := fun x hx => hs.bounded x (hs.live x hx)
  have hother : ∀ w, w ≠ v → ∀ x ∈ foot w, heap.cells x = s.heap.cells x := fun w hw x hx =>
    hframe x (hs.apart w v hw x hx) (hs.lt_next hx)
  have hlive : ∀ x ∈ lost, heap.cells x ≠ none := fun x hx => by
    rw [hframe x (hs.free x hx v) (hlost x hx)]
    exact hs.live x hx
  have hnew : ∀ w, w ≠ v → ∀ x ∈ foot w, x ∉ S := fun w hw x hx hxS => by
    have := hs.lt_next hx
    rcases hfoot x hxS with hxv | hle
    · exact hs.apart w v hw x hx hxv
    · omega
  refine ⟨hb, fun w => ?_, fun w w' hww x hx hx' => ?_, ?_, fun x hx => ?_, fun x hx w => ?_,
    fun x hx => ?_⟩
  · by_cases hw : w = v
    · simpa [hw] using hstand
    · simpa [hw] using (hs.trie w).frame (hother w hw)
  · by_cases hw : w = v <;> by_cases hw' : w' = v
    · exact hww (hw.trans hw'.symm)
    · simp only [hw, Function.update_self, ne_eq, hw', not_false_iff, Function.update_of_ne] at hx hx'
      exact hnew w' hw' x hx' hx
    · simp only [hw', Function.update_self, ne_eq, hw, not_false_iff, Function.update_of_ne] at hx hx'
      exact hnew w hw x hx hx'
    · simp only [ne_eq, hw, hw', not_false_iff, Function.update_of_ne] at hx hx'
      exact hs.apart w w' hww x hx hx'
  · refine List.nodup_append.mpr ⟨hs.nodup, hnodup, ?_⟩
    rintro x hx y hy rfl
    have := hlost x hx
    have := (hmore x hy).1
    omega
  · rcases List.mem_append.mp hx with hx | hx
    · exact hlive x hx
    · exact (hmore x hx).2.2
  · rcases List.mem_append.mp hx with hx | hx <;> by_cases hw : w = v
    · rw [hw, Function.update_self]
      intro hxS
      have := hlost x hx
      rcases hfoot x hxS with hxv | hle
      · exact hs.free x hx v hxv
      · omega
    · rw [Function.update_of_ne hw]
      exact hs.free x hx w
    · rw [hw, Function.update_self]
      exact (hmore x hx).2.1
    · rw [Function.update_of_ne hw]
      intro hxw
      have := hs.lt_next hxw
      have := (hmore x hx).1
      omega
  · by_cases hmine : x ∈ foot v ∨ s.heap.next ≤ x
    · rcases howned x hmine hx with hxS | hxm
      · exact Or.inr ⟨v, by simpa using hxS⟩
      · exact Or.inl (List.mem_append_right _ hxm)
    · rw [not_or, not_le] at hmine
      rw [hframe x hmine.1 hmine.2] at hx
      rcases hs.owned x hx with hxl | ⟨w, hxw⟩
      · exact Or.inl (List.mem_append_left _ hxl)
      · have hw : w ≠ v := fun e => hmine.1 (e ▸ hxw)
        exact Or.inr ⟨w, by simpa [hw] using hxw⟩

theorem dead_or_tree (hs : Represents s h foot lost) (v : Nat) :
    (s.roots v = none ∧ h v = none) ∨ ∃ a paths, s.roots v = some a ∧ h v = some paths ∧
      TreeAt layout s.heap a (insertAll paths) (foot v) := by
  have hv := hs.trie v
  unfold Standing at hv
  split at hv
  · rename_i a paths hroot hpaths
    exact Or.inr ⟨a, paths, hroot, hpaths, hv⟩
  · rename_i hroot hpaths
    exact Or.inl ⟨hroot, hpaths⟩
  · exact hv.elim

theorem foot_of_dead (hs : Represents s h foot lost) {v : Nat} (hroot : s.roots v = none)
    (hpaths : h v = none) : foot v = ∅ := by
  have hv := hs.trie v
  rw [hroot, hpaths] at hv
  exact hv

/-- The outcome of an operation: it is none that a program can make, or it does what it means. -/
def Step (order : Hashing) (s : Tries) (h : Histories) (lost : List Nat) (op : Op) : Prop :=
  (step order s op = none ∧ h.step order op = none) ∨
    ∃ s' h' answer foot' more, step order s op = some (.ok (s', answer)) ∧
      h.step order op = some (.ok (h', answer)) ∧ Represents s' h' foot' (lost ++ more) ∧
      more.length = [op].countP isCopy

theorem step_construct (hs : Represents s h foot lost) (v : Nat) :
    Step order s h lost (.construct v) := by
  rcases hs.dead_or_tree v with ⟨hroot, hpaths⟩ | ⟨a, paths, hroot, hpaths, -⟩
  · have hstand : Standing (s.heap.alloc {}).2 (some s.heap.next) (some []) {s.heap.next} :=
      TreeAt.leaf layout {} (Heap.cells_alloc_same {} s.heap) ⟨rfl, rfl, rfl⟩ rfl rfl
    refine Or.inr ⟨_, _, .done, _, [], by simp only [step, hroot]; rfl,
      by simp only [Histories.step, hpaths], hs.change v _ _ _ [] (hs.bounded.alloc {}) (fun x _ hx => ?_)
        (fun x hx => ?_) List.nodup_nil (by simp) (fun x hx hlive => ?_) hstand, rfl⟩
    · exact Heap.cells_alloc_ne hx.ne {}
    · exact Or.inr (Set.mem_singleton_iff.mp hx).ge
    · rw [hs.foot_of_dead hroot hpaths] at hx
      have hle : s.heap.next ≤ x := hx.resolve_left (Set.notMem_empty x)
      have hlt : x < s.heap.next + 1 := hs.bounded.alloc {} x hlive
      exact Or.inl (Set.mem_singleton_iff.mpr (by omega))
  · exact Or.inl ⟨by simp only [step, hroot], by simp only [Histories.step, hpaths]⟩

theorem step_insert (hs : Represents s h foot lost) (v : Nat) (path : Bytes) :
    Step order s h lost (.insert v path) := by
  rcases hs.dead_or_tree v with ⟨hroot, hpaths⟩ | ⟨a, paths, hroot, hpaths, htree⟩
  · exact Or.inl ⟨by simp only [step, hroot, Option.map_none],
      by simp only [Histories.step, hpaths, Option.map_none]⟩
  · obtain ⟨heap', S', hins, htree', hgrows⟩ :=
      insertFrom_tree (Library.Cut.cut slash path) 0 htree hs.bounded
    have hstand : Standing heap' (some a) (some (paths ++ [path])) S' := by
      show TreeAt layout heap' a (insertAll (paths ++ [path])) S'
      rw [insertAll, List.foldl_append]
      exact htree'
    have hchange := hs.change v _ _ _ [] hgrows.bounded hgrows.frame
      (fun x hx => ((hgrows.footprint x).mp hx).imp_right And.left) List.nodup_nil (by simp)
      (fun x hx hlive => Or.inl ((hgrows.footprint x).mpr
        (hx.imp_right fun hle => ⟨hle, hgrows.bounded x hlive⟩))) hstand
    rw [← hroot, Function.update_eq_self] at hchange
    refine Or.inr ⟨_, _, .done, _, [], ?_, by simp only [Histories.step, hpaths, Option.map_some],
      hchange, rfl⟩
    simp only [step, hroot, Option.map_some, insert, hins, bind, Except.bind, pure, Except.pure]

theorem step_destroy (hs : Represents s h foot lost) (v : Nat) :
    Step order s h lost (.destroy v) := by
  rcases hs.dead_or_tree v with ⟨hroot, hpaths⟩ | ⟨a, paths, hroot, hpaths, htree⟩
  · exact Or.inl ⟨by simp only [step, hroot, Option.map_none],
      by simp only [Histories.step, hpaths, Option.map_none]⟩
  · obtain ⟨heap', hdel, hrel⟩ := deleteNode_root order htree hs.bounded
    refine Or.inr ⟨_, _, .done, _, [], ?_, by simp only [Histories.step, hpaths, Option.map_some],
      hs.change v none none ∅ [] (hrel.bounded hs.bounded)
        (fun x hx _ => hrel.kept x hx) (by simp) List.nodup_nil (by simp) (fun x hx hlive => ?_) rfl, rfl⟩
    · simp only [step, hroot, Option.map_some, hdel, bind, Except.bind, pure, Except.pure]
    · rcases hx with hx | hle
      · exact absurd (hrel.gone x hx) hlive
      · have hlt := hrel.bounded hs.bounded x hlive
        rw [hrel.next] at hlt
        omega

/-- A copy of the trie at `other`, whose nodes are all in place, becomes the trie at `v`, whose nodes
are gone. -/
theorem change_copy (hs : Represents s h foot lost) (order : Hashing) {v other a : Nat}
    {paths : List Bytes} {heap : Heap Cell} (hrel : Released (foot v) s.heap heap) (hne : other ≠ v)
    (htree : TreeAt layout s.heap a (insertAll paths) (foot other)) :
    ∃ root heap' S, copyRoot order a heap = .ok (root, heap') ∧
      Represents ⟨heap', Function.update s.roots v (some root)⟩
        (Function.update h v (some paths)) (Function.update foot v S) (lost ++ [heap.next]) := by
  have hb := hrel.bounded hs.bounded
  obtain ⟨root, heap', hcopy, hlt, htree', hlive, hframe, hb'⟩ := copyRoot_tree order
    (htree.frame fun x hx => hrel.kept x (hs.apart other v hne x hx)) hb
  refine ⟨root, heap', _, hcopy, hs.change v (some root) (some paths) _ [heap.next] hb'
    (fun x hx hlt => ?_) (fun x hx => ?_) (List.nodup_singleton _) (fun x hx => ?_)
    (fun x hx hlive => ?_) htree'⟩
  · rw [hframe x (hrel.next ▸ hlt), hrel.kept x hx]
  · have := hx.1
    have := hrel.next
    exact Or.inr (by omega)
  · obtain rfl := List.mem_singleton.mp hx
    exact ⟨hrel.next.ge, fun hx => hx.1.ne rfl, hlive⟩
  · have hlt' := hb' x hlive
    rcases hx with hx | hle
    · have hlt := hs.lt_next hx
      rw [hframe x (hrel.next ▸ hlt)] at hlive
      exact absurd (hrel.gone x hx) hlive
    · rw [← hrel.next] at hle
      rcases hle.eq_or_lt with rfl | hlt
      · exact Or.inr (List.mem_singleton.mpr rfl)
      · exact Or.inl ⟨hlt, hlt'⟩

theorem step_copyConstruct (hs : Represents s h foot lost) (v other : Nat) :
    Step order s h lost (.copyConstruct v other) := by
  rcases hs.dead_or_tree v with ⟨hroot, hpaths⟩ | ⟨a, paths, hroot, hpaths, htree⟩
  · rcases hs.dead_or_tree other with ⟨hroot', hpaths'⟩ | ⟨a, paths, hroot', hpaths', htree⟩
    · exact Or.inl ⟨by simp only [step, hroot, hroot'], by simp only [Histories.step, hpaths, hpaths']⟩
    · have hrel : Released (foot v) s.heap s.heap := by
        rw [hs.foot_of_dead hroot hpaths]
        exact ⟨rfl, by simp, fun _ _ => rfl⟩
      have hne : other ≠ v := fun e => by
        rw [e, hroot] at hroot'
        exact absurd hroot' (by simp)
      obtain ⟨root, heap', S, hcopy, hrep⟩ := hs.change_copy order hrel hne htree
      refine Or.inr ⟨_, _, .done, _, _, ?_, by simp only [Histories.step, hpaths, hpaths'], hrep, rfl⟩
      simp only [step, hroot, hroot', hcopy, bind, Except.bind, pure, Except.pure]
  · exact Or.inl ⟨by simp only [step, hroot], by simp only [Histories.step, hpaths]⟩

theorem step_assign (hs : Represents s h foot lost) (v other : Nat) :
    Step order s h lost (.assign v other) := by
  rcases hs.dead_or_tree v with ⟨hroot, hpaths⟩ | ⟨a, paths, hroot, hpaths, htree⟩
  · exact Or.inl ⟨by simp only [step, hroot], by simp only [Histories.step, hpaths]⟩
  · rcases hs.dead_or_tree other with ⟨hroot', hpaths'⟩ | ⟨a', paths', hroot', hpaths', htree'⟩
    · exact Or.inl ⟨by simp only [step, hroot, hroot'], by simp only [Histories.step, hpaths, hpaths']⟩
    · by_cases hsame : v = other
      · -- self-assignment returns at once, and the list is assigned to itself
        subst hsame
        have hself : h.step order (.assign v v) = some (.ok (h, .done)) := by
          simp only [Histories.step, hpaths]
          rw [← hpaths, Function.update_eq_self]
        refine Or.inr ⟨s, h, .done, foot, [], ?_, hself, by simpa using hs, by simp [isCopy]⟩
        simp only [step, hroot, if_true]
      · obtain ⟨heap, hdel, hrel⟩ := deleteNode_root order htree hs.bounded
        obtain ⟨root, heap', S, hcopy, hrep⟩ := hs.change_copy order hrel (Ne.symm hsame) htree'
        refine Or.inr ⟨_, _, .done, _, _, ?_, by simp only [Histories.step, hpaths, hpaths'], hrep,
          by simp [isCopy, hsame]⟩
        simp only [step, hroot, hroot', if_neg hsame, hdel, hcopy, bind, Except.bind, pure, Except.pure]

/-- Searches change nothing, and see the nodes only as the paths inserted. -/
theorem step_search (hs : Represents s h foot lost) (v : Nat) (path : Bytes) :
    Step order s h lost (.search v path) := by
  rcases hs.dead_or_tree v with ⟨hroot, hpaths⟩ | ⟨a, paths, hroot, hpaths, htree⟩
  · exact Or.inl ⟨by simp only [step, hroot, Option.map_none],
      by simp only [Histories.step, hpaths, Option.map_none]⟩
  · obtain ⟨result, hresult⟩ := (insertAll_invariant paths).searchFrom .root order [] (fragments path)
    have hsearch : search order a path s.heap = .ok result := (searchFrom_tree htree [] _).trans hresult
    refine Or.inr ⟨s, h, .found result, foot, [], ?_, ?_, by simpa using hs, rfl⟩
    · simp only [step, hroot, Option.map_some, hsearch, bind, Except.bind, pure, Except.pure]
    · simp only [Histories.step, hpaths, Option.map_some, PathTrie.search, hresult, bind, Except.bind,
        pure, Except.pure]

theorem step_searchParams (hs : Represents s h foot lost) (v : Nat) (path : Bytes)
    (paramIdxs : ParamIdxs) : Step order s h lost (.searchParams v path paramIdxs) := by
  rcases hs.dead_or_tree v with ⟨hroot, hpaths⟩ | ⟨a, paths, hroot, hpaths, htree⟩
  · exact Or.inl ⟨by simp only [step, hroot, Option.map_none],
      by simp only [Histories.step, hpaths, Option.map_none]⟩
  · obtain ⟨result, hresult⟩ :=
      (insertAll_invariant paths).searchParamsFrom .root order [] paramIdxs (fragments path)
    have hsearch : searchParams order a path paramIdxs s.heap = .ok result :=
      (searchParamsFrom_tree htree [] paramIdxs _).trans hresult
    refine Or.inr ⟨s, h, .foundParams result, foot, [], ?_, ?_, by simpa using hs, rfl⟩
    · simp only [step, hroot, Option.map_some, hsearch, bind, Except.bind, pure, Except.pure]
    · simp only [Histories.step, hpaths, Option.map_some, PathTrie.searchParams, hresult, bind,
        Except.bind, pure, Except.pure]

theorem step_op (hs : Represents s h foot lost) (op : Op) : Step order s h lost op := by
  cases op with
  | construct v => exact hs.step_construct v
  | copyConstruct v other => exact hs.step_copyConstruct v other
  | assign v other => exact hs.step_assign v other
  | insert v path => exact hs.step_insert v path
  | search v path => exact hs.step_search v path
  | searchParams v path paramIdxs => exact hs.step_searchParams v path paramIdxs
  | destroy v => exact hs.step_destroy v

/-- The outcome of a program. -/
theorem run_ops (hs : Represents s h foot lost) (ops : List Op) :
    (run order s ops = none ∧ Histories.run order h ops = none) ∨
      ∃ s' h' answers foot' more, run order s ops = some (.ok (s', answers)) ∧
        Histories.run order h ops = some (.ok (h', answers)) ∧
        Represents s' h' foot' (lost ++ more) ∧ more.length = ops.countP isCopy := by
  induction ops generalizing s h foot lost with
  | nil => exact Or.inr ⟨s, h, [], foot, [], rfl, rfl, by simpa using hs, rfl⟩
  | cons op ops ih =>
    have hop : Step order s h lost op := hs.step_op op
    rcases hop with
      ⟨hstep, hmeant⟩ | ⟨s₁, h₁, answer, foot₁, more₁, hstep, hmeant, hs₁, hlen₁⟩
    · exact Or.inl ⟨by simp only [run, hstep], by simp only [Histories.run, hmeant]⟩
    · rcases ih hs₁ with ⟨hrun, hmeant'⟩ | ⟨s₂, h₂, answers, foot₂, more₂, hrun, hmeant', hs₂, hlen₂⟩
      · exact Or.inl ⟨by simp only [run, hstep, hrun, Option.map_none],
          by simp only [Histories.run, hmeant, hmeant', Option.map_none]⟩
      · refine Or.inr ⟨s₂, h₂, answer :: answers, foot₂, more₁ ++ more₂, ?_, ?_, ?_, ?_⟩
        · simp only [run, hstep, hrun, Option.map_some, Except.map]
        · simp only [Histories.run, hmeant, hmeant', Option.map_some, Except.map]
        · rw [← List.append_assoc]
          exact hs₂
        · rw [List.length_append, hlen₁, hlen₂, ← List.countP_append, List.singleton_append]

end Represents

/-! ### Programs from the start -/

/-- Every program of tries does what it means: its operations are those that it can make on lists of
inserted paths, each search answers what it answers on a trie of those paths alone, and no pointer is
followed or deleted whose node does not live. -/
theorem run_refines (order : Hashing) (ops : List Op) :
    (run order {} ops).map (·.map Prod.snd) =
        (Histories.run order (fun _ => none) ops).map (·.map Prod.snd) ∧
      ∀ e, run order {} ops ≠ some (.error e) := by
  rcases represents_empty.run_ops ops with
    ⟨hrun, hmeant⟩ | ⟨s, h, answers, foot, more, hrun, hmeant, -, -⟩
  · rw [hrun, hmeant]
    exact ⟨rfl, fun e => by simp⟩
  · rw [hrun, hmeant]
    exact ⟨rfl, fun e => by simp⟩

/-- After any program each trie reaches nodes that live and that no other trie reaches, and the nodes
that no trie reaches are as many as copies were made: each copy loses one, and nothing else does. -/
theorem run_owns {order : Hashing} {ops : List Op} {s : Tries} {answers : List Answer}
    (hrun : run order {} ops = some (.ok (s, answers))) :
    (∀ v a x, s.roots v = some a → Reaches layout s.heap a x → s.heap.cells x ≠ none) ∧
      (∀ v v' a a' x, v ≠ v' → s.roots v = some a → s.roots v' = some a' →
        Reaches layout s.heap a x → ¬Reaches layout s.heap a' x) ∧
      ∃ lost : List Nat, lost.Nodup ∧ lost.length = ops.countP isCopy ∧
        ∀ x, x ∈ lost ↔ s.heap.cells x ≠ none ∧
          ∀ v a, s.roots v = some a → ¬Reaches layout s.heap a x := by
  rcases represents_empty.run_ops ops with
    ⟨hnone, -⟩ | ⟨s', h, answers', foot, more, hrun', -, hs, hlen⟩
  · rw [hrun] at hnone
    exact absurd hnone (by simp)
  · obtain ⟨rfl, rfl⟩ : s = s' ∧ answers = answers' := by simpa [hrun] using hrun'
    have hreach : ∀ v a x, s.roots v = some a → (Reaches layout s.heap a x ↔ x ∈ foot v) := by
      intro v a x hroot
      rcases hs.dead_or_tree v with ⟨hdead, -⟩ | ⟨b, paths, hroot', -, htree⟩
      · rw [hroot] at hdead
        exact absurd hdead (by simp)
      · obtain rfl := Option.some.inj (hroot.symm.trans hroot')
        exact htree.reaches_iff x
    refine ⟨fun v a x hroot hx => (hs.trie v).live ((hreach v a x hroot).mp hx), ?_,
      more, hs.nodup, hlen, fun x => ⟨fun hx => ⟨hs.live x hx, ?_⟩, ?_⟩⟩
    · intro v v' a a' x hne hroot hroot' hx hx'
      exact hs.apart v v' hne x ((hreach v a x hroot).mp hx) ((hreach v' a' x hroot').mp hx')
    · intro v a hroot hreached
      exact hs.free x hx v ((hreach v a x hroot).mp hreached)
    · rintro ⟨hlive, hnone⟩
      rcases hs.owned x hlive with hx | ⟨v, hx⟩
      · exact hx
      · rcases hs.dead_or_tree v with ⟨hroot, hpaths⟩ | ⟨a, paths, hroot, -, -⟩
        · rw [hs.foot_of_dead hroot hpaths] at hx
          exact absurd hx (Set.notMem_empty x)
        · exact absurd ((hreach v a x hroot).mpr hx) (hnone v a hroot)

/-- A trie is filled and copied, and the original destroyed. -/
def copiedTrie : List Op :=
  [.construct 0, .insert 0 (lit "/a/\x7bb\x7d"), .copyConstruct 1 0, .destroy 0, .search 1 (lit "/a/c")]

theorem run_owns_copied : ∃ s answers, run .insertion {} copiedTrie = some (.ok (s, answers)) ∧
    ∃ lost : List Nat, lost.Nodup ∧ lost.length = 1 ∧
      ∀ x, x ∈ lost ↔ s.heap.cells x ≠ none ∧
        ∀ v a, s.roots v = some a → ¬Reaches layout s.heap a x :=
  ⟨_, _, rfl, (@run_owns .insertion copiedTrie _ _ rfl).2.2⟩

end OasValidator.PathTrie.Linked
