import Mathlib.Data.Finset.Card
import Mathlib.Data.List.Dedup
import Mathlib.Data.Prod.Lex
import Mathlib.Logic.Relation
import Mathlib.Order.WellFounded
import OasValidator.Imp.Resolved

/-! When `ResolveReferences` ends.  A run that follows a reference into the value it is already
expanding for this reference may go on without end; one that never does, and never follows a reference
to its own place or to something that is no object, ends with a document or with
`ValidatorInitExc`. -/

namespace OasValidator

open Library.Json Library.Json.Value Relation

/-! ### Where a run comes -/

inductive Stage where
  | value
  | members (i : Nat)
  | items (i : Nat)

/-- A run before the value at a place, or in the loop over its members or items from an index on.  The
active references are those that it is copying from outside of the values they are copied to. -/
structure Config where
  active : List Bytes
  place : Place
  stage : Stage
  doc : Json

def Config.run (n : Nat) (c : Config) : Option (Except InitError Json) :=
  match c.stage with
  | .value => resolveReferences n c.place c.doc
  | .members i => resolveMembers n c.place i c.doc
  | .items i => resolveItems n c.place i c.doc

/-- A value copied from inside of the one that it takes the place of is smaller than that. -/
def expand (active : List Bytes) (place target : Place) (ref : Bytes) : List Bytes :=
  if place <+: target then active else ref :: active

/-- The run from one configuration comes to another one, in a call, in the next pass of a loop, or
behind a call that has returned. -/
inductive Comes : Config → Config → Prop
  | object {active p doc members} (hobj : doc.at? p = some (.object members)) :
    Comes ⟨active, p, .value, doc⟩ ⟨active, p, .members 0, doc⟩
  | array {active p doc items} (harr : doc.at? p = some (.array items)) :
    Comes ⟨active, p, .value, doc⟩ ⟨active, p, .items 0, doc⟩
  | copy {active p doc doc' i members name value ref target}
    (hobj : doc.at? p = some (.object members)) (hm : members[i]? = some (name, value))
    (href : localRef name value = some ref) (htarget : resolvePath doc ref = .ok target)
    (hcopy : copyFrom p target doc = .ok doc') :
    Comes ⟨active, p, .members i, doc⟩ ⟨expand active p target ref, p, .members 0, doc'⟩
  | skip {active p doc i members name value} (hobj : doc.at? p = some (.object members))
    (hm : members[i]? = some (name, value)) (href : localRef name value = none)
    (hstring : isRef name value = true) :
    Comes ⟨active, p, .members i, doc⟩ ⟨active, p, .members (i + 1), doc⟩
  | member {active p doc i members name value} (hobj : doc.at? p = some (.object members))
    (hm : members[i]? = some (name, value)) (href : localRef name value = none)
    (hstring : isRef name value = false) :
    Comes ⟨active, p, .members i, doc⟩ ⟨active, p ++ [i], .value, doc⟩
  | nextMember {active p doc doc' i members name value n} (hobj : doc.at? p = some (.object members))
    (hm : members[i]? = some (name, value)) (href : localRef name value = none)
    (hstring : isRef name value = false)
    (hrun : resolveReferences n (p ++ [i]) doc = some (.ok doc')) :
    Comes ⟨active, p, .members i, doc⟩ ⟨active, p, .members (i + 1), doc'⟩
  | item {active p doc i items} (harr : doc.at? p = some (.array items)) (hi : i < items.length) :
    Comes ⟨active, p, .items i, doc⟩ ⟨active, p ++ [i], .value, doc⟩
  | nextItem {active p doc doc' i items n} (harr : doc.at? p = some (.array items))
    (hi : i < items.length) (hrun : resolveReferences n (p ++ [i]) doc = some (.ok doc')) :
    Comes ⟨active, p, .items i, doc⟩ ⟨active, p, .items (i + 1), doc'⟩

/-- The run is at a member that is a reference, which resolves to the target. -/
def Config.Follows (c : Config) (ref : Bytes) (target : Place) : Prop :=
  ∃ i members name value, c.stage = .members i ∧ c.doc.at? c.place = some (.object members) ∧
    members[i]? = some (name, value) ∧ localRef name value = some ref ∧
    resolvePath c.doc ref = .ok target

/-- The run is at a member that is a local reference. -/
def Config.Seeks (c : Config) (ref : Bytes) : Prop :=
  ∃ i members name value, c.stage = .members i ∧ c.doc.at? c.place = some (.object members) ∧
    members[i]? = some (name, value) ∧ localRef name value = some ref

/-- The reference that the run is about to follow leads to an object at another place. -/
def Config.Lands (c : Config) : Prop :=
  ∀ ref target, c.Follows ref target →
    target ≠ c.place ∧ ∃ members, c.doc.at? target = some (.object members)

/-- The reference that the run is about to follow is not active, unless it leads to the inside of the
value that the target is copied to. -/
def Config.Fresh (c : Config) : Prop :=
  ∀ ref target, c.Follows ref target → c.place <+: target ∨ ref ∉ c.active

/-- What the run of a configuration starts on. -/
def Config.Valid (c : Config) : Prop :=
  match c.stage with
  | .value => ∃ u, c.doc.at? c.place = some u
  | .members _ => ∃ members, c.doc.at? c.place = some (.object members)
  | .items _ => ∃ items, c.doc.at? c.place = some (.array items)

/-- The property holds wherever the run comes to. -/
def Config.Always (P : Config → Prop) (c : Config) : Prop := ∀ c', ReflTransGen Comes c c' → P c'

/-- All references that the run follows lead to other objects, and none is followed again where its
value is being expanded. -/
def Config.Sound (c : Config) : Prop := ∀ c', ReflTransGen Comes c c' → c'.Lands ∧ c'.Fresh

/-! ### The steps get smaller -/

namespace Config

/-- The value that the run is at. -/
def here (c : Config) : Json := (c.doc.at? c.place).getD .null

/-- The number of references of the document that are not active. -/
def openRefs (c : Config) : Nat := ((refs c.doc).toFinset \ c.active.toFinset).card

/-- The number of references in the value that the run is at. -/
def held (c : Config) : Nat := (refs c.here).length

/-- How much of this value the run has not come to. -/
def pending (c : Config) : Nat :=
  match c.stage with
  | .value => size c.here
  | .members i => ((c.here.children.drop i).map fun v => size v + 1).sum
  | .items i => ((c.here.children.drop i).map fun v => size v + 1).sum

def rank (c : Config) : ℕ ×ₗ ℕ ×ₗ ℕ := toLex (c.openRefs, toLex (c.held, c.pending))

theorem rank_lt {c c' : Config} (hopen : c'.openRefs ≤ c.openRefs)
    (h : c'.openRefs < c.openRefs ∨ c'.held < c.held ∨
      c'.held ≤ c.held ∧ c'.pending < c.pending) : c'.rank < c.rank := by
  simp only [rank, Prod.Lex.toLex_lt_toLex]
  omega

end Config

section

variable {doc doc' : Json} {p : Place} {active : List Bytes}

theorem here_eq {stage : Stage} {u : Json} (h : doc.at? p = some u) :
    (Config.mk active p stage doc).here = u := by
  simp [Config.here, h]

theorem pending_value {u : Json} (h : doc.at? p = some u) :
    (Config.mk active p .value doc).pending = size u := by
  rw [Config.pending, here_eq h]

theorem pending_members {u : Json} {i : Nat} (h : doc.at? p = some u) :
    (Config.mk active p (.members i) doc).pending =
      ((u.children.drop i).map fun w => size w + 1).sum := by
  rw [Config.pending, here_eq h]

theorem pending_items {u : Json} {i : Nat} (h : doc.at? p = some u) :
    (Config.mk active p (.items i) doc).pending =
      ((u.children.drop i).map fun w => size w + 1).sum := by
  rw [Config.pending, here_eq h]

theorem refs_subset_of_at {u : Json} (h : doc.at? p = some u) : refs u ⊆ refs doc := by
  obtain ⟨before, behind, hdoc⟩ := collect_at refText h
  intro r hr
  rw [refs, hdoc]
  simp only [List.mem_append]
  exact Or.inl (Or.inr hr)

theorem mem_refs_of_member {members : List (Bytes × Json)} {name ref : Bytes} {value : Json} {i : Nat}
    (hm : members[i]? = some (name, value)) (href : localRef name value = some ref) :
    ref ∈ refs (.object members) := by
  simp only [refs, collect, collectMembers_eq, List.mem_flatMap, List.mem_append]
  refine ⟨(name, value), List.mem_of_getElem? hm, Or.inl ?_⟩
  rw [own_refText, href]
  simp

/-- A document whose references are among those of another has no more open ones. -/
theorem openRefs_le {p' : Place} {stage stage' : Stage} (h : refs doc' ⊆ refs doc) :
    (Config.mk active p' stage' doc').openRefs ≤ (Config.mk active p stage doc).openRefs := by
  apply Finset.card_le_card
  intro r hr
  simp only [Finset.mem_sdiff, List.mem_toFinset] at hr ⊢
  exact ⟨h hr.1, hr.2⟩

theorem openRefs_lt {stage stage' : Stage} {ref : Bytes} (h : refs doc' ⊆ refs doc)
    (hmem : ref ∈ refs doc) (hactive : ref ∉ active) :
    (Config.mk (ref :: active) p stage' doc').openRefs <
      (Config.mk active p stage doc).openRefs := by
  apply Finset.card_lt_card
  rw [Finset.ssubset_iff_of_subset]
  · exact ⟨ref, by simp [hmem, hactive], by simp⟩
  · intro r hr
    simp only [Finset.mem_sdiff, List.mem_toFinset, List.mem_cons, not_or] at hr ⊢
    exact ⟨h hr.1, hr.2.2⟩

theorem drop_children {v u : Json} {i : Nat} (h : v.children[i]? = some u) :
    v.children.drop i = u :: v.children.drop (i + 1) := by
  obtain ⟨hi, rfl⟩ := List.getElem?_eq_some_iff.mp h
  exact List.drop_eq_getElem_cons hi

theorem child_of_member {members : List (Bytes × Json)} {m : Bytes × Json} {i : Nat}
    (h : members[i]? = some m) : (Value.object members).children[i]? = some m.2 := by
  simp [children, h]

theorem at?_child {v u : Json} {i : Nat} (hv : doc.at? p = some v) (h : v.children[i]? = some u) :
    doc.at? (p ++ [i]) = some u := by
  rw [at?_append, hv]
  simp [at?_cons, h]

/-- A copy makes a reference active, or leaves fewer references in the value it goes on with. -/
theorem copy_lt {members members' : List (Bytes × Json)} {name ref : Bytes} {value : Json} {i : Nat}
    {target : Place} (hobj : doc.at? p = some (.object members))
    (hm : members[i]? = some (name, value)) (href : localRef name value = some ref)
    (htarget : doc.at? target = some (.object members')) (hne : target ≠ p)
    (hgood : p <+: target ∨ ref ∉ active) :
    (Config.mk (expand active p target ref) p (.members 0)
      (doc.setAt p (.object members'))).rank < (Config.mk active p (.members i) doc).rank := by
  have hsubset : refs (doc.setAt p (.object members')) ⊆ refs doc := by
    intro r hr
    rcases List.mem_append.mp (collect_setAt_subset refText hobj (sameText_object _ _) hr) with h | h
    · exact h
    · exact refs_subset_of_at htarget h
  have hmem := mem_refs_of_member hm href
  by_cases hinside : p <+: target
  · obtain ⟨q, rfl⟩ := hinside
    rw [expand, if_pos (List.prefix_append p q)]
    refine Config.rank_lt (openRefs_le hsubset) (Or.inr (Or.inl ?_))
    rw [Config.held, Config.held, here_eq (at?_setAt hobj _), here_eq hobj]
    rw [at?_append, hobj] at htarget
    obtain _ | ⟨j, q⟩ := q
    · simp at hne
    · rw [Option.bind_some, at?_cons] at htarget
      obtain ⟨child, hchild, htarget⟩ := Option.bind_eq_some_iff.mp htarget
      simp only [children, List.getElem?_map, Option.map_eq_some_iff] at hchild
      obtain ⟨m', hm', rfl⟩ := hchild
      have hown : own refText name value ≠ [] := by simp [own_refText, href]
      have hlt := length_collect_lt refText (List.mem_of_getElem? hm) hown (List.mem_of_getElem? hm')
      obtain ⟨before, behind, hpart⟩ := collect_at refText htarget
      have hlen := congrArg List.length hpart
      simp only [List.length_append] at hlen
      simp only [refs]
      omega
  · rw [expand, if_neg hinside]
    have hlt : (Config.mk (ref :: active) p (.members 0) (doc.setAt p (.object members'))).openRefs <
        (Config.mk active p (.members i) doc).openRefs :=
      openRefs_lt hsubset (refs_subset_of_at hobj hmem) (hgood.resolve_left hinside)
    exact Config.rank_lt hlt.le (Or.inl hlt)

/-- A child holds no more references than the value, and is smaller than what the loop has to come
to. -/
theorem child_lt {v u : Json} {i : Nat} (hv : doc.at? p = some v) (h : v.children[i]? = some u)
    {stage : Stage} (hstage : (Config.mk active p stage doc).pending =
      ((v.children.drop i).map fun w => size w + 1).sum) :
    (Config.mk active (p ++ [i]) .value doc).rank < (Config.mk active p stage doc).rank := by
  have hchild := at?_child hv h
  refine Config.rank_lt (openRefs_le (List.Subset.refl _)) (Or.inr (Or.inr ⟨?_, ?_⟩))
  · have hpart : v.at? [i] = some u := by simp [at?_cons, h]
    obtain ⟨before, behind, hv'⟩ := collect_at refText hpart
    have hlen := congrArg List.length hv'
    simp only [List.length_append] at hlen
    rw [Config.held, Config.held, here_eq hchild, here_eq hv, refs, refs]
    omega
  · rw [hstage, pending_value hchild, drop_children h, List.map_cons, List.sum_cons]
    omega

/-- Behind a finished child the loop goes on with as many references, and with less to come to. -/
theorem next_lt {v u : Json} {i n : Nat} (hv : doc.at? p = some v) (h : v.children[i]? = some u)
    (hrun : resolveReferences n (p ++ [i]) doc = some (.ok doc')) {stage stage' : Stage}
    (hstage : (Config.mk active p stage doc).pending =
      ((v.children.drop i).map fun w => size w + 1).sum)
    (hstage' : ∀ v', doc'.at? p = some v' → (Config.mk active p stage' doc').pending =
      ((v'.children.drop (i + 1)).map fun w => size w + 1).sum) :
    (∃ w, doc'.at? p = some (v.withChild i w)) ∧
      (Config.mk active p stage' doc').rank < (Config.mk active p stage doc).rank := by
  obtain ⟨w, rfl, hsame, hrefs⟩ := (leaves_of_ok n).1 _ _ _ _ (at?_child hv h) hrun
  have hset : doc.setAt (p ++ [i]) w = doc.setAt p (v.withChild i w) := by
    rw [setAt_append hv, setAt_cons h, setAt_nil]
  have hat : (doc.setAt (p ++ [i]) w).at? p = some (v.withChild i w) := by
    rw [hset]
    exact at?_setAt hv _
  have hpart : v.at? [i] = some u := by simp [at?_cons, h]
  refine ⟨⟨w, hat⟩, Config.rank_lt (openRefs_le ?_) (Or.inr (Or.inr ⟨?_, ?_⟩))⟩
  · intro r hr
    have hmem := collect_setAt_subset refText (at?_child hv h) hsame hr
    rwa [show collect refText w = [] from hrefs, List.append_nil] at hmem
  · have hle := length_collect_setAt refText hpart hsame
      (by rw [show collect refText w = [] from hrefs]; exact Nat.zero_le _)
    rw [setAt_cons h, setAt_nil] at hle
    rw [Config.held, Config.held, here_eq hat, here_eq hv]
    exact hle
  · rw [hstage, hstage' _ hat, children_withChild h, List.drop_set_of_lt (Nat.lt_add_one i),
      drop_children h, List.map_cons, List.sum_cons]
    omega

end

/-- Beginning a loop. -/
theorem begin_lt {active : List Bytes} {p : Place} {doc v : Json} (h : doc.at? p = some v)
    {stage : Stage} (hstage : (Config.mk active p stage doc).pending =
      ((v.children.drop 0).map fun w => size w + 1).sum) :
    (Config.mk active p stage doc).rank < (Config.mk active p .value doc).rank := by
  refine Config.rank_lt (openRefs_le (List.Subset.refl _)) (Or.inr (Or.inr ⟨?_, ?_⟩))
  · rw [Config.held, Config.held, here_eq h, here_eq h]
  · rw [hstage, pending_value h, List.drop_zero, size_eq v]
    omega

/-- Every step of a sound run gives a configuration of a smaller rank. -/
theorem comes_lt {c c' : Config} (h : Comes c c') (hlands : c.Lands) (hfresh : c.Fresh) :
    c'.Valid ∧ c'.rank < c.rank := by
  cases h with
  | object hobj => exact ⟨⟨_, hobj⟩, begin_lt hobj (pending_members hobj)⟩
  | array harr => exact ⟨⟨_, harr⟩, begin_lt harr (pending_items harr)⟩
  | @copy active p doc _ i members name value ref target hobj hm href htarget hcopy =>
    have hfollows : (Config.mk active p (.members i) doc).Follows ref target :=
      ⟨i, members, name, value, rfl, hobj, hm, href, htarget⟩
    obtain ⟨hne, members', hobj'⟩ := hlands _ _ hfollows
    obtain ⟨-, rfl⟩ := copy_cases hobj' hcopy
    exact ⟨⟨members', at?_setAt hobj _⟩, copy_lt hobj hm href hobj' hne (hfresh _ _ hfollows)⟩
  | skip hobj hm href hstring =>
    refine ⟨⟨_, hobj⟩, Config.rank_lt (openRefs_le (List.Subset.refl _)) (Or.inr (Or.inr ⟨?_, ?_⟩))⟩
    · rw [Config.held, Config.held, here_eq hobj, here_eq hobj]
    · rw [pending_members hobj, pending_members hobj, drop_children (child_of_member hm),
        List.map_cons, List.sum_cons]
      omega
  | member hobj hm href hstring =>
    exact ⟨⟨_, at?_child hobj (child_of_member hm)⟩,
      child_lt hobj (child_of_member hm) (pending_members hobj)⟩
  | nextMember hobj hm href hstring hrun =>
    obtain ⟨⟨w, hat⟩, hlt⟩ := next_lt hobj (child_of_member hm) hrun (pending_members hobj)
      fun _ => pending_members
    exact ⟨⟨_, hat⟩, hlt⟩
  | item harr hi =>
    have hchild : (Value.array _).children[_]? = some _ := List.getElem?_eq_getElem hi
    exact ⟨⟨_, at?_child harr hchild⟩, child_lt harr hchild (pending_items harr)⟩
  | nextItem harr hi hrun =>
    have hchild : (Value.array _).children[_]? = some _ := List.getElem?_eq_getElem hi
    obtain ⟨⟨w, hat⟩, hlt⟩ := next_lt harr hchild hrun (pending_items harr) fun _ => pending_items
    exact ⟨⟨_, hat⟩, hlt⟩

/-! ### Runs that end -/

/-- The result is a document or a `ValidatorInitExc`. -/
def Proper (r : Except InitError Json) : Prop :=
  (∃ doc, r = .ok doc) ∨ ∃ message, r = .error (.validatorInitExc message)

def Config.Ends (c : Config) : Prop := ∃ n r, c.run n = some r ∧ Proper r

/-- The constructor's call of `ResolveReferences`. -/
def wholeDoc (doc : Json) : Config := ⟨[], [], .value, doc⟩

section

variable {active : List Bytes} {p : Place} {doc : Json}

theorem ends_value {u : Json} (hu : doc.at? p = some u)
    (h : ∀ c, Comes ⟨active, p, .value, doc⟩ c → c.Ends) :
    (Config.mk active p .value doc).Ends := by
  cases u with
  | object members =>
    obtain ⟨n, r, hrun, hr⟩ := h _ (.object hu)
    exact ⟨n + 1, r, by simpa only [Config.run, resolveReferences, hu] using hrun, hr⟩
  | array items =>
    obtain ⟨n, r, hrun, hr⟩ := h _ (.array hu)
    exact ⟨n + 1, r, by simpa only [Config.run, resolveReferences, hu] using hrun, hr⟩
  | _ => exact ⟨1, .ok doc, by simp [Config.run, resolveReferences, hu], Or.inl ⟨doc, rfl⟩⟩

/-- A call that ends, and behind it a loop that ends on each document that the call may return. -/
theorem ends_thenRun {q : Place} (next : Nat → Json → Option (Except InitError Json))
    (hmono : ∀ n m d r, n ≤ m → next n d = some r → next m d = some r)
    (hchild : (Config.mk active q .value doc).Ends)
    (hnext : ∀ n doc', resolveReferences n q doc = some (.ok doc') →
      ∃ m r, next m doc' = some r ∧ Proper r) :
    ∃ n r, thenRun (resolveReferences n q doc) (next n) = some r ∧ Proper r := by
  obtain ⟨n, r, hrun, hr⟩ := hchild
  cases r with
  | error x => exact ⟨n, .error x, by rw [show resolveReferences n q doc = _ from hrun]; rfl, hr⟩
  | ok doc' =>
    obtain ⟨m, r', hrun', hr'⟩ := hnext n doc' hrun
    refine ⟨max n m, r', ?_, hr'⟩
    rw [resolveReferences_mono (Nat.le_max_left n m) hrun]
    exact hmono m _ doc' r' (Nat.le_max_right n m) hrun'

theorem resolveMembers_mono {n m i : Nat} {r : Except InitError Json} (h : n ≤ m)
    (hr : resolveMembers n p i doc = some r) : resolveMembers m p i doc = some r := by
  induction h with
  | refl => exact hr
  | step _ ih => exact (resolve_succ _).2.1 _ _ _ _ ih

theorem resolveItems_mono {n m i : Nat} {r : Except InitError Json} (h : n ≤ m)
    (hr : resolveItems n p i doc = some r) : resolveItems m p i doc = some r := by
  induction h with
  | refl => exact hr
  | step _ ih => exact (resolve_succ _).2.2 _ _ _ _ ih

theorem ends_items {items : List Json} {i : Nat} (harr : doc.at? p = some (.array items))
    (h : ∀ c, Comes ⟨active, p, .items i, doc⟩ c → c.Ends) :
    (Config.mk active p (.items i) doc).Ends := by
  by_cases hi : i < items.length
  · obtain ⟨n, r, hrun, hr⟩ := ends_thenRun (fun n => resolveItems n p (i + 1))
      (fun _ _ _ _ => resolveItems_mono) (h _ (.item harr hi)) fun n doc' hrun =>
        h _ (.nextItem harr hi hrun)
    exact ⟨n + 1, r, by simpa only [Config.run, resolveItems, harr, if_pos hi] using hrun, hr⟩
  · exact ⟨1, .ok doc, by simp [Config.run, resolveItems, harr, hi], Or.inl ⟨doc, rfl⟩⟩

/-- A pass of the loop that copies. -/
theorem copy_step {members : List (Bytes × Json)} {name ref : Bytes} {value u : Json} {i : Nat}
    {target : Place} (hobj : doc.at? p = some (.object members))
    (hm : members[i]? = some (name, value)) (href : localRef name value = some ref)
    (htarget : resolvePath doc ref = .ok target) (hu : doc.at? target = some u) (hne : target ≠ p)
    (n : Nat) : resolveMembers (n + 1) p i doc = resolveMembers n p 0 (doc.setAt p u) := by
  have hcopy : copyFrom p target doc = .ok (doc.setAt p u) := by
    simp [copyFrom, Ne.symm hne, hu]
  simp only [resolveMembers, hobj, hm, href, htarget, hcopy, Bind.bind, Except.bind]

theorem ends_members {members : List (Bytes × Json)} {i : Nat}
    (hobj : doc.at? p = some (.object members))
    (hlands : (Config.mk active p (.members i) doc).Lands)
    (h : ∀ c, Comes ⟨active, p, .members i, doc⟩ c → c.Ends) :
    (Config.mk active p (.members i) doc).Ends := by
  cases hm : members[i]? with
  | none => exact ⟨1, .ok doc, by simp [Config.run, resolveMembers, hobj, hm], Or.inl ⟨doc, rfl⟩⟩
  | some m =>
    obtain ⟨name, value⟩ := m
    cases href : localRef name value with
    | some ref =>
      cases htarget : resolvePath doc ref with
      | error x =>
        refine ⟨1, .error x, ?_, Or.inr ?_⟩
        · simp [Config.run, resolveMembers, hobj, hm, href, htarget, Bind.bind, Except.bind]
        · obtain ⟨message, rfl⟩ := error_of_resolveParts htarget
          exact ⟨message, rfl⟩
      | ok target =>
        obtain ⟨hne, members', hobj'⟩ := hlands ref target
          ⟨i, members, name, value, rfl, hobj, hm, href, htarget⟩
        have hcopy : copyFrom p target doc = .ok (doc.setAt p (.object members')) := by
          simp [copyFrom, Ne.symm hne, hobj']
        obtain ⟨n, r, hrun, hr⟩ := h _ (.copy hobj hm href htarget hcopy)
        exact ⟨n + 1, r, (copy_step hobj hm href htarget hobj' hne n).trans hrun, hr⟩
    | none =>
      cases hstring : isRef name value with
      | true =>
        obtain ⟨n, r, hrun, hr⟩ := h _ (.skip hobj hm href hstring)
        refine ⟨n + 1, r, ?_, hr⟩
        simpa only [Config.run, resolveMembers, hobj, hm, href, hstring, if_true] using hrun
      | false =>
        obtain ⟨n, r, hrun, hr⟩ := ends_thenRun (fun n => resolveMembers n p (i + 1))
          (fun _ _ _ _ => resolveMembers_mono) (h _ (.member hobj hm href hstring))
          fun n doc' hrun => h _ (.nextMember hobj hm href hstring hrun)
        refine ⟨n + 1, r, ?_, hr⟩
        simpa only [Config.run, resolveMembers, hobj, hm, href, hstring, Bool.false_eq_true,
          if_false] using hrun

end

/-- A sound run ends, by induction on the rank. -/
theorem ends_of_sound {c : Config} (hvalid : c.Valid) (hsound : c.Sound) : c.Ends := by
  have hind : ∀ r : ℕ ×ₗ ℕ ×ₗ ℕ, ∀ c : Config, c.rank = r → c.Valid → c.Sound → c.Ends := by
    intro r
    induction r using WellFoundedLT.induction with
    | ind r ih =>
      intro c hr hvalid hsound
      obtain ⟨hlands, hfresh⟩ := hsound c .refl
      have hcallee : ∀ c', Comes c c' → c'.Ends := by
        intro c' hc
        obtain ⟨hvalid', hlt⟩ := comes_lt hc hlands hfresh
        exact ih c'.rank (hr ▸ hlt) c' rfl hvalid' fun c'' h => hsound c'' (.head hc h)
      obtain ⟨active, p, stage, doc⟩ := c
      cases stage with
      | value => exact ends_value hvalid.choose_spec hcallee
      | members i => exact ends_members hvalid.choose_spec hlands hcallee
      | items i => exact ends_items hvalid.choose_spec hcallee
  exact hind c.rank c rfl hvalid hsound

/-! ### Rules for what holds throughout a run -/

section

variable {P : Config → Prop} {active : List Bytes} {p : Place} {doc : Json} {i : Nat}

theorem always_of_comes {c : Config} (hP : P c) (h : ∀ c', Comes c c' → c'.Always P) : c.Always P := by
  intro c' hc
  rcases ReflTransGen.cases_head hc with rfl | ⟨next, hnext, hrest⟩
  · exact hP
  · exact h next hnext c' hrest

theorem Config.Follows.seeks {c : Config} {ref : Bytes} {target : Place} (h : c.Follows ref target) :
    c.Seeks ref := by
  obtain ⟨i, members, name, value, hstage, hobj, hm, href, -⟩ := h
  exact ⟨i, members, name, value, hstage, hobj, hm, href⟩

section

variable {members : List (Bytes × Json)}

theorem members_unique {ms : List (Bytes × Json)} (hobj : doc.at? p = some (.object members))
    (hms : doc.at? p = some (.object ms)) : ms = members :=
  Value.object.inj (Option.some.inj (hms.symm.trans hobj))

theorem same_member {ms : List (Bytes × Json)} {name name' : Bytes} {value value' : Json}
    (hobj : doc.at? p = some (.object members)) (hms : doc.at? p = some (.object ms))
    (hm : members[i]? = some (name, value)) (hmem : ms[i]? = some (name', value')) :
    name' = name ∧ value' = value := by
  obtain rfl := members_unique hobj hms
  rw [hm] at hmem
  simpa [eq_comm] using hmem

theorem not_seeks_value (ref : Bytes) : ¬(Config.mk active p .value doc).Seeks ref := by
  rintro ⟨_, _, _, _, hstage, -⟩
  simp at hstage

theorem not_seeks_items (ref : Bytes) : ¬(Config.mk active p (.items i) doc).Seeks ref := by
  rintro ⟨_, _, _, _, hstage, -⟩
  simp at hstage

theorem not_seeks_end (hobj : doc.at? p = some (.object members)) (hm : members[i]? = none)
    (ref : Bytes) : ¬(Config.mk active p (.members i) doc).Seeks ref := by
  rintro ⟨_, _, _, _, hstage, hms, hmem, -⟩
  obtain rfl := Stage.members.inj hstage
  obtain rfl := members_unique hobj hms
  simp [hm] at hmem

theorem not_seeks_member {name : Bytes} {value : Json} (hobj : doc.at? p = some (.object members))
    (hm : members[i]? = some (name, value)) (href : localRef name value = none) (ref : Bytes) :
    ¬(Config.mk active p (.members i) doc).Seeks ref := by
  rintro ⟨_, _, _, _, hstage, hms, hmem, href'⟩
  obtain rfl := Stage.members.inj hstage
  obtain ⟨rfl, rfl⟩ := same_member hobj hms hm hmem
  rw [href] at href'
  simp at href'

theorem always_value (hobj : doc.at? p = some (.object members))
    (hP : P ⟨active, p, .value, doc⟩) (h : (Config.mk active p (.members 0) doc).Always P) :
    (Config.mk active p .value doc).Always P := by
  refine always_of_comes hP fun c hc => ?_
  cases hc with
  | object => exact h
  | array harr =>
    rw [hobj] at harr
    simp at harr

theorem always_array {items : List Json} (harr : doc.at? p = some (.array items))
    (hP : P ⟨active, p, .value, doc⟩) (h : (Config.mk active p (.items 0) doc).Always P) :
    (Config.mk active p .value doc).Always P := by
  refine always_of_comes hP fun c hc => ?_
  cases hc with
  | object hobj =>
    rw [harr] at hobj
    simp at hobj
  | array => exact h

theorem always_item {n : Nat} {r : Except InitError Json}
    (hrun : resolveReferences n (p ++ [i]) doc = some r) (hP : P ⟨active, p, .items i, doc⟩)
    (hchild : (Config.mk active (p ++ [i]) .value doc).Always P)
    (hnext : ∀ doc', r = .ok doc' → (Config.mk active p (.items (i + 1)) doc').Always P) :
    (Config.mk active p (.items i) doc).Always P := by
  refine always_of_comes hP fun c hc => ?_
  cases hc with
  | item => exact hchild
  | nextItem _ _ hrun' => exact hnext _ (resolveReferences_det hrun hrun')

theorem always_end (hobj : doc.at? p = some (.object members)) (hm : members[i]? = none)
    (hP : P ⟨active, p, .members i, doc⟩) : (Config.mk active p (.members i) doc).Always P := by
  have hnone : ∀ {ms m}, doc.at? p = some (.object ms) → ms[i]? ≠ some m := by
    intro ms m hms
    obtain rfl := members_unique hobj hms
    simp [hm]
  refine always_of_comes hP fun c hc => ?_
  cases hc with
  | copy hms hmem => exact absurd hmem (hnone hms)
  | skip hms hmem => exact absurd hmem (hnone hms)
  | member hms hmem => exact absurd hmem (hnone hms)
  | nextMember hms hmem => exact absurd hmem (hnone hms)

theorem always_member {name : Bytes} {value : Json} {n : Nat} {r : Except InitError Json}
    (hobj : doc.at? p = some (.object members)) (hm : members[i]? = some (name, value))
    (href : localRef name value = none) (hskip : isRef name value = false)
    (hrun : resolveReferences n (p ++ [i]) doc = some r) (hP : P ⟨active, p, .members i, doc⟩)
    (hchild : (Config.mk active (p ++ [i]) .value doc).Always P)
    (hnext : ∀ doc', r = .ok doc' → (Config.mk active p (.members (i + 1)) doc').Always P) :
    (Config.mk active p (.members i) doc).Always P := by
  refine always_of_comes hP fun c hc => ?_
  cases hc with
  | copy hms hmem href' =>
    obtain ⟨rfl, rfl⟩ := same_member hobj hms hm hmem
    rw [href] at href'
    simp at href'
  | skip hms hmem _ hstring =>
    obtain ⟨rfl, rfl⟩ := same_member hobj hms hm hmem
    rw [hskip] at hstring
    simp at hstring
  | member => exact hchild
  | nextMember _ _ _ _ hrun' => exact hnext _ (resolveReferences_det hrun hrun')

theorem always_ref {name ref : Bytes} {value : Json} {r : Except InitError Place}
    (hobj : doc.at? p = some (.object members)) (hm : members[i]? = some (name, value))
    (href : localRef name value = some ref) (hpath : resolvePath doc ref = r)
    (hP : P ⟨active, p, .members i, doc⟩)
    (h : ∀ target, r = .ok target → ∃ u, doc.at? target = some u ∧
      (Config.mk (expand active p target ref) p (.members 0) (doc.setAt p u)).Always P) :
    (Config.mk active p (.members i) doc).Always P := by
  refine always_of_comes hP fun c hc => ?_
  cases hc with
  | copy hms hmem href' htarget hcopy =>
    obtain ⟨rfl, rfl⟩ := same_member hobj hms hm hmem
    obtain rfl := Option.some.inj (href'.symm.trans href)
    obtain ⟨u, hu, halways⟩ := h _ (hpath.symm.trans htarget)
    obtain ⟨-, rfl⟩ := copy_cases hu hcopy
    exact halways
  | skip hms hmem href' =>
    obtain ⟨rfl, rfl⟩ := same_member hobj hms hm hmem
    rw [href] at href'
    simp at href'
  | member hms hmem href' =>
    obtain ⟨rfl, rfl⟩ := same_member hobj hms hm hmem
    rw [href] at href'
    simp at href'
  | nextMember hms hmem href' =>
    obtain ⟨rfl, rfl⟩ := same_member hobj hms hm hmem
    rw [href] at href'
    simp at href'

end

end

/-! ### Rules for sound runs -/

section

variable {active : List Bytes} {p : Place} {doc doc' : Json} {i : Nat}
  {members : List (Bytes × Json)}

theorem lands_fresh_of_not_seeks {c : Config} (h : ∀ ref, ¬c.Seeks ref) : c.Lands ∧ c.Fresh :=
  ⟨fun ref _ hf => absurd hf.seeks (h ref), fun ref _ hf => absurd hf.seeks (h ref)⟩

theorem sound_value (hobj : doc.at? p = some (.object members))
    (h : (Config.mk active p (.members 0) doc).Sound) : (Config.mk active p .value doc).Sound :=
  always_value hobj (lands_fresh_of_not_seeks not_seeks_value) h

theorem sound_end (hobj : doc.at? p = some (.object members)) (hm : members[i]? = none) :
    (Config.mk active p (.members i) doc).Sound :=
  always_end hobj hm (lands_fresh_of_not_seeks (not_seeks_end hobj hm))

theorem sound_member {name : Bytes} {value : Json} {n : Nat}
    (hobj : doc.at? p = some (.object members)) (hm : members[i]? = some (name, value))
    (href : localRef name value = none)
    (hrun : resolveReferences n (p ++ [i]) doc = some (.ok doc'))
    (hchild : (Config.mk active (p ++ [i]) .value doc).Sound)
    (hskip : isRef name value = false)
    (hnext : (Config.mk active p (.members (i + 1)) doc').Sound) :
    (Config.mk active p (.members i) doc).Sound := by
  refine always_member hobj hm href hskip hrun
    (lands_fresh_of_not_seeks (not_seeks_member hobj hm href)) hchild fun doc'' hdoc => ?_
  obtain rfl := Except.ok.inj hdoc
  exact hnext

theorem sound_copy {name ref : Bytes} {value : Json} {target : Place}
    {members' : List (Bytes × Json)} (hobj : doc.at? p = some (.object members))
    (hm : members[i]? = some (name, value)) (href : localRef name value = some ref)
    (htarget : resolvePath doc ref = .ok target) (hobj' : doc.at? target = some (.object members'))
    (hne : target ≠ p) (hactive : p <+: target ∨ ref ∉ active)
    (h : (Config.mk (expand active p target ref) p (.members 0)
      (doc.setAt p (.object members'))).Sound) :
    (Config.mk active p (.members i) doc).Sound := by
  have hfollow : ∀ {ref' target'}, (Config.mk active p (.members i) doc).Follows ref' target' →
      ref' = ref ∧ target' = target := by
    rintro ref' target' ⟨_, _, _, _, hstage, hms, hmem, href', htarget'⟩
    obtain rfl := Stage.members.inj hstage
    obtain ⟨rfl, rfl⟩ := same_member hobj hms hm hmem
    obtain rfl := Option.some.inj (href'.symm.trans href)
    exact ⟨rfl, Except.ok.inj (htarget'.symm.trans htarget)⟩
  refine always_ref hobj hm href htarget ⟨fun ref' target' hf => ?_, fun ref' target' hf => ?_⟩ ?_
  · obtain ⟨rfl, rfl⟩ := hfollow hf
    exact ⟨hne, members', hobj'⟩
  · obtain ⟨rfl, rfl⟩ := hfollow hf
    exact hactive
  · rintro _ ⟨⟩
    exact ⟨_, hobj', h⟩

end

/-- The constructor's call of `ResolveReferences` ends with a document or a `ValidatorInitExc`, if all
references that it follows are good. -/
theorem resolves_of_sound (doc : Json) (h : (wholeDoc doc).Sound) :
    ∃ n r, resolveReferences n [] doc = some r ∧ Proper r :=
  ends_of_sound (c := wholeDoc doc) ⟨doc, at?_nil doc⟩ h

/-- An object whose only member is a reference. -/
def refTo (ref : Bytes) : Json := .object [(lit "$ref", .string ref)]

def treeDoc (a b : Json) : Json := .object [(lit "a", a), (lit "b", b), (lit "d", .object [])]

/-- The value of `a` becomes that of `b`, which is a reference too, and then that of `d`. -/
theorem resolves_tree :
    ∃ n r, resolveReferences n [] (treeDoc (refTo (lit "#/b")) (refTo (lit "#/d"))) = some r ∧
      Proper r := by
  have hb : localRef (lit "$ref") (.string (lit "#/b")) = some (lit "b") := by decide
  have hd : localRef (lit "$ref") (.string (lit "#/d")) = some (lit "d") := by decide
  have hbTarget : resolvePath (treeDoc (refTo (lit "#/b")) (refTo (lit "#/d"))) (lit "b") = .ok [1] := by
    decide
  have hdTarget : ∀ a, resolvePath (treeDoc a (refTo (lit "#/d"))) (lit "d") = .ok [2] := by
    intro a
    rfl
  have hfirst : resolveReferences 4 [0] (treeDoc (refTo (lit "#/b")) (refTo (lit "#/d"))) =
      some (.ok (treeDoc (.object []) (refTo (lit "#/d")))) := rfl
  have hsecond : resolveReferences 3 [1] (treeDoc (.object []) (refTo (lit "#/d"))) =
      some (.ok (treeDoc (.object []) (.object []))) := rfl
  have hthird : resolveReferences 2 [2] (treeDoc (.object []) (.object [])) =
      some (.ok (treeDoc (.object []) (.object []))) := rfl
  apply resolves_of_sound
  apply sound_value rfl
  apply sound_member rfl rfl rfl hfirst _ rfl
  · -- behind the copies into `a`, its value is an empty object
    apply sound_member rfl rfl rfl hsecond _ rfl
    · apply sound_member rfl rfl rfl hthird _ rfl
      · exact sound_end rfl rfl
      · exact sound_value rfl (sound_end rfl rfl)
    · apply sound_value rfl
      apply sound_copy rfl rfl hd (hdTarget _) rfl (by decide) (Or.inr (by simp))
      exact sound_end rfl rfl
  · apply sound_value rfl
    apply sound_copy rfl rfl hb hbTarget rfl (by decide) (Or.inr (by simp))
    apply sound_copy rfl rfl hd (hdTarget _) rfl (by decide) (Or.inr (by decide))
    exact sound_end rfl rfl

/-- Two references to each other, and one to them. -/
def cycleDoc (ref : Bytes) : Json :=
  .object [(lit "a", refTo ref), (lit "b", refTo (lit "#/c")), (lit "c", refTo (lit "#/b"))]

/-- The value of `a` becomes that of `b` and that of `c` in turn. -/
theorem cycle_none (n : Nat) : resolveMembers n [0] 0 (cycleDoc (lit "#/b")) = none ∧
    resolveMembers n [0] 0 (cycleDoc (lit "#/c")) = none := by
  have hb : localRef (lit "$ref") (.string (lit "#/b")) = some (lit "b") := by decide
  have hc : localRef (lit "$ref") (.string (lit "#/c")) = some (lit "c") := by decide
  have hbTarget : resolvePath (cycleDoc (lit "#/b")) (lit "b") = .ok [1] := by decide
  have hcTarget : resolvePath (cycleDoc (lit "#/c")) (lit "c") = .ok [2] := by decide
  induction n with
  | zero => exact ⟨rfl, rfl⟩
  | succ n ih =>
    constructor
    · exact (copy_step (p := [0]) rfl rfl hb hbTarget rfl (by decide) n).trans ih.2
    · exact (copy_step (p := [0]) rfl rfl hc hcTarget rfl (by decide) n).trans ih.1

theorem cycle_never_ends : ¬∀ doc : Json, ∃ n r, resolveReferences n [] doc = some r ∧ Proper r := by
  intro h
  obtain ⟨n, r, hrun, -⟩ := h (cycleDoc (lit "#/b"))
  have hmore := resolveReferences_mono (Nat.le_add_right n 3) hrun
  have hnone : resolveReferences (n + 3) [] (cycleDoc (lit "#/b")) = none := by
    have hchild : resolveReferences (n + 1) ([] ++ [0]) (cycleDoc (lit "#/b")) = none :=
      (cycle_none n).1
    have hloop : resolveReferences (n + 3) [] (cycleDoc (lit "#/b")) =
        thenRun (resolveReferences (n + 1) ([] ++ [0]) (cycleDoc (lit "#/b")))
          (resolveMembers (n + 1) [] 1) := rfl
    rw [hloop, hchild]
    rfl
  rw [hnone] at hmore
  simp at hmore

/-! ### Runs that reach an assertion -/

/-- An error behind a step of the run is the error of the run. -/
theorem error_of_comes {c c' : Config} (h : Comes c c') {n : Nat} {x : InitError}
    (hrun : c'.run n = some (.error x)) : ∃ m, c.run m = some (.error x) := by
  cases h with
  | object hobj => exact ⟨n + 1, by simpa only [Config.run, resolveReferences, hobj] using hrun⟩
  | array harr => exact ⟨n + 1, by simpa only [Config.run, resolveReferences, harr] using hrun⟩
  | copy hobj hm href htarget hcopy =>
    refine ⟨n + 1, ?_⟩
    simpa only [Config.run, resolveMembers, hobj, hm, href, htarget, hcopy, Bind.bind,
      Except.bind] using hrun
  | skip hobj hm href hstring =>
    refine ⟨n + 1, ?_⟩
    simpa only [Config.run, resolveMembers, hobj, hm, href, hstring, if_true] using hrun
  | member hobj hm href hstring =>
    refine ⟨n + 1, ?_⟩
    simp only [Config.run] at hrun
    simp only [Config.run, resolveMembers, hobj, hm, href, hstring, Bool.false_eq_true, if_false,
      hrun, thenRun]
  | @nextMember active p doc doc' i members name value k hobj hm href hstring hchild =>
    refine ⟨max n k + 1, ?_⟩
    simp only [Config.run, resolveMembers, hobj, hm, href, hstring, Bool.false_eq_true, if_false,
      resolveReferences_mono (Nat.le_max_right n k) hchild, thenRun]
    exact resolveMembers_mono (Nat.le_max_left n k) hrun
  | item harr hi =>
    refine ⟨n + 1, ?_⟩
    simp only [Config.run] at hrun
    simp only [Config.run, resolveItems, harr, if_pos hi, hrun, thenRun]
  | @nextItem active p doc doc' i items k harr hi hchild =>
    refine ⟨max n k + 1, ?_⟩
    simp only [Config.run, resolveItems, harr, if_pos hi,
      resolveReferences_mono (Nat.le_max_right n k) hchild, thenRun]
    exact resolveItems_mono (Nat.le_max_left n k) hrun

theorem error_of_reached {c c' : Config} (h : ReflTransGen Comes c c') {x : InitError}
    (hrun : ∃ n, c'.run n = some (.error x)) : ∃ n, c.run n = some (.error x) := by
  induction h using ReflTransGen.head_induction_on with
  | refl => exact hrun
  | head hstep _ ih =>
    obtain ⟨n, hn⟩ := ih
    exact error_of_comes hstep hn

/-- A reference to its own place, or to something that is no object, is followed into an assertion. -/
theorem assertion_of_not_lands {c : Config} (h : ¬c.Lands) :
    ∃ n, c.run n = some (.error .assertion) := by
  obtain ⟨active, p, stage, doc⟩ := c
  simp only [Config.Lands, not_forall] at h
  obtain ⟨ref, target, ⟨i, members, name, value, hstage, hobj, hm, href, htarget⟩, hbad⟩ := h
  obtain rfl : stage = .members i := hstage
  by_cases hne : target = p
  · refine ⟨1, ?_⟩
    subst hne
    simp only at hobj htarget
    simp [Config.run, resolveMembers, hobj, hm, href, htarget, copyFrom, Bind.bind, Except.bind]
  · obtain ⟨u, hu⟩ := at_resolveParts htarget
    have hnot : ∀ members, u ≠ .object members := by
      rintro members rfl
      exact hbad ⟨hne, members, hu⟩
    refine ⟨2, (copy_step hobj hm href htarget hu hne 1).trans ?_⟩
    rw [resolveMembers, at?_setAt hobj]
    cases u with
    | object members => exact absurd rfl (hnot members)
    | _ => rfl

/-- A run that ends properly follows no reference to its own place or to something that is no object. -/
theorem lands_of_resolves {doc : Json} {n : Nat} {r : Except InitError Json}
    (hrun : resolveReferences n [] doc = some r) (hr : Proper r) {c : Config}
    (hc : ReflTransGen Comes (wholeDoc doc) c) : c.Lands := by
  by_contra hbad
  obtain ⟨m, hm⟩ := error_of_reached hc (assertion_of_not_lands hbad)
  obtain rfl := resolveReferences_det hrun hm
  rcases hr with ⟨doc', h⟩ | ⟨message, h⟩
  · simp at h
  · simp at h

end OasValidator
