import OasValidator.Imp.Expanded

/-! What `ResolveReferences` makes of a document whose references have no cycles: each object that holds
a reference gives way to the target, inlined in turn, and nothing else changes.  A run never rewrites an
object that a reference walks through, and so what each reference leads to is settled. -/

namespace OasValidator

open Library.Cut Library.Json Library.Json.Value Relation

/-! ### Inlined documents -/

/-- From the value, the members of these names lead to the target. -/
inductive Walks : Json → List Bytes → Json → Prop
  | here (v : Json) : Walks v [] v
  | member {members : List (Bytes × Json)} {name : Bytes} {names : List Bytes} {value target : Json}
      (mem : (name, value) ∈ members) (rest : Walks value names target) :
      Walks (.object members) (name :: names) target

/-- The reference joins the names. -/
structure Joins (ref : Bytes) (names : List Bytes) : Prop where
  eq : ref = [slash].intercalate names
  plain : ∀ name ∈ names, name ≠ [] ∧ slash ∉ name ∧ 0 ∉ name

/-- The reference names the value in the document. -/
def Names (doc : Json) (ref : Bytes) (target : Json) : Prop :=
  ∃ names, Joins ref names ∧ Walks doc names target

/-- The value `v` with the references of the document inlined is `w`. -/
inductive Inlined (doc : Json) : Json → Json → Prop
  | kept {v w : Json} (shape : SameShape v w) (plain : ∀ ref, ¬Holds v ref)
      (children : ∀ (i : Nat) c c', v.children[i]? = some c → w.children[i]? = some c' →
        Inlined doc c c') :
      Inlined doc v w
  | replaced {v w : Json} {ref : Bytes} {members : List (Bytes × Json)} (holds : Holds v ref)
      (names : Names doc ref (.object members)) (inlined : Inlined doc (.object members) w) :
      Inlined doc v w

/-- Somewhere in the target of `ref` there is the reference `ref'`. -/
def Needs (doc : Json) (ref ref' : Bytes) : Prop := ∃ target, Names doc ref target ∧ ref' ∈ refs target

/-- The keys of an object are distinct and without NUL. -/
def PlainKeys (v : Json) : Prop :=
  ∀ p members, v.at? p = some (.object members) →
    (members.map Prod.fst).Nodup ∧ ∀ name ∈ members.map Prod.fst, 0 ∉ name

/-- References name objects, none stands or leads below an object that holds one, and there are no
cycles of them. -/
structure WellReferenced (doc : Json) : Prop where
  keyed : PlainKeys doc
  targets : ∀ ref ∈ refs doc, ∃ members, Names doc ref (.object members)
  above : ∀ ref ∈ refs doc, ∀ before behind, Joins ref (before ++ behind) → behind ≠ [] →
    ∀ v, Walks doc before v → ∀ ref', ¬Holds v ref'
  acyclic : ∀ ref, ¬TransGen (Needs doc) ref ref

/-! ### Walks to targets -/

/-- The reference names an object of these members. -/
def NamesObject (doc : Json) (ref : Bytes) (members : List (Bytes × Json)) : Prop :=
  Names doc ref (.object members)

section

variable {doc v w target : Json} {names : List Bytes} {ref ref' : Bytes}

theorem PlainKeys.at (h : PlainKeys v) {p : Place} {c : Json} (hc : v.at? p = some c) :
    PlainKeys c := by
  intro q members hq
  refine h (p ++ q) members ?_
  rw [at?_append, hc]
  exact hq

theorem PlainKeys.child (h : PlainKeys v) {i : Nat} {c : Json} (hc : v.children[i]? = some c) :
    PlainKeys c :=
  h.at (p := [i]) (by simp [at?_cons, hc])

/-- Members of one name are the same. -/
theorem PlainKeys.member_unique {members : List (Bytes × Json)} (h : PlainKeys (.object members))
    {m m' : Bytes × Json} (hm : m ∈ members) (hm' : m' ∈ members) (hname : m.1 = m'.1) : m = m' :=
  List.inj_on_of_nodup_map (h [] members (at?_nil _)).1 hm hm' hname

/-- An object holds one local reference at most. -/
theorem Holds.unique (h : Holds v ref) (h' : Holds v ref') (hkeys : PlainKeys v) : ref = ref' := by
  cases v with
  | object members =>
    have hname : ∀ {m ref}, m ∈ members → localRef m.1 m.2 = some ref → m.1 = lit "$ref" := by
      rintro ⟨name, value⟩ ref hm href
      have hplain := (hkeys [] members (at?_nil _)).2 name (List.mem_map_of_mem hm)
      cases value with
      | string s =>
        simp only [localRef, cstr_of_not_mem hplain] at href
        by_contra hne
        simp [show name ≠ lit "$ref" from hne] at href
      | _ => simp [localRef] at href
    obtain ⟨m, hm, href⟩ := h
    obtain ⟨m', hm', href'⟩ := h'
    obtain rfl := hkeys.member_unique hm hm' ((hname hm href).trans (hname hm' href').symm)
    exact Option.some.inj (href.symm.trans href')
  | _ => exact absurd h id

/-- What a walk leads to is a part of the value. -/
theorem Walks.at (h : Walks v names target) : ∃ p, v.at? p = some target := by
  induction h with
  | here v => exact ⟨[], at?_nil v⟩
  | member mem _ ih =>
    obtain ⟨p, hp⟩ := ih
    obtain ⟨i, hi⟩ := List.mem_iff_getElem?.mp mem
    refine ⟨i :: p, ?_⟩
    rw [at?_cons, child_of_member hi]
    exact hp

theorem Joins.split_eq (h : Joins ref names) : split ref = names := by
  rw [split, h.eq]
  refine cut_intercalate (fun name hname => (h.plain name hname).2.1) fun hlast => ?_
  exact (h.plain [] (List.mem_of_getLast? hlast)).1 rfl

/-- Where no reference stands above the target, the walk is the way to it. -/
theorem Walks.way (h : Walks v names target) (hkeys : PlainKeys v)
    (habove : ∀ before behind, names = before ++ behind → behind ≠ [] → ∀ x, Walks v before x →
      ∀ ref, ¬Holds x ref) : Way v names (some target) := by
  induction h with
  | here v => exact .here v
  | @member members name names value target mem _ ih =>
    obtain ⟨hnodup, hplain⟩ := hkeys [] members (at?_nil _)
    have hname : name ∈ members.map Prod.fst := List.mem_map_of_mem (f := Prod.fst) mem
    have hcstr : cstr name = name := cstr_of_not_mem (hplain name hname)
    obtain ⟨i, hi⟩ := List.mem_iff_getElem?.mp mem
    refine .member (habove [] (name :: names) rfl (by simp) _ (.here _)) mem hcstr.symm ?_ ?_
    · rw [hcstr]
      exact List.count_eq_one_of_mem hnodup hname
    · exact ih (hkeys.child (child_of_member hi)) fun before behind hnames hne x hx =>
        habove (name :: before) behind (by rw [hnames]; rfl) hne x (.member mem hx)

end

section

variable {doc cur : Json} {ref ref' : Bytes}

/-- A reference somewhere in the document. -/
theorem Needs.mem_refs (h : Needs doc ref ref') : ref' ∈ refs doc := by
  obtain ⟨target, ⟨names, -, hwalks⟩, href⟩ := h
  obtain ⟨p, hp⟩ := hwalks.at
  exact refs_subset_of_at hp href

theorem Requires.needs (h : Requires (NamesObject doc) ref ref') : Needs doc ref ref' := by
  obtain ⟨members, hnames, href⟩ := h
  exact ⟨_, hnames, href⟩

theorem PlainKeys.expands (hdoc : PlainKeys doc) {v w : Json} (h : Expands (NamesObject doc) v w)
    (hkeys : PlainKeys v) : PlainKeys w := by
  induction h with
  | @kept v w shape _ ih =>
    intro p members hp
    cases p with
    | nil =>
      rw [at?_nil] at hp
      obtain rfl := Option.some.inj hp
      rcases shape.cases with ⟨_, _, -, h, -⟩ | ⟨members', _, rfl, h, hnames⟩ | ⟨rfl, -⟩
      · simp at h
      · obtain rfl := Value.object.inj h
        rw [← hnames]
        exact hkeys [] members' (at?_nil _)
      · exact hkeys [] members (at?_nil _)
    | cons i p =>
      rw [at?_cons] at hp
      obtain ⟨c', hc', hp⟩ := Option.bind_eq_some_iff.mp hp
      obtain ⟨c, hc⟩ := shape.child hc'
      exact ih i c c' hc hc' (hkeys.child hc) p members hp
  | replaced _ _ names _ ih =>
    obtain ⟨_, -, hwalks⟩ := names
    obtain ⟨p, hp⟩ := hwalks.at
    exact ih (hdoc.at hp)

/-- Each reference of the document leads to an object in a document resolved in part, which is the target
resolved in part. -/
theorem WellReferenced.way (hwell : WellReferenced doc) (h : Expands (NamesObject doc) doc cur)
    (href : ref ∈ refs doc) :
    ∃ members members', NamesObject doc ref members ∧ Way cur (split ref) (some (.object members')) ∧
      Expands (NamesObject doc) (.object members) (.object members') := by
  obtain ⟨members, names, hjoins, hwalks⟩ := hwell.targets ref href
  have hway := hwalks.way hwell.keyed fun before behind hnames hne =>
    hwell.above ref href before behind (hnames ▸ hjoins) hne
  obtain ⟨_, hway', hrel⟩ := hway.expands h
  cases hrel with
  | some hexpands =>
    obtain ⟨members', rfl⟩ := hexpands.object
    exact ⟨members, members', ⟨names, hjoins, hwalks⟩, hjoins.split_eq ▸ hway', hexpands⟩

/-- A run comes to references of the document only. -/
theorem Arrives.mem_refs {c : Config} (h : Arrives doc (NamesObject doc) c) (hseeks : c.Seeks ref) :
    ref ∈ refs doc := by
  have hmem : ref ∈ refs c.doc := by
    obtain ⟨i, members, name, value, -, hobj, hm, href⟩ := hseeks
    exact refs_subset_of_at hobj (mem_refs_of_member hm href)
  rcases h.expands.refs_of_mem hmem with hmem | ⟨_, -, hrequires⟩
  · exact hmem
  · obtain ⟨_, -, hlast⟩ := TransGen.tail'_iff.mp hrequires
    exact hlast.needs.mem_refs

theorem WellReferenced.alone (hwell : WellReferenced doc) {c : Config}
    (h : Arrives doc (NamesObject doc) c) (hseeks : c.Seeks ref) (href : Holds c.here ref') :
    ref' = ref := by
  have hholds := hseeks.holds
  obtain ⟨_, members, _, _, -, hobj, -⟩ := hseeks
  rw [show c.here = .object members from here_eq hobj] at href hholds
  exact href.unique hholds ((hwell.keyed.expands h.expands hwell.keyed).at hobj)

theorem WellReferenced.determined (hwell : WellReferenced doc) : Determined doc (NamesObject doc) where
  follows := by
    intro c harrives ref target hfollows
    have hseeks := hfollows.seeks
    obtain ⟨members, members', hnames, hway, hexpands⟩ :=
      hwell.way harrives.expands (harrives.mem_refs hseeks)
    obtain ⟨p, hpath, hat⟩ := hway.resolves
    obtain ⟨_, _, _, _, -, -, -, -, htarget⟩ := hfollows
    obtain rfl : p = target := Except.ok.inj (hpath.symm.trans htarget)
    exact ⟨fun ref' href => hwell.alone harrives hseeks href, members, members', hat, hnames, hexpands⟩
  acyclic ref hcycle := hwell.acyclic ref (TransGen.mono (fun _ _ => Requires.needs) _ _ hcycle)

theorem sound_of_wellReferenced (hwell : WellReferenced doc) : (wholeDoc doc).Sound :=
  hwell.determined.sound

end

/-! ### The inlined document -/

/-- Without references left, the value is inlined. -/
theorem Expands.inlined {v w : Json} (h : Expands (NamesObject doc) v w) (hrefs : refs w = []) :
    Inlined doc v w := by
  have hnone : ∀ {w : Json}, refs w = [] → ∀ ref, ref ∉ refs w := fun h ref hmem => by simp [h] at hmem
  induction h with
  | @kept v w shape children ih =>
    refine .kept shape (fun ref hholds => ?_) fun i c c' hc hc' => ih i c c' hc hc' ?_
    · exact hnone hrefs ref (mem_refs_iff.mpr (Or.inl ((Expands.holds_iff shape children ref).mp hholds)))
    · rw [List.eq_nil_iff_forall_not_mem]
      exact fun ref hmem => hnone hrefs ref (mem_refs_iff.mpr (Or.inr ⟨i, c', hc', hmem⟩))
  | replaced holds _ names _ ih => exact .replaced holds names (ih hrefs)

section

variable {doc v w w' target target' : Json} {names : List Bytes} {ref ref' : Bytes}

theorem Walks.unique (h : Walks v names target) (h' : Walks v names target') (hkeys : PlainKeys v) :
    target = target' := by
  induction h with
  | here v =>
    cases h'
    rfl
  | @member members name names value target mem _ ih =>
    cases h' with
    | @member _ _ _ value' _ mem' rest' =>
      obtain ⟨-, rfl⟩ := Prod.mk.inj (hkeys.member_unique mem mem' rfl)
      obtain ⟨i, hi⟩ := List.mem_iff_getElem?.mp mem
      exact ih rest' (hkeys.child (child_of_member hi))

theorem Names.unique (h : Names doc ref target) (h' : Names doc ref target') (hkeys : PlainKeys doc) :
    target = target' := by
  obtain ⟨names, hjoins, hwalks⟩ := h
  obtain ⟨names', hjoins', hwalks'⟩ := h'
  obtain rfl : names = names' := hjoins.split_eq.symm.trans hjoins'.split_eq
  exact hwalks.unique hwalks' hkeys

/-- Values of one shape with the same children are the same. -/
theorem SameShape.eq_of_children (h : SameShape v w)
    (hchildren : ∀ (i : Nat) c c', v.children[i]? = some c → w.children[i]? = some c' → c = c') :
    v = w := by
  have heq : v.children = w.children := by
    apply List.ext_getElem h.length_eq
    intro i hi hi'
    exact hchildren i _ _ (List.getElem?_eq_getElem hi) (List.getElem?_eq_getElem hi')
  rcases h.cases with ⟨items, items', rfl, rfl, -⟩ | ⟨members, members', rfl, rfl, hkeys⟩ | ⟨rfl, -⟩
  · exact congrArg Value.array heq
  · exact congrArg Value.object
      ((List.zip_of_prod hkeys heq).trans (List.zip_of_prod rfl rfl).symm)
  · rfl

/-- At most one value is the given one with the references inlined. -/
theorem Inlined.unique (hdoc : PlainKeys doc) (h : Inlined doc v w) (h' : Inlined doc v w')
    (hkeys : PlainKeys v) : w = w' := by
  induction h generalizing w' with
  | @kept v w shape plain children ih =>
    cases h' with
    | replaced holds => exact absurd holds (plain _)
    | kept shape' _ children' =>
      refine (shape.trans_left shape').eq_of_children fun i c c' hc hc' => ?_
      obtain ⟨u, hu⟩ := shape.child hc
      exact ih i u c hu hc (children' i u c' hu hc') (hkeys.child hu)
  | @replaced v w ref members holds names _ ih =>
    cases h' with
    | kept _ plain => exact absurd holds (plain ref)
    | replaced holds' names' inlined' =>
      obtain rfl := holds.unique holds' hkeys
      obtain rfl := Value.object.inj (names.unique names' hdoc)
      obtain ⟨_, -, hwalks⟩ := names
      obtain ⟨p, hp⟩ := hwalks.at
      exact ih inlined' (hdoc.at hp)

end

/-- A run on a well referenced document ends with it inlined, and leaves no reference. -/
theorem WellReferenced.ends {doc : Json} (hwell : WellReferenced doc) :
    ∃ n doc', resolveReferences n [] doc = some (.ok doc') ∧ Inlined doc doc doc' ∧ refs doc' = [] := by
  rcases hwell.determined.ends with ⟨n, w, hrun, hexpands, hrefs⟩ | ⟨n, _, c, ref, -, harrives, hseeks, hpath⟩
  · exact ⟨n, w, hrun, hexpands.inlined hrefs, hrefs⟩
  · -- no path fails to resolve
    obtain ⟨_, _, -, hway, -⟩ := hwell.way harrives.expands (harrives.mem_refs hseeks)
    obtain ⟨p, hparts, -⟩ := hway.resolves
    rw [resolvePath, hparts] at hpath
    simp at hpath

/-- On a well referenced document `ResolveReferences` ends without an exception, with the document whose
references are inlined, and no object there holds a local reference. -/
theorem resolves_inlined {doc : Json} (hwell : WellReferenced doc) :
    ∃ n doc', resolveReferences n [] doc = some (.ok doc') ∧ Inlined doc doc doc' ∧
      (∀ w, Inlined doc doc w → w = doc') ∧
      ∀ p v ref, doc'.at? p = some v → ¬Holds v ref := by
  obtain ⟨n, doc', hrun, hinlined, hrefs⟩ := hwell.ends
  refine ⟨n, doc', hrun, hinlined, fun w hw => hw.unique hwell.keyed hinlined hwell.keyed, ?_⟩
  intro p v ref hv hholds
  have hmem := refs_subset_of_at hv (mem_refs_iff.mpr (Or.inl hholds))
  simp [hrefs] at hmem

theorem plainKeys_object {members : List (Bytes × Json)} (hnodup : (members.map Prod.fst).Nodup)
    (hplain : ∀ name ∈ members.map Prod.fst, 0 ∉ name) (hmembers : ∀ m ∈ members, PlainKeys m.2) :
    PlainKeys (.object members) := by
  intro p members' hp
  cases p with
  | nil =>
    rw [at?_nil] at hp
    obtain rfl := Value.object.inj (Option.some.inj hp)
    exact ⟨hnodup, hplain⟩
  | cons i p =>
    rw [at?_cons] at hp
    obtain ⟨c, hc, hp⟩ := Option.bind_eq_some_iff.mp hp
    obtain ⟨m, hm, rfl⟩ := List.mem_map.mp (List.mem_of_getElem? hc)
    exact hmembers m hm p members' hp

theorem plainKeys_string (s : Bytes) : PlainKeys (.string s) := by
  intro p members hp
  cases p with
  | nil => simp at hp
  | cons i p => simp [at?_cons, children] at hp

/-- References that only require later ones have no cycles. -/
theorem acyclic_of_rank {doc : Json} (rank : Bytes → Nat)
    (h : ∀ ref ref', Needs doc ref ref' → rank ref < rank ref') (ref : Bytes) :
    ¬TransGen (Needs doc) ref ref := by
  have hlt : ∀ {ref ref'}, TransGen (Needs doc) ref ref' → rank ref < rank ref' := by
    intro ref ref' hneeds
    induction hneeds with
    | single hneeds => exact h _ _ hneeds
    | tail _ hneeds ih => exact ih.trans (h _ _ hneeds)
  exact fun hcycle => (hlt hcycle).false

theorem wellReferenced_tree : WellReferenced (treeDoc (refTo (lit "#/b")) (refTo (lit "#/d"))) := by
  have hrefs : refs (treeDoc (refTo (lit "#/b")) (refTo (lit "#/d"))) = [lit "b", lit "d"] := by decide
  have hempty : PlainKeys (.object []) := plainKeys_object (by decide) (by simp) (by simp)
  have href : ∀ s, PlainKeys (refTo s) := fun s =>
    plainKeys_object (by simp) (by simpa using (by decide : 0 ∉ lit "$ref"))
      (by simpa using plainKeys_string s)
  have hkeyed : PlainKeys (treeDoc (refTo (lit "#/b")) (refTo (lit "#/d"))) := by
    refine plainKeys_object (by decide) (by decide) ?_
    simpa only [List.forall_mem_cons] using ⟨href _, href _, hempty, by simp⟩
  have hplain : ∀ ref, ¬Holds (treeDoc (refTo (lit "#/b")) (refTo (lit "#/d"))) ref := by
    rintro ref ⟨m, hm, href⟩
    simp only [List.mem_cons, List.not_mem_nil, or_false] at hm
    rcases hm with rfl | rfl | rfl <;> simp [localRef, refTo] at href
  have hjoins : ∀ {name : Bytes}, name ∈ [lit "b", lit "d"] → Joins name [name] := by
    intro name hname
    refine ⟨by simp [List.intercalate], ?_⟩
    rcases List.mem_pair.mp hname with rfl | rfl <;> decide
  have hb : Names (treeDoc (refTo (lit "#/b")) (refTo (lit "#/d"))) (lit "b") (refTo (lit "#/d")) :=
    ⟨_, hjoins (by simp), .member (List.mem_cons_of_mem _ List.mem_cons_self) (.here _)⟩
  have hd : Names (treeDoc (refTo (lit "#/b")) (refTo (lit "#/d"))) (lit "d") (.object []) :=
    ⟨_, hjoins (by simp), .member (by simp) (.here _)⟩
  refine ⟨hkeyed, ?_, ?_, acyclic_of_rank (fun ref => if ref = lit "d" then 2 else
    if ref = lit "b" then 1 else 0) ?_⟩
  · rw [hrefs]
    intro ref href
    rcases List.mem_pair.mp href with rfl | rfl
    · exact ⟨_, hb⟩
    · exact ⟨_, hd⟩
  · rw [hrefs]
    intro ref href before behind hsplit hne v hwalks ref' hholds
    have hparts : before ++ behind = [ref] := hsplit.split_eq.symm.trans (hjoins href).split_eq
    obtain rfl : before = [] := by
      cases before with
      | nil => rfl
      | cons => simp_all
    cases hwalks
    exact hplain ref' hholds
  · -- `b` requires `d`, and `d` nothing
    intro ref ref' hneeds
    have hmem := hneeds.mem_refs
    rw [hrefs, List.mem_pair] at hmem
    obtain ⟨target, htarget, hmem'⟩ := hneeds
    by_cases hrefd : ref = lit "d"
    · subst hrefd
      obtain rfl := htarget.unique hd hkeyed
      simp [refs, collect, collectMembers] at hmem'
    by_cases hrefb : ref = lit "b"
    · subst hrefb
      obtain rfl := htarget.unique hb hkeyed
      obtain rfl : ref' = lit "d" := by simpa [show refs (refTo (lit "#/d")) = [lit "d"] by decide]
        using hmem'
      decide
    · rw [if_neg hrefd, if_neg hrefb]
      rcases hmem with rfl | rfl <;> decide

theorem resolves_inlined_tree : ∃ n doc',
    resolveReferences n [] (treeDoc (refTo (lit "#/b")) (refTo (lit "#/d"))) = some (.ok doc') ∧
      Inlined (treeDoc (refTo (lit "#/b")) (refTo (lit "#/d")))
        (treeDoc (refTo (lit "#/b")) (refTo (lit "#/d"))) doc' ∧
      (∀ w, Inlined (treeDoc (refTo (lit "#/b")) (refTo (lit "#/d")))
        (treeDoc (refTo (lit "#/b")) (refTo (lit "#/d"))) w → w = doc') ∧
      ∀ p v ref, doc'.at? p = some v → ¬Holds v ref :=
  resolves_inlined wellReferenced_tree

end OasValidator
