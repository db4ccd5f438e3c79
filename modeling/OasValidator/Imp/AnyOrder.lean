import OasValidator.Imp.Inlining
import OasValidator.Imp.Reordered

/-! `ResolveReferences` on a document in two orders of the members.  Where no path that a run looks up
passes a reference that still stands there, and none fails below a value that is to be replaced, both
orders throw, or both have one result up to order. -/

namespace OasValidator

open Library.Cut Library.Json Library.Json.Value Relation

/-! ### Guided runs -/

/-- Where the run looks a reference up: it is the only one of its object, and its path passes objects that
hold no reference any more, to an object or to no value.  In the latter case no object around it holds a
reference. -/
structure Config.Guided (c : Config) : Prop where
  alone : ∀ ref, c.Seeks ref → ∀ ref', Holds c.here ref' → ref' = ref
  ways : ∀ ref, c.Seeks ref → (∃ members, Way c.doc (split ref) (some (.object members))) ∨
    Way c.doc (split ref) none ∧ ∀ q v ref', q <+: c.place → q ≠ c.place → c.doc.at? q = some v →
      ¬Holds v ref'

/-- All lookups of the run on the document are of this kind. -/
def Guided (doc : Json) : Prop := (wholeDoc doc).Always Config.Guided

/-- The value has all its references lead to objects, and these in turn. -/
inductive Resolvable (doc : Json) : Json → Prop
  | plain {v : Json} (plain : ∀ ref, ¬Holds v ref) (children : ∀ c ∈ v.children, Resolvable doc c) :
      Resolvable doc v
  | follows {v : Json} {ref : Bytes} {members : List (Bytes × Json)} (holds : Holds v ref)
      (leads : LeadsTo doc ref members) (target : Resolvable doc (.object members)) : Resolvable doc v

/-- The value that the run is at can be resolved, or is part of one that is replaced. -/
def Config.Resolving (doc : Json) (c : Config) : Prop :=
  (∃ u, Resolvable doc u ∧ Expands (LeadsTo doc) u c.here) ∨
    ∃ q v ref, q <+: c.place ∧ q ≠ c.place ∧ c.doc.at? q = some v ∧ Holds v ref

section

variable {doc doc' v v' w : Json} {ref : Bytes} {members : List (Bytes × Json)}

theorem Guided.determined (h : Guided doc) (hacyclic : ∀ ref, ¬TransGen (Refers doc) ref ref) :
    Determined doc (LeadsTo doc) where
  follows := by
    intro c harrives ref target hfollows
    have hseeks := hfollows.seeks
    obtain ⟨halone, hways⟩ := h c harrives.comes
    obtain ⟨_, _, _, _, -, -, -, -, htarget⟩ := hfollows
    rcases hways ref hseeks with ⟨members', hway⟩ | ⟨hway, -⟩
    · obtain ⟨p, hpath, hat⟩ := hway.resolves
      obtain rfl : p = target := Except.ok.inj (hpath.symm.trans htarget)
      obtain ⟨_, hleads, hrel⟩ := harrives.expands.pathLeads hway
      cases hrel with
      | some hexpands =>
        obtain ⟨members, rfl⟩ := hexpands.object_left
        exact ⟨halone ref hseeks, members, members', hat, hleads, hexpands⟩
    · obtain ⟨x, hx⟩ := hway.resolves
      rw [resolvePath, hx] at htarget
      simp at htarget
  acyclic := hacyclic

/-! ### Where a path fails -/

theorem Resolvable.target (h : Resolvable doc v) (hholds : Holds v ref)
    (halone : ∀ ref', Holds v ref' → ref' = ref) :
    ∃ members, LeadsTo doc ref members ∧ Resolvable doc (.object members) := by
  cases h with
  | plain plain _ => exact absurd hholds (plain ref)
  | follows holds leads target =>
    obtain rfl := halone _ holds
    exact ⟨_, leads, target⟩

/-- What a value that can be resolved has given way to can be resolved. -/
theorem Resolvable.replaced (h : Resolvable doc v) (hholds : Holds v ref)
    (halone : ∀ ref', Holds v ref' → ref' = ref) (hleads : LeadsTo doc ref members) :
    Resolvable doc (.object members) := by
  obtain ⟨members', hleads', htarget⟩ := h.target hholds halone
  exact hleads.unique hleads' ▸ htarget

/-- A reference that is held by such a value, resolved in part, leads to an object. -/
theorem Resolvable.leads (h : Resolvable doc v) (hexpands : Expands (LeadsTo doc) v w)
    (hholds : Holds w ref) (halone : ∀ ref', Holds w ref' → ref' = ref) :
    ∃ members, LeadsTo doc ref members := by
  induction hexpands with
  | kept shape children _ =>
    obtain ⟨members, hleads, -⟩ := h.target ((Expands.holds_iff shape children ref).mpr hholds)
      fun ref' href' => halone ref' ((Expands.holds_iff shape children ref').mp href')
    exact ⟨members, hleads⟩
  | replaced holds alone target _ ih => exact ih (h.replaced holds alone target) hholds halone

/-- The children of such a value that holds no reference can be resolved. -/
theorem Resolvable.child (h : Resolvable doc v) (hexpands : Expands (LeadsTo doc) v w)
    (hplain : ∀ ref, ¬Holds w ref) {i : Nat} {c : Json} (hc : w.children[i]? = some c) :
    ∃ u, Resolvable doc u ∧ Expands (LeadsTo doc) u c := by
  induction hexpands with
  | @kept v w shape children _ =>
    obtain ⟨u, hu⟩ := shape.child hc
    cases h with
    | plain _ hchildren =>
      exact ⟨u, hchildren u (List.mem_of_getElem? hu), children i u c hu hc⟩
    | follows holds =>
      exact absurd ((Expands.holds_iff shape children _).mp holds) (hplain _)
  | replaced holds alone target _ ih => exact ih (h.replaced holds alone target) hplain hc

/-- An object around the place goes on to hold what it holds. -/
theorem Advances.around {leads : Bytes → List (Bytes × Json) → Prop} {cur cur' : Json} {p q : Place}
    (h : Advances leads cur p cur') (hq : q <+: p) (hne : q ≠ p) (hv : cur.at? q = some v)
    (hholds : Holds v ref) : ∃ v', cur'.at? q = some v' ∧ Holds v' ref := by
  obtain ⟨x, y, hx, rfl, hxy⟩ := h
  obtain ⟨r, rfl⟩ := hq
  cases r with
  | nil => simp at hne
  | cons i r =>
    rw [at?_append, hv, Option.bind_some, at?_cons] at hx
    obtain ⟨c, hc, hx⟩ := Option.bind_eq_some_iff.mp hx
    have hset : v.setAt (i :: r) y = v.withChild i (c.setAt r y) := setAt_cons hc r y
    refine ⟨v.withChild i (c.setAt r y), ?_, ?_⟩
    · rw [setAt_append hv, hset]
      exact at?_setAt hv _
    · have hshape : SameShape v (v.withChild i (c.setAt r y)) := (SameShape.refl v).withChild hc _
      refine (hshape.holds_iff (fun j d d' hd hd' => ?_) ref).mp hholds
      rw [children_withChild hc, List.getElem?_set] at hd'
      by_cases hij : i = j
      · subst hij
        rw [if_pos rfl, if_pos (List.getElem?_eq_some_iff.mp hc).1] at hd'
        obtain rfl := Option.some.inj hd'
        obtain rfl := Option.some.inj (hc.symm.trans hd)
        exact sameText_setAt hx (hxy x (.refl x)).sameText
      · rw [if_neg hij] at hd'
        obtain rfl := Option.some.inj (hd.symm.trans hd')
        exact SameText.refl d

theorem Config.Resolving.comes {c c' : Config} (hset : Determined doc (LeadsTo doc))
    (harrives : Arrives doc (LeadsTo doc) c) (h : c.Resolving doc) (hstep : Comes c c') :
    c'.Resolving doc := by
  rcases hset.moves harrives hstep with ⟨hplace, hadv⟩ | ⟨i, v, w, hv, hw, hplace, hdoc⟩
  · rcases h with ⟨u, hu, hexpands⟩ | ⟨q, v, ref, hq, hne, hv, hholds⟩
    · obtain ⟨x, y, hx, hdoc, hxy⟩ := hadv
      have hhere : c'.here = y := by
        have hy := at?_setAt hx y
        rw [← hdoc, ← hplace] at hy
        exact here_eq hy
      rw [show c.here = x from here_eq hx] at hexpands
      exact Or.inl ⟨u, hu, hhere ▸ hxy u hexpands⟩
    · obtain ⟨v', hv', hholds'⟩ := hadv.around hq hne hv hholds
      exact Or.inr ⟨q, v', ref, hplace ▸ hq, hplace ▸ hne, hv', hholds'⟩
  · have hnotLonger : c.place ≠ c.place ++ [i] := by simp
    rcases h with ⟨u, hu, hexpands⟩ | ⟨q, v, ref, hq, hne, hv, hholds⟩
    · rw [show c.here = v from here_eq hv] at hexpands
      by_cases hplain : ∀ ref, ¬Holds v ref
      · obtain ⟨u', hu', hexpands'⟩ := hu.child hexpands hplain hw
        have hhere : c'.here = w := by
          have hchild := at?_child hv hw
          rw [← hplace, ← hdoc] at hchild
          exact here_eq hchild
        exact Or.inl ⟨u', hu', hhere ▸ hexpands'⟩
      · push Not at hplain
        obtain ⟨ref, hholds⟩ := hplain
        exact Or.inr ⟨c.place, v, ref, hplace ▸ List.prefix_append _ _, hplace ▸ hnotLonger,
          hdoc ▸ hv, hholds⟩
    · refine Or.inr ⟨q, v, ref, hplace ▸ hq.trans (List.prefix_append _ _), fun heq => ?_, hdoc ▸ hv, hholds⟩
      rw [heq, hplace] at hq
      have hlen := hq.length_le
      simp at hlen

/-- Where a document can be resolved, no path that a guided run looks up fails. -/
theorem Guided.not_fails (h : Guided doc) (hset : Determined doc (LeadsTo doc))
    (hdoc : Resolvable doc doc) {c : Config} (harrives : Arrives doc (LeadsTo doc) c)
    (hseeks : c.Seeks ref) (x : InitError) : resolvePath c.doc ref ≠ .error x := by
  intro hpath
  have hresolving : c.Resolving doc := by
    have hcomes := harrives.comes
    clear hpath hseeks harrives
    induction hcomes with
    | refl => exact Or.inl ⟨doc, hdoc, .refl doc⟩
    | tail hc hstep ih => exact ih.comes hset (hset.reached hc) hstep
  obtain ⟨halone, hways⟩ := h c harrives.comes
  rcases hways ref hseeks with ⟨_, hway⟩ | ⟨hway, haround⟩
  · obtain ⟨p, hp, -⟩ := hway.resolves
    rw [resolvePath, hp] at hpath
    simp at hpath
  · rcases hresolving with ⟨u, hu, hexpands⟩ | ⟨q, v, ref', hq, hne, hv, hholds⟩
    · obtain ⟨members, hleads⟩ := hu.leads hexpands hseeks.holds (halone ref hseeks)
      obtain ⟨_, hnowhere, hrel⟩ := harrives.expands.pathLeads hway
      cases hrel
      exact absurd (hnowhere.unique hleads) (by simp)
    · exact haround q v ref' hq hne hv hholds

/-! ### Both runs -/

/-- What was resolved without a step held no reference. -/
theorem not_holds_of_shape {leads : Bytes → List (Bytes × Json) → Prop} (shape : SameShape v w)
    (children : ∀ (i : Nat) c c', v.children[i]? = some c → w.children[i]? = some c' →
      Expands leads c c') (hrefs : refs w = []) (ref : Bytes) : ¬Holds v ref := by
  intro hholds
  have hmem := mem_refs_iff.mpr (Or.inl ((Expands.holds_iff shape children ref).mp hholds))
  simp [hrefs] at hmem

theorem refs_child (hrefs : refs w = []) {i : Nat} {c : Json} (hc : w.children[i]? = some c) :
    refs c = [] := by
  rw [List.eq_nil_iff_forall_not_mem]
  intro ref href
  have hmem := mem_refs_iff.mpr (Or.inr ⟨i, c, hc, href⟩)
  simp [hrefs] at hmem

theorem Reordered.refs_nil (h : Reordered v w) (hrefs : refs v = []) : refs w = [] := by
  rw [List.eq_nil_iff_forall_not_mem]
  intro ref href
  have hmem := h.symm.mem_refs href
  simp [hrefs] at hmem

/-- In a resolved value, the references were followed to their ends. -/
theorem Expands.resolvable (h : Expands (LeadsTo doc) v w) (hrefs : refs w = []) : Resolvable doc v := by
  induction h with
  | @kept v w shape children ih =>
    refine .plain (not_holds_of_shape shape children hrefs) fun c hc => ?_
    obtain ⟨i, hi⟩ := List.mem_iff_getElem?.mp hc
    have hlt : i < w.children.length := shape.length_eq ▸ (List.getElem?_eq_some_iff.mp hi).1
    have hi' := List.getElem?_eq_getElem hlt
    exact ih i c _ hi hi' (refs_child hrefs hi')
  | replaced holds _ target _ ih => exact .follows holds target (ih hrefs)

/-- What can be resolved in one order can be in the others. -/
theorem Reordered.resolvable (h : Reordered doc doc') (hv : Resolvable doc v) (hsame : Reordered v v') :
    Resolvable doc' v' := by
  induction hv generalizing v' with
  | plain plain _ ih =>
    refine .plain (fun ref => (hsame.holds_iff ref).not.mp (plain ref)) fun c' hc' => ?_
    obtain ⟨c, hc, hlike⟩ := hsame.child hc'
    exact ih c hc hlike
  | follows holds leads _ ih =>
    obtain ⟨members', hleads, hlike⟩ := h.leadsTo leads
    exact .follows (hsame.holds holds) hleads (ih hlike)

/-- A value without a reference is resolved child by child, and the order of its members is kept. -/
theorem reordered_of_children {v' w' : Json} (shape : SameShape v w) (hplain : ∀ ref, ¬Holds v ref)
    (hsame : Reordered v v') {leads' : Bytes → List (Bytes × Json) → Prop} (h' : Expands leads' v' w')
    (hrefs' : refs w' = [])
    (hchildren : ∀ (i : Nat) c u c' u', v.children[i]? = some c → w.children[i]? = some u →
      Reordered c c' → Expands leads' c' u' → refs u' = [] → Reordered u u') : Reordered w w' := by
  have hplain' : ∀ {v'}, Reordered v v' → ∀ ref, ¬Holds v' ref := fun hsame ref =>
    (hsame.holds_iff ref).not.mp (hplain ref)
  induction hsame generalizing w' with
  | @shape v v' shape' children' _ =>
    cases h' with
    | replaced holds => exact absurd holds (hplain' (.shape shape' children') _)
    | kept shape'' children'' =>
      have hshape : SameShape w w' :=
        ((shape.trans_left shape').trans_left (.refl w)).trans_left shape''
      refine .shape hshape fun i u u' hu hu' => ?_
      obtain ⟨c, hc⟩ := shape.child hu
      obtain ⟨c', hc'⟩ := shape''.child hu'
      exact hchildren i c u c' u' hc hu (children' i c c' hc hc') (children'' i c' u' hc' hu')
        (refs_child hrefs' hu')
  | @members v members members' first hperm ih =>
    cases h' with
    | replaced holds => exact absurd holds (hplain' (.members first hperm) _)
    | kept shape'' children'' =>
      rcases shape''.cases with ⟨_, _, hv, -⟩ | ⟨_, own', hv, rfl, -⟩ | ⟨rfl, -⟩
      · simp at hv
      · obtain rfl := Value.object.inj hv
        -- the resolved members stand in the order of the given ones
        obtain ⟨own, hown, hperm'⟩ := List.perm_comp_forall₂ hperm
          (members_forall₂_iff.mpr ⟨shape'', children''⟩)
        obtain ⟨hshape, hvalues⟩ := members_forall₂_iff.mp hown
        have hback : Reordered (.object own') (.object own) := .members (.refl _) hperm'.symm
        exact .members (ih shape hplain (.kept hshape hvalues) (hback.refs_nil hrefs') hchildren hplain')
          hperm'
      · exact .members (ih shape hplain (.refl _)
          ((Reordered.members (.refl _) hperm.symm).refs_nil hrefs') hchildren hplain') hperm

/-- What two values that are equal up to order are resolved to is equal up to order. -/
theorem reordered_of_expands (hdoc : Reordered doc doc') (h : Expands (LeadsTo doc) v w)
    (hrefs : refs w = []) (hsame : Reordered v v') {w' : Json} (h' : Expands (LeadsTo doc') v' w')
    (hrefs' : refs w' = []) : Reordered w w' := by
  induction h generalizing v' w' with
  | @kept v w shape children ih =>
    refine reordered_of_children shape (not_holds_of_shape shape children hrefs) hsame h' hrefs' ?_
    intro i c u c' u' hc hu hlike hexpands hnil
    exact ih i c u hc hu (refs_child hrefs hu) hlike hexpands hnil
  | replaced holds alone target _ ih =>
    cases h' with
    | kept shape' children' =>
      exact absurd (hsame.holds holds) (not_holds_of_shape shape' children' hrefs' _)
    | replaced holds' _ target' expands' =>
      obtain rfl := alone _ (hsame.symm.holds holds')
      obtain ⟨members', hleads, hlike⟩ := hdoc.leadsTo target
      obtain rfl := hleads.unique target'
      exact ih hrefs hlike expands' hrefs'

/-- A guided run throws if and only if the document cannot be resolved. -/
theorem Guided.ends (h : Guided doc) (hset : Determined doc (LeadsTo doc)) :
    (∃ n w, resolveReferences n [] doc = some (.ok w) ∧ Expands (LeadsTo doc) doc w ∧ refs w = []) ∨
      (∃ n message, resolveReferences n [] doc = some (.error (.validatorInitExc message))) ∧
        ¬Resolvable doc doc := by
  rcases hset.ends with hok | ⟨n, message, c, ref, hrun, harrives, hseeks, hpath⟩
  · exact Or.inl hok
  · exact Or.inr ⟨⟨n, message, hrun⟩, fun hdoc => h.not_fails hset hdoc harrives hseeks _ hpath⟩

end

/-- Both runs throw, or they have results that are equal up to order. -/
def Agree (doc doc' : Json) : Prop :=
  (∃ n n' message message', resolveReferences n [] doc = some (.error (.validatorInitExc message)) ∧
      resolveReferences n' [] doc' = some (.error (.validatorInitExc message'))) ∨
    ∃ n n' w w', resolveReferences n [] doc = some (.ok w) ∧
      resolveReferences n' [] doc' = some (.ok w') ∧ Reordered w w'

/-- Guided runs on a document without cycles of references agree in every order. -/
theorem resolves_in_any_order {doc doc' : Json} (hsame : Reordered doc doc')
    (hacyclic : ∀ ref, ¬TransGen (Refers doc) ref ref) (hguided : Guided doc)
    (hguided' : Guided doc') : Agree doc doc' := by
  have hacyclic' : ∀ ref, ¬TransGen (Refers doc') ref ref := fun ref hcycle =>
    hacyclic ref (TransGen.mono (fun _ _ => hsame.symm.refers) _ _ hcycle)
  rcases hguided.ends (hguided.determined hacyclic) with ⟨n, w, hrun, hexpands, hrefs⟩ | ⟨⟨n, _, hrun⟩, hnot⟩
  · rcases hguided'.ends (hguided'.determined hacyclic') with
      ⟨n', w', hrun', hexpands', hrefs'⟩ | ⟨-, hnot'⟩
    · exact Or.inr ⟨n, n', w, w', hrun, hrun',
        reordered_of_expands hsame hexpands hrefs hsame hexpands' hrefs'⟩
    · exact absurd (hsame.resolvable (hexpands.resolvable hrefs) hsame) hnot'
  · rcases hguided'.ends (hguided'.determined hacyclic') with
      ⟨n', w', -, hexpands', hrefs'⟩ | ⟨⟨n', _, hrun'⟩, -⟩
    · exact absurd (hsame.symm.resolvable (hexpands'.resolvable hrefs') hsame.symm) hnot
    · exact Or.inl ⟨n, n', _, _, hrun, hrun'⟩

/-- The path of `a` passes `b`, which is a reference itself. -/
def passDoc : Json :=
  .object [(lit "a", refTo (lit "#/b/c")), (lit "b", refTo (lit "#/d")),
    (lit "d", .object [(lit "c", .object [])])]

/-- The same members, `b` first. -/
def passDoc' : Json :=
  .object [(lit "b", refTo (lit "#/d")), (lit "a", refTo (lit "#/b/c")),
    (lit "d", .object [(lit "c", .object [])])]

/-- Where a path leads is part of the document. -/
theorem PathLeads.refs_subset {doc v u : Json} {parts : List Bytes} {t : Option Json}
    (h : PathLeads doc v parts t) (hv : refs v ⊆ refs doc) (ht : t = some u) : refs u ⊆ refs doc := by
  induction h generalizing u with
  | here v =>
    obtain rfl := Option.some.inj ht
    exact hv
  | member _ mem _ _ _ ih =>
    obtain ⟨i, hi⟩ := List.mem_iff_getElem?.mp mem
    exact ih (List.Subset.trans (refs_child_subset (child_of_member hi)) hv) ht
  | missing => simp at ht
  | stuck => simp at ht
  | through _ _ _ _ iht ih => exact ih (iht (List.Subset.refl _) rfl) ht

theorem acyclic_of_targets {doc : Json} (h : ∀ ref ∈ refs doc, ∀ members, LeadsTo doc ref members →
    refs (.object members) = []) (ref : Bytes) : ¬TransGen (Refers doc) ref ref := by
  intro hcycle
  obtain ⟨_, -, members, hleads, href⟩ := TransGen.tail'_iff.mp hcycle
  have hmem := PathLeads.refs_subset hleads (List.Subset.refl _) rfl href
  obtain ⟨_, ⟨members', hleads', href'⟩, -⟩ := TransGen.head'_iff.mp hcycle
  simp [h ref hmem members' hleads'] at href'

theorem holds_refTo {s ref : Bytes} : Holds (refTo s) ref ↔ localRef (lit "$ref") (.string s) = some ref := by
  simp [refTo, Holds]

/-- Both orders have the same targets. -/
theorem passDoc_acyclic {doc : Json} (hsame : Reordered passDoc doc) :
    ∀ ref, ¬TransGen (Refers doc) ref ref := by
  have hplain : ∀ ref, ¬Holds passDoc ref := by
    rintro ref ⟨m, hm, href⟩
    simp only [List.mem_cons, List.not_mem_nil, or_false] at hm
    rcases hm with rfl | rfl | rfl <;> simp [localRef, refTo] at href
  have hd : LeadsTo passDoc (lit "d") [(lit "c", .object [])] :=
    .member (m := (lit "d", _)) hplain (by simp) rfl (by decide) (.here _)
  have hbc : LeadsTo passDoc (lit "b/c") [] := by
    have hlocal : localRef (lit "$ref") (.string (lit "#/d")) = some (lit "d") := by decide
    refine .member (m := (lit "b", refTo (lit "#/d"))) hplain (by simp) rfl (by decide) ?_
    refine .through (holds_refTo.mpr hlocal) (fun ref' href' => ?_) hd ?_
    · exact Option.some.inj ((holds_refTo.mp href').symm.trans hlocal)
    · exact .member (m := (lit "c", .object [])) (by simp [Holds, localRef]) (by simp) rfl (by decide)
        (.here _)
  have hrefs : refs passDoc = [lit "b/c", lit "d"] := by decide
  have hacyclic : ∀ ref, ¬TransGen (Refers passDoc) ref ref := by
    refine acyclic_of_targets fun ref href members hleads => ?_
    rw [hrefs] at href
    rcases List.mem_pair.mp href with rfl | rfl
    · obtain rfl := hleads.unique hbc
      rfl
    · obtain rfl := hleads.unique hd
      decide
  exact fun ref hcycle => hacyclic ref (TransGen.mono (fun _ _ => hsame.symm.refers) _ _ hcycle)

/-- Where `a` comes first, `b` has no member `c` yet. -/
theorem order_decides : ¬∀ doc doc' : Json, Reordered doc doc' →
    (∀ ref, ¬TransGen (Refers doc) ref ref) → (∀ ref, ¬TransGen (Refers doc') ref ref) →
      Agree doc doc' := by
  intro h
  have hsame : Reordered passDoc passDoc' := .members (.refl _) (.swap _ _ _)
  have hthrows : ∃ message, resolveReferences 4 [] passDoc =
      some (.error (.validatorInitExc message)) := ⟨_, rfl⟩
  have hresolves : ∃ w, resolveReferences 8 [] passDoc' = some (.ok w) := ⟨_, rfl⟩
  obtain ⟨message, hthrows⟩ := hthrows
  obtain ⟨w, hresolves⟩ := hresolves
  rcases h passDoc passDoc' hsame (passDoc_acyclic (.refl _)) (passDoc_acyclic hsame) with
    ⟨n, n', _, _, -, hrun'⟩ | ⟨n, n', _, _, hrun, -, -⟩
  · exact nomatch resolveReferences_det hresolves hrun'
  · exact nomatch resolveReferences_det hthrows hrun

/-! ### Well referenced documents -/

section

variable {doc : Json} {ref ref' : Bytes}

theorem WellReferenced.refers (hwell : WellReferenced doc) (href : ref ∈ refs doc)
    (h : Refers doc ref ref') : Needs doc ref ref' := by
  obtain ⟨members, hleads, hmem⟩ := h
  obtain ⟨members', names, hjoins, hwalks⟩ := hwell.targets ref href
  have hway := hwalks.way hwell.keyed fun before behind hnames hne =>
    hwell.above ref href before behind (hnames ▸ hjoins) hne
  have hleads' : LeadsTo doc ref members' := by
    rw [LeadsTo, hjoins.split_eq]
    exact hway.pathLeads
  obtain rfl := hleads.unique hleads'
  exact ⟨_, ⟨names, hjoins, hwalks⟩, hmem⟩

theorem WellReferenced.not_refers (hwell : WellReferenced doc) (ref : Bytes) :
    ¬TransGen (Refers doc) ref ref := by
  have hmem : ∀ {ref ref'}, Refers doc ref ref' → ref' ∈ refs doc := by
    rintro ref ref' ⟨members, hleads, href⟩
    exact PathLeads.refs_subset hleads (List.Subset.refl _) rfl href
  have hneeds : ∀ {ref ref'}, ref ∈ refs doc → TransGen (Refers doc) ref ref' →
      TransGen (Needs doc) ref ref' := by
    intro ref ref' href h
    induction h with
    | single h => exact .single (hwell.refers href h)
    | tail h hlast ih =>
      obtain ⟨_, -, hbefore⟩ := TransGen.tail'_iff.mp h
      exact ih.tail (hwell.refers (hmem hbefore) hlast)
  intro hcycle
  obtain ⟨_, -, hlast⟩ := TransGen.tail'_iff.mp hcycle
  exact hwell.acyclic ref (hneeds (hmem hlast) hcycle)

/-- A run on a well referenced document finds an object for every reference. -/
theorem WellReferenced.guided (hwell : WellReferenced doc) : Guided doc := by
  intro c hc
  have harrives := hwell.determined.reached hc
  refine ⟨fun ref hseeks ref' href => hwell.alone harrives hseeks href, fun ref hseeks => Or.inl ?_⟩
  obtain ⟨_, members', -, hway, -⟩ := hwell.way harrives.expands (harrives.mem_refs hseeks)
  exact ⟨members', hway⟩

end

/-! ### Guided runs at hand -/

section

variable {active : List Bytes} {p : Place} {doc : Json} {s ref : Bytes} {members : List (Bytes × Json)}

theorem guided_of_not_seeks {c : Config} (h : ∀ ref, ¬c.Seeks ref) : c.Guided :=
  ⟨fun ref hseeks => absurd hseeks (h ref), fun ref hseeks => absurd hseeks (h ref)⟩

/-- A run at a value without references looks none up. -/
theorem always_plain {c : Config} (h : refs c.here = []) : c.Always Config.Guided := by
  have hnone : ∀ {c : Config} {ref}, refs c.here = [] → ¬c.Seeks ref := by
    intro c ref h hseeks
    have hmem := mem_refs_iff.mpr (Or.inl hseeks.holds)
    simp [h] at hmem
  intro c' hc
  suffices hrefs : refs c'.here = [] from guided_of_not_seeks fun _ => hnone hrefs
  induction hc with
  | refl => exact h
  | tail _ hstep ih =>
    rcases comes_cases hstep with ⟨_, _, hfollows, -⟩ | ⟨-, hsubset⟩
    · exact absurd hfollows.seeks (hnone ih)
    · exact List.subset_nil.mp (ih ▸ hsubset)

theorem not_holds_of_members (h : ∀ m ∈ members, localRef m.1 m.2 = none) (ref : Bytes) :
    ¬Holds (.object members) ref := by
  rintro ⟨m, hm, href⟩
  simp [h m hm] at href

/-- A run at an object that is a reference to one without references, or to no value. -/
theorem always_refTo (hobj : doc.at? p = some (refTo s))
    (href : localRef (lit "$ref") (.string s) = some ref)
    (hway : (∃ members, Way doc (split ref) (some (.object members)) ∧ refs (.object members) = []) ∨
      Way doc (split ref) none ∧ ∀ q v ref', q <+: p → q ≠ p → doc.at? q = some v → ¬Holds v ref') :
    (Config.mk active p .value doc).Always Config.Guided := by
  have hhere : (Config.mk active p (.members 0) doc).here = refTo s := here_eq hobj
  have hheld : ∀ ref', Holds (refTo s) ref' → ref' = ref := fun ref' h =>
    Option.some.inj ((holds_refTo.mp h).symm.trans href)
  have hguided : (Config.mk active p (.members 0) doc).Guided := by
    have hseeks : ∀ ref', (Config.mk active p (.members 0) doc).Seeks ref' → ref' = ref :=
      fun ref' h => hheld ref' (hhere ▸ h.holds)
    refine ⟨fun ref₁ h₁ ref₂ h₂ => ?_, fun ref' h => ?_⟩
    · exact (hheld ref₂ (hhere ▸ h₂)).trans (hseeks ref₁ h₁).symm
    · obtain rfl := hseeks ref' h
      rcases hway with ⟨members, hway, -⟩ | hnowhere
      · exact Or.inl ⟨members, hway⟩
      · exact Or.inr hnowhere
  refine always_value hobj (guided_of_not_seeks not_seeks_value) ?_
  rcases hway with ⟨members, hway, hrefs⟩ | ⟨hway, -⟩
  · obtain ⟨q, hpath, hq⟩ := hway.resolves
    refine always_ref hobj rfl href hpath hguided ?_
    rintro _ ⟨⟩
    refine ⟨_, hq, always_plain ?_⟩
    rw [here_eq (at?_setAt hobj _)]
    exact hrefs
  · obtain ⟨x, hpath⟩ := hway.resolves
    exact always_ref hobj rfl href hpath hguided (by simp)

/-- A run at a member that is no reference, up to the next one. -/
theorem always_next {i n : Nat} {doc' value : Json} {name : Bytes}
    (hobj : doc.at? p = some (.object members)) (hm : members[i]? = some (name, value))
    (href : localRef name value = none) (hskip : isRef name value = false)
    (hrun : resolveReferences n (p ++ [i]) doc = some (.ok doc'))
    (hchild : (Config.mk active (p ++ [i]) .value doc).Always Config.Guided)
    (hnext : (Config.mk active p (.members (i + 1)) doc').Always Config.Guided) :
    (Config.mk active p (.members i) doc).Always Config.Guided := by
  refine always_member hobj hm href hskip hrun (guided_of_not_seeks (not_seeks_member hobj hm href))
    hchild fun doc'' hdoc => ?_
  obtain rfl := Except.ok.inj hdoc
  exact hnext

/-- A run at a list whose first item leads nowhere ends there. -/
theorem always_list {items : List Json} {j n : Nat} {x : InitError}
    (hobj : doc.at? [] = some (.object members)) (hplain : ∀ m ∈ members, localRef m.1 m.2 = none)
    (harr : doc.at? [j] = some (.array (refTo s :: items)))
    (href : localRef (lit "$ref") (.string s) = some ref) (hway : Way doc (split ref) none)
    (hrun : resolveReferences n [j, 0] doc = some (.error x)) :
    (Config.mk active [j] .value doc).Always Config.Guided := by
  refine always_array harr (guided_of_not_seeks not_seeks_value) ?_
  refine always_item hrun (guided_of_not_seeks not_seeks_items) ?_ (by simp)
  refine always_refTo (at?_child harr (List.getElem?_cons_zero ..)) href (Or.inr ⟨hway, ?_⟩)
  intro q v ref' hq hne hv
  have hcases : q = [] ∨ q = [j] := by
    rcases List.prefix_concat_iff.mp hq with rfl | hq
    · exact absurd rfl hne
    · rcases List.prefix_concat_iff.mp (show q <+: [] ++ [j] from hq) with rfl | hq
      · exact Or.inr rfl
      · exact Or.inl (List.prefix_nil.mp hq)
  rcases hcases with rfl | rfl
  · obtain rfl := Option.some.inj (hobj.symm.trans hv)
    exact not_holds_of_members hplain ref'
  · obtain rfl := Option.some.inj (harr.symm.trans hv)
    exact id

end

/-- `passDoc'` with `d` before `a`. -/
def middleDoc (b a : Json) : Json :=
  .object [(lit "b", b), (lit "d", .object [(lit "c", .object [])]), (lit "a", a)]

/-- The one member of an object without references. -/
theorem way_c : Way (.object [(lit "c", .object [])]) [lit "c"] (some (.object [])) :=
  .member (m := (lit "c", .object [])) (not_holds_of_members (by decide)) (by simp) rfl (by decide)
    (.here _)

/-- `b` has given way before the path of `a` passes it. -/
theorem guided_middleDoc : Guided (middleDoc (refTo (lit "#/d")) (refTo (lit "#/b/c"))) := by
  have hd : Way (middleDoc (refTo (lit "#/d")) (refTo (lit "#/b/c"))) (split (lit "d"))
      (some (.object [(lit "c", .object [])])) :=
    .member (m := (lit "d", _)) (not_holds_of_members (by decide)) (by simp) rfl (by decide) (.here _)
  have hb : Way (middleDoc (.object [(lit "c", .object [])]) (refTo (lit "#/b/c"))) (split (lit "b/c"))
      (some (.object [])) :=
    .member (m := (lit "b", .object [(lit "c", .object [])])) (not_holds_of_members (by decide))
      (by simp) rfl (by decide) way_c
  have hfirst : resolveReferences 6 [0] (middleDoc (refTo (lit "#/d")) (refTo (lit "#/b/c"))) =
      some (.ok (middleDoc (.object [(lit "c", .object [])]) (refTo (lit "#/b/c")))) := rfl
  have hsecond : resolveReferences 6 [1]
      (middleDoc (.object [(lit "c", .object [])]) (refTo (lit "#/b/c"))) =
      some (.ok (middleDoc (.object [(lit "c", .object [])]) (refTo (lit "#/b/c")))) := rfl
  have hthird : resolveReferences 6 [2]
      (middleDoc (.object [(lit "c", .object [])]) (refTo (lit "#/b/c"))) =
      some (.ok (middleDoc (.object [(lit "c", .object [])]) (.object []))) := rfl
  refine always_value rfl (guided_of_not_seeks not_seeks_value) ?_
  refine always_next rfl rfl rfl rfl hfirst
    (always_refTo rfl (by decide) (Or.inl ⟨_, hd, by decide⟩)) ?_
  refine always_next rfl rfl rfl rfl hsecond (always_plain (by decide)) ?_
  exact always_next rfl rfl rfl rfl hthird
    (always_refTo rfl (by decide) (Or.inl ⟨_, hb, by decide⟩)) (always_plain (by decide))

theorem guided_passDoc' : Guided passDoc' := by
  have hd : Way passDoc' (split (lit "d")) (some (.object [(lit "c", .object [])])) :=
    .member (m := (lit "d", _)) (not_holds_of_members (by decide)) (by simp) rfl (by decide) (.here _)
  have hfirst : resolveReferences 6 [0] passDoc' = some (.ok (.object
      [(lit "b", .object [(lit "c", .object [])]), (lit "a", refTo (lit "#/b/c")),
        (lit "d", .object [(lit "c", .object [])])])) := rfl
  have hb : Way (.object [(lit "b", .object [(lit "c", .object [])]), (lit "a", refTo (lit "#/b/c")),
      (lit "d", .object [(lit "c", .object [])])]) (split (lit "b/c")) (some (.object [])) :=
    .member (m := (lit "b", .object [(lit "c", .object [])])) (not_holds_of_members (by decide))
      (by simp) rfl (by decide) way_c
  have hsecond : resolveReferences 6 [1] (.object [(lit "b", .object [(lit "c", .object [])]),
      (lit "a", refTo (lit "#/b/c")), (lit "d", .object [(lit "c", .object [])])]) = some (.ok (.object
      [(lit "b", .object [(lit "c", .object [])]), (lit "a", .object []),
        (lit "d", .object [(lit "c", .object [])])])) := rfl
  refine always_value rfl (guided_of_not_seeks not_seeks_value) ?_
  refine always_next rfl rfl rfl rfl hfirst
    (always_refTo rfl (by decide) (Or.inl ⟨_, hd, by decide⟩)) ?_
  exact always_next rfl rfl rfl rfl hsecond
    (always_refTo rfl (by decide) (Or.inl ⟨_, hb, by decide⟩)) (always_plain (by decide))

/-- The first item leads nowhere, and no order comes to the second one. -/
def listDoc : Json :=
  .object [(lit "list", .array [refTo (lit "#/nope"), refTo (lit "#/c/k")]), (lit "c", refTo (lit "#/d")),
    (lit "d", .object [(lit "k", .object [])])]

/-- The same members, `c` first. -/
def listDoc' (c : Json) : Json :=
  .object [(lit "c", c), (lit "list", .array [refTo (lit "#/nope"), refTo (lit "#/c/k")]),
    (lit "d", .object [(lit "k", .object [])])]

theorem listDoc_nope : Way listDoc (split (lit "nope")) none :=
  .missing (not_holds_of_members (by decide)) (by decide)

theorem guided_listDoc : Guided listDoc := by
  have hitem : ∃ x, resolveReferences 6 [0, 0] listDoc = some (.error x) := ⟨_, rfl⟩
  have hlist : ∃ x, resolveReferences 8 [0] listDoc = some (.error x) := ⟨_, rfl⟩
  obtain ⟨x, hitem⟩ := hitem
  obtain ⟨y, hlist⟩ := hlist
  refine always_value rfl (guided_of_not_seeks not_seeks_value) ?_
  exact always_member rfl rfl rfl rfl hlist (guided_of_not_seeks (not_seeks_member rfl rfl rfl))
    (always_list rfl (by decide) rfl (by decide) listDoc_nope hitem) (by simp)

theorem guided_listDoc' : Guided (listDoc' (refTo (lit "#/d"))) := by
  have hd : Way (listDoc' (refTo (lit "#/d"))) (split (lit "d")) (some (.object [(lit "k", .object [])])) :=
    .member (m := (lit "d", _)) (not_holds_of_members (by decide)) (by simp) rfl (by decide) (.here _)
  have hnope : Way (listDoc' (.object [(lit "k", .object [])])) (split (lit "nope")) none :=
    .missing (not_holds_of_members (by decide)) (by decide)
  have hfirst : resolveReferences 6 [0] (listDoc' (refTo (lit "#/d"))) =
      some (.ok (listDoc' (.object [(lit "k", .object [])]))) := rfl
  have hitem : ∃ x, resolveReferences 6 [1, 0] (listDoc' (.object [(lit "k", .object [])])) =
      some (.error x) := ⟨_, rfl⟩
  have hlist : ∃ x, resolveReferences 8 [1] (listDoc' (.object [(lit "k", .object [])])) =
      some (.error x) := ⟨_, rfl⟩
  obtain ⟨x, hitem⟩ := hitem
  obtain ⟨y, hlist⟩ := hlist
  refine always_value rfl (guided_of_not_seeks not_seeks_value) ?_
  refine always_next rfl rfl rfl rfl hfirst
    (always_refTo rfl (by decide) (Or.inl ⟨_, hd, by decide⟩)) ?_
  exact always_member rfl rfl rfl rfl hlist (guided_of_not_seeks (not_seeks_member rfl rfl rfl))
    (always_list rfl (by decide) rfl (by decide) hnope hitem) (by simp)

theorem listDoc_acyclic : ∀ ref, ¬TransGen (Refers listDoc) ref ref := by
  have hplain : ∀ ref, ¬Holds listDoc ref := not_holds_of_members (by decide)
  have hd : LeadsTo listDoc (lit "d") [(lit "k", .object [])] :=
    .member (m := (lit "d", _)) hplain (by simp) rfl (by decide) (.here _)
  have hlocal : localRef (lit "$ref") (.string (lit "#/d")) = some (lit "d") := by decide
  have hck : LeadsTo listDoc (lit "c/k") [] := by
    refine .member (m := (lit "c", refTo (lit "#/d"))) hplain (by simp) rfl (by decide) ?_
    refine .through (holds_refTo.mpr hlocal) (fun ref' href' => ?_) hd ?_
    · exact Option.some.inj ((holds_refTo.mp href').symm.trans hlocal)
    · exact .member (m := (lit "k", .object [])) (not_holds_of_members (by decide)) (by simp) rfl
        (by decide) (.here _)
  have hrefs : refs listDoc = [lit "nope", lit "c/k", lit "d"] := by decide
  refine acyclic_of_targets fun ref href members hleads => ?_
  rw [hrefs] at href
  simp only [List.mem_cons, List.not_mem_nil, or_false] at href
  rcases href with rfl | rfl | rfl
  · exact absurd (PathLeads.unique hleads listDoc_nope.pathLeads) (by simp)
  · obtain rfl := hleads.unique hck
    rfl
  · obtain rfl := hleads.unique hd
    decide

/-- A path through a reference that has given way, and one that leads nowhere. -/
theorem resolves_in_any_order_pass :
    Agree passDoc' (middleDoc (refTo (lit "#/d")) (refTo (lit "#/b/c"))) ∧
      Agree listDoc (listDoc' (refTo (lit "#/d"))) := by
  have hpass : Reordered passDoc passDoc' := .members (.refl _) (.swap _ _ _)
  have hmiddle : Reordered passDoc' (middleDoc (refTo (lit "#/d")) (refTo (lit "#/b/c"))) :=
    .members (.refl _) (.cons _ (.swap _ _ _))
  have hlist : Reordered listDoc (listDoc' (refTo (lit "#/d"))) := .members (.refl _) (.swap _ _ _)
  exact ⟨resolves_in_any_order hmiddle (passDoc_acyclic hpass) guided_passDoc' guided_middleDoc,
    resolves_in_any_order hlist listDoc_acyclic guided_listDoc guided_listDoc'⟩

end OasValidator
