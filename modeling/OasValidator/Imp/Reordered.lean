import Mathlib.Data.List.Perm.Basic
import OasValidator.Imp.Expanded

/-! Documents with the members of their objects in another order, and where their references lead.  A path
that passes an object that holds a reference goes on in what this one leads to, which does not depend on
the order. -/

namespace OasValidator

open Library.Cut Library.Json Library.Json.Value Relation

/-- The same value up to the order of members: its children are, and then the members of an object may
be permuted. -/
inductive Reordered : Json → Json → Prop
  | shape {v w : Json} (shape : SameShape v w)
      (children : ∀ (i : Nat) c c', v.children[i]? = some c → w.children[i]? = some c' →
        Reordered c c') : Reordered v w
  | members {v : Json} {members members' : List (Bytes × Json)}
      (first : Reordered v (.object members)) (perm : members.Perm members') :
      Reordered v (.object members')

/-- Two objects of one shape, member by member. -/
theorem members_forall₂_iff {R : Json → Json → Prop} {members members' : List (Bytes × Json)} :
    List.Forall₂ (fun m m' => m.1 = m'.1 ∧ R m.2 m'.2) members members' ↔
      SameShape (.object members) (.object members') ∧
        ∀ (i : Nat) c c', (Value.object members).children[i]? = some c →
          (Value.object members').children[i]? = some c' → R c c' := by
  simp only [SameShape, children]
  induction members generalizing members' with
  | nil =>
    cases members' with
    | nil => simp
    | cons => simp
  | cons m members ih =>
    cases members' with
    | nil => simp
    | cons m' members' =>
      rw [List.forall₂_cons, ih]
      constructor
      · rintro ⟨⟨hname, hvalue⟩, hnames, hvalues⟩
        refine ⟨by simp [hname, hnames], fun i c c' hc hc' => ?_⟩
        cases i with
        | zero =>
          obtain rfl : m.2 = c := by simpa using hc
          obtain rfl : m'.2 = c' := by simpa using hc'
          exact hvalue
        | succ i => exact hvalues i c c' (by simpa using hc) (by simpa using hc')
      · rintro ⟨hnames, hvalues⟩
        obtain ⟨hname, hnames⟩ := List.cons_eq_cons.mp hnames
        exact ⟨⟨hname, hvalues 0 _ _ rfl rfl⟩, hnames, fun i c c' hc hc' =>
          hvalues (i + 1) c c' (by simpa using hc) (by simpa using hc')⟩

namespace Reordered

variable {v w : Json}

theorem refl (v : Json) : Reordered v v := by
  have hnone : ∀ {v w : Json}, Expands (fun _ _ => False) v w → Reordered v w := by
    intro v w h
    induction h with
    | kept shape _ ih => exact .shape shape ih
    | replaced _ _ target _ _ => exact target.elim
  exact hnone (.refl v)

theorem sameText (h : Reordered v w) : SameText v w := by
  induction h with
  | shape shape _ _ => exact shape.sameText
  | members _ _ ih => exact ih.trans (sameText_object _ _)

theorem object {members : List (Bytes × Json)} (h : Reordered (.object members) w) :
    ∃ members', w = .object members' := by
  generalize hv : Value.object members = v at h
  induction h with
  | shape shape _ _ =>
    subst hv
    rcases shape.cases with ⟨_, _, h, -⟩ | ⟨_, members', -, h, -⟩ | ⟨h, -⟩
    · simp at h
    · exact ⟨members', h⟩
    · exact ⟨members, h.symm⟩
  | members _ _ _ => exact ⟨_, rfl⟩

/-- The members in front may be permuted too. -/
theorem permute {members members' : List (Bytes × Json)} (h : Reordered (.object members) w)
    (hperm : members'.Perm members) : Reordered (.object members') w := by
  generalize hv : Value.object members = v at h
  induction h with
  | @shape v w shape children _ =>
    subst hv
    rcases shape.cases with ⟨_, _, h, -⟩ | ⟨_, own, -, rfl, -⟩ | ⟨rfl, -⟩
    · simp at h
    · obtain ⟨own', hown, hperm'⟩ := List.perm_comp_forall₂ hperm
        (members_forall₂_iff.mpr ⟨shape, children⟩)
      obtain ⟨hshape, hchildren⟩ := members_forall₂_iff.mp hown
      exact .members (.shape hshape hchildren) hperm'
    · exact .members (.refl _) hperm
  | members _ hperm' ih => exact .members (ih hv) hperm'

theorem symm (h : Reordered v w) : Reordered w v := by
  induction h with
  | @shape v w shape _ ih =>
    exact .shape (shape.trans_left (.refl v)) fun i c c' hc hc' => ih i c' c hc' hc
  | members _ hperm ih => exact ih.permute hperm.symm

theorem holds (h : Reordered v w) {ref : Bytes} (href : Holds v ref) : Holds w ref := by
  induction h with
  | shape shape children _ =>
    exact (shape.holds_iff (fun i c c' hc hc' => (children i c c' hc hc').sameText) ref).mp href
  | members _ hperm ih =>
    obtain ⟨m, hm, hown⟩ := ih href
    exact ⟨m, hperm.mem_iff.mp hm, hown⟩

theorem holds_iff (h : Reordered v w) (ref : Bytes) : Holds v ref ↔ Holds w ref :=
  ⟨h.holds, h.symm.holds⟩

theorem mem_refs (h : Reordered v w) {ref : Bytes} (href : ref ∈ refs v) : ref ∈ refs w := by
  induction h with
  | @shape v w shape children ih =>
    have hsame := shape.holds_iff (fun i c c' hc hc' => (children i c c' hc hc').sameText) ref
    rcases mem_refs_iff.mp href with hholds | ⟨i, c, hc, hmem⟩
    · exact mem_refs_iff.mpr (Or.inl (hsame.mp hholds))
    · have hi : i < w.children.length := shape.length_eq ▸ (List.getElem?_eq_some_iff.mp hc).1
      have hc' := List.getElem?_eq_getElem hi
      exact mem_refs_iff.mpr (Or.inr ⟨i, _, hc', ih i c _ hc hc' hmem⟩)
  | members _ hperm ih =>
    have hmem := ih href
    simp only [refs, collect, collectMembers_eq, List.mem_flatMap] at hmem ⊢
    obtain ⟨m, hm, hown⟩ := hmem
    exact ⟨m, hperm.mem_iff.mp hm, hown⟩

theorem mem_refs_iff (h : Reordered v w) (ref : Bytes) : ref ∈ refs v ↔ ref ∈ refs w :=
  ⟨h.mem_refs, h.symm.mem_refs⟩

/-- The members have the same names, and each has its like. -/
theorem member {members members' : List (Bytes × Json)}
    (h : Reordered (.object members) (.object members')) :
    (members.map Prod.fst).Perm (members'.map Prod.fst) ∧
      ∀ m ∈ members, ∃ m' ∈ members', m'.1 = m.1 ∧ Reordered m.2 m'.2 := by
  generalize hw : Value.object members' = w at h
  generalize hv : Value.object members = v at h
  induction h generalizing members' with
  | @shape v w shape children _ =>
    subst hv hw
    have hkeys : members.map Prod.fst = members'.map Prod.fst := shape
    refine ⟨hkeys ▸ .refl _, fun m hm => ?_⟩
    obtain ⟨i, hi⟩ := List.mem_iff_getElem?.mp hm
    obtain ⟨m', hi', hname⟩ := member_of_keys hkeys hi
    exact ⟨m', List.mem_of_getElem? hi', hname,
      children i m.2 m'.2 (child_of_member hi) (child_of_member hi')⟩
  | members _ hperm ih =>
    obtain rfl := Value.object.inj hw
    obtain ⟨hnames, hmembers⟩ := ih rfl hv
    refine ⟨hnames.trans (hperm.map Prod.fst), fun m hm => ?_⟩
    obtain ⟨m', hm', hlike⟩ := hmembers m hm
    exact ⟨m', hperm.mem_iff.mp hm', hlike⟩

/-- Each child of the one has its like in the other. -/
theorem child (h : Reordered v w) {c' : Json} (hc' : c' ∈ w.children) :
    ∃ c ∈ v.children, Reordered c c' := by
  induction h generalizing c' with
  | @shape v w shape children _ =>
    obtain ⟨i, hi⟩ := List.mem_iff_getElem?.mp hc'
    obtain ⟨c, hc⟩ := shape.child hi
    exact ⟨c, List.mem_of_getElem? hc, children i c c' hc hi⟩
  | members _ hperm ih =>
    obtain ⟨m, hm, rfl⟩ := List.mem_map.mp hc'
    exact ih (List.mem_map_of_mem (hperm.mem_iff.mpr hm))

end Reordered

/-! ### Paths through references -/

/-- Where a path leads from a value of the document: at each name there is an object that has one member
of this name at most, or that holds one reference, and then it goes on from what this one leads to. -/
inductive PathLeads (doc : Json) : Json → List Bytes → Option Json → Prop
  | here (v : Json) : PathLeads doc v [] (some v)
  | member {members : List (Bytes × Json)} {m : Bytes × Json} {part : Bytes} {parts : List Bytes}
      {t : Option Json} (plain : ∀ ref, ¬Holds (.object members) ref) (mem : m ∈ members)
      (name : m.1 = cstr part) (once : (members.map Prod.fst).count (cstr part) = 1)
      (rest : PathLeads doc m.2 parts t) : PathLeads doc (.object members) (part :: parts) t
  | missing {members : List (Bytes × Json)} {part : Bytes} {parts : List Bytes}
      (plain : ∀ ref, ¬Holds (.object members) ref) (none : cstr part ∉ members.map Prod.fst) :
      PathLeads doc (.object members) (part :: parts) .none
  | stuck {v : Json} {part : Bytes} {parts : List Bytes} (scalar : ∀ members, v ≠ .object members) :
      PathLeads doc v (part :: parts) none
  | through {v : Json} {ref part : Bytes} {members : List (Bytes × Json)} {parts : List Bytes}
      {t : Option Json} (holds : Holds v ref) (alone : ∀ ref', Holds v ref' → ref' = ref)
      (target : PathLeads doc doc (split ref) (some (.object members)))
      (rest : PathLeads doc (.object members) (part :: parts) t) : PathLeads doc v (part :: parts) t

/-- The reference leads to an object of these members. -/
def LeadsTo (doc : Json) (ref : Bytes) (members : List (Bytes × Json)) : Prop :=
  PathLeads doc doc (split ref) (some (.object members))

/-- What the reference leads to has the reference `ref'` in it. -/
def Refers (doc : Json) : Bytes → Bytes → Prop := Requires (LeadsTo doc)

section

variable {doc doc' v v' w : Json} {parts : List Bytes} {t t' : Option Json} {ref : Bytes}
  {members members' : List (Bytes × Json)}

theorem not_scalar (h : Holds v ref) : ¬∀ members, v ≠ .object members := by
  intro hscalar
  cases v with
  | object members => exact hscalar members rfl
  | _ => exact h

theorem Way.pathLeads (h : Way v parts t) : PathLeads doc v parts t := by
  induction h with
  | here v => exact .here v
  | member plain mem name once _ ih => exact .member plain mem name once ih
  | missing plain none => exact .missing plain none
  | stuck scalar => exact .stuck scalar

/-- A path leads to one value at most. -/
theorem PathLeads.unique (h : PathLeads doc v parts t) (h' : PathLeads doc v parts t') : t = t' := by
  induction h generalizing t' with
  | here v =>
    cases h'
    rfl
  | @member members m part parts t plain mem name once rest ih =>
    cases h' with
    | @member _ m' _ _ _ _ mem' name' _ rest' =>
      obtain ⟨i, hi⟩ := List.mem_iff_getElem?.mp mem
      obtain ⟨i', hi'⟩ := List.mem_iff_getElem?.mp mem'
      have hfind := findMember_of_count once (name ▸ hi : members[i]? = some (cstr part, m.2))
      have hfind' := findMember_of_count once (name' ▸ hi' : members[i']? = some (cstr part, m'.2))
      obtain ⟨-, hvalue⟩ := Prod.mk.inj (Option.some.inj (hfind.symm.trans hfind'))
      exact ih (hvalue ▸ rest')
    | missing _ hnone => exact absurd (name ▸ List.mem_map_of_mem mem) hnone
    | stuck scalar => exact absurd rfl (scalar members)
    | through holds => exact absurd holds (plain _)
  | @missing members part parts plain hnone =>
    cases h' with
    | member _ mem name => exact absurd (name ▸ List.mem_map_of_mem mem) hnone
    | missing => rfl
    | stuck scalar => exact absurd rfl (scalar members)
    | through holds => exact absurd holds (plain _)
  | stuck scalar =>
    cases h' with
    | member => exact absurd rfl (scalar _)
    | missing => exact absurd rfl (scalar _)
    | stuck => rfl
    | through holds => exact absurd scalar (not_scalar holds)
  | through holds alone _ _ iht ih =>
    cases h' with
    | member plain => exact absurd holds (plain _)
    | missing plain => exact absurd holds (plain _)
    | stuck scalar => exact absurd scalar (not_scalar holds)
    | through holds' _ target' rest' =>
      obtain rfl := alone _ holds'
      obtain rfl := Value.object.inj (Option.some.inj (iht target'))
      exact ih rest'

theorem LeadsTo.unique (h : LeadsTo doc ref members) (h' : LeadsTo doc ref members') :
    members = members' :=
  Value.object.inj (Option.some.inj (PathLeads.unique h h'))

/-- A path leads to the like in another order. -/
theorem Reordered.pathLeads (hdoc : Reordered doc doc') (h : PathLeads doc v parts t) (hsame : Reordered v v') :
    ∃ t', PathLeads doc' v' parts t' ∧ Option.Rel Reordered t t' := by
  induction h generalizing v' with
  | here v => exact ⟨some v', .here v', .some hsame⟩
  | @member members m part parts t plain mem name once _ ih =>
    obtain ⟨members', rfl⟩ := hsame.object
    obtain ⟨hnames, hmembers⟩ := hsame.member
    obtain ⟨m', hm', hname, hvalue⟩ := hmembers m mem
    obtain ⟨t', hrest, hrel⟩ := ih hvalue
    exact ⟨t', .member (fun ref => (hsame.holds_iff ref).not.mp (plain ref)) hm' (hname.trans name)
      (hnames.count_eq _ ▸ once) hrest, hrel⟩
  | @missing members part parts plain hnone =>
    obtain ⟨members', rfl⟩ := hsame.object
    exact ⟨none, .missing (fun ref => (hsame.holds_iff ref).not.mp (plain ref))
      (hsame.member.1.mem_iff.not.mp hnone), .none⟩
  | stuck scalar =>
    refine ⟨none, .stuck fun members hv => ?_, .none⟩
    subst hv
    obtain ⟨members', rfl⟩ := hsame.symm.object
    exact scalar members' rfl
  | through holds alone _ _ iht ih =>
    obtain ⟨_, htarget, hrel⟩ := iht hdoc
    cases hrel with
    | some hlike =>
      obtain ⟨members', rfl⟩ := hlike.object
      obtain ⟨t', hrest, hrel⟩ := ih hlike
      exact ⟨t', .through (hsame.holds holds)
        (fun ref' href' => alone ref' ((hsame.holds_iff ref').mpr href')) htarget hrest, hrel⟩

/-- In another order a reference leads to the like. -/
theorem Reordered.leadsTo (h : Reordered doc doc') (hleads : LeadsTo doc ref members) :
    ∃ members', LeadsTo doc' ref members' ∧ Reordered (.object members) (.object members') := by
  obtain ⟨_, hpath, hrel⟩ := h.pathLeads hleads h
  cases hrel with
  | some hlike =>
    obtain ⟨members', rfl⟩ := hlike.object
    exact ⟨members', hpath, hlike⟩

theorem Reordered.refers (h : Reordered doc doc') {ref' : Bytes} (hrefers : Refers doc ref ref') :
    Refers doc' ref ref' := by
  obtain ⟨members, hleads, href⟩ := hrefers
  obtain ⟨members', hleads', hlike⟩ := h.leadsTo hleads
  exact ⟨members', hleads', hlike.mem_refs href⟩

/-- A way in a value resolved in part is the path in the given one: what gave way is passed. -/
theorem Expands.pathLeads (h : Expands (LeadsTo doc) v w) (hway : Way w parts t') :
    ∃ t, PathLeads doc v parts t ∧ Option.Rel (Expands (LeadsTo doc)) t t' := by
  induction h generalizing parts t' with
  | @kept v w shape children ih =>
    have hkept : Expands (LeadsTo doc) v w := .kept shape children
    have hplain : (∀ ref, ¬Holds w ref) → ∀ ref, ¬Holds v ref := fun h ref =>
      (holds_iff shape children ref).not.mpr (h ref)
    cases hway with
    | here => exact ⟨some v, .here v, .some hkept⟩
    | @member members' m' part parts t' plain mem name once rest =>
      obtain ⟨members, rfl⟩ := hkept.object_left
      have hkeys : members'.map Prod.fst = members.map Prod.fst := shape.symm
      obtain ⟨i, hi'⟩ := List.mem_iff_getElem?.mp mem
      obtain ⟨m, hi, hname⟩ := member_of_keys hkeys hi'
      obtain ⟨t, hrest, hrel⟩ := ih i m.2 m'.2 (child_of_member hi) (child_of_member hi') rest
      exact ⟨t, .member (hplain plain) (List.mem_of_getElem? hi) (hname.trans name) (hkeys ▸ once) hrest,
        hrel⟩
    | missing plain hnone =>
      obtain ⟨members, rfl⟩ := hkept.object_left
      exact ⟨none, .missing (hplain plain) ((show members.map Prod.fst = _ from shape) ▸ hnone), .none⟩
    | stuck scalar =>
      refine ⟨none, .stuck fun members hv => ?_, .none⟩
      subst hv
      obtain ⟨members', rfl⟩ := hkept.object
      exact scalar members' rfl
  | @replaced v w ref members holds alone target expands ih =>
    cases parts with
    | nil =>
      cases hway with
      | here => exact ⟨some v, .here v, .some (.replaced holds alone target expands)⟩
    | cons part parts =>
      obtain ⟨t, hpath, hrel⟩ := ih hway
      exact ⟨t, .through holds alone target hpath, hrel⟩

end

end OasValidator
