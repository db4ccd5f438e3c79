import Mathlib.Algebra.Order.BigOperators.Group.List
import Mathlib.Algebra.Order.Group.Nat
import Mathlib.Data.List.Nodup
import OasValidator.Imp.Termination

/-! Documents that are resolved in part.  `ResolveReferences` reads the targets from the document that it
rewrites.  Where it is settled what each reference leads to, whatever has been replaced, a run keeps the
document resolved in part, and ends. -/

namespace OasValidator

open Library.Cut Library.Json Library.Json.Value Relation

/-- The value is an object that holds the local reference. -/
def Holds : Json → Bytes → Prop
  | .object members, ref => ∃ m ∈ members, localRef m.1 m.2 = some ref
  | _, _ => False

/-- Two values that differ in their children only. -/
def SameShape : Json → Json → Prop
  | .array items, .array items' => items.length = items'.length
  | .object members, .object members' => members.map Prod.fst = members'.map Prod.fst
  | v, w => v = w

/-! ### Shapes -/

section

variable {v w : Json}

theorem SameShape.refl (v : Json) : SameShape v v := by
  cases v <;> exact rfl

/-- Values of one shape are the same scalar, two arrays or two objects. -/
theorem SameShape.cases (h : SameShape v w) :
    (∃ items items', v = .array items ∧ w = .array items' ∧ items.length = items'.length) ∨
      (∃ members members', v = .object members ∧ w = .object members' ∧
        members.map Prod.fst = members'.map Prod.fst) ∨
      (v = w ∧ v.children = []) := by
  cases v with
  | array items =>
    cases w with
    | array items' => exact Or.inl ⟨items, items', rfl, rfl, h⟩
    | _ => exact nomatch (show Value.array items = _ from h)
  | object members =>
    cases w with
    | object members' => exact Or.inr (Or.inl ⟨members, members', rfl, rfl, h⟩)
    | _ => exact nomatch (show Value.object members = _ from h)
  | _ => exact Or.inr (Or.inr ⟨h, rfl⟩)

theorem SameShape.trans_left {w' : Json} (h : SameShape v w) (h' : SameShape v w') :
    SameShape w w' := by
  rcases h.cases with ⟨_, _, rfl, rfl, h⟩ | ⟨_, _, rfl, rfl, h⟩ | ⟨rfl, -⟩
  · cases w' with
    | array items => exact h.symm.trans h'
    | _ => exact nomatch (show Value.array _ = _ from h')
  · cases w' with
    | object members => exact h.symm.trans h'
    | _ => exact nomatch (show Value.object _ = _ from h')
  · exact h'

theorem SameShape.length_eq (h : SameShape v w) : v.children.length = w.children.length := by
  rcases h.cases with ⟨items, items', rfl, rfl, h⟩ | ⟨members, members', rfl, rfl, h⟩ | ⟨rfl, -⟩
  · exact h
  · simpa [children] using congrArg List.length h
  · rfl

theorem SameShape.sameText (h : SameShape v w) : SameText v w := by
  intro s
  rcases h.cases with ⟨items, items', rfl, rfl, -⟩ | ⟨members, members', rfl, rfl, -⟩ | ⟨rfl, -⟩
  · simp
  · simp
  · rfl

theorem SameShape.withChild (h : SameShape v w) {i : Nat} {c : Json} (hc : w.children[i]? = some c)
    (c' : Json) : SameShape v (w.withChild i c') := by
  rcases h.cases with ⟨items, items', rfl, rfl, h⟩ | ⟨members, members', rfl, rfl, h⟩ | ⟨rfl, hnil⟩
  · show items.length = (items'.set i c').length
    rw [h, List.length_set]
  · show members.map Prod.fst = (members'.modify i fun m => (m.1, c')).map Prod.fst
    rw [h]
    apply List.ext_getElem?
    intro j
    rw [List.getElem?_map, List.getElem?_map, List.getElem?_modify]
    cases members'[j]? with
    | none => rfl
    | some m => by_cases hij : i = j <;> simp [hij]
  · rw [hnil] at hc
    simp at hc

theorem SameShape.child (h : SameShape v w) {i : Nat} {c' : Json} (hc : w.children[i]? = some c') :
    ∃ c, v.children[i]? = some c := by
  obtain ⟨hi, -⟩ := List.getElem?_eq_some_iff.mp hc
  exact ⟨_, List.getElem?_eq_getElem (h.length_eq ▸ hi)⟩

theorem localRef_sameText {u u' : Json} (h : SameText u u') (name : Bytes) :
    localRef name u = localRef name u' := by
  have hown := own_sameText refText h name
  rw [own_refText, own_refText] at hown
  cases hu : localRef name u <;> cases hu' : localRef name u' <;> simp_all

theorem member_of_keys {members members' : List (Bytes × Json)}
    (h : members.map Prod.fst = members'.map Prod.fst) {i : Nat} {m : Bytes × Json}
    (hi : members[i]? = some m) : ∃ m', members'[i]? = some m' ∧ m'.1 = m.1 := by
  have hname := congrArg (fun names => names[i]?) h
  simp only [List.getElem?_map, hi, Option.map_some] at hname
  exact Option.map_eq_some_iff.mp hname.symm

theorem holds_of_members {members members' : List (Bytes × Json)}
    (h : members.map Prod.fst = members'.map Prod.fst)
    (hchildren : ∀ (i : Nat) c c', (Value.object members).children[i]? = some c →
      (Value.object members').children[i]? = some c' → SameText c c')
    {ref : Bytes} (hholds : Holds (.object members) ref) : Holds (.object members') ref := by
  obtain ⟨m, hm, href⟩ := hholds
  obtain ⟨i, hi⟩ := List.mem_iff_getElem?.mp hm
  obtain ⟨m', hi', hfst⟩ := member_of_keys h hi
  have hsame := hchildren i m.2 m'.2 (child_of_member hi) (child_of_member hi')
  refine ⟨m', List.mem_of_getElem? hi', ?_⟩
  rw [hfst, ← localRef_sameText hsame]
  exact href

/-- Objects of one shape whose members are the same strings hold the same references. -/
theorem SameShape.holds_iff (h : SameShape v w)
    (hchildren : ∀ (i : Nat) c c', v.children[i]? = some c → w.children[i]? = some c' → SameText c c')
    (ref : Bytes) : Holds v ref ↔ Holds w ref := by
  rcases h.cases with ⟨items, items', rfl, rfl, -⟩ | ⟨members, members', rfl, rfl, h⟩ | ⟨rfl, -⟩
  · rfl
  · exact ⟨holds_of_members h hchildren, holds_of_members h.symm fun i c' c hc' hc s =>
      (hchildren i c c' hc hc' s).symm⟩
  · rfl

end

/-- The references of a value are those that it holds and those of its children. -/
theorem mem_refs_iff {v : Json} {ref : Bytes} :
    ref ∈ refs v ↔ Holds v ref ∨ ∃ (i : Nat) (c : Json), v.children[i]? = some c ∧ ref ∈ refs c := by
  have hchildren : (∃ (i : Nat) (c : Json), v.children[i]? = some c ∧ ref ∈ refs c) ↔
      ∃ c ∈ v.children, ref ∈ refs c := by
    simp only [List.mem_iff_getElem?]
    exact ⟨fun ⟨i, c, hc, href⟩ => ⟨c, ⟨i, hc⟩, href⟩, fun ⟨c, ⟨i, hc⟩, href⟩ => ⟨i, c, hc, href⟩⟩
  rw [hchildren]
  cases v with
  | array items => simp [refs, collect, collectItems_eq, children, Holds]
  | object members =>
    simp only [refs, collect, collectMembers_eq, List.mem_flatMap, List.mem_append, own_refText,
      Option.mem_toList, children, Holds]
    constructor
    · rintro ⟨m, hm, href | href⟩
      · exact Or.inl ⟨m, hm, href⟩
      · exact Or.inr ⟨m.2, List.mem_map_of_mem hm, href⟩
    · rintro (⟨m, hm, href⟩ | ⟨c, hc, href⟩)
      · exact ⟨m, hm, Or.inl href⟩
      · obtain ⟨m, hm, rfl⟩ := List.mem_map.mp hc
        exact ⟨m, hm, Or.inr href⟩
  | _ => simp [refs, collect, children, Holds]

theorem refs_child_subset {v c : Json} {i : Nat} (hc : v.children[i]? = some c) : refs c ⊆ refs v :=
  fun _ href => mem_refs_iff.mpr (Or.inr ⟨i, c, hc, href⟩)

/-! ### Values resolved in part -/

/-- Some of the objects of `v` that hold one reference have given way in `w` to what it leads to, resolved
in part itself. -/
inductive Expands (leads : Bytes → List (Bytes × Json) → Prop) : Json → Json → Prop
  | kept {v w : Json} (shape : SameShape v w)
      (children : ∀ (i : Nat) c c', v.children[i]? = some c → w.children[i]? = some c' →
        Expands leads c c') : Expands leads v w
  | replaced {v w : Json} {ref : Bytes} {members : List (Bytes × Json)} (holds : Holds v ref)
      (alone : ∀ ref', Holds v ref' → ref' = ref) (target : leads ref members)
      (expands : Expands leads (.object members) w) : Expands leads v w

/-- What the reference leads to has the reference `ref'` in it. -/
def Requires (leads : Bytes → List (Bytes × Json) → Prop) (ref ref' : Bytes) : Prop :=
  ∃ members, leads ref members ∧ ref' ∈ refs (.object members)

namespace Expands

variable {leads : Bytes → List (Bytes × Json) → Prop} {u v w x y : Json} {ref : Bytes}
  {members : List (Bytes × Json)}

theorem refl (v : Json) : Expands leads v v := by
  induction hn : size v using Nat.strongRecOn generalizing v with
  | ind n ih =>
    refine .kept (.refl v) fun i c c' hc hc' => ?_
    obtain rfl : c = c' := Option.some.inj (hc.symm.trans hc')
    have hlt : size c < n := by
      have hpart : size c + 1 ≤ (v.children.map fun child => size child + 1).sum :=
        List.le_sum_of_mem (List.mem_map_of_mem (List.mem_of_getElem? hc))
      rw [← hn, size_eq v]
      omega
    exact ih _ hlt c rfl

theorem sameText (h : Expands leads v w) : SameText v w := by
  induction h with
  | kept shape _ _ => exact shape.sameText
  | @replaced v w ref members holds _ _ _ ih =>
    intro s
    cases v with
    | object ms => exact (iff_of_false (by simp) (by simp)).trans (ih s)
    | _ => exact absurd holds id

theorem object (h : Expands leads (.object members) w) : ∃ members', w = .object members' := by
  generalize hv : Value.object members = v at h
  induction h generalizing members with
  | kept shape _ _ =>
    subst hv
    rcases shape.cases with ⟨_, _, h, -⟩ | ⟨_, members', -, h, -⟩ | ⟨h, -⟩
    · simp at h
    · exact ⟨members', h⟩
    · exact ⟨members, h.symm⟩
  | replaced _ _ _ _ ih => exact ih rfl

theorem object_left (h : Expands leads v (.object members)) : ∃ members', v = .object members' := by
  cases h with
  | kept shape _ =>
    rcases shape.cases with ⟨_, _, -, h, -⟩ | ⟨members', _, h, -⟩ | ⟨h, -⟩
    · simp at h
    · exact ⟨members', h⟩
    · exact ⟨members, h⟩
  | replaced holds _ _ _ =>
    cases v with
    | object members' => exact ⟨members', rfl⟩
    | _ => exact absurd holds id

/-- Where no step was made at the top, the same references are held. -/
theorem holds_iff (shape : SameShape v w) (children : ∀ (i : Nat) c c', v.children[i]? = some c →
    w.children[i]? = some c' → Expands leads c c') (ref : Bytes) : Holds v ref ↔ Holds w ref :=
  shape.holds_iff (fun i c c' hc hc' => (children i c c' hc hc').sameText) ref

/-- What references a value resolved in part has: those that are left, and those that targets require. -/
theorem refs_of_mem (h : Expands leads v w) (href : ref ∈ refs w) :
    ref ∈ refs v ∨ ∃ ref' ∈ refs v, TransGen (Requires leads) ref' ref := by
  induction h with
  | @kept v w shape children ih =>
    rcases mem_refs_iff.mp href with hholds | ⟨i, c', hc', hin⟩
    · exact Or.inl (mem_refs_iff.mpr (Or.inl ((holds_iff shape children ref).mpr hholds)))
    · obtain ⟨c, hc⟩ := shape.child hc'
      have hchild := refs_child_subset hc
      rcases ih i c c' hc hc' hin with hmem | ⟨ref', hmem, hrequires⟩
      · exact Or.inl (hchild hmem)
      · exact Or.inr ⟨ref', hchild hmem, hrequires⟩
  | @replaced v w held members holds _ target _ ih =>
    have hheld : held ∈ refs v := mem_refs_iff.mpr (Or.inl holds)
    rcases ih href with hmem | ⟨ref', hmem, hrequires⟩
    · exact Or.inr ⟨held, hheld, .single ⟨_, target, hmem⟩⟩
    · exact Or.inr ⟨held, hheld, .head ⟨_, target, hmem⟩ hrequires⟩

/-- What a reference requires, it also requires through a target that is resolved in part. -/
theorem requires (h : Expands leads (.object members) w) {ref' : Bytes} (htarget : leads ref members)
    (href : ref' ∈ refs w) : TransGen (Requires leads) ref ref' := by
  rcases h.refs_of_mem href with hmem | ⟨held, hmem, hrequires⟩
  · exact .single ⟨members, htarget, hmem⟩
  · exact .head ⟨members, htarget, hmem⟩ hrequires

/-- A part may be resolved further. -/
theorem set (h : Expands leads v w) {p : Place} (hx : w.at? p = some x)
    (hfurther : ∀ u, Expands leads u x → Expands leads u y) : Expands leads v (w.setAt p y) := by
  induction h generalizing p with
  | @kept v w shape children ih =>
    cases p with
    | nil =>
      rw [at?_nil] at hx
      obtain rfl := Option.some.inj hx
      rw [setAt_nil]
      exact hfurther v (.kept shape children)
    | cons i p =>
      rw [at?_cons] at hx
      obtain ⟨c', hc', hx⟩ := Option.bind_eq_some_iff.mp hx
      rw [setAt_cons hc']
      refine .kept (shape.withChild hc' _) fun j d d' hd hd' => ?_
      rw [children_withChild hc', List.getElem?_set] at hd'
      by_cases hij : i = j
      · subst hij
        rw [if_pos rfl, if_pos (List.getElem?_eq_some_iff.mp hc').1] at hd'
        obtain rfl := Option.some.inj hd'
        exact ih i d c' hd hc' hx
      · rw [if_neg hij] at hd'
        exact children j d d' hd hd'
  | replaced holds alone target _ ih => exact .replaced holds alone target (ih hx)

/-- A value that holds one reference may give way to what it leads to, resolved in part. -/
theorem copied (h : Expands leads u x) (hholds : Holds x ref) (halone : ∀ ref', Holds x ref' → ref' = ref)
    (hleads : leads ref members) (hy : Expands leads (.object members) y) : Expands leads u y := by
  induction h with
  | kept shape children _ =>
    refine .replaced ((holds_iff shape children ref).mpr hholds) (fun ref' href' => ?_) hleads hy
    exact halone ref' ((holds_iff shape children ref').mp href')
  | replaced holds alone target _ ih => exact .replaced holds alone target (ih hholds halone)

end Expands

/-! ### Ways to targets -/

/-- The way that a path takes from a value: at each name there is an object that holds no local reference
and has one member of this name, up to the value at the end; or it ends where there is no member. -/
inductive Way : Json → List Bytes → Option Json → Prop
  | here (v : Json) : Way v [] (some v)
  | member {members : List (Bytes × Json)} {m : Bytes × Json} {part : Bytes} {parts : List Bytes}
      {t : Option Json} (plain : ∀ ref, ¬Holds (.object members) ref) (mem : m ∈ members)
      (name : m.1 = cstr part) (once : (members.map Prod.fst).count (cstr part) = 1)
      (rest : Way m.2 parts t) : Way (.object members) (part :: parts) t
  | missing {members : List (Bytes × Json)} {part : Bytes} {parts : List Bytes}
      (plain : ∀ ref, ¬Holds (.object members) ref) (none : cstr part ∉ members.map Prod.fst) :
      Way (.object members) (part :: parts) .none
  | stuck {v : Json} {part : Bytes} {parts : List Bytes} (scalar : ∀ members, v ≠ .object members) :
      Way v (part :: parts) none

section

variable {leads : Bytes → List (Bytes × Json) → Prop} {v w : Json} {parts : List Bytes} {t : Option Json}

/-- Along a way, `ResolvePath` finds the target, or throws. -/
theorem Way.resolves (h : Way v parts t) :
    match t with
    | some u => ∃ p, resolveParts parts v = .ok p ∧ v.at? p = some u
    | none => ∃ x, resolveParts parts v = .error x := by
  induction h with
  | here v => exact ⟨[], rfl, at?_nil v⟩
  | @member members m part parts t _ mem name once _ ih =>
    obtain ⟨i, hi⟩ := List.mem_iff_getElem?.mp mem
    have hfind : (Value.object members).findMember (cstr part) = some (i, m.2) :=
      findMember_of_count once (name ▸ hi)
    cases t with
    | some u =>
      obtain ⟨p, hparts, hu⟩ := ih
      refine ⟨i :: p, ?_, ?_⟩
      · simp only [resolveParts, hfind, hparts]
        rfl
      · rw [at?_cons, child_of_member hi]
        exact hu
    | none =>
      obtain ⟨x, hx⟩ := ih
      refine ⟨x, ?_⟩
      simp only [resolveParts, hfind, hx]
      rfl
  | missing _ hnone => exact ⟨_, by rw [resolveParts, findMember_of_not_mem hnone]⟩
  | @stuck v part parts scalar =>
    have hfind : v.findMember (cstr part) = none := by
      cases v with
      | object members => exact absurd rfl (scalar members)
      | _ => rfl
    exact ⟨_, by rw [resolveParts, hfind]⟩

/-- No object on a way gives way itself. -/
theorem Way.expands (h : Way v parts t) (hexpands : Expands leads v w) :
    ∃ t', Way w parts t' ∧ Option.Rel (Expands leads) t t' := by
  induction h generalizing w with
  | here v => exact ⟨some w, .here w, .some hexpands⟩
  | @member members m part parts t plain mem name once _ ih =>
    cases hexpands with
    | replaced holds => exact absurd holds (plain _)
    | kept shape children =>
      have hplain := fun ref => (Expands.holds_iff shape children ref).not.mp (plain ref)
      rcases shape.cases with ⟨_, _, hv, -⟩ | ⟨_, members', hv, rfl, hkeys⟩ | ⟨-, hv⟩
      · simp at hv
      · obtain rfl := Value.object.inj hv
        obtain ⟨i, hi⟩ := List.mem_iff_getElem?.mp mem
        obtain ⟨m', hi', hname⟩ := member_of_keys hkeys hi
        obtain ⟨t', hrest, hrel⟩ := ih (children i _ _ (child_of_member hi) (child_of_member hi'))
        exact ⟨t', .member hplain (List.mem_of_getElem? hi') (hname.trans name) (hkeys ▸ once) hrest,
          hrel⟩
      · simp only [Value.children, List.map_eq_nil_iff] at hv
        simp [hv] at mem
  | @missing members part parts plain hnone =>
    cases hexpands with
    | replaced holds => exact absurd holds (plain _)
    | kept shape children =>
      have hplain := fun ref => (Expands.holds_iff shape children ref).not.mp (plain ref)
      rcases shape.cases with ⟨_, _, hv, -⟩ | ⟨_, members', hv, rfl, hkeys⟩ | ⟨rfl, -⟩
      · simp at hv
      · obtain rfl := Value.object.inj hv
        exact ⟨none, .missing hplain (hkeys ▸ hnone), .none⟩
      · exact ⟨none, .missing plain hnone, .none⟩
  | @stuck v part parts scalar =>
    refine ⟨none, .stuck fun members hw => ?_, .none⟩
    subst hw
    obtain ⟨members', rfl⟩ := hexpands.object_left
    exact scalar members' rfl

end

/-! ### Runs -/

/-- The run ends in such an error or in a document with the property. -/
def ErrorOr (E : InitError → Prop) (P : Json → Prop) : Except InitError Json → Prop
  | .ok doc => P doc
  | .error x => E x

section

variable {E : InitError → Prop} {P Q : Json → Prop}

theorem ErrorOr.mono {out : Except InitError Json} (h : ErrorOr E P out) (hPQ : ∀ doc, P doc → Q doc) :
    ErrorOr E Q out := by
  cases out with
  | ok doc => exact hPQ doc h
  | error x => exact h

theorem errorOr_thenRun {r : Option (Except InitError Json)} {out : Except InitError Json}
    {next : Json → Option (Except InitError Json)} (h : thenRun r next = some out)
    (hr : ∀ out, r = some out → ErrorOr E P out)
    (hnext : ∀ doc, r = some (.ok doc) → P doc → next doc = some out → ErrorOr E Q out) :
    ErrorOr E Q out := by
  rcases thenRun_eq_some h with ⟨doc, hdoc, hrest⟩ | ⟨x, hx, rfl⟩
  · exact hnext doc hdoc (hr _ hdoc) hrest
  · exact hr _ hx

end

/-- The run comes there, with the document resolved in part. -/
structure Arrives (doc : Json) (leads : Bytes → List (Bytes × Json) → Prop) (c : Config) : Prop where
  comes : ReflTransGen Comes (wholeDoc doc) c
  expands : Expands leads doc c.doc

/-- What the references lead to is settled: where the run follows one, it is the only one there, and leads
to this, resolved in part.  There are no cycles. -/
structure Determined (doc : Json) (leads : Bytes → List (Bytes × Json) → Prop) : Prop where
  follows : ∀ {c}, Arrives doc leads c → ∀ {ref target}, c.Follows ref target →
    (∀ ref', Holds c.here ref' → ref' = ref) ∧ ∃ members members',
      c.doc.at? target = some (.object members') ∧ leads ref members ∧
        Expands leads (.object members) (.object members')
  acyclic : ∀ ref, ¬TransGen (Requires leads) ref ref

/-- The value at the place gives way to one that is resolved in part of whatever it was. -/
def Advances (leads : Bytes → List (Bytes × Json) → Prop) (cur : Json) (p : Place) (cur' : Json) : Prop :=
  ∃ x y, cur.at? p = some x ∧ cur' = cur.setAt p y ∧ ∀ u, Expands leads u x → Expands leads u y

/-- The exception of a path on the way of the run, or an assertion. -/
def Fails (doc : Json) (leads : Bytes → List (Bytes × Json) → Prop) (x : InitError) : Prop :=
  x = .assertion ∨ ∃ c ref, Arrives doc leads c ∧ c.Seeks ref ∧ resolvePath c.doc ref = .error x

section

variable {doc cur cur' cur'' v : Json} {leads : Bytes → List (Bytes × Json) → Prop} {p : Place}
  {ref : Bytes} {c c' : Config}

theorem holds_of_mem {members : List (Bytes × Json)} {name : Bytes} {value : Json}
    (hm : (name, value) ∈ members) (href : localRef name value = some ref) :
    Holds (.object members) ref := ⟨_, hm, href⟩

theorem Config.Seeks.holds (h : c.Seeks ref) : Holds c.here ref := by
  obtain ⟨i, members, name, value, -, hobj, hm, href⟩ := h
  rw [show c.here = .object members from here_eq hobj]
  exact holds_of_mem (List.mem_of_getElem? hm) href

namespace Advances

theorem refl (hv : cur.at? p = some v) : Advances leads cur p cur :=
  ⟨v, v, hv, (setAt_self hv).symm, fun _ h => h⟩

theorem trans (h : Advances leads cur p cur') (h' : Advances leads cur' p cur'') :
    Advances leads cur p cur'' := by
  obtain ⟨x, y, hx, rfl, hxy⟩ := h
  obtain ⟨y', z, hy, rfl, hyz⟩ := h'
  obtain rfl : y = y' := Option.some.inj ((at?_setAt hx y).symm.trans hy)
  exact ⟨x, z, hx, setAt_setAt hx y z, fun u hu => hyz u (hxy u hu)⟩

theorem child {w : Json} {i : Nat} (h : Advances leads cur (p ++ [i]) cur') (hv : cur.at? p = some v)
    (hw : v.children[i]? = some w) : Advances leads cur p cur' := by
  obtain ⟨x, y, hx, rfl, hxy⟩ := h
  obtain rfl : w = x := Option.some.inj ((at?_child hv hw).symm.trans hx)
  have hwat : v.at? [i] = some w := by simp [at?_cons, hw]
  exact ⟨v, v.setAt [i] y, hv, by rw [setAt_append hv], fun u hu => hu.set hwat hxy⟩

theorem expands (h : Advances leads cur p cur') (hcur : Expands leads doc cur) :
    Expands leads doc cur' := by
  obtain ⟨x, y, hx, rfl, hxy⟩ := h
  exact hcur.set hx hxy

theorem here (h : Advances leads cur p cur') : ∃ y, cur'.at? p = some y := by
  obtain ⟨x, y, hx, rfl, -⟩ := h
  exact ⟨y, at?_setAt hx y⟩

end Advances

namespace Arrives

theorem step (h : Arrives doc leads c) (hstep : Comes c c') (hdoc : Expands leads doc c'.doc) :
    Arrives doc leads c' := ⟨h.comes.tail hstep, hdoc⟩

end Arrives

namespace Determined

variable {active : List Bytes}

/-- One copy. -/
theorem copied (h : Determined doc leads) {stage : Stage}
    (harrives : Arrives doc leads ⟨active, p, stage, cur⟩) {target : Place}
    (hfollows : (Config.mk active p stage cur).Follows ref target)
    (hcopy : copyFrom p target cur = .ok cur') : Advances leads cur p cur' := by
  obtain ⟨halone, members, members', hat, hleads, hexpands⟩ := h.follows harrives hfollows
  obtain ⟨-, rfl⟩ := copy_cases hat hcopy
  have hholds := hfollows.seeks.holds
  obtain ⟨_, held, _, _, -, hobj, -⟩ := hfollows
  rw [here_eq hobj] at halone hholds
  exact ⟨_, _, hobj, rfl, fun u hu => hu.copied hholds halone hleads hexpands⟩

/-- A run resolves the value that it is at further, or ends in an error of a path or an assertion; by
induction on the number of steps. -/
theorem run (h : Determined doc leads) (n : Nat) : ∀ active p stage cur out,
    Arrives doc leads ⟨active, p, stage, cur⟩ → (∃ v, cur.at? p = some v) →
    (Config.mk active p stage cur).run n = some out →
    ErrorOr (Fails doc leads) (Advances leads cur p) out := by
  induction n with
  | zero =>
    intro active p stage cur out _ _ hrun
    cases stage <;> simp [Config.run, resolveReferences, resolveMembers, resolveItems] at hrun
  | succ n ih =>
    rintro active p stage cur out harrives ⟨v, hv⟩ hrun
    -- behind a child, the loop goes on
    have hnext : ∀ {i u next stage'}, v.children[i]? = some u →
        Comes ⟨active, p, stage, cur⟩ ⟨active, p ++ [i], .value, cur⟩ →
        (∀ cur', resolveReferences n (p ++ [i]) cur = some (.ok cur') →
          Comes ⟨active, p, stage, cur⟩ ⟨active, p, stage', cur'⟩) →
        (∀ cur', next cur' = (Config.mk active p stage' cur').run n) →
        thenRun (resolveReferences n (p ++ [i]) cur) next = some out →
        ErrorOr (Fails doc leads) (Advances leads cur p) out := by
      intro i u next stage' hu henter hreturn hloop hrun
      refine errorOr_thenRun hrun (fun out hchild => ih active (p ++ [i]) .value cur out
        (harrives.step henter harrives.expands) ⟨u, at?_child hv hu⟩ hchild) fun cur' hchild hadv hrest => ?_
      have hown := hadv.child hv hu
      rw [hloop] at hrest
      exact (ih active p stage' cur' out (harrives.step (hreturn cur' hchild)
        (hown.expands harrives.expands)) hown.here hrest).mono fun _ => hown.trans
    cases stage with
    | value =>
      simp only [Config.run] at hrun
      unfold resolveReferences at hrun
      split at hrun
      · rename_i hobj
        exact ih active p (.members 0) cur out (harrives.step (.object hobj) harrives.expands)
          ⟨_, hobj⟩ hrun
      · rename_i harr
        exact ih active p (.items 0) cur out (harrives.step (.array harr) harrives.expands)
          ⟨_, harr⟩ hrun
      · obtain rfl := Option.some.inj hrun
        exact .refl hv
    | members i =>
      simp only [Config.run] at hrun
      unfold resolveMembers at hrun
      split at hrun
      · rename_i members hobj
        obtain rfl := Option.some.inj (hv.symm.trans hobj)
        split at hrun
        · obtain rfl := Option.some.inj hrun
          exact .refl hv
        · rename_i name value hm
          split at hrun
          · rename_i ref href
            have hseeks : (Config.mk active p (.members i) cur).Seeks ref :=
              ⟨i, members, name, value, rfl, hobj, hm, href⟩
            cases hpath : resolvePath cur ref with
            | error x =>
              rw [hpath] at hrun
              obtain rfl := Option.some.inj hrun
              exact Or.inr ⟨_, ref, harrives, hseeks, hpath⟩
            | ok target =>
              rw [hpath] at hrun
              cases hcopy : copyFrom p target cur with
              | error x =>
                simp only [Bind.bind, Except.bind, hcopy] at hrun
                obtain rfl := Option.some.inj hrun
                exact Or.inl (error_of_copyFrom hcopy)
              | ok cur' =>
                simp only [Bind.bind, Except.bind, hcopy] at hrun
                have hadv := h.copied harrives ⟨i, members, name, value, rfl, hobj, hm, href, hpath⟩ hcopy
                exact (ih _ p (.members 0) cur' out (harrives.step (.copy hobj hm href hpath hcopy)
                  (hadv.expands harrives.expands)) hadv.here hrun).mono fun _ => hadv.trans
          · rename_i href
            split at hrun
            · rename_i hstring
              exact ih active p (.members (i + 1)) cur out
                (harrives.step (.skip hobj hm href hstring) harrives.expands) ⟨_, hobj⟩ hrun
            · rename_i hstring
              have hstring := Bool.eq_false_of_not_eq_true hstring
              exact hnext (child_of_member hm) (.member hobj hm href hstring)
                (fun cur' => .nextMember hobj hm href hstring) (fun _ => rfl) hrun
      · obtain rfl := Option.some.inj hrun
        exact Or.inl rfl
    | items i =>
      simp only [Config.run] at hrun
      unfold resolveItems at hrun
      split at hrun
      · rename_i items harr
        obtain rfl := Option.some.inj (hv.symm.trans harr)
        split at hrun
        · rename_i hi
          exact hnext (List.getElem?_eq_getElem hi) (.item harr hi) (fun cur' => .nextItem harr hi)
            (fun _ => rfl) hrun
        · obtain rfl := Option.some.inj hrun
          exact .refl hv
      · obtain rfl := Option.some.inj hrun
        exact Or.inl rfl

/-- A step goes on at its place with the value there resolved further, or to a child. -/
theorem moves (h : Determined doc leads) (harrives : Arrives doc leads c) (hstep : Comes c c') :
    (c'.place = c.place ∧ Advances leads c.doc c.place c'.doc) ∨
      ∃ i v w, c.doc.at? c.place = some v ∧ v.children[i]? = some w ∧ c'.place = c.place ++ [i] ∧
        c'.doc = c.doc := by
  -- a call for a child that returns
  have hreturned : ∀ {active p stage cur cur' i v w n}, Arrives doc leads ⟨active, p, stage, cur⟩ →
      Comes ⟨active, p, stage, cur⟩ ⟨active, p ++ [i], .value, cur⟩ → cur.at? p = some v →
      v.children[i]? = some w → resolveReferences n (p ++ [i]) cur = some (.ok cur') →
      Advances leads cur p cur' := by
    intro active p stage cur cur' i v w n harrives henter hv hw hrun
    have hadv : Advances leads cur (p ++ [i]) cur' := h.run n active (p ++ [i]) .value cur (.ok cur')
      (harrives.step henter harrives.expands) ⟨w, at?_child hv hw⟩ hrun
    exact hadv.child hv hw
  cases hstep with
  | object hobj => exact Or.inl ⟨rfl, .refl hobj⟩
  | array harr => exact Or.inl ⟨rfl, .refl harr⟩
  | copy hobj hm href htarget hcopy =>
    exact Or.inl ⟨rfl, h.copied harrives ⟨_, _, _, _, rfl, hobj, hm, href, htarget⟩ hcopy⟩
  | skip hobj => exact Or.inl ⟨rfl, .refl hobj⟩
  | member hobj hm => exact Or.inr ⟨_, _, _, hobj, child_of_member hm, rfl, rfl⟩
  | nextMember hobj hm href hstring hrun =>
    exact Or.inl ⟨rfl, hreturned harrives (.member hobj hm href hstring) hobj (child_of_member hm) hrun⟩
  | item harr hi => exact Or.inr ⟨_, _, _, harr, List.getElem?_eq_getElem hi, rfl, rfl⟩
  | nextItem harr hi hrun =>
    exact Or.inl ⟨rfl, hreturned harrives (.item harr hi) harr (List.getElem?_eq_getElem hi) hrun⟩

/-- Throughout the run the document is resolved in part. -/
theorem reached (h : Determined doc leads) (hc : ReflTransGen Comes (wholeDoc doc) c) :
    Arrives doc leads c := by
  induction hc with
  | refl => exact ⟨.refl, .refl doc⟩
  | tail _ hstep ih =>
    refine ih.step hstep ?_
    rcases h.moves ih hstep with ⟨-, hadv⟩ | ⟨_, _, _, -, -, -, hdoc⟩
    · exact hadv.expands ih.expands
    · exact hdoc ▸ ih.expands

end Determined

end

/-! ### Runs on determined documents are sound -/

/-- A step follows a reference, or comes to no more references than before. -/
theorem comes_cases {c c' : Config} (h : Comes c c') :
    (∃ ref target, c.Follows ref target ∧ c'.active = expand c.active c.place target ref ∧
      c'.place = c.place ∧ copyFrom c.place target c.doc = .ok c'.doc) ∨
    c'.active = c.active ∧ refs c'.here ⊆ refs c.here := by
  have henter : ∀ {active : List Bytes} {p : Place} {cur v w : Json} {stage : Stage} {i : Nat},
      cur.at? p = some v → v.children[i]? = some w →
      refs (Config.mk active (p ++ [i]) .value cur).here ⊆ refs (Config.mk active p stage cur).here := by
    intro active p cur v w stage i hv hw
    rw [here_eq (at?_child hv hw), here_eq hv]
    exact refs_child_subset hw
  have hreturn : ∀ {active : List Bytes} {p : Place} {cur cur' v w : Json} {stage stage' : Stage}
      {i n : Nat}, cur.at? p = some v → v.children[i]? = some w →
      resolveReferences n (p ++ [i]) cur = some (.ok cur') →
      refs (Config.mk active p stage' cur').here ⊆ refs (Config.mk active p stage cur).here := by
    intro active p cur cur' v w stage stage' i n hv hw hrun
    obtain ⟨y, rfl, hsame, hnil⟩ := (leaves_of_ok n).1 _ _ _ _ (at?_child hv hw) hrun
    have hchild : v.at? [i] = some w := by simp [at?_cons, hw]
    have hleft : (cur.setAt (p ++ [i]) y).at? p = some (v.setAt [i] y) := by
      rw [setAt_append hv]
      exact at?_setAt hv _
    rw [here_eq hleft, here_eq hv]
    intro ref href
    have hmem := collect_setAt_subset refText hchild hsame href
    rwa [show collect refText y = [] from hnil, List.append_nil] at hmem
  cases h with
  | copy hobj hm href htarget hcopy =>
    exact Or.inl ⟨_, _, ⟨_, _, _, _, rfl, hobj, hm, href, htarget⟩, rfl, rfl, hcopy⟩
  | member hobj hm => exact Or.inr ⟨rfl, henter hobj (child_of_member hm)⟩
  | nextMember hobj hm _ _ hrun => exact Or.inr ⟨rfl, hreturn hobj (child_of_member hm) hrun⟩
  | item harr hi => exact Or.inr ⟨rfl, henter harr (List.getElem?_eq_getElem hi)⟩
  | nextItem harr hi hrun => exact Or.inr ⟨rfl, hreturn harr (List.getElem?_eq_getElem hi) hrun⟩
  | _ => exact Or.inr ⟨rfl, List.Subset.refl _⟩

/-- The active references require those of the value that the run is at. -/
structure Config.Expanding (leads : Bytes → List (Bytes × Json) → Prop) (c : Config) : Prop where
  valid : c.Valid
  required : ∀ ref ∈ c.active, ∀ ref' ∈ refs c.here, TransGen (Requires leads) ref ref'

namespace Config.Expanding

variable {doc cur : Json} {leads : Bytes → List (Bytes × Json) → Prop} {c c' : Config}

theorem lands_fresh (hset : Determined doc leads) (harrives : Arrives doc leads c)
    (h : c.Expanding leads) : c.Lands ∧ c.Fresh := by
  have hfollows : ∀ ref target, c.Follows ref target →
      (target ≠ c.place ∧ ∃ members, c.doc.at? target = some (.object members)) ∧ ref ∉ c.active := by
    intro ref target hfollows
    have hmem : ref ∈ refs c.here := mem_refs_iff.mpr (Or.inl hfollows.seeks.holds)
    obtain ⟨-, members, members', hat, hleads, hexpands⟩ := hset.follows harrives hfollows
    refine ⟨⟨?_, members', hat⟩, fun hactive => hset.acyclic ref (h.required ref hactive ref hmem)⟩
    rintro rfl
    rw [show c.here = .object members' from here_eq hat] at hmem
    exact hset.acyclic ref (hexpands.requires hleads hmem)
  exact ⟨fun ref target hf => (hfollows ref target hf).1,
    fun ref target hf => Or.inr (hfollows ref target hf).2⟩

theorem comes (hset : Determined doc leads) (harrives : Arrives doc leads c) (h : c.Expanding leads)
    (hcomes : Comes c c') : c'.Expanding leads := by
  obtain ⟨hlands, hfresh⟩ := h.lands_fresh hset harrives
  refine ⟨(comes_lt hcomes hlands hfresh).1, fun ref href ref' href' => ?_⟩
  rcases comes_cases hcomes with ⟨held, target, hfollows, hactive, hplace, hcopy⟩ | ⟨hactive, hrefs⟩
  · have hmem := mem_refs_iff.mpr (Or.inl hfollows.seeks.holds)
    obtain ⟨-, members, members', hat, hleads, hexpands⟩ := hset.follows harrives hfollows
    obtain ⟨-, hdoc⟩ := copy_cases hat hcopy
    obtain ⟨_, _, _, _, -, hobj, -⟩ := hfollows
    have hhere : c'.here = .object members' := by
      have hset := at?_setAt hobj (.object members')
      rw [← hdoc, ← hplace] at hset
      exact here_eq hset
    have hrequires := hexpands.requires hleads (hhere ▸ href')
    -- what is active requires the reference that is followed
    have hin : ref ∈ c.active → TransGen (Requires leads) ref ref' := fun hin =>
      (h.required ref hin held hmem).trans hrequires
    rw [hactive, expand] at href
    split at href
    · exact hin href
    · rcases List.mem_cons.mp href with rfl | href
      · exact hrequires
      · exact hin href
  · exact h.required ref (hactive ▸ href) ref' (hrefs href')

end Config.Expanding

namespace Determined

variable {doc : Json} {leads : Bytes → List (Bytes × Json) → Prop}

theorem sound (h : Determined doc leads) : (wholeDoc doc).Sound := by
  have hexpanding : ∀ c, ReflTransGen Comes (wholeDoc doc) c → c.Expanding leads := by
    intro c hc
    induction hc with
    | refl => exact ⟨⟨doc, at?_nil doc⟩, fun ref href => by simp [wholeDoc] at href⟩
    | tail hc hstep ih => exact ih.comes h (h.reached hc) hstep
  exact fun c hc => (hexpanding c hc).lands_fresh h (h.reached hc)

/-- A run ends with the document resolved, or throws the exception of a path that it comes to. -/
theorem ends (h : Determined doc leads) :
    (∃ n w, resolveReferences n [] doc = some (.ok w) ∧ Expands leads doc w ∧ refs w = []) ∨
      ∃ n message c ref, resolveReferences n [] doc = some (.error (.validatorInitExc message)) ∧
        Arrives doc leads c ∧ c.Seeks ref ∧
        resolvePath c.doc ref = .error (.validatorInitExc message) := by
  obtain ⟨n, out, hrun, hproper⟩ := resolves_of_sound doc h.sound
  have hout := h.run n [] [] .value doc out ⟨.refl, .refl doc⟩ ⟨doc, at?_nil doc⟩ hrun
  rcases hproper with ⟨w, rfl⟩ | ⟨message, rfl⟩
  · exact Or.inl ⟨n, w, hrun, Advances.expands hout (.refl doc), refs_of_resolved hrun⟩
  · rcases hout with hassert | ⟨c, ref, harrives, hseeks, hpath⟩
    · simp at hassert
    · exact Or.inr ⟨n, message, c, ref, hrun, harrives, hseeks, hpath⟩

end Determined

end OasValidator
