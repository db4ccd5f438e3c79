import OasValidator.Imp.Inlining
import OasValidator.Library.JsonText

/-! The values whose members `ResolveReferences` iterates.  The kind of a value is tested in front of the
loop only, and a copy may put a value of any kind in its place: the loop is on objects throughout if and
only if every reference that the run follows leads to one. -/

namespace OasValidator

open Library.Json Library.Json.Value Relation

/-- Where the run is in the loop over members, it is at an object. -/
def Config.Iterates (c : Config) : Prop :=
  ∀ i, c.stage = .members i → ∃ members, c.doc.at? c.place = some (.object members)

/-- The reference that the run is about to follow leads to an object, or to the value that holds it,
which is not copied to itself. -/
def Config.LandsOnObject (c : Config) : Prop :=
  ∀ ref target, c.Follows ref target → target ≠ c.place →
    ∃ members, c.doc.at? target = some (.object members)

/-- A step that follows no reference to another kind of value comes to a loop on an object. -/
theorem iterates_of_comes {c c' : Config} (h : Comes c c') (hlands : c.LandsOnObject) :
    c'.Iterates := by
  intro i hstage
  cases h with
  | object hobj => exact ⟨_, hobj⟩
  | copy hobj hm href htarget hcopy =>
    obtain ⟨u, hu⟩ := at_resolveParts htarget
    obtain ⟨hne, rfl⟩ := copy_cases hu hcopy
    obtain ⟨members, hmembers⟩ := hlands _ _ ⟨_, _, _, _, rfl, hobj, hm, href, htarget⟩ (Ne.symm hne)
    rw [hu] at hmembers
    exact ⟨members, (at?_setAt hobj u).trans hmembers⟩
  | skip hobj => exact ⟨_, hobj⟩
  | nextMember hobj hm href hstring hrun =>
    -- the member may have changed, and the object has the same members
    obtain ⟨w, rfl, -⟩ := (leaves_of_ok _).1 _ _ _ _ (at?_child hobj (child_of_member hm)) hrun
    rw [setAt_append hobj, setAt_cons (child_of_member hm), setAt_nil]
    exact ⟨_, at?_setAt hobj _⟩
  | array => exact nomatch hstage
  | member => exact nomatch hstage
  | item => exact nomatch hstage
  | nextItem => exact nomatch hstage

/-- A reference to another kind of value is copied, and the loop begins on the copy. -/
theorem comes_of_not_lands {c : Config} (h : ¬c.LandsOnObject) : ∃ c', Comes c c' ∧ ¬c'.Iterates := by
  obtain ⟨active, p, stage, doc⟩ := c
  simp only [Config.LandsOnObject, not_forall] at h
  obtain ⟨ref, target, ⟨i, members, name, value, hstage, hobj, hm, href, htarget⟩, hne, hbad⟩ := h
  obtain rfl : stage = .members i := hstage
  obtain ⟨u, hu⟩ := at_resolveParts htarget
  have hcopy : copyFrom p target doc = .ok (doc.setAt p u) := by
    simp [copyFrom, Ne.symm hne, hu]
  refine ⟨_, .copy hobj hm href htarget hcopy, fun hiterates => ?_⟩
  obtain ⟨members', hmembers'⟩ := hiterates 0 rfl
  rw [at?_setAt hobj] at hmembers'
  exact hbad ⟨members', hu.trans hmembers'⟩

/-- Throughout the run the members of objects only are iterated, if and only if throughout the run the
references that are followed lead to objects. -/
theorem iterates_objects_iff (doc : Json) :
    (∀ c, ReflTransGen Comes (wholeDoc doc) c → c.Iterates) ↔
      ∀ c, ReflTransGen Comes (wholeDoc doc) c → c.LandsOnObject := by
  constructor
  · intro h c hc
    by_contra hbad
    obtain ⟨c', hstep, hnot⟩ := comes_of_not_lands hbad
    exact hnot (h c' (hc.tail hstep))
  · intro h c hc
    rcases ReflTransGen.cases_tail hc with rfl | ⟨before, hbefore, hstep⟩
    · exact fun i hstage => nomatch hstage
    · exact iterates_of_comes hstep (h before hbefore)

/-- Where all references of the document lead to objects, the condition is met. -/
theorem iterates_of_wellReferenced {doc : Json} (hwell : WellReferenced doc) {c : Config}
    (hc : ReflTransGen Comes (wholeDoc doc) c) : c.Iterates := by
  refine (iterates_objects_iff doc).mpr (fun c hc ref target hfollows _ => ?_) c hc
  exact ((sound_of_wellReferenced hwell c hc).1 ref target hfollows).2

/-- A reference to an array. -/
def arrayDoc : Json := .object [(lit "a", refTo (lit "#/b")), (lit "b", .array [])]

theorem parse_arrayDoc : ∃ t, Library.Json.parse t = some arrayDoc := by
  have href : List.Forall₂ ParsesMember [memberText (lit "$ref") _] [(lit "$ref", .string (lit "#/b"))] :=
    .cons ⟨by decide, _, rfl, (reads_string (by decide)).parses.value⟩ .nil
  have hmembers : List.Forall₂ ParsesMember [memberText (lit "a") _, memberText (lit "b") _]
      [(lit "a", refTo (lit "#/b")), (lit "b", .array [])] :=
    .cons ⟨by decide, _, rfl, (parses_object href (by simp)).value⟩
      (.cons ⟨by decide, _, rfl, parses_empty_array.value⟩ .nil)
  exact ⟨_, (parses_object hmembers (by simp)).parse⟩

theorem plainKeys_arrayDoc : PlainKeys arrayDoc := by
  refine plainKeys_object (by decide) (by decide) ?_
  simp only [List.forall_mem_cons]
  refine ⟨plainKeys_object (by decide) (by decide) ?_, ?_, by simp⟩
  · simpa using plainKeys_string _
  · intro p members hp
    cases p with
    | nil => simp at hp
    | cons i p => simp [at?_cons, children] at hp

/-- The members of an array are iterated, where a reference leads to it. -/
theorem array_iterated : ¬∀ (t : Bytes) (doc : Json), Library.Json.parse t = some doc →
    (∀ ref ∈ refs doc, ∃ target, Names doc ref target) →
    (∀ ref, ¬TransGen (Needs doc) ref ref) →
      ∀ c, ReflTransGen Comes (wholeDoc doc) c → c.Iterates := by
  intro h
  obtain ⟨t, hparse⟩ := parse_arrayDoc
  have hrefs : refs arrayDoc = [lit "b"] := by decide
  have hnames : Names arrayDoc (lit "b") (.array []) :=
    ⟨[lit "b"], ⟨by decide, by decide⟩, .member (List.mem_cons_of_mem _ List.mem_cons_self) (.here _)⟩
  have hacyclic : ∀ ref, ¬TransGen (Needs arrayDoc) ref ref := by
    intro ref hcycle
    obtain ⟨before, -, hlast⟩ := TransGen.tail'_iff.mp hcycle
    obtain rfl : ref = lit "b" := by simpa [hrefs] using hlast.mem_refs
    obtain ⟨_, ⟨target, htarget, hmem⟩, -⟩ := TransGen.head'_iff.mp hcycle
    obtain rfl := htarget.unique hnames plainKeys_arrayDoc
    exact absurd hmem (by simp [refs, collect, collectItems])
  have hiterates := h t arrayDoc hparse (by simpa [hrefs] using ⟨_, hnames⟩) hacyclic
  have hvalue : ReflTransGen Comes (wholeDoc arrayDoc) ⟨[], [0], .members 0, arrayDoc⟩ :=
    ((ReflTransGen.single (.object rfl)).tail (.member rfl rfl rfl rfl)).tail (.object rfl)
  have htarget : resolvePath arrayDoc (lit "b") = .ok [1] := by decide
  obtain ⟨members, hmembers⟩ := hiterates _ (hvalue.tail (.copy rfl rfl (by decide) htarget rfl)) 0 rfl
  obtain ⟨_, ⟨⟩⟩ := hmembers

end OasValidator
