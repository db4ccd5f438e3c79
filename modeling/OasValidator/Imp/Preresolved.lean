import OasValidator.Imp.Construct
import OasValidator.Imp.Inlining

/-! Specifications whose references are resolved beforehand.  A run over a value without local
references changes nothing, so a document that was resolved is its own resolution, and a constructor
that is given its text does what it does on the text that it was resolved from. -/

namespace OasValidator

open Library.Json Library.Json.Value

section

variable {doc u : Json} {p : Place}

theorem noRefs_child {i : Nat} {c : Json} (h : refs u = []) (hc : u.children[i]? = some c) :
    refs c = [] := by
  rw [List.eq_nil_iff_forall_not_mem] at h ⊢
  exact fun ref href => h ref (mem_refs_iff.mpr (Or.inr ⟨i, c, hc, href⟩))

theorem localRef_member {members : List (Bytes × Json)} {m : Bytes × Json}
    (h : refs (.object members) = []) (hm : m ∈ members) : localRef m.1 m.2 = none := by
  rw [Option.eq_none_iff_forall_not_mem]
  intro ref href
  have hholds : Holds (.object members) ref := ⟨m, hm, href⟩
  have hmem : ref ∈ refs (.object members) := mem_refs_iff.mpr (Or.inl hholds)
  rw [h] at hmem
  simp at hmem

theorem size_child_lt {i : Nat} {c : Json} (hc : u.children[i]? = some c) : size c < size u := by
  have hpart : size c + 1 ≤ (u.children.map fun child => size child + 1).sum :=
    List.le_sum_of_mem (List.mem_map_of_mem (List.mem_of_getElem? hc))
  rw [size_eq u]
  omega

/-- A call that leaves the document alone, and behind it a loop that does. -/
theorem thenRun_quiet {q : Place} (next : Nat → Json → Option (Except InitError Json))
    (hmono : ∀ {n m d r}, n ≤ m → next n d = some r → next m d = some r)
    (hcall : ∃ n, resolveReferences n q doc = some (.ok doc)) (hnext : ∃ n, next n doc = some (.ok doc)) :
    ∃ n, thenRun (resolveReferences n q doc) (next n) = some (.ok doc) := by
  obtain ⟨n, hn⟩ := hcall
  obtain ⟨m, hm⟩ := hnext
  refine ⟨max n m, ?_⟩
  rw [resolveReferences_mono (Nat.le_max_left n m) hn]
  exact hmono (Nat.le_max_right n m) hm

/-- The loop over members that are no local references, from an index on. -/
theorem resolveMembers_quiet {members : List (Bytes × Json)} (hobj : doc.at? p = some (.object members))
    (hrefs : refs (.object members) = [])
    (hcalls : ∀ i < members.length, ∃ n, resolveReferences n (p ++ [i]) doc = some (.ok doc))
    {i : Nat} (hi : i ≤ members.length) : ∃ n, resolveMembers n p i doc = some (.ok doc) := by
  induction hk : members.length - i generalizing i with
  | zero =>
    have hend : members[i]? = none := List.getElem?_eq_none (by omega)
    exact ⟨1, by simp [resolveMembers, hobj, hend]⟩
  | succ k ih =>
    have hlt : i < members.length := by omega
    obtain ⟨m, hm⟩ : ∃ m, members[i]? = some m := ⟨_, List.getElem?_eq_getElem hlt⟩
    have hlocal := localRef_member hrefs (List.mem_of_getElem? hm)
    have hrest := ih (i := i + 1) (by omega) (by omega)
    by_cases href : isRef m.1 m.2
    · obtain ⟨n, hn⟩ := hrest
      exact ⟨n + 1, by simpa [resolveMembers, hobj, hm, hlocal, href] using hn⟩
    · obtain ⟨n, hn⟩ := thenRun_quiet (fun n => resolveMembers n p (i + 1))
        resolveMembers_mono (hcalls i hlt) hrest
      exact ⟨n + 1, by simpa [resolveMembers, hobj, hm, hlocal, href] using hn⟩

/-- The loop over the items of an array, from an index on. -/
theorem resolveItems_quiet {items : List Json} (harr : doc.at? p = some (.array items))
    (hcalls : ∀ i < items.length, ∃ n, resolveReferences n (p ++ [i]) doc = some (.ok doc))
    {i : Nat} (hi : i ≤ items.length) : ∃ n, resolveItems n p i doc = some (.ok doc) := by
  induction hk : items.length - i generalizing i with
  | zero => exact ⟨1, by simp [resolveItems, harr, show ¬i < items.length by omega]⟩
  | succ k ih =>
    have hlt : i < items.length := by omega
    obtain ⟨n, hn⟩ := thenRun_quiet (fun n => resolveItems n p (i + 1))
      resolveItems_mono (hcalls i hlt) (ih (i := i + 1) (by omega) (by omega))
    exact ⟨n + 1, by simpa [resolveItems, harr, hlt] using hn⟩

/-- A run over a value without local references ends and changes nothing. -/
theorem resolveReferences_quiet (hu : doc.at? p = some u) (hrefs : refs u = []) :
    ∃ n, resolveReferences n p doc = some (.ok doc) := by
  induction hn : size u using Nat.strongRecOn generalizing u p with
  | ind n ih =>
    have hcalls : ∀ i < u.children.length, ∃ n, resolveReferences n (p ++ [i]) doc = some (.ok doc) := by
      intro i hi
      have hc : u.children[i]? = some u.children[i] := List.getElem?_eq_getElem hi
      have hplace : doc.at? (p ++ [i]) = some u.children[i] := by
        rw [at?_append, hu]
        simp [at?_cons, hc]
      exact ih _ (hn ▸ size_child_lt hc) hplace (noRefs_child hrefs hc) rfl
    cases u with
    | object members =>
      obtain ⟨n, hrun⟩ := resolveMembers_quiet hu hrefs
        (fun i hi => hcalls i (by simpa [children] using hi)) (Nat.zero_le _)
      exact ⟨n + 1, by simpa [resolveReferences, hu] using hrun⟩
    | array items =>
      obtain ⟨n, hrun⟩ := resolveItems_quiet hu
        (fun i hi => hcalls i (by simpa [children] using hi)) (Nat.zero_le _)
      exact ⟨n + 1, by simpa [resolveReferences, hu] using hrun⟩
    | _ => exact ⟨1, by simp [resolveReferences, hu]⟩

end

section

variable {σ : Type} {rj : RapidJson σ} {order : Hashing} {files : Bytes → Option Bytes}
  {oasSpecs oasSpecs' : Bytes} {methodMap : MethodMap} {doc doc' : Json} {n : Nat}

/-- How the constructor ends, for a parsed document whose references can be resolved. -/
theorem construct_iff (hparse : parseSpecs rj files oasSpecs = .ok doc)
    (hresolved : resolveReferences n [] doc = some (.ok doc'))
    (r : Except InitError (OASValidatorImp σ)) :
    (∃ m, construct rj order files m oasSpecs methodMap = some r) ↔
      processDocument rj order methodMap doc' = r := by
  simp only [construct, resolvedSpecs, hparse]
  constructor
  · rintro ⟨m, hm⟩
    obtain ⟨out, hout, rfl⟩ := Option.map_eq_some_iff.mp hm
    obtain rfl := resolveReferences_det hout hresolved
    rfl
  · rintro rfl
    exact ⟨n, by rw [hresolved]; rfl⟩

/-- A document that `ResolveReferences` has resolved is resolved into itself, and the constructor ends
on its text in the same way, with the same validator, as on the text that it was resolved from. -/
theorem preresolved_constructs (hparse : parseSpecs rj files oasSpecs = .ok doc)
    (hresolved : resolveReferences n [] doc = some (.ok doc'))
    (hparse' : parseSpecs rj files oasSpecs' = .ok doc') :
    (∃ m, resolveReferences m [] doc' = some (.ok doc')) ∧
      ∀ r : Except InitError (OASValidatorImp σ),
        (∃ m, construct rj order files m oasSpecs methodMap = some r) ↔
          ∃ m, construct rj order files m oasSpecs' methodMap = some r := by
  obtain ⟨m, hagain⟩ := resolveReferences_quiet (at?_nil doc') (refs_of_resolved hresolved)
  exact ⟨⟨m, hagain⟩, fun r =>
    (construct_iff hparse hresolved r).trans (construct_iff hparse' hagain r).symm⟩

end

/-- A path with a reference to its operation, or with the like of it. -/
def besideSpec (operation : Bytes) : Bytes :=
  lit "\x7b\"paths\":\x7b\"/a\":\x7b\"get\":" ++ operation ++ lit "\x7d\x7d," ++
    lit "\"b\":\x7b\"c\":true\x7d\x7d"

def besideDoc (operation : Json) : Json :=
  .object [(lit "paths", .object [(lit "/a", .object [(lit "get", operation)])]),
    (lit "b", .object [(lit "c", .bool true)])]

theorem resolves_beside : resolveReferences 12 [] (besideDoc (refTo (lit "#/b"))) =
    some (.ok (besideDoc (.object [(lit "c", .bool true)]))) := by rfl

theorem preresolved_constructs_beside :
    (∃ m imp, construct RapidJson.plain .insertion (fun _ => none) m
      (besideSpec (lit "\x7b\"$ref\":\"#/b\"\x7d")) [] = some (.ok imp)) ∧
      ∀ r : Except InitError (OASValidatorImp Json),
        (∃ m, construct RapidJson.plain .insertion (fun _ => none) m
          (besideSpec (lit "\x7b\"$ref\":\"#/b\"\x7d")) [] = some r) ↔
        ∃ m, construct RapidJson.plain .insertion (fun _ => none) m
          (besideSpec (lit "\x7b\"c\":true\x7d")) [] = some r := by
  have hparse : parseSpecs RapidJson.plain (fun _ => none)
      (besideSpec (lit "\x7b\"$ref\":\"#/b\"\x7d")) = .ok (besideDoc (refTo (lit "#/b"))) := by
    decide +kernel
  have hparse' : parseSpecs RapidJson.plain (fun _ => none) (besideSpec (lit "\x7b\"c\":true\x7d")) =
      .ok (besideDoc (.object [(lit "c", .bool true)])) := by
    decide +kernel
  refine ⟨?_, (preresolved_constructs hparse resolves_beside hparse').2⟩
  have hbuilt : (processDocument RapidJson.plain .insertion []
      (besideDoc (.object [(lit "c", .bool true)]))).isOk = true := by
    decide +kernel
  obtain ⟨imp, himp⟩ : ∃ imp, processDocument RapidJson.plain .insertion []
      (besideDoc (.object [(lit "c", .bool true)])) = .ok imp := by
    cases h : processDocument RapidJson.plain .insertion []
        (besideDoc (.object [(lit "c", .bool true)])) with
    | ok imp => exact ⟨imp, rfl⟩
    | error x => simp [h, Except.isOk, Except.toBool] at hbuilt
  obtain ⟨m, hm⟩ := (construct_iff hparse resolves_beside (.ok imp)).mpr himp
  exact ⟨m, imp, hm⟩

end OasValidator
