import OasValidator.Imp.Resolved

/-! JSON pointers as `ResolvePath` reads them.  It takes the tokens of a pointer for keys as they are,
so it comes to the values whose way passes through objects only, by keys that a pointer does not
escape. -/

namespace OasValidator

open Library.Cut Library.Json Library.Json.Value

/-! ### Pointers -/

def tilde : UInt8 := '~'.toUInt8

def escapeByte (c : UInt8) : Bytes :=
  if c = tilde then lit "~0" else if c = slash then lit "~1" else [c]

/-- A key as a token of a pointer. -/
def escapeToken (key : Bytes) : Bytes := key.flatMap escapeByte

/-- The reference tokens of a place. -/
def pointerTokens : Json → Place → List Bytes
  | .object members, i :: p =>
    match members[i]? with
    | some (key, value) => escapeToken key :: pointerTokens value p
    | none => []
  | .array items, i :: p =>
    match items[i]? with
    | some item => toString i :: pointerTokens item p
    | none => []
  | _, _ => []

/-- The pointer to a place, without the `/` in front. -/
def pointer (doc : Json) (p : Place) : Bytes := [slash].intercalate (pointerTokens doc p)

/-- The keys of the members on the way to a place. -/
def keysOn : Json → Place → List Bytes
  | .object members, i :: p =>
    match members[i]? with
    | some (key, value) => key :: keysOn value p
    | none => []
  | .array items, i :: p =>
    match items[i]? with
    | some item => keysOn item p
    | none => []
  | _, _ => []

/-- The way to the place passes through objects only, and each member on it is the first of its key,
which no `~` and no `/` is in. -/
def ByPlainKeys : Json → Place → Prop
  | _, [] => True
  | .object members, i :: p =>
    ∃ key value, members[i]? = some (key, value) ∧ tilde ∉ key ∧ slash ∉ key ∧
      (∀ j < i, ∀ m, members[j]? = some m → m.1 ≠ key) ∧ ByPlainKeys value p
  | _, _ :: _ => False

/-! ### Tokens -/

theorem escapeToken_cons (c : UInt8) (key : Bytes) :
    escapeToken (c :: key) = escapeByte c ++ escapeToken key := rfl

theorem not_mem_escapeToken {b : UInt8} {key : Bytes} (hdigits : b ∉ lit "~0" ∧ b ∉ lit "~1")
    (h : b = slash ∨ b ∉ key) : b ∉ escapeToken key := by
  simp only [escapeToken, List.mem_flatMap, not_exists, not_and, escapeByte]
  intro c hc
  split
  · exact hdigits.1
  · split
    · exact hdigits.2
    · rename_i hne
      rw [List.mem_singleton]
      rintro rfl
      exact h.elim hne fun hnot => hnot hc

/-- A key is its own token if it has nothing to escape. -/
theorem escapeToken_eq_iff {key : Bytes} : escapeToken key = key ↔ tilde ∉ key ∧ slash ∉ key := by
  have hlength : ∀ key : Bytes, key.length ≤ (escapeToken key).length := by
    intro key
    induction key with
    | nil => simp
    | cons c key ih =>
      have hbyte : 1 ≤ (escapeByte c).length := by
        unfold escapeByte
        split
        · decide
        · split
          · decide
          · simp
      rw [escapeToken_cons, List.length_append, List.length_cons]
      omega
  induction key with
  | nil => simp [escapeToken]
  | cons c key ih =>
    -- an escaped byte makes the token longer than the key
    have hlonger : (escapeByte c).length = 2 → escapeToken (c :: key) ≠ c :: key := by
      intro htwo heq
      have hlen := congrArg List.length heq
      have hle := hlength key
      rw [escapeToken_cons, List.length_append, List.length_cons] at hlen
      omega
    by_cases htilde : c = tilde
    · exact iff_of_false (hlonger (by rw [escapeByte, if_pos htilde]; rfl)) (by simp [htilde])
    · by_cases hslash : c = slash
      · refine iff_of_false (hlonger (by rw [escapeByte, if_neg htilde, if_pos hslash]; rfl)) ?_
        simp [hslash]
      · rw [escapeToken_cons, escapeByte, if_neg htilde, if_neg hslash]
        simp [ih, Ne.symm htilde, Ne.symm hslash]

theorem slash_not_mem_tokens {doc : Json} {p : Place} : ∀ token ∈ pointerTokens doc p, slash ∉ token := by
  induction p generalizing doc with
  | nil => cases doc <;> simp [pointerTokens]
  | cons i p ih =>
    cases doc with
    | object members =>
      simp only [pointerTokens]
      split
      · simp only [List.forall_mem_cons]
        exact ⟨not_mem_escapeToken (by decide) (Or.inl rfl), ih⟩
      · simp
    | array items =>
      simp only [pointerTokens]
      split
      · simp only [List.forall_mem_cons]
        obtain ⟨_, _, -, hdigits, -⟩ := toString_digits i
        exact ⟨fun hmem => absurd (hdigits slash hmem) (by decide), ih⟩
      · simp
    | _ => simp [pointerTokens]

/-! ### Resolving a pointer -/

theorem resolveParts_cons_eq_ok {doc : Json} {part : Bytes} {parts : List Bytes} {i : Nat} {p : Place} :
    resolveParts (part :: parts) doc = .ok (i :: p) ↔
      ∃ value, doc.findMember (cstr part) = some (i, value) ∧ resolveParts parts value = .ok p := by
  rw [resolveParts]
  cases hfind : doc.findMember (cstr part) with
  | none => simp
  | some found =>
    obtain ⟨j, value⟩ := found
    simp only [bind_eq_ok_iff, Option.some.injEq, Prod.mk.injEq]
    constructor
    · rintro ⟨rest, hrest, h⟩
      obtain ⟨rfl, rfl⟩ := List.cons.inj (Except.ok.inj h)
      exact ⟨value, ⟨rfl, rfl⟩, hrest⟩
    · rintro ⟨_, ⟨rfl, rfl⟩, hrest⟩
      exact ⟨p, hrest, rfl⟩

theorem resolveParts_tokens_iff {doc u : Json} {p : Place} (hp : doc.at? p = some u)
    (hplain : ∀ key ∈ keysOn doc p, 0 ∉ key) :
    resolveParts (pointerTokens doc p) doc = .ok p ↔ ByPlainKeys doc p := by
  induction p generalizing doc with
  | nil =>
    have htokens : pointerTokens doc [] = [] := by cases doc <;> rfl
    have hplace : ByPlainKeys doc [] := by cases doc <;> exact trivial
    rw [htokens]
    exact iff_of_true rfl hplace
  | cons i p ih =>
    rw [at?_cons] at hp
    obtain ⟨child, hchild, hp⟩ := Option.bind_eq_some_iff.mp hp
    cases doc with
    | object members =>
      simp only [children, List.getElem?_map, Option.map_eq_some_iff] at hchild
      obtain ⟨⟨key, value⟩, hm, rfl⟩ := hchild
      simp only [keysOn, hm, List.forall_mem_cons] at hplain
      have hcstr : cstr (escapeToken key) = escapeToken key :=
        cstr_of_not_mem (not_mem_escapeToken (by decide) (Or.inr hplain.1))
      simp only [pointerTokens, hm, resolveParts_cons_eq_ok, hcstr, findMember_eq_some_iff, ByPlainKeys]
      constructor
      · rintro ⟨_, ⟨hm', hfirst⟩, hrest⟩
        obtain ⟨hkey, rfl⟩ := Prod.mk.inj (Option.some.inj hm')
        obtain ⟨htilde, hslash⟩ := escapeToken_eq_iff.mp hkey.symm
        rw [← hkey] at hfirst
        exact ⟨key, value, rfl, htilde, hslash, hfirst, (ih hp hplain.2).mp hrest⟩
      · rintro ⟨_, _, hm', htilde, hslash, hfirst, hrest⟩
        obtain ⟨rfl, rfl⟩ := Prod.mk.inj (Option.some.inj hm')
        rw [escapeToken_eq_iff.mpr ⟨htilde, hslash⟩]
        exact ⟨value, ⟨rfl, hfirst⟩, (ih hp hplain.2).mpr hrest⟩
    | array items =>
      have hnone : ∀ name, (Value.array items).findMember name = none := fun _ => rfl
      simp only [children] at hchild
      simp [pointerTokens, hchild, resolveParts_cons_eq_ok, hnone, ByPlainKeys]
    | _ => simp [children] at hchild

/-- The pointer of a node, on the way to which no key has a NUL and whose last token is not empty,
resolves to the node if and only if the way passes through objects only, by keys that are the first of
their name and have nothing to escape. -/
theorem resolvePath_pointer_iff {doc u : Json} {p : Place} (hp : doc.at? p = some u)
    (hplain : ∀ key ∈ keysOn doc p, 0 ∉ key) (hlast : (pointerTokens doc p).getLast? ≠ some []) :
    resolvePath doc (pointer doc p) = .ok p ↔ ByPlainKeys doc p := by
  rw [resolvePath, pointer, split, cut_intercalate slash_not_mem_tokens hlast]
  exact resolveParts_tokens_iff hp hplain

/-- A specification with a path and a schema. -/
def usersDoc : Json :=
  .object [(lit "paths", .object [(lit "/users", .object [(lit "get", .object [])])]),
    (lit "components", .object [(lit "schemas", .object [(lit "User", .object [])])])]

theorem resolvePath_pointer_paths :
    resolvePath usersDoc (pointer usersDoc [1, 0, 0]) = .ok [1, 0, 0] ↔
      ByPlainKeys usersDoc [1, 0, 0] :=
  resolvePath_pointer_iff rfl (by decide) (by decide)

/-- The path's pointer names a member `~1users`, which is sought as it is. -/
theorem path_not_resolved : ¬∀ (doc u : Json) (p : Place), doc.at? p = some u →
    resolvePath doc (pointer doc p) = .ok p := by
  intro h
  have hpath := h usersDoc _ [0, 0] rfl
  have hrun : resolvePath usersDoc (pointer usersDoc [0, 0]) =
      .error (.validatorInitExc (lit "Invalid path or missing member:~1users")) := by
    decide
  rw [hrun] at hpath
  simp at hpath

end OasValidator
