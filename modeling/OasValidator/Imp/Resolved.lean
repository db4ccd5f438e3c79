import OasValidator.Imp.References

/-! What a finished run of `ResolveReferences` leaves.  It changes the document at its own place only,
and no local reference is left there. -/

namespace OasValidator

open Library.Json Library.Json.Value

/-- The local reference that a string is as a member of this name. -/
def refText (name s : Bytes) : Option Bytes := localRef name (.string s)

/-- The local references of a value, at any depth. -/
def refs (v : Json) : List Bytes := collect refText v

theorem own_refText (name : Bytes) (v : Json) : own refText name v = (localRef name v).toList := by
  cases v <;> rfl

/-! ### More steps -/

theorem thenRun_eq_some {r : Option (Except InitError Json)}
    {next : Json → Option (Except InitError Json)} {x : Except InitError Json}
    (h : thenRun r next = some x) :
    (∃ doc, r = some (.ok doc) ∧ next doc = some x) ∨ ∃ e, r = some (.error e) ∧ x = .error e := by
  rcases r with _ | e | doc
  · simp [thenRun] at h
  · exact Or.inr ⟨e, rfl, by simpa [thenRun, eq_comm] using h⟩
  · exact Or.inl ⟨doc, rfl, h⟩

/-- A run that ends with `n` steps ends in the same way with one more. -/
theorem resolve_succ (n : Nat) :
    (∀ p doc r, resolveReferences n p doc = some r → resolveReferences (n + 1) p doc = some r) ∧
      (∀ p i doc r, resolveMembers n p i doc = some r → resolveMembers (n + 1) p i doc = some r) ∧
      ∀ p i doc r, resolveItems n p i doc = some r → resolveItems (n + 1) p i doc = some r := by
  induction n with
  | zero =>
    refine ⟨?_, ?_, ?_⟩ <;> intros <;> simp_all [resolveReferences, resolveMembers, resolveItems]
  | succ n ih =>
    obtain ⟨ihv, ihm, ihi⟩ := ih
    have hthen : ∀ {q doc r} {next next' : Json → Option (Except InitError Json)},
        (∀ doc r, next doc = some r → next' doc = some r) →
        thenRun (resolveReferences n q doc) next = some r →
        thenRun (resolveReferences (n + 1) q doc) next' = some r := by
      intro q doc r next next' hnext h
      rcases thenRun_eq_some h with ⟨doc', hdoc, hrest⟩ | ⟨e, he, rfl⟩
      · rw [ihv _ _ _ hdoc]
        exact hnext _ _ hrest
      · rw [ihv _ _ _ he]
        rfl
    refine ⟨fun p doc r h => ?_, fun p i doc r h => ?_, fun p i doc r h => ?_⟩
    · unfold resolveReferences at h ⊢
      split at h
      · exact ihm _ _ _ _ h
      · exact ihi _ _ _ _ h
      · exact h
    · unfold resolveMembers at h ⊢
      split at h
      · split at h
        · exact h
        · split at h
          · split at h
            · exact ihm _ _ _ _ h
            · exact h
          · split at h <;> rename_i href
            · rw [if_pos href]
              exact ihm _ _ _ _ h
            · rw [if_neg href]
              exact hthen (fun _ _ => ihm _ _ _ _) h
      · exact h
    · unfold resolveItems at h ⊢
      split at h
      · split at h <;> rename_i hi
        · rw [if_pos hi]
          exact hthen (fun _ _ => ihi _ _ _ _) h
        · rw [if_neg hi]
          exact h
      · exact h

theorem resolveReferences_mono {n m : Nat} (h : n ≤ m) {p : Place} {doc : Json}
    {r : Except InitError Json} (hr : resolveReferences n p doc = some r) :
    resolveReferences m p doc = some r := by
  induction h with
  | refl => exact hr
  | step _ ih => exact (resolve_succ _).1 _ _ _ ih

/-- Runs that end, end in the same way. -/
theorem resolveReferences_det {n m : Nat} {p : Place} {doc : Json} {r r' : Except InitError Json}
    (h : resolveReferences n p doc = some r) (h' : resolveReferences m p doc = some r') : r = r' := by
  have hn := resolveReferences_mono (Nat.le_max_left n m) h
  have hm := resolveReferences_mono (Nat.le_max_right n m) h'
  rw [hn] at hm
  exact Option.some.inj hm

/-! ### Following a reference -/

theorem child_of_findMember {v w : Json} {name : Bytes} {i : Nat}
    (h : v.findMember name = some (i, w)) : v.children[i]? = some w := by
  cases v with
  | object members =>
    simp only [findMember, Option.bind_eq_some_iff, Option.map_eq_some_iff, Prod.mk.injEq] at h
    obtain ⟨j, -, m, hm, rfl, rfl⟩ := h
    simp [children, hm]
  | _ => simp [findMember] at h

/-- A resolved path is a place of the document. -/
theorem at_resolveParts {parts : List Bytes} {v : Json} {target : Place}
    (h : resolveParts parts v = .ok target) : ∃ u, v.at? target = some u := by
  induction parts generalizing v target with
  | nil =>
    obtain rfl : [] = target := by simpa [resolveParts] using h
    exact ⟨v, at?_nil v⟩
  | cons part parts ih =>
    unfold resolveParts at h
    split at h
    · simp at h
    · rename_i i value hfind
      obtain ⟨rest, hrest, h⟩ := bind_eq_ok_iff.mp h
      obtain rfl := Except.ok.inj h
      obtain ⟨u, hu⟩ := ih hrest
      exact ⟨u, by rw [at?_cons, child_of_findMember hfind]; exact hu⟩

theorem error_of_resolveParts {parts : List Bytes} {v : Json} {x : InitError}
    (h : resolveParts parts v = .error x) : ∃ message, x = .validatorInitExc message := by
  induction parts generalizing v x with
  | nil => simp [resolveParts] at h
  | cons part parts ih =>
    unfold resolveParts at h
    split at h
    · exact ⟨_, (Except.error.inj h).symm⟩
    · rename_i i value hfind
      cases hrest : resolveParts parts value with
      | error y =>
        obtain ⟨message, rfl⟩ := ih hrest
        rw [hrest] at h
        exact ⟨message, (Except.error.inj h).symm⟩
      | ok rest =>
        rw [hrest] at h
        exact absurd h (by simp [Bind.bind, Except.bind, pure, Except.pure])

/-- What a copy does. -/
theorem copy_cases {place target : Place} {doc doc' : Json} {u : Json}
    (hu : doc.at? target = some u) (h : copyFrom place target doc = .ok doc') :
    place ≠ target ∧ doc' = doc.setAt place u := by
  unfold copyFrom at h
  split at h
  · simp at h
  · rename_i hne
    rw [hu] at h
    exact ⟨hne, (Except.ok.inj h).symm⟩

theorem error_of_copyFrom {place target : Place} {doc : Json} {x : InitError}
    (h : copyFrom place target doc = .error x) : x = .assertion := by
  unfold copyFrom at h
  split at h
  · exact (Except.error.inj h).symm
  · split at h
    · simp at h
    · exact (Except.error.inj h).symm

/-! ### What is left -/

/-- From `doc` to `doc'` only the value `u` at the place changes, into one that holds no local
reference. -/
def Leaves (doc : Json) (place : Place) (u doc' : Json) : Prop :=
  ∃ w, doc' = doc.setAt place w ∧ SameText u w ∧ refs w = []

section

variable {doc doc' u v : Json} {p : Place} {n : Nat}

theorem leaves_self (h : doc.at? p = some u) (hu : refs u = []) : Leaves doc p u doc :=
  ⟨u, (setAt_self h).symm, SameText.refl u, hu⟩

theorem leaves_of_set (h : doc.at? p = some u) (hv : SameText u v)
    (hleaves : Leaves (doc.setAt p v) p v doc') : Leaves doc p u doc' := by
  obtain ⟨w, rfl, hw, hrefs⟩ := hleaves
  exact ⟨w, setAt_setAt h v w, hv.trans hw, hrefs⟩

theorem resolveMembers_object {i : Nat} (h : resolveMembers n p i doc = some (.ok doc')) :
    ∃ members, doc.at? p = some (.object members) := by
  cases n with
  | zero => simp [resolveMembers] at h
  | succ n =>
    unfold resolveMembers at h
    split at h
    · rename_i members hm
      exact ⟨members, hm⟩
    · simp at h

theorem sameText_object (ms ms' : List (Bytes × Json)) : SameText (.object ms) (.object ms') :=
  fun s => by simp

theorem sameText_array (vs vs' : List Json) : SameText (.array vs) (.array vs') :=
  fun s => by simp

/-! A finished run changes its own place only, and leaves no local reference there.  The loops have
done so for what lies before their index. -/

def ValueLeaves (n : Nat) : Prop :=
  ∀ p doc doc' u, doc.at? p = some u → resolveReferences n p doc = some (.ok doc') →
    Leaves doc p u doc'

def MembersLeave (n : Nat) : Prop :=
  ∀ p doc doc' before behind, doc.at? p = some (.object (before ++ behind)) →
    (∀ m ∈ before, localRef m.1 m.2 = none ∧ refs m.2 = []) →
    resolveMembers n p before.length doc = some (.ok doc') →
    Leaves doc p (.object (before ++ behind)) doc'

def ItemsLeave (n : Nat) : Prop :=
  ∀ p doc doc' before behind, doc.at? p = some (.array (before ++ behind)) →
    (∀ v ∈ before, refs v = []) → resolveItems n p before.length doc = some (.ok doc') →
    Leaves doc p (.array (before ++ behind)) doc'

theorem valueLeaves_succ (ihm : MembersLeave n) (ihi : ItemsLeave n) : ValueLeaves (n + 1) := by
  intro p doc doc' u hu h
  unfold resolveReferences at h
  rw [hu] at h
  cases u with
  | object members => exact ihm p doc doc' [] members hu (by simp) h
  | array items => exact ihi p doc doc' [] items hu (by simp) h
  | _ =>
    obtain rfl : doc = doc' := by simpa using h
    exact leaves_self hu rfl

/-- The document that a member is copied into. -/
theorem membersLeave_copy (ihm : MembersLeave n) {members : List (Bytes × Json)}
    (hobj : doc.at? p = some (.object members)) {doc₁ : Json} {ref : Bytes}
    (hcopy : resolvePath doc ref >>= (fun target => copyFrom p target doc) = .ok doc₁)
    (h : resolveMembers n p 0 doc₁ = some (.ok doc')) : Leaves doc p (.object members) doc' := by
  obtain ⟨target, htarget, hcopy⟩ := bind_eq_ok_iff.mp hcopy
  obtain ⟨v, hv⟩ := at_resolveParts htarget
  obtain ⟨-, rfl⟩ := copy_cases hv hcopy
  obtain ⟨members', hmembers⟩ := resolveMembers_object h
  obtain rfl : v = .object members' := by
    rw [at?_setAt hobj] at hmembers
    exact Option.some.inj hmembers
  exact leaves_of_set hobj (sameText_object _ _) (ihm p _ doc' [] members' hmembers (by simp) h)

theorem membersLeave_succ (ihv : ValueLeaves n) (ihm : MembersLeave n) : MembersLeave (n + 1) := by
  intro p doc doc' before behind hobj hdone h
  unfold resolveMembers at h
  rw [hobj] at h
  cases behind with
  | nil =>
    obtain rfl : doc = doc' := by simpa using h
    refine leaves_self hobj ?_
    simp only [refs, collect, collectMembers_eq, List.flatMap_eq_nil_iff, List.append_nil]
    intro m hm
    obtain ⟨hown, hrefs⟩ := hdone m hm
    simp [own_refText, hown, show collect refText m.2 = [] from hrefs]
  | cons m behind =>
    obtain ⟨name, value⟩ := m
    have hnext : ∀ w, localRef name w = none → refs w = [] →
        ∀ m ∈ before ++ [(name, w)], localRef m.1 m.2 = none ∧ refs m.2 = [] := by
      intro w hown hrefs m hm
      rcases List.mem_append.mp hm with hm | hm
      · exact hdone m hm
      · rw [List.mem_singleton.mp hm]
        exact ⟨hown, hrefs⟩
    simp only [List.getElem?_append_right (Nat.le_refl _), Nat.sub_self,
      List.getElem?_cons_zero] at h
    cases href : localRef name value with
    | some ref =>
      simp only [href] at h
      split at h
      · rename_i doc₁ hcopy
        exact membersLeave_copy ihm hobj hcopy h
      · simp at h
    | none =>
      simp only [href] at h
      split at h
      · rename_i hstring
        have hvalue : refs value = [] := by
          cases value with
          | string s => rfl
          | _ => simp [isRef] at hstring
        have := ihm p doc doc' (before ++ [(name, value)]) behind (by simpa using hobj)
          (hnext value href hvalue) (by simpa using h)
        simpa using this
      · rcases thenRun_eq_some h with ⟨doc₁, hchild, hrest⟩ | ⟨e, -, he⟩
        · obtain ⟨w, rfl, hsame, hrefs⟩ := ihv _ _ _ _ (at?_member hobj) hchild
          have hown : localRef name w = none := by
            have := own_sameText refText hsame name
            rw [own_refText, own_refText, href] at this
            simpa using this.symm
          rw [setAt_member hobj] at hrest
          have := ihm p _ doc' (before ++ [(name, w)]) behind
            (by simpa using at?_setAt hobj (.object (before ++ (name, w) :: behind)))
            (hnext w hown hrefs) (by simpa using hrest)
          exact leaves_of_set hobj (sameText_object _ _) (by simpa using this)
        · simp at he

theorem itemsLeave_succ (ihv : ValueLeaves n) (ihi : ItemsLeave n) : ItemsLeave (n + 1) := by
  intro p doc doc' before behind harr hdone h
  unfold resolveItems at h
  rw [harr] at h
  cases behind with
  | nil =>
    obtain rfl : doc = doc' := by simpa using h
    refine leaves_self harr ?_
    simpa [refs, collect, collectItems_eq, List.flatMap_eq_nil_iff] using hdone
  | cons v behind =>
    have hlt : before.length < (before ++ v :: behind).length := by simp
    simp only [if_pos hlt] at h
    rcases thenRun_eq_some h with ⟨doc₁, hchild, hrest⟩ | ⟨e, -, he⟩
    · obtain ⟨w, rfl, -, hrefs⟩ := ihv _ _ _ _ (at?_item harr) hchild
      rw [setAt_item harr] at hrest
      have hdone' : ∀ v ∈ before ++ [w], refs v = [] := by
        intro v hv
        rcases List.mem_append.mp hv with hv | hv
        · exact hdone v hv
        · rw [List.mem_singleton.mp hv]
          exact hrefs
      have := ihi p _ doc' (before ++ [w]) behind
        (by simpa using at?_setAt harr (.array (before ++ w :: behind))) hdone'
        (by simpa using hrest)
      exact leaves_of_set harr (sameText_array _ _) (by simpa using this)
    · simp at he

theorem leaves_of_ok (n : Nat) : ValueLeaves n ∧ MembersLeave n ∧ ItemsLeave n := by
  induction n with
  | zero =>
    refine ⟨?_, ?_, ?_⟩ <;> intro <;> simp [resolveReferences, resolveMembers, resolveItems]
  | succ n ih =>
    obtain ⟨ihv, ihm, ihi⟩ := ih
    exact ⟨valueLeaves_succ ihm ihi, membersLeave_succ ihv ihm, itemsLeave_succ ihv ihi⟩

/-- A finished run on a whole document leaves no local reference. -/
theorem refs_of_resolved (h : resolveReferences n [] doc = some (.ok doc')) : refs doc' = [] := by
  obtain ⟨w, rfl, -, hrefs⟩ := (leaves_of_ok n).1 [] doc doc' doc (at?_nil doc) h
  simpa using hrefs

end

end OasValidator
