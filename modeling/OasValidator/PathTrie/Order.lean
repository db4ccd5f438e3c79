import OasValidator.PathTrie.Walk

/-! Searches in tries that hold the same paths.  A node keeps the name of the parameter inserted last,
and a search goes on from it to the child that its table happens to keep first.  Neither matters
exactly when at each such node there is one parameter and all fragments there lead to the same
remainders. -/

namespace OasValidator.PathTrie

open Library.Cut Library.Table Library.Words

/-- The trie after the paths are inserted one after the other. -/
def insertAll (paths : List Bytes) : Node := paths.foldl (fun root path => insert path root) {}

theorem insertAll_eq (paths : List Bytes) : insertAll paths = holding 0 (paths.map (cut slash)) := by
  simp only [insertAll, holding, List.foldl_map]
  rfl

/-- All orders of insertion and of the children give the same results. -/
def OrderFree (paths : List Bytes) : Prop :=
  ∀ inserted inserted' : List Bytes, inserted.Perm paths → inserted'.Perm paths →
    ∀ (order order' : Hashing) (path : Bytes) (paramIdxs : ParamIdxs),
      searchParams order (insertAll inserted) path paramIdxs =
        searchParams order' (insertAll inserted') path paramIdxs

/-- Where a parameter may come next it is the only one, and all fragments that may come there lead to
the same remainders. -/
structure EvenForks (L : List (List Bytes)) : Prop where
  name : ∀ u param dir, isParamDir param → isParamDir dir → Begins L (u ++ [param]) →
    Begins L (u ++ [dir]) → param = dir
  rest : ∀ u param dir dir', isParamDir param → Begins L (u ++ [param]) → Begins L (u ++ [dir]) →
    Begins L (u ++ [dir']) → ∀ w, Begins L (u ++ dir :: w) → Begins L (u ++ dir' :: w)

theorem EvenForks.child {L : List (List Bytes)} (h : EvenForks L) (dir : Bytes) :
    EvenForks (after dir L) where
  name u param dir' hp hd := by
    simp only [begins_after, ← List.cons_append]
    exact h.name (dir :: u) param dir' hp hd
  rest u param dir' dir'' hp := by
    simp only [begins_after, ← List.cons_append]
    exact h.rest (dir :: u) param dir' dir'' hp

variable {order : Hashing}

theorem mem_paramHeads {L : List (List Bytes)} {dir : Bytes} :
    dir ∈ paramHeads L ↔ Begins L [dir] ∧ isParamDir dir := by
  rw [← mem_heads_iff_begins]
  simp [paramHeads]

/-- A step depends on what the words begin with, up to the child it goes on to. -/
theorem EvenForks.turn_congr {L L' : List (List Bytes)} (h : EvenForks L)
    (hsame : ∀ u, Begins L u ↔ Begins L' u) (order order' : Hashing) (dir : Bytes) :
    (turn order L dir = none ∧ turn order' L' dir = none) ∨
      ∃ fragment child child', turn order L dir = some (fragment, child) ∧
        turn order' L' dir = some (fragment, child') ∧
        ∀ u, Begins (after child L) u ↔ Begins (after child' L') u := by
  have hheads : ∀ d, d ∈ heads L ↔ d ∈ heads L' := by
    intro d
    rw [mem_heads_iff_begins, mem_heads_iff_begins, hsame]
  have hparams : ∀ d, d ∈ paramHeads L ↔ d ∈ paramHeads L' := by
    intro d
    rw [mem_paramHeads, mem_paramHeads, hsame]
  by_cases hmem : dir ∈ heads L
  · refine Or.inr ⟨dir, dir, dir, turn_of_mem hmem, turn_of_mem ((hheads dir).mp hmem), fun u => ?_⟩
    rw [begins_after, begins_after, hsame]
  · have hmem' : dir ∉ heads L' := mt (hheads dir).mpr hmem
    rcases turn_of_not_mem order hmem with ⟨hnone, hturn⟩ | ⟨param, child, hparam, hchild, hturn⟩
    · have hnone' : paramHeads L' = [] := by
        rw [List.eq_nil_iff_forall_not_mem]
        intro d hd
        rw [← hparams, hnone] at hd
        simp at hd
      refine Or.inl ⟨hturn, ?_⟩
      rcases turn_of_not_mem order' hmem' with ⟨-, hturn'⟩ | ⟨param', -, hparam', -⟩
      · exact hturn'
      · rw [hnone'] at hparam'
        simp at hparam'
    · obtain ⟨hbegins, hp⟩ := mem_paramHeads.mp (List.mem_of_getLast? hparam)
      rcases turn_of_not_mem order' hmem' with ⟨hnone', -⟩ |
        ⟨param', child', hparam', hchild', hturn'⟩
      · have := (hparams param).mp (List.mem_of_getLast? hparam)
        rw [hnone'] at this
        simp at this
      · obtain ⟨hbegins', hp'⟩ := mem_paramHeads.mp (List.mem_of_getLast? hparam')
        obtain rfl : param = param' :=
          h.name [] param param' hp hp' hbegins ((hsame _).mpr hbegins')
        refine Or.inr ⟨param, child, child', hturn, hturn', fun u => ?_⟩
        have hc : Begins L [child] := mem_heads_iff_begins.mp (mem_firsts.mp (Hashing.first_mem hchild))
        have hc' : Begins L [child'] := by
          rw [hsame]
          exact mem_heads_iff_begins.mp (mem_firsts.mp (Hashing.first_mem hchild'))
        rw [begins_after, begins_after, ← hsame]
        exact ⟨h.rest [] param child child' hp hbegins hc hc' u,
          h.rest [] param child' child hp hbegins hc' hc u⟩

/-- A walk and what it records depend only on what the words begin with. -/
theorem EvenForks.walk_congr {L L' : List (List Bytes)} (h : EvenForks L)
    (hsame : ∀ u, Begins L u ↔ Begins L' u) (order order' : Hashing)
    (frags : List (Bytes × ParamRange)) (d : Nat) :
    walk order L (frags.map Prod.fst) = walk order' L' (frags.map Prod.fst) ∧
      captures order d L frags = captures order' d L' frags := by
  induction frags generalizing L L' d with
  | nil => exact ⟨rfl, rfl⟩
  | cons p rest ih =>
    obtain ⟨dir, range⟩ := p
    have hmem : dir ∈ heads L ↔ dir ∈ heads L' := by
      rw [mem_heads_iff_begins, mem_heads_iff_begins, hsame]
    rcases h.turn_congr hsame order order' dir with
      ⟨hturn, hturn'⟩ | ⟨fragment, child, child', hturn, hturn', hafter⟩
    · simp only [List.map_cons, walk, captures, hturn, hturn', and_self]
    · obtain ⟨hwalk, hcaptures⟩ := ih (h.child child) hafter (d + 1)
      simp only [List.map_cons, walk, captures, hturn, hturn', hwalk, hcaptures, hmem, and_self]

theorem searchParams_insertAll (order : Hashing) (paths : List Bytes) (path : Bytes)
    (paramIdxs : ParamIdxs) :
    searchParams order (insertAll paths) path paramIdxs =
      .ok (match walk order (paths.map (cut slash)) (cut slash path) with
        | some key => (true, (glue slash key).dropLast,
            record (captures order 0 (paths.map (cut slash)) (fragments path)) paramIdxs)
        | none => (false, [],
            record (captures order 0 (paths.map (cut slash)) (fragments path)) paramIdxs)) := by
  rw [searchParams, insertAll_eq, searchParamsFrom_holding, fragments_fst]
  rfl

/-! ### Uneven forks -/

/-- A walk along the beginning of a word follows the word. -/
theorem walk_append {L : List (List Bytes)} {u : List Bytes} (h : Begins L u) (dirs : List Bytes) :
    walk order L (u ++ dirs) = (walk order (behind u L) dirs).map (u ++ ·) := by
  induction u generalizing L with
  | nil => simp
  | cons dir u ih =>
    have hmem : dir ∈ heads L := mem_heads_iff_begins.mpr (h.of_prefix (by simp))
    simp only [List.cons_append, walk, turn_of_mem hmem, ih (begins_after.mpr h), behind_cons,
      Option.map_map]
    rfl

theorem walk_of_begins {L : List (List Bytes)} {u : List Bytes} (h : Begins L u) :
    walk order L u = some u := by
  simpa [walk] using @walk_append order L u h []

/-- A walk whose key is the path itself stays among the words. -/
theorem begins_of_walk {L : List (List Bytes)} {dirs : List Bytes}
    (hne : L ≠ []) (h : walk order L dirs = some dirs) : Begins L dirs := by
  induction dirs generalizing L with
  | nil =>
    obtain ⟨w, hw⟩ := List.exists_mem_of_ne_nil L hne
    exact ⟨w, hw, List.nil_prefix⟩
  | cons dir rest ih =>
    unfold walk at h
    split at h
    · simp at h
    · rename_i fragment child hturn
      obtain ⟨key, hkey, heq⟩ := Option.map_eq_some_iff.mp h
      obtain ⟨rfl, rfl⟩ := List.cons.inj heq
      rcases (turn_fragment hturn).2.2 with ⟨hmem, -, rfl⟩ | ⟨hmem, hparam, -⟩
      · exact begins_after.mp (ih (mt after_eq_nil_iff.mp (not_not.mpr hmem)) hkey)
      · exact absurd (mem_heads_of_mem_paramHeads (List.mem_of_getLast? hparam)).1 hmem

/-- Every fragment of a key is a fragment of some word. -/
theorem mem_of_walk {L : List (List Bytes)} {dirs key : List Bytes}
    (h : walk order L dirs = some key) {fragment : Bytes} (hmem : fragment ∈ key) :
    ∃ w ∈ L, fragment ∈ w := by
  induction dirs generalizing L key with
  | nil =>
    obtain rfl : key = [] := by simpa [walk] using h.symm
    simp at hmem
  | cons dir rest ih =>
    unfold walk at h
    split at h
    · simp at h
    · rename_i fragment' child hturn
      obtain ⟨key', hkey, rfl⟩ := Option.map_eq_some_iff.mp h
      rcases List.mem_cons.mp hmem with rfl | hmem
      · obtain ⟨w, hw⟩ := mem_heads.mp (turn_fragment hturn).1
        exact ⟨_, hw, List.mem_cons_self⟩
      · obtain ⟨w, hw, hin⟩ := ih hkey hmem
        exact ⟨_, mem_after.mp hw, List.mem_cons_of_mem _ hin⟩

/-- A fragment that is none of finitely many. -/
theorem exists_fresh (dirs : List Bytes) : ∃ dir, slash ∉ dir ∧ dir ∉ dirs := by
  obtain ⟨n, hn⟩ : ∃ n, ∀ dir ∈ dirs, dir.length < n := by
    induction dirs with
    | nil => exact ⟨0, by simp⟩
    | cons dir dirs ih =>
      obtain ⟨n, hn⟩ := ih
      refine ⟨max n (dir.length + 1), List.forall_mem_cons.mpr ⟨by omega, fun d hd => ?_⟩⟩
      have := hn d hd
      omega
  refine ⟨List.replicate n openBrace, ?_, fun h => ?_⟩
  · rw [List.mem_replicate]
    exact fun h => absurd h.2 (by decide)
  · have := hn _ h
    simp at this

/-- A walk from a word to a fragment that no word has goes on behind the child that is kept first. -/
theorem walk_fork {L : List (List Bytes)} {u : List Bytes} {dir param child : Bytes}
    (hu : Begins L u) (hdir : dir ∉ heads (behind u L))
    (hparam : (paramHeads (behind u L)).getLast? = some param)
    (hchild : order.first (firsts (behind u L)) = some child) (dirs : List Bytes) :
    walk order L (u ++ dir :: dirs) =
      (walk order (after child (behind u L)) dirs).map fun key => u ++ param :: key := by
  rw [walk_append hu]
  simp only [walk, turn, if_neg hdir, hparam, hchild, Option.map_some, Option.map_map]
  rfl

/-- An iteration that starts with a given key. -/
def preferring (dir : Bytes) : Hashing where
  iterate ks := if dir ∈ ks then dir :: ks.erase dir else ks
  perm ks := by
    by_cases h : dir ∈ ks
    · rw [if_pos h]
      exact (List.perm_cons_erase h).symm
    · rw [if_neg h]

theorem preferring_first {dir : Bytes} {ks : List Bytes} (h : dir ∈ ks) :
    (preferring dir).first ks = some dir := by
  simp [Hashing.first, preferring, h]

section

variable {paths : List Bytes}

theorem slash_not_mem {u dirs : List Bytes} (h : Begins (paths.map (cut slash)) (u ++ dirs)) :
    (∀ dir ∈ u, slash ∉ dir) ∧ ∀ dir ∈ dirs, slash ∉ dir := by
  obtain ⟨w, hw, hbegin⟩ := h
  obtain ⟨path, -, rfl⟩ := List.mem_map.mp hw
  have hmem : ∀ dir ∈ u ++ dirs, slash ∉ dir := fun dir hdir =>
    sep_not_mem_of_mem_cut (hbegin.subset hdir)
  exact ⟨fun dir hdir => hmem dir (List.mem_append_left _ hdir),
    fun dir hdir => hmem dir (List.mem_append_right _ hdir)⟩

/-- The key of a search that succeeds is one of its fragments. -/
theorem key_eq_of_searchParams {order order' : Hashing} {inserted inserted' dirs key : List Bytes}
    (hdirs : ∀ dir ∈ dirs, slash ∉ dir) (hkey : ∀ dir ∈ key, slash ∉ dir) (hne : key ≠ [])
    (hwalk : walk order (inserted.map (cut slash)) dirs = some key)
    (h : searchParams order (insertAll inserted) (glue slash dirs) [] =
      searchParams order' (insertAll inserted') (glue slash dirs) []) :
    walk order' (inserted'.map (cut slash)) dirs = some key := by
  rw [searchParams_insertAll, searchParams_insertAll, cut_glue hdirs, hwalk] at h
  cases hwalk' : walk order' (inserted'.map (cut slash)) dirs with
  | none => simp [hwalk'] at h
  | some key' =>
    simp only [hwalk', Except.ok.injEq, Prod.mk.injEq, true_and] at h
    have hkey' : ∀ dir ∈ key', slash ∉ dir := by
      intro dir hdir
      obtain ⟨w, hw, hin⟩ := mem_of_walk hwalk' hdir
      obtain ⟨path, -, rfl⟩ := List.mem_map.mp hw
      exact sep_not_mem_of_mem_cut hin
    have hne' : key' ≠ [] := by
      have hlen := (walk_stands hwalk).length_eq.trans (walk_stands hwalk').length_eq.symm
      rw [← List.length_pos_iff] at hne ⊢
      omega
    rw [dropLast_glue_inj hkey hkey' hne hne' h.1]

/-- The name that a node keeps is that of the path inserted last. -/
theorem OrderFree.name (h : OrderFree paths) {u : List Bytes} {param dir : Bytes}
    (hp : isParamDir param) (hd : isParamDir dir)
    (hbegins : Begins (paths.map (cut slash)) (u ++ [param]))
    (hbegins' : Begins (paths.map (cut slash)) (u ++ [dir])) : param = dir := by
  obtain ⟨fresh, hslash, hfresh⟩ := exists_fresh (heads (behind u (paths.map (cut slash))))
  -- a path inserted last leaves its name, and a search for the new fragment shows it
  have hlast : ∀ param, isParamDir param → Begins (paths.map (cut slash)) (u ++ [param]) →
      ∃ inserted : List Bytes, inserted.Perm paths ∧
        walk .insertion (inserted.map (cut slash)) (u ++ [fresh]) = some (u ++ [param]) := by
    intro param hparam ⟨w, hw, v, hv⟩
    obtain ⟨path, hpath, rfl⟩ := List.mem_map.mp hw
    have hperm : (paths.erase path ++ [path]).Perm paths :=
      (List.perm_append_singleton path _).trans (List.perm_cons_erase hpath).symm
    have hsame := begins_congr (hperm.map (cut slash))
    have hbehind : behind u ((paths.erase path ++ [path]).map (cut slash)) =
        behind u ((paths.erase path).map (cut slash)) ++ [param :: v] := by
      have hpath' : cut slash path = u ++ param :: v := by
        rw [← hv]
        simp
      rw [List.map_append, behind_append, List.map_singleton, hpath', behind_singleton]
    have hparams : (paramHeads (behind u ((paths.erase path ++ [path]).map (cut slash)))).getLast? =
        some param := by
      rw [hbehind, paramHeads_snoc_cons, if_pos hparam, List.getLast?_concat]
    obtain ⟨child, -, hchild⟩ := Hashing.insertion.exists_first (firsts_ne_nil
      (mem_heads_of_mem_paramHeads (List.mem_of_getLast? hparams)).1)
    refine ⟨_, hperm, ?_⟩
    rw [walk_fork ?_ ?_ hparams hchild []]
    · rfl
    · exact (hsame u).mpr ⟨cut slash path, hw, (List.prefix_append u _).trans ⟨v, hv⟩⟩
    · rw [mem_heads_iff_begins, begins_behind, hsame, ← begins_behind, ← mem_heads_iff_begins]
      exact hfresh
  obtain ⟨inserted, hperm, hwalk⟩ := hlast param hp hbegins
  obtain ⟨inserted', hperm', hwalk'⟩ := hlast dir hd hbegins'
  obtain ⟨hu, hparam⟩ := slash_not_mem hbegins
  have hdirs : ∀ d ∈ u ++ [fresh], slash ∉ d := by
    simpa [or_imp, forall_and, hslash] using hu
  have hkey : ∀ d ∈ u ++ [param], slash ∉ d := by
    simpa [or_imp, forall_and] using And.intro hu (hparam param (by simp))
  have hsame := key_eq_of_searchParams hdirs hkey (by simp) hwalk
    (h inserted inserted' hperm hperm' .insertion .insertion (glue slash (u ++ [fresh])) [])
  rw [hwalk'] at hsame
  simpa using hsame.symm

/-- The remainders behind the child that is kept first answer for the other children too. -/
theorem OrderFree.rest (h : OrderFree paths) {u : List Bytes} {param dir dir' : Bytes}
    (hp : isParamDir param) (hparam : Begins (paths.map (cut slash)) (u ++ [param]))
    (hdir : Begins (paths.map (cut slash)) (u ++ [dir]))
    (hdir' : Begins (paths.map (cut slash)) (u ++ [dir'])) {w : List Bytes}
    (hw : Begins (paths.map (cut slash)) (u ++ dir :: w)) :
    Begins (paths.map (cut slash)) (u ++ dir' :: w) := by
  obtain ⟨fresh, hslash, hfresh⟩ := exists_fresh (heads (behind u (paths.map (cut slash))))
  have hmem : param ∈ paramHeads (behind u (paths.map (cut slash))) :=
    mem_paramHeads.mpr ⟨begins_behind.mpr hparam, hp⟩
  obtain ⟨name, hname⟩ : ∃ name, (paramHeads (behind u (paths.map (cut slash)))).getLast? =
      some name := by
    exact ⟨_, List.getLast?_eq_some_getLast (List.ne_nil_of_mem hmem)⟩
  have hu : Begins (paths.map (cut slash)) u := hparam.of_prefix (List.prefix_append u _)
  have hfork : ∀ d, Begins (paths.map (cut slash)) (u ++ [d]) →
      walk (preferring d) (paths.map (cut slash)) (u ++ fresh :: w) =
        (walk (preferring d) (after d (behind u (paths.map (cut slash)))) w).map
          fun key => u ++ name :: key := by
    intro d hd
    refine walk_fork hu hfresh hname (preferring_first ?_) w
    exact mem_firsts.mpr (mem_heads_iff_begins.mpr (begins_behind.mpr hd))
  have hwalk : walk (preferring dir) (paths.map (cut slash)) (u ++ fresh :: w) =
      some (u ++ name :: w) := by
    rw [hfork dir hdir, walk_of_begins (begins_after.mpr (begins_behind.mpr hw))]
    rfl
  have hnameBegins : Begins (paths.map (cut slash)) (u ++ [name]) :=
    begins_behind.mp (mem_paramHeads.mp (List.mem_of_getLast? hname)).1
  obtain ⟨hslashU, hslashName⟩ := slash_not_mem hnameBegins
  obtain ⟨-, hslashW⟩ := slash_not_mem hw
  have hdirs : ∀ d ∈ u ++ fresh :: w, slash ∉ d := by
    intro d hd
    rcases List.mem_append.mp hd with hd | hd
    · exact hslashU d hd
    · rcases List.mem_cons.mp hd with rfl | hd
      · exact hslash
      · exact hslashW d (List.mem_cons_of_mem dir hd)
  have hkey : ∀ d ∈ u ++ name :: w, slash ∉ d := by
    intro d hd
    rcases List.mem_append.mp hd with hd | hd
    · exact hslashU d hd
    · rcases List.mem_cons.mp hd with rfl | hd
      · exact hslashName d (List.mem_singleton_self d)
      · exact hslashW d (List.mem_cons_of_mem dir hd)
  have hsame := key_eq_of_searchParams hdirs hkey (by simp) hwalk
    (h paths paths (List.Perm.refl _) (List.Perm.refl _) (preferring dir) (preferring dir')
      (glue slash (u ++ fresh :: w)) [])
  rw [hfork dir' hdir'] at hsame
  obtain ⟨key, hbehind, heq⟩ := Option.map_eq_some_iff.mp hsame
  obtain rfl : key = w := by simpa using heq
  have hne : after dir' (behind u (paths.map (cut slash))) ≠ [] := by
    rw [Ne, after_eq_nil_iff, not_not, mem_heads_iff_begins, begins_behind]
    exact hdir'
  exact begins_behind.mp (begins_after.mp (begins_of_walk hne hbehind))

end

/-- Searches do not depend on any order exactly when the forks of the paths are even. -/
theorem orderFree_iff (paths : List Bytes) : OrderFree paths ↔ EvenForks (paths.map (cut slash)) := by
  constructor
  · intro h
    exact ⟨fun _ _ _ hp hd hbegins hbegins' => h.name hp hd hbegins hbegins',
      fun _ _ _ _ hp hparam hdir hdir' _ hw => h.rest hp hparam hdir hdir' hw⟩
  · intro h inserted inserted' hperm hperm' order order' path paramIdxs
    have hsame : ∀ u, Begins (paths.map (cut slash)) u ↔ Begins (inserted.map (cut slash)) u :=
      begins_congr (hperm.map (cut slash)).symm
    have hsame' : ∀ u, Begins (paths.map (cut slash)) u ↔ Begins (inserted'.map (cut slash)) u :=
      begins_congr (hperm'.map (cut slash)).symm
    obtain ⟨hwalk, hcaptures⟩ := h.walk_congr hsame order order (fragments path) 0
    obtain ⟨hwalk', hcaptures'⟩ := h.walk_congr hsame' order order' (fragments path) 0
    rw [fragments_fst] at hwalk hwalk'
    rw [searchParams_insertAll, searchParams_insertAll, ← hwalk, ← hwalk', ← hcaptures, ← hcaptures']

/-- Equal up to the names of the parameters. -/
def SameTemplate (path path' : Bytes) : Prop :=
  List.Forall₂ (fun dir dir' => dir = dir' ∨ isParamDir dir ∧ isParamDir dir') (cut slash path)
    (cut slash path')

/-- A name kept for a longer path is used for a shorter one. -/
theorem name_of_last_path : ¬∀ paths : List Bytes,
    paths.Pairwise (fun path path' => ¬SameTemplate path path') → OrderFree paths := by
  intro hclaim
  have hfree := hclaim [lit "/a/{x}", lit "/a/{y}/b"] (by
    refine List.pairwise_pair.mpr fun h => ?_
    have hlen := h.length_eq
    revert hlen
    decide)
  have hname : lit "{x}" = lit "{y}" := @OrderFree.name _ hfree [[], lit "a"] _ _ (by decide)
    (by decide) ⟨cut slash (lit "/a/{x}"), by simp, by decide⟩
    ⟨cut slash (lit "/a/{y}/b"), by simp, by decide⟩
  revert hname
  decide

end OasValidator.PathTrie
