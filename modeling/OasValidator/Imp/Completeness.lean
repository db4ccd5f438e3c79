import OasValidator.Imp.Soundness

/-! Which requests find the path they were made from.  A request that is an instance of one declared
path alone selects it just when it is that path as it stands, or the path does not end in a slash and
`Follows` holds: at each node on the way the fragment of the request is a child and the fragment of the
path, or it is no child, the fragment of the path is the parameter inserted last there, and the rest is
found behind the child that comes first in the table of children. -/

namespace OasValidator

open Library.Cut Library.Table Library.Words PathTrie

/-- The text between slashes, a slash at the end having an empty segment behind it. -/
abbrev segments (path : Bytes) : List Bytes := path.splitOn slash

/-- Each segment is a name in braces or has no braces. -/
def WholeSegments (path : Bytes) : Prop :=
  ∀ f ∈ segments path, (paramName? f).isSome ∨ (openBrace ∉ f ∧ closeBrace ∉ f)

/-- Values in place of the parameters. -/
def InstanceOf (path request : Bytes) : Prop :=
  List.Forall₂ (fun f r => if (paramName? f).isSome then r ≠ [] ∧ question ∉ r else r = f)
    (segments path) (segments request)

/-- The request matches the path segment by segment. -/
def SegmentsMatch (path request : Bytes) : Prop :=
  List.Forall₂ (fun f r => f = r ∨ ((paramName? f).isSome ∧ r ≠ [])) (segments path)
    (segments request)

/-- Two paths that are equal up to the names of their parameters. -/
def EqualUpToNames (path path' : Bytes) : Prop :=
  List.Forall₂ (fun f f' => f = f' ∨ ((paramName? f).isSome ∧ (paramName? f').isSome))
    (segments path) (segments path')

/-- The fragments of a path come up one after the other on the way of a request through the nodes that
declared paths lead to. -/
inductive Follows (order : Hashing) : List (List Bytes) → List Bytes → List Bytes → Prop where
  | done (L : List (List Bytes)) : Follows order L [] []
  | literal {L : List (List Bytes)} {dir : Bytes} {dirs key : List Bytes} (h : dir ∈ heads L)
      (hrest : Follows order (after dir L) dirs key) : Follows order L (dir :: dirs) (dir :: key)
  | param {L : List (List Bytes)} {dir name child : Bytes} {dirs key : List Bytes}
      (h : dir ∉ heads L) (hname : (paramHeads L).getLast? = some name)
      (hchild : order.first (firsts L) = some child)
      (hrest : Follows order (after child L) dirs key) : Follows order L (dir :: dirs) (name :: key)

theorem follows_iff_walk {order : Hashing} {L : List (List Bytes)} {dirs key : List Bytes} :
    Follows order L dirs key ↔ walk order L dirs = some key := by
  constructor
  · intro h
    induction h with
    | done L => rfl
    | literal h _ ih => simp [walk, turn_of_mem h, ih]
    | param h hname hchild _ ih => simp [walk, turn, h, hname, hchild, ih]
  · intro h
    induction dirs generalizing L key with
    | nil =>
      obtain rfl : key = [] := by simpa [walk] using h.symm
      exact .done L
    | cons dir rest ih =>
      unfold walk at h
      split at h
      · simp at h
      · rename_i fragment child ht
        obtain ⟨key', hkey, rfl⟩ := Option.map_eq_some_iff.mp h
        rcases (turn_fragment ht).2.2 with ⟨hm, rfl, rfl⟩ | ⟨hm, hname, hchild⟩
        · exact .literal hm (ih hkey)
        · exact .param hm hname hchild (ih hkey)

/-! ### Segments and fragments -/

theorem intercalate_segments (path : Bytes) : [slash].intercalate (segments path) = path :=
  List.intercalate_splitOn slash

theorem segments_eq (path : Bytes) :
    segments path = if path = [] ∨ path.getLast? = some slash then cut slash path ++ [[]]
      else cut slash path := by
  have hcut : ∀ f ∈ cut slash path, slash ∉ f := fun f hf => sep_not_mem_of_mem_cut hf
  split
  · rename_i h
    have hglue : [slash].intercalate (cut slash path ++ [[]]) = path := by
      rw [← dropLast_glue, glue_append, glue_cut, if_pos h]
      simp
    calc segments path = ([slash].intercalate (cut slash path ++ [[]])).splitOn slash := by rw [hglue]
      _ = cut slash path ++ [[]] := by
        apply List.splitOn_intercalate
        · intro f hf
          rcases List.mem_append.mp hf with hf | hf
          · exact hcut f hf
          · simp [show f = [] by simpa using hf]
        · simp
  · rename_i h
    obtain ⟨hne, hlast⟩ := not_or.mp h
    have hglue : [slash].intercalate (cut slash path) = path := by
      rw [← dropLast_glue, dropLast_glue_cut hlast]
    calc segments path = ([slash].intercalate (cut slash path)).splitOn slash := by rw [hglue]
      _ = cut slash path := List.splitOn_intercalate slash hcut (cut_ne_nil slash hne)

theorem mem_cut_of_mem_segments {path f : Bytes} (h : f ∈ segments path) (hf : f ≠ []) :
    f ∈ cut slash path := by
  rw [segments_eq] at h
  split at h
  · rcases List.mem_append.mp h with h | h
    · exact h
    · exact absurd (by simpa using h) hf
  · exact h

theorem question_mem_segment {path : Bytes} (h : question ∈ path) :
    ∃ f ∈ segments path, question ∈ f := by
  rw [← intercalate_segments path, ← dropLast_glue] at h
  obtain ⟨f, hf, hq⟩ := List.mem_flatMap.mp (List.dropLast_subset _ h)
  have hne : question ≠ slash := by decide
  rcases List.mem_append.mp hq with hq | hq
  · exact ⟨f, hf, hq⟩
  · exact absurd (List.mem_singleton.mp hq) hne

theorem pathPart_eq_self {httpPath : Bytes} (h : question ∉ httpPath) :
    pathPart httpPath = httpPath := by
  rw [pathPart, List.takeWhile_eq_self_iff]
  intro b hb
  simpa using fun hq : b = question => h (hq ▸ hb)

theorem question_not_mem_pathPart (httpPath : Bytes) : question ∉ pathPart httpPath := by
  intro h
  simpa using List.mem_takeWhile_imp h

theorem segmentsMatch_self (path : Bytes) : SegmentsMatch path path :=
  List.forall₂_same.mpr fun _ _ => Or.inl rfl

/-! ### Instances -/

section

variable {path request : Bytes}

/-- A question mark in an instance stands in a segment without braces. -/
theorem question_fragment (hwhole : WholeSegments path) (hinst : InstanceOf path request)
    (h : question ∈ request) : ∃ f ∈ cut slash path, question ∈ f ∧ openBrace ∉ f := by
  obtain ⟨r, hr, hq⟩ := question_mem_segment h
  obtain ⟨i, hi, rfl⟩ := List.getElem_of_mem hr
  have hi' : i < (segments path).length := hinst.length_eq ▸ hi
  have hrel := hinst.get hi' hi
  simp only [List.get_eq_getElem] at hrel
  have hmem : (segments path)[i] ∈ segments path := List.getElem_mem hi'
  split at hrel
  · exact absurd hq hrel.2
  · rename_i hname
    rw [hrel] at hq
    rcases hwhole _ hmem with hsome | ⟨hopen, -⟩
    · exact absurd hsome hname
    · exact ⟨_, mem_cut_of_mem_segments hmem (List.ne_nil_of_mem hq), hq, hopen⟩

/-- No key made for the path part holds such a segment. -/
theorem question_not_stands {key : List Bytes} {f : Bytes}
    (h : List.Forall₂ Stands key (cut slash (pathPart request))) (hf : f ∈ key)
    (hq : question ∈ f) : openBrace ∈ f := by
  obtain ⟨i, hi, rfl⟩ := List.getElem_of_mem hf
  have hi' : i < (cut slash (pathPart request)).length := h.length_eq ▸ hi
  have hstands := h.get hi hi'
  simp only [List.get_eq_getElem] at hstands
  rcases hstands with heq | hparam
  · have hmem : question ∈ (cut slash (pathPart request))[i] := heq ▸ hq
    have hseg : question ∈ glue slash (cut slash (pathPart request)) :=
      List.mem_flatMap.mpr ⟨_, List.getElem_mem hi', List.mem_append_left _ hmem⟩
    rw [glue_cut] at hseg
    have hnot := question_not_mem_pathPart request
    split at hseg
    · exact absurd hseg hnot
    · rcases List.mem_append.mp hseg with h' | h'
      · exact absurd h' hnot
      · exact absurd (List.mem_singleton.mp h') (by decide)
  · exact List.mem_of_mem_head? (by simpa [isParamDir] using hparam)

/-- A path that ends in a slash has instances that end in one. -/
theorem length_cut_of_slash (hinst : InstanceOf path request) (hslash : path.getLast? = some slash) :
    (cut slash request).length = (cut slash path).length := by
  have hsegs : segments path = cut slash path ++ [[]] := by
    rw [segments_eq, if_pos (Or.inr hslash)]
  have hlength : (segments request).length = (cut slash path).length + 1 := by
    rw [← hinst.length_eq, hsegs]
    simp
  obtain ⟨front, last, hrequest⟩ : ∃ front last, segments request = front ++ [last] := by
    rcases List.eq_nil_or_concat (segments request) with h | ⟨front, last, h⟩
    · simp [h] at hlength
    · exact ⟨front, last, by simpa using h⟩
  have hfront : front.length = (cut slash path).length := by
    rw [hrequest] at hlength
    simpa using hlength
  -- the last segment of the path is empty, and so is that of its instance
  obtain rfl : last = [] := by
    have hrel := hinst.get (i := front.length) (by simp [hsegs, hfront]) (by simp [hrequest])
    simpa [hsegs, hrequest, hfront, paramName?] using hrel
  have hglue : request = glue slash front := by
    rw [← intercalate_segments request, hrequest, ← dropLast_glue, glue_append]
    simp
  have hcut : cut slash request = front := by
    rw [hglue]
    apply cut_glue
    intro f hf hmem
    have hf' : f ∈ segments request := hrequest ▸ List.mem_append_left _ hf
    exact sep_not_mem_of_mem_cut (mem_cut_of_mem_segments hf' (List.ne_nil_of_mem hmem)) hmem
  rw [hcut, hfront]

/-- A key that is glued to a path that ends in a slash has one fragment more than the path. -/
theorem length_key_of_slash {key : List Bytes} (hkey : ∀ f ∈ key, slash ∉ f)
    (hslash : (glue slash key).dropLast.getLast? = some slash) :
    key.length = (cut slash (glue slash key).dropLast).length + 1 := by
  obtain rfl | ⟨front, last, rfl⟩ : key = [] ∨ ∃ front last, key = front ++ [last] := by
    simpa using List.eq_nil_or_concat key
  · simp at hslash
  have hdrop : (glue slash (front ++ [last])).dropLast = glue slash front ++ last := by
    simp [glue_append, ← List.append_assoc]
  rw [hdrop] at hslash ⊢
  by_cases hl : last = []
  · subst hl
    rw [List.append_nil, cut_glue fun f hf => hkey f (by simp [hf])]
    simp
  · rw [List.getLast?_append_of_ne_nil _ hl] at hslash
    exact absurd (List.mem_of_getLast? hslash) (hkey last (by simp))

end

/-! ### Selection -/

section

variable {order : Hashing} {paths : List Bytes} {path request : Bytes}

theorem route_of_instance (hmem : path ∈ paths) (hwhole : WholeSegments path)
    (hinst : InstanceOf path request)
    (honly : ∀ path' ∈ paths, SegmentsMatch path' request → path' = path) :
    route order paths (pathPart request) = some path ↔
      pathPart request = path ∨ (path.getLast? ≠ some slash ∧
        Follows order (templates paths) (cut slash (pathPart request)) (cut slash path)) := by
  constructor
  · intro h
    obtain ⟨-, ⟨-, rfl⟩ | ⟨-, key, hw, hkey⟩⟩ := route_spec h
    · exact Or.inl rfl
    right
    have hslashes := walk_no_slash hw templates_no_slash
    have hq : question ∉ request := by
      intro hq
      obtain ⟨f, hf, hqf, hopen⟩ := question_fragment hwhole hinst hq
      have hcut : cut slash path <+: key := hkey ▸ cut_dropLast_glue_prefix hslashes
      exact hopen (question_not_stands (walk_stands hw) (hcut.subset hf) hqf)
    rw [pathPart_eq_self hq] at hw ⊢
    have hlast : path.getLast? ≠ some slash := by
      intro hslash
      have hlen := length_key_of_slash hslashes (hkey ▸ hslash)
      rw [← hkey, (walk_stands hw).length_eq, length_cut_of_slash hinst hslash] at hlen
      omega
    refine ⟨hlast, follows_iff_walk.mpr ?_⟩
    by_cases hne : path = []
    · -- the empty path has the empty instance alone
      subst hne
      have hempty : request = [] := by
        have hsegs : segments ([] : Bytes) = [[]] := List.splitOn_nil slash
        rw [InstanceOf, hsegs] at hinst
        obtain ⟨r, rest, hr, hrest, hrequest⟩ := List.forall₂_cons_left_iff.mp hinst
        obtain rfl := List.forall₂_nil_left_iff.mp hrest
        obtain rfl : r = [] := by simpa [paramName?] using hr
        rw [← intercalate_segments request, hrequest]
        rfl
      subst hempty
      rfl
    · rw [hw, hkey, cut_dropLast_glue hslashes (hkey ▸ hlast) (hkey ▸ hne)]
  · intro h
    have hdirect : pathPart request ∈ paths → pathPart request = path := by
      intro hp
      rcases h with h | ⟨-, hfollows⟩
      · exact h
      · have hq : question ∉ request := by
          intro hq
          obtain ⟨f, hf, hqf, hopen⟩ := question_fragment hwhole hinst hq
          exact hopen (question_not_stands (walk_stands (follows_iff_walk.mp hfollows)) hf hqf)
        rw [pathPart_eq_self hq] at hp ⊢
        exact honly _ hp (segmentsMatch_self _)
    by_cases hp : pathPart request ∈ paths
    · rw [route, if_pos hp, hdirect hp]
    · rcases h with h | ⟨hlast, hfollows⟩
      · exact absurd (h ▸ hmem) hp
      · rw [route, if_neg hp, follows_iff_walk.mp hfollows, Option.bind_some,
          dropLast_glue_cut hlast, if_pos hmem]

end

section

variable {σ : Type} {rj : RapidJson σ} {order : Hashing} {files : Bytes → Option Bytes}
  {oasSpecs : Bytes} {methodMap : MethodMap} {doc : Json} {imp : OASValidatorImp σ}

/-- A lookup selects a path of its own method if and only if the path answers among those declared for
the method. -/
theorem selects_iff_route (himp : Registered imp (declared doc)) {method : Bytes} {m : HttpMethod}
    (hmethod : kStringToMethod.lookup method = some m) (httpPath path errorMsg : Bytes)
    (paramIdxs : Option ParamIdxs) (query : Option Bytes) :
    (∃ found, imp.getValidators order method httpPath errorMsg paramIdxs query = .ok found ∧
      found.code = .NONE ∧ found.validators = some (m, path)) ↔
      route order (declared doc m) (pathPart httpPath) = some path := by
  have hvalid : method ∈ kValidMethods := valid_methods.2 _ (mem_of_lookup hmethod)
  obtain ⟨found, hfound, hin⟩ :=
    getValidators_registered order himp hvalid httpPath errorMsg paramIdxs query
  constructor
  · rintro ⟨found', hfound', -, hv⟩
    obtain rfl : found = found' := Except.ok.inj (hfound.symm.trans hfound')
    exact (routed_spec (hin.validators.symm.trans hv)).2
  · intro hroute
    have hrouted : found.validators = some (m, path) := by
      rw [hin.validators, candidates, hmethod]
      cases imp.methodMap.lookup method <;> simp [routed, hroute]
    exact ⟨found, hfound, by simp [hin.code, hrouted], hrouted⟩

/-- A request that is an instance of one declared path, and matches no other, selects this path if and
only if it is the path itself, or the path does not end in a slash and `Follows` holds. -/
theorem selects_iff (h : Constructs rj order files oasSpecs methodMap doc imp) {method : Bytes}
    {m : HttpMethod} (hmethod : kStringToMethod.lookup method = some m) {path request : Bytes}
    (hmem : path ∈ declared doc m) (hwhole : WholeSegments path) (hinst : InstanceOf path request)
    (honly : ∀ path' ∈ declared doc m, SegmentsMatch path' request → path' = path)
    (errorMsg : Bytes) (paramIdxs : Option ParamIdxs) (query : Option Bytes) :
    (∃ found, imp.getValidators order method request errorMsg paramIdxs query = .ok found ∧
      found.code = .NONE ∧ found.validators = some (m, path)) ↔
      pathPart request = path ∨ (path.getLast? ≠ some slash ∧
        Follows order (templates (declared doc m)) (cut slash (pathPart request))
          (cut slash path)) := by
  rw [selects_iff_route h.registered.1 hmethod]
  exact route_of_instance hmem hwhole hinst honly

end

/-- The declared path of `usersSpec` is made of whole segments, and a request is an instance of it. -/
theorem users_instance :
    WholeSegments (lit "/users/\x7bid\x7d") ∧
      InstanceOf (lit "/users/\x7bid\x7d") (lit "/users/7") ∧
      kStringToMethod.lookup (lit "GET") = some .GET := by
  have hfacts : (segments (lit "/users/\x7bid\x7d") = [[], lit "users", lit "\x7bid\x7d"] ∧
      segments (lit "/users/7") = [[], lit "users", lit "7"]) := by
    decide
  rw [WholeSegments, InstanceOf, hfacts.1, hfacts.2]
  decide

theorem selects_iff_users :
    ∃ (doc : Json) (imp : OASValidatorImp Json),
      Constructs RapidJson.plain .insertion (fun _ => none) usersSpec [] doc imp ∧
      ((∃ found, imp.getValidators .insertion (lit "GET") (lit "/users/7") [] none none = .ok found ∧
        found.code = .NONE ∧ found.validators = some (.GET, lit "/users/\x7bid\x7d")) ↔
        pathPart (lit "/users/7") = lit "/users/\x7bid\x7d" ∨
          ((lit "/users/\x7bid\x7d").getLast? ≠ some slash ∧
            Follows .insertion (templates (declared doc .GET))
              (cut slash (pathPart (lit "/users/7"))) (cut slash (lit "/users/\x7bid\x7d")))) := by
  obtain ⟨doc, imp, -, hdoc, hpaths, -⟩ := users_built
  obtain ⟨hwhole, hinst, hget⟩ := users_instance
  refine ⟨doc, imp, hdoc, selects_iff hdoc hget ?_ hwhole hinst ?_ [] none none⟩
  · simp [hpaths]
  · simp [hpaths]

/-- Two paths whose parameters stand at one place under different names. -/
def twinsSpec : Bytes :=
  lit "\x7b\"paths\":\x7b\"/a/\x7bx\x7d/c\":\x7b\"get\":\x7b\x7d\x7d," ++
    lit "\"/a/\x7by\x7d/d\":\x7b\"get\":\x7b\x7d\x7d\x7d\x7d"

/-- With the paths `/a/{x}/c` and `/a/{y}/d`, the request `/a/1/c` is looked up as `/a/{y}/c`. -/
theorem twins_not_selected : ¬∀ (rj : RapidJson Json) (order : Hashing)
    (files : Bytes → Option Bytes) (oasSpecs : Bytes) (methodMap : MethodMap) (doc : Json)
    (imp : OASValidatorImp Json), Constructs rj order files oasSpecs methodMap doc imp →
      ∀ (method : Bytes) (m : HttpMethod), kStringToMethod.lookup method = some m →
      (∀ p ∈ declared doc m, ∀ p' ∈ declared doc m, EqualUpToNames p p' → p = p') →
      ∀ path ∈ declared doc m, WholeSegments path → ∀ request, InstanceOf path request →
      (∀ path' ∈ declared doc m, SegmentsMatch path' request → path' = path) →
        ∃ found, imp.getValidators order method request [] (some []) none = .ok found ∧
          found.code = .NONE ∧ found.validators = some (m, path) := by
  intro h
  have hrun : trial twinsSpec (fun doc imp => (declared doc .GET, lookupGet (lit "/a/1/c") imp)) =
      some (.ok ([lit "/a/\x7bx\x7d/c", lit "/a/\x7by\x7d/d"],
        .ok ⟨.INVALID_ROUTE, invalidRoute (lit "GET") (lit "/a/1/c"), some [(2, ⟨3, 4⟩)], none,
          none⟩)) := by
    decide +kernel
  obtain ⟨doc, imp, hdoc, hask⟩ := trial_spec hrun
  obtain ⟨hpaths, hlookup⟩ := Prod.mk.inj hask
  have hx : segments (lit "/a/\x7bx\x7d/c") = [[], lit "a", lit "\x7bx\x7d", lit "c"] := by
    decide
  have hy : segments (lit "/a/\x7by\x7d/d") = [[], lit "a", lit "\x7by\x7d", lit "d"] := by
    decide
  have hr : segments (lit "/a/1/c") = [[], lit "a", lit "1", lit "c"] := by
    decide
  have hdistinct : ∀ p ∈ declared doc .GET, ∀ p' ∈ declared doc .GET, EqualUpToNames p p' →
      p = p' := by
    simp only [hpaths, List.mem_cons, List.not_mem_nil, or_false, EqualUpToNames]
    rintro p (rfl | rfl) p' (rfl | rfl) hequal
    · rfl
    · rw [hx, hy] at hequal
      revert hequal
      decide
    · rw [hx, hy] at hequal
      revert hequal
      decide
    · rfl
  have honly : ∀ path' ∈ declared doc .GET, SegmentsMatch path' (lit "/a/1/c") →
      path' = lit "/a/\x7bx\x7d/c" := by
    simp only [hpaths, List.mem_cons, List.not_mem_nil, or_false, SegmentsMatch]
    rintro p (rfl | rfl) hmatch
    · rfl
    · rw [hy, hr] at hmatch
      revert hmatch
      decide
  obtain ⟨found, hfound, hcode, -⟩ := h _ _ _ _ _ doc imp hdoc (lit "GET") .GET (by decide)
    hdistinct (lit "/a/\x7bx\x7d/c") (by simp [hpaths])
    (by rw [WholeSegments, hx]; decide) (lit "/a/1/c")
    (by rw [InstanceOf, hx, hr]; decide +kernel) honly
  obtain rfl := Except.ok.inj (hlookup.symm.trans hfound)
  simp at hcode

end OasValidator
