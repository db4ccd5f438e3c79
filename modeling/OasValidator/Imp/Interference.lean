import OasValidator.Imp.Completeness

/-! One more declared path, and the requests it does not match.  The path leaves a request alone when
the request is declared as it stands, when no declared path answers it before or after, and when the
walk of the request takes the fragments of its key from the same nodes as before. -/

namespace OasValidator

open Library.Cut Library.Table Library.Words PathTrie

/-- `doc'` declares one path more than `doc`, for one method. -/
def AddsPath (m : HttpMethod) (added : Bytes) (doc doc' : Json) : Prop :=
  ∃ before behind, declared doc m = before ++ behind ∧ declared doc' m = before ++ added :: behind ∧
    ∀ m', m' ≠ m → declared doc' m' = declared doc m'

/-- At each node on the way, through two lists of templates, the fragment of the request is a child in
both, or in none and the parameter inserted last is the same in both.  Behind a parameter the table of
children may begin with another child as long as this goes on below it. -/
inductive SameKey (order : Hashing) : List (List Bytes) → List (List Bytes) → List Bytes → Prop where
  | done (L L' : List (List Bytes)) : SameKey order L L' []
  | literal {L L' : List (List Bytes)} {dir : Bytes} {dirs : List Bytes} (h : dir ∈ heads L)
      (h' : dir ∈ heads L') (hrest : SameKey order (after dir L) (after dir L') dirs) :
      SameKey order L L' (dir :: dirs)
  | param {L L' : List (List Bytes)} {dir name child child' : Bytes} {dirs : List Bytes}
      (h : dir ∉ heads L) (h' : dir ∉ heads L') (hname : (paramHeads L).getLast? = some name)
      (hname' : (paramHeads L').getLast? = some name) (hchild : order.first (firsts L) = some child)
      (hchild' : order.first (firsts L') = some child')
      (hrest : SameKey order (after child L) (after child' L') dirs) : SameKey order L L' (dir :: dirs)

theorem mem_heads_of_last {L : List (List Bytes)} {name : Bytes}
    (h : (paramHeads L).getLast? = some name) : name ∈ heads L :=
  (mem_heads_of_mem_paramHeads (List.mem_of_getLast? h)).1

/-- Two walks put the same key together exactly if they take its fragments from the same nodes. -/
theorem sameKey_iff {order : Hashing} {L L' : List (List Bytes)} {dirs : List Bytes} :
    SameKey order L L' dirs ↔ ∃ key, Follows order L dirs key ∧ Follows order L' dirs key := by
  constructor
  · intro h
    induction h with
    | done L L' => exact ⟨[], .done L, .done L'⟩
    | literal h h' _ ih =>
      obtain ⟨key, hkey, hkey'⟩ := ih
      exact ⟨_, .literal h hkey, .literal h' hkey'⟩
    | param h h' hname hname' hchild hchild' _ ih =>
      obtain ⟨key, hkey, hkey'⟩ := ih
      exact ⟨_, .param h hname hchild hkey, .param h' hname' hchild' hkey'⟩
  · rintro ⟨key, hfollows, hfollows'⟩
    induction hfollows generalizing L' with
    | done L => exact .done L L'
    | literal h _ ih =>
      cases hfollows' with
      | literal h' hrest' => exact .literal h h' (ih hrest')
      | param h' hname' _ _ => exact absurd (mem_heads_of_last hname') h'
    | param h hname hchild _ ih =>
      cases hfollows' with
      | literal h' _ => exact absurd (mem_heads_of_last hname) h
      | param h' hname' hchild' hrest' =>
        exact .param h h' hname hname' hchild hchild' (ih hrest')

/-- The way of a request through the nodes ends at a declared path. -/
def Answers (order : Hashing) (paths : List Bytes) (path : Bytes) : Prop :=
  ∃ key, Follows order (templates paths) (cut slash path) key ∧ [slash].intercalate key ∈ paths

/-- When one more declared path leaves a request alone. -/
inductive Untouched (order : Hashing) (paths paths' : List Bytes) (added path : Bytes) : Prop
  | direct (h : path ∈ paths)
  | sameKey (h : SameKey order (templates paths) (templates paths') (cut slash path))
      (hkey : ∀ key, Follows order (templates paths) (cut slash path) key →
        [slash].intercalate key = added → added ∈ paths)
  | missed (h : ¬Answers order paths path) (h' : ¬Answers order paths' path)

section

variable {order : Hashing} {paths : List Bytes} {path : Bytes}

theorem route_of_not_mem (h : path ∉ paths) {p : Bytes} :
    route order paths path = some p ↔ ∃ key, Follows order (templates paths) (cut slash path) key ∧
      [slash].intercalate key = p ∧ p ∈ paths := by
  rw [route, if_neg h]
  simp only [Option.bind_eq_some_iff, ← follows_iff_walk, ← dropLast_glue]
  refine exists_congr fun key => and_congr_right fun _ => ?_
  constructor
  · intro hkey
    split at hkey
    · rename_i hmem
      obtain rfl := Option.some.inj hkey
      exact ⟨rfl, hmem⟩
    · simp at hkey
  · rintro ⟨rfl, hmem⟩
    rw [if_pos hmem]

theorem route_eq_none_iff_answers (h : path ∉ paths) :
    route order paths path = none ↔ ¬Answers order paths path := by
  rw [← not_iff_not, not_not, ← ne_eq, Option.ne_none_iff_exists']
  simp only [route_of_not_mem h, Answers]
  exact ⟨fun ⟨_, key, hkey, hp, hmem⟩ => ⟨key, hkey, hp ▸ hmem⟩,
    fun ⟨key, hkey, hmem⟩ => ⟨_, key, hkey, rfl, hmem⟩⟩

/-- A key that stands for a path is known from its text. -/
theorem key_of_text {L L' : List (List Bytes)} {dirs key key' : List Bytes}
    (hL : ∀ w ∈ L, ∀ f ∈ w, slash ∉ f) (hL' : ∀ w ∈ L', ∀ f ∈ w, slash ∉ f)
    (h : Follows order L dirs key) (h' : Follows order L' dirs key')
    (htext : [slash].intercalate key = [slash].intercalate key') : key = key' := by
  have hw := follows_iff_walk.mp h
  have hw' := follows_iff_walk.mp h'
  have hlength : key.length = key'.length :=
    (walk_stands hw).length_eq.trans (walk_stands hw').length_eq.symm
  cases key with
  | nil => exact (List.length_eq_zero_iff.mp hlength.symm).symm
  | cons f fs =>
    have hne' : key' ≠ [] := by
      rintro rfl
      simp at hlength
    have hs := List.splitOn_intercalate slash (walk_no_slash hw hL) (List.cons_ne_nil f fs)
    rw [← hs, htext, List.splitOn_intercalate slash (walk_no_slash hw' hL') hne']

end

/-- A path that is not the request itself leaves the answer to it as it is exactly if it leaves the
request alone. -/
theorem route_eq_iff {order : Hashing} {before behind : List Bytes} {added path : Bytes}
    (hnot : added ≠ path) :
    route order (before ++ added :: behind) path = route order (before ++ behind) path ↔
      Untouched order (before ++ behind) (before ++ added :: behind) added path := by
  have hmem : ∀ p, p ≠ added → (p ∈ before ++ added :: behind ↔ p ∈ before ++ behind) := by
    intro p hp
    simp [hp]
  have hsub : ∀ p ∈ before ++ behind, p ∈ before ++ added :: behind := by
    intro p hp
    by_cases hadded : p = added
    · simp [hadded]
    · exact (hmem p hadded).mpr hp
  by_cases hdirect : path ∈ before ++ behind
  · refine iff_of_true ?_ (.direct hdirect)
    rw [route, route, if_pos hdirect, if_pos (hsub path hdirect)]
  have hdirect' : path ∉ before ++ added :: behind := mt (hmem path (Ne.symm hnot)).mp hdirect
  constructor
  · intro hroute
    cases hr : route order (before ++ behind) path with
    | none =>
      rw [hr] at hroute
      exact .missed ((route_eq_none_iff_answers hdirect).mp hr)
        ((route_eq_none_iff_answers hdirect').mp hroute)
    | some p =>
      rw [hr] at hroute
      obtain ⟨key, hkey, hp, hin⟩ := (route_of_not_mem hdirect).mp hr
      obtain ⟨key', hkey', hp', -⟩ := (route_of_not_mem hdirect').mp hroute
      obtain rfl := key_of_text templates_no_slash templates_no_slash hkey hkey' (hp.trans hp'.symm)
      refine .sameKey (sameKey_iff.mpr ⟨key, hkey, hkey'⟩) fun key'' hkey'' htext => ?_
      have hsame : key'' = key :=
        Option.some.inj ((follows_iff_walk.mp hkey'').symm.trans (follows_iff_walk.mp hkey))
      rw [← htext, hsame, hp]
      exact hin
  · intro h
    cases h with
    | direct h => exact absurd h hdirect
    | missed h h' =>
      rw [(route_eq_none_iff_answers hdirect).mpr h, (route_eq_none_iff_answers hdirect').mpr h']
    | sameKey h hadded =>
      obtain ⟨key, hkey, hkey'⟩ := sameKey_iff.mp h
      rw [route, route, if_neg hdirect, if_neg hdirect', follows_iff_walk.mp hkey,
        follows_iff_walk.mp hkey', Option.bind_some, Option.bind_some]
      have hiff : (glue slash key).dropLast ∈ before ++ added :: behind ↔
          (glue slash key).dropLast ∈ before ++ behind := by
        by_cases htext : [slash].intercalate key = added
        · rw [dropLast_glue, htext]
          exact iff_of_true (by simp) (hadded key hkey htext)
        · rw [dropLast_glue]
          exact hmem _ htext
      simp only [hiff]

/-- The lookups come to a method: no method in front of it has an answer. -/
def ComesTo (order : Hashing) (paths : HttpMethod → List Bytes) (path : Bytes) (m : HttpMethod) :
    List HttpMethod → Prop
  | [] => False
  | m' :: rest => m' = m ∨ route order (paths m') path = none ∧ ComesTo order paths path m rest

theorem routed_cons (order : Hashing) (paths : HttpMethod → List Bytes) (path : Bytes)
    (m : HttpMethod) (rest : List HttpMethod) :
    routed order paths path (m :: rest) =
      match route order (paths m) path with
      | some key => some (m, key)
      | none => routed order paths path rest := by
  rw [routed, List.findSome?_cons]
  cases route order (paths m) path <;> rfl

/-- With another list of paths for one method, the lookup comes to the same answer exactly if it does not
come to this method or the answer of the method is the same. -/
theorem routed_eq_iff {order : Hashing} {paths paths' : HttpMethod → List Bytes} {path : Bytes}
    {m : HttpMethod} (hother : ∀ m', m' ≠ m → paths' m' = paths m') (methods : List HttpMethod) :
    routed order paths' path methods = routed order paths path methods ↔
      (ComesTo order paths path m methods →
        route order (paths' m) path = route order (paths m) path) := by
  induction methods with
  | nil => exact iff_of_true rfl fun h => h.elim
  | cons m' rest ih =>
    rw [routed_cons, routed_cons, ComesTo]
    by_cases hm : m' = m
    · subst hm
      simp only [true_or, forall_const]
      constructor
      · intro h
        cases hr : route order (paths m') path with
        | some key =>
          simp only [hr] at h
          cases hr' : route order (paths' m') path with
          | some key' => simpa [hr'] using h
          | none =>
            simp only [hr'] at h
            exact hr'.symm.trans (routed_spec h).2
        | none =>
          simp only [hr] at h
          cases hr' : route order (paths' m') path with
          | none => rfl
          | some key' =>
            simp only [hr'] at h
            exact hr.symm.trans (routed_spec h.symm).2 |>.symm
      · intro h
        rw [h]
        cases hr : route order (paths m') path with
        | some key => rfl
        | none => exact ih.mpr fun _ => h
    · rw [hother m' hm]
      cases route order (paths m') path with
      | some key => simp [hm]
      | none => simpa [hm] using ih

section

variable {σ : Type} {rj : RapidJson σ} {order : Hashing} {files : Bytes → Option Bytes}
  {oasSpecs oasSpecs' : Bytes} {methodMap : MethodMap} {doc doc' : Json}
  {imp imp' : OASValidatorImp σ}

/-- Adding a path that a request does not match changes neither the code of the lookup nor the path it
selects, exactly if the lookup does not come to the method of the path, or the path leaves the request
alone. -/
theorem lookup_iff_untouched (h : Constructs rj order files oasSpecs methodMap doc imp)
    (h' : Constructs rj order files oasSpecs' methodMap doc' imp') {m : HttpMethod}
    {added httpPath : Bytes} (hadds : AddsPath m added doc doc')
    (hnot : ¬SegmentsMatch added (pathPart httpPath))
    (method errorMsg : Bytes) (paramIdxs : Option ParamIdxs) (query : Option Bytes) :
    (∃ found found', imp.getValidators order method httpPath errorMsg paramIdxs query = .ok found ∧
      imp'.getValidators order method httpPath errorMsg paramIdxs query = .ok found' ∧
      found'.code = found.code ∧ found'.validators = found.validators) ↔
      (method ∈ kValidMethods →
        ComesTo order (declared doc) (pathPart httpPath) m
          (candidates order (buildCaseInsensitiveMap order methodMap) method) →
        Untouched order (declared doc m) (declared doc' m) added (pathPart httpPath)) := by
  obtain ⟨before, behind, hD, hD', hother⟩ := hadds
  obtain ⟨hreg, hmap, -⟩ := h.registered
  obtain ⟨hreg', hmap', -⟩ := h'.registered
  by_cases hvalid : method ∈ kValidMethods
  · obtain ⟨found, hfound, hin⟩ :=
      getValidators_registered order hreg hvalid httpPath errorMsg paramIdxs query
    obtain ⟨found', hfound', hin'⟩ :=
      getValidators_registered order hreg' hvalid httpPath errorMsg paramIdxs query
    have hne : added ≠ pathPart httpPath := by
      rintro rfl
      exact hnot (segmentsMatch_self _)
    have hroute := @route_eq_iff order before behind added (pathPart httpPath) hne
    rw [← hD, ← hD'] at hroute
    have hsame : found'.validators = found.validators ↔ _ :=
      (iff_of_eq (by rw [hin.validators, hin'.validators, hmap, hmap'])).trans
        (@routed_eq_iff _ _ _ (pathPart httpPath) _ hother
          (candidates order (buildCaseInsensitiveMap order methodMap) method))
    simp only [hvalid, forall_const, ← hroute, ← hsame]
    constructor
    · rintro ⟨f, f', hf, hf', -, hv⟩
      obtain rfl := Except.ok.inj (hfound.symm.trans hf)
      obtain rfl := Except.ok.inj (hfound'.symm.trans hf')
      exact hv
    · intro hv
      exact ⟨found, found', hfound, hfound', by rw [hin.code, hin'.code, hv], hv⟩
  · obtain ⟨found, hfound, hcode, hv, -⟩ :=
      getValidators_invalid order imp hvalid httpPath errorMsg paramIdxs query
    obtain ⟨found', hfound', hcode', hv', -⟩ :=
      getValidators_invalid order imp' hvalid httpPath errorMsg paramIdxs query
    refine iff_of_true ⟨found, found', hfound, hfound', ?_, ?_⟩ fun hmem => absurd hmem hvalid
    · rw [hcode, hcode']
    · rw [hv, hv']

end

/-- Paths of one method, without anything else. -/
def pathsSpec (paths : List Bytes) : Bytes :=
  lit "\x7b\"paths\":\x7b" ++
    [comma].intercalate (paths.map fun p => [quote] ++ p ++ lit "\":\x7b\"get\":\x7b\x7d\x7d") ++
    lit "\x7d\x7d"

/-- The paths declared under each method. -/
def declaredUnderAll (doc : Json) : List (List Bytes) :=
  [HttpMethod.GET, .POST, .PUT, .DELETE, .HEAD, .OPTIONS, .PATCH, .CONNECT, .TRACE].map (declared doc)

theorem addsPath_get {doc doc' : Json} {before behind : List Bytes} {added : Bytes}
    (h : declaredUnderAll doc = (before ++ behind) :: List.replicate 8 [])
    (h' : declaredUnderAll doc' = (before ++ added :: behind) :: List.replicate 8 []) :
    AddsPath .GET added doc doc' := by
  simp only [declaredUnderAll, List.map_cons, List.map_nil, List.replicate, List.cons.injEq,
    and_true] at h h'
  obtain ⟨hget, h1, h2, h3, h4, h5, h6, h7, h8⟩ := h
  obtain ⟨hget', h1', h2', h3', h4', h5', h6', h7', h8'⟩ := h'
  refine ⟨before, behind, hget, hget', fun m' hm => ?_⟩
  cases m' <;> simp_all

theorem lookup_iff_untouched_child :
    ∃ (doc doc' : Json) (imp imp' : OASValidatorImp Json) (found found' : Found),
      Constructs RapidJson.plain .insertion (fun _ => none) (pathsSpec [lit "/a/\x7bx\x7d"]) []
        doc imp ∧
      Constructs RapidJson.plain .insertion (fun _ => none)
        (pathsSpec [lit "/a/\x7bx\x7d", lit "/a/\x7bx\x7d/c"]) [] doc' imp' ∧
      imp.getValidators .insertion (lit "GET") (lit "/a/1") [] none none = .ok found ∧
      imp'.getValidators .insertion (lit "GET") (lit "/a/1") [] none none = .ok found' ∧
      found'.code = found.code ∧ found'.validators = found.validators := by
  have hrun : trial (pathsSpec [lit "/a/\x7bx\x7d"]) (fun doc _ => declaredUnderAll doc) =
      some (.ok (([lit "/a/\x7bx\x7d"] ++ []) :: List.replicate 8 [])) := by
    decide +kernel
  have hrun' : trial (pathsSpec [lit "/a/\x7bx\x7d", lit "/a/\x7bx\x7d/c"])
      (fun doc _ => declaredUnderAll doc) =
      some (.ok (([lit "/a/\x7bx\x7d"] ++ [lit "/a/\x7bx\x7d/c"]) :: List.replicate 8 [])) := by
    decide +kernel
  obtain ⟨doc, imp, hdoc, hpaths⟩ := trial_spec hrun
  obtain ⟨doc', imp', hdoc', hpaths'⟩ := trial_spec hrun'
  have hget : declared doc .GET = [lit "/a/\x7bx\x7d"] := (List.cons.inj hpaths).1
  have hget' : declared doc' .GET = [lit "/a/\x7bx\x7d", lit "/a/\x7bx\x7d/c"] :=
    (List.cons.inj hpaths').1
  have hnot : ¬SegmentsMatch (lit "/a/\x7bx\x7d/c") (pathPart (lit "/a/1")) := by
    have hx : segments (lit "/a/\x7bx\x7d/c") = [[], lit "a", lit "\x7bx\x7d", lit "c"] := by
      decide
    have hr : segments (pathPart (lit "/a/1")) = [[], lit "a", lit "1"] := by
      decide
    rw [SegmentsMatch, hx, hr]
    decide
  have huntouched : Untouched .insertion (declared doc .GET) (declared doc' .GET)
      (lit "/a/\x7bx\x7d/c") (pathPart (lit "/a/1")) := by
    rw [hget, hget']
    have hfollows : Follows .insertion (templates [lit "/a/\x7bx\x7d"])
        (cut slash (pathPart (lit "/a/1"))) [[], lit "a", lit "\x7bx\x7d"] :=
      follows_iff_walk.mpr (by decide)
    have hfollows' : Follows .insertion (templates [lit "/a/\x7bx\x7d", lit "/a/\x7bx\x7d/c"])
        (cut slash (pathPart (lit "/a/1"))) [[], lit "a", lit "\x7bx\x7d"] :=
      follows_iff_walk.mpr (by decide)
    refine .sameKey (sameKey_iff.mpr ⟨_, hfollows, hfollows'⟩) fun key hkey htext => ?_
    obtain rfl := Option.some.inj
      ((follows_iff_walk.mp hkey).symm.trans (follows_iff_walk.mp hfollows))
    exact absurd htext (by decide)
  obtain ⟨found, found', hfound, hfound', hcode, hv⟩ := (lookup_iff_untouched hdoc hdoc'
    (addsPath_get hpaths hpaths') hnot (lit "GET") [] none none).mpr fun _ _ => huntouched
  exact ⟨doc, doc', imp, imp', found, found', hdoc, hdoc', hfound, hfound', hcode, hv⟩

/-- With `/a/{x}` alone, the request `/a/b` is answered; it is not once `/a/b/{z}` is declared too. -/
theorem sibling_interferes : ¬∀ (rj : RapidJson Json) (order : Hashing)
    (files : Bytes → Option Bytes) (oasSpecs oasSpecs' : Bytes) (methodMap : MethodMap)
    (doc doc' : Json) (imp imp' : OASValidatorImp Json),
      Constructs rj order files oasSpecs methodMap doc imp →
      Constructs rj order files oasSpecs' methodMap doc' imp' →
      ∀ (m : HttpMethod) (added httpPath : Bytes), AddsPath m added doc doc' →
      ¬SegmentsMatch added (pathPart httpPath) →
      ∀ (method errorMsg : Bytes) (paramIdxs : Option ParamIdxs) (query : Option Bytes)
        (found found' : Found),
        imp.getValidators order method httpPath errorMsg paramIdxs query = .ok found →
        imp'.getValidators order method httpPath errorMsg paramIdxs query = .ok found' →
          found'.code = found.code ∧ found'.validators = found.validators := by
  intro h
  have hrun : trial (pathsSpec [lit "/a/\x7bx\x7d"])
      (fun doc imp => (declaredUnderAll doc, lookupGet (lit "/a/b") imp)) =
      some (.ok (([lit "/a/\x7bx\x7d"] ++ []) :: List.replicate 8 [],
        .ok ⟨.NONE, [], some [(2, ⟨3, 4⟩)], none, some (.GET, lit "/a/\x7bx\x7d")⟩)) := by
    decide +kernel
  have hrun' : trial (pathsSpec [lit "/a/\x7bx\x7d", lit "/a/b/\x7bz\x7d"])
      (fun doc imp => (declaredUnderAll doc, lookupGet (lit "/a/b") imp)) =
      some (.ok (([lit "/a/\x7bx\x7d"] ++ [lit "/a/b/\x7bz\x7d"]) :: List.replicate 8 [],
        .ok ⟨.INVALID_ROUTE, invalidRoute (lit "GET") (lit "/a/b"), some [], none, none⟩)) := by
    decide +kernel
  obtain ⟨doc, imp, hdoc, hask⟩ := trial_spec hrun
  obtain ⟨hpaths, hfound⟩ := Prod.mk.inj hask
  obtain ⟨doc', imp', hdoc', hask'⟩ := trial_spec hrun'
  obtain ⟨hpaths', hfound'⟩ := Prod.mk.inj hask'
  have hnot : ¬SegmentsMatch (lit "/a/b/\x7bz\x7d") (pathPart (lit "/a/b")) := by
    have hz : segments (lit "/a/b/\x7bz\x7d") = [[], lit "a", lit "b", lit "\x7bz\x7d"] := by
      decide
    have hr : segments (pathPart (lit "/a/b")) = [[], lit "a", lit "b"] := by
      decide
    rw [SegmentsMatch, hz, hr]
    decide
  have hsame := h _ _ _ _ _ _ doc doc' imp imp' hdoc hdoc' .GET (lit "/a/b/\x7bz\x7d")
    (lit "/a/b") (addsPath_get hpaths hpaths') hnot _ _ _ _ _ _ hfound hfound'
  simp at hsame

end OasValidator
