import OasValidator.Imp.Routes

/-! What a found route says about the request, and which ranges of its path were recorded on the way
to it. -/

namespace OasValidator

open Library.Cut Library.Table Library.Scanning PathTrie

/-! ### The methods that a request is looked up under -/

/-- A method answers for a request method: it is the request method, or the map of methods gives it
for the request method in either case. -/
def Serves (methodMap : MethodMap) (method : Bytes) (m : HttpMethod) : Prop :=
  kStringToMethod.lookup method = some m ∨
    ∃ key names name, methodMap.lookup key = some names ∧
      (key.map toLower = method ∨ key.map toUpper = method) ∧ name ∈ names ∧
      kStringToMethod.lookup name = some m

theorem buildCaseInsensitiveMap_lookup {order : Hashing} {methodMap : MethodMap} {method : Bytes}
    {names : List Bytes} (h : (buildCaseInsensitiveMap order methodMap).lookup method = some names) :
    ∃ key, methodMap.lookup key = some names ∧
      (key.map toLower = method ∨ key.map toUpper = method) := by
  have hfold : ∀ (ks : List Bytes) (map : MethodMap), (∀ k ∈ ks, k ∈ keys methodMap) →
      (∀ names, map.lookup method = some names → ∃ key, methodMap.lookup key = some names ∧
        (key.map toLower = method ∨ key.map toUpper = method)) →
      ∀ names, (ks.foldl (fun map key =>
          let methods := (methodMap.lookup key).getD []
          put (key.map toUpper) methods (put (key.map toLower) methods map)) map).lookup method =
            some names →
        ∃ key, methodMap.lookup key = some names ∧
          (key.map toLower = method ∨ key.map toUpper = method) := by
    intro ks
    induction ks with
    | nil => exact fun map _ hmap => hmap
    | cons k ks ih =>
      intro map hks hmap
      apply ih _ fun k' hk' => hks k' (List.mem_cons_of_mem k hk')
      intro names hnames
      obtain ⟨methods, hmethods⟩ := exists_lookup (hks k List.mem_cons_self)
      simp only [lookup_put, hmethods, Option.getD_some] at hnames
      split at hnames
      · rename_i hk
        obtain rfl := Option.some.inj hnames
        exact ⟨k, hmethods, Or.inr (eq_of_beq hk).symm⟩
      · split at hnames
        · rename_i hk
          obtain rfl := Option.some.inj hnames
          exact ⟨k, hmethods, Or.inl (eq_of_beq hk).symm⟩
        · exact hmap names hnames
  exact hfold _ [] (fun k hk => ((order.perm _).mem_iff).mp hk) (fun _ hn => by simp at hn) names h

theorem mem_knownMethods {names : List Bytes} {m : HttpMethod} (h : m ∈ knownMethods names) :
    ∃ name ∈ names, kStringToMethod.lookup name = some m := by
  induction names with
  | nil => simp [knownMethods] at h
  | cons name rest ih =>
    unfold knownMethods at h
    split at h
    · rename_i m' hm'
      rcases List.mem_cons.mp h with rfl | h
      · exact ⟨name, List.mem_cons_self, hm'⟩
      · obtain ⟨name', hname', hlookup⟩ := ih h
        exact ⟨name', List.mem_cons_of_mem name hname', hlookup⟩
    · simp at h

theorem mem_candidates {order : Hashing} {methodMap : MethodMap} {method : Bytes} {m : HttpMethod}
    (h : m ∈ candidates order (buildCaseInsensitiveMap order methodMap) method) :
    Serves methodMap method m := by
  unfold candidates at h
  split at h
  · simp at h
  · rename_i m' hm'
    split at h
    · obtain rfl : m = m' := by simpa using h
      exact Or.inl hm'
    · rename_i names hnames
      rcases List.mem_cons.mp h with rfl | h
      · exact Or.inl hm'
      · obtain ⟨name, hname, hlookup⟩ := mem_knownMethods h
        obtain ⟨key, hkey, hcase⟩ := buildCaseInsensitiveMap_lookup hnames
        exact Or.inr ⟨key, names, name, hkey, hcase, ((order.perm names).mem_iff).mp hname, hlookup⟩

/-! ### The selected path -/

/-- A declared path stands for a request path: it is the path, or it is made of fragments, joined by
slashes, that stand one by one for the fragments of the path. -/
def Matches (declaredPath path : Bytes) : Prop :=
  declaredPath = path ∨
    ∃ key, declaredPath = [slash].intercalate key ∧ List.Forall₂ Stands key (cut slash path)

theorem route_spec {order : Hashing} {paths : List Bytes} {path key : Bytes}
    (h : route order paths path = some key) :
    key ∈ paths ∧ ((path ∈ paths ∧ key = path) ∨ (path ∉ paths ∧ ∃ fragments,
      walk order (templates paths) (cut slash path) = some fragments ∧
        key = (glue slash fragments).dropLast)) := by
  unfold route at h
  split at h
  · rename_i hp
    obtain rfl := Option.some.inj h
    exact ⟨hp, Or.inl ⟨hp, rfl⟩⟩
  · rename_i hp
    obtain ⟨fragments, hw, hk⟩ := Option.bind_eq_some_iff.mp h
    split at hk
    · rename_i hmem
      obtain rfl := Option.some.inj hk
      exact ⟨hmem, Or.inr ⟨hp, fragments, hw, rfl⟩⟩
    · simp at hk

theorem route_matches {order : Hashing} {paths : List Bytes} {path key : Bytes}
    (h : route order paths path = some key) : Matches key path := by
  obtain ⟨-, ⟨-, rfl⟩ | ⟨-, fragments, hw, rfl⟩⟩ := route_spec h
  · exact Or.inl rfl
  · exact Or.inr ⟨fragments, dropLast_glue slash fragments, walk_stands hw⟩

theorem routed_spec {order : Hashing} {paths : HttpMethod → List Bytes} {path key : Bytes}
    {methods : List HttpMethod} {m : HttpMethod} (h : routed order paths path methods = some (m, key)) :
    m ∈ methods ∧ route order (paths m) path = some key := by
  obtain ⟨m', hm', hroute⟩ := List.exists_of_findSome?_eq_some h
  obtain ⟨key', hkey', heq⟩ := Option.map_eq_some_iff.mp hroute
  obtain ⟨rfl, rfl⟩ := Prod.mk.inj heq
  exact ⟨hm', hkey'⟩

section

variable {σ : Type} {rj : RapidJson σ} {order : Hashing} {files : Bytes → Option Bytes}
  {oasSpecs : Bytes} {methodMap : MethodMap} {doc : Json} {imp : OASValidatorImp σ}

/-- A lookup that succeeds selects validators that are registered under a declared path of a method
that serves the request method, and this path stands for the path of the request. -/
theorem found_matches (h : Constructs rj order files oasSpecs methodMap doc imp)
    {method httpPath errorMsg : Bytes} {paramIdxs : Option ParamIdxs} {query : Option Bytes}
    {found : Found}
    (hfound : imp.getValidators order method httpPath errorMsg paramIdxs query = .ok found)
    (hcode : found.code = .NONE) :
    ∃ m key store, found.validators = some (m, key) ∧
      (imp.oasValidators m).perPathValidators.lookup key = some store ∧ key ∈ declared doc m ∧
      Serves methodMap method m ∧ Matches key (pathPart httpPath) := by
  obtain ⟨hreg, hmap, -⟩ := h.registered
  obtain ⟨-, hin, hv⟩ := found_routed hreg hfound hcode
  obtain ⟨⟨m, key⟩, hkey⟩ := Option.isSome_iff_exists.mp hv
  obtain ⟨hm, hroute⟩ := routed_spec (hin.validators.symm.trans hkey)
  have hdeclared := (route_spec hroute).1
  obtain ⟨store, hstore⟩ := exists_lookup ((hreg.keys_iff m key).mpr hdeclared)
  exact ⟨m, key, store, hkey, hstore, hdeclared, mem_candidates (hmap ▸ hm), route_matches hroute⟩

end

/-- A specification with a path parameter. -/
def usersSpec : Bytes :=
  lit "\x7b\"paths\":\x7b\"/users/\x7bid\x7d\":\x7b\"get\":\x7b\"parameters\":[\x7b\"name\":\"id\"," ++
    lit "\"in\":\"path\",\"schema\":\x7b\"type\":\"string\"\x7d\x7d]\x7d\x7d\x7d\x7d"

/-- A lookup under `GET` that asks for ranges. -/
def lookupGet (httpPath : Bytes) (imp : OASValidatorImp Json) : Except Fault Found :=
  imp.getValidators .insertion (lit "GET") httpPath [] (some []) none

set_option synthInstance.maxSize 400 in
/-- The validator of `usersSpec`: its declared path, two lookups, and the index of its parameter. -/
theorem users_built :
    ∃ (doc : Json) (imp : OASValidatorImp Json) (store : ValidatorsStore Json),
      Constructs RapidJson.plain .insertion (fun _ => none) usersSpec [] doc imp ∧
      declared doc .GET = [lit "/users/\x7bid\x7d"] ∧
      lookupGet (lit "/users/7") imp =
        .ok ⟨.NONE, [], some [(2, ⟨7, 8⟩)], none, some (.GET, lit "/users/\x7bid\x7d")⟩ ∧
      lookupGet (lit "/users/\x7bid\x7d") imp =
        .ok ⟨.NONE, [], some [], none, some (.GET, lit "/users/\x7bid\x7d")⟩ ∧
      (imp.oasValidators .GET).perPathValidators.lookup (lit "/users/\x7bid\x7d") = some store ∧
      store.pathParamValidators.map (·.idx) = [2] := by
  have hrun : trial usersSpec (fun doc imp => (declared doc .GET,
      [lit "/users/7", lit "/users/\x7bid\x7d"].map fun path => lookupGet path imp,
      ((imp.oasValidators .GET).perPathValidators.lookup (lit "/users/\x7bid\x7d")).map fun store =>
        store.pathParamValidators.map (·.idx))) =
      some (.ok ([lit "/users/\x7bid\x7d"],
        [.ok ⟨.NONE, [], some [(2, ⟨7, 8⟩)], none, some (.GET, lit "/users/\x7bid\x7d")⟩,
          .ok ⟨.NONE, [], some [], none, some (.GET, lit "/users/\x7bid\x7d")⟩], some [2])) := by
    decide +kernel
  obtain ⟨doc, imp, hdoc, hask⟩ := trial_spec hrun
  simp only [Prod.mk.injEq, List.map_cons, List.map_nil, List.cons.injEq, and_true] at hask
  obtain ⟨hpaths, ⟨hfound, hfound'⟩, hstores⟩ := hask
  obtain ⟨store, hstore, hidxs⟩ := Option.map_eq_some_iff.mp hstores
  exact ⟨doc, imp, store, hdoc, hpaths, hfound, hfound', hstore, hidxs⟩

theorem found_matches_users :
    ∃ (doc : Json) (imp : OASValidatorImp Json) (m : HttpMethod) (key : Bytes)
      (store : ValidatorsStore Json),
      (imp.oasValidators m).perPathValidators.lookup key = some store ∧ key ∈ declared doc m ∧
      Serves [] (lit "GET") m ∧ Matches key (lit "/users/7") := by
  obtain ⟨doc, imp, -, hdoc, -, hfound, -⟩ := users_built
  obtain ⟨m, key, store, -, hstore, hdeclared, hserves, hmatches⟩ := found_matches hdoc hfound rfl
  exact ⟨doc, imp, m, key, store, hstore, hdeclared, hserves, hmatches⟩

end OasValidator
