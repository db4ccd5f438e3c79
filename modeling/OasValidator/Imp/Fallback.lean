import OasValidator.Imp.Requests
import OasValidator.Imp.Soundness

/-! The fallback to mapped methods.  The lookups under the strings of a set end at the first one that
names no method, so what comes behind it in the order of iteration is not tried. -/

namespace OasValidator

open Library.Table

/-- Equal but for the case of letters. -/
def sameButCase (method key : Bytes) : Bool := key.map toLower = method.map toLower

/-- The set of the last key, in the order of iteration, that is the method but for case. -/
def setFor (order : Hashing) (methodMap : MethodMap) (method : Bytes) : Option (List Bytes) :=
  ((order.iterate (keys methodMap)).filter (sameButCase method)).getLast?.map fun key =>
    (methodMap.lookup key).getD []

section

variable {σ : Type} (order : Hashing) (imp : OASValidatorImp σ)

/-- The path routes under the method of this name. -/
def RoutesUnder (httpPath name : Bytes) : Prop :=
  ∃ found, imp.getValidatorsOf order name name httpPath [] none none = .ok found ∧
    found.code = .NONE

/-- The path routes under a string of a set that the map gives for the method. -/
def RoutesMapped (methodMap : MethodMap) (method httpPath : Bytes) : Prop :=
  ∃ key names name, methodMap.lookup key = some names ∧ sameButCase method key ∧ name ∈ names ∧
    RoutesUnder order imp httpPath name

/-- The path routes under a string of the method's set, and all strings that come before this one in
the iteration of the set are names of methods. -/
def RoutesBeforeUnknown (methodMap : MethodMap) (method httpPath : Bytes) : Prop :=
  ∃ names before name behind, setFor order methodMap method = some names ∧
    order.iterate names = before ++ name :: behind ∧
    (∀ b ∈ before, (kStringToMethod.lookup b).isSome) ∧ RoutesUnder order imp httpPath name

end

/-! ### The set in use -/

theorem letters : 'A'.toUInt8 = 65 ∧ 'Z'.toUInt8 = 90 ∧ 'a'.toUInt8 = 97 ∧ 'z'.toUInt8 = 122 :=
  ⟨rfl, rfl, rfl, rfl⟩

theorem toUpper_toLower (c : UInt8) : toUpper (toLower c) = toUpper c := by
  unfold toUpper toLower
  grind [letters]

theorem toLower_toUpper (c : UInt8) : toLower (toUpper c) = toLower c := by
  unfold toUpper toLower
  grind [letters]

/-- A valid method is all in lower or all in upper case. -/
theorem sameButCase_iff {method key : Bytes} (hvalid : method ∈ kValidMethods) :
    sameButCase method key ↔ key.map toLower = method ∨ key.map toUpper = method := by
  have hcase : ∀ name ∈ kValidMethods, name.map toLower = name ∨ name.map toUpper = name :=
    fun name hname => (valid_methods.1 name hname).2
  have hupper : ∀ name : Bytes, (name.map toLower).map toUpper = name.map toUpper := by
    simp [toUpper_toLower, Function.comp_def]
  have hlower : ∀ name : Bytes, (name.map toUpper).map toLower = name.map toLower := by
    simp [toLower_toUpper, Function.comp_def]
  have hidem : ∀ name : Bytes, (name.map toLower).map toLower = name.map toLower := fun name => by
    rw [← hlower (name.map toLower), hupper, hlower]
  simp only [sameButCase, decide_eq_true_eq]
  constructor
  · intro h
    rcases hcase method hvalid with hm | hm
    · exact Or.inl (h.trans hm)
    · refine Or.inr ?_
      rw [← hupper key, h, hupper, hm]
  · rintro (rfl | rfl)
    · exact (hidem key).symm
    · exact (hlower key).symm

/-- What the map without case has for a method is the set of the last key that is the method but for
case. -/
theorem buildCaseInsensitiveMap_eq (order : Hashing) (methodMap : MethodMap) {method : Bytes}
    (hvalid : method ∈ kValidMethods) :
    (buildCaseInsensitiveMap order methodMap).lookup method = setFor order methodMap method := by
  unfold buildCaseInsensitiveMap setFor
  induction order.iterate (keys methodMap) using List.reverseRecOn with
  | nil => rfl
  | append_singleton ks k ih =>
    rw [List.foldl_append, List.filter_append]
    simp only [List.foldl_cons, List.foldl_nil, lookup_put]
    by_cases hk : sameButCase method k
    · have hlast : (List.filter (sameButCase method) ks ++ [k]).getLast? = some k := by simp
      rw [List.filter_cons_of_pos hk, List.filter_nil, hlast, Option.map_some]
      rcases (sameButCase_iff hvalid).mp hk with h | h <;> simp [h]
    · have hne : method ≠ k.map toLower ∧ method ≠ k.map toUpper := by
        constructor <;> intro h <;> exact hk ((sameButCase_iff hvalid).mpr (by simp [h]))
      rw [List.filter_cons_of_neg hk, List.filter_nil, List.append_nil, ← ih]
      simp [hne.1, hne.2]

theorem setFor_spec {order : Hashing} {methodMap : MethodMap} {method : Bytes} {names : List Bytes}
    (h : setFor order methodMap method = some names) :
    ∃ key, methodMap.lookup key = some names ∧ sameButCase method key := by
  obtain ⟨key, hkey, hnames⟩ := Option.map_eq_some_iff.mp h
  obtain ⟨hmem, hcase⟩ := List.mem_filter.mp (List.mem_of_getLast? hkey)
  obtain ⟨names', hnames'⟩ := exists_lookup ((order.perm _).mem_iff.mp hmem)
  rw [hnames', Option.getD_some] at hnames
  exact ⟨key, by rw [hnames', hnames], hcase⟩

/-- The methods that are tried are those of the strings up to the first unknown one. -/
theorem mem_knownMethods_iff {names : List Bytes} {m : HttpMethod} :
    m ∈ knownMethods names ↔ ∃ before name behind, names = before ++ name :: behind ∧
      (∀ b ∈ before, (kStringToMethod.lookup b).isSome) ∧
      kStringToMethod.lookup name = some m := by
  induction names with
  | nil => simp [knownMethods]
  | cons first rest ih =>
    constructor
    · intro h
      unfold knownMethods at h
      split at h
      · rename_i m' hm'
        rcases List.mem_cons.mp h with rfl | h
        · exact ⟨[], first, rest, rfl, by simp, hm'⟩
        · obtain ⟨before, name, behind, rfl, hbefore, hname⟩ := ih.mp h
          refine ⟨first :: before, name, behind, rfl, fun b hb => ?_, hname⟩
          rcases List.mem_cons.mp hb with rfl | hb
          · simp [hm']
          · exact hbefore b hb
      · simp at h
    · rintro ⟨before, name, behind, hnames, hbefore, hname⟩
      cases before with
      | nil =>
        obtain ⟨rfl, rfl⟩ := List.cons.inj hnames
        simp [knownMethods, hname]
      | cons b before =>
        obtain ⟨rfl, rfl⟩ := List.cons.inj hnames
        obtain ⟨m', hm'⟩ := Option.isSome_iff_exists.mp (hbefore first List.mem_cons_self)
        have hrest : m ∈ knownMethods (before ++ name :: behind) :=
          ih.mpr ⟨before, name, behind, rfl, fun b hb => hbefore b (List.mem_cons_of_mem _ hb), hname⟩
        simp [knownMethods, hm', hrest]

/-! ### Which requests are accepted -/

section

variable {σ : Type} {rj : RapidJson σ} {order : Hashing} {files : Bytes → Option Bytes}
  {oasSpecs : Bytes} {methodMap : MethodMap} {doc : Json} {imp : OASValidatorImp σ}
  {paths : HttpMethod → List Bytes}

theorem routesUnder_iff (himp : Registered imp paths) {httpPath name : Bytes} :
    RoutesUnder order imp httpPath name ↔
      ∃ m, kStringToMethod.lookup name = some m ∧
        (route order (paths m) (pathPart httpPath)).isSome := by
  cases hm : kStringToMethod.lookup name with
  | none =>
    simp [RoutesUnder, OASValidatorImp.getValidatorsOf, hm, throw, throwThe, MonadExceptOf.throw]
  | some m =>
    obtain ⟨found, hfound, hin⟩ :=
      getValidatorsOf_registered order himp hm name httpPath [] none none
    have hrouted : found.validators.isSome ↔ (route order (paths m) (pathPart httpPath)).isSome := by
      rw [hin.validators]
      simp [routed, List.findSome?_cons]
      cases route order (paths m) (pathPart httpPath) <;> simp
    have hcode : found.code = .NONE ↔ found.validators.isSome := by
      rw [hin.code]
      split <;> simp_all
    simp only [RoutesUnder, hfound, Except.ok.injEq, exists_eq_left', Option.some.injEq, hcode,
      hrouted]

/-- A lookup finds a route under the request method, or under a mapped one that is tried. -/
theorem validateRoute_iff (h : Constructs rj order files oasSpecs methodMap doc imp) {method : Bytes}
    (hvalid : method ∈ kValidMethods) (httpPath errorMsg : Bytes) :
    ∃ c, imp.validateRoute order method httpPath errorMsg = .ok c ∧
      (c.code = .NONE ↔ RoutesUnder order imp httpPath method ∨
        RoutesBeforeUnknown order imp methodMap method httpPath) := by
  obtain ⟨hreg, hmap, -⟩ := h.registered
  obtain ⟨found, hfound, hin⟩ :=
    getValidators_registered order hreg hvalid httpPath errorMsg none none
  refine ⟨⟨found.code, found.errorMsg, imp⟩, by simp [OASValidatorImp.validateRoute, hfound, bind,
    Except.bind, pure, Except.pure], ?_⟩
  have hcode : found.code = .NONE ↔ ∃ m ∈ candidates order imp.methodMap method,
      (route order (declared doc m) (pathPart httpPath)).isSome := by
    have hsome : found.validators.isSome ↔ ∃ m ∈ candidates order imp.methodMap method,
        (route order (declared doc m) (pathPart httpPath)).isSome := by
      rw [hin.validators, ← Option.ne_none_iff_isSome, ne_eq, routed_eq_none_iff]
      simp [Option.ne_none_iff_isSome]
    rw [← hsome, hin.code]
    split <;> simp_all
  obtain ⟨own, hown⟩ := lookup_of_valid hvalid
  show found.code = .NONE ↔ _
  rw [hcode, routesUnder_iff hreg, hmap]
  simp only [candidates, hown, buildCaseInsensitiveMap_eq order methodMap hvalid]
  simp only [RoutesBeforeUnknown, routesUnder_iff hreg, Option.some.injEq, exists_eq_left']
  cases hset : setFor order methodMap method with
  | none => simp
  | some names =>
    simp only [List.mem_cons, exists_eq_or_imp, mem_knownMethods_iff, Option.some.injEq]
    apply or_congr Iff.rfl
    constructor
    · rintro ⟨m, ⟨before, name, behind, hnames, hbefore, hm⟩, hroute⟩
      exact ⟨names, before, name, behind, rfl, hnames, hbefore, m, hm, hroute⟩
    · rintro ⟨_, before, name, behind, rfl, hnames, hbefore, m, hm, hroute⟩
      exact ⟨m, ⟨before, name, behind, hnames, hbefore, hm⟩, hroute⟩

theorem RoutesBeforeUnknown.mapped {method httpPath : Bytes}
    (h : RoutesBeforeUnknown order imp methodMap method httpPath) :
    RoutesMapped order imp methodMap method httpPath := by
  obtain ⟨names, before, name, behind, hset, hnames, -, hroutes⟩ := h
  obtain ⟨key, hkey, hcase⟩ := setFor_spec hset
  have hmem : name ∈ names := (order.perm names).mem_iff.mp (by simp [hnames])
  exact ⟨key, names, name, hkey, hcase, hmem, hroutes⟩

/-- `ValidateRoute` accepts just the requests that route under the request method or a mapped one if
and only if, where the path routes under a mapped method alone, it does so under one that comes before
all unknown strings of the set in use. -/
theorem fallback_union_iff (h : Constructs rj order files oasSpecs methodMap doc imp) {method : Bytes}
    (hvalid : method ∈ kValidMethods) (httpPath errorMsg : Bytes) :
    ∃ c, imp.validateRoute order method httpPath errorMsg = .ok c ∧
      ((c.code = .NONE ↔ RoutesUnder order imp httpPath method ∨
          RoutesMapped order imp methodMap method httpPath) ↔
        (RoutesMapped order imp methodMap method httpPath →
          ¬RoutesUnder order imp httpPath method →
            RoutesBeforeUnknown order imp methodMap method httpPath)) := by
  obtain ⟨c, hc, hcode⟩ := validateRoute_iff h hvalid httpPath errorMsg
  refine ⟨c, hc, ?_⟩
  have hmapped := @RoutesBeforeUnknown.mapped σ order methodMap imp method httpPath
  rw [hcode]
  tauto

end

/-- The set for `POST` holds a string that names no method, and `GET`. -/
def postAsGet (names : List Bytes) : MethodMap := [(lit "Post", names)]

/-- What `ValidateRoute` answers to a request, and whether single lookups find a route. -/
def fallbackTrial (methodMap : MethodMap) (method httpPath : Bytes) (names : List Bytes) :
    Option (Except InitError (Except Fault ValidationError × List (Except Fault ValidationError))) :=
  (construct RapidJson.plain .insertion (fun _ => none) 60 usersSpec methodMap).map fun r =>
    r.map fun imp =>
      ((imp.validateRoute .insertion method httpPath []).map (·.code),
        names.map fun name =>
          (imp.getValidatorsOf .insertion name name httpPath [] none none).map (·.code))

theorem fallbackTrial_spec {methodMap : MethodMap} {method httpPath : Bytes} {names : List Bytes}
    {code : ValidationError} {codes : List ValidationError}
    (h : fallbackTrial methodMap method httpPath names = some (.ok (.ok code, codes.map .ok))) :
    ∃ (doc : Json) (imp : OASValidatorImp Json) (c : Checked (OASValidatorImp Json)),
      Constructs RapidJson.plain .insertion (fun _ => none) usersSpec methodMap doc imp ∧
      imp.validateRoute .insertion method httpPath [] = .ok c ∧ c.code = code ∧
      names.map (fun name =>
        (imp.getValidatorsOf .insertion name name httpPath [] none none).map (·.code)) =
          codes.map .ok := by
  obtain ⟨r, hr, hmap⟩ := Option.map_eq_some_iff.mp h
  obtain ⟨imp, rfl, hask⟩ := map_eq_ok_iff.mp hmap
  obtain ⟨hroute, hcodes⟩ := Prod.mk.inj hask
  obtain ⟨c, hc, hcode⟩ := map_eq_ok_iff.mp hroute
  obtain ⟨doc, hdoc⟩ := constructs_iff.mpr ⟨60, hr⟩
  exact ⟨doc, imp, c, hdoc, hc, hcode, hcodes⟩

theorem fallback_union_iff_users :
    ∃ (doc : Json) (imp : OASValidatorImp Json) (c : Checked (OASValidatorImp Json)),
      Constructs RapidJson.plain .insertion (fun _ => none) usersSpec (postAsGet [lit "GET"]) doc
        imp ∧
      imp.validateRoute .insertion (lit "POST") (lit "/users/7") [] = .ok c ∧ c.code = .NONE ∧
      ((c.code = .NONE ↔ RoutesUnder .insertion imp (lit "/users/7") (lit "POST") ∨
          RoutesMapped .insertion imp (postAsGet [lit "GET"]) (lit "POST") (lit "/users/7")) ↔
        (RoutesMapped .insertion imp (postAsGet [lit "GET"]) (lit "POST") (lit "/users/7") →
          ¬RoutesUnder .insertion imp (lit "/users/7") (lit "POST") →
            RoutesBeforeUnknown .insertion imp (postAsGet [lit "GET"]) (lit "POST")
              (lit "/users/7"))) := by
  have hrun : fallbackTrial (postAsGet [lit "GET"]) (lit "POST") (lit "/users/7") [] =
      some (.ok (.ok .NONE, List.map .ok [])) := by
    decide +kernel
  obtain ⟨doc, imp, c, hdoc, hc, hcode, -⟩ := fallbackTrial_spec hrun
  have hpost : lit "POST" ∈ kValidMethods := by decide
  obtain ⟨c', hc', hiff⟩ := fallback_union_iff hdoc hpost (lit "/users/7") []
  obtain rfl : c' = c := Except.ok.inj (hc'.symm.trans hc)
  exact ⟨doc, imp, c', hdoc, hc, hcode, hiff⟩

/-- A set that gives the string `HTTP` before `GET`: the path routes under `GET`, which is not
tried. -/
theorem unknown_string_ends_fallback : ¬∀ (rj : RapidJson Json) (order : Hashing)
    (files : Bytes → Option Bytes) (oasSpecs : Bytes) (methodMap : MethodMap) (doc : Json)
    (imp : OASValidatorImp Json), Constructs rj order files oasSpecs methodMap doc imp →
      ∀ (method httpPath errorMsg : Bytes) (c : Checked (OASValidatorImp Json)),
        method ∈ kValidMethods → imp.validateRoute order method httpPath errorMsg = .ok c →
          (c.code = .NONE ↔ RoutesUnder order imp httpPath method ∨
            RoutesMapped order imp methodMap method httpPath) := by
  intro h
  have hrun : fallbackTrial (postAsGet [lit "HTTP", lit "GET"]) (lit "POST") (lit "/users/7")
      [lit "GET"] = some (.ok (.ok .INVALID_ROUTE, List.map .ok [.NONE])) := by
    decide +kernel
  obtain ⟨doc, imp, c, hdoc, hc, hcode, hcodes⟩ := fallbackTrial_spec hrun
  obtain ⟨found, hfound, hnone⟩ := map_eq_ok_iff.mp (List.cons.inj hcodes).1
  have hmapped : RoutesMapped .insertion imp (postAsGet [lit "HTTP", lit "GET"]) (lit "POST")
      (lit "/users/7") := by
    refine ⟨lit "Post", [lit "HTTP", lit "GET"], lit "GET", ?_, ?_, by simp, found, hfound, hnone⟩
      <;> decide
  have hcodeNone := (h _ _ _ _ _ doc imp hdoc (lit "POST") (lit "/users/7") [] c (by decide)
    hc).mpr (Or.inr hmapped)
  rw [hcode] at hcodeNone
  simp at hcodeNone

end OasValidator
