import Mathlib.Data.List.Permutation
import OasValidator.Imp.Exchanges

/-! The order in which a set of mapped methods is iterated.  The first mapped method under which the
path routes decides which operation judges the request, and the lookups before it have recorded ranges
that this operation gets for its path parameters. -/

namespace OasValidator

open Library.Table Checked PathTrie

namespace OASValidatorImp

variable {σ : Type} (rj : RapidJson σ) (order : Hashing) (imp : OASValidatorImp σ)

/-- The lookup of a call when the mapped methods are iterated in this order. -/
def lookupIn (names : List Bytes) (errorMsg : Bytes) (call : Call) : Except Fault Found := do
  let first ← imp.getValidatorsOf order call.method call.method call.httpPath errorMsg
    (if call.asks.1 then some [] else none) (if call.asks.2 then some [] else none)
  if first.code = .INVALID_ROUTE then
    getMapped order imp call.method call.httpPath names first
  else pure first

/-- A call when the mapped methods are iterated in this order. -/
def callIn (names : List Bytes) (errorMsg : Bytes) (call : Call) :
    Except Fault (Checked (OASValidatorImp σ)) := do
  let found ← imp.lookupIn order names errorMsg call
  imp.withStore found (call.check rj order found)

/-- The code that the operation at a place gives for the request, with these ranges for its path
parameters. -/
def judge (call : Call) (ranges : ParamIdxs) (place : HttpMethod × Bytes) :
    Except Fault ValidationError :=
  let found : Found := ⟨.NONE, [], some ranges, some (queryPart call.httpPath), some place⟩
  (imp.withStore found (call.check rj order found)).map (·.code)

end OASValidatorImp

section

variable {σ : Type} {rj : RapidJson σ} {order : Hashing} {imp : OASValidatorImp σ}
  {paths : HttpMethod → List Bytes}

theorem Checked.Same.code {τ : Type} {r r' : Except Fault (Checked τ)} (h : Same r r') :
    r.map (·.code) = r'.map (·.code) := by
  rcases same_iff.mp h with ⟨x, rfl, rfl⟩ | ⟨c, c', rfl, rfl, hc⟩
  · rfl
  · exact congrArg Except.ok (outcome_eq_iff.mp hc).1

/-- The order of iteration that a call meets is one of those. -/
theorem call_eq_callIn (himp : Registered imp paths) {call : Call}
    (hvalid : call.method ∈ kValidMethods) {names : List Bytes}
    (hnames : imp.methodMap.lookup call.method = some names) (errorMsg : Bytes) :
    imp.call rj order errorMsg call = imp.callIn rj order (order.iterate names) errorMsg call := by
  rw [OASValidatorImp.call_eq_lookup himp]
  unfold OASValidatorImp.callIn
  congr 1
  have hmethod : MethodValidator.validate imp.methodValidator call.method errorMsg =
      (.NONE, errorMsg) := by
    rw [MethodValidator.validate, if_pos hvalid]
  unfold OASValidatorImp.lookup OASValidatorImp.getValidators
  rw [hmethod, hnames]
  rfl

/-- What a lookup finds when the mapped methods are iterated in this order. -/
theorem lookupIn_registered (order : Hashing) (himp : Registered imp paths) {call : Call}
    {own : HttpMethod} (hown : kStringToMethod.lookup call.method = some own) (names : List Bytes)
    (errorMsg : Bytes) :
    ∃ found, imp.lookupIn order names errorMsg call = .ok found ∧
      FoundIn order paths (pathPart call.httpPath) (if call.asks.1 then some [] else none)
        (own :: knownMethods names) found ∧
      (call.asks.2 → found.query = some (queryPart call.httpPath)) := by
  obtain ⟨first, hfirst, hin⟩ := getValidatorsOf_registered order himp hown call.method call.httpPath
    errorMsg (if call.asks.1 then some [] else none) (if call.asks.2 then some [] else none)
  have hquery : call.asks.2 → first.query = some (queryPart call.httpPath) := by
    intro hask
    rw [if_pos hask] at hfirst
    exact getValidatorsOf_query (Or.inl rfl) hfirst
  have hrun : imp.lookupIn order names errorMsg call =
      if first.code = .INVALID_ROUTE then
        OASValidatorImp.getMapped order imp call.method call.httpPath names first
      else .ok first := by
    rw [OASValidatorImp.lookupIn, hfirst]
    rfl
  rw [hrun]
  by_cases hv : first.validators.isSome
  · have hcode : first.code = .NONE := by rw [hin.code, if_pos hv]
    rw [if_neg (by simp [hcode])]
    have hsome : (routed order paths (pathPart call.httpPath) [own]).isSome := hin.validators ▸ hv
    refine ⟨first, rfl, ⟨?_, hin.code, ?_⟩, hquery⟩
    · rw [← List.singleton_append, routed_append, Option.or_of_isSome hsome, hin.validators]
    · rw [← List.singleton_append, recordedIn_append_of_isSome _ hsome, hin.paramIdxs]
  · have hcode : first.code = .INVALID_ROUTE := by rw [hin.code, if_neg hv]
    rw [if_pos hcode]
    obtain ⟨found, hfound, hin'⟩ := getMapped_registered himp call.method call.httpPath names
      (if call.asks.1 then some [] else none) [own] first hin hcode
    exact ⟨found, hfound, hin', fun hask => getMapped_query (hquery hask) hfound⟩

/-- The code behind a lookup is that of the operation it finds, with the ranges it records. -/
theorem found_code {call : Call} {methods : List HttpMethod} {found : Found}
    (hin : FoundIn order paths (pathPart call.httpPath) (if call.asks.1 then some [] else none) methods
      found) (hquery : call.asks.2 → found.query = some (queryPart call.httpPath)) :
    (imp.withStore found (call.check rj order found)).map (·.code) =
      match routed order paths (pathPart call.httpPath) methods with
      | none => .ok .INVALID_ROUTE
      | some place => imp.judge rj order call
          (record (recordedIn order paths (pathPart call.httpPath) methods) []) place := by
  rw [← hin.validators]
  have hcode := hin.code
  cases hv : found.validators with
  | none =>
    rw [hv] at hcode
    have hcode : found.code = .INVALID_ROUTE := by simpa using hcode
    simp [OASValidatorImp.withStore, hcode, Except.map]
  | some place =>
    rw [hv] at hcode
    have hcode : found.code = .NONE := by simpa using hcode
    obtain ⟨method, key⟩ := place
    simp only [OASValidatorImp.judge, OASValidatorImp.withStore, hcode, ne_eq, not_true_eq_false,
      if_false, hv]
    cases (imp.oasValidators method).perPathValidators.lookup key with
    | none => rfl
    | some store =>
      have hcheck : call.check rj order found = call.check rj order ⟨.NONE, [],
          some (record (recordedIn order paths (pathPart call.httpPath) methods) []),
          some (queryPart call.httpPath), some (method, key)⟩ := by
        have hidxs := hin.paramIdxs
        cases call with
        | route | body | headers => rfl
        | queryParam =>
          simp only [Call.check, hquery rfl, Call.httpPath]
        | pathParam =>
          simp only [Call.asks, if_true, Option.map_some] at hidxs
          simp only [Call.check, hidxs]
        | request | requestBody | requestHeaders | requestBodyHeaders =>
          simp only [Call.asks, if_true, Option.map_some] at hidxs
          simp only [Call.check, hidxs, hquery rfl, Call.httpPath]
      rw [hcheck]
      exact ((check_assigns call _ store found.errorMsg []).map _).code

/-- The code of a call when the mapped methods are iterated in this order. -/
theorem callIn_code (himp : Registered imp paths) {call : Call} {own : HttpMethod}
    (hown : kStringToMethod.lookup call.method = some own) (names : List Bytes) (errorMsg : Bytes) :
    (imp.callIn rj order names errorMsg call).map (·.code) =
      match routed order paths (pathPart call.httpPath) (own :: knownMethods names) with
      | none => .ok .INVALID_ROUTE
      | some place => imp.judge rj order call
          (record (recordedIn order paths (pathPart call.httpPath) (own :: knownMethods names)) [])
          place := by
  obtain ⟨found, hfound, hin, hquery⟩ :=
    lookupIn_registered order himp hown names errorMsg
  rw [OASValidatorImp.callIn, hfound]
  exact found_code hin hquery

/-! ### Which operations judge a request -/

/-- In some order of iteration the operation at `place` is found, behind lookups under the methods of
`before` that find no route. -/
def Reached (order : Hashing) (paths : HttpMethod → List Bytes) (names : List Bytes) (path : Bytes)
    (before : List Bytes) (place : HttpMethod × Bytes) : Prop :=
  ∃ name, (before ++ [name]).Subperm names ∧ routed order paths path (knownMethods before) = none ∧
    kStringToMethod.lookup name = some place.1 ∧ route order (paths place.1) path = some place.2

/-- The ranges recorded by the lookups under the request method, under those of `before`, and under the
method that is found. -/
def rangesBehind (order : Hashing) (paths : HttpMethod → List Bytes) (path : Bytes) (own : HttpMethod)
    (before : List Bytes) (method : HttpMethod) : ParamIdxs :=
  record (recordedIn order paths path (own :: (knownMethods before ++ [method]))) []

theorem knownMethods_append {before : List Bytes} (h : ∀ b ∈ before, b ∈ kValidMethods)
    (rest : List Bytes) : knownMethods (before ++ rest) = knownMethods before ++ knownMethods rest := by
  induction before with
  | nil => rfl
  | cons b before ih =>
    obtain ⟨m, hm⟩ := lookup_of_valid (h b List.mem_cons_self)
    have ih := ih fun b hb => h b (List.mem_cons_of_mem _ hb)
    simp only [List.cons_append, knownMethods, hm, ih]

/-- All orders of iteration find a route, or none does. -/
theorem routed_perm {l l' : List Bytes} (hperm : l.Perm l') (hvalid : ∀ name ∈ l, name ∈ kValidMethods)
    {path : Bytes} (h : routed order paths path (knownMethods l') = none) :
    routed order paths path (knownMethods l) = none := by
  rw [routed_eq_none_iff] at h ⊢
  intro m hm
  obtain ⟨name, hname, hlookup⟩ := mem_knownMethods hm
  obtain ⟨before, behind, hsplit⟩ := List.append_of_mem (hperm.mem_iff.mp hname)
  refine h m (mem_knownMethods_iff.mpr ⟨before, name, behind, hsplit, fun b hb => ?_, hlookup⟩)
  have hb : b ∈ l := hperm.mem_iff.mpr (by simp [hsplit, hb])
  exact (valid_methods.1 b (hvalid b hb)).1

/-- An order of iteration ends at the first name under which the path routes. -/
theorem exists_reached {names l : List Bytes} (hvalid : ∀ name ∈ names, name ∈ kValidMethods)
    (hperm : l.Perm names) {path : Bytes} {place : HttpMethod × Bytes}
    (h : routed order paths path (knownMethods l) = some place) :
    ∃ before name rest, l = before ++ name :: rest ∧ Reached order paths names path before place ∧
      routed order paths path (knownMethods before) = none ∧
      kStringToMethod.lookup name = some place.1 ∧
      route order (paths place.1) path = some place.2 := by
  suffices hsplit : ∃ before name rest, l = before ++ name :: rest ∧
      routed order paths path (knownMethods before) = none ∧
      kStringToMethod.lookup name = some place.1 ∧ route order (paths place.1) path = some place.2 by
    obtain ⟨before, name, rest, hsplit, hnone, hname, hroute⟩ := hsplit
    have hsub : (before ++ [name]).Sublist l := by simp [hsplit]
    exact ⟨before, name, rest, hsplit,
      ⟨name, hsub.subperm.trans hperm.subperm, hnone, hname, hroute⟩, hnone, hname, hroute⟩
  have hall : ∀ name ∈ l, name ∈ kValidMethods := fun name hname =>
    hvalid name (hperm.mem_iff.mp hname)
  clear hperm
  induction l with
  | nil => simp [knownMethods, routed] at h
  | cons name rest ih =>
    obtain ⟨m, hm⟩ := lookup_of_valid (hall name List.mem_cons_self)
    simp only [knownMethods, hm] at h
    cases hroute : route order (paths m) path with
    | some key =>
      rw [routed, List.findSome?_cons, hroute] at h
      obtain rfl := Option.some.inj h
      exact ⟨[], name, rest, rfl, rfl, hm, hroute⟩
    | none =>
      rw [routed, List.findSome?_cons, hroute] at h
      obtain ⟨before, name', rest', rfl, hnone, hname', hroute'⟩ :=
        ih h fun b hb => hall b (List.mem_cons_of_mem _ hb)
      refine ⟨name :: before, name', rest', rfl, ?_, hname', hroute'⟩
      rw [knownMethods, hm]
      simpa [routed, hroute] using hnone

theorem route_own_iff (himp : Registered imp paths) {httpPath method : Bytes} {own : HttpMethod}
    (hown : kStringToMethod.lookup method = some own) :
    RoutesUnder order imp httpPath method ↔ (route order (paths own) (pathPart httpPath)).isSome := by
  rw [routesUnder_iff himp]
  simp [hown]

/-- Where the path routes under the request method itself the mapped methods do not matter. -/
theorem callIn_code_own (himp : Registered imp paths) {call : Call} {own : HttpMethod}
    (hown : kStringToMethod.lookup call.method = some own)
    (hself : RoutesUnder order imp call.httpPath call.method) (l l' : List Bytes) {errorMsg : Bytes} :
    (imp.callIn rj order l errorMsg call).map (·.code) =
      (imp.callIn rj order l' errorMsg call).map (·.code) := by
  have hfirst : (routed order paths (pathPart call.httpPath) [own]).isSome := by
    obtain ⟨key, hkey⟩ := Option.isSome_iff_exists.mp ((route_own_iff himp hown).mp hself)
    simp [routed, hkey]
  have hrouted : ∀ l, routed order paths (pathPart call.httpPath) (own :: knownMethods l) =
      routed order paths (pathPart call.httpPath) [own] := by
    intro l
    rw [← List.singleton_append, routed_append, Option.or_of_isSome hfirst]
  have hrecorded : ∀ l, recordedIn order paths (pathPart call.httpPath) (own :: knownMethods l) =
      recordedIn order paths (pathPart call.httpPath) [own] := by
    intro l
    rw [← List.singleton_append]
    exact recordedIn_append_of_isSome _ hfirst
  rw [callIn_code himp hown, callIn_code himp hown, hrouted l, hrouted l', hrecorded l, hrecorded l']

/-- The code of an order of iteration that finds the operation at `place`. -/
theorem callIn_code_reached (himp : Registered imp paths) {call : Call} {own : HttpMethod}
    (hown : kStringToMethod.lookup call.method = some own)
    (hself : ¬RoutesUnder order imp call.httpPath call.method) {before rest : List Bytes}
    {name : Bytes} {place : HttpMethod × Bytes} (hbefore : ∀ b ∈ before, b ∈ kValidMethods)
    (hnone : routed order paths (pathPart call.httpPath) (knownMethods before) = none)
    (hname : kStringToMethod.lookup name = some place.1)
    (hroute : route order (paths place.1) (pathPart call.httpPath) = some place.2)
    (errorMsg : Bytes) :
    (imp.callIn rj order (before ++ name :: rest) errorMsg call).map (·.code) =
      imp.judge rj order call
        (rangesBehind order paths (pathPart call.httpPath) own before place.1) place := by
  have hsplit : own :: knownMethods (before ++ name :: rest) =
      (own :: (knownMethods before ++ [place.1])) ++ knownMethods rest := by
    rw [knownMethods_append hbefore, knownMethods, hname]
    simp
  have hfirst : routed order paths (pathPart call.httpPath)
      (own :: (knownMethods before ++ [place.1])) = some place := by
    rw [route_own_iff himp hown, Option.not_isSome_iff_eq_none] at hself
    have hown' : routed order paths (pathPart call.httpPath) [own] = none := by
      simp [routed, hself]
    rw [← List.singleton_append, routed_append, routed_append, hown', hnone]
    simp [routed, hroute]
  rw [callIn_code himp hown, hsplit, routed_append, hfirst,
    recordedIn_append_of_isSome _ (by rw [hfirst]; rfl)]
  rfl

/-- Each operation that is reached judges in an order that starts as its own does. -/
theorem exists_order_of_reached (rj : RapidJson σ) (himp : Registered imp paths) {call : Call} {own : HttpMethod}
    (hown : kStringToMethod.lookup call.method = some own)
    (hself : ¬RoutesUnder order imp call.httpPath call.method) {names : List Bytes}
    (hvalid : ∀ name ∈ names, name ∈ kValidMethods) {before : List Bytes} {place : HttpMethod × Bytes}
    (hreached : Reached order paths names (pathPart call.httpPath) before place) (errorMsg : Bytes) :
    ∃ l, l.Perm names ∧ (imp.callIn rj order l errorMsg call).map (·.code) =
      imp.judge rj order call
        (rangesBehind order paths (pathPart call.httpPath) own before place.1) place := by
  obtain ⟨name, ⟨l, hl, hsub⟩, hnone, hname, hroute⟩ := hreached
  obtain ⟨rest, hperm⟩ := hsub.exists_perm_append
  have hperm : (before ++ name :: rest).Perm names := by
    have := (hl.symm.append_right rest).trans hperm.symm
    simpa using this
  have hbefore : ∀ b ∈ before, b ∈ kValidMethods := fun b hb =>
    hvalid b (hperm.mem_iff.mp (List.mem_append_left _ hb))
  exact ⟨_, hperm, callIn_code_reached himp hown hself hbefore hnone hname hroute errorMsg⟩

/-- An order in which no operation routes gives no route. -/
theorem callIn_code_unrouted (himp : Registered imp paths) {call : Call} {own : HttpMethod}
    (hown : kStringToMethod.lookup call.method = some own)
    (hself : ¬RoutesUnder order imp call.httpPath call.method) {l : List Bytes}
    (hl : routed order paths (pathPart call.httpPath) (knownMethods l) = none) (errorMsg : Bytes) :
    (imp.callIn rj order l errorMsg call).map (·.code) = .ok .INVALID_ROUTE := by
  have hroute : route order (paths own) (pathPart call.httpPath) = none := by
    rwa [route_own_iff himp hown, Option.not_isSome_iff_eq_none] at hself
  have hnone : routed order paths (pathPart call.httpPath) (own :: knownMethods l) = none := by
    rw [← hl]
    simp [routed, hroute]
  rw [callIn_code himp hown, hnone]

/-- An order in which an operation routes gives the code of one that is reached. -/
theorem callIn_code_routed (himp : Registered imp paths) {call : Call} {own : HttpMethod}
    (hown : kStringToMethod.lookup call.method = some own)
    (hself : ¬RoutesUnder order imp call.httpPath call.method) {names l : List Bytes}
    (hvalid : ∀ name ∈ names, name ∈ kValidMethods) (hperm : l.Perm names)
    {place : HttpMethod × Bytes}
    (hl : routed order paths (pathPart call.httpPath) (knownMethods l) = some place)
    (errorMsg : Bytes) :
    ∃ before, Reached order paths names (pathPart call.httpPath) before place ∧
      (imp.callIn rj order l errorMsg call).map (·.code) = imp.judge rj order call
        (rangesBehind order paths (pathPart call.httpPath) own before place.1) place := by
  obtain ⟨before, name, rest, rfl, hreached, hnone, hname, hroute⟩ := exists_reached hvalid hperm hl
  have hbefore : ∀ b ∈ before, b ∈ kValidMethods := fun b hb =>
    hvalid b (hperm.mem_iff.mp (List.mem_append_left _ hb))
  exact ⟨before, hreached,
    callIn_code_reached himp hown hself hbefore hnone hname hroute errorMsg⟩

end

section

variable {σ : Type} {rj : RapidJson σ} {order : Hashing} {files : Bytes → Option Bytes}
  {oasSpecs : Bytes} {methodMap : MethodMap} {doc : Json} {imp : OASValidatorImp σ}

/-- The names of a set that the map gives for a method are those of a set of the caller. -/
theorem mapped_valid (h : Constructs rj order files oasSpecs methodMap doc imp)
    (hmaps : ∀ key names, methodMap.lookup key = some names → ∀ name ∈ names, name ∈ kValidMethods)
    {method : Bytes} {names : List Bytes} (hnames : imp.methodMap.lookup method = some names) :
    ∀ name ∈ names, name ∈ kValidMethods := by
  rw [h.registered.2.1] at hnames
  obtain ⟨key, hkey, -⟩ := buildCaseInsensitiveMap_lookup hnames
  exact hmaps key names hkey

/-- Calls under a method with a set of mapped methods: a call meets one order of iteration, and all
orders give the same code if and only if the path routes under the method itself, or all operations that
judge the request in some order, with the ranges that they then get, give the same code. -/
theorem mapped_order_iff (h : Constructs rj order files oasSpecs methodMap doc imp)
    (hmaps : ∀ key names, methodMap.lookup key = some names → ∀ name ∈ names, name ∈ kValidMethods)
    {call : Call} {own : HttpMethod} (hown : kStringToMethod.lookup call.method = some own)
    {names : List Bytes} (hnames : imp.methodMap.lookup call.method = some names) (errorMsg : Bytes) :
    imp.call rj order errorMsg call = imp.callIn rj order (order.iterate names) errorMsg call ∧
    ((∀ l l', l.Perm names → l'.Perm names →
      (imp.callIn rj order l errorMsg call).map (·.code) =
        (imp.callIn rj order l' errorMsg call).map (·.code)) ↔
    (RoutesUnder order imp call.httpPath call.method ∨
      ∀ before place before' place',
        Reached order (declared doc) names (pathPart call.httpPath) before place →
        Reached order (declared doc) names (pathPart call.httpPath) before' place' →
        imp.judge rj order call (rangesBehind order (declared doc) (pathPart call.httpPath) own
            before place.1) place =
          imp.judge rj order call (rangesBehind order (declared doc) (pathPart call.httpPath) own
            before' place'.1) place')) := by
  obtain ⟨hreg, -, -⟩ := h.registered
  have hmethod : call.method ∈ kValidMethods := valid_methods.2 _ (mem_of_lookup hown)
  refine ⟨call_eq_callIn hreg hmethod hnames errorMsg, ?_⟩
  have hvalid := mapped_valid h hmaps hnames
  by_cases hself : RoutesUnder order imp call.httpPath call.method
  · refine ⟨fun _ => Or.inl hself, fun _ l l' _ _ => ?_⟩
    exact callIn_code_own hreg hown hself l l'
  · constructor
    · intro hall
      refine Or.inr fun before place before' place' hreached hreached' => ?_
      obtain ⟨l, hl, hcode⟩ :=
        exists_order_of_reached rj hreg hown hself hvalid hreached errorMsg
      obtain ⟨l', hl', hcode'⟩ :=
        exists_order_of_reached rj hreg hown hself hvalid hreached' errorMsg
      rw [← hcode, ← hcode', hall l l' hl hl']
    · rintro (hroutes | hjudge) l l' hl hl'
      · exact absurd hroutes hself
      · have hvalidIn : ∀ l : List Bytes, l.Perm names → ∀ name ∈ l, name ∈ kValidMethods :=
          fun l hl name hname => hvalid name (hl.mem_iff.mp hname)
        cases hplace : routed order (declared doc) (pathPart call.httpPath) (knownMethods l) with
        | none =>
          have hplace' := routed_perm (hl'.trans hl.symm) (hvalidIn l' hl') hplace
          rw [callIn_code_unrouted hreg hown hself hplace,
            callIn_code_unrouted hreg hown hself hplace']
        | some place =>
          cases hplace' : routed order (declared doc) (pathPart call.httpPath)
              (knownMethods l') with
          | none =>
            have := routed_perm (hl.trans hl'.symm) (hvalidIn l hl) hplace'
            simp [hplace] at this
          | some place' =>
            obtain ⟨before, hreached, hcode⟩ :=
              callIn_code_routed hreg hown hself hvalid hl hplace errorMsg
            obtain ⟨before', hreached', hcode'⟩ :=
              callIn_code_routed hreg hown hself hvalid hl' hplace' errorMsg
            rw [hcode, hcode', hjudge before place before' place' hreached hreached']

end

/-- The path `/list` with an operation that takes any body, and one whose body is an array. -/
def twoSpec : Bytes :=
  lit "\x7b\"paths\":\x7b\"/list\":\x7b\"get\":\x7b\x7d,\"put\":\x7b\"requestBody\":\x7b\"content\":" ++
    lit "\x7b\"application/json\":\x7b\"schema\":\x7b\"type\":\"array\"" ++
    lit "\x7d\x7d\x7d\x7d\x7d\x7d\x7d\x7d"

/-- `HEAD` is treated as either method of `twoSpec`. -/
def headAsBoth : MethodMap := [(lit "HEAD", [lit "GET", lit "PUT"])]

/-- The code for a body under `HEAD`, with the mapped methods in this order. -/
def headCode (imp : OASValidatorImp Json) (names : List Bytes) (jsonBody : Bytes) :
    Except Fault ValidationError :=
  (imp.callIn RapidJson.plain .insertion names [] (.body (lit "HEAD") (lit "/list") jsonBody)).map
    (·.code)

set_option synthInstance.maxSize 400 in
theorem twoSpec_built :
    ∃ (doc : Json) (imp : OASValidatorImp Json),
      Constructs RapidJson.plain .insertion (fun _ => none) twoSpec headAsBoth doc imp ∧
      imp.methodMap.lookup (lit "HEAD") = some [lit "GET", lit "PUT"] ∧
      (imp.getValidatorsOf .insertion (lit "HEAD") (lit "HEAD") (lit "/list") [] none none).map
        (·.code) = .ok .INVALID_ROUTE ∧
      (∀ names ∈ [[lit "GET", lit "PUT"], [lit "PUT", lit "GET"]],
        headCode imp names (lit "[]") = .ok .NONE) ∧
      headCode imp [lit "GET", lit "PUT"] (lit "true") = .ok .NONE ∧
      headCode imp [lit "PUT", lit "GET"] (lit "true") = .ok .INVALID_BODY := by
  have hrun : (construct RapidJson.plain .insertion (fun _ => none) 60 twoSpec headAsBoth).map
      (fun r => r.map fun imp => decide (
        imp.methodMap.lookup (lit "HEAD") = some [lit "GET", lit "PUT"] ∧
        (imp.getValidatorsOf .insertion (lit "HEAD") (lit "HEAD") (lit "/list") [] none none).map
          (·.code) = .ok .INVALID_ROUTE ∧
        (∀ names ∈ [[lit "GET", lit "PUT"], [lit "PUT", lit "GET"]],
          headCode imp names (lit "[]") = .ok .NONE) ∧
        headCode imp [lit "GET", lit "PUT"] (lit "true") = .ok .NONE ∧
        headCode imp [lit "PUT", lit "GET"] (lit "true") = .ok .INVALID_BODY)) = some (.ok true) := by
    decide +kernel
  obtain ⟨r, hr, hmap⟩ := Option.map_eq_some_iff.mp hrun
  obtain ⟨imp, rfl, hask⟩ := map_eq_ok_iff.mp hmap
  obtain ⟨doc, hdoc⟩ := constructs_iff.mpr ⟨60, hr⟩
  exact ⟨doc, imp, hdoc, of_decide_eq_true hask⟩

theorem headAsBoth_valid : ∀ key names, headAsBoth.lookup key = some names →
    ∀ name ∈ names, name ∈ kValidMethods := by
  intro key names hnames
  have hall : ∀ p ∈ headAsBoth, ∀ name ∈ p.2, name ∈ kValidMethods := by decide
  exact hall _ (mem_of_lookup hnames)

/-- Nothing is declared under `HEAD`, and an array is accepted by `GET` and by `PUT`. -/
theorem mapped_order_iff_two :
    ∃ (doc : Json) (imp : OASValidatorImp Json),
      Constructs RapidJson.plain .insertion (fun _ => none) twoSpec headAsBoth doc imp ∧
      ∀ before place before' place',
        Reached .insertion (declared doc) [lit "GET", lit "PUT"] (lit "/list") before place →
        Reached .insertion (declared doc) [lit "GET", lit "PUT"] (lit "/list") before' place' →
        imp.judge RapidJson.plain .insertion (.body (lit "HEAD") (lit "/list") (lit "[]"))
            (rangesBehind .insertion (declared doc) (lit "/list") .HEAD before place.1) place =
          imp.judge RapidJson.plain .insertion (.body (lit "HEAD") (lit "/list") (lit "[]"))
            (rangesBehind .insertion (declared doc) (lit "/list") .HEAD before' place'.1) place' := by
  obtain ⟨doc, imp, hdoc, hhead, hown, harray, -⟩ := twoSpec_built
  have hcode : ∀ l : List Bytes, l.Perm [lit "GET", lit "PUT"] →
      headCode imp l (lit "[]") = .ok .NONE := by
    intro l hl
    have hboth : [lit "GET", lit "PUT"].permutations =
        [[lit "GET", lit "PUT"], [lit "PUT", lit "GET"]] := by
      simp [List.permutations, List.permutationsAux, List.permutationsAux.rec, List.permutationsAux2]
    exact harray l (hboth ▸ List.mem_permutations.mpr hl)
  have hcodes := fun l l' (hl : List.Perm l _) (hl' : List.Perm l' _) =>
    (hcode l hl).trans (hcode l' hl').symm
  rcases (@mapped_order_iff _ _ _ _ _ _ _ imp hdoc headAsBoth_valid
    (.body (lit "HEAD") (lit "/list") (lit "[]")) .HEAD rfl _ hhead []).2.mp hcodes with
    ⟨found, hfound, hnone⟩ | hjudge
  · have hfound' : imp.getValidatorsOf .insertion (lit "HEAD") (lit "HEAD") (lit "/list") [] none none =
        .ok found := hfound
    rw [hfound'] at hown
    simp [Except.map, hnone] at hown
  · exact ⟨doc, imp, hdoc, hjudge⟩

/-- Under `HEAD` a body that is no array is accepted by `GET` and rejected by `PUT`. -/
theorem first_mapped_judges : ¬∀ (rj : RapidJson Json) (order : Hashing)
    (files : Bytes → Option Bytes) (oasSpecs : Bytes) (methodMap : MethodMap) (doc : Json)
    (imp : OASValidatorImp Json), Constructs rj order files oasSpecs methodMap doc imp →
      (∀ key names, methodMap.lookup key = some names → ∀ name ∈ names, name ∈ kValidMethods) →
      ∀ (call : Call) (names : List Bytes), call.method ∈ kValidMethods →
        imp.methodMap.lookup call.method = some names →
        ∀ (errorMsg : Bytes) (l l' : List Bytes), l.Perm names → l'.Perm names →
          (imp.callIn rj order l errorMsg call).map (·.code) =
            (imp.callIn rj order l' errorMsg call).map (·.code) := by
  intro h
  obtain ⟨doc, imp, hdoc, hhead, -, -, hfirst, hsecond⟩ := twoSpec_built
  have hcodes := h _ _ _ _ _ doc imp hdoc headAsBoth_valid
    (.body (lit "HEAD") (lit "/list") (lit "true")) _ (by decide) hhead []
    [lit "GET", lit "PUT"] [lit "PUT", lit "GET"] (List.Perm.refl _) (List.Perm.swap _ _ _)
  exact nomatch hfirst.symm.trans (hcodes.trans hsecond)

end OasValidator
