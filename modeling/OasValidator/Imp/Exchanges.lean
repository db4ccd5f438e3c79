import OasValidator.Imp.ErrorTexts
import OasValidator.Imp.Fallback
import OasValidator.Validators.Success

/-! What calls do with the text that the caller's `error_msg` holds.  A method that is not valid gets
its text appended, all other failures assign theirs, and a route that is found under a mapped method
leaves the text of the lookups that failed before. -/

namespace OasValidator

open Library.Table Checked

section

variable {σ : Type} {rj : RapidJson σ} {order : Hashing}

/-! ### Checks -/

/-- Of what a lookup found the checks use the ranges and the query. -/
theorem check_congr {call : Call} {found found' : Found} (hidxs : found'.paramIdxs = found.paramIdxs)
    (hquery : found'.query = found.query) :
    call.check rj order found' = call.check rj order found := by
  cases call <;> simp only [Call.check, hidxs, hquery]

theorem check_assigns (call : Call) (found : Found) (store : ValidatorsStore σ) :
    Assigns (call.check rj order found store) := by
  open ValidatorsStore in
  cases call with
  | route method httpPath => exact fun m m' => same_none _ _ _
  | body method httpPath jsonBody => exact validateBody_assigns rj store jsonBody
  | pathParam method httpPath => exact validatePathParams_assigns rj store _ _
  | queryParam method httpPath => exact validateQueryParams_assigns rj store _
  | headers method httpPath given => exact validateHeaderParams_assigns rj order store given
  | request method httpPath =>
    exact andThen_assigns (validatePathParams_assigns rj store _ _) fun s =>
      validateQueryParams_assigns rj s _
  | requestBody method httpPath jsonBody =>
    exact andThen_assigns (validateBody_assigns rj store jsonBody) fun s =>
      andThen_assigns (validatePathParams_assigns rj s _ _) fun s =>
        validateQueryParams_assigns rj s _
  | requestHeaders method httpPath given =>
    exact andThen_assigns (validatePathParams_assigns rj store _ _) fun s =>
      andThen_assigns (validateQueryParams_assigns rj s _) fun s =>
        validateHeaderParams_assigns rj order s given
  | requestBodyHeaders method httpPath jsonBody given =>
    exact andThen_assigns (validateBody_assigns rj store jsonBody) fun s =>
      andThen_assigns (validatePathParams_assigns rj s _ _) fun s =>
        andThen_assigns (validateQueryParams_assigns rj s _) fun s =>
          validateHeaderParams_assigns rj order s given

section

variable {store : ValidatorsStore σ} (hstore : store.Keyed) (errorMsg : Bytes)

include hstore

theorem headers_leaves (given : List (Bytes × Bytes)) {next : ValidatorsStore σ}
    (hnext : next.headerParamValidators = store.headerParamValidators) :
    LeavesText errorMsg (next.validateHeaderParams rj order given errorMsg) := by
  apply ValidatorsStore.validateHeaderParams_leaves
  rw [hnext]
  exact fun p hp => (hstore.header p hp).keyed.code

theorem query_leaves (query : Bytes) {next : ValidatorsStore σ}
    (hnext : next.queryParamValidators = store.queryParamValidators) :
    LeavesText errorMsg (next.validateQueryParams rj query errorMsg) := by
  apply ValidatorsStore.validateQueryParams_leaves
  rw [hnext]
  exact fun info hinfo => (hstore.query info hinfo).keyed.keyed.code

theorem path_leaves (buf : Nat → UInt8) (paramIdxs : ParamIdxs) {next : ValidatorsStore σ}
    (hnext : next.pathParamValidators = store.pathParamValidators) :
    LeavesText errorMsg (next.validatePathParams rj buf paramIdxs errorMsg) := by
  apply ValidatorsStore.validatePathParams_leaves
  rw [hnext]
  exact fun info hinfo => (hstore.path info hinfo).keyed.code

theorem body_leaves (jsonBody : Bytes) : LeavesText errorMsg (store.validateBody rj jsonBody errorMsg) :=
  ValidatorsStore.validateBody_leaves (fun v hv => (hstore.body v hv).code) jsonBody errorMsg

theorem check_leaves (call : Call) (found : Found) :
    LeavesText errorMsg (call.check rj order found store errorMsg) := by
  cases call with
  | route method httpPath => exact LeavesText.ok _ _ _
  | body method httpPath jsonBody => exact body_leaves hstore errorMsg jsonBody
  | pathParam method httpPath => exact path_leaves hstore errorMsg _ _ rfl
  | queryParam method httpPath => exact query_leaves hstore errorMsg _ rfl
  | headers method httpPath given => exact headers_leaves hstore errorMsg given rfl
  | request method httpPath =>
    simp only [Call.check]
    refine (path_leaves hstore errorMsg _ _ rfl).andThen fun c hc => ?_
    obtain ⟨_, hafter⟩ := ValidatorsStore.validatePathParams_after hc
    exact query_leaves hstore errorMsg _ (by rw [hafter])
  | requestBody method httpPath jsonBody =>
    simp only [Call.check]
    refine (body_leaves hstore errorMsg jsonBody).andThen fun b hb => ?_
    obtain ⟨_, hafterBody⟩ := ValidatorsStore.validateBody_after hb
    refine (path_leaves hstore errorMsg _ _ (by rw [hafterBody])).andThen fun c hc => ?_
    obtain ⟨_, hafter⟩ := ValidatorsStore.validatePathParams_after hc
    exact query_leaves hstore errorMsg _ (by rw [hafter, hafterBody])
  | requestHeaders method httpPath given =>
    simp only [Call.check]
    refine (path_leaves hstore errorMsg _ _ rfl).andThen fun c hc => ?_
    obtain ⟨_, hafter⟩ := ValidatorsStore.validatePathParams_after hc
    refine (query_leaves hstore errorMsg _ (by rw [hafter])).andThen fun q hq => ?_
    obtain ⟨_, hafterQuery⟩ := ValidatorsStore.validateQueryParams_after hq
    exact headers_leaves hstore errorMsg given (by rw [hafterQuery, hafter])
  | requestBodyHeaders method httpPath jsonBody given =>
    simp only [Call.check]
    refine (body_leaves hstore errorMsg jsonBody).andThen fun b hb => ?_
    obtain ⟨_, hafterBody⟩ := ValidatorsStore.validateBody_after hb
    refine (path_leaves hstore errorMsg _ _ (by rw [hafterBody])).andThen fun c hc => ?_
    obtain ⟨_, hafter⟩ := ValidatorsStore.validatePathParams_after hc
    refine (query_leaves hstore errorMsg _ (by rw [hafter, hafterBody])).andThen fun q hq => ?_
    obtain ⟨_, hafterQuery⟩ := ValidatorsStore.validateQueryParams_after hq
    exact headers_leaves hstore errorMsg given (by rw [hafterQuery, hafter, hafterBody])

end

/-! ### Lookups -/

/-- All outputs but `error_msg`. -/
def Found.silent (found : Found) : Found := { found with errorMsg := [] }

variable {imp : OASValidatorImp σ}

theorem getValidatorsOf_silent (method mappedMethod httpPath m m' : Bytes)
    (paramIdxs : Option ParamIdxs) (query : Option Bytes) :
    (imp.getValidatorsOf order method mappedMethod httpPath m paramIdxs query).map Found.silent =
      (imp.getValidatorsOf order method mappedMethod httpPath m' paramIdxs query).map
        Found.silent := by
  unfold OASValidatorImp.getValidatorsOf
  split
  · rfl
  · dsimp only
    split
    · rfl
    · rename_i enumMethod _ _
      cases OASValidatorImp.searchTrie order (imp.oasValidators enumMethod).pathTrie
          (pathPart httpPath) paramIdxs with
      | error x => rfl
      | ok r =>
        obtain ⟨b, mapKey, idxs⟩ := r
        simp only [bind, Except.bind]
        split <;> rfl

/-- For a valid method the text makes no difference to the other outputs, and none at all if no route
is found. -/
theorem getValidators_text {method httpPath : Bytes} (hvalid : method ∈ kValidMethods) (m m' : Bytes)
    {paramIdxs : Option ParamIdxs} {query : Option Bytes} {found : Found}
    (h : imp.getValidators order method httpPath m paramIdxs query = .ok found) :
    ∃ found', imp.getValidators order method httpPath m' paramIdxs query = .ok found' ∧
      found'.silent = found.silent ∧ (found.code ≠ .NONE → found' = found) := by
  obtain ⟨first, hfirst, hcase⟩ := getValidators_errorMsg hvalid h
  have hsilent := @getValidatorsOf_silent _ order imp method method httpPath m m' paramIdxs query
  rw [hfirst] at hsilent
  obtain ⟨first', hfirst', hsame⟩ := map_eq_ok_iff.mp hsilent.symm
  obtain ⟨next, hnext, hrun⟩ : ∃ next : Found → Except Fault Found,
      (∀ found, found.code ≠ .INVALID_ROUTE → next found = .ok found) ∧
      ∀ t, imp.getValidators order method httpPath t paramIdxs query =
        imp.getValidatorsOf order method method httpPath t paramIdxs query >>= next := by
    refine ⟨fun found => if found.code = .INVALID_ROUTE then
        (imp.methodMap.lookup method).elim (pure found) fun mappedMethods =>
          OASValidatorImp.getMapped order imp method httpPath (order.iterate mappedMethods) found
      else pure found, fun found hroute => if_neg hroute, fun t => ?_⟩
    simp only [OASValidatorImp.getValidators, MethodValidator.validate, if_pos hvalid, ne_eq,
      not_true_eq_false, if_false]
    cases imp.methodMap.lookup method <;> rfl
  have hcode : first'.silent.code = first.silent.code := by rw [hsame]
  change first'.code = first.code at hcode
  rcases hcase with ⟨hnone, rfl, -⟩ | ⟨hinvalid, -⟩
  · refine ⟨first', ?_, hsame, fun hne => absurd hnone hne⟩
    rw [hrun, hfirst']
    exact hnext _ (by simp [hcode, hnone])
  · have hmsg : first.errorMsg = invalidRoute method httpPath := by
      rcases getValidatorsOf_errorMsg hfirst with ⟨hn, -⟩ | ⟨-, hmsg⟩
      · simp [hinvalid] at hn
      · exact hmsg
    have hmsg' : first'.errorMsg = invalidRoute method httpPath := by
      rcases getValidatorsOf_errorMsg hfirst' with ⟨hn, -⟩ | ⟨-, hmsg⟩
      · simp [hcode, hinvalid] at hn
      · exact hmsg
    obtain rfl : first' = first := by
      obtain ⟨code, text, idxs, q, v⟩ := first
      obtain ⟨code', text', idxs', q', v'⟩ := first'
      simp only [Found.silent, Found.mk.injEq] at hsame hmsg hmsg' ⊢
      exact ⟨hsame.1, hmsg'.trans hmsg.symm, hsame.2.2⟩
    exact ⟨found, by rw [hrun, hfirst', ← hfirst, ← hrun, h], rfl, fun _ => rfl⟩

/-! ### Calls -/

variable {paths : HttpMethod → List Bytes}

/-- For a valid method the outcome of a call does not depend on the text. -/
theorem call_same (himp : Registered imp paths) {call : Call} (hvalid : call.method ∈ kValidMethods)
    (m m' : Bytes) : Same (imp.call rj order m call) (imp.call rj order m' call) := by
  rw [OASValidatorImp.call_eq_lookup himp, OASValidatorImp.call_eq_lookup himp]
  obtain ⟨found, hfound, -⟩ := @OASValidatorImp.lookup_registered σ order imp paths himp m call
  obtain ⟨found', hfound', hsilent, hfail⟩ := getValidators_text hvalid m m' hfound
  have hfound' : imp.lookup order m' call = .ok found' := hfound'
  rw [hfound, hfound']
  show Same (imp.withStore found (call.check rj order found))
    (imp.withStore found' (call.check rj order found'))
  by_cases hcode : found.code = .NONE
  · simp only [Found.silent, Found.mk.injEq] at hsilent
    obtain ⟨hcode', -, hidxs, hquery, hvalidators⟩ := hsilent
    rw [check_congr hidxs hquery]
    obtain ⟨method, key, store, hv, -, hstore⟩ := OASValidatorImp.found_store himp hfound hcode
    simp only [OASValidatorImp.withStore, hcode', hcode, hvalidators, hv, hstore]
    exact (check_assigns call found store found.errorMsg found'.errorMsg).map _
  · rw [hfail hcode]
    exact Same.refl _

/-- A method that is not valid has its text appended. -/
theorem call_invalid (himp : Registered imp paths) {call : Call}
    (hvalid : call.method ∉ kValidMethods) :
    ∃ text, ∀ m, imp.call rj order m call = .ok ⟨.INVALID_METHOD, m ++ text, imp⟩ := by
  refine ⟨imp.methodValidator.errHeader ++ (lit "\"description\": \"Invalid HTTP method '" ++
    (call.method ++ (lit "'" ++ lit "\"\x7d\x7d"))), fun m => ?_⟩
  rw [OASValidatorImp.call_eq_lookup himp]
  simp only [OASValidatorImp.lookup, OASValidatorImp.getValidators, MethodValidator.validate,
    if_neg hvalid]
  simp [bind, Except.bind, pure, Except.pure, OASValidatorImp.withStore]

/-- A call that finds nothing wrong leaves the text alone if the path routes under the method itself,
and else puts in the text of an invalid route. -/
theorem call_success (himp : Registered imp paths)
    (hkeyed : imp.Has fun _ store => store.Keyed) {call : Call} {m : Bytes}
    {c : Checked (OASValidatorImp σ)} (hc : imp.call rj order m call = .ok c)
    (hcode : c.code = .NONE) :
    RoutesUnder order imp call.httpPath call.method ∧ c.errorMsg = m ∨
      ¬RoutesUnder order imp call.httpPath call.method ∧
        c.errorMsg = invalidRoute call.method call.httpPath := by
  rw [OASValidatorImp.call_eq_lookup himp] at hc
  obtain ⟨found, hfound, hc⟩ := bind_eq_ok_iff.mp hc
  have hnone : found.code = .NONE := by
    by_contra hne
    rw [OASValidatorImp.withStore, if_pos hne] at hc
    obtain rfl := Except.ok.inj hc
    exact hne hcode
  obtain ⟨hvalid, -, -⟩ := found_routed himp hfound hnone
  obtain ⟨method, key, store, hv, -, hstore⟩ := OASValidatorImp.found_store himp hfound hnone
  have hmsg : c.errorMsg = found.errorMsg := by
    simp only [OASValidatorImp.withStore, hnone, ne_eq, not_true_eq_false, if_false, hv, hstore] at hc
    exact (check_leaves (hkeyed method key store hstore) found.errorMsg call found).map _ c hc hcode
  obtain ⟨first, hfirst, hcase⟩ := getValidators_errorMsg hvalid hfound
  obtain ⟨enumMethod, henum⟩ := lookup_of_valid hvalid
  have hroutes : RoutesUnder order imp call.httpPath call.method ↔ first.code = .NONE := by
    obtain ⟨first', hfirst', hin⟩ := getValidatorsOf_registered order himp henum call.method
      call.httpPath m (if call.asks.1 then some [] else none) (if call.asks.2 then some [] else none)
    obtain rfl : first' = first := Except.ok.inj (hfirst'.symm.trans hfirst)
    rw [routesUnder_iff himp]
    simp only [henum, Option.some.injEq, exists_eq_left', hin.code, hin.validators]
    rw [routed, List.findSome?_cons, List.findSome?_nil]
    cases route order (paths enumMethod) (pathPart call.httpPath) <;> simp
  rw [hmsg, hroutes]
  rcases hcase with ⟨hn, -, htext⟩ | ⟨hi, htext⟩
  · exact Or.inl ⟨hn, htext⟩
  · exact Or.inr ⟨by simp [hi], htext⟩

end

/-! ### Runs -/

/-- A call that returned: what `error_msg` held before, the code, and what it held afterwards. -/
structure Exchange where
  call : Call
  before : Bytes
  code : ValidationError
  after : Bytes

/-- Calls one after the other on one validator, each of which returns. -/
inductive Exchanges {σ : Type} (rj : RapidJson σ) (order : Hashing) :
    OASValidatorImp σ → List Exchange → OASValidatorImp σ → Prop
  | nil (imp : OASValidatorImp σ) : Exchanges rj order imp [] imp
  | cons {imp last : OASValidatorImp σ} {call : Call} {before : Bytes}
      {c : Checked (OASValidatorImp σ)} {rest : List Exchange} :
      imp.call rj order before call = .ok c → Exchanges rj order c.after rest last →
        Exchanges rj order imp (⟨call, before, c.code, c.errorMsg⟩ :: rest) last

section

variable {σ : Type} {rj : RapidJson σ} {order : Hashing} {imp last : OASValidatorImp σ}
  {es : List Exchange}

theorem exchanges_iff (hreset : ResetRestores rj) (himp : imp.AtRest rj) :
    Exchanges rj order imp es last ↔
      last = imp ∧ ∀ e ∈ es, handedBack (imp.call rj order e.before e.call) = .ok (e.code, e.after) := by
  constructor
  · intro h
    induction h with
    | nil imp => simp
    | @cons imp last call before c rest hcall hrest ih =>
      have hafter : c.after = imp := OASValidatorImp.call_keeps hreset himp before call c hcall
      rw [hafter] at ih
      obtain ⟨hlast, hes⟩ := ih himp
      refine ⟨hlast, fun e he => ?_⟩
      rcases List.mem_cons.mp he with rfl | he
      · simp [handedBack, hcall, Except.map]
      · exact hes e he
  · rintro ⟨rfl, h⟩
    induction es with
    | nil => exact Exchanges.nil last
    | cons e rest ih =>
      obtain ⟨call, before, code, after⟩ := e
      obtain ⟨c, hcall, hc⟩ := map_eq_ok_iff.mp (h _ List.mem_cons_self)
      obtain ⟨rfl, rfl⟩ := Prod.mk.inj hc
      apply Exchanges.cons hcall
      rw [OASValidatorImp.call_keeps hreset himp before call c hcall]
      exact ih fun e he => h e (List.mem_cons_of_mem _ he)

/-- A call that fails with one text fails with every other; the error texts are the same but for a
method that is not valid. -/
theorem exists_text {paths : HttpMethod → List Bytes} (himp : Registered imp paths) {call : Call}
    {m text : Bytes} {code : ValidationError}
    (h : handedBack (imp.call rj order m call) = .ok (code, text)) (hcode : code ≠ .NONE) (m' : Bytes) :
    ∃ text', handedBack (imp.call rj order m' call) = .ok (code, text') ∧
      (text' = text ↔ (call.method ∉ kValidMethods → m' = m)) := by
  obtain ⟨c, hc, hpair⟩ := map_eq_ok_iff.mp h
  obtain ⟨rfl, rfl⟩ := Prod.mk.inj hpair
  by_cases hvalid : call.method ∈ kValidMethods
  · have hsame := @call_same _ rj order imp paths himp call hvalid m m'
    rw [hc] at hsame
    obtain ⟨x, hx, -⟩ | ⟨d, d', hd, hd', hout⟩ := same_iff.mp hsame
    · simp at hx
    · obtain rfl := Except.ok.inj hd
      obtain ⟨hcodes, htexts, -⟩ := outcome_eq_iff.mp hout
      refine ⟨d'.errorMsg, ?_, fun _ hinvalid => absurd hvalid hinvalid,
        fun _ => (htexts hcode).symm⟩
      simp [handedBack, hd', Except.map, hcodes]
  · obtain ⟨text, htext⟩ := @call_invalid _ rj order imp paths himp call hvalid
    obtain rfl := Except.ok.inj ((htext m).symm.trans hc)
    refine ⟨m' ++ text, by rw [htext]; rfl, ?_⟩
    simp [hvalid]

variable {files : Bytes → Option Bytes} {oasSpecs : Bytes} {methodMap : MethodMap} {doc : Json}

/-- In every run, whatever texts the calls find in `error_msg`: all failures of one call leave the
same text if and only if those with a method that is not valid found the same text; and every failure
leaves what the call leaves in an empty string if and only if those found an empty one. -/
theorem reused_text_iff (h : Constructs rj order files oasSpecs methodMap doc imp)
    (hreset : ResetRestores rj) (hrun : Exchanges rj order imp es last) :
    ((∀ e ∈ es, ∀ e' ∈ es, e'.call = e.call → e.code ≠ .NONE → e'.after = e.after) ↔
      ∀ e ∈ es, ∀ e' ∈ es, e'.call = e.call → e.call.method ∉ kValidMethods →
        e'.before = e.before) ∧
    ((∀ e ∈ es, e.code ≠ .NONE → handedBack (imp.answer rj order e.call) = .ok (e.code, e.after)) ↔
      ∀ e ∈ es, e.call.method ∉ kValidMethods → e.before = []) := by
  obtain ⟨-, hes⟩ := (exchanges_iff hreset h.atRest).mp hrun
  obtain ⟨hreg, -, -⟩ := h.registered
  have hfails : ∀ e ∈ es, e.call.method ∉ kValidMethods → e.code ≠ .NONE := by
    intro e he hinvalid
    obtain ⟨text, htext⟩ := @call_invalid _ rj order imp _ hreg e.call hinvalid
    have := hes e he
    rw [htext] at this
    obtain ⟨hcode, -⟩ := Prod.mk.inj (Except.ok.inj this)
    rw [← hcode]
    simp
  constructor
  · have hpair : ∀ e ∈ es, ∀ e' ∈ es, e'.call = e.call → e.code ≠ .NONE →
        (e'.after = e.after ↔ (e.call.method ∉ kValidMethods → e'.before = e.before)) := by
      intro e he e' he' hcall hcode
      obtain ⟨text', htext', hiff⟩ := exists_text hreg (hes e he) hcode e'.before
      have hother := hes e' he'
      rw [hcall, htext'] at hother
      obtain ⟨-, rfl⟩ := Prod.mk.inj (Except.ok.inj hother)
      exact hiff
    constructor
    · intro hall e he e' he' hcall hinvalid
      have hcode := hfails e he hinvalid
      exact (hpair e he e' he' hcall hcode).mp (hall e he e' he' hcall hcode) hinvalid
    · intro hall e he e' he' hcall hcode
      exact (hpair e he e' he' hcall hcode).mpr (hall e he e' he' hcall)
  · have hempty : ∀ e ∈ es, e.code ≠ .NONE →
        (handedBack (imp.answer rj order e.call) = .ok (e.code, e.after) ↔
          (e.call.method ∉ kValidMethods → e.before = [])) := by
      intro e he hcode
      obtain ⟨text', htext', hiff⟩ := exists_text hreg (hes e he) hcode []
      rw [OASValidatorImp.answer_eq_call, htext', Except.ok.injEq, Prod.mk.injEq]
      simp only [true_and, hiff, eq_comm]
    constructor
    · intro hall e he hinvalid
      exact (hempty e he (hfails e he hinvalid)).mp (hall e he (hfails e he hinvalid)) hinvalid
    · intro hall e he hcode
      exact (hempty e he hcode).mpr (hall e he)

/-- In every run, a call that finds nothing wrong leaves the text as it was if and only if the path
routes under the method of the request itself, or the text was that of an invalid route already. -/
theorem success_text_iff (h : Constructs rj order files oasSpecs methodMap doc imp)
    (hreset : ResetRestores rj) (hrun : Exchanges rj order imp es last) :
    ∀ e ∈ es, e.code = .NONE → (e.after = e.before ↔
      RoutesUnder order imp e.call.httpPath e.call.method ∨
        e.before = invalidRoute e.call.method e.call.httpPath) := by
  obtain ⟨-, hes⟩ := (exchanges_iff hreset h.atRest).mp hrun
  obtain ⟨hreg, -, -⟩ := h.registered
  intro e he hcode
  obtain ⟨c, hc, hpair⟩ := map_eq_ok_iff.mp (hes e he)
  obtain ⟨hcode', hafter⟩ := Prod.mk.inj hpair
  have hkeyed := keyed_kept.processDocument h.choose_spec.2
  rcases call_success hreg hkeyed hc (hcode'.trans hcode) with ⟨hroutes, htext⟩ | ⟨hno, htext⟩
  · simp [hroutes, ← hafter, htext]
  · rw [← hafter, htext]
    simp [hno, eq_comm]

end

/-! ### A caller with one string -/

/-- The text for the method `HTTP`. -/
def httpText : Bytes :=
  errHeaderOf .INVALID_METHOD ++ lit "\"description\": \"Invalid HTTP method 'HTTP'\"\x7d\x7d"

/-- Calls for `/users/7`: under `GET`; under `POST`, which is mapped to `GET`; and under `HTTP`, with
an empty string, and with what the call before left in it. -/
def usersExchanges : List Exchange :=
  [⟨.route (lit "GET") (lit "/users/7"), lit "text", .NONE, lit "text"⟩,
    ⟨.route (lit "POST") (lit "/users/7"), [], .NONE, invalidRoute (lit "POST") (lit "/users/7")⟩,
    ⟨.route (lit "HTTP") (lit "/users/7"), [], .INVALID_METHOD, httpText⟩,
    ⟨.route (lit "HTTP") (lit "/users/7"), httpText, .INVALID_METHOD, httpText ++ httpText⟩]

theorem usersExchanges_run :
    ∃ (doc : Json) (imp : OASValidatorImp Json),
      Constructs RapidJson.plain .insertion (fun _ => none) usersSpec (postAsGet [lit "GET"]) doc
        imp ∧ ∀ e ∈ usersExchanges, handedBack (imp.call RapidJson.plain .insertion e.before e.call) =
          .ok (e.code, e.after) := by
  have hrun : (construct RapidJson.plain .insertion (fun _ => none) 60 usersSpec
      (postAsGet [lit "GET"])).map (fun r => r.map fun imp =>
        usersExchanges.all fun e =>
          decide (handedBack (imp.call RapidJson.plain .insertion e.before e.call) =
            .ok (e.code, e.after))) = some (.ok true) := by
    decide +kernel
  obtain ⟨r, hr, hmap⟩ := Option.map_eq_some_iff.mp hrun
  obtain ⟨imp, rfl, hask⟩ := map_eq_ok_iff.mp hmap
  obtain ⟨doc, hdoc⟩ := constructs_iff.mpr ⟨60, hr⟩
  exact ⟨doc, imp, hdoc, by simpa using hask⟩

theorem reused_text_iff_users :
    ∃ (doc : Json) (imp : OASValidatorImp Json),
      Constructs RapidJson.plain .insertion (fun _ => none) usersSpec (postAsGet [lit "GET"]) doc
        imp ∧ Exchanges RapidJson.plain .insertion imp (usersExchanges.take 3) imp ∧
      ∀ e ∈ usersExchanges.take 3, e.code ≠ .NONE →
        handedBack (imp.answer RapidJson.plain .insertion e.call) = .ok (e.code, e.after) := by
  obtain ⟨doc, imp, hdoc, hes⟩ := usersExchanges_run
  have hrun : Exchanges RapidJson.plain .insertion imp (usersExchanges.take 3) imp :=
    (exchanges_iff plain_resetRestores hdoc.atRest).mpr
      ⟨rfl, fun e he => hes e (List.mem_of_mem_take he)⟩
  refine ⟨doc, imp, hdoc, hrun, (reused_text_iff hdoc plain_resetRestores hrun).2.mpr ?_⟩
  simp only [usersExchanges, List.take, List.forall_mem_cons, Call.method]
  refine ⟨fun h => absurd (by decide) h, fun h => absurd (by decide) h, fun _ => trivial, by simp⟩

/-- The second call with the method `HTTP` appends its text to that of the first one. -/
theorem method_text_appended : ¬∀ (rj : RapidJson Json) (order : Hashing)
    (files : Bytes → Option Bytes) (oasSpecs : Bytes) (methodMap : MethodMap) (doc : Json)
    (imp last : OASValidatorImp Json) (es : List Exchange),
    Constructs rj order files oasSpecs methodMap doc imp → ResetRestores rj →
      Exchanges rj order imp es last →
        ∀ e ∈ es, ∀ e' ∈ es, e'.call = e.call → e.code ≠ .NONE → e'.after = e.after := by
  intro h
  obtain ⟨doc, imp, hdoc, hes⟩ := usersExchanges_run
  have hrun : Exchanges RapidJson.plain .insertion imp usersExchanges imp :=
    (exchanges_iff plain_resetRestores hdoc.atRest).mpr ⟨rfl, hes⟩
  have htexts := h _ _ _ _ _ doc imp imp usersExchanges hdoc plain_resetRestores hrun
    ⟨.route (lit "HTTP") (lit "/users/7"), [], .INVALID_METHOD, httpText⟩ (by simp [usersExchanges])
    ⟨.route (lit "HTTP") (lit "/users/7"), httpText, .INVALID_METHOD, httpText ++ httpText⟩
    (by simp [usersExchanges]) rfl (by simp)
  have hempty : httpText = [] := by simpa using htexts
  exact absurd hempty (by decide)

theorem success_text_iff_users :
    ∃ (doc : Json) (imp : OASValidatorImp Json),
      Constructs RapidJson.plain .insertion (fun _ => none) usersSpec (postAsGet [lit "GET"]) doc
        imp ∧ Exchanges RapidJson.plain .insertion imp usersExchanges imp ∧
      RoutesUnder .insertion imp (lit "/users/7") (lit "GET") := by
  obtain ⟨doc, imp, hdoc, hes⟩ := usersExchanges_run
  have hrun : Exchanges RapidJson.plain .insertion imp usersExchanges imp :=
    (exchanges_iff plain_resetRestores hdoc.atRest).mpr ⟨rfl, hes⟩
  refine ⟨doc, imp, hdoc, hrun, ?_⟩
  have hkept := (success_text_iff hdoc plain_resetRestores hrun
    ⟨.route (lit "GET") (lit "/users/7"), lit "text", .NONE, lit "text"⟩ (by simp [usersExchanges])
    rfl).mp rfl
  rcases hkept with h | h
  · exact h
  · exact absurd h (by decide)

/-- A route that is found under the mapped method leaves the text of the lookup that failed. -/
theorem text_of_failed_lookup : ¬∀ (rj : RapidJson Json) (order : Hashing)
    (files : Bytes → Option Bytes) (oasSpecs : Bytes) (methodMap : MethodMap) (doc : Json)
    (imp last : OASValidatorImp Json) (es : List Exchange),
    Constructs rj order files oasSpecs methodMap doc imp → ResetRestores rj →
      Exchanges rj order imp es last → ∀ e ∈ es, e.code = .NONE → e.after = e.before := by
  intro h
  obtain ⟨doc, imp, hdoc, hes⟩ := usersExchanges_run
  have hrun : Exchanges RapidJson.plain .insertion imp usersExchanges imp :=
    (exchanges_iff plain_resetRestores hdoc.atRest).mpr ⟨rfl, hes⟩
  have htext := h _ _ _ _ _ doc imp imp usersExchanges hdoc plain_resetRestores hrun
    ⟨.route (lit "POST") (lit "/users/7"), [], .NONE, invalidRoute (lit "POST") (lit "/users/7")⟩
    (by simp [usersExchanges]) rfl
  exact absurd htext (by decide)

end OasValidator
