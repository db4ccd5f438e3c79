import OasValidator.Imp.Requests
import OasValidator.Imp.Resolved
import OasValidator.Imp.Tables
import OasValidator.Validators.Rest

/-! Runs of calls on one validator.  The calls share its `SchemaValidator`s, so what a call answers
could depend on the calls before it; it does not, as each call that returns leaves the validator as it
was built. -/

namespace OasValidator

open Library.Table

/-- All validators of all operations are at rest. -/
def OASValidatorImp.AtRest {σ : Type} (rj : RapidJson σ) (imp : OASValidatorImp σ) : Prop :=
  ∀ method path store, (imp.oasValidators method).perPathValidators.lookup path = some store →
    store.AtRest rj

/-! ### The constructor -/

section

variable {σ : Type} {rj : RapidJson σ} {imp : OASValidatorImp σ}

theorem atRest_kept : Kept rj fun _ store => store.AtRest rj where
  empty _ := ValidatorsStore.empty_atRest
  body _ := ValidatorsStore.ofBody_atRest
  add := ValidatorsStore.addParam_atRest

/-- A new validator is at rest. -/
theorem Constructs.atRest {order : Hashing} {files : Bytes → Option Bytes} {oasSpecs : Bytes}
    {methodMap : MethodMap} {doc : Json} (h : Constructs rj order files oasSpecs methodMap doc imp) :
    imp.AtRest rj := by
  obtain ⟨_, -, h⟩ := h
  exact atRest_kept.processDocument h

end

/-! ### One call -/

/-- The calls of the interface, with what they are given besides `error_msg`. -/
inductive Call where
  | route (method httpPath : Bytes)
  | body (method httpPath jsonBody : Bytes)
  | pathParam (method httpPath : Bytes)
  | queryParam (method httpPath : Bytes)
  | headers (method httpPath : Bytes) (headers : List (Bytes × Bytes))
  | request (method httpPath : Bytes)
  | requestBody (method httpPath jsonBody : Bytes)
  | requestHeaders (method httpPath : Bytes) (headers : List (Bytes × Bytes))
  | requestBodyHeaders (method httpPath jsonBody : Bytes) (headers : List (Bytes × Bytes))

namespace OASValidatorImp

variable {σ : Type} {rj : RapidJson σ} {order : Hashing} {imp : OASValidatorImp σ}

/-- A call with an empty `error_msg`. -/
def answer (rj : RapidJson σ) (order : Hashing) (imp : OASValidatorImp σ) :
    Call → Except Fault (Checked (OASValidatorImp σ))
  | .route method httpPath => imp.validateRoute order method httpPath []
  | .body method httpPath jsonBody => imp.validateBody rj order method httpPath jsonBody []
  | .pathParam method httpPath => imp.validatePathParam rj order method httpPath []
  | .queryParam method httpPath => imp.validateQueryParam rj order method httpPath []
  | .headers method httpPath headers => imp.validateHeaders rj order method httpPath headers []
  | .request method httpPath => imp.validateRequest rj order method httpPath []
  | .requestBody method httpPath jsonBody =>
    imp.validateRequestBody rj order method httpPath jsonBody []
  | .requestHeaders method httpPath headers =>
    imp.validateRequestHeaders rj order method httpPath headers []
  | .requestBodyHeaders method httpPath jsonBody headers =>
    imp.validateRequestBodyHeaders rj order method httpPath jsonBody headers []

/-- A call with the text that the caller's `error_msg` holds. -/
def call (rj : RapidJson σ) (order : Hashing) (imp : OASValidatorImp σ) (errorMsg : Bytes) :
    Call → Except Fault (Checked (OASValidatorImp σ))
  | .route method httpPath => imp.validateRoute order method httpPath errorMsg
  | .body method httpPath jsonBody => imp.validateBody rj order method httpPath jsonBody errorMsg
  | .pathParam method httpPath => imp.validatePathParam rj order method httpPath errorMsg
  | .queryParam method httpPath => imp.validateQueryParam rj order method httpPath errorMsg
  | .headers method httpPath headers =>
    imp.validateHeaders rj order method httpPath headers errorMsg
  | .request method httpPath => imp.validateRequest rj order method httpPath errorMsg
  | .requestBody method httpPath jsonBody =>
    imp.validateRequestBody rj order method httpPath jsonBody errorMsg
  | .requestHeaders method httpPath headers =>
    imp.validateRequestHeaders rj order method httpPath headers errorMsg
  | .requestBodyHeaders method httpPath jsonBody headers =>
    imp.validateRequestBodyHeaders rj order method httpPath jsonBody headers errorMsg

theorem answer_eq_call (rj : RapidJson σ) (order : Hashing) (imp : OASValidatorImp σ) (call : Call) :
    imp.answer rj order call = imp.call rj order [] call := by
  cases call <;> rfl

theorem setStore_of_lookup {method : HttpMethod} {key : Bytes} {store : ValidatorsStore σ}
    (h : (imp.oasValidators method).perPathValidators.lookup key = some store) :
    imp.setStore method key store = imp := by
  simp only [setStore, put_of_lookup h, Function.update_eq_self]

theorem withStore_keeps (himp : imp.AtRest rj) (found : Found)
    {check : ValidatorsStore σ → Bytes → Except Fault (Checked (ValidatorsStore σ))}
    (hcheck : ∀ store : ValidatorsStore σ, store.AtRest rj → ∀ errorMsg,
      Keeps store (check store errorMsg)) :
    Keeps imp (imp.withStore found check) := by
  unfold withStore
  split
  · exact Keeps.ok _ _
  · split
    · exact Keeps.error _
    · rename_i method key hfound
      split
      · exact Keeps.error _
      · rename_i store hstore
        exact (hcheck store (himp method key store hstore) found.errorMsg).map
          (setStore_of_lookup hstore)

/-- A lookup, and a check of the operation that it finds. -/
theorem lookup_keeps (himp : imp.AtRest rj) (r : Except Fault Found)
    {check : Found → ValidatorsStore σ → Bytes → Except Fault (Checked (ValidatorsStore σ))}
    (hcheck : ∀ found, ∀ store : ValidatorsStore σ, store.AtRest rj → ∀ errorMsg,
      Keeps store (check found store errorMsg)) :
    Keeps imp (r >>= fun found => imp.withStore found (check found)) := by
  intro c hc
  obtain ⟨found, -, hc⟩ := bind_eq_ok_iff.mp hc
  exact withStore_keeps himp found (hcheck found) c hc

/-- A call that returns leaves the validator as it was. -/
theorem call_keeps (hreset : ResetRestores rj) (himp : imp.AtRest rj) (errorMsg : Bytes)
    (call : Call) : Keeps imp (imp.call rj order errorMsg call) := by
  open ValidatorsStore in
  cases call with
  | route method httpPath =>
    intro c hc
    obtain ⟨found, -, hc⟩ := bind_eq_ok_iff.mp hc
    obtain rfl := Except.ok.inj hc
    rfl
  | body method httpPath jsonBody =>
    exact lookup_keeps himp _ fun _ store hs m => validateBody_keeps hreset hs jsonBody m
  | pathParam method httpPath =>
    exact lookup_keeps himp _ fun _ store hs m => validatePathParams_keeps hreset hs _ _ m
  | queryParam method httpPath =>
    exact lookup_keeps himp _ fun _ store hs m => validateQueryParams_keeps hreset hs _ m
  | headers method httpPath headers =>
    exact lookup_keeps himp _ fun _ store hs m =>
      validateHeaderParams_keeps hreset order hs headers m
  | request method httpPath =>
    exact lookup_keeps himp _ fun _ store hs m =>
      (validatePathParams_keeps hreset hs _ _ m).andThen fun m =>
        validateQueryParams_keeps hreset hs _ m
  | requestBody method httpPath jsonBody =>
    exact lookup_keeps himp _ fun _ store hs m =>
      (validateBody_keeps hreset hs jsonBody m).andThen fun m =>
        (validatePathParams_keeps hreset hs _ _ m).andThen fun m =>
          validateQueryParams_keeps hreset hs _ m
  | requestHeaders method httpPath headers =>
    exact lookup_keeps himp _ fun _ store hs m =>
      (validatePathParams_keeps hreset hs _ _ m).andThen fun m =>
        (validateQueryParams_keeps hreset hs _ m).andThen fun m =>
          validateHeaderParams_keeps hreset order hs headers m
  | requestBodyHeaders method httpPath jsonBody headers =>
    exact lookup_keeps himp _ fun _ store hs m =>
      (validateBody_keeps hreset hs jsonBody m).andThen fun m =>
        (validatePathParams_keeps hreset hs _ _ m).andThen fun m =>
          (validateQueryParams_keeps hreset hs _ m).andThen fun m =>
            validateHeaderParams_keeps hreset order hs headers m

theorem answer_keeps (hreset : ResetRestores rj) (himp : imp.AtRest rj) (call : Call) :
    Keeps imp (imp.answer rj order call) := by
  rw [answer_eq_call]
  exact call_keeps hreset himp [] call

end OASValidatorImp

/-! ### Runs -/

/-- Calls one after the other on one validator, each of which returns, with what they answered. -/
inductive Run {σ : Type} (rj : RapidJson σ) (order : Hashing) :
    OASValidatorImp σ → List (Call × ValidationError × Bytes) → OASValidatorImp σ → Prop
  | nil (imp : OASValidatorImp σ) : Run rj order imp [] imp
  | cons {imp last : OASValidatorImp σ} {call : Call} {c : Checked (OASValidatorImp σ)}
      {answers : List (Call × ValidationError × Bytes)} :
      imp.answer rj order call = .ok c → Run rj order c.after answers last →
        Run rj order imp ((call, c.code, c.errorMsg) :: answers) last

/-- What a call hands back, or how it fails to return. -/
def handedBack {σ : Type} (r : Except Fault (Checked (OASValidatorImp σ))) :
    Except Fault (ValidationError × Bytes) :=
  r.map fun c => (c.code, c.errorMsg)

section

variable {σ : Type} {rj : RapidJson σ} {order : Hashing} {imp last : OASValidatorImp σ}
  {answers : List (Call × ValidationError × Bytes)}

/-- On a validator at rest the answers of a run are those of its calls made alone. -/
theorem run_iff (hreset : ResetRestores rj) (himp : imp.AtRest rj) :
    Run rj order imp answers last ↔
      last = imp ∧ ∀ a ∈ answers, handedBack (imp.answer rj order a.1) = .ok a.2 := by
  constructor
  · intro h
    induction h with
    | nil imp => simp
    | @cons imp last call c answers hcall hrest ih =>
      have hafter : c.after = imp := OASValidatorImp.answer_keeps hreset himp call c hcall
      rw [hafter] at ih
      obtain ⟨hlast, hanswers⟩ := ih himp
      refine ⟨hlast, fun a ha => ?_⟩
      rcases List.mem_cons.mp ha with rfl | ha
      · simp [handedBack, hcall, Except.map]
      · exact hanswers a ha
  · rintro ⟨rfl, h⟩
    induction answers with
    | nil => exact Run.nil last
    | cons a rest ih =>
      obtain ⟨call, code, errorMsg⟩ := a
      obtain ⟨c, hcall, hc⟩ := map_eq_ok_iff.mp (h _ List.mem_cons_self)
      obtain ⟨rfl, rfl⟩ := Prod.mk.inj hc
      apply Run.cons hcall
      rw [OASValidatorImp.answer_keeps hreset himp call c hcall]
      exact ih fun a ha => h a (List.mem_cons_of_mem _ ha)

end

section

variable {σ : Type} {rj : RapidJson σ} {order : Hashing} {files : Bytes → Option Bytes}
  {oasSpecs : Bytes} {methodMap : MethodMap} {doc doc' : Json} {imp imp' last : OASValidatorImp σ}

/-- The constructor makes the same validator each time. -/
theorem Constructs.unique (h : Constructs rj order files oasSpecs methodMap doc imp)
    (h' : Constructs rj order files oasSpecs methodMap doc' imp') : imp' = imp := by
  obtain ⟨fuel, hdoc, himp⟩ := h
  obtain ⟨fuel', hdoc', himp'⟩ := h'
  have hsame : doc' = doc := by
    unfold resolvedSpecs at hdoc hdoc'
    cases hparse : parseSpecs rj files oasSpecs with
    | error x => simp [hparse] at hdoc
    | ok parsed =>
      rw [hparse] at hdoc hdoc'
      exact Except.ok.inj (resolveReferences_det hdoc' hdoc)
  rw [hsame, himp] at himp'
  exact (Except.ok.inj himp').symm

/-- In a run of calls on one validator each call answers what it answers as the first call on a
validator newly constructed from the same specification; so does any next call, also if it does not
return; and all `SchemaValidator`s are left as they were built. -/
theorem run_as_first {answers : List (Call × ValidationError × Bytes)}
    (h : Constructs rj order files oasSpecs methodMap doc imp)
    (hnew : Constructs rj order files oasSpecs methodMap doc' imp')
    (hreset : ResetRestores rj) (hrun : Run rj order imp answers last) :
    (∀ a ∈ answers, handedBack (imp'.answer rj order a.1) = .ok a.2) ∧
      (∀ call, handedBack (last.answer rj order call) = handedBack (imp'.answer rj order call)) ∧
      last.AtRest rj := by
  have hrest := h.atRest
  obtain rfl := h.unique hnew
  obtain ⟨rfl, hanswers⟩ := (run_iff hreset hrest).mp hrun
  exact ⟨hanswers, fun _ => rfl, hrest⟩

end

/-- The name of the type of a value. -/
def typeName : Json → Bytes
  | .null => lit "null"
  | .bool _ => lit "boolean"
  | .number _ => lit "number"
  | .string _ => lit "string"
  | .array _ => lit "array"
  | .object _ => lit "object"

/-- The tree of errors for a value of another type than the schema names. -/
def typeError (schema value : Json) : Json :=
  let expected := match schema.get (lit "type") with
    | .ok type => type
    | .error _ => .null
  .object [(lit "type", .object [(lit "expected", .array [expected]),
    (lit "actual", .string (typeName value)), (lit "errorCode", .number (lit "20")),
    (lit "instanceRef", .string (lit "#")), (lit "schemaRef", .string (lit "#"))])]

/-- RapidJSON as `RapidJson.plain` has it, with `SchemaValidator`s that keep the error of a value they
rejected, and reject all values from then on until they are reset. -/
def RapidJson.latching : RapidJson (Json × Option Json) where
  parse := RapidJson.plain.parse
  getParseError_En := RapidJson.plain.getParseError_En
  schemaValidator schema := (schema, none)
  accept
    | (schema, some error), _ => (false, schema, some error)
    | (schema, none), value =>
      if hasType schema value then (true, schema, none)
      else (false, schema, some (typeError schema value))
  getError state := state.2.getD (.object [])
  reset state := (state.1, none)
  getInt lexeme := if lexeme = lit "20" then 20 else 0
  getValidateError_En code :=
    if code = 20 then
      lit "Property has a type '%actual' that is not in the following list: '%expected'."
    else lit "No error."
  numberToString := RapidJson.plain.numberToString

theorem latching_resetRestores : ResetRestores RapidJson.latching := by
  intro schema value
  simp only [RapidJson.latching]
  split <;> rfl

/-- A specification of an operation with a body that is an array. -/
def listSpec : Bytes :=
  lit "\x7b\"paths\":\x7b\"/list\":\x7b\"put\":\x7b\"requestBody\":\x7b\"content\":" ++
    lit "\x7b\"application/json\":\x7b\"schema\":\x7b\"type\":\"array\"" ++
    lit "\x7d\x7d\x7d\x7d\x7d\x7d\x7d\x7d"

/-- A body of another type, one that is not JSON, one that is accepted, and a request without a
route. -/
def listCalls : List Call :=
  [.body (lit "PUT") (lit "/list") (lit "true"), .body (lit "PUT") (lit "/list") (lit "["),
    .requestBody (lit "PUT") (lit "/list") (lit "[]"), .route (lit "PUT") (lit "/none")]

/-- What is expected of the calls. -/
def listAnswers : List (ValidationError × Bytes) :=
  let header := lit "\x7b\"errorCode\":\"INVALID_BODY\",\"details\":\x7b" ++
    lit "\"specRef\":\"#/paths/%2Flist/put/requestBody/content/application%2Fjson/schema\","
  [(.INVALID_BODY, header ++
      lit "\"code\":\"type\",\"description\":\"Property has a type 'boolean' that is not " ++
      lit "in the following list: 'array'.\",\"instance\":\"#\",\"schema\":\"#\"\x7d\x7d"),
    (.INVALID_BODY, header ++
      lit "\"code\":\"parserError\",\"description\":\"Invalid value.\",\"offset\":0\x7d\x7d"),
    (.NONE, []), (.INVALID_ROUTE, invalidRoute (lit "PUT") (lit "/none"))]

theorem run_as_first_list :
    ∃ (doc : Json) (imp last : OASValidatorImp (Json × Option Json)),
      Constructs RapidJson.latching .insertion (fun _ => none) listSpec [] doc imp ∧
      Run RapidJson.latching .insertion imp (listCalls.zip listAnswers) last ∧
      ∀ call, handedBack (last.answer RapidJson.latching .insertion call) =
        handedBack (imp.answer RapidJson.latching .insertion call) := by
  have hrun : (construct RapidJson.latching .insertion (fun _ => none) 60 listSpec []).map
      (fun r => r.map fun imp =>
        listCalls.map fun call => handedBack (imp.answer RapidJson.latching .insertion call)) =
      some (.ok (listAnswers.map Except.ok)) := by
    decide +kernel
  obtain ⟨r, hr, hmap⟩ := Option.map_eq_some_iff.mp hrun
  obtain ⟨imp, rfl, hanswers⟩ := map_eq_ok_iff.mp hmap
  obtain ⟨doc, hdoc⟩ := constructs_iff.mpr ⟨60, hr⟩
  have hcalls : Run RapidJson.latching .insertion imp (listCalls.zip listAnswers) imp := by
    apply (run_iff latching_resetRestores hdoc.atRest).mpr
    refine ⟨rfl, ?_⟩
    simpa [listCalls, listAnswers] using hanswers
  exact ⟨doc, imp, imp, hdoc, hcalls,
    (run_as_first hdoc hdoc latching_resetRestores hcalls).2.1⟩

end OasValidator
