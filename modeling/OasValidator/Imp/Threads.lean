import OasValidator.Imp.Returns
import OasValidator.Library.Locks

/-! Calls of several threads on one validator.  Tables, tries, deserializers and texts are only read by a
call; the `SchemaValidator`s are changed, each under the mutex of its `JsonValidator`.  A call is written
out here with its single steps on these, and calls that take their steps in any order hand back what
each hands back alone. -/

namespace OasValidator

open Library.Table Library.Locks

namespace Threads

/-- Which of the `JsonValidator`s of an operation. -/
inductive Slot where
  | body
  | path (n : Nat)
  | query (n : Nat)
  | header (name : Bytes)
  deriving DecidableEq

/-- A `JsonValidator` of the whole validator. -/
structure Place where
  method : HttpMethod
  path : Bytes
  slot : Slot
  deriving DecidableEq

/-- A thread that makes a call, with the states of the `SchemaValidator`s; it hands back a code and the
error text. -/
abbrev Caller (σ : Type) := Thread Place σ (Except Fault (ValidationError × Bytes))

/-- A check with its steps, and what the thread goes on with. -/
abbrev Stepwise (σ : Type) := (ValidationError → Bytes → Caller σ) → Caller σ

namespace Stepwise

variable {σ : Type}

def ret (code : ValidationError) (errorMsg : Bytes) : Stepwise σ := fun next => next code errorMsg

def throw (fault : Fault) : Stepwise σ := fun _ => .done (.error fault)

/-- A check, and behind `CHECK_ERROR` the next one. -/
def andThen (check : Stepwise σ) (behind : Bytes → Stepwise σ) : Stepwise σ := fun next =>
  check fun code errorMsg => if code = .NONE then behind errorMsg next else next code errorMsg

end Stepwise

/-! ### The steps of a call -/

section

variable {σ : Type} (rj : RapidJson σ)

/-- `JsonValidator::Validate`.  The text is parsed without the lock; from `Accept` to `Reset` it is held,
also while the tree of errors is read. -/
def validate (v : BaseValidator) (place : Place) (jsonStr errorMsg : Bytes) : Stepwise σ := fun next =>
  match rj.parse (cstr jsonStr) with
  | .error (code, offset) =>
    next v.codeOnError (v.errHeader ++ lit "\"code\":\"parserError\",\"description\":\"" ++
      rj.getParseError_En code ++ lit "\",\"offset\":" ++ toString offset ++ lit "\x7d\x7d")
  | .ok doc =>
    .lock place <| .change place (fun validator => (rj.accept validator doc).2) fun validator =>
      if (rj.accept validator doc).1 then
        .change place rj.reset fun _ => .unlock place (next .NONE errorMsg)
      else
        .change place id fun validator =>
          match JsonValidator.createErrorMessages rj [] false (rj.getError validator) v.errHeader with
          | .error fault => .unlock place (.done (.error fault))
          | .ok errorMsg =>
            .change place rj.reset fun _ =>
              .unlock place (next v.codeOnError (errorMsg ++ lit "\x7d\x7d"))

/-- `ParamValidator::ValidateParam`. -/
def validateParam (v : ParamValidator σ) (place : Place) (buf : Nat → UInt8) (beg end_ : Nat)
    (errorMsg : Bytes) : Stepwise σ :=
  match (v.deserializer.deserialize buf beg end_).1 with
  | .ok ret => validate rj v.toBaseValidator place ret errorMsg
  | .error (.exception what) =>
    .ret v.codeOnError (v.errHeader ++ cstr what ++ lit "\x7d\x7d")
  | .error .lengthError => .throw .lengthError

variable (placeOf : Slot → Place)

def validateBody (store : ValidatorsStore σ) (jsonBody errorMsg : Bytes) : Stepwise σ :=
  match store.bodyValidator with
  | none => .ret .NONE errorMsg
  | some v => validate rj v.toBaseValidator (placeOf .body) jsonBody errorMsg

/-- The loop over the path parameters, from the `n`th on. -/
def checkPathParams (buf : Nat → UInt8) (paramIdxs : ParamIdxs) :
    Nat → List (PathParamValidatorInfo σ) → Bytes → Stepwise σ
  | _, [], errorMsg => .ret .NONE errorMsg
  | n, info :: rest, errorMsg =>
    match paramIdxs.lookup info.idx with
    | none => .ret info.validator.codeOnError info.validator.errorOnMissing
    | some range =>
      (validateParam rj info.validator (placeOf (.path n)) buf range.beg range.end_ errorMsg).andThen
        (checkPathParams buf paramIdxs (n + 1) rest)

def validatePathParams (store : ValidatorsStore σ) (buf : Nat → UInt8) (paramIdxs : ParamIdxs)
    (errorMsg : Bytes) : Stepwise σ :=
  checkPathParams rj placeOf buf paramIdxs 0 store.pathParamValidators errorMsg

/-- The second loop over the query parameters, from the `n`th on. -/
def checkQueryParams (query : Bytes) (starts : List Nat) (startMap : List (Bytes × Nat)) :
    Nat → List (QueryParamValidatorInfo σ) → Bytes → Stepwise σ
  | _, [], errorMsg => .ret .NONE errorMsg
  | n, info :: rest, errorMsg =>
    match startMap.lookup info.name with
    | none =>
      if info.validator.required then .ret info.validator.codeOnError info.validator.errorOnMissing
      else checkQueryParams query starts startMap (n + 1) rest errorMsg
    | some start =>
      match ValidatorsStore.nextStart starts start with
      | .error fault => .throw fault
      | .ok next =>
        (validateParam rj info.validator.toParamValidator (placeOf (.query n)) (dataOf query) start
          (next - 1) errorMsg).andThen (checkQueryParams query starts startMap (n + 1) rest)

def validateQueryParams (store : ValidatorsStore σ) (query errorMsg : Bytes) : Stepwise σ :=
  match ValidatorsStore.locate query store.queryParamValidators [] [] with
  | .error fault => .throw fault
  | .ok (.error (code, errorMsg)) => .ret code errorMsg
  | .ok (.ok (starts, startMap)) =>
    checkQueryParams rj placeOf query ((query.length + 1) :: starts) startMap 0
      store.queryParamValidators errorMsg

/-- The loop over the header parameters in the order in which the container holds them. -/
def checkHeaderParams (headers : List (Bytes × Bytes)) (validators : List (Bytes × ParamValidator σ)) :
    List Bytes → Bytes → Stepwise σ
  | [], errorMsg => .ret .NONE errorMsg
  | name :: rest, errorMsg =>
    match validators.lookup name with
    | none => .throw .undefined
    | some validator =>
      match headers.lookup name with
      | none =>
        if validator.required then .ret validator.codeOnError validator.errorOnMissing
        else checkHeaderParams headers validators rest errorMsg
      | some param =>
        (validateParam rj validator (placeOf (.header name)) (dataOf param) 0 param.length
          errorMsg).andThen (checkHeaderParams headers validators rest)

def validateHeaderParams (order : Hashing) (store : ValidatorsStore σ)
    (headers : List (Bytes × Bytes)) (errorMsg : Bytes) : Stepwise σ :=
  checkHeaderParams rj placeOf headers store.headerParamValidators
    (order.iterate (keys store.headerParamValidators)) errorMsg

/-- What a call checks with the validators that its lookup found. -/
def check (order : Hashing) (call : Call) (found : Found) (store : ValidatorsStore σ)
    (errorMsg : Bytes) : Stepwise σ :=
  let pathParams := validatePathParams rj placeOf store (dataOf call.httpPath)
    (found.paramIdxs.getD [])
  let queryParams := validateQueryParams rj placeOf store (found.query.getD [])
  let headerParams := validateHeaderParams rj placeOf order store
  match call with
  | .route .. => .ret .NONE errorMsg
  | .body _ _ jsonBody => validateBody rj placeOf store jsonBody errorMsg
  | .pathParam .. => pathParams errorMsg
  | .queryParam .. => queryParams errorMsg
  | .headers _ _ given => headerParams given errorMsg
  | .request .. => (pathParams errorMsg).andThen queryParams
  | .requestBody _ _ jsonBody =>
    (validateBody rj placeOf store jsonBody errorMsg).andThen fun errorMsg =>
      (pathParams errorMsg).andThen queryParams
  | .requestHeaders _ _ given =>
    (pathParams errorMsg).andThen fun errorMsg =>
      (queryParams errorMsg).andThen (headerParams given)
  | .requestBodyHeaders _ _ jsonBody given =>
    (validateBody rj placeOf store jsonBody errorMsg).andThen fun errorMsg =>
      (pathParams errorMsg).andThen fun errorMsg =>
        (queryParams errorMsg).andThen (headerParams given)

/-- A call: the lookup, which changes nothing that others see, and the check with what it found. -/
def call (order : Hashing) (imp : OASValidatorImp σ) (errorMsg : Bytes) (call : Call) : Caller σ :=
  match imp.lookup order errorMsg call with
  | .error fault => .done (.error fault)
  | .ok found =>
    if found.code ≠ .NONE then .done (.ok (found.code, found.errorMsg))
    else
      match found.validators with
      | none => .done (.error .undefined)
      | some (method, path) =>
        match (imp.oasValidators method).perPathValidators.lookup path with
        | none => .done (.error .undefined)
        | some store =>
          check rj (fun slot => ⟨method, path, slot⟩) order call found store found.errorMsg
            fun code errorMsg => .done (.ok (code, errorMsg))

end

/-! ### The `SchemaValidator`s -/

section

variable {σ : Type}

/-- The `SchemaValidator` of a slot. -/
def schemaValidator (store : ValidatorsStore σ) : Slot → Option σ
  | .body => store.bodyValidator.map fun v => v.validator
  | .path n => store.pathParamValidators[n]?.map fun info => info.validator.validator
  | .query n => store.queryParamValidators[n]?.map fun info => info.validator.validator
  | .header name => (store.headerParamValidators.lookup name).map fun v => v.validator

/-- The `SchemaValidator`s of all operations; where there is none, nothing looks. -/
def schemaValidators (rj : RapidJson σ) (imp : OASValidatorImp σ) (place : Place) : σ :=
  match (imp.oasValidators place.method).perPathValidators.lookup place.path with
  | none => rj.schemaValidator .null
  | some store => (schemaValidator store place.slot).getD (rj.schemaValidator .null)

end

/-! ### The steps against the call -/

/-- Where the check returns, the thread goes on with what it hands back; it takes locks one at a time and
leaves all `SchemaValidator`s as they were. -/
def Performs {σ τ : Type} (rest : Place → σ) (r : Except Fault (Checked τ)) (p : Stepwise σ) : Prop :=
  ∀ c, r = .ok c → ∀ next n z, Ends rest none (next c.code c.errorMsg) n z →
    ∃ n', Ends rest none (p next) n' z

namespace Performs

variable {σ τ υ : Type} {rest : Place → σ} {r : Except Fault (Checked τ)} {p : Stepwise σ}

theorem ret (code : ValidationError) (errorMsg : Bytes) (x : τ) :
    Performs rest (.ok ⟨code, errorMsg, x⟩) (.ret code errorMsg) := by
  rintro _ ⟨⟩ next n z h
  exact ⟨n, h⟩

theorem fault (fault : Fault) (p : Stepwise σ) :
    Performs rest (.error fault : Except Fault (Checked τ)) p := by
  rintro _ ⟨⟩

theorem map (h : Performs rest r p) (f : τ → υ) :
    Performs rest (r >>= fun c => pure (c.map f)) p := by
  intro c hc
  obtain ⟨d, hd, hc⟩ := bind_eq_ok_iff.mp hc
  obtain rfl := Except.ok.inj hc
  exact h d hd

/-- A check, and behind it what goes on where it finds nothing wrong. -/
theorem next (h : Performs rest r p) {f : Checked τ → Except Fault (Checked υ)} {g : Checked τ → υ}
    {q : Bytes → Stepwise σ} (hq : ∀ c, r = .ok c → Performs rest (f c) (q c.errorMsg)) :
    Performs rest (r >>= fun c => if c.code = .NONE then f c else pure ⟨c.code, c.errorMsg, g c⟩)
      (p.andThen q) := by
  intro c hc next n z hends
  obtain ⟨d, hd, hc⟩ := bind_eq_ok_iff.mp hc
  split at hc
  · rename_i hcode
    obtain ⟨m, hm⟩ := hq d hd c hc next n z hends
    refine h d hd _ m z ?_
    simpa only [hcode, if_true] using hm
  · rename_i hcode
    obtain rfl := Except.ok.inj hc
    refine h d hd _ n z ?_
    simpa only [hcode, if_false] using hends

theorem andThen (h : Performs rest r p) {x : τ} (hkeeps : Keeps x r)
    {behind : τ → Bytes → Except Fault (Checked τ)} {q : Bytes → Stepwise σ}
    (hq : ∀ m, Performs rest (behind x m) (q m)) :
    Performs rest (Checked.andThen r behind) (p.andThen q) := by
  refine h.next (g := fun c => c.after) (f := fun c => behind c.after c.errorMsg) fun c hc => ?_
  rw [hkeeps c hc]
  exact hq c.errorMsg

end Performs

section

variable {σ : Type} {rj : RapidJson σ} {order : Hashing} {rest : Place → σ} {place : Place}

/-- `Validate` leaves the `SchemaValidator` at rest when it frees the mutex. -/
theorem validate_performs (hreset : ResetRestores rj) {v : JsonValidator σ}
    (hv : v.AtRest rj) (hplace : rest place = v.validator) (jsonStr errorMsg : Bytes) :
    Performs rest (v.validate rj jsonStr errorMsg)
      (validate rj v.toBaseValidator place jsonStr errorMsg) := by
  obtain ⟨schema, hschema⟩ := hv
  have hrest : rest place = rj.schemaValidator schema := hplace.trans hschema
  cases hparse : rj.parse (cstr jsonStr) with
  | error e =>
    unfold JsonValidator.validate validate
    rw [hparse]
    exact Performs.ret _ _ v
  | ok doc =>
    have hback : rj.reset (rj.accept (rest place) doc).2 = rest place := by rw [hrest, hreset]
    -- what is left to do when the mutex is freed
    have hfree : ∀ (next : Caller σ) n z, Ends rest none next n z →
        Ends rest (some (place, (rj.accept (rest place) doc).2))
          (.change place rj.reset fun _ => .unlock place next) (n + 1 + 1) z := fun next n z h => by
      refine .change ?_
      rw [hback]
      exact .unlock h
    cases haccept : (rj.accept v.validator doc).1 with
    | true =>
      have hresult : v.validate rj jsonStr errorMsg =
          .ok ⟨.NONE, errorMsg, { v with validator := rj.reset (rj.accept v.validator doc).2 }⟩ := by
        simp [JsonValidator.validate, hparse, haccept]
      rw [hresult]
      rintro _ ⟨⟩ next n z h
      refine ⟨n + 1 + 1 + 1 + 1, ?_⟩
      unfold validate
      rw [hparse]
      refine .lock (.change ?_)
      rw [if_pos (hplace ▸ haccept)]
      exact hfree _ n z h
    | false =>
      have hresult : v.validate rj jsonStr errorMsg =
          (JsonValidator.createErrorMessages rj [] false (rj.getError (rj.accept v.validator doc).2)
            v.errHeader >>= fun errorMsg => pure ⟨v.codeOnError, errorMsg ++ lit "\x7d\x7d",
              { v with validator := rj.reset (rj.accept v.validator doc).2 }⟩) := by
        simp [JsonValidator.validate, hparse, haccept]
      rw [hresult]
      intro c hc next n z h
      obtain ⟨text, htext, hc⟩ := bind_eq_ok_iff.mp hc
      obtain rfl := Except.ok.inj hc
      refine ⟨n + 1 + 1 + 1 + 1 + 1, ?_⟩
      unfold validate
      rw [hparse]
      refine .lock (.change ?_)
      rw [if_neg (by simp [hplace, haccept])]
      refine .change ?_
      simp only [id, hplace, htext]
      rw [← hplace]
      exact hfree _ n z h

theorem validateParam_performs (hreset : ResetRestores rj)
    {v : ParamValidator σ} (hv : v.AtRest rj) (hplace : rest place = v.validator)
    (buf : Nat → UInt8) (beg end_ : Nat) (errorMsg : Bytes) :
    Performs rest (v.validateParam rj buf beg end_ errorMsg)
      (validateParam rj v place buf beg end_ errorMsg) := by
  unfold ParamValidator.validateParam validateParam
  cases (v.deserializer.deserialize buf beg end_).1 with
  | ok text => exact (validate_performs hreset hv hplace text errorMsg).map _
  | error e =>
    cases e with
    | exception what => exact Performs.ret _ _ v
    | lengthError => exact Performs.fault _ _

variable {placeOf : Slot → Place} {store : ValidatorsStore σ}

theorem validateBody_performs (hreset : ResetRestores rj)
    (hstore : store.AtRest rj) (hplaces : ∀ slot x, schemaValidator store slot = some x →
      rest (placeOf slot) = x) (jsonBody errorMsg : Bytes) :
    Performs rest (store.validateBody rj jsonBody errorMsg)
      (validateBody rj placeOf store jsonBody errorMsg) := by
  unfold ValidatorsStore.validateBody validateBody
  cases hbody : store.bodyValidator with
  | none => exact Performs.ret _ _ store
  | some v =>
    have hplace : rest (placeOf .body) = v.validator := hplaces .body _ (by simp [schemaValidator, hbody])
    exact (validate_performs hreset (hstore.body v (by simp [hbody])) hplace jsonBody
      errorMsg).map _

theorem checkPathParams_performs (hreset : ResetRestores rj)
    {infos : List (PathParamValidatorInfo σ)} (hrest : ∀ info ∈ infos, info.validator.AtRest rj)
    {n : Nat} (hplaces : ∀ k info, infos[k]? = some info →
      rest (placeOf (.path (n + k))) = info.validator.validator)
    (buf : Nat → UInt8) (paramIdxs : ParamIdxs) (errorMsg : Bytes) :
    Performs rest (ValidatorsStore.checkPathParams rj buf paramIdxs infos errorMsg)
      (checkPathParams rj placeOf buf paramIdxs n infos errorMsg) := by
  induction infos generalizing n errorMsg with
  | nil => exact Performs.ret _ _ []
  | cons info infos ih =>
    unfold ValidatorsStore.checkPathParams checkPathParams
    cases paramIdxs.lookup info.idx with
    | none => exact Performs.ret _ _ (info :: infos)
    | some range =>
      have hinfo := validateParam_performs hreset (hrest info List.mem_cons_self)
        (hplaces 0 info rfl) buf range.beg range.end_ errorMsg
      refine hinfo.next (g := fun c => { info with validator := c.after } :: infos) fun c _ => ?_
      refine (ih (fun i hi => hrest i (List.mem_cons_of_mem _ hi)) (fun k i hi => ?_) c.errorMsg).map _
      rw [Nat.add_right_comm, Nat.add_assoc]
      exact hplaces (k + 1) i hi

theorem validatePathParams_performs (hreset : ResetRestores rj)
    (hstore : store.AtRest rj) (hplaces : ∀ slot x, schemaValidator store slot = some x →
      rest (placeOf slot) = x) (buf : Nat → UInt8) (paramIdxs : ParamIdxs) (errorMsg : Bytes) :
    Performs rest (store.validatePathParams rj buf paramIdxs errorMsg)
      (validatePathParams rj placeOf store buf paramIdxs errorMsg) := by
  refine (checkPathParams_performs hreset hstore.path (fun k info hk => ?_) buf paramIdxs
    errorMsg).map _
  rw [Nat.zero_add]
  exact hplaces (.path k) _ (by simp [schemaValidator, hk])

theorem checkQueryParams_performs (hreset : ResetRestores rj)
    {infos : List (QueryParamValidatorInfo σ)} (hrest : ∀ info ∈ infos, info.validator.AtRest rj)
    {n : Nat} (hplaces : ∀ k info, infos[k]? = some info →
      rest (placeOf (.query (n + k))) = info.validator.validator)
    (query : Bytes) (starts : List Nat) (startMap : List (Bytes × Nat)) (errorMsg : Bytes) :
    Performs rest (ValidatorsStore.checkQueryParams rj query starts startMap infos errorMsg)
      (checkQueryParams rj placeOf query starts startMap n infos errorMsg) := by
  induction infos generalizing n errorMsg with
  | nil => exact Performs.ret _ _ []
  | cons info infos ih =>
    have hbehind : ∀ m, Performs rest
        (ValidatorsStore.checkQueryParams rj query starts startMap infos m)
        (checkQueryParams rj placeOf query starts startMap (n + 1) infos m) := fun m => by
      refine ih (fun i hi => hrest i (List.mem_cons_of_mem _ hi)) (fun k i hi => ?_) m
      rw [Nat.add_right_comm, Nat.add_assoc]
      exact hplaces (k + 1) i hi
    unfold ValidatorsStore.checkQueryParams checkQueryParams
    cases startMap.lookup info.name with
    | none =>
      dsimp only
      by_cases hrequired : info.validator.required = true
      · rw [if_pos hrequired, if_pos hrequired]
        exact Performs.ret _ _ (info :: infos)
      · rw [if_neg hrequired, if_neg hrequired]
        exact (hbehind errorMsg).map _
    | some start =>
      dsimp only
      cases ValidatorsStore.nextStart starts start with
      | error fault => exact Performs.fault fault _
      | ok next =>
        have hinfo := (validateParam_performs hreset (hrest info List.mem_cons_self)
          (hplaces 0 info rfl) (dataOf query) start (next - 1) errorMsg).map fun w =>
            ({ info.validator with toParamValidator := w } : QueryParamValidator σ)
        refine hinfo.next (g := fun c => { info with validator := c.after } :: infos) fun c _ => ?_
        exact (hbehind c.errorMsg).map _

theorem validateQueryParams_performs (hreset : ResetRestores rj)
    (hstore : store.AtRest rj) (hplaces : ∀ slot x, schemaValidator store slot = some x →
      rest (placeOf slot) = x) (query errorMsg : Bytes) :
    Performs rest (store.validateQueryParams rj query errorMsg)
      (validateQueryParams rj placeOf store query errorMsg) := by
  unfold ValidatorsStore.validateQueryParams validateQueryParams
  cases ValidatorsStore.locate query store.queryParamValidators [] [] with
  | error fault => exact Performs.fault fault _
  | ok located =>
    cases located with
    | error early => exact Performs.ret _ _ store
    | ok found =>
      refine (checkQueryParams_performs hreset hstore.query (fun k info hk => ?_) query _ _
        errorMsg).map _
      rw [Nat.zero_add]
      exact hplaces (.query k) _ (by simp [schemaValidator, hk])

theorem checkHeaderParams_performs (hreset : ResetRestores rj)
    {validators : List (Bytes × ParamValidator σ)} (hrest : ∀ p ∈ validators, p.2.AtRest rj)
    (hplaces : ∀ name v, validators.lookup name = some v →
      rest (placeOf (.header name)) = v.validator)
    (headers : List (Bytes × Bytes)) (names : List Bytes) (errorMsg : Bytes) :
    Performs rest (ValidatorsStore.checkHeaderParams rj headers names validators errorMsg)
      (checkHeaderParams rj placeOf headers validators names errorMsg) := by
  induction names generalizing errorMsg with
  | nil => exact Performs.ret _ _ validators
  | cons name names ih =>
    unfold ValidatorsStore.checkHeaderParams checkHeaderParams
    cases hv : validators.lookup name with
    | none => exact Performs.fault _ _
    | some v =>
      cases headers.lookup name with
      | none =>
        dsimp only
        by_cases hrequired : v.required = true
        · rw [if_pos hrequired, if_pos hrequired]
          exact Performs.ret _ _ validators
        · rw [if_neg hrequired, if_neg hrequired]
          exact ih errorMsg
      | some param =>
        have hvrest := hrest _ (mem_of_lookup hv)
        have hparam := validateParam_performs hreset hvrest (hplaces name v hv) (dataOf param) 0
          param.length errorMsg
        refine hparam.next (g := fun c => put name c.after validators) fun c hc => ?_
        -- the check has put the validator back as it was
        rw [ParamValidator.validateParam_keeps hreset hvrest _ _ _ errorMsg c hc, put_of_lookup hv]
        exact ih c.errorMsg

theorem validateHeaderParams_performs (hreset : ResetRestores rj)
    (hstore : store.AtRest rj) (hplaces : ∀ slot x, schemaValidator store slot = some x →
      rest (placeOf slot) = x) (headers : List (Bytes × Bytes)) (errorMsg : Bytes) :
    Performs rest (store.validateHeaderParams rj order headers errorMsg)
      (validateHeaderParams rj placeOf order store headers errorMsg) := by
  refine (checkHeaderParams_performs hreset hstore.header (fun name v hv => ?_) headers _
    errorMsg).map _
  exact hplaces (.header name) _ (by simp [schemaValidator, hv])

theorem check_performs (hreset : ResetRestores rj) (hstore : store.AtRest rj)
    (hplaces : ∀ slot x, schemaValidator store slot = some x → rest (placeOf slot) = x)
    (call : Call) (found : Found) (errorMsg : Bytes) :
    Performs rest (call.check rj order found store errorMsg)
      (check rj placeOf order call found store errorMsg) := by
  have hbody := validateBody_performs hreset hstore hplaces
  have hpath := validatePathParams_performs hreset hstore hplaces (dataOf call.httpPath)
    (found.paramIdxs.getD [])
  have hquery := validateQueryParams_performs hreset hstore hplaces (found.query.getD [])
  have hheaders : ∀ given m, Performs rest (store.validateHeaderParams rj order given m)
      (validateHeaderParams rj placeOf order store given m) :=
    validateHeaderParams_performs hreset hstore hplaces
  have hbodyKeeps := ValidatorsStore.validateBody_keeps hreset hstore
  have hpathKeeps := ValidatorsStore.validatePathParams_keeps hreset hstore (dataOf call.httpPath)
    (found.paramIdxs.getD [])
  have hqueryKeeps := ValidatorsStore.validateQueryParams_keeps hreset hstore (found.query.getD [])
  have hboth : ∀ m, Performs rest
      (Checked.andThen (store.validatePathParams rj (dataOf call.httpPath) (found.paramIdxs.getD []) m)
        fun store m => store.validateQueryParams rj (found.query.getD []) m)
      ((validatePathParams rj placeOf store (dataOf call.httpPath) (found.paramIdxs.getD []) m).andThen
        (validateQueryParams rj placeOf store (found.query.getD []))) := fun m =>
    (hpath m).andThen (hpathKeeps m) hquery
  have hthree : ∀ given m, Performs rest
      (Checked.andThen (store.validatePathParams rj (dataOf call.httpPath) (found.paramIdxs.getD []) m)
        fun store m => Checked.andThen (store.validateQueryParams rj (found.query.getD []) m)
          fun store m => store.validateHeaderParams rj order given m)
      ((validatePathParams rj placeOf store (dataOf call.httpPath) (found.paramIdxs.getD []) m).andThen
        fun m => (validateQueryParams rj placeOf store (found.query.getD []) m).andThen
          (validateHeaderParams rj placeOf order store given)) := fun given m =>
    (hpath m).andThen (hpathKeeps m) fun m => (hquery m).andThen (hqueryKeeps m) (hheaders given)
  cases call with
  | route method httpPath => exact Performs.ret _ _ store
  | body method httpPath jsonBody => exact hbody jsonBody errorMsg
  | pathParam method httpPath => exact hpath errorMsg
  | queryParam method httpPath => exact hquery errorMsg
  | headers method httpPath given => exact hheaders given errorMsg
  | request method httpPath => exact hboth errorMsg
  | requestBody method httpPath jsonBody =>
    rw [Call.check, check]
    exact (hbody jsonBody errorMsg).andThen (hbodyKeeps jsonBody errorMsg) hboth
  | requestHeaders method httpPath given => exact hthree given errorMsg
  | requestBodyHeaders method httpPath jsonBody given =>
    rw [Call.check, check]
    exact (hbody jsonBody errorMsg).andThen (hbodyKeeps jsonBody errorMsg) (hthree given)

/-- A call that returns alone ends with what it hands back. -/
theorem call_ends (hreset : ResetRestores rj) {imp : OASValidatorImp σ}
    {paths : HttpMethod → List Bytes} (himp : Registered imp paths) (hrest : imp.AtRest rj)
    {errorMsg : Bytes} {call : Call} (hreturns : Returns (imp.call rj order errorMsg call)) :
    ∃ n, Ends (schemaValidators rj imp) none (Threads.call rj order imp errorMsg call) n
      (handedBack (imp.call rj order errorMsg call)) := by
  obtain ⟨found, hfound, -⟩ :=
    @OASValidatorImp.lookup_registered _ order imp _ himp errorMsg call
  rw [OASValidatorImp.call_eq_lookup himp] at hreturns ⊢
  unfold Threads.call
  rw [hfound] at hreturns ⊢
  replace hreturns : Returns (imp.withStore found (call.check rj order found)) := hreturns
  show ∃ n, Ends _ none _ n (handedBack (imp.withStore found (call.check rj order found)))
  unfold OASValidatorImp.withStore at hreturns ⊢
  dsimp only at hreturns ⊢
  by_cases hcode : found.code = .NONE
  · obtain ⟨method, path, store, hv, -, hstore⟩ := OASValidatorImp.found_store himp hfound hcode
    have hplaces : ∀ slot x, schemaValidator store slot = some x →
        schemaValidators rj imp ⟨method, path, slot⟩ = x := fun slot x hx => by
      simp [schemaValidators, hstore, hx]
    have hperforms : Performs (schemaValidators rj imp)
        (call.check rj order found store found.errorMsg) _ :=
      check_performs hreset (hrest method path store hstore) hplaces call found found.errorMsg
    rw [if_neg (not_not.mpr hcode), hv] at hreturns
    rw [if_neg (not_not.mpr hcode), if_neg (not_not.mpr hcode), hv]
    simp only [hstore] at hreturns ⊢
    cases hcheck : call.check rj order found store found.errorMsg with
    | error fault =>
      rw [hcheck] at hreturns
      obtain ⟨c, hc⟩ := hreturns
      exact nomatch hc
    | ok c => exact hperforms c hcheck _ 0 _ (.done _)
  · rw [if_pos hcode, if_pos hcode]
    exact ⟨0, .done _⟩

end

/-- Calls of any number of threads on one validator, each of which returns when it is made alone, in any
order of their steps.  A call that has ended hands back what it hands back alone.  No thread takes more
than a number of steps that its own call gives; as long as one has not ended, one can go on.  Never are
two threads at the same `SchemaValidator`, and when all have ended each is as it was built. -/
theorem calls_as_alone {σ : Type} {rj : RapidJson σ} {order : Hashing} {files : Bytes → Option Bytes}
    {oasSpecs : Bytes} {methodMap : MethodMap} {doc : Json} {imp : OASValidatorImp σ}
    (h : Constructs rj order files oasSpecs methodMap doc imp) (hreset : ResetRestores rj) :
    ∃ steps : Bytes × Call → Nat, ∀ (τ : Type) [DecidableEq τ] (calls : τ → Bytes × Call),
      (∀ t, Returns (imp.call rj order (calls t).1 (calls t).2)) →
      ∀ (schedule : List τ) (s : Pool τ Place σ (Except Fault (ValidationError × Bytes))),
        (Pool.start (schemaValidators rj imp) fun t =>
          call rj order imp (calls t).1 (calls t).2).run schedule = some s →
        (∀ t handed, s.threads t = .done handed →
          handed = handedBack (imp.call rj order (calls t).1 (calls t).2)) ∧
        (∀ t, schedule.count t ≤ steps (calls t)) ∧
        ((∃ t, ¬(s.threads t).Done) → ∃ t, (s.step t).isSome) ∧
        (∀ t u place, (s.threads t).Changes place → (s.threads u).Changes place → t = u) ∧
        ((∀ t, (s.threads t).Done) → s.objects = schemaValidators rj imp) := by
  have hends : ∀ c : Bytes × Call, ∃ n, Returns (imp.call rj order c.1 c.2) →
      Ends (schemaValidators rj imp) none (call rj order imp c.1 c.2) n
        (handedBack (imp.call rj order c.1 c.2)) := fun c => by
    by_cases hreturns : Returns (imp.call rj order c.1 c.2)
    · obtain ⟨n, hn⟩ := call_ends hreset h.registered.1 h.atRest hreturns
      exact ⟨n, fun _ => hn⟩
    · exact ⟨0, fun h => absurd h hreturns⟩
  choose steps hsteps using hends
  refine ⟨steps, fun τ _ calls hcalls schedule s hrun => ?_⟩
  obtain ⟨held, left, hleft, horderly⟩ :=
    (Orderly.start fun t => hsteps (calls t) (hcalls t)).run hrun
  refine ⟨fun t handed ht => horderly.result ht, fun t => ?_, ?_, fun t u place ht hu => ?_,
    horderly.at_rest⟩
  · rw [← hleft t]
    exact Nat.le_add_left _ _
  · rintro ⟨t, ht⟩
    exact horderly.progress ht
  · exact Option.some.inj ((horderly.holds ht).symm.trans (horderly.holds hu))

theorem returns_of_handedBack {σ : Type} {r : Except Fault (Checked (OASValidatorImp σ))}
    {handed : ValidationError × Bytes} (h : handedBack r = .ok handed) : Returns r := by
  cases r with
  | error fault => exact nomatch h
  | ok c => exact ⟨c, rfl⟩

/-- Two threads with the same `SchemaValidator`, which latches: the one with a body of the right type is
told so whatever the other one does in between. -/
theorem calls_as_alone_list : ∃ (doc : Json) (imp : OASValidatorImp (Json × Option Json)),
    Constructs RapidJson.latching .insertion (fun _ => none) listSpec [] doc imp ∧
      ∀ (schedule : List Bool) s, (Pool.start (schemaValidators RapidJson.latching imp) fun t =>
          call RapidJson.latching .insertion imp []
            (.body (lit "PUT") (lit "/list") (if t then lit "[]" else lit "true"))).run schedule = some s →
        (∀ handed, s.threads true = .done handed → handed = .ok (.NONE, [])) ∧
          ((∃ t, ¬(s.threads t).Done) → ∃ t, (s.step t).isSome) := by
  have hrun : (construct RapidJson.latching .insertion (fun _ => none) 60 listSpec []).map
      (fun r => r.map fun imp =>
        let put := fun jsonBody => handedBack (imp.call RapidJson.latching .insertion []
          (.body (lit "PUT") (lit "/list") jsonBody))
        (put (lit "[]"), (put (lit "true")).map Prod.fst)) =
      some (.ok (.ok (.NONE, []), .ok .INVALID_BODY)) := by
    decide +kernel
  obtain ⟨r, hr, hmap⟩ := Option.map_eq_some_iff.mp hrun
  obtain ⟨imp, rfl, hput⟩ := map_eq_ok_iff.mp hmap
  obtain ⟨halone, hcode⟩ := Prod.mk.inj hput
  obtain ⟨told, htold, -⟩ := map_eq_ok_iff.mp hcode
  obtain ⟨doc, hdoc⟩ := constructs_iff.mpr ⟨60, hr⟩
  refine ⟨doc, imp, hdoc, fun schedule s hs => ?_⟩
  obtain ⟨steps, hsteps⟩ := calls_as_alone hdoc latching_resetRestores
  obtain ⟨hhanded, -, hgoes, -⟩ := hsteps Bool (fun t => ([], .body (lit "PUT") (lit "/list")
    (if t then lit "[]" else lit "true"))) (by
      intro t
      cases t with
      | true => exact returns_of_handedBack halone
      | false => exact returns_of_handedBack htold) schedule s hs
  refine ⟨fun handed ht => ?_, hgoes⟩
  rw [← halone]
  exact hhanded true handed ht

end Threads

end OasValidator
