import OasValidator.Validators.Store

/-! Validators at rest.  `Accept` leaves what it found in the `SchemaValidator`, which all requests to
an operation share, and `Reset` takes it back.  A validator whose `SchemaValidator` is as it was built
is at rest, and a check that returns leaves it as it was. -/

namespace OasValidator

open Library.Table

/-- `Reset` takes back what `Accept` left in a new `SchemaValidator`. -/
def ResetRestores {σ : Type} (rj : RapidJson σ) : Prop :=
  ∀ schema value, rj.reset (rj.accept (rj.schemaValidator schema) value).2 = rj.schemaValidator schema

theorem plain_resetRestores : ResetRestores RapidJson.plain := fun _ _ => rfl

/-- A check that returns leaves what it was made with as it was. -/
def Keeps {τ : Type} (x : τ) (r : Except Fault (Checked τ)) : Prop :=
  ∀ c, r = .ok c → c.after = x

namespace Keeps

variable {τ υ : Type} {x : τ}

theorem ok (code : ValidationError) (errorMsg : Bytes) : Keeps x (.ok ⟨code, errorMsg, x⟩) := by
  rintro _ ⟨⟩
  rfl

theorem error (e : Fault) : Keeps x (.error e) := by
  rintro _ ⟨⟩

/-- A check of a part, whose state is put back where the part was. -/
theorem map {r : Except Fault (Checked τ)} (h : Keeps x r) {f : τ → υ} {y : υ} (hf : f x = y) :
    Keeps y (r >>= fun c => pure (c.map f)) := by
  intro c hc
  obtain ⟨d, hd, hc⟩ := bind_eq_ok_iff.mp hc
  obtain rfl := Except.ok.inj hc
  show f d.after = y
  rw [h d hd, hf]

/-- A check, and another one of the same things behind it if it finds nothing wrong. -/
theorem andThen {r : Except Fault (Checked τ)} (h : Keeps x r)
    {next : τ → Bytes → Except Fault (Checked τ)} (hnext : ∀ errorMsg, Keeps x (next x errorMsg)) :
    Keeps x (Checked.andThen r next) := by
  intro c hc
  obtain ⟨d, hd, hc⟩ := bind_eq_ok_iff.mp hc
  have hafter := h d hd
  split at hc
  · rw [hafter] at hc
    exact hnext d.errorMsg c hc
  · obtain rfl := Except.ok.inj hc
    exact hafter

/-- A turn of a loop: the check of one part, whose state goes back where the part was, and the rest
of the loop if it finds nothing wrong. -/
theorem turn {r : Except Fault (Checked τ)} (h : Keeps x r) {y : υ}
    {f : τ → Bytes → Except Fault (Checked υ)} {g : τ → υ}
    (hnext : ∀ errorMsg, Keeps y (f x errorMsg)) (hstop : g x = y) :
    Keeps y (r >>= fun c =>
      if c.code = .NONE then f c.after c.errorMsg
      else pure ⟨c.code, c.errorMsg, g c.after⟩) := by
  intro c hc
  obtain ⟨d, hd, hc⟩ := bind_eq_ok_iff.mp hc
  have hafter := h d hd
  split at hc
  · rw [hafter] at hc
    exact hnext d.errorMsg c hc
  · obtain rfl := Except.ok.inj hc
    show g d.after = y
    rw [hafter, hstop]

end Keeps

section

variable {σ : Type} (rj : RapidJson σ)

/-- The `SchemaValidator` is as it was built. -/
def JsonValidator.AtRest (v : JsonValidator σ) : Prop := ∃ schema, v.validator = rj.schemaValidator schema

/-- The validators of one operation are all at rest. -/
structure ValidatorsStore.AtRest (store : ValidatorsStore σ) : Prop where
  body : ∀ v ∈ store.bodyValidator, v.AtRest rj
  path : ∀ info ∈ store.pathParamValidators, info.validator.AtRest rj
  query : ∀ info ∈ store.queryParamValidators, info.validator.AtRest rj
  header : ∀ p ∈ store.headerParamValidators, p.2.AtRest rj

theorem JsonValidator.ofSchema_atRest (schemaVal : Json) (refKeys : List Bytes)
    (errCode : ValidationError) : (JsonValidator.ofSchema rj schemaVal refKeys errCode).AtRest rj :=
  ⟨schemaVal, rfl⟩

variable {rj}

/-! ### One check -/

theorem JsonValidator.validate_keeps (hreset : ResetRestores rj) {v : JsonValidator σ}
    (hv : v.AtRest rj) (jsonStr errorMsg : Bytes) : Keeps v (v.validate rj jsonStr errorMsg) := by
  obtain ⟨schema, hschema⟩ := hv
  unfold validate
  cases rj.parse (cstr jsonStr) with
  | error e => exact Keeps.ok _ _
  | ok doc =>
    have hafter : { v with validator := rj.reset (rj.accept v.validator doc).2 } = v := by
      rw [hschema, hreset, ← hschema]
    simp only [hafter]
    split
    · exact Keeps.ok _ _
    · intro c hc
      obtain ⟨text, -, hc⟩ := bind_eq_ok_iff.mp hc
      obtain rfl := Except.ok.inj hc
      rfl

theorem ParamValidator.validateParam_keeps (hreset : ResetRestores rj) {v : ParamValidator σ}
    (hv : v.AtRest rj) (buf : Nat → UInt8) (beg end_ : Nat) (errorMsg : Bytes) :
    Keeps v (v.validateParam rj buf beg end_ errorMsg) := by
  unfold validateParam
  split
  · exact (JsonValidator.validate_keeps hreset hv _ errorMsg).map rfl
  · exact Keeps.ok _ _
  · exact Keeps.error _

theorem QueryParamValidator.validateParam_keeps (hreset : ResetRestores rj)
    {v : QueryParamValidator σ} (hv : v.AtRest rj) (buf : Nat → UInt8) (beg end_ : Nat)
    (errorMsg : Bytes) : Keeps v (v.validateParam rj buf beg end_ errorMsg) :=
  (ParamValidator.validateParam_keeps hreset hv buf beg end_ errorMsg).map rfl

/-! ### The checks of a store -/

namespace ValidatorsStore

variable {store : ValidatorsStore σ}

theorem validateBody_keeps (hreset : ResetRestores rj) (hstore : store.AtRest rj)
    (jsonBody errorMsg : Bytes) : Keeps store (store.validateBody rj jsonBody errorMsg) := by
  unfold validateBody
  split
  · exact Keeps.ok _ _
  · rename_i v hv
    apply (JsonValidator.validate_keeps hreset (hstore.body v hv) jsonBody errorMsg).map
    rw [← hv]

theorem checkPathParams_keeps (hreset : ResetRestores rj) (buf : Nat → UInt8)
    (paramIdxs : ParamIdxs) {infos : List (PathParamValidatorInfo σ)}
    (hinfos : ∀ info ∈ infos, info.validator.AtRest rj) (errorMsg : Bytes) :
    Keeps infos (checkPathParams rj buf paramIdxs infos errorMsg) := by
  induction infos generalizing errorMsg with
  | nil => exact Keeps.ok _ _
  | cons info rest ih =>
    unfold checkPathParams
    split
    · exact Keeps.ok _ _
    · rename_i range hrange
      have hinfo : info.validator.AtRest rj := hinfos info (by simp)
      apply (ParamValidator.validateParam_keeps hreset hinfo buf range.beg range.end_ errorMsg).turn
        (f := fun w errorMsg => checkPathParams rj buf paramIdxs rest errorMsg >>= fun cs =>
          pure (cs.map ({ info with validator := w } :: ·)))
        (g := fun w => { info with validator := w } :: rest)
      · intro m
        exact (ih (fun i hi => hinfos i (by simp [hi])) m).map rfl
      · rfl

theorem validatePathParams_keeps (hreset : ResetRestores rj) (hstore : store.AtRest rj)
    (buf : Nat → UInt8) (paramIdxs : ParamIdxs) (errorMsg : Bytes) :
    Keeps store (store.validatePathParams rj buf paramIdxs errorMsg) :=
  (checkPathParams_keeps hreset buf paramIdxs hstore.path errorMsg).map rfl

theorem checkQueryParams_keeps (hreset : ResetRestores rj) (query : Bytes) (starts : List Nat)
    (startMap : List (Bytes × Nat)) {infos : List (QueryParamValidatorInfo σ)}
    (hinfos : ∀ info ∈ infos, info.validator.AtRest rj) (errorMsg : Bytes) :
    Keeps infos (checkQueryParams rj query starts startMap infos errorMsg) := by
  induction infos generalizing errorMsg with
  | nil => exact Keeps.ok _ _
  | cons info rest ih =>
    have hrest := ih fun i hi => hinfos i (by simp [hi])
    unfold checkQueryParams
    split
    · split
      · exact Keeps.ok _ _
      · exact (hrest errorMsg).map rfl
    · rename_i start hstart
      cases nextStart starts start with
      | error e => exact Keeps.error e
      | ok next =>
        have hinfo : info.validator.AtRest rj := hinfos info (by simp)
        apply (QueryParamValidator.validateParam_keeps hreset hinfo (dataOf query) start (next - 1)
          errorMsg).turn
          (f := fun w errorMsg => checkQueryParams rj query starts startMap rest errorMsg >>=
            fun cs => pure (cs.map ({ info with validator := w } :: ·)))
          (g := fun w => { info with validator := w } :: rest)
        · intro m
          exact (hrest m).map rfl
        · rfl

theorem validateQueryParams_keeps (hreset : ResetRestores rj) (hstore : store.AtRest rj)
    (query errorMsg : Bytes) : Keeps store (store.validateQueryParams rj query errorMsg) := by
  unfold validateQueryParams
  cases locate query store.queryParamValidators [] [] with
  | error e => exact Keeps.error e
  | ok located =>
    cases located with
    | error e => exact Keeps.ok _ _
    | ok p => exact (checkQueryParams_keeps hreset query _ p.2 hstore.query errorMsg).map rfl

theorem checkHeaderParams_keeps (hreset : ResetRestores rj) (headers : List (Bytes × Bytes))
    (names : List Bytes) {validators : List (Bytes × ParamValidator σ)}
    (hvalidators : ∀ p ∈ validators, p.2.AtRest rj) (errorMsg : Bytes) :
    Keeps validators (checkHeaderParams rj headers names validators errorMsg) := by
  induction names generalizing errorMsg with
  | nil => exact Keeps.ok _ _
  | cons name rest ih =>
    unfold checkHeaderParams
    split
    · exact Keeps.error _
    · rename_i validator hvalidator
      have hv : validator.AtRest rj := hvalidators _ (mem_of_lookup hvalidator)
      have hput : put name validator validators = validators := put_of_lookup hvalidator
      split
      · split
        · exact Keeps.ok _ _
        · exact ih errorMsg
      · rename_i param hparam
        apply (ParamValidator.validateParam_keeps hreset hv (dataOf param) 0 param.length errorMsg).turn
          (f := fun w errorMsg =>
            checkHeaderParams rj headers rest (put name w validators) errorMsg)
          (g := fun w => put name w validators)
        · intro m
          rw [hput]
          exact ih m
        · exact hput

theorem validateHeaderParams_keeps (hreset : ResetRestores rj) (order : Hashing)
    (hstore : store.AtRest rj) (headers : List (Bytes × Bytes)) (errorMsg : Bytes) :
    Keeps store (store.validateHeaderParams rj order headers errorMsg) :=
  (checkHeaderParams_keeps hreset headers _ hstore.header errorMsg).map rfl

/-! ### New validators -/

theorem empty_atRest : ValidatorsStore.AtRest rj {} where
  body := by simp
  path := by simp
  query := by simp
  header := by simp

theorem ofBody_atRest (schemaVal : Json) (refKeys : List Bytes) :
    (ofBody rj schemaVal refKeys).AtRest rj where
  body := by
    simpa [ofBody] using JsonValidator.ofSchema_atRest rj schemaVal refKeys .INVALID_BODY
  path := by simp [ofBody]
  query := by simp [ofBody]
  header := by simp [ofBody]

theorem addParam_atRest {pathParamIdxs : List (Bytes × Nat)} {refKeys : List Bytes}
    {paramVal : Json} {store' : ValidatorsStore σ} (hstore : store.AtRest rj)
    (h : store.addParam rj pathParamIdxs refKeys paramVal = .ok store') : store'.AtRest rj := by
  obtain ⟨v, name, -, -, hadded⟩ := addParam_added h
  cases hadded with
  | path index built =>
    refine ⟨hstore.body, ?_, hstore.query, hstore.header⟩
    intro i hi
    rcases List.mem_append.mp hi with hi | hi
    · exact hstore.path i hi
    · obtain rfl := List.mem_singleton.mp hi
      exact JsonValidator.ofSchema_atRest rj _ _ _
  | query built =>
    refine ⟨hstore.body, hstore.path, ?_, hstore.header⟩
    intro i hi
    rcases List.mem_append.mp hi with hi | hi
    · exact hstore.query i hi
    · obtain rfl := List.mem_singleton.mp hi
      exact JsonValidator.ofSchema_atRest rj _ _ _
  | header built =>
    refine ⟨hstore.body, hstore.path, hstore.query, ?_⟩
    intro p hp
    rcases mem_emplace hp with hp | ⟨-, hp⟩
    · exact hstore.header p hp
    · rw [hp]
      exact JsonValidator.ofSchema_atRest rj _ _ _

end ValidatorsStore

end

end OasValidator
