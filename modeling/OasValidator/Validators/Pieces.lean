import OasValidator.Validators.Reports
import OasValidator.Validators.Returns

/-! The pieces of error texts.  A check stops at the first part that fails, and its error text takes over
pieces of this part alone: the place of its validator, and the name of the parameter, the message of an
exception or the text that RapidJSON has for a parse error. -/

namespace OasValidator

open Library.Json Library.Table

/-- A check that fails leaves an error text that is well formed. -/
def Reports {τ : Type} (r : Except Fault (Checked τ)) : Prop :=
  ∀ c, r = .ok c → c.code ≠ .NONE → WellFormed c.code c.errorMsg

/-- A check that fails leaves a well-formed error text if the pieces are plain, and one that passes has
read what there is to read. -/
structure ReportsBy {τ : Type} (plain reads : Prop) (r : Except Fault (Checked τ)) : Prop where
  reports : plain → Reports r
  reads : Passes r → reads

namespace ReportsBy

variable {τ υ : Type} {x : τ} {plain plain' reads reads' : Prop} {r : Except Fault (Checked τ)}

theorem none (errorMsg : Bytes) (x : τ) : ReportsBy True True (.ok ⟨.NONE, errorMsg, x⟩) where
  reports _ := by
    rintro _ ⟨⟩ h
    exact absurd rfl h
  reads _ := trivial

theorem failed {code : ValidationError} (hcode : code ≠ .NONE) {errorMsg : Bytes}
    (h : plain → WellFormed code errorMsg) (x : τ) :
    ReportsBy plain False (.ok ⟨code, errorMsg, x⟩) where
  reports hplain := by
    rintro _ ⟨⟩ -
    exact h hplain
  reads := by
    rintro ⟨_, ⟨⟩, hnone⟩
    exact hcode hnone

theorem error (e : Fault) (plain reads : Prop) :
    ReportsBy plain reads (.error e : Except Fault (Checked τ)) where
  reports _ := by rintro _ ⟨⟩
  reads := by rintro ⟨_, ⟨⟩, -⟩

theorem congr (h : ReportsBy plain reads r) (hplain : plain ↔ plain') (hreads : reads ↔ reads') :
    ReportsBy plain' reads' r := by
  rwa [← propext hplain, ← propext hreads]

theorem map (h : ReportsBy plain reads r) (f : τ → υ) :
    ReportsBy plain reads (r >>= fun c => pure (c.map f)) where
  reports hplain c hc hcode := by
    obtain ⟨d, hd, hc⟩ := bind_eq_ok_iff.mp hc
    obtain rfl := Except.ok.inj hc
    exact h.reports hplain d hd hcode
  reads hpasses := h.reads (passes_map_iff.mp hpasses)

/-- A check, and what is done behind it if it passes. -/
theorem turn (h : ReportsBy plain reads r) {f : Checked τ → Except Fault (Checked υ)} {g : τ → υ}
    (hnext : ∀ c, r = .ok c → ReportsBy plain' reads' (f c)) :
    ReportsBy (plain ∧ (reads → plain')) (reads ∧ reads')
      (r >>= fun c => if c.code = .NONE then f c else pure ⟨c.code, c.errorMsg, g c.after⟩) where
  reports := by
    rintro ⟨hplain, hplain'⟩ c hc hcode
    obtain ⟨d, hd, hc⟩ := bind_eq_ok_iff.mp hc
    split at hc
    · rename_i hnone
      exact (hnext d hd).reports (hplain' (h.reads ⟨d, hd, hnone⟩)) c hc hcode
    · obtain rfl := Except.ok.inj hc
      exact h.reports hplain d hd hcode
  reads := by
    rintro ⟨c, hc, hcode⟩
    obtain ⟨d, hd, hc⟩ := bind_eq_ok_iff.mp hc
    split at hc
    · rename_i hnone
      exact ⟨h.reads ⟨d, hd, hnone⟩, (hnext d hd).reads ⟨c, hc, hcode⟩⟩
    · rename_i hfails
      obtain rfl := Except.ok.inj hc
      exact absurd hcode hfails

/-- Another check of the same things behind a check that passes. -/
theorem andThen (h : ReportsBy plain reads r) (hkeeps : Keeps x r)
    {next : τ → Bytes → Except Fault (Checked τ)}
    (hnext : ∀ errorMsg, ReportsBy plain' reads' (next x errorMsg)) :
    ReportsBy (plain ∧ (reads → plain')) (reads ∧ reads') (Checked.andThen r next) :=
  h.turn (g := id) fun c hc => by
    rw [hkeeps c hc]
    exact hnext c.errorMsg

end ReportsBy

/-- The first of the parts that cannot be read takes over plain pieces. -/
def FirstPlain {α : Type} (plain reads : α → Prop) : List α → Prop
  | [] => True
  | part :: rest => plain part ∧ (reads part → FirstPlain plain reads rest)

theorem firstPlain_of_all {α : Type} {plain reads : α → Prop} {parts : List α}
    (h : ∀ part ∈ parts, plain part) : FirstPlain plain reads parts := by
  induction parts with
  | nil => trivial
  | cons part rest ih =>
    obtain ⟨hpart, hrest⟩ := List.forall_mem_cons.mp h
    exact ⟨hpart, fun _ => ih hrest⟩

/-! ### What a part takes over -/

/-- What the failures of a missing or misplaced parameter name. -/
structure PlainName {σ : Type} (v : ParamValidator σ) : Prop where
  ref : PlainRef v.toBaseValidator
  name : NeedsNoEscape v.name

section

variable {σ : Type} (rj : RapidJson σ)

/-- What is taken over of a text that is no JSON text needs no escape. -/
def PlainParse (v : BaseValidator) (t : Bytes) : Prop :=
  ∀ code offset, rj.parse (cstr t) = .error (code, offset) →
    PlainRef v ∧ NeedsNoEscape (rj.getParseError_En code)

def IsJsonText (t : Bytes) : Prop := ∃ doc, rj.parse (cstr t) = .ok doc

namespace ParamValidator

variable (v : ParamValidator σ) (buf : Nat → UInt8) (beg end_ : Nat)

/-- What is taken over of a range that cannot be deserialized, or not to a JSON text, needs no escape. -/
structure PlainAt : Prop where
  exception : ∀ message,
    (v.deserializer.deserialize buf beg end_).1 = .error (DeserializationException message) →
      PlainRef v.toBaseValidator ∧ NeedsNoEscape message
  parse : ∀ t, (v.deserializer.deserialize buf beg end_).1 = .ok t → PlainParse rj v.toBaseValidator t

def ReadsAt : Prop := ∃ t, (v.deserializer.deserialize buf beg end_).1 = .ok t ∧ IsJsonText rj t

end ParamValidator

namespace ValidatorsStore

variable (store : ValidatorsStore σ)

/-! What the checks of an operation take over, and what has been read when they pass. -/

def BodyPlain (jsonBody : Bytes) : Prop :=
  ∀ v ∈ store.bodyValidator, PlainParse rj v.toBaseValidator jsonBody

def BodyReads (jsonBody : Bytes) : Prop := ∀ v ∈ store.bodyValidator, IsJsonText rj jsonBody

section

variable (buf : Nat → UInt8) (paramIdxs : ParamIdxs)

def PathParamPlain (info : PathParamValidatorInfo σ) : Prop :=
  match paramIdxs.lookup info.idx with
  | none => PlainName info.validator
  | some range => info.validator.PlainAt rj buf range.beg range.end_

def PathParamReads (info : PathParamValidatorInfo σ) : Prop :=
  match paramIdxs.lookup info.idx with
  | none => False
  | some range => info.validator.ReadsAt rj buf range.beg range.end_

def PathPlain : Prop :=
  FirstPlain (PathParamPlain rj buf paramIdxs) (PathParamReads rj buf paramIdxs)
    store.pathParamValidators

def PathReads : Prop := ∀ info ∈ store.pathParamValidators, PathParamReads rj buf paramIdxs info

end

section

variable (infos : List (QueryParamValidatorInfo σ)) (query : Bytes)

def QueryParamPlain (info : QueryParamValidatorInfo σ) : Prop :=
  match cutRange infos query info.name with
  | some (.ok (start, end_)) => info.validator.PlainAt rj (dataOf query) start end_
  | _ => True

def QueryParamReads (info : QueryParamValidatorInfo σ) : Prop :=
  match cutRange infos query info.name with
  | some (.ok (start, end_)) => info.validator.ReadsAt rj (dataOf query) start end_
  | _ => True

/-- In the first loop the first parameter that is missing or misplaced, and in the second the first one
whose range cannot be read, takes over plain pieces. -/
def QueryPlain : Prop :=
  FirstPlain (fun info => ¬GetsPast query info → PlainName info.validator.toParamValidator)
      (GetsPast query) store.queryParamValidators ∧
    ((∀ info ∈ store.queryParamValidators, GetsPast query info) →
      FirstPlain (QueryParamPlain rj store.queryParamValidators query)
        (QueryParamReads rj store.queryParamValidators query) store.queryParamValidators)

def QueryReads : Prop :=
  (∀ info ∈ store.queryParamValidators, GetsPast query info) ∧
    ∀ info ∈ store.queryParamValidators, QueryParamReads rj store.queryParamValidators query info

end

section

variable (validators : List (Bytes × ParamValidator σ)) (headers : List (Bytes × Bytes))

def HeaderPlain (name : Bytes) : Prop :=
  ∀ v, validators.lookup name = some v →
    match headers.lookup name with
    | none => v.required = true → PlainName v
    | some param => v.PlainAt rj (dataOf param) 0 param.length

def HeaderReads (name : Bytes) : Prop :=
  ∀ v, validators.lookup name = some v →
    match headers.lookup name with
    | none => v.required = false
    | some param => v.ReadsAt rj (dataOf param) 0 param.length

def HeadersPlain (order : Hashing) : Prop :=
  FirstPlain (HeaderPlain rj store.headerParamValidators headers)
    (HeaderReads rj store.headerParamValidators headers)
    (order.iterate (keys store.headerParamValidators))

def HeadersRead (order : Hashing) : Prop :=
  ∀ name ∈ order.iterate (keys store.headerParamValidators),
    HeaderReads rj store.headerParamValidators headers name

end

end ValidatorsStore

end

/-! ### Checks -/

section

variable {σ : Type} {rj : RapidJson σ}

theorem lenient_resetRestores (h : ResetRestores rj) : ResetRestores rj.lenient := h

theorem ValidatorsStore.AtRest.lenient {store : ValidatorsStore σ} (h : store.AtRest rj) :
    store.AtRest rj.lenient := ⟨h.body, h.path, h.query, h.header⟩

theorem JsonValidator.validate_reportsBy {v : JsonValidator σ} (hv : Keyed v.toBaseValidator)
    (t errorMsg : Bytes) :
    ReportsBy (PlainParse rj v.toBaseValidator t) (IsJsonText rj t)
      (v.validate rj.lenient t errorMsg) := by
  unfold validate PlainParse IsJsonText
  cases hparse : rj.parse (cstr t) with
  | error e =>
    have hrun : rj.lenient.parse (cstr t) = .error e := hparse
    rw [hrun]
    refine (ReportsBy.failed hv.code (fun h => ?_) v).congr Iff.rfl (by simp)
    obtain ⟨href, htext⟩ := h e.1 e.2 rfl
    exact parserError_wellFormed hv href htext e.2
  | ok doc =>
    have hrun : rj.lenient.parse (cstr t) = .ok doc := hparse
    rw [hrun]
    exact (ReportsBy.none errorMsg _).congr (by simp) (by simp)

theorem ParamValidator.validateParam_reportsBy {v : ParamValidator σ} (hv : v.Keyed)
    (buf : Nat → UInt8) (beg end_ : Nat) (errorMsg : Bytes) :
    ReportsBy (v.PlainAt rj buf beg end_) (v.ReadsAt rj buf beg end_)
      (v.validateParam rj.lenient buf beg end_ errorMsg) := by
  unfold validateParam
  cases hrun : (v.deserializer.deserialize buf beg end_).1 with
  | ok ret =>
    refine ((JsonValidator.validate_reportsBy hv.keyed ret errorMsg).map _).congr ?_ ?_
    · exact ⟨fun h => ⟨by simp [hrun], by simpa [hrun] using h⟩, fun h => h.parse ret hrun⟩
    · simp [ReadsAt, hrun]
  | error x =>
    cases x with
    | lengthError => exact ReportsBy.error _ _ _
    | exception what =>
      refine (ReportsBy.failed hv.keyed.code (fun h => ?_) v).congr Iff.rfl (by simp [ReadsAt, hrun])
      rcases deserialize_fails hrun with hnone | ⟨message, hmessage, -⟩
      · simp at hnone
      · obtain ⟨href, hplain⟩ := h.exception message (hrun.trans (congrArg Except.error hmessage))
        obtain rfl := DeserializeError.exception.inj hmessage
        exact exception_wellFormed hv.keyed href hplain

theorem ReportsBy.missing {τ : Type} {v : ParamValidator σ} (hv : v.Keyed) (x : τ) :
    ReportsBy (PlainName v) False (.ok ⟨v.codeOnError, v.errorOnMissing, x⟩) :=
  ReportsBy.failed hv.keyed.code (fun h => missing_wellFormed hv h.ref h.name) x

namespace ValidatorsStore

variable {store : ValidatorsStore σ}

theorem validateBody_reportsBy
    (hstore : ∀ v ∈ store.bodyValidator, OasValidator.Keyed v.toBaseValidator)
    (jsonBody errorMsg : Bytes) :
    ReportsBy (store.BodyPlain rj jsonBody) (store.BodyReads rj jsonBody)
      (store.validateBody rj.lenient jsonBody errorMsg) := by
  unfold validateBody BodyPlain BodyReads
  cases hbody : store.bodyValidator with
  | none => exact (ReportsBy.none errorMsg store).congr (by simp) (by simp)
  | some v =>
    exact ((JsonValidator.validate_reportsBy (hstore v hbody) jsonBody errorMsg).map _).congr
      (by simp) (by simp)

theorem checkPathParams_reportsBy (buf : Nat → UInt8) (paramIdxs : ParamIdxs)
    {infos : List (PathParamValidatorInfo σ)} (hinfos : ∀ info ∈ infos, info.validator.Keyed)
    (errorMsg : Bytes) :
    ReportsBy (FirstPlain (PathParamPlain rj buf paramIdxs) (PathParamReads rj buf paramIdxs) infos)
      (∀ info ∈ infos, PathParamReads rj buf paramIdxs info)
      (checkPathParams rj.lenient buf paramIdxs infos errorMsg) := by
  induction infos generalizing errorMsg with
  | nil => exact (ReportsBy.none errorMsg []).congr Iff.rfl (by simp)
  | cons info rest ih =>
    have hinfo := hinfos info List.mem_cons_self
    have ih := ih fun i hi => hinfos i (List.mem_cons_of_mem _ hi)
    rw [List.forall_mem_cons, FirstPlain, checkPathParams]
    cases hrange : paramIdxs.lookup info.idx with
    | none =>
      exact (ReportsBy.missing hinfo _).congr (by simp [PathParamPlain, PathParamReads, hrange])
        (by simp [PathParamReads, hrange])
    | some range =>
      refine ((ParamValidator.validateParam_reportsBy hinfo buf range.beg range.end_ errorMsg).turn
        (g := fun w => { info with validator := w } :: rest)
          fun c _ => (ih c.errorMsg).map _).congr ?_ ?_
      · simp [PathParamPlain, PathParamReads, hrange]
      · simp [PathParamReads, hrange]

theorem validatePathParams_reportsBy
    (hstore : ∀ info ∈ store.pathParamValidators, info.validator.Keyed) (buf : Nat → UInt8)
    (paramIdxs : ParamIdxs) (errorMsg : Bytes) :
    ReportsBy (store.PathPlain rj buf paramIdxs) (store.PathReads rj buf paramIdxs)
      (store.validatePathParams rj.lenient buf paramIdxs errorMsg) :=
  (checkPathParams_reportsBy buf paramIdxs hstore errorMsg).map _

theorem locate_wellFormed {query : Bytes} {infos : List (QueryParamValidatorInfo σ)}
    (hinfos : ∀ info ∈ infos, info.Keyed)
    (hplain : FirstPlain (fun info => ¬GetsPast query info → PlainName info.validator.toParamValidator)
      (GetsPast query) infos) {starts : List Nat} {startMap : List (Bytes × Nat)}
    {code : ValidationError} {text : Bytes}
    (h : locate query infos starts startMap = .ok (.error (code, text))) : WellFormed code text := by
  induction infos generalizing starts startMap with
  | nil => simp [locate] at h
  | cons info rest ih =>
    obtain ⟨hkeyed, hcode, hname⟩ := hinfos info List.mem_cons_self
    have ih := fun hpast starts startMap => @ih (fun i hi => hinfos i (List.mem_cons_of_mem _ hi))
      (hplain.2 hpast) starts startMap
    unfold locate at h
    cases hfind : find info.name query with
    | none =>
      simp only [hfind] at h
      by_cases hrequired : info.validator.required
      · rw [if_pos hrequired] at h
        obtain ⟨rfl, rfl⟩ := Prod.mk.inj (Except.error.inj (Except.ok.inj h))
        have hpast : ¬GetsPast query info := by simp [GetsPast, Led, hfind, hrequired]
        exact missing_wellFormed hkeyed (hplain.1 hpast).ref (hplain.1 hpast).name
      · rw [if_neg hrequired] at h
        exact ih (Or.inl ⟨hfind, hrequired⟩) _ _ h
    | some start =>
      cases start with
      | zero => simp [hfind] at h
      | succ start =>
        simp only [hfind] at h
        split at h
        · rename_i hbyte
          obtain ⟨rfl, rfl⟩ := Prod.mk.inj (Except.error.inj (Except.ok.inj h))
          have hpast : ¬GetsPast query info := by simp [GetsPast, Led, hfind, hbyte]
          exact misplaced_wellFormed hkeyed.keyed hcode (hplain.1 hpast).ref
            (hname ▸ (hplain.1 hpast).name)
        · rename_i hbyte
          exact ih (Or.inr ⟨start + 1, hfind, Nat.succ_pos start,
            Decidable.or_iff_not_not_and_not.mpr hbyte⟩) _ _ h

/-- The second loop, behind a first one that ran to its end. -/
theorem checkQueryParams_reportsBy {query : Bytes} {infos : List (QueryParamValidatorInfo σ)}
    {starts : List Nat} {startMap : List (Bytes × Nat)}
    (hlocate : locate query infos [] [] = .ok (.ok (starts, startMap)))
    {rest : List (QueryParamValidatorInfo σ)} (hrest : ∀ info ∈ rest, info ∈ infos ∧ info.Keyed)
    (errorMsg : Bytes) :
    ReportsBy (FirstPlain (QueryParamPlain rj infos query) (QueryParamReads rj infos query) rest)
      (∀ info ∈ rest, QueryParamReads rj infos query info)
      (checkQueryParams rj.lenient query ((query.length + 1) :: starts) startMap rest errorMsg) := by
  induction rest generalizing errorMsg with
  | nil => exact (ReportsBy.none errorMsg []).congr Iff.rfl (by simp)
  | cons info rest ih =>
    have hnext := ih fun i hi => hrest i (List.mem_cons_of_mem _ hi)
    obtain ⟨hmem, hinfo⟩ := hrest info List.mem_cons_self
    have hrange : rangeOf ((query.length + 1) :: starts) startMap info.name =
        cutRange infos query info.name := locate_cutRange hlocate hmem
    rw [List.forall_mem_cons, FirstPlain, checkQueryParams_cons, hrange]
    cases hcut : cutRange infos query info.name with
    | none =>
      have hoptional : ¬info.validator.required := by
        rcases locate_ok_iff.mp ⟨_, hlocate⟩ info hmem with ⟨-, hoptional⟩ | ⟨start, hfind, -⟩
        · exact hoptional
        · simp [cutRange_eq_none_iff.mp hcut] at hfind
      simp only [if_neg hoptional]
      exact ((hnext errorMsg).map _).congr (by simp [QueryParamPlain, QueryParamReads, hcut])
        (by simp [QueryParamReads, hcut])
    | some r =>
      cases r with
      | error x => exact ReportsBy.error _ _ _
      | ok range =>
        have hcheck := (@ParamValidator.validateParam_reportsBy _ rj _ hinfo.keyed (dataOf query)
          range.1 range.2 errorMsg).map fun w =>
            ({ info.validator with toParamValidator := w } : QueryParamValidator σ)
        refine (hcheck.turn (g := fun w => { info with validator := w } :: rest)
          fun c _ => (hnext c.errorMsg).map _).congr ?_ ?_
        · simp [QueryParamPlain, QueryParamReads, hcut]
        · simp [QueryParamReads, hcut]

theorem validateQueryParams_reportsBy (hstore : ∀ info ∈ store.queryParamValidators, info.Keyed)
    (query errorMsg : Bytes) :
    ReportsBy (store.QueryPlain rj query) (store.QueryReads rj query)
      (store.validateQueryParams rj.lenient query errorMsg) := by
  unfold validateQueryParams
  cases hlocate : locate query store.queryParamValidators [] [] with
  | error x => exact ReportsBy.error x _ _
  | ok located =>
    cases located with
    | error e =>
      have hcode : e.1 = .INVALID_QUERY_PARAM :=
        locate_error (fun info hinfo => (hstore info hinfo).code) hlocate
      have hpast : ¬∀ info ∈ store.queryParamValidators, GetsPast query info := fun hpast => by
        obtain ⟨located, hlocated⟩ := locate_ok_iff.mpr hpast
        exact nomatch Except.ok.inj (hlocate.symm.trans hlocated)
      refine (ReportsBy.failed (by simp [hcode]) (fun h => ?_) store).congr Iff.rfl
        (by simp [QueryReads, hpast])
      exact locate_wellFormed hstore h.1 hlocate
    | ok p =>
      have hpast := locate_ok_iff.mp ⟨_, hlocate⟩
      refine ((checkQueryParams_reportsBy hlocate (fun info hinfo => ⟨hinfo, hstore info hinfo⟩)
        errorMsg).map _).congr ⟨fun h => ⟨?_, fun _ => h⟩, fun h => h.2 hpast⟩
          (and_iff_right hpast).symm
      exact firstPlain_of_all fun info hinfo hnot => absurd (hpast info hinfo) hnot

/-- The loop over the headers leaves their validators as they were. -/
theorem checkHeaderParams_reportsBy (hreset : ResetRestores rj) (headers : List (Bytes × Bytes))
    {validators : List (Bytes × ParamValidator σ)}
    (hvalidators : ∀ p ∈ validators, p.2.AtRest rj ∧ p.2.Keyed) (names : List Bytes)
    (errorMsg : Bytes) :
    ReportsBy (FirstPlain (HeaderPlain rj validators headers) (HeaderReads rj validators headers) names)
      (∀ name ∈ names, HeaderReads rj validators headers name)
      (checkHeaderParams rj.lenient headers names validators errorMsg) := by
  induction names generalizing errorMsg with
  | nil => exact (ReportsBy.none errorMsg validators).congr Iff.rfl (by simp)
  | cons name rest ih =>
    rw [List.forall_mem_cons, FirstPlain, checkHeaderParams]
    cases hv : validators.lookup name with
    | none => exact ReportsBy.error _ _ _
    | some v =>
      obtain ⟨hat, hkeyed⟩ := hvalidators _ (mem_of_lookup hv)
      cases hparam : headers.lookup name with
      | none =>
        dsimp only
        by_cases hrequired : v.required = true
        · rw [if_pos hrequired]
          exact (ReportsBy.missing hkeyed _).congr
            (by simp [HeaderPlain, HeaderReads, hv, hparam, hrequired])
            (by simp [HeaderReads, hv, hparam, hrequired])
        · rw [if_neg hrequired]
          exact (ih errorMsg).congr (by simp [HeaderPlain, HeaderReads, hv, hparam, hrequired])
            (by simp [HeaderReads, hv, hparam, hrequired])
      | some param =>
        have hkeeps := ParamValidator.validateParam_keeps (lenient_resetRestores hreset)
          (v := v) hat (dataOf param) 0 param.length errorMsg
        have hbehind : ∀ c, v.validateParam rj.lenient (dataOf param) 0 param.length errorMsg = .ok c →
            ReportsBy _ _ (checkHeaderParams rj.lenient headers rest (put name c.after validators)
              c.errorMsg) := fun c hc => by
          rw [hkeeps c hc, put_of_lookup hv]
          exact ih c.errorMsg
        refine ((ParamValidator.validateParam_reportsBy hkeyed (dataOf param) 0 param.length
          errorMsg).turn (g := fun w => put name w validators) hbehind).congr ?_ ?_
        · simp [HeaderPlain, HeaderReads, hv, hparam]
        · exact and_congr_left' (by simp [HeaderReads, hv, hparam])

theorem validateHeaderParams_reportsBy (hreset : ResetRestores rj) (order : Hashing)
    (hrest : store.AtRest rj) (hstore : ∀ p ∈ store.headerParamValidators, p.2.Keyed)
    (headers : List (Bytes × Bytes)) (errorMsg : Bytes) :
    ReportsBy (store.HeadersPlain rj headers order) (store.HeadersRead rj headers order)
      (store.validateHeaderParams rj.lenient order headers errorMsg) :=
  (checkHeaderParams_reportsBy hreset headers
    (fun p hp => ⟨hrest.header p hp, hstore p hp⟩) _ errorMsg).map _

end ValidatorsStore

end

end OasValidator
