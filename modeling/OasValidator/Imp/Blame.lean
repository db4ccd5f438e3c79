import OasValidator.Imp.Acceptance
import OasValidator.Imp.SpecRefs
import OasValidator.Validators.Descriptions

/-! What an error text blames.  Whichever check ends a call, the text begins with the code that the call
returns and with the place of a part of the specification; the part is declared for the operation that
the request routes to, it is among what the call checks, and the request does not meet it. -/

namespace OasValidator

open Library.Cut Library.Table PathTrie ValidatorsStore Checked

/-! ### Texts of a validator -/

/-- A check that failed with the code of a validator, and with a text behind its header. -/
structure TextOf {τ : Type} (v : BaseValidator) (c : Checked τ) : Prop where
  code : c.code = v.codeOnError
  header : v.errHeader <+: c.errorMsg
  closed : lit "\x7d\x7d" <:+ c.errorMsg

/-- Whenever the check fails, it is with a text of a validator that `P` holds of. -/
def Blames {τ : Type} (P : BaseValidator → Prop) (r : Except Fault (Checked τ)) : Prop :=
  ∀ c, r = .ok c → c.code ≠ .NONE → ∃ v, P v ∧ TextOf v c

theorem textOf_append {τ : Type} (v : BaseValidator) (text : Bytes) (x : τ) :
    TextOf v ⟨v.codeOnError, v.errHeader ++ text ++ lit "\x7d\x7d", x⟩ where
  code := rfl
  header := by
    rw [List.append_assoc]
    exact List.prefix_append _ _
  closed := List.suffix_append _ _

namespace Blames

variable {τ υ : Type} {P Q : BaseValidator → Prop} {r : Except Fault (Checked τ)} {x : τ}

theorem none (errorMsg : Bytes) (x : τ) : Blames P (.ok ⟨.NONE, errorMsg, x⟩) := by
  rintro _ ⟨⟩ hfail
  exact absurd rfl hfail

theorem error (fault : Fault) : Blames P (.error fault : Except Fault (Checked τ)) := by
  rintro _ ⟨⟩

theorem mono (h : Blames P r) (hPQ : ∀ v, P v → Q v) : Blames Q r := fun c hc hfail => by
  obtain ⟨v, hv, htext⟩ := h c hc hfail
  exact ⟨v, hPQ v hv, htext⟩

theorem map (h : Blames P r) (f : τ → υ) : Blames P (r >>= fun c => pure (c.map f)) := by
  intro c hc hfail
  obtain ⟨d, hd, hc⟩ := bind_eq_ok_iff.mp hc
  obtain rfl := Except.ok.inj hc
  obtain ⟨v, hv, htext⟩ := h d hd hfail
  exact ⟨v, hv, htext.code, htext.header, htext.closed⟩

theorem andThen (h : Blames P r) (hkeeps : Keeps x r) {next : τ → Bytes → Except Fault (Checked τ)}
    (hnext : ∀ m, Blames P (next x m)) : Blames P (Checked.andThen r next) := by
  intro c hc hfail
  obtain ⟨d, hd, hc⟩ := bind_eq_ok_iff.mp hc
  split at hc
  · rw [hkeeps d hd] at hc
    exact hnext d.errorMsg c hc hfail
  · rename_i hcode
    obtain rfl := Except.ok.inj hc
    exact h d hd hfail

/-- A turn of a loop over parts. -/
theorem turn (h : Blames P r) {f : τ → Bytes → Except Fault (Checked υ)} {g : τ → υ}
    (hnext : ∀ c, r = .ok c → Blames P (f c.after c.errorMsg)) :
    Blames P (r >>= fun c => if c.code = .NONE then f c.after c.errorMsg
      else pure ⟨c.code, c.errorMsg, g c.after⟩) := by
  intro c hc hfail
  obtain ⟨d, hd, hc⟩ := bind_eq_ok_iff.mp hc
  split at hc
  · exact hnext d hd c hc hfail
  · obtain rfl := Except.ok.inj hc
    obtain ⟨v, hv, htext⟩ := h d hd hfail
    exact ⟨v, hv, htext.code, htext.header, htext.closed⟩

/-- What a failing check blames may be asked not to pass. -/
theorem of_passes {A : Prop} (h : Blames P r) (hpasses : Passes r ↔ A) :
    Blames (fun v => P v ∧ ¬A) r := by
  intro c hc hfail
  obtain ⟨v, hv, htext⟩ := h c hc hfail
  refine ⟨v, ⟨hv, fun hA => ?_⟩, htext⟩
  obtain ⟨c', hc', hnone⟩ := hpasses.mpr hA
  obtain rfl := Except.ok.inj (hc.symm.trans hc')
  exact hfail hnone

end Blames

/-! ### The single checks -/

variable {σ : Type} {rj : RapidJson σ} {order : Hashing} {store : ValidatorsStore σ}

theorem validate_blames {v : JsonValidator σ} (hcode : v.codeOnError ≠ .NONE) (t m : Bytes) :
    Blames (fun b => b = v.toBaseValidator ∧ ¬v.AcceptsText rj t) (v.validate rj t m) := by
  refine Blames.of_passes ?_ (validate_passes_iff hcode t m)
  intro c hc hfail
  refine ⟨v.toBaseValidator, rfl, ?_⟩
  unfold JsonValidator.validate at hc
  split at hc
  · rename_i code offset hparse
    obtain rfl := Except.ok.inj hc
    have htext := textOf_append v.toBaseValidator (lit "\"code\":\"parserError\",\"description\":\"" ++
      rj.getParseError_En code ++ lit "\",\"offset\":" ++ toString offset) v
    simpa only [List.append_assoc] using htext
  · simp only at hc
    split at hc
    · obtain rfl := Except.ok.inj hc
      exact absurd rfl hfail
    · obtain ⟨text, htext, hc⟩ := bind_eq_ok_iff.mp hc
      obtain rfl := Except.ok.inj hc
      obtain ⟨behind, rfl⟩ := JsonValidator.createErrorMessages_extends rj _ htext
      exact textOf_append v.toBaseValidator behind _

theorem validateParam_blames {v : ParamValidator σ} (hcode : v.codeOnError ≠ .NONE)
    (buf : Nat → UInt8) (beg end_ : Nat) (m : Bytes) :
    Blames (fun b => b = v.toBaseValidator ∧ ¬v.AcceptsRange rj buf beg end_)
      (v.validateParam rj buf beg end_ m) := by
  refine Blames.of_passes ?_ (validateParam_passes_iff_accepts hcode buf beg end_ m)
  unfold ParamValidator.validateParam
  split
  · exact ((validate_blames hcode _ m).mono fun _ h => h.1).map _
  · rintro _ ⟨⟩ -
    exact ⟨v.toBaseValidator, rfl, textOf_append v.toBaseValidator _ v⟩
  · exact Blames.error _

theorem textOf_missing (v : ParamValidator σ) {τ : Type} (x : τ) :
    TextOf v.toBaseValidator ⟨v.codeOnError, v.errorOnMissing, x⟩ := by
  have happend : v.errorOnMissing =
      v.errHeader ++ (lit "\"description\":\"Missing required parameter '" ++ v.name ++ lit "'\"") ++
        lit "\x7d\x7d" := by
    have hclose : lit "'\"\x7d\x7d" = lit "'\"" ++ lit "\x7d\x7d" := by decide
    simp only [ParamValidator.errorOnMissing, hclose, List.append_assoc]
  rw [happend]
  exact textOf_append v.toBaseValidator _ x

theorem validateBody_blames (hkeyed : store.Keyed) (jsonBody m : Bytes) :
    Blames (fun b => ∃ v ∈ store.bodyValidator, b = v.toBaseValidator ∧ ¬v.AcceptsText rj jsonBody)
      (store.validateBody rj jsonBody m) := by
  unfold validateBody
  split
  · exact Blames.none m store
  · rename_i v hv
    refine ((validate_blames (hkeyed.body v hv).code jsonBody m).mono fun b hb => ?_).map _
    exact ⟨v, hv, hb⟩

theorem checkPathParams_blames {infos : List (PathParamValidatorInfo σ)}
    (hcode : ∀ info ∈ infos, info.validator.codeOnError ≠ .NONE) (buf : Nat → UInt8)
    (paramIdxs : ParamIdxs) (m : Bytes) :
    Blames (fun b => ∃ info ∈ infos, b = info.validator.toBaseValidator ∧ ¬∃ range,
        paramIdxs.lookup info.idx = some range ∧
          info.validator.AcceptsRange rj buf range.beg range.end_)
      (checkPathParams rj buf paramIdxs infos m) := by
  induction infos generalizing m with
  | nil => exact Blames.none m []
  | cons info rest ih =>
    have hrest : ∀ m, Blames (fun b => ∃ i ∈ info :: rest, b = i.validator.toBaseValidator ∧ ¬∃ range,
        paramIdxs.lookup i.idx = some range ∧ i.validator.AcceptsRange rj buf range.beg range.end_)
        (checkPathParams rj buf paramIdxs rest m) := fun m => by
      refine (ih (fun i hi => hcode i (List.mem_cons_of_mem _ hi)) m).mono ?_
      rintro b ⟨i, hi, hb⟩
      exact ⟨i, List.mem_cons_of_mem info hi, hb⟩
    unfold checkPathParams
    split
    · rename_i hnone
      rintro _ ⟨⟩ -
      exact ⟨info.validator.toBaseValidator, ⟨info, List.mem_cons_self, rfl, by simp [hnone]⟩,
        textOf_missing info.validator _⟩
    · rename_i range hrange
      refine Blames.turn (f := fun w m => checkPathParams rj buf paramIdxs rest m >>= fun cs =>
          pure (cs.map ({ info with validator := w } :: ·)))
        (g := fun w => { info with validator := w } :: rest) ?_ fun c _ => (hrest c.errorMsg).map _
      refine (validateParam_blames (hcode info List.mem_cons_self) buf range.beg range.end_ m).mono ?_
      rintro b ⟨rfl, hrejects⟩
      exact ⟨info, List.mem_cons_self, rfl, by simpa [hrange] using hrejects⟩

/-- The recorded ranges are those of fragments of the request. -/
theorem validatePathParams_blames (hkeyed : store.Keyed) {httpPath : Bytes} {recorded : ParamIdxs}
    (hranges : ∀ i range, (i, range) ∈ recorded → ∃ dir, (fragments (pathPart httpPath))[i]? =
      some (dir, range)) (m : Bytes) :
    Blames (fun b => ∃ info ∈ store.pathParamValidators, b = info.validator.toBaseValidator ∧
        ¬info.Takes rj httpPath recorded)
      (store.validatePathParams rj (dataOf httpPath) (record recorded []) m) := by
  refine ((checkPathParams_blames (fun info hinfo => (hkeyed.path info hinfo).keyed.code) _ _ m).mono
    ?_).map _
  rintro b ⟨info, hinfo, hb, hrejects⟩
  refine ⟨info, hinfo, hb, mt ?_ hrejects⟩
  exact (takes_iff_range hranges info).mp

theorem textOf_misplaced {info : QueryParamValidatorInfo σ} (hcode : info.validator.codeOnError =
    .INVALID_QUERY_PARAM) {τ : Type} (x : τ) :
    TextOf info.validator.toBaseValidator ⟨.INVALID_QUERY_PARAM, misplaced info, x⟩ := by
  have happend : misplaced info = info.validator.errHeader ++ (lit "\"description\": \"Query parameter '" ++
      info.name ++ lit "' should start with '?' or '&'\"") ++ lit "\x7d\x7d" := by
    have hclose : lit "' should start with '?' or '&'\"\x7d\x7d" =
        lit "' should start with '?' or '&'\"" ++ lit "\x7d\x7d" := by decide
    simp only [misplaced, hclose, List.append_assoc]
  rw [happend, ← hcode]
  exact textOf_append info.validator.toBaseValidator _ x

/-- Where the first loop ends the check, it is at a parameter that is missing or stands behind another
byte. -/
theorem locate_blames {query : Bytes} {infos all : List (QueryParamValidatorInfo σ)}
    (hkeyed : ∀ info ∈ infos, info.Keyed) {starts : List Nat} {startMap : List (Bytes × Nat)}
    {code : ValidationError} {text : Bytes}
    (h : locate query infos starts startMap = .ok (.error (code, text))) {τ : Type} (x : τ) :
    ∃ info ∈ infos, TextOf info.validator.toBaseValidator (⟨code, text, x⟩ : Checked τ) ∧
      ¬info.Takes rj all query := by
  induction infos generalizing starts startMap with
  | nil => simp [locate] at h
  | cons info rest ih =>
    have hrest : ∀ starts startMap, locate query rest starts startMap = .ok (.error (code, text)) →
        ∃ i ∈ info :: rest, TextOf i.validator.toBaseValidator (⟨code, text, x⟩ : Checked τ) ∧
          ¬i.Takes rj all query := fun starts startMap h => by
      obtain ⟨i, hi, hblamed⟩ := ih (fun i hi => hkeyed i (List.mem_cons_of_mem _ hi)) h
      exact ⟨i, List.mem_cons_of_mem info hi, hblamed⟩
    unfold locate at h
    split at h
    · rename_i hfind
      split at h
      · rename_i hrequired
        obtain ⟨rfl, rfl⟩ := Prod.mk.inj (Except.error.inj (Except.ok.inj h))
        refine ⟨info, List.mem_cons_self, textOf_missing info.validator.toParamValidator x, ?_⟩
        simp [QueryParamValidatorInfo.Takes, hfind, hrequired]
      · exact hrest _ _ h
    · simp at h
    · rename_i start hfind
      split at h
      · rename_i hbyte
        obtain ⟨rfl, rfl⟩ := Prod.mk.inj (Except.error.inj (Except.ok.inj h))
        refine ⟨info, List.mem_cons_self,
          textOf_misplaced (hkeyed info List.mem_cons_self).code x, ?_⟩
        simp only [QueryParamValidatorInfo.Takes, hfind]
        rintro ⟨⟨i, hi, hmark⟩, -⟩
        obtain rfl : start = i := by omega
        tauto
      · exact hrest _ _ h

theorem checkQueryParams_blames {query : Bytes} {starts : List Nat} {startMap : List (Bytes × Nat)}
    {infos : List (QueryParamValidatorInfo σ)}
    (hcode : ∀ info ∈ infos, info.validator.codeOnError ≠ .NONE) (m : Bytes) :
    Blames (fun b => ∃ info ∈ infos, b = info.validator.toBaseValidator ∧
        ¬(match startMap.lookup info.name with
          | none => info.validator.required = false
          | some start => ∃ next, nextStart starts start = .ok next ∧
              info.validator.AcceptsRange rj (dataOf query) start (next - 1)))
      (checkQueryParams rj query starts startMap infos m) := by
  induction infos generalizing m with
  | nil => exact Blames.none m []
  | cons info rest ih =>
    have hrest : ∀ m, Blames (fun b => ∃ i ∈ info :: rest, b = i.validator.toBaseValidator ∧
        ¬(match startMap.lookup i.name with
          | none => i.validator.required = false
          | some start => ∃ next, nextStart starts start = .ok next ∧
              i.validator.AcceptsRange rj (dataOf query) start (next - 1)))
        (checkQueryParams rj query starts startMap rest m) := fun m => by
      refine (ih (fun i hi => hcode i (List.mem_cons_of_mem _ hi)) m).mono ?_
      rintro b ⟨i, hi, hb⟩
      exact ⟨i, List.mem_cons_of_mem info hi, hb⟩
    unfold checkQueryParams
    split
    · rename_i hnone
      split
      · rename_i hrequired
        rintro _ ⟨⟩ -
        exact ⟨info.validator.toBaseValidator, ⟨info, List.mem_cons_self, rfl, by simp [hnone, hrequired]⟩,
          textOf_missing info.validator.toParamValidator _⟩
      · exact (hrest m).map _
    · rename_i start hstart
      cases hnext : nextStart starts start with
      | error fault => exact Blames.error fault
      | ok next =>
        refine Blames.turn (f := fun w m => checkQueryParams rj query starts startMap rest m >>= fun cs =>
            pure (cs.map ({ info with validator := w } :: ·)))
          (g := fun w => { info with validator := w } :: rest) ?_ fun c _ => (hrest c.errorMsg).map _
        refine ((validateParam_blames (hcode info List.mem_cons_self) (dataOf query) start (next - 1)
          m).mono ?_).map _
        rintro b ⟨rfl, hrejects⟩
        refine ⟨info, List.mem_cons_self, rfl, ?_⟩
        simpa [hstart, hnext] using hrejects

theorem validateQueryParams_blames (hkeyed : store.Keyed) (query m : Bytes) :
    Blames (fun b => ∃ info ∈ store.queryParamValidators, b = info.validator.toBaseValidator ∧
        ¬info.Takes rj store.queryParamValidators query)
      (store.validateQueryParams rj query m) := by
  unfold validateQueryParams
  cases hlocate : locate query store.queryParamValidators [] [] with
  | error fault => exact Blames.error fault
  | ok located =>
    cases located with
    | error e =>
      obtain ⟨code, text⟩ := e
      rintro _ ⟨⟩ -
      obtain ⟨info, hinfo, htext, hrejects⟩ :=
        @locate_blames _ rj _ _ store.queryParamValidators hkeyed.query _ _ _ _ hlocate _ store
      exact ⟨_, ⟨info, hinfo, rfl, hrejects⟩, htext⟩
    | ok p =>
      obtain ⟨starts, startMap⟩ := p
      obtain ⟨hstarts, hmap⟩ := locate_spec hlocate
      refine ((checkQueryParams_blames (fun info hinfo => (hkeyed.query info hinfo).keyed.keyed.code)
        m).mono ?_).map _
      rintro b ⟨info, hinfo, hb, hrejects⟩
      refine ⟨info, hinfo, hb, mt ?_ hrejects⟩
      have hlookup : startMap.lookup info.name = find info.name query := by
        rw [hmap, if_pos (List.mem_map_of_mem hinfo)]
        rfl
      have hmem : ∀ s, s ∈ (query.length + 1) :: starts ↔ s ∈ startsOf store.queryParamValidators query :=
        fun s => by simp [mem_startsOf, hstarts]
      rw [hlookup]
      unfold QueryParamValidatorInfo.Takes
      cases find info.name query with
      | none => exact id
      | some start =>
        rintro ⟨-, next, hnext, haccepts⟩
        exact ⟨next, (nextStart_congr hmem start).trans hnext, haccepts⟩

theorem checkHeaderParams_blames (hreset : ResetRestores rj) (given : List (Bytes × Bytes))
    (names : List Bytes) {validators : List (Bytes × ParamValidator σ)}
    (hvalidators : ∀ p ∈ validators, p.2.AtRest rj ∧ p.2.codeOnError ≠ .NONE) (m : Bytes) :
    Blames (fun b => ∃ name v, validators.lookup name = some v ∧ b = v.toBaseValidator ∧
        ¬v.TakesHeader rj name given)
      (checkHeaderParams rj given names validators m) := by
  induction names generalizing m with
  | nil => exact Blames.none m validators
  | cons name rest ih =>
    unfold checkHeaderParams
    split
    · exact Blames.error _
    · rename_i v hv
      obtain ⟨hrest, hcode⟩ := hvalidators _ (mem_of_lookup hv)
      split
      · rename_i hnone
        split
        · rename_i hrequired
          rintro _ ⟨⟩ -
          refine ⟨_, ⟨name, v, hv, rfl, ?_⟩, textOf_missing v _⟩
          simp [ParamValidator.TakesHeader, hnone, hrequired]
        · exact ih m
      · rename_i param hparam
        refine Blames.turn (f := fun w m => checkHeaderParams rj given rest (put name w validators) m)
          (g := fun w => put name w validators) ?_ fun c hc => ?_
        · refine (validateParam_blames hcode (dataOf param) 0 param.length m).mono ?_
          rintro b ⟨rfl, hrejects⟩
          refine ⟨name, v, hv, rfl, ?_⟩
          simpa only [ParamValidator.TakesHeader, hparam] using hrejects
        · rw [ParamValidator.validateParam_keeps hreset hrest _ _ _ m c hc, put_of_lookup hv]
          exact ih c.errorMsg

theorem validateHeaderParams_blames (hreset : ResetRestores rj) (hrest : store.AtRest rj)
    (hkeyed : store.Keyed) (given : List (Bytes × Bytes)) (m : Bytes) :
    Blames (fun b => ∃ name v, store.headerParamValidators.lookup name = some v ∧
        b = v.toBaseValidator ∧ ¬v.TakesHeader rj name given)
      (store.validateHeaderParams rj order given m) :=
  (checkHeaderParams_blames hreset given _ (fun p hp => ⟨hrest.header p hp,
    (hkeyed.header p hp).keyed.code⟩) m).map _

/-! ### Calls -/

/-- The code for errors of a part. -/
def PartKind.code : PartKind → ValidationError
  | .body => .INVALID_BODY
  | .param in_ _ =>
    if in_ = lit "path" then .INVALID_PATH_PARAM
    else if in_ = lit "query" then .INVALID_QUERY_PARAM
    else .INVALID_HEADER_PARAM

/-- The validators of a store have the codes of their parts. -/
structure Coded (store : ValidatorsStore σ) : Prop where
  body : ∀ v ∈ store.bodyValidator, v.codeOnError = .INVALID_BODY
  path : ∀ info ∈ store.pathParamValidators, info.validator.codeOnError = .INVALID_PATH_PARAM
  query : QueryCodes store.queryParamValidators
  header : HeaderCodes store

theorem coded_kept : Kept rj fun _ store => Coded store where
  empty _ := ⟨by simp, by simp, by simp [QueryCodes], by simp [HeaderCodes]⟩
  body _ schemaVal refKeys :=
    ⟨by simp [ofBody, JsonValidator.ofSchema, BaseValidator.ofKeys], by simp [ofBody],
      by simp [ofBody, QueryCodes], by simp [ofBody, HeaderCodes]⟩
  add := by
    intro path refKeys paramVal store store' hstore h
    obtain ⟨_, name, -, -, hadded⟩ := addParam_added h
    cases hadded with
    | path index built =>
      refine ⟨hstore.body, fun info hinfo => ?_, hstore.query, hstore.header⟩
      rcases List.mem_append.mp hinfo with hinfo | hinfo
      · exact hstore.path info hinfo
      · rw [List.mem_singleton.mp hinfo]
        rfl
    | query built =>
      refine ⟨hstore.body, hstore.path, fun info hinfo => ?_, hstore.header⟩
      rcases List.mem_append.mp hinfo with hinfo | hinfo
      · exact hstore.query info hinfo
      · rw [List.mem_singleton.mp hinfo]
        rfl
    | header built =>
      exact ⟨hstore.body, hstore.path, hstore.query, headerCodes_kept.add hstore.header h⟩

/-- A part that a call checks, with its validator, that the request does not meet. -/
inductive Blamed (rj : RapidJson σ) (call : Call) (recorded : ParamIdxs) (store : ValidatorsStore σ) :
    PartKind → BaseValidator → Prop
  | body {v : JsonValidator σ} {jsonBody : Bytes} (asked : jsonBody ∈ call.jsonBody)
      (held : v ∈ store.bodyValidator) (rejects : ¬v.AcceptsText rj jsonBody) :
      Blamed rj call recorded store .body v.toBaseValidator
  | path {info : PathParamValidatorInfo σ} (asked : call.asks.1 = true)
      (held : info ∈ store.pathParamValidators) (rejects : ¬info.Takes rj call.httpPath recorded) :
      Blamed rj call recorded store (.param (lit "path") info.validator.name)
        info.validator.toBaseValidator
  | query {info : QueryParamValidatorInfo σ} (asked : call.asks.2 = true)
      (held : info ∈ store.queryParamValidators)
      (rejects : ¬info.Takes rj store.queryParamValidators (queryPart call.httpPath)) :
      Blamed rj call recorded store (.param (lit "query") info.name) info.validator.toBaseValidator
  | header {name : Bytes} {v : ParamValidator σ} {given : List (Bytes × Bytes)}
      (asked : given ∈ call.givenHeaders) (held : store.headerParamValidators.lookup name = some v)
      (rejects : ¬v.TakesHeader rj name given) :
      Blamed rj call recorded store (.param (lit "header") name) v.toBaseValidator

section

variable {call : Call} {recorded : ParamIdxs} {kind : PartKind} {b : BaseValidator}

theorem Blamed.code (h : Blamed rj call recorded store kind b) (hcoded : Coded store) :
    b.codeOnError = kind.code := by
  cases h with
  | body asked held rejects => exact hcoded.body _ held
  | path asked held rejects => exact hcoded.path _ held
  | query asked held rejects => exact hcoded.query _ held
  | header asked held rejects => exact hcoded.header _ (mem_of_lookup held)

theorem Blamed.mem (h : Blamed rj call recorded store kind b) : (kind, b) ∈ store.validators := by
  simp only [ValidatorsStore.validators, List.mem_append, List.mem_map, Option.mem_toList]
  cases h with
  | body asked held rejects => exact Or.inl (Or.inl (Or.inl ⟨_, held, rfl⟩))
  | path asked held rejects => exact Or.inl (Or.inl (Or.inr ⟨_, held, rfl⟩))
  | query asked held rejects => exact Or.inl (Or.inr ⟨_, held, rfl⟩)
  | header asked held rejects => exact Or.inr ⟨_, mem_of_lookup held, rfl⟩

theorem Blamed.keyed (h : Blamed rj call recorded store kind b) (hkeyed : store.Keyed) : Keyed b := by
  cases h with
  | body asked held rejects => exact hkeyed.body _ held
  | path asked held rejects => exact (hkeyed.path _ held).keyed
  | query asked held rejects => exact (hkeyed.query _ held).keyed.keyed
  | header asked held rejects => exact (hkeyed.header _ (mem_of_lookup held)).keyed

/-- The check of a call blames a part that it checks and that is not met. -/
theorem check_blames (hreset : ResetRestores rj) (hrest : store.AtRest rj) (hkeyed : store.Keyed)
    {found : Found}
    (hranges : ∀ i range, (i, range) ∈ recorded → ∃ dir, (fragments (pathPart call.httpPath))[i]? =
      some (dir, range))
    (hidxs : call.asks.1 = true → found.paramIdxs.getD [] = record recorded [])
    (hquery : call.asks.2 = true → found.query.getD [] = queryPart call.httpPath) (m : Bytes) :
    Blames (fun b => ∃ kind, Blamed rj call recorded store kind b)
      (call.check rj order found store m) := by
  have hbody : ∀ jsonBody ∈ call.jsonBody, ∀ m, Blames (fun b => ∃ kind, Blamed rj call recorded store
      kind b) (store.validateBody rj jsonBody m) := fun jsonBody hasked m => by
    refine (validateBody_blames hkeyed jsonBody m).mono ?_
    rintro b ⟨v, hv, rfl, hrejects⟩
    exact ⟨_, .body hasked hv hrejects⟩
  have hpath : call.asks.1 = true → ∀ m, Blames (fun b => ∃ kind, Blamed rj call recorded store kind b)
      (store.validatePathParams rj (dataOf call.httpPath) (found.paramIdxs.getD []) m) := fun h m => by
    rw [hidxs h]
    refine (validatePathParams_blames hkeyed hranges m).mono ?_
    rintro b ⟨info, hinfo, rfl, hrejects⟩
    exact ⟨_, .path h hinfo hrejects⟩
  have hparams : call.asks.2 = true → ∀ m, Blames (fun b => ∃ kind, Blamed rj call recorded store kind b)
      (store.validateQueryParams rj (found.query.getD []) m) := fun h m => by
    rw [hquery h]
    refine (validateQueryParams_blames hkeyed _ m).mono ?_
    rintro b ⟨info, hinfo, rfl, hrejects⟩
    exact ⟨_, .query h hinfo hrejects⟩
  have hheaders : ∀ given ∈ call.givenHeaders, ∀ m, Blames (fun b => ∃ kind, Blamed rj call recorded
      store kind b) (store.validateHeaderParams rj order given m) := fun given hasked m => by
    refine (validateHeaderParams_blames hreset hrest hkeyed given m).mono ?_
    rintro b ⟨name, v, hv, rfl, hrejects⟩
    exact ⟨_, .header hasked hv hrejects⟩
  have hboth : call.asks.1 = true → call.asks.2 = true → ∀ m, Blames (fun b => ∃ kind, Blamed rj call
      recorded store kind b) (Checked.andThen (store.validatePathParams rj (dataOf call.httpPath)
        (found.paramIdxs.getD []) m) fun store m => store.validateQueryParams rj (found.query.getD []) m) :=
    fun h h' m => (hpath h m).andThen (validatePathParams_keeps hreset hrest _ _ m) (hparams h')
  have hthree : call.asks.1 = true → call.asks.2 = true → ∀ given ∈ call.givenHeaders, ∀ m,
      Blames (fun b => ∃ kind, Blamed rj call recorded store kind b)
        (Checked.andThen (store.validatePathParams rj (dataOf call.httpPath)
          (found.paramIdxs.getD []) m) fun store m =>
            Checked.andThen (store.validateQueryParams rj (found.query.getD []) m) fun store m =>
              store.validateHeaderParams rj order given m) := fun h h' given hasked m =>
    (hpath h m).andThen (validatePathParams_keeps hreset hrest _ _ m) fun m =>
      (hparams h' m).andThen (validateQueryParams_keeps hreset hrest _ m) (hheaders given hasked)
  cases call with
  | route method httpPath => exact Blames.none m store
  | body method httpPath jsonBody => exact hbody jsonBody rfl m
  | pathParam method httpPath => exact hpath rfl m
  | queryParam method httpPath => exact hparams rfl m
  | headers method httpPath given => exact hheaders given rfl m
  | request method httpPath => exact hboth rfl rfl m
  | requestBody method httpPath jsonBody =>
    rw [Call.check]
    exact (hbody jsonBody rfl m).andThen (validateBody_keeps hreset hrest jsonBody m) (hboth rfl rfl)
  | requestHeaders method httpPath given => exact hthree rfl rfl given rfl m
  | requestBodyHeaders method httpPath jsonBody given =>
    rw [Call.check]
    exact (hbody jsonBody rfl m).andThen (validateBody_keeps hreset hrest jsonBody m)
      (hthree rfl rfl given rfl)

end

/-- An error text tells what is wrong.  A call that fails with the code for a method or a route has none
to go on with; otherwise its text begins with the code and the reference of a declaration of the
operation that it routes to, which is about a part that the call checks and that the request does not
meet. -/
theorem failure_blames {files : Bytes → Option Bytes} {oasSpecs : Bytes} {methodMap : MethodMap}
    {doc : Json} {imp : OASValidatorImp σ}
    (h : Constructs rj order files oasSpecs methodMap doc imp) (hreset : ResetRestores rj)
    {errorMsg : Bytes} {call : Call} {c : Checked (OASValidatorImp σ)}
    (hcall : imp.call rj order errorMsg call = .ok c) (hfail : c.code ≠ .NONE) :
    c.code = .INVALID_METHOD ∧ call.method ∉ kValidMethods ∨
    c.code = .INVALID_ROUTE ∧ call.method ∈ kValidMethods ∧
      routed order (declared doc) (pathPart call.httpPath)
        (candidates order (buildCaseInsensitiveMap order methodMap) call.method) = none ∨
    ∃ method path store d b,
      routed order (declared doc) (pathPart call.httpPath)
        (candidates order (buildCaseInsensitiveMap order methodMap) call.method) =
          some (method, path) ∧
      storeOf rj path (operations doc method path) = .ok (some store) ∧
      d ∈ declarations doc ∧ d.part = ⟨method, path, d.part.kind⟩ ∧ c.code = d.part.kind.code ∧
      Blamed rj call (recordedIn order (declared doc) (pathPart call.httpPath)
        (candidates order (buildCaseInsensitiveMap order methodMap) call.method)) store d.part.kind b ∧
      b.HasRef d.ref ∧ errHeaderOf c.code ++ lit "\"specRef\":\"" ++ d.ref ++ lit "\"," <+: c.errorMsg ∧
      lit "\x7d\x7d" <:+ c.errorMsg := by
  obtain ⟨hreg, hmap, -⟩ := h.registered
  rw [OASValidatorImp.call_eq_lookup hreg] at hcall
  rw [← hmap]
  obtain ⟨found, hfound, ⟨hinvalid, hcode⟩ | ⟨hvalid, hin⟩⟩ :=
    @OASValidatorImp.lookup_registered _ order imp _ hreg errorMsg call
  · rw [hfound] at hcall
    obtain rfl : (⟨found.code, found.errorMsg, imp⟩ : Checked (OASValidatorImp σ)) = c := by
      simpa [OASValidatorImp.withStore, hcode, bind, Except.bind] using hcall
    exact Or.inl ⟨hcode, hinvalid⟩
  · rw [hfound] at hcall
    replace hcall : imp.withStore found (call.check rj order found) = .ok c := hcall
    cases hrouted : routed order (declared doc) (pathPart call.httpPath)
        (candidates order imp.methodMap call.method) with
    | none =>
      have hcode : found.code = .INVALID_ROUTE := by rw [hin.code, hin.validators, hrouted]; rfl
      obtain rfl : (⟨found.code, found.errorMsg, imp⟩ : Checked (OASValidatorImp σ)) = c := by
        simpa [OASValidatorImp.withStore, hcode] using hcall
      exact Or.inr (Or.inl ⟨hcode, hvalid, rfl⟩)
    | some selected =>
      obtain ⟨method, path⟩ := selected
      have hcode : found.code = .NONE := by rw [hin.code, hin.validators, hrouted]; rfl
      obtain ⟨method', path', store, hv, hrouted', hstore⟩ := OASValidatorImp.found_store hreg hfound hcode
      obtain ⟨rfl, rfl⟩ := Prod.mk.inj (Option.some.inj (hrouted.symm.trans hrouted'))
      obtain ⟨hidxs, hquery⟩ := lookup_asked hvalid hin hfound
      have hbuilt := h.builtFrom method path
      rw [hstore] at hbuilt
      have hkept : store.Keyed ∧ Coded store := by
        obtain ⟨_, -, hprocess⟩ := h
        exact ⟨keyed_kept.processDocument hprocess method path store hstore,
          coded_kept.processDocument hprocess method path store hstore⟩
      obtain ⟨hkeyed, hcoded⟩ := hkept
      have hblames : Blames _ (call.check rj order found store found.errorMsg) :=
        check_blames hreset (h.atRest method path store hstore) hkeyed
          (fun i range hmem => recordedBy_getElem (mem_recordedIn hmem).choose_spec.2) hidxs hquery
          found.errorMsg
      unfold OASValidatorImp.withStore at hcall
      rw [if_neg (by simp [hcode]), hv] at hcall
      simp only [hstore] at hcall
      obtain ⟨c', hc', hcall⟩ := bind_eq_ok_iff.mp hcall
      obtain rfl := Except.ok.inj hcall
      obtain ⟨b, ⟨kind, hblamed⟩, htext⟩ := hblames c' hc' hfail
      obtain ⟨refKeys, hheader⟩ := (hblamed.keyed hkeyed).header
      have href : b.HasRef (joinReference refKeys) := by
        rw [hheader]
        exact BaseValidator.hasRef_ofKeys.mpr rfl
      obtain ⟨d, hd, -, hpart, hdref⟩ := (h.carries_iff ⟨method, path, kind⟩ _).mp
        ⟨store, hstore, b, hblamed.mem, href⟩
      refine Or.inr (Or.inr ⟨method, path, store, d, b, rfl, hbuilt, hd, by rw [hpart], ?_, ?_,
        hdref ▸ href, ?_, htext.closed⟩)
      · rw [hpart]
        exact htext.code.trans (hblamed.code hcoded)
      · rw [hpart]
        exact hblamed
      · have hprefix := htext.header
        rw [href] at hprefix
        show errHeaderOf c'.code ++ _ ++ _ ++ _ <+: _
        rw [htext.code, ← hdref]
        exact hprefix

theorem failure_blames_header : ∃ (doc : Json) (imp : OASValidatorImp Json)
    (c : Checked (OASValidatorImp Json)) (d : Declaration),
    Constructs RapidJson.plain .insertion (fun _ => none) headerSpec [] doc imp ∧
      imp.call RapidJson.plain .insertion [] (.headers (lit "GET") (lit "/a") []) = .ok c ∧
      d ∈ declarations doc ∧ d.part.kind.code = .INVALID_HEADER_PARAM ∧
      errHeaderOf .INVALID_HEADER_PARAM ++ lit "\"specRef\":\"" ++ d.ref ++ lit "\"," <+: c.errorMsg := by
  have hrun : trial headerSpec (fun _ imp =>
      codeOf (imp.call RapidJson.plain .insertion [] (.headers (lit "GET") (lit "/a") []))) =
        some (.ok (.ok .INVALID_HEADER_PARAM)) := by
    decide +kernel
  obtain ⟨doc, imp, hdoc, hcode⟩ := trial_spec hrun
  cases hcall : imp.call RapidJson.plain .insertion [] (.headers (lit "GET") (lit "/a") []) with
  | error fault => simp [hcall, codeOf, Except.map] at hcode
  | ok c =>
    replace hcode : c.code = .INVALID_HEADER_PARAM := by simpa [hcall, codeOf, Except.map] using hcode
    obtain ⟨hmethod, -⟩ | ⟨hroute, -⟩ | ⟨-, -, -, d, -, -, -, hd, -, hkind, -, -, htext, -⟩ :=
      failure_blames hdoc plain_resetRestores hcall (by simp [hcode])
    · simp [hcode] at hmethod
    · simp [hcode] at hroute
    · exact ⟨doc, imp, c, d, hdoc, hcall, hd, hkind.symm.trans hcode, hcode ▸ htext⟩

end OasValidator
