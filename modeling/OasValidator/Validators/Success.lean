import OasValidator.Validators.Reports

/-! Checks that find nothing wrong.  They leave the text in `error_msg` as it was. -/

namespace OasValidator

open Library.Table

namespace Checked

variable {τ υ : Type}

/-- A check that finds nothing wrong leaves the text as it was. -/
def LeavesText (m : Bytes) (r : Except Fault (Checked τ)) : Prop :=
  ∀ c, r = .ok c → c.code = .NONE → c.errorMsg = m

theorem LeavesText.ok (code : ValidationError) (m : Bytes) (x : τ) :
    LeavesText m (.ok ⟨code, m, x⟩) := by
  rintro _ ⟨⟩ -
  rfl

theorem LeavesText.error (m : Bytes) (e : Fault) :
    LeavesText m (.error e : Except Fault (Checked τ)) := by
  rintro _ ⟨⟩

theorem LeavesText.failed {code : ValidationError} (hcode : code ≠ .NONE) (m text : Bytes) (x : τ) :
    LeavesText m (.ok ⟨code, text, x⟩) := by
  rintro _ ⟨⟩ h
  exact absurd h hcode

theorem LeavesText.map {m : Bytes} {r : Except Fault (Checked τ)} (h : LeavesText m r) (f : τ → υ) :
    LeavesText m (r >>= fun c => pure (c.map f)) := by
  intro c hc hcode
  obtain ⟨d, hd, hc⟩ := bind_eq_ok_iff.mp hc
  obtain rfl := Except.ok.inj hc
  exact h d hd hcode

/-- A success goes on with the text that it left alone. -/
theorem LeavesText.next {m : Bytes} {r : Except Fault (Checked τ)} (h : LeavesText m r)
    {f : τ → Bytes → Except Fault (Checked υ)} {g : τ → υ}
    (hf : ∀ c, r = .ok c → LeavesText m (f c.after m)) :
    LeavesText m (r >>= fun c => if c.code = .NONE then f c.after c.errorMsg
        else pure ⟨c.code, c.errorMsg, g c.after⟩) := by
  intro c hc hcode
  obtain ⟨d, hd, hc⟩ := bind_eq_ok_iff.mp hc
  split at hc
  · rename_i hnone
    rw [h d hd hnone] at hc
    exact hf d hd c hc hcode
  · rename_i hne
    obtain rfl := Except.ok.inj hc
    exact absurd hcode hne

theorem LeavesText.andThen {m : Bytes} {r : Except Fault (Checked τ)} (h : LeavesText m r)
    {next : τ → Bytes → Except Fault (Checked τ)}
    (hnext : ∀ c, r = .ok c → LeavesText m (next c.after m)) :
    LeavesText m (andThen r next) :=
  h.next (g := id) hnext

end Checked

open Checked

section

variable {σ : Type} {rj : RapidJson σ}

theorem JsonValidator.validate_leaves {v : JsonValidator σ} (hv : v.codeOnError ≠ .NONE)
    (jsonStr errorMsg : Bytes) : LeavesText errorMsg (v.validate rj jsonStr errorMsg) := by
  unfold validate
  split
  · exact LeavesText.failed hv _ _ _
  · dsimp only
    split
    · exact LeavesText.ok _ _ _
    · intro c hc hcode
      obtain ⟨text, -, hc⟩ := bind_eq_ok_iff.mp hc
      obtain rfl := Except.ok.inj hc
      exact absurd hcode hv

theorem ParamValidator.validateParam_leaves {v : ParamValidator σ} (hv : v.codeOnError ≠ .NONE)
    (buf : Nat → UInt8) (beg end_ : Nat) (errorMsg : Bytes) :
    LeavesText errorMsg (v.validateParam rj buf beg end_ errorMsg) := by
  unfold validateParam
  split
  · exact (JsonValidator.validate_leaves hv _ errorMsg).map _
  · exact LeavesText.failed hv _ _ _
  · exact LeavesText.error _ _

namespace ValidatorsStore

variable {store : ValidatorsStore σ}

theorem validateBody_leaves (hstore : ∀ v ∈ store.bodyValidator, v.codeOnError ≠ .NONE)
    (jsonBody errorMsg : Bytes) : LeavesText errorMsg (store.validateBody rj jsonBody errorMsg) := by
  unfold validateBody
  split
  · exact LeavesText.ok _ _ _
  · rename_i v hv
    exact (JsonValidator.validate_leaves (hstore v hv) jsonBody errorMsg).map _

theorem checkPathParams_leaves (buf : Nat → UInt8) (paramIdxs : ParamIdxs)
    {infos : List (PathParamValidatorInfo σ)}
    (hinfos : ∀ info ∈ infos, info.validator.codeOnError ≠ .NONE) (errorMsg : Bytes) :
    LeavesText errorMsg (checkPathParams rj buf paramIdxs infos errorMsg) := by
  induction infos with
  | nil => exact LeavesText.ok _ _ _
  | cons info rest ih =>
    have hinfo := hinfos info List.mem_cons_self
    have ih := ih fun i hi => hinfos i (List.mem_cons_of_mem _ hi)
    unfold checkPathParams
    split
    · exact LeavesText.failed hinfo _ _ _
    · apply (ParamValidator.validateParam_leaves hinfo buf _ _ errorMsg).next
        (f := fun w errorMsg => checkPathParams rj buf paramIdxs rest errorMsg >>= fun cs =>
          pure (cs.map ({ info with validator := w } :: ·)))
        (g := fun w => { info with validator := w } :: rest)
      exact fun c _ => ih.map _

theorem validatePathParams_leaves
    (hstore : ∀ info ∈ store.pathParamValidators, info.validator.codeOnError ≠ .NONE)
    (buf : Nat → UInt8) (paramIdxs : ParamIdxs) (errorMsg : Bytes) :
    LeavesText errorMsg (store.validatePathParams rj buf paramIdxs errorMsg) :=
  (checkPathParams_leaves buf paramIdxs hstore errorMsg).map _

theorem locate_code {query : Bytes} {infos : List (QueryParamValidatorInfo σ)}
    (hinfos : ∀ info ∈ infos, info.validator.codeOnError ≠ .NONE) {starts : List Nat}
    {startMap : List (Bytes × Nat)} {code : ValidationError} {text : Bytes}
    (h : locate query infos starts startMap = .ok (.error (code, text))) : code ≠ .NONE := by
  induction infos generalizing starts startMap with
  | nil => simp [locate] at h
  | cons info rest ih =>
    have hinfo := hinfos info List.mem_cons_self
    have ih := @ih fun i hi => hinfos i (List.mem_cons_of_mem _ hi)
    unfold locate at h
    split at h
    · split at h
      · obtain ⟨rfl, -⟩ := Prod.mk.inj (Except.error.inj (Except.ok.inj h))
        exact hinfo
      · exact ih h
    · simp at h
    · split at h
      · obtain ⟨rfl, -⟩ := Prod.mk.inj (Except.error.inj (Except.ok.inj h))
        simp
      · exact ih h

theorem checkQueryParams_leaves (query : Bytes) (starts : List Nat) (startMap : List (Bytes × Nat))
    {infos : List (QueryParamValidatorInfo σ)}
    (hinfos : ∀ info ∈ infos, info.validator.codeOnError ≠ .NONE) (errorMsg : Bytes) :
    LeavesText errorMsg (checkQueryParams rj query starts startMap infos errorMsg) := by
  induction infos with
  | nil => exact LeavesText.ok _ _ _
  | cons info rest ih =>
    have hinfo := hinfos info List.mem_cons_self
    have ih := ih fun i hi => hinfos i (List.mem_cons_of_mem _ hi)
    unfold checkQueryParams
    split
    · split
      · exact LeavesText.failed hinfo _ _ _
      · exact ih.map _
    · rename_i start hstart
      cases nextStart starts start with
      | error x => exact LeavesText.error _ x
      | ok next =>
        have hcheck : LeavesText errorMsg (info.validator.validateParam rj (dataOf query) start
            (next - 1) errorMsg) :=
          (ParamValidator.validateParam_leaves hinfo _ _ _ errorMsg).map _
        apply hcheck.next
          (f := fun w errorMsg => checkQueryParams rj query starts startMap rest errorMsg >>=
            fun cs => pure (cs.map ({ info with validator := w } :: ·)))
          (g := fun w => { info with validator := w } :: rest)
        exact fun c _ => ih.map _

theorem validateQueryParams_leaves
    (hstore : ∀ info ∈ store.queryParamValidators, info.validator.codeOnError ≠ .NONE)
    (query errorMsg : Bytes) : LeavesText errorMsg (store.validateQueryParams rj query errorMsg) := by
  unfold validateQueryParams
  cases hlocate : locate query store.queryParamValidators [] [] with
  | error x => exact LeavesText.error _ x
  | ok located =>
    cases located with
    | error e => exact LeavesText.failed (locate_code hstore hlocate) _ _ _
    | ok p => exact (checkQueryParams_leaves query _ p.2 hstore errorMsg).map _

theorem checkHeaderParams_leaves (headers : List (Bytes × Bytes)) (names : List Bytes)
    {validators : List (Bytes × ParamValidator σ)}
    (hvalidators : ∀ name v, validators.lookup name = some v → v.codeOnError ≠ .NONE)
    (errorMsg : Bytes) :
    LeavesText errorMsg (checkHeaderParams rj headers names validators errorMsg) := by
  induction names generalizing validators with
  | nil => exact LeavesText.ok _ _ _
  | cons name rest ih =>
    unfold checkHeaderParams
    split
    · exact LeavesText.error _ _
    · rename_i v hv
      split
      · split
        · exact LeavesText.failed (hvalidators name v hv) _ _ _
        · exact ih hvalidators
      · apply (ParamValidator.validateParam_leaves (hvalidators name v hv) _ _ _ errorMsg).next
          (f := fun w errorMsg => checkHeaderParams rj headers rest (put name w validators)
            errorMsg)
          (g := fun w => put name w validators)
        intro c hc
        apply ih
        intro name' v' hv'
        rw [lookup_put] at hv'
        split at hv'
        · obtain rfl := Option.some.inj hv'
          obtain ⟨validator, hafter⟩ := ParamValidator.validateParam_parts hc
          rw [hafter]
          exact hvalidators name v hv
        · exact hvalidators name' v' hv'

theorem validateHeaderParams_leaves (order : Hashing)
    (hstore : ∀ p ∈ store.headerParamValidators, p.2.codeOnError ≠ .NONE)
    (headers : List (Bytes × Bytes)) (errorMsg : Bytes) :
    LeavesText errorMsg (store.validateHeaderParams rj order headers errorMsg) :=
  (checkHeaderParams_leaves headers _ (fun _ _ hv => hstore _ (mem_of_lookup hv)) errorMsg).map _

end ValidatorsStore

end

end OasValidator
