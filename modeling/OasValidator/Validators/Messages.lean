import OasValidator.Validators.Store

/-! What a check does with the text it finds in `error_msg`.  A failing check assigns it, so neither
its code nor its text nor the state it leaves depends on what was there. -/

namespace OasValidator

namespace Checked

variable {τ υ : Type}

/-- The verdict, and what the check leaves. -/
def outcome (c : Checked τ) : (ValidationError × Option Bytes) × τ := (c.verdict, c.after)

/-- Two runs with the same codes, the same texts of errors and the same state behind them. -/
def Same (r r' : Except Fault (Checked τ)) : Prop := r.map outcome = r'.map outcome

theorem Same.refl (r : Except Fault (Checked τ)) : Same r r := rfl

theorem Same.trans {r r' r'' : Except Fault (Checked τ)} (h : Same r r') (h' : Same r' r'') :
    Same r r'' :=
  Eq.trans h h'

theorem same_none (m m' : Bytes) (a : τ) :
    Same (.ok ⟨.NONE, m, a⟩) (.ok ⟨.NONE, m', a⟩) := rfl

/-- Two such runs both end in the same fault, or both return with the same outcome. -/
theorem same_iff {r r' : Except Fault (Checked τ)} :
    Same r r' ↔ (∃ x, r = .error x ∧ r' = .error x) ∨
      ∃ c c', r = .ok c ∧ r' = .ok c' ∧ c.outcome = c'.outcome := by
  unfold Same
  cases r with
  | error x => cases r' <;> simp [Except.map, eq_comm]
  | ok c => cases r' <;> simp [Except.map]

theorem outcome_eq_iff {c c' : Checked τ} :
    c.outcome = c'.outcome ↔
      c.code = c'.code ∧ (c.code ≠ .NONE → c.errorMsg = c'.errorMsg) ∧ c.after = c'.after := by
  obtain ⟨code, m, a⟩ := c
  obtain ⟨code', m', a'⟩ := c'
  simp only [outcome, verdict, Prod.mk.injEq]
  constructor
  · rintro ⟨⟨rfl, h⟩, rfl⟩
    refine ⟨rfl, fun hne => ?_, rfl⟩
    simpa [hne] using h
  · rintro ⟨rfl, h, rfl⟩
    refine ⟨⟨rfl, ?_⟩, rfl⟩
    by_cases hc : code = .NONE
    · simp [hc]
    · simp [hc, h hc]

/-- A step behind a run that keeps outcomes apart in the same way keeps them the same. -/
theorem Same.bind {r r' : Except Fault (Checked τ)} (h : Same r r')
    {f f' : Checked τ → Except Fault (Checked υ)}
    (hf : ∀ c c', c.outcome = c'.outcome → Same (f c) (f' c')) : Same (r >>= f) (r' >>= f') := by
  rcases same_iff.mp h with ⟨x, rfl, rfl⟩ | ⟨c, c', rfl, rfl, hc⟩
  · exact Same.refl _
  · exact hf c c' hc

theorem Same.map {r r' : Except Fault (Checked τ)} (h : Same r r') (f : τ → υ) :
    Same (r >>= fun c => pure (c.map f)) (r' >>= fun c => pure (c.map f)) := by
  apply h.bind
  intro c c' hc
  obtain ⟨hcode, hmsg, hafter⟩ := outcome_eq_iff.mp hc
  exact same_iff.mpr (Or.inr ⟨_, _, rfl, rfl, outcome_eq_iff.mpr
    ⟨hcode, hmsg, congrArg f hafter⟩⟩)

/-- A failure is handed on, and a success goes on with the next step. -/
theorem Same.next {r r' : Except Fault (Checked τ)} (h : Same r r')
    {f : τ → Bytes → Except Fault (Checked υ)} {g : τ → υ}
    (hf : ∀ a, ∀ m m', Same (f a m) (f a m')) :
    Same (r >>= fun c => if c.code = .NONE then f c.after c.errorMsg
        else pure ⟨c.code, c.errorMsg, g c.after⟩)
      (r' >>= fun c => if c.code = .NONE then f c.after c.errorMsg
        else pure ⟨c.code, c.errorMsg, g c.after⟩) := by
  apply h.bind
  intro c c' hc
  obtain ⟨hcode, hmsg, hafter⟩ := outcome_eq_iff.mp hc
  rw [← hcode, ← hafter]
  split
  · exact hf _ _ _
  · rename_i hne
    rw [hmsg hne]
    exact Same.refl _

/-- Whatever text it starts with, the check has the same outcome. -/
def Assigns (f : Bytes → Except Fault (Checked τ)) : Prop := ∀ m m', Same (f m) (f m')

theorem andThen_assigns {f : Bytes → Except Fault (Checked τ)}
    {g : τ → Bytes → Except Fault (Checked τ)} (hf : Assigns f) (hg : ∀ a, Assigns (g a)) :
    Assigns fun m => andThen (f m) g :=
  fun m m' => (hf m m').next (g := id) hg

end Checked

open Checked

variable {σ : Type} (rj : RapidJson σ)

namespace JsonValidator

theorem validate_assigns (v : JsonValidator σ) (jsonStr : Bytes) :
    Assigns (v.validate rj jsonStr) := by
  intro m m'
  unfold validate
  split
  · exact Same.refl _
  · simp only
    split
    · exact same_none _ _ _
    · exact Same.refl _

end JsonValidator

theorem ParamValidator.validateParam_assigns (v : ParamValidator σ) (buf : Nat → UInt8)
    (beg end_ : Nat) : Assigns (v.validateParam rj buf beg end_) := by
  intro m m'
  unfold validateParam
  split
  · exact (v.toJsonValidator.validate_assigns rj _ m m').map _
  · exact Same.refl _
  · exact Same.refl _

theorem QueryParamValidator.validateParam_assigns (v : QueryParamValidator σ) (buf : Nat → UInt8)
    (beg end_ : Nat) : Assigns (v.validateParam rj buf beg end_) := fun m m' =>
  (v.toParamValidator.validateParam_assigns rj buf beg end_ m m').map _

namespace ValidatorsStore

theorem validateBody_assigns (store : ValidatorsStore σ) (jsonBody : Bytes) :
    Assigns (store.validateBody rj jsonBody) := by
  intro m m'
  unfold validateBody
  split
  · exact same_none _ _ _
  · rename_i v _
    exact (v.validate_assigns rj jsonBody m m').map _

theorem checkPathParams_assigns (buf : Nat → UInt8) (paramIdxs : ParamIdxs)
    (infos : List (PathParamValidatorInfo σ)) : Assigns (checkPathParams rj buf paramIdxs infos) := by
  induction infos with
  | nil => exact fun m m' => same_none _ _ _
  | cons info rest ih =>
    intro m m'
    unfold checkPathParams
    cases paramIdxs.lookup info.idx with
    | none => exact Same.refl _
    | some range =>
      simp only
      refine (info.validator.validateParam_assigns rj buf range.beg range.end_ m m').next
        (f := fun w m => checkPathParams rj buf paramIdxs rest m >>= fun cs =>
          pure (cs.map (PathParamValidatorInfo.mk info.idx w :: ·)))
        (g := fun w => PathParamValidatorInfo.mk info.idx w :: rest) fun w m m' => ?_
      exact (ih m m').map _

theorem validatePathParams_assigns (store : ValidatorsStore σ) (buf : Nat → UInt8)
    (paramIdxs : ParamIdxs) : Assigns (store.validatePathParams rj buf paramIdxs) := fun m m' =>
  (checkPathParams_assigns rj buf paramIdxs store.pathParamValidators m m').map _

theorem checkQueryParams_assigns (query : Bytes) (starts : List Nat) (startMap : List (Bytes × Nat))
    (infos : List (QueryParamValidatorInfo σ)) :
    Assigns (checkQueryParams rj query starts startMap infos) := by
  induction infos with
  | nil => exact fun m m' => same_none _ _ _
  | cons info rest ih =>
    intro m m'
    unfold checkQueryParams
    cases startMap.lookup info.name with
    | none =>
      simp only
      split
      · exact Same.refl _
      · exact (ih m m').map _
    | some start =>
      simp only
      cases nextStart starts start with
      | error x => exact Same.refl _
      | ok next =>
        refine (info.validator.validateParam_assigns rj (dataOf query) start (next - 1) m m').next
          (f := fun w m => checkQueryParams rj query starts startMap rest m >>= fun cs =>
            pure (cs.map ({ info with validator := w } :: ·)))
          (g := fun w => { info with validator := w } :: rest) fun w m m' => ?_
        exact (ih m m').map _

theorem validateQueryParams_assigns (store : ValidatorsStore σ) (query : Bytes) :
    Assigns (store.validateQueryParams rj query) := by
  intro m m'
  unfold validateQueryParams
  cases locate query store.queryParamValidators [] [] with
  | error x => exact Same.refl _
  | ok located =>
    cases located with
    | error e => exact Same.refl _
    | ok p => exact (checkQueryParams_assigns rj query _ p.2 store.queryParamValidators m m').map _

theorem checkHeaderParams_assigns (headers : List (Bytes × Bytes)) (names : List Bytes)
    (validators : List (Bytes × ParamValidator σ)) :
    Assigns (checkHeaderParams rj headers names validators) := by
  induction names generalizing validators with
  | nil => exact fun m m' => same_none _ _ _
  | cons name rest ih =>
    intro m m'
    unfold checkHeaderParams
    cases validators.lookup name with
    | none => exact Same.refl _
    | some validator =>
      cases headers.lookup name with
      | none =>
        simp only
        split
        · exact Same.refl _
        · exact ih validators m m'
      | some param =>
        exact (validator.validateParam_assigns rj (dataOf param) 0 param.length m m').next
          (f := fun w m => checkHeaderParams rj headers rest (Library.Table.put name w validators) m)
          (g := fun w => Library.Table.put name w validators) fun w m m' => ih _ m m'

theorem validateHeaderParams_assigns (order : Hashing) (store : ValidatorsStore σ)
    (headers : List (Bytes × Bytes)) : Assigns (store.validateHeaderParams rj order headers) :=
  fun m m' => (checkHeaderParams_assigns rj headers _ store.headerParamValidators m m').map _

end ValidatorsStore

end OasValidator
