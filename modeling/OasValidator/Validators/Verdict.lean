import OasValidator.Deserializer.Locality
import OasValidator.Validators.Messages
import OasValidator.Validators.Query

/-! The verdict on a query.  The check of the query parameters passes when each present parameter is
accepted in its range, and for an unambiguous query this is when each is accepted as a pair that stands
alone. -/

namespace OasValidator

open Library.Table Library.Scanning ValidatorsStore

variable {σ : Type}

/-- The check returns `NONE`. -/
def Passes {τ : Type} (r : Except Fault (Checked τ)) : Prop := ∃ c, r = .ok c ∧ c.code = .NONE

section

variable {τ υ : Type} {r r' : Except Fault (Checked τ)}

theorem Checked.Same.passes_iff (h : Checked.Same r r') : Passes r ↔ Passes r' := by
  rcases Checked.same_iff.mp h with ⟨x, rfl, rfl⟩ | ⟨c, c', rfl, rfl, hc⟩
  · rfl
  · simp [Passes, (Checked.outcome_eq_iff.mp hc).1]

theorem passes_map_iff {f : τ → υ} : Passes (r >>= fun c => pure (c.map f)) ↔ Passes r := by
  cases r with
  | error x => simp [Passes, Bind.bind, Except.bind]
  | ok c => simp [Passes, Bind.bind, Except.bind, Checked.map, pure, Except.pure]

/-- A text passes when what stands in front of its first NUL is a document that is accepted. -/
theorem validate_passes_iff {rj : RapidJson σ} {v : JsonValidator σ} (hcode : v.codeOnError ≠ .NONE)
    (t m : Bytes) :
    Passes (v.validate rj t m) ↔
      ∃ doc, rj.parse (cstr t) = .ok doc ∧ (rj.accept v.validator doc).1 = true := by
  unfold JsonValidator.validate
  cases hparse : rj.parse (cstr t) with
  | error e => simp [Passes, hcode]
  | ok doc =>
    simp only [Except.ok.injEq, exists_eq_left']
    split
    · rename_i haccept
      exact iff_of_true ⟨_, rfl, rfl⟩ haccept
    · rename_i haccept
      refine iff_of_false ?_ haccept
      rintro ⟨c, hc, hnone⟩
      obtain ⟨errorMsg, -, hc⟩ := bind_eq_ok_iff.mp hc
      obtain rfl := Except.ok.inj hc
      exact hcode hnone

/-- A check and, behind a success, the next one pass when both do. -/
theorem passes_next_iff {f : τ → Bytes → Except Fault (Checked υ)} {g : τ → υ} :
    Passes (r >>= fun c => if c.code = .NONE then f c.after c.errorMsg
        else pure ⟨c.code, c.errorMsg, g c.after⟩) ↔
      ∃ c, r = .ok c ∧ c.code = .NONE ∧ Passes (f c.after c.errorMsg) := by
  cases r with
  | error x => simp [Passes, Bind.bind, Except.bind]
  | ok c =>
    by_cases hc : c.code = .NONE
    · simp [Bind.bind, Except.bind, hc]
    · simp [Passes, Bind.bind, Except.bind, hc, pure, Except.pure]

end

variable (rj : RapidJson σ)

/-- What no check changes in the validator of a query parameter. -/
def fixedParts (info : QueryParamValidatorInfo σ) : Bytes × ValidationError × Deserializer :=
  (info.name, info.validator.codeOnError, info.validator.deserializer)

/-- What the second loop asks of a parameter with this range. -/
def RangePasses (query : Bytes) (info : QueryParamValidatorInfo σ) :
    Option (Except Fault (Nat × Nat)) → Prop
  | none => info.validator.required = false
  | some (.error _) => False
  | some (.ok (start, end_)) => Passes (info.validator.validateParam rj (dataOf query) start end_ [])

/-- Under its own spelling a declared header is absent and optional, or present and accepted. -/
def HeaderCleared (headers : List (Bytes × Bytes)) (name : Bytes) (v : ParamValidator σ) : Prop :=
  match headers.lookup name with
  | none => v.required = false
  | some param => Passes (v.validateParam rj (dataOf param) 0 param.length [])

def HeadersCleared (store : ValidatorsStore σ) (headers : List (Bytes × Bytes)) : Prop :=
  ∀ name v, store.headerParamValidators.lookup name = some v → HeaderCleared rj headers name v

/-- The validators report errors of query parameters. -/
def QueryCodes (infos : List (QueryParamValidatorInfo σ)) : Prop :=
  ∀ info ∈ infos, info.validator.codeOnError = .INVALID_QUERY_PARAM

theorem QueryCodes.ne_none {infos : List (QueryParamValidatorInfo σ)} (h : QueryCodes infos) :
    ∀ info ∈ infos, info.validator.codeOnError ≠ .NONE := by
  intro info hinfo
  rw [h info hinfo]
  simp

section

variable {query : Bytes} {infos : List (QueryParamValidatorInfo σ)} {starts : List Nat}
  {startMap : List (Bytes × Nat)}

theorem checkQueryParams_passes_iff (hcode : QueryCodes infos) (m : Bytes) :
    Passes (checkQueryParams rj query starts startMap infos m) ↔
      ∀ info ∈ infos, RangePasses rj query info ((startMap.lookup info.name).map fun start =>
        (nextStart starts start).map fun next => (start, next - 1)) := by
  induction infos generalizing m with
  | nil => simp [checkQueryParams, Passes]
  | cons info rest ih =>
    have ih := ih fun i hi => hcode i (List.mem_cons_of_mem _ hi)
    rw [List.forall_mem_cons]
    cases hlookup : startMap.lookup info.name with
    | none =>
      simp only [checkQueryParams, hlookup, Option.map_none, RangePasses]
      by_cases hreq : info.validator.required
      · simp [hreq, Passes, hcode info List.mem_cons_self]
      · simp only [hreq, Bool.false_eq_true, if_false, true_and]
        exact passes_map_iff.trans (ih m)
    | some start =>
      simp only [checkQueryParams, hlookup, Option.map_some]
      cases hnext : nextStart starts start with
      | error x => simp [Passes, Bind.bind, Except.bind, Except.map, RangePasses]
      | ok next =>
        have hsame := info.validator.validateParam_assigns rj (dataOf query) start (next - 1) m []
        simp only [Except.map, RangePasses]
        rw [← hsame.passes_iff]
        refine (passes_next_iff
          (f := fun w m => checkQueryParams rj query starts startMap rest m >>= fun cs =>
            pure (cs.map ({ info with validator := w } :: ·)))
          (g := fun w => { info with validator := w } :: rest)).trans ?_
        simp only [passes_map_iff, ih]
        exact ⟨fun ⟨c, hc, hnone, hrest⟩ => ⟨⟨c, hc, hnone⟩, hrest⟩,
          fun ⟨⟨c, hc, hnone⟩, hrest⟩ => ⟨c, hc, hnone, hrest⟩⟩

theorem locate_error (hcode : QueryCodes infos) {code : ValidationError} {msg : Bytes}
    (h : locate query infos starts startMap = .ok (.error (code, msg))) :
    code = .INVALID_QUERY_PARAM := by
  induction infos generalizing starts startMap with
  | nil => simp [locate] at h
  | cons info rest ih =>
    have hcode' : QueryCodes rest := fun i hi => hcode i (List.mem_cons_of_mem _ hi)
    unfold locate at h
    split at h
    · split at h
      · obtain ⟨rfl, -⟩ : info.validator.codeOnError = code ∧ _ := by simpa using h
        exact hcode info List.mem_cons_self
      · exact ih hcode' h
    · simp at h
    · split at h
      · obtain ⟨rfl, -⟩ : ValidationError.INVALID_QUERY_PARAM = code ∧ _ := by simpa using h
        rfl
      · exact ih hcode' h

/-- The first loop locates the parameters when no required one is missing and every other one stands
behind `?` or `&`. -/
theorem exists_locate (hreq : ∀ info ∈ infos, find info.name query = none →
      info.validator.required = false)
    (hbefore : ∀ info ∈ infos, ∀ s, find info.name query = some s → ∃ i, s = i + 1 ∧
      (dataOf query i = question ∨ dataOf query i = ampersand)) :
    ∃ starts' startMap', locate query infos starts startMap = .ok (.ok (starts', startMap')) := by
  induction infos generalizing starts startMap with
  | nil => exact ⟨starts, startMap, rfl⟩
  | cons info rest ih =>
    have ih : ∀ starts startMap, ∃ starts' startMap',
        locate query rest starts startMap = .ok (.ok (starts', startMap')) := fun _ _ =>
      ih (fun i hi => hreq i (List.mem_cons_of_mem _ hi))
        fun i hi => hbefore i (List.mem_cons_of_mem _ hi)
    cases hfind : find info.name query with
    | none =>
      have hrun : locate query (info :: rest) starts startMap = locate query rest starts startMap := by
        simp [locate, hfind, hreq info List.mem_cons_self hfind]
      rw [hrun]
      exact ih starts startMap
    | some s =>
      obtain ⟨i, rfl, hbyte⟩ := hbefore info List.mem_cons_self s hfind
      have hrun : locate query (info :: rest) starts startMap =
          locate query rest ((i + 1) :: starts) (emplace info.name (i + 1) startMap) := by
        simp only [locate, hfind]
        exact if_neg (by tauto)
      rw [hrun]
      exact ih _ _

end

/-- The check returns `NONE` when the first loop locates the parameters and the second one accepts
all ranges. -/
theorem validateQueryParams_passes_iff {store : ValidatorsStore σ}
    (hcode : QueryCodes store.queryParamValidators) (query m : Bytes) :
    Passes (store.validateQueryParams rj query m) ↔
      (∃ starts startMap,
        locate query store.queryParamValidators [] [] = .ok (.ok (starts, startMap))) ∧
      ∀ info ∈ store.queryParamValidators,
        RangePasses rj query info (cutRange store.queryParamValidators query info.name) := by
  unfold validateQueryParams
  cases hlocate : locate query store.queryParamValidators [] [] with
  | error x => simp [Passes, Bind.bind, Except.bind]
  | ok located =>
    cases located with
    | error e =>
      obtain ⟨code, msg⟩ := e
      have := locate_error hcode hlocate
      simp [Passes, Bind.bind, Except.bind, pure, Except.pure, this]
    | ok p =>
      obtain ⟨starts, startMap⟩ := p
      have hranges : ∀ info ∈ store.queryParamValidators, _ := fun info hinfo =>
        congrArg (RangePasses rj query info) (locate_cutRange hlocate hinfo)
      refine (passes_map_iff.trans (checkQueryParams_passes_iff rj hcode m)).trans ?_
      rw [forall₂_congr fun info hinfo => iff_of_eq (hranges info hinfo)]
      simp

/-! ### A pair that stands alone -/

/-- The name and `=` come once, in front of the data. -/
structure SinglePair (d : Deserializer) : Prop where
  start : d.toBase.start = 0
  skipName : d.toBase.skipName = true
  array : ∀ a, d = .array a → a.hasRunningName = false
  object : ∀ o, d = .object o → o.isDeepObj = false ∧ o.vkSeparator = comma

/-- A pair in a query is deserialized as the pair alone is. -/
theorem deserialize_alone {d : Deserializer} (h : SinglePair d) {pairs : List Bytes} {k : Nat}
    {p : Bytes} (hk : pairs[k]? = some p) :
    (d.deserialize (dataOf (queryOf pairs)) (pairStart pairs k) (pairStart pairs k + p.length)).1 =
      (d.deserialize (dataOf p) 0 p.length).1 := by
  obtain ⟨hslice, hbehind⟩ := slice_pair hk
  have hquery := @scan_result (dataOf (queryOf pairs)) (pairStart pairs k + p.length)
    ⟨pairStart pairs k, 0⟩ d (Nat.le_add_right _ _) (Nat.zero_le _)
    (Or.inl h.start) (by
      intro o ho
      rw [(h.object o ho).2]
      rcases hbehind with hb | hb <;> rw [hb] <;> decide)
  have hpair := @scan_result (dataOf p) p.length ⟨0, 0⟩ d (Nat.zero_le _) (Nat.zero_le _)
    (Or.inl h.start) (by
      intro o ho
      have hend : dataOf p p.length = 0 := by simp [dataOf]
      rw [(h.object o ho).2, hend]
      decide)
  rw [Deserializer.deserialize, hquery, hslice, Deserializer.deserialize, hpair, slice_whole]

theorem validateParam_alone {v : QueryParamValidator σ} (h : SinglePair v.deserializer)
    {pairs : List Bytes} {k : Nat} {p : Bytes} (hk : pairs[k]? = some p) (m : Bytes) :
    v.validateParam rj (dataOf (queryOf pairs)) (pairStart pairs k)
        (pairStart pairs k + p.length) m =
      v.validateParam rj (dataOf p) 0 p.length m := by
  rw [QueryParamValidator.validateParam, QueryParamValidator.validateParam,
    ParamValidator.validateParam, ParamValidator.validateParam, deserialize_alone h hk]

/-- The ranges are the pairs, and the check passes when the required parameters are present and every
present one is accepted as a pair that stands alone. -/
structure CutExactly (store : ValidatorsStore σ) (pairs : List Bytes) : Prop
    extends RangesExact store.queryParamValidators pairs where
  verdict : ∀ m, Passes (store.validateQueryParams rj (queryOf pairs) m) ↔
    (∀ info ∈ store.queryParamValidators, info.validator.required = true →
      ∃ p ∈ pairs, Heads info.name p) ∧
    ∀ info ∈ store.queryParamValidators, ∀ p ∈ pairs, Heads info.name p →
      Passes (info.validator.validateParam rj (dataOf p) 0 p.length [])

/-- Query parameters are cut out exactly when no declared name occurs elsewhere in the query than at
the pair that it heads, and no pair that no declared name heads follows one that is headed. -/
theorem cutExactly_iff (store : ValidatorsStore σ) (pairs : List Bytes)
    (hcode : QueryCodes store.queryParamValidators)
    (hpair : ∀ info ∈ store.queryParamValidators, SinglePair info.validator.deserializer) :
    CutExactly rj store pairs ↔
      Unambiguous (store.queryParamValidators.map (·.name)) pairs := by
  constructor
  · exact fun h => rangesExact_iff.mp h.toRangesExact
  intro h
  have hexact := rangesExact_iff.mpr h
  refine ⟨hexact, fun m => ?_⟩
  have hpresent : ∀ info ∈ store.queryParamValidators, ∀ p ∈ pairs, Heads info.name p →
      (RangePasses rj (queryOf pairs) info
          (cutRange store.queryParamValidators (queryOf pairs) info.name) ↔
        Passes (info.validator.validateParam rj (dataOf p) 0 p.length [])) := by
    intro info hinfo p hmem hp
    obtain ⟨k, hk⟩ := List.mem_iff_getElem?.mp hmem
    rw [hexact.range info hinfo k p hk hp, RangePasses,
      validateParam_alone rj (hpair info hinfo) hk]
  rw [validateQueryParams_passes_iff rj hcode]
  constructor
  · rintro ⟨-, hranges⟩
    refine ⟨fun info hinfo hreq => ?_, fun info hinfo p hmem hp => ?_⟩
    · by_contra hnone
      have hmissing := (hexact.missing info hinfo).mpr (by simpa using hnone)
      have := hranges info hinfo
      rw [hmissing, RangePasses, hreq] at this
      simp at this
    · exact (hpresent info hinfo p hmem hp).mp (hranges info hinfo)
  · rintro ⟨hreq, haccept⟩
    have hoptional : ∀ info ∈ store.queryParamValidators,
        cutRange store.queryParamValidators (queryOf pairs) info.name = none →
          info.validator.required = false := by
      intro info hinfo hnone
      have hheads := (hexact.missing info hinfo).mp hnone
      by_contra hcontra
      obtain ⟨p, hmem, hp⟩ := hreq info hinfo (by simpa using hcontra)
      exact hheads p hmem hp
    constructor
    · apply exists_locate
      · exact fun info hinfo hfind => hoptional info hinfo (cutRange_eq_none_iff.mpr hfind)
      · intro info hinfo s hfind
        obtain ⟨k, p, hk, -, rfl⟩ := h.heads_of_find (List.mem_map_of_mem hinfo) hfind
        exact ⟨_, rfl, before_pairStart (List.getElem?_eq_some_iff.mp hk).1⟩
    · intro info hinfo
      by_cases hheads : ∃ p ∈ pairs, Heads info.name p
      · obtain ⟨p, hmem, hp⟩ := hheads
        exact (hpresent info hinfo p hmem hp).mpr (haccept info hinfo p hmem hp)
      · have hmissing := (hexact.missing info hinfo).mpr (by simpa using hheads)
        rw [hmissing]
        exact hoptional info hinfo hmissing

/-- An operation with one query parameter, an integer. -/
def sizeParams : Json :=
  .array [.object [(lit "name", .string (lit "size")), (lit "in", .string (lit "query")),
    (lit "schema", .object [(lit "type", .string (lit "integer"))])]]

theorem sizeParams_store : ∃ store : ValidatorsStore Json,
    addParamValidators RapidJson.plain [] sizeParams [] {} = .ok store ∧
      store.queryParamValidators.map fixedParts =
        [(lit "size", .INVALID_QUERY_PARAM, .primitive ⟨⟨lit "size", 0, true⟩, .INTEGER⟩)] := by
  have hrun : (addParamValidators RapidJson.plain [] sizeParams [] {}).map
      (fun store => store.queryParamValidators.map fixedParts) =
      .ok [(lit "size", .INVALID_QUERY_PARAM, .primitive ⟨⟨lit "size", 0, true⟩, .INTEGER⟩)] := by
    decide +kernel
  exact map_eq_ok_iff.mp hrun

theorem names_of_fixedParts {infos : List (QueryParamValidatorInfo σ)} :
    infos.map (·.name) = (infos.map fixedParts).map Prod.fst := by
  simp [fixedParts]

theorem sizeParams_only {store : ValidatorsStore Json}
    (h : store.queryParamValidators.map fixedParts =
      [(lit "size", .INVALID_QUERY_PARAM, .primitive ⟨⟨lit "size", 0, true⟩, .INTEGER⟩)]) :
    QueryCodes store.queryParamValidators ∧
      ∀ info ∈ store.queryParamValidators, SinglePair info.validator.deserializer := by
  have hmem : ∀ info ∈ store.queryParamValidators, fixedParts info =
      (lit "size", .INVALID_QUERY_PARAM, .primitive ⟨⟨lit "size", 0, true⟩, .INTEGER⟩) := by
    intro info hinfo
    have := List.mem_map_of_mem (f := fixedParts) hinfo
    rwa [h, List.mem_singleton] at this
  constructor
  · intro info hinfo
    exact congrArg (·.2.1) (hmem info hinfo)
  · intro info hinfo
    have hdes : info.validator.deserializer = _ := congrArg (·.2.2) (hmem info hinfo)
    rw [hdes]
    exact ⟨rfl, rfl, fun _ ha => by simp at ha, fun _ ho => by simp at ho⟩

theorem not_heads {name p : Bytes} (h : ¬name <+: p) : ¬Heads name p := by
  rintro ⟨value, rfl⟩
  exact h (List.prefix_append _ _)

/-- An undeclared pair in front of a declared one does no harm. -/
theorem cutExactly_size : ∃ store : ValidatorsStore Json,
    addParamValidators RapidJson.plain [] sizeParams [] {} = .ok store ∧
      CutExactly RapidJson.plain store [lit "sort=1", lit "size=2"] := by
  obtain ⟨store, hstore, hparts⟩ := sizeParams_store
  obtain ⟨hcode, hpair⟩ := sizeParams_only hparts
  refine ⟨store, hstore, (cutExactly_iff RapidJson.plain store _ hcode hpair).mpr ?_⟩
  rw [names_of_fixedParts, hparts]
  have hsort : ¬Heads (lit "size") (lit "sort=1") := not_heads (by decide)
  refine ⟨fun name hname hnone => ?_, fun name hname k p hk hp => ?_,
    fun name hname k p q hk hp hq => ?_⟩
  · obtain rfl := List.mem_singleton.mp hname
    exact absurd ⟨lit "2", by decide⟩ (hnone (lit "size=2") (by simp))
  · obtain rfl := List.mem_singleton.mp hname
    rcases k with _ | _ | k
    · exact absurd (Option.some.inj hk ▸ hp) hsort
    · decide +kernel
    · simp at hk
  · obtain rfl := List.mem_singleton.mp hname
    rcases k with _ | _ | k
    · exact absurd (Option.some.inj hk ▸ hp) hsort
    · simp at hq
    · simp at hq

/-- An undeclared pair behind a declared one becomes part of its range. -/
theorem undeclared_pair_cut : ¬∀ (path : Bytes) (params : Json) (refKeys : List Bytes)
    (store : ValidatorsStore Json) (pairs : List Bytes),
    addParamValidators RapidJson.plain path params refKeys {} = .ok store →
    (store.queryParamValidators.map (·.name)).Nodup →
    (∀ info ∈ store.queryParamValidators, SinglePair info.validator.deserializer) →
    (∀ p ∈ pairs, ampersand ∉ p) →
    (∀ info ∈ store.queryParamValidators, ∀ (j k : Nat) (p q : Bytes), pairs[j]? = some p →
      pairs[k]? = some q → Heads info.name p → Heads info.name q → j = k) →
    CutExactly RapidJson.plain store pairs := by
  intro hclaim
  obtain ⟨store, hstore, hparts⟩ := sizeParams_store
  have hnames : store.queryParamValidators.map (·.name) = [lit "size"] := by
    rw [names_of_fixedParts, hparts]
    rfl
  have hsort : ¬Heads (lit "size") (lit "sort=2") := not_heads (by decide)
  have hexact := hclaim [] sizeParams [] store [lit "size=1", lit "sort=2"] hstore
    (by rw [hnames]; decide) (sizeParams_only hparts).2 (by decide) (by
      intro info hinfo j k p q hj hk hp hq
      have hname : info.name = lit "size" := by
        have := List.mem_map_of_mem (f := (·.name)) hinfo
        rwa [hnames, List.mem_singleton] at this
      rw [hname] at hp hq
      have hfirst : ∀ (i : Nat) (r : Bytes), [lit "size=1", lit "sort=2"][i]? = some r →
          Heads (lit "size") r → i = 0 := by
        intro i r hi hr
        rcases i with _ | _ | i
        · rfl
        · exact absurd (Option.some.inj hi ▸ hr) hsort
        · simp at hi
      rw [hfirst j p hj hp, hfirst k q hk hq])
  have hnext := (rangesExact_iff.mp hexact.toRangesExact).next
  rw [hnames] at hnext
  obtain ⟨name', hname', hheads⟩ := hnext (lit "size") (by simp) 0 (lit "size=1") (lit "sort=2") rfl
    ⟨lit "1", by decide⟩ rfl
  rw [List.mem_singleton.mp hname'] at hheads
  exact hsort hheads

/-! ### The validators of an operation -/

theorem getArrayDeserializer_spec {base : BaseDeserializer} {schema : Json} {style : ParamStyle}
    {explode : Bool} {refKeys : List Bytes} {a : ArrayDeserializer}
    (h : getArrayDeserializer base schema style explode refKeys = .ok a) :
    a.toBaseDeserializer = base ∧ a.hasRunningName = hasArrayRunningName style explode := by
  simp only [getArrayDeserializer, bind_eq_ok_iff] at h
  obtain ⟨hasItems, -, h⟩ := h
  split at h
  · obtain ⟨items, -, hasType, -, h⟩ := by simpa only [bind_eq_ok_iff] using h
    split at h
    · obtain ⟨_, -, itemsType, -, h⟩ := by simpa only [bind_eq_ok_iff] using h
      split at h
      · obtain rfl := Except.ok.inj h
        exact ⟨rfl, rfl⟩
      · simp [throw, throwThe, MonadExceptOf.throw] at h
    · simp [throw, throwThe, MonadExceptOf.throw] at h
  · simp [throw, throwThe, MonadExceptOf.throw] at h

/-- A parameter in the query that is a primitive or content, or does not explode, stands there as one
pair. -/
theorem getDeserializer_singlePair {paramVal : Json} {style0 styleName : Bytes} {style : ParamStyle}
    {explode0 explode : Bool} {refKeys : List Bytes} {d : Deserializer}
    (h : getDeserializer paramVal style0 explode0 refKeys = .ok d)
    (hin : paramVal.get (lit "in") >>= Json.getString = .ok (lit "query"))
    (hexplode : paramVal.optional (lit "explode") Json.getBool explode0 = .ok explode)
    (hname : paramVal.optional (lit "style") Json.getString style0 = .ok styleName)
    (hstyle : tableAt PARAM_STYLE_MAP styleName = .ok style)
    (hform : style = .FORM ∨ style = .SPACE_DELIM ∨ style = .PIPE_DELIM)
    (hpair : (∃ p, d = .primitive p) ∨ (∃ c, d = .content c) ∨ explode = false) : SinglePair d := by
  obtain ⟨inVal, hinVal, hinName⟩ := bind_eq_ok_iff.mp hin
  have hstart : getStartChar style = 0 := by
    rcases hform with rfl | rfl | rfl <;> rfl
  have hskip : ∀ type, ((type ≠ .ARRAY && type ≠ .OBJECT) || !explode) = true →
      hasNameAtStart (lit "query") style explode type = true := by
    intro type htype
    rcases hform with rfl | rfl | rfl <;> exact htype
  have hprimitive : ∀ type t, ((type ≠ .ARRAY && type ≠ .OBJECT) || !explode) = true →
      ∀ name, SinglePair (.primitive
        ⟨⟨name, getStartChar style, hasNameAtStart (lit "query") style explode type⟩, t⟩) :=
    fun type _ htype _ => ⟨hstart, hskip type htype, fun _ ha => by simp at ha,
      fun _ ho => by simp at ho⟩
  simp only [getDeserializer, hinVal, hinName, hexplode, hname, hstyle, bind_eq_ok_iff,
    Except.ok.injEq, exists_eq_left'] at h
  obtain ⟨_, -, paramName, -, hasType, -, h⟩ := h
  split at h
  · simp only [getTypedDeserializer, bind_eq_ok_iff] at h
    obtain ⟨schema, -, _, -, _, -, type, -, h⟩ := h
    cases type with
    | BOOLEAN => exact Except.ok.inj h ▸ hprimitive _ _ rfl _
    | INTEGER => exact Except.ok.inj h ▸ hprimitive _ _ rfl _
    | NUMBER => exact Except.ok.inj h ▸ hprimitive _ _ rfl _
    | STRING => exact Except.ok.inj h ▸ hprimitive _ _ rfl _
    | ARRAY =>
      obtain ⟨a, ha, h⟩ := bind_eq_ok_iff.mp h
      obtain rfl := Except.ok.inj h
      obtain rfl : explode = false := by simpa using hpair
      obtain ⟨hbase, hrunning⟩ := getArrayDeserializer_spec ha
      refine ⟨?_, ?_, ?_, fun _ ho => by simp at ho⟩
      · simpa [Deserializer.toBase, hbase] using hstart
      · simpa [Deserializer.toBase, hbase] using hskip .ARRAY rfl
      · intro a' ha'
        rw [← Deserializer.array.inj ha', hrunning]
        rfl
    | OBJECT =>
      obtain ⟨ktMap, -, h⟩ := bind_eq_ok_iff.mp h
      obtain rfl := Except.ok.inj h
      obtain rfl : explode = false := by simpa using hpair
      refine ⟨hstart, hskip .OBJECT rfl, fun _ ha => by simp at ha, ?_⟩
      intro o ho
      rw [← Deserializer.object.inj ho]
      rcases hform with rfl | rfl | rfl <;> exact ⟨rfl, rfl⟩
  · obtain ⟨hasContent, -, h⟩ := bind_eq_ok_iff.mp h
    split at h
    · obtain rfl := Except.ok.inj h
      exact ⟨hstart, rfl, fun _ ha => by simp at ha, fun _ ho => by simp at ho⟩
    · simp [throw, throwThe, MonadExceptOf.throw] at h

section

variable {idxs : List (Bytes × Nat)} {refKeys : List Bytes} {store store' : ValidatorsStore σ}

theorem addParam_queryCodes {paramVal : Json}
    (h : addParam rj idxs refKeys paramVal store = .ok store')
    (hcode : QueryCodes store.queryParamValidators) : QueryCodes store'.queryParamValidators := by
  obtain ⟨v, name, -, -, hadded⟩ := addParam_added h
  cases hadded with
  | path index built => exact hcode
  | query built =>
    intro info hinfo
    rcases List.mem_append.mp hinfo with hinfo | hinfo
    · exact hcode info hinfo
    · obtain rfl := List.mem_singleton.mp hinfo
      rfl
  | header built => exact hcode

theorem addParams_queryCodes {params : List Json}
    (h : addParams rj idxs refKeys params store = .ok store')
    (hcode : QueryCodes store.queryParamValidators) : QueryCodes store'.queryParamValidators := by
  induction params generalizing store with
  | nil =>
    obtain rfl := Except.ok.inj h
    exact hcode
  | cons paramVal rest ih =>
    obtain ⟨next, hnext, h⟩ := bind_eq_ok_iff.mp h
    exact ih h (addParam_queryCodes rj hnext hcode)

/-- The validators that the constructor gives to an operation. -/
theorem addParamValidators_queryCodes {path : Bytes} {params : Json}
    (h : addParamValidators rj path params refKeys store = .ok store')
    (hcode : QueryCodes store.queryParamValidators) : QueryCodes store'.queryParamValidators := by
  obtain ⟨items, -, h⟩ := bind_eq_ok_iff.mp h
  exact addParams_queryCodes rj h hcode

end

theorem validate_after {v : JsonValidator σ} {t m : Bytes} {c : Checked (JsonValidator σ)}
    (h : v.validate rj t m = .ok c) : c.after.codeOnError = v.codeOnError := by
  unfold JsonValidator.validate at h
  split at h
  · obtain rfl := Except.ok.inj h
    rfl
  · simp only at h
    split at h
    · obtain rfl := Except.ok.inj h
      rfl
    · obtain ⟨msg, -, h⟩ := bind_eq_ok_iff.mp h
      obtain rfl := Except.ok.inj h
      rfl

theorem validateParam_after {v : QueryParamValidator σ} {buf : Nat → UInt8} {beg end_ : Nat}
    {m : Bytes} {c : Checked (QueryParamValidator σ)}
    (h : v.validateParam rj buf beg end_ m = .ok c) :
    c.after.codeOnError = v.codeOnError ∧ c.after.deserializer = v.deserializer := by
  obtain ⟨c', hc', h⟩ := bind_eq_ok_iff.mp h
  obtain rfl := Except.ok.inj h
  unfold ParamValidator.validateParam at hc'
  split at hc'
  · obtain ⟨c'', hc'', h⟩ := bind_eq_ok_iff.mp hc'
    obtain rfl := Except.ok.inj h
    exact ⟨validate_after rj hc'', rfl⟩
  · obtain rfl := Except.ok.inj hc'
    exact ⟨rfl, rfl⟩
  · simp at hc'

theorem checkQueryParams_after {query : Bytes} {starts : List Nat} {startMap : List (Bytes × Nat)}
    {infos : List (QueryParamValidatorInfo σ)} {m : Bytes}
    {c : Checked (List (QueryParamValidatorInfo σ))}
    (h : checkQueryParams rj query starts startMap infos m = .ok c) :
    c.after.map fixedParts = infos.map fixedParts := by
  induction infos generalizing m c with
  | nil =>
    obtain rfl := Except.ok.inj h
    rfl
  | cons info rest ih =>
    unfold checkQueryParams at h
    split at h
    · split at h
      · obtain rfl := Except.ok.inj h
        rfl
      · obtain ⟨cs, hcs, h⟩ := bind_eq_ok_iff.mp h
        obtain rfl := Except.ok.inj h
        exact congrArg (fixedParts info :: ·) (ih hcs)
    · obtain ⟨next, -, h⟩ := bind_eq_ok_iff.mp h
      obtain ⟨c', hc', h⟩ := bind_eq_ok_iff.mp h
      obtain ⟨hcode, hdes⟩ := validateParam_after rj hc'
      have hinfo : fixedParts { info with validator := c'.after } = fixedParts info := by
        simp [fixedParts, hcode, hdes]
      simp only at h
      split at h
      · obtain ⟨cs, hcs, h⟩ := bind_eq_ok_iff.mp h
        obtain rfl := Except.ok.inj h
        simp only [Checked.map, List.map_cons, hinfo, ih hcs]
      · obtain rfl := Except.ok.inj h
        simp only [List.map_cons, hinfo]

/-- A check changes neither the names nor the codes nor the deserializers. -/
theorem validateQueryParams_after {store : ValidatorsStore σ} {query m : Bytes}
    {c : Checked (ValidatorsStore σ)} (h : store.validateQueryParams rj query m = .ok c) :
    c.after.queryParamValidators.map fixedParts = store.queryParamValidators.map fixedParts := by
  obtain ⟨located, -, h⟩ := bind_eq_ok_iff.mp h
  cases located with
  | error e =>
    obtain rfl := Except.ok.inj h
    rfl
  | ok p =>
    obtain ⟨c', hc', h⟩ := bind_eq_ok_iff.mp h
    obtain rfl := Except.ok.inj h
    exact checkQueryParams_after rj hc'

end OasValidator
