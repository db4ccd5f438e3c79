import OasValidator.Deserializer.Declared
import OasValidator.Validators.Slices
import OasValidator.Validators.Verdict

/-! Exploded objects in the query.  The members of such an object stand in the query without the name
of the parameter, and so its deserializer expects no name.  The parameter is still located by its
name: what is checked is the query from the first occurrence of the name on, and nothing where the
name does not occur. -/

namespace OasValidator

open Library.Cut Library.Scanning ValidatorsStore

variable {σ : Type} (rj : RapidJson σ)

/-- What `ValidateParam` says of a text that stands alone. -/
def Accepts (info : QueryParamValidatorInfo σ) (t : Bytes) : Prop :=
  Passes (info.validator.validateParam rj (dataOf t) 0 t.length [])

/-- A place behind `?` or `&`. -/
def Marked (query : Bytes) (s : Nat) : Prop :=
  ∃ i, s = i + 1 ∧ (dataOf query i = question ∨ dataOf query i = ampersand)

/-- The parameters that are found stand behind `?` or `&` and pass in their ranges, and the others are
optional. -/
def Cleared (infos : List (QueryParamValidatorInfo σ)) (query : Bytes) : Prop :=
  ∀ info ∈ infos, (∀ s, find info.name query = some s → Marked query s) ∧
    RangePasses rj query info (cutRange infos query info.name)

/-- The deserializer returns a text for the range, and the schema accepts it. -/
def TakesRange (info : QueryParamValidatorInfo σ) (query : Bytes) (start end_ : Nat) : Prop :=
  ∃ out, (info.validator.deserializer.deserialize (dataOf query) start end_).1 = .ok out ∧
    ∃ doc, rj.parse (cstr out) = .ok doc ∧ (rj.accept info.validator.validator doc).1 = true

/-- Why a query fails at a parameter: it is required and not found, it is found where no parameter may
start, or it is not accepted in its range. -/
inductive FailsAt (infos : List (QueryParamValidatorInfo σ)) (query : Bytes)
    (info : QueryParamValidatorInfo σ) : Prop
  | missing (hrequired : info.validator.required = true) (hfind : find info.name query = none)
  | misplaced (s : Nat) (hfind : find info.name query = some s) (hmark : ¬Marked query s)
  | refused (start end_ : Nat)
      (hrange : cutRange infos query info.name = some (.ok (start, end_)))
      (hrefused : ¬TakesRange rj info query start end_)

/-- The other parameters are optional and occur nowhere in the query. -/
def Idle (infos : List (QueryParamValidatorInfo σ)) (info : QueryParamValidatorInfo σ)
    (query : Bytes) : Prop :=
  ∀ other ∈ infos, other ≠ info → other.validator.required = false ∧ find other.name query = none

section

variable {query : Bytes} {infos : List (QueryParamValidatorInfo σ)}
  {info : QueryParamValidatorInfo σ}

theorem marked_of_locate {starts starts' : List Nat} {startMap startMap' : List (Bytes × Nat)}
    (h : locate query infos starts startMap = .ok (.ok (starts', startMap'))) :
    ∀ info ∈ infos, ∀ s, find info.name query = some s → Marked query s := by
  induction infos generalizing starts startMap with
  | nil => simp
  | cons info rest ih =>
    rw [List.forall_mem_cons]
    cases hfind : find info.name query with
    | none =>
      have hrest : locate query rest starts startMap = .ok (.ok (starts', startMap')) := by
        simp only [locate, hfind] at h
        split at h
        · simp at h
        · exact h
      exact ⟨by simp, ih hrest⟩
    | some s =>
      cases s with
      | zero => simp [locate, hfind] at h
      | succ i =>
        simp only [locate, hfind] at h
        split at h
        · simp at h
        · rename_i hbyte
          refine ⟨fun s hs => ?_, ih h⟩
          exact ⟨i, (Option.some.inj hs).symm, by tauto⟩

theorem validateQueryParams_passes_iff_cleared {store : ValidatorsStore σ}
    (hcode : QueryCodes store.queryParamValidators) (m : Bytes) :
    Passes (store.validateQueryParams rj query m) ↔ Cleared rj store.queryParamValidators query := by
  rw [validateQueryParams_passes_iff rj hcode]
  constructor
  · rintro ⟨⟨starts, startMap, hlocate⟩, hranges⟩ info hinfo
    exact ⟨marked_of_locate hlocate info hinfo, hranges info hinfo⟩
  · intro h
    refine ⟨exists_locate (fun info hinfo hfind => ?_) fun info hinfo s hs => ?_,
      fun info hinfo => (h info hinfo).2⟩
    · have hrange := (h info hinfo).2
      rwa [cutRange_eq_none_iff.mpr hfind] at hrange
    · exact (h info hinfo).1 s hs

/-- The range of a parameter that is found starts where it is found. -/
theorem exists_cutRange {s : Nat} (hfind : find info.name query = some s) :
    ∃ end_, s ≤ end_ ∧ cutRange infos query info.name = some (.ok (s, end_)) := by
  have hlast : query.length + 1 ∈ startsOf infos query := mem_startsOf.mpr (Or.inl rfl)
  obtain ⟨next, hnext⟩ := exists_nextStart hlast (Nat.lt_succ_of_le (find_le_length hfind))
  have hlt : s < next := (nextStart_eq_ok_iff.mp hnext).2.1
  exact ⟨next - 1, by omega, cutRange_eq_ok_iff.mpr ⟨hfind, by rwa [Nat.sub_add_cancel (by omega)]⟩⟩

/-- A check passes on a range if the deserializer returns a text that the schema accepts. -/
theorem validateParam_passes_iff {v : QueryParamValidator σ} (hcode : v.codeOnError ≠ .NONE)
    {buf : Nat → UInt8} {beg end_ : Nat} (m : Bytes) :
    Passes (v.validateParam rj buf beg end_ m) ↔
      ∃ out, (v.deserializer.deserialize buf beg end_).1 = .ok out ∧
        ∃ doc, rj.parse (cstr out) = .ok doc ∧ (rj.accept v.validator doc).1 = true := by
  rw [QueryParamValidator.validateParam, passes_map_iff, ParamValidator.validateParam]
  split
  · rename_i ret hret
    rw [passes_map_iff, validate_passes_iff hcode]
    simp [hret]
  · rename_i what hwhat
    simp [hwhat, Passes, hcode]
  · rename_i hwhat
    simp [hwhat, Passes]

/-- A query does not fail at a parameter that is found, marked and taken in its range, or optional. -/
theorem not_failsAt_iff :
    ¬FailsAt rj infos query info ↔
      (∀ s, find info.name query = some s → Marked query s ∧
        ∃ end_, cutRange infos query info.name = some (.ok (s, end_)) ∧
          TakesRange rj info query s end_) ∧
      (find info.name query = none → info.validator.required = false) := by
  constructor
  · refine fun h => ⟨fun s hfind => ⟨?_, ?_⟩, fun hfind => ?_⟩
    · by_contra hmark
      exact h (.misplaced s hfind hmark)
    · obtain ⟨end_, -, hrange⟩ := @exists_cutRange _ _ infos _ _ hfind
      refine ⟨end_, hrange, ?_⟩
      by_contra hrefused
      exact h (.refused s end_ hrange hrefused)
    · rw [← Bool.not_eq_true]
      exact fun hrequired => h (.missing hrequired hfind)
  · rintro ⟨hfound, hrest⟩ hfails
    cases hfails with
    | missing hrequired hfind => exact nomatch hrequired.symm.trans (hrest hfind)
    | misplaced s hfind hmark => exact hmark (hfound s hfind).1
    | refused start end_ hrange hrefused =>
      obtain ⟨-, end', hrange', htakes⟩ := hfound start (cutRange_eq_ok_iff.mp hrange).1
      obtain rfl := congrArg Prod.snd (Except.ok.inj (Option.some.inj (hrange'.symm.trans hrange)))
      exact hrefused htakes

/-- A parameter is cleared where the query does not fail at it. -/
theorem clearedAt_iff_not_failsAt (hcode : info.validator.codeOnError ≠ .NONE) :
    ((∀ s, find info.name query = some s → Marked query s) ∧
        RangePasses rj query info (cutRange infos query info.name)) ↔
      ¬FailsAt rj infos query info := by
  rw [not_failsAt_iff]
  cases hfind : find info.name query with
  | none => simp [cutRange_eq_none_iff.mpr hfind, RangePasses]
  | some s =>
    obtain ⟨end_, -, hrange⟩ := @exists_cutRange _ _ infos _ _ hfind
    simp [hrange, RangePasses, validateParam_passes_iff rj hcode, TakesRange]

/-- A query passes if it fails at no parameter. -/
theorem cleared_iff_not_failsAt (hcode : ∀ info ∈ infos, info.validator.codeOnError ≠ .NONE) :
    Cleared rj infos query ↔ ∀ info ∈ infos, ¬FailsAt rj infos query info :=
  forall₂_congr fun info hinfo => clearedAt_iff_not_failsAt rj (hcode info hinfo)

/-- With the other parameters idle, a range runs to the end of the query. -/
theorem Idle.cutRange_eq (h : Idle infos info query) {s : Nat}
    (hfind : find info.name query = some s) (hs : s ≤ query.length) :
    cutRange infos query info.name = some (.ok (s, query.length)) := by
  refine cutRange_eq_ok_iff.mpr ⟨hfind, nextStart_eq_ok_iff.mpr ⟨?_, by omega, ?_⟩⟩
  · exact mem_startsOf.mpr (Or.inl rfl)
  · intro s' hs' hlt
    rcases mem_startsOf.mp hs' with rfl | ⟨other, hother, hfind'⟩
    · exact le_rfl
    · by_cases heq : other = info
      · subst heq
        rw [hfind] at hfind'
        have := Option.some.inj hfind'
        omega
      · rw [(h other hother heq).2] at hfind'
        simp at hfind'

end

/-- A deserializer that seeks no first character, and whose members do not end in NUL, reads the rest
of a query as a text that stands alone. -/
theorem deserialize_rest {d : Deserializer} (hstart : d.toBase.start = 0)
    (hvk : ∀ o, d = .object o → o.vkSeparator ≠ 0) {query : Bytes} {s : Nat}
    (hs : s ≤ query.length) :
    (d.deserialize (dataOf query) s query.length).1 =
      (d.deserialize (dataOf (query.drop s)) 0 (query.drop s).length).1 := by
  have hend : ∀ t : Bytes, dataOf t t.length = 0 := by
    intro t
    simp [dataOf]
  have hslice : slice (dataOf query) s query.length = query.drop s := by
    have := slice_dataOf (query.take s) (query.drop s) []
    rwa [List.append_nil, List.take_append_drop, List.length_take, Nat.min_eq_left hs,
      List.length_drop, Nat.add_sub_cancel' hs] at this
  have hquery := @scan_result (dataOf query) query.length ⟨s, 0⟩ d hs (Nat.zero_le _)
    (Or.inl hstart) fun o ho => by
      rw [hend]
      exact (hvk o ho).symm
  have hrest : deserializeText d (query.drop s) = _ :=
    deserializeText_eq (Or.inl hstart) hvk
  rw [Deserializer.deserialize, hquery, hslice]
  exact hrest.symm

theorem passes_rest_iff {info : QueryParamValidatorInfo σ}
    (hstart : info.validator.deserializer.toBase.start = 0)
    (hvk : ∀ o, info.validator.deserializer = .object o → o.vkSeparator ≠ 0) {query : Bytes}
    {s : Nat} (hs : s ≤ query.length) :
    RangePasses rj query info (some (.ok (s, query.length))) ↔ Accepts rj info (query.drop s) := by
  rw [RangePasses, Accepts, QueryParamValidator.validateParam, QueryParamValidator.validateParam,
    ParamValidator.validateParam, ParamValidator.validateParam, deserialize_rest hstart hvk hs]

/-- When the verdict on a query is the parameter's own verdict on all of its pairs.  With the other
parameters idle, this depends on where the name of the parameter is first found: right behind `?`,
nowhere, in another place behind `?` or `&`, or in a place where no parameter may start.  With another
parameter required or found, the own verdict is heeded when the object and all parameters pass, and when
the object fails and so does a parameter that is missing, misplaced or refused in its range. -/
inductive Heeded (infos : List (QueryParamValidatorInfo σ)) (info : QueryParamValidatorInfo σ)
    (query : Bytes) : Prop
  | first (hidle : Idle infos info query) (hfind : find info.name query = some 1)
  | absent (hidle : Idle infos info query) (hfind : find info.name query = none)
      (haccept : info.validator.required = false ↔ Accepts rj info (query.drop 1))
  | later (hidle : Idle infos info query) (s : Nat) (hfind : find info.name query = some s)
      (hmark : Marked query s)
      (haccept : Accepts rj info (query.drop s) ↔ Accepts rj info (query.drop 1))
  | misplaced (hidle : Idle infos info query) (s : Nat) (hfind : find info.name query = some s)
      (hmark : ¬Marked query s) (hreject : ¬Accepts rj info (query.drop 1))
  | allPass (hbusy : ¬Idle infos info query) (haccept : Accepts rj info (query.drop 1))
      (hfound : ∀ other ∈ infos, ∀ s, find other.name query = some s → Marked query s ∧
        ∃ end_, cutRange infos query other.name = some (.ok (s, end_)) ∧
          TakesRange rj other query s end_)
      (hrest : ∀ other ∈ infos, find other.name query = none → other.validator.required = false)
  | requiredMissing (hbusy : ¬Idle infos info query) (hreject : ¬Accepts rj info (query.drop 1))
      (other : QueryParamValidatorInfo σ) (hother : other ∈ infos)
      (hrequired : other.validator.required = true) (hfind : find other.name query = none)
  | nameMisplaced (hbusy : ¬Idle infos info query) (hreject : ¬Accepts rj info (query.drop 1))
      (other : QueryParamValidatorInfo σ) (hother : other ∈ infos) (s : Nat)
      (hfind : find other.name query = some s) (hmark : ¬Marked query s)
  | foundRefused (hbusy : ¬Idle infos info query) (hreject : ¬Accepts rj info (query.drop 1))
      (other : QueryParamValidatorInfo σ) (hother : other ∈ infos) (start end_ : Nat)
      (hrange : cutRange infos query other.name = some (.ok (start, end_)))
      (hrefused : ¬TakesRange rj other query start end_)

section

variable {infos : List (QueryParamValidatorInfo σ)} {info : QueryParamValidatorInfo σ}
  {query : Bytes}

/-- Idle parameters do not matter. -/
theorem Idle.cleared_iff (hidle : Idle infos info query) (hinfo : info ∈ infos) :
    Cleared rj infos query ↔ (∀ s, find info.name query = some s → Marked query s) ∧
      RangePasses rj query info (cutRange infos query info.name) := by
  refine ⟨fun h => h info hinfo, fun h other hother => ?_⟩
  by_cases heq : other = info
  · exact heq ▸ h
  · obtain ⟨hreq, hfind⟩ := hidle other hother heq
    rw [cutRange_eq_none_iff.mpr hfind]
    exact ⟨by simp [hfind], hreq⟩

theorem Idle.cleared_iff_required (hidle : Idle infos info query) (hinfo : info ∈ infos)
    (hfind : find info.name query = none) :
    Cleared rj infos query ↔ info.validator.required = false := by
  rw [hidle.cleared_iff rj hinfo, cutRange_eq_none_iff.mpr hfind]
  simp [hfind, RangePasses]

/-- The text from the name on is checked. -/
theorem Idle.cleared_iff_accepts (hidle : Idle infos info query) (hinfo : info ∈ infos)
    (hstart : info.validator.deserializer.toBase.start = 0)
    (hvk : ∀ o, info.validator.deserializer = .object o → o.vkSeparator ≠ 0) {s : Nat}
    (hfind : find info.name query = some s) :
    Cleared rj infos query ↔ Marked query s ∧ Accepts rj info (query.drop s) := by
  have hs := find_le_length hfind
  rw [hidle.cleared_iff rj hinfo, hidle.cutRange_eq hfind hs, passes_rest_iff rj hstart hvk hs]
  simp [hfind]

end

/-- The query of the pairs gets the verdict that the parameter gives on the joined pairs. -/
def OwnVerdict (store : ValidatorsStore σ) (info : QueryParamValidatorInfo σ) (pairs : List Bytes) :
    Prop :=
  ∀ m, Passes (store.validateQueryParams rj (queryOf pairs) m) ↔
    Accepts rj info ([ampersand].intercalate pairs)

/-- An exploded object in the query is checked as a whole exactly when its verdict is heeded. -/
theorem ownVerdict_iff_heeded {path : Bytes} {params : Json} {refKeys : List Bytes}
    {store : ValidatorsStore σ} (hstore : addParamValidators rj path params refKeys {} = .ok store)
    {info : QueryParamValidatorInfo σ} (hinfo : info ∈ store.queryParamValidators)
    {paramVal : Json} {name : Bytes} {paramKeys : List Bytes} {o : ObjectDeserializer}
    (hdeclares : Declares paramVal (lit "form") true name (lit "query") .FORM true)
    (hobject : getDeserializer paramVal (lit "form") true paramKeys = .ok (.object o))
    (hinfoObject : info.validator.deserializer = .object o) (pairs : List Bytes) :
    OwnVerdict rj store info pairs ↔
      Heeded rj store.queryParamValidators info (queryOf pairs) := by
  have hcode : QueryCodes store.queryParamValidators :=
    addParamValidators_queryCodes rj hstore fun _ h => by simp at h
  obtain ⟨_, -, -, hbase, -, hvk, -⟩ := getDeserializer_objectOf hdeclares hobject
  have hstart : info.validator.deserializer.toBase.start = 0 := by
    rw [hinfoObject]
    exact congrArg BaseDeserializer.start hbase
  have hvk' : ∀ o', info.validator.deserializer = .object o' → o'.vkSeparator ≠ 0 := by
    intro o' ho'
    obtain rfl := Deserializer.object.inj (hinfoObject.symm.trans ho')
    rw [hvk]
    decide
  have hverdict : OwnVerdict rj store info pairs ↔
      (Cleared rj store.queryParamValidators (queryOf pairs) ↔
        Accepts rj info ((queryOf pairs).drop 1)) := by
    unfold OwnVerdict
    simp only [validateQueryParams_passes_iff_cleared rj hcode, forall_const]
    rfl
  have hfound : ∀ {s}, Idle store.queryParamValidators info (queryOf pairs) →
      find info.name (queryOf pairs) = some s →
      (Cleared rj store.queryParamValidators (queryOf pairs) ↔
        Marked (queryOf pairs) s ∧ Accepts rj info ((queryOf pairs).drop s)) := fun hidle hfind =>
    hidle.cleared_iff_accepts rj hinfo hstart hvk' hfind
  have hrejects : ∀ other ∈ store.queryParamValidators,
      FailsAt rj store.queryParamValidators (queryOf pairs) other →
        ¬Cleared rj store.queryParamValidators (queryOf pairs) := fun other hother hfails hclear =>
    (cleared_iff_not_failsAt rj hcode.ne_none).mp hclear other hother hfails
  rw [hverdict]
  constructor
  · intro h
    by_cases hidle : Idle store.queryParamValidators info (queryOf pairs)
    · cases hfind : find info.name (queryOf pairs) with
      | none => exact .absent hidle hfind ((hidle.cleared_iff_required rj hinfo hfind).symm.trans h)
      | some s =>
        have hcleared := hfound hidle hfind
        by_cases hmark : Marked (queryOf pairs) s
        · exact .later hidle s hfind hmark (by tauto)
        · exact .misplaced hidle s hfind hmark (by tauto)
    · by_cases haccept : Accepts rj info ((queryOf pairs).drop 1)
      · have hclear := (cleared_iff_not_failsAt rj hcode.ne_none).mp (h.mpr haccept)
        exact .allPass hidle haccept
          (fun other hother => ((not_failsAt_iff rj).mp (hclear other hother)).1)
          fun other hother => ((not_failsAt_iff rj).mp (hclear other hother)).2
      · have hfails : ∃ other ∈ store.queryParamValidators,
            FailsAt rj store.queryParamValidators (queryOf pairs) other := by
          by_contra hnone
          refine haccept (h.mp ((cleared_iff_not_failsAt rj hcode.ne_none).mpr ?_))
          exact fun other hother hfails => hnone ⟨other, hother, hfails⟩
        obtain ⟨other, hother, hfails⟩ := hfails
        cases hfails with
        | missing hrequired hfind => exact .requiredMissing hidle haccept other hother hrequired hfind
        | misplaced s hfind hmark => exact .nameMisplaced hidle haccept other hother s hfind hmark
        | refused start end_ hrange hrefused =>
          exact .foundRefused hidle haccept other hother start end_ hrange hrefused
  · intro h
    cases h with
    | first hidle hfind =>
      have hmark : Marked (queryOf pairs) 1 := ⟨0, rfl, Or.inl rfl⟩
      exact (hfound hidle hfind).trans (and_iff_right hmark)
    | absent hidle hfind haccept =>
      exact (hidle.cleared_iff_required rj hinfo hfind).trans haccept
    | later hidle s hfind hmark haccept =>
      exact ((hfound hidle hfind).trans (and_iff_right hmark)).trans haccept
    | misplaced hidle s hfind hmark hreject =>
      exact iff_of_false (fun h => hmark ((hfound hidle hfind).mp h).1) hreject
    | allPass hbusy haccept hfound hrest =>
      refine iff_of_true ((cleared_iff_not_failsAt rj hcode.ne_none).mpr fun other hother => ?_) haccept
      exact (not_failsAt_iff rj).mpr ⟨hfound other hother, hrest other hother⟩
    | requiredMissing hbusy hreject other hother hrequired hfind =>
      exact iff_of_false (hrejects other hother (.missing hrequired hfind)) hreject
    | nameMisplaced hbusy hreject other hother s hfind hmark =>
      exact iff_of_false (hrejects other hother (.misplaced s hfind hmark)) hreject
    | foundRefused hbusy hreject other hother start end_ hrange hrefused =>
      exact iff_of_false (hrejects other hother (.refused start end_ hrange hrefused)) hreject

theorem not_accepts {info : QueryParamValidatorInfo σ} {t what : Bytes}
    (hcode : info.validator.codeOnError = .INVALID_QUERY_PARAM)
    (h : deserializeText info.validator.deserializer t = .error (.exception what)) :
    ¬Accepts rj info t := by
  have hrun : info.validator.toParamValidator.validateParam rj (dataOf t) 0 t.length [] =
      .ok ⟨info.validator.codeOnError, info.validator.errHeader ++ cstr what ++ lit "\x7d\x7d",
        info.validator.toParamValidator⟩ := by
    simp only [deserializeText] at h
    simp only [ParamValidator.validateParam, h]
  rintro ⟨c, hc, hnone⟩
  obtain ⟨c', hc', h'⟩ := bind_eq_ok_iff.mp hc
  obtain rfl := Except.ok.inj (hrun.symm.trans hc')
  obtain rfl := Except.ok.inj h'
  simp [Checked.map, hcode] at hnone

/-- An optional parameter of type object in the query, with the default style and `explode`. -/
def filterParam : Json :=
  .object [(lit "name", .string (lit "filter")), (lit "in", .string (lit "query")),
    (lit "schema", .object [(lit "type", .string (lit "object")),
      (lit "properties", .object [(lit "x", .object [(lit "type", .string (lit "integer"))])])])]

def filterDeserializer : ObjectDeserializer :=
  { paramName := lit "filter", start := 0, skipName := false, kvSeparator := equals,
    vkSeparator := ampersand, isDeepObj := false, ktMap := [(lit "\"x\"", .INTEGER)] }

theorem filter_declares :
    Declares filterParam (lit "form") true (lit "filter") (lit "query") .FORM true where
  name_eq := by decide
  in_eq := by decide
  explode_eq := by decide
  style_eq := by decide

theorem filter_deserializer :
    getDeserializer filterParam (lit "form") true [] = .ok (.object filterDeserializer) := by
  decide

theorem filter_store : ∃ (store : ValidatorsStore Json) (info : QueryParamValidatorInfo Json),
    addParamValidators RapidJson.plain [] (.array [filterParam]) [] {} = .ok store ∧
      store.queryParamValidators = [info] ∧ info.validator.required = false ∧
      fixedParts info = (lit "filter", .INVALID_QUERY_PARAM, .object filterDeserializer) := by
  have hrun : (addParamValidators RapidJson.plain [] (.array [filterParam]) [] {}).map
      (fun store => store.queryParamValidators.map fun info =>
        (info.validator.required, fixedParts info)) =
      .ok [(false, lit "filter", .INVALID_QUERY_PARAM, .object filterDeserializer)] := by
    decide
  obtain ⟨store, hstore, hparts⟩ := map_eq_ok_iff.mp hrun
  obtain ⟨info, hinfos, hinfo⟩ := List.map_eq_singleton_iff.mp hparts
  exact ⟨store, info, hstore, hinfos, congrArg Prod.fst hinfo, congrArg Prod.snd hinfo⟩

theorem ownVerdict_iff_heeded_filter : ∃ (store : ValidatorsStore Json)
    (info : QueryParamValidatorInfo Json),
    addParamValidators RapidJson.plain [] (.array [filterParam]) [] {} = .ok store ∧
      (OwnVerdict RapidJson.plain store info [lit "x=abc"] ↔
        Heeded RapidJson.plain store.queryParamValidators info (queryOf [lit "x=abc"])) := by
  obtain ⟨store, info, hstore, hinfos, -, hparts⟩ := filter_store
  exact ⟨store, info, hstore, ownVerdict_iff_heeded RapidJson.plain hstore
    (by rw [hinfos]; exact List.mem_singleton_self info) filter_declares filter_deserializer
    (congrArg (·.2.2) hparts) [lit "x=abc"]⟩

/-- A property of the wrong type is not seen, since the name of its parameter does not occur. -/
theorem property_unseen : ¬∀ (path : Bytes) (params : Json) (refKeys : List Bytes)
    (store : ValidatorsStore Json) (info : QueryParamValidatorInfo Json) (paramVal : Json)
    (name : Bytes) (paramKeys : List Bytes) (o : ObjectDeserializer) (pairs : List Bytes),
    addParamValidators RapidJson.plain path params refKeys {} = .ok store →
    store.queryParamValidators = [info] →
    Declares paramVal (lit "form") true name (lit "query") .FORM true →
    getDeserializer paramVal (lit "form") true paramKeys = .ok (.object o) →
    info.validator.deserializer = .object o → pairs ≠ [] →
    (∀ p ∈ pairs, ampersand ∉ p ∧ ∃ key value type, p = key ++ equals :: value ∧
      o.ktMap.lookup ([quote] ++ key ++ [quote]) = some type) →
    OwnVerdict RapidJson.plain store info pairs := by
  intro hclaim
  obtain ⟨store, info, hstore, hinfos, hreq, hparts⟩ := filter_store
  have hname : info.name = lit "filter" := congrArg Prod.fst hparts
  have hcode : info.validator.codeOnError = .INVALID_QUERY_PARAM := congrArg (·.2.1) hparts
  have hdes : info.validator.deserializer = .object filterDeserializer := congrArg (·.2.2) hparts
  have hverdict := hclaim [] (.array [filterParam]) [] store info filterParam (lit "filter") []
    filterDeserializer [lit "x=abc"] hstore hinfos filter_declares filter_deserializer hdes
    (by simp) (by
      intro p hp
      obtain rfl := List.mem_singleton.mp hp
      exact ⟨by decide, lit "x", lit "abc", .INTEGER, by decide, by decide⟩)
  have hidle : Idle store.queryParamValidators info (queryOf [lit "x=abc"]) := by
    intro other hother hne
    rw [hinfos, List.mem_singleton] at hother
    exact absurd hother hne
  have hpasses : Passes (store.validateQueryParams RapidJson.plain (queryOf [lit "x=abc"]) []) := by
    rw [validateQueryParams_passes_iff_cleared RapidJson.plain
      (addParamValidators_queryCodes RapidJson.plain hstore fun _ h => by simp at h)]
    refine (hidle.cleared_iff_required RapidJson.plain (by simp [hinfos]) ?_).mpr hreq
    rw [hname]
    decide
  have hrun : deserializeText (.object filterDeserializer) (lit "x=abc") =
      .error filterDeserializer.wrongInteger := by
    decide
  exact not_accepts RapidJson.plain hcode (hdes ▸ hrun) ((hverdict []).mp hpasses)

end OasValidator
