import OasValidator.Imp.ErrorTexts
import OasValidator.Imp.Returns
import OasValidator.Validators.Exploded

/-! Queries with the same pairs in another order.  What a parameter is checked on is cut out of the
query up to the next located parameter, and so it depends on what stands behind its pairs.  The code
is the same in both orders as far as the parameters are cut out alike. -/

namespace OasValidator

open Library.Scanning ValidatorsStore

section

variable {σ : Type}

/-- The byte behind a range of an object is the one that goes on with another member. -/
def goesOn (d : Deserializer) (behind : UInt8) : Bool :=
  match d with
  | .object o => behind = o.vkSeparator
  | _ => false

/-- What is cut out of a query for a parameter: the text of its range, and whether the byte behind it
goes on. -/
def cutOut (infos : List (QueryParamValidatorInfo σ)) (query : Bytes)
    (info : QueryParamValidatorInfo σ) : Option (Bytes × Bool) :=
  match cutRange infos query info.name with
  | some (.ok (start, end_)) =>
    some (slice (dataOf query) start end_, goesOn info.validator.deserializer (dataOf query end_))
  | _ => none

/-- The name first occurs where no parameter may start. -/
def Misplaced (query name : Bytes) : Prop := ∃ s, find name query = some s ∧ ¬Marked query s

/-- The same is cut out of two queries for a parameter, and it is misplaced in both or in none. -/
def CutAlike (infos : List (QueryParamValidatorInfo σ)) (query query' : Bytes)
    (info : QueryParamValidatorInfo σ) : Prop :=
  cutOut infos query info = cutOut infos query' info ∧
    (Misplaced query info.name ↔ Misplaced query' info.name)

theorem cutRange_cases (infos : List (QueryParamValidatorInfo σ)) (query : Bytes)
    (info : QueryParamValidatorInfo σ) :
    (cutRange infos query info.name = none ∧ cutOut infos query info = none) ∨
      ∃ start end_, cutRange infos query info.name = some (.ok (start, end_)) ∧ start ≤ end_ ∧
        cutOut infos query info = some (slice (dataOf query) start end_,
          goesOn info.validator.deserializer (dataOf query end_)) := by
  cases hfind : find info.name query with
  | none =>
    have hnone : cutRange infos query info.name = none := cutRange_eq_none_iff.mpr hfind
    exact Or.inl ⟨hnone, by rw [cutOut, hnone]⟩
  | some start =>
    obtain ⟨end_, hle, hrange⟩ := @exists_cutRange _ _ infos _ _ hfind
    exact Or.inr ⟨start, end_, hrange, hle, by rw [cutOut, hrange]⟩

end

/-! ### Equal texts -/

/-- On equal texts that go on or do not, a deserializer returns the same. -/
theorem deserialize_ok_of_slice {d : Deserializer} {buf buf' : Nat → UInt8} {beg end_ beg' end' : Nat}
    (hle : beg ≤ end_) (hle' : beg' ≤ end') (hslice : slice buf beg end_ = slice buf' beg' end')
    (hbehind : goesOn d (buf end_) = goesOn d (buf' end')) {out : Bytes}
    (h : (d.deserialize buf beg end_).1 = .ok out) :
    (d.deserialize buf' beg' end').1 = .ok out := by
  have hlt : beg < end_ ↔ beg' < end' := by
    have hnil : slice buf beg end_ ≠ [] ↔ beg < end_ := by simp [slice_eq_nil_iff]
    have hnil' : slice buf' beg' end' ≠ [] ↔ beg' < end' := by simp [slice_eq_nil_iff]
    rw [← hnil, hslice, hnil']
  obtain ⟨rest, hlexer⟩ := @lexer_of_scan buf end_ ⟨beg, 0⟩ d hle (Nat.zero_le _) out h
  simp only [hslice] at hlexer
  by_cases hstart : d.toBase.start = 0 ∨ beg' < end'
  · by_cases hin : Inside d (slice buf' beg' end')
    · have hres := (@refines_scan buf' end' ⟨beg', 0⟩ d hle' (Nat.zero_le _) hin).2.2.2
      simp only [hlexer] at hres
      exact hres.1
    · -- an object that ends in a member looks at the byte behind
      obtain ⟨o, rfl, rest', ho, hm⟩ := not_inside hin (by simpa [slice_eq_nil_iff] using hstart)
      obtain ⟨out₁, -, hrun⟩ := @Text.object_outside buf end_ o ⟨beg, 0⟩ rest' hle
        (Nat.zero_le _) (by rwa [hlt]) (hslice ▸ ho) hm
      obtain ⟨out₂, htext, hrun'⟩ := @Text.object_outside buf' end' o ⟨beg', 0⟩ rest' hle'
        (Nat.zero_le _) hstart ho hm
      rw [Deserializer.deserialize, Deserializer.scan, hrun] at h
      rw [Deserializer.deserialize, Deserializer.scan, hrun']
      split at h
      · simp at h
      · rename_i hvk
        have hvk' : buf' end' ≠ o.vkSeparator := by simpa [goesOn, hvk] using hbehind
        rw [if_neg hvk']
        have hout : out₂ = out := congrArg Prod.fst (Except.ok.inj (htext.symm.trans hlexer))
        rw [hout]
  · obtain ⟨hne, hge⟩ := not_or.mp hstart
    have hempty : beg = end_ := by omega
    obtain ⟨x, hx⟩ := (@scan_empty buf end_ ⟨beg, 0⟩ d hempty hne).1
    rw [Deserializer.deserialize, hx] at h
    simp at h

section

variable {σ : Type} (rj : RapidJson σ)

/-- A parameter that is found stands behind `?` or `&` and passes in its range, and another one is
optional. -/
def ClearedAt (infos : List (QueryParamValidatorInfo σ)) (query : Bytes)
    (info : QueryParamValidatorInfo σ) : Prop :=
  (∀ s, find info.name query = some s → Marked query s) ∧
    RangePasses rj query info (cutRange infos query info.name)

variable {rj} {infos : List (QueryParamValidatorInfo σ)} {info : QueryParamValidatorInfo σ}
  {query query' : Bytes}

theorem rangePasses_of_cutOut (hcode : info.validator.codeOnError ≠ .NONE)
    (hsame : cutOut infos query info = cutOut infos query' info)
    (h : RangePasses rj query info (cutRange infos query info.name)) :
    RangePasses rj query' info (cutRange infos query' info.name) := by
  rcases cutRange_cases infos query info with
    ⟨hrange, hcut⟩ | ⟨start, end_, hrange, hle, hcut⟩ <;>
  rcases cutRange_cases infos query' info with
    ⟨hrange', hcut'⟩ | ⟨start', end', hrange', hle', hcut'⟩
  · rw [hrange] at h
    rw [hrange']
    exact h
  · simp [hcut, hcut'] at hsame
  · simp [hcut, hcut'] at hsame
  · rw [hcut, hcut', Option.some.injEq, Prod.mk.injEq] at hsame
    rw [hrange, RangePasses, validateParam_passes_iff rj hcode] at h
    rw [hrange', RangePasses, validateParam_passes_iff rj hcode]
    obtain ⟨out, hout, haccepts⟩ := h
    exact ⟨out, deserialize_ok_of_slice hle hle' hsame.1 hsame.2 hout, haccepts⟩

theorem CutAlike.symm (h : CutAlike infos query query' info) : CutAlike infos query' query info :=
  ⟨h.1.symm, h.2.symm⟩

theorem CutAlike.clearedAt (hcode : info.validator.codeOnError ≠ .NONE)
    (h : CutAlike infos query query' info) (hcleared : ClearedAt rj infos query info) :
    ClearedAt rj infos query' info := by
  refine ⟨fun s hs => ?_, rangePasses_of_cutOut hcode h.1 hcleared.2⟩
  by_contra hmark
  obtain ⟨s', hs', hmark'⟩ := h.2.mpr ⟨s, hs, hmark⟩
  exact hmark' (hcleared.1 s' hs')

/-- A parameter that is cut out alike gets the same verdict. -/
theorem CutAlike.clearedAt_iff (hcode : info.validator.codeOnError ≠ .NONE)
    (h : CutAlike infos query query' info) :
    ClearedAt rj infos query info ↔ ClearedAt rj infos query' info :=
  ⟨h.clearedAt hcode, h.symm.clearedAt hcode⟩

theorem CutAlike.failsAt_iff (hcode : info.validator.codeOnError ≠ .NONE)
    (h : CutAlike infos query query' info) :
    FailsAt rj infos query info ↔ FailsAt rj infos query' info := by
  rw [← not_iff_not, ← clearedAt_iff_not_failsAt rj hcode, ← clearedAt_iff_not_failsAt rj hcode]
  exact h.clearedAt_iff hcode

/-- When the verdicts on two queries agree: all parameters are cut out alike, or one that is cut out
alike fails, or those that are not cut out alike pass in both queries, or in each of them one is missing,
misplaced or refused in its range. -/
inductive VerdictsAgree (rj : RapidJson σ) (infos : List (QueryParamValidatorInfo σ))
    (query query' : Bytes) : Prop
  | alike (h : ∀ info ∈ infos, CutAlike infos query query' info)
  | failing (info : QueryParamValidatorInfo σ) (hinfo : info ∈ infos)
      (halike : CutAlike infos query query' info) (hfails : FailsAt rj infos query info)
  | passing (h : ∀ info ∈ infos, ¬CutAlike infos query query' info →
      ¬FailsAt rj infos query info ∧ ¬FailsAt rj infos query' info)
  | failingBoth (info info' : QueryParamValidatorInfo σ) (hinfo : info ∈ infos) (hinfo' : info' ∈ infos)
      (halike : ¬CutAlike infos query query' info) (halike' : ¬CutAlike infos query query' info')
      (hfails : FailsAt rj infos query info) (hfails' : FailsAt rj infos query' info')

/-- Where all parameters that are cut out alike pass, the query fails at another one. -/
theorem exists_failsAt (hcode : ∀ info ∈ infos, info.validator.codeOnError ≠ .NONE)
    (halike : ∀ info ∈ infos, CutAlike infos query query' info → ¬FailsAt rj infos query info)
    (h : ¬Cleared rj infos query) :
    ∃ info ∈ infos, ¬CutAlike infos query query' info ∧ FailsAt rj infos query info := by
  by_contra hnone
  refine h ((cleared_iff_not_failsAt rj hcode).mpr fun info hinfo hfail => ?_)
  by_cases hcut : CutAlike infos query query' info
  · exact halike info hinfo hcut hfail
  · exact hnone ⟨info, hinfo, hcut, hfail⟩

theorem cleared_iff_verdictsAgree (hcode : ∀ info ∈ infos, info.validator.codeOnError ≠ .NONE) :
    (Cleared rj infos query ↔ Cleared rj infos query') ↔ VerdictsAgree rj infos query query' := by
  have hiff : ∀ info ∈ infos, CutAlike infos query query' info →
      (FailsAt rj infos query info ↔ FailsAt rj infos query' info) := fun info hinfo halike =>
    halike.failsAt_iff (hcode info hinfo)
  constructor
  · intro h
    by_cases hfails : ∃ info ∈ infos, CutAlike infos query query' info ∧ FailsAt rj infos query info
    · obtain ⟨info, hinfo, halike, hfails⟩ := hfails
      exact .failing info hinfo halike hfails
    · have halike : ∀ info ∈ infos, CutAlike infos query query' info →
          ¬FailsAt rj infos query info := fun info hinfo halike hfail =>
        hfails ⟨info, hinfo, halike, hfail⟩
      by_cases hcleared : Cleared rj infos query
      · have hcleared' := h.mp hcleared
        rw [cleared_iff_not_failsAt rj hcode] at hcleared hcleared'
        exact .passing fun info hinfo _ => ⟨hcleared info hinfo, hcleared' info hinfo⟩
      · have halike' : ∀ info ∈ infos, CutAlike infos query' query info →
            ¬FailsAt rj infos query' info := fun info hinfo hcut =>
          mt (hiff info hinfo hcut.symm).mpr (halike info hinfo hcut.symm)
        obtain ⟨info, hinfo, hcut, hfail⟩ := exists_failsAt hcode halike hcleared
        obtain ⟨info', hinfo', hcut', hfail'⟩ := exists_failsAt hcode halike' (mt h.mpr hcleared)
        exact .failingBoth info info' hinfo hinfo' hcut (mt CutAlike.symm hcut') hfail hfail'
  · intro h
    rw [cleared_iff_not_failsAt rj hcode, cleared_iff_not_failsAt rj hcode]
    cases h with
    | alike halike =>
      exact forall₂_congr fun info hinfo => not_congr (hiff info hinfo (halike info hinfo))
    | failing info hinfo halike hfails =>
      exact iff_of_false (fun h => h info hinfo hfails)
        fun h => h info hinfo ((hiff info hinfo halike).mp hfails)
    | passing hpass =>
      refine forall₂_congr fun info hinfo => not_congr ?_
      by_cases hcut : CutAlike infos query query' info
      · exact hiff info hinfo hcut
      · exact iff_of_false (hpass info hinfo hcut).1 (hpass info hinfo hcut).2
    | failingBoth info info' hinfo hinfo' _ _ hfail hfail' =>
      exact iff_of_false (fun h => h info hinfo hfail) fun h => h info' hinfo' hfail'

end

/-! ### The code of a check -/

section

variable {σ : Type} {rj : RapidJson σ}

/-- A check returns `NONE` or the code. -/
def Codes {τ : Type} (code : ValidationError) (r : Except Fault (Checked τ)) : Prop :=
  ∀ c, r = .ok c → c.code = .NONE ∨ c.code = code

theorem Codes.map {τ υ : Type} {code : ValidationError} {r : Except Fault (Checked τ)}
    (h : Codes code r) (f : τ → υ) : Codes code (r >>= fun c => pure (c.map f)) := by
  intro c hc
  obtain ⟨c', hc', hmap⟩ := bind_eq_ok_iff.mp hc
  obtain rfl := Except.ok.inj hmap
  exact h c' hc'

theorem JsonValidator.validate_codes (v : JsonValidator σ) (t m : Bytes) :
    Codes v.codeOnError (v.validate rj t m) := by
  intro c hc
  unfold validate at hc
  split at hc
  · obtain rfl := Except.ok.inj hc
    exact Or.inr rfl
  · simp only at hc
    split at hc
    · obtain rfl := Except.ok.inj hc
      exact Or.inl rfl
    · obtain ⟨text, -, hc⟩ := bind_eq_ok_iff.mp hc
      obtain rfl := Except.ok.inj hc
      exact Or.inr rfl

theorem ParamValidator.validateParam_codes (v : ParamValidator σ) (buf : Nat → UInt8)
    (beg end_ : Nat) (m : Bytes) : Codes v.codeOnError (v.validateParam rj buf beg end_ m) := by
  unfold validateParam
  split
  · exact (JsonValidator.validate_codes _ _ m).map _
  · intro c hc
    obtain rfl := Except.ok.inj hc
    exact Or.inr rfl
  · intro c hc
    simp at hc

theorem QueryParamValidator.validateParam_codes (v : QueryParamValidator σ) (buf : Nat → UInt8)
    (beg end_ : Nat) (m : Bytes) : Codes v.codeOnError (v.validateParam rj buf beg end_ m) :=
  (ParamValidator.validateParam_codes v.toParamValidator buf beg end_ m).map _

theorem checkQueryParams_codes {query : Bytes} {starts : List Nat} {startMap : List (Bytes × Nat)}
    {infos : List (QueryParamValidatorInfo σ)} (hcode : QueryCodes infos) (m : Bytes) :
    Codes .INVALID_QUERY_PARAM (checkQueryParams rj query starts startMap infos m) := by
  induction infos generalizing m with
  | nil =>
    intro c hc
    obtain rfl := Except.ok.inj hc
    exact Or.inl rfl
  | cons info rest ih =>
    have ih := ih fun i hi => hcode i (List.mem_cons_of_mem _ hi)
    have hinfo : info.validator.codeOnError = .INVALID_QUERY_PARAM := hcode info List.mem_cons_self
    unfold checkQueryParams
    split
    · split
      · intro c hc
        obtain rfl := Except.ok.inj hc
        exact Or.inr hinfo
      · exact (ih m).map _
    · intro c hc
      obtain ⟨next, -, hc⟩ := bind_eq_ok_iff.mp hc
      obtain ⟨c', hc', hc⟩ := bind_eq_ok_iff.mp hc
      simp only at hc
      split at hc
      · exact (ih _).map _ c hc
      · obtain rfl := Except.ok.inj hc
        exact hinfo ▸ QueryParamValidator.validateParam_codes _ _ _ _ _ c' hc'

theorem validateQueryParams_codes {store : ValidatorsStore σ}
    (hcode : QueryCodes store.queryParamValidators) (query m : Bytes) :
    Codes .INVALID_QUERY_PARAM (store.validateQueryParams rj query m) := by
  intro c hc
  obtain ⟨located, hlocate, hc⟩ := bind_eq_ok_iff.mp hc
  cases located with
  | error e =>
    obtain ⟨code, text⟩ := e
    obtain rfl := Except.ok.inj hc
    exact Or.inr (locate_error hcode hlocate)
  | ok p => exact (checkQueryParams_codes hcode m).map _ c hc

/-- A check of a query looks in front of the query, passes, or reports an error of a query
parameter. -/
theorem query_cases {store : ValidatorsStore σ} (hstore : Guarded rj store)
    (hcode : QueryCodes store.queryParamValidators)
    (herrors : ∀ info ∈ store.queryParamValidators, info.validator.WritesErrors rj)
    (query m : Bytes) :
    (LooksBefore query store.queryParamValidators ∧ ¬Cleared rj store.queryParamValidators query ∧
        codeOf (store.validateQueryParams rj query m) = .error .undefined) ∨
      (¬LooksBefore query store.queryParamValidators ∧ Cleared rj store.queryParamValidators query ∧
        codeOf (store.validateQueryParams rj query m) = .ok .NONE) ∨
      (¬LooksBefore query store.queryParamValidators ∧ ¬Cleared rj store.queryParamValidators query ∧
        codeOf (store.validateQueryParams rj query m) = .ok .INVALID_QUERY_PARAM) := by
  obtain ⟨hlooks, hreturns⟩ :=
    (validateQueryParams_endsBy hstore query m).congr (queryBreaks_iff herrors query)
  have hcodes := @validateQueryParams_codes σ rj store hcode query m
  rw [← validateQueryParams_passes_iff_cleared rj hcode m]
  by_cases h : LooksBefore query store.queryParamValidators
  · rw [hlooks h]
    exact Or.inl ⟨h, by simp [Passes], rfl⟩
  · obtain ⟨c, hc⟩ := hreturns h
    rw [hc] at hcodes ⊢
    rcases hcodes c rfl with hnone | hinvalid
    · exact Or.inr (Or.inl ⟨h, ⟨c, rfl, hnone⟩, congrArg Except.ok hnone⟩)
    · refine Or.inr (Or.inr ⟨h, ?_, congrArg Except.ok hinvalid⟩)
      rintro ⟨c', hc', hnone⟩
      obtain rfl := Except.ok.inj hc'
      simp [hinvalid] at hnone

theorem queryCodes_of_keyed {store : ValidatorsStore σ} (h : store.Keyed) :
    QueryCodes store.queryParamValidators := fun info hinfo => (h.query info hinfo).code

/-- What is known of the validators of an operation. -/
theorem Constructs.queryStore {order : Hashing} {files : Bytes → Option Bytes} {oasSpecs : Bytes}
    {methodMap : MethodMap} {doc : Json} {imp : OASValidatorImp σ}
    (h : Constructs rj order files oasSpecs methodMap doc imp)
    {method : HttpMethod} {key : Bytes} {store : ValidatorsStore σ}
    (hstore : (imp.oasValidators method).perPathValidators.lookup key = some store) :
    Guarded rj store ∧ QueryCodes store.queryParamValidators := by
  obtain ⟨_, -, hprocess⟩ := h
  exact ⟨guarded_kept.processDocument hprocess method key store hstore,
    queryCodes_of_keyed (keyed_kept.processDocument hprocess method key store hstore)⟩

theorem codeOf_eq_iff {store : ValidatorsStore σ} (hstore : Guarded rj store)
    (hcode : QueryCodes store.queryParamValidators)
    (herrors : ∀ info ∈ store.queryParamValidators, info.validator.WritesErrors rj)
    (query query' m : Bytes) :
    codeOf (store.validateQueryParams rj query m) = codeOf (store.validateQueryParams rj query' m) ↔
      (LooksBefore query store.queryParamValidators ↔
        LooksBefore query' store.queryParamValidators) ∧
      (Cleared rj store.queryParamValidators query ↔ Cleared rj store.queryParamValidators query') := by
  rcases query_cases hstore hcode herrors query m with
    ⟨hl, hc, hrun⟩ | ⟨hl, hc, hrun⟩ | ⟨hl, hc, hrun⟩ <;>
  rcases query_cases hstore hcode herrors query' m with
    ⟨hl', hc', hrun'⟩ | ⟨hl', hc', hrun'⟩ | ⟨hl', hc', hrun'⟩ <;>
  simp [hl, hc, hrun, hl', hc', hrun']

end

/-! ### Pairs in another order -/

section

variable {σ : Type}

/-- The name of the parameter stands in the pair before `=`, or before `[` for a deep object. -/
def belongs (info : QueryParamValidatorInfo σ) (pair : Bytes) : Bool :=
  pair.takeWhile (· ≠ equals) = info.name ||
    match info.validator.deserializer with
    | .object o => o.isDeepObj && pair.takeWhile (· ≠ '['.toUInt8) = info.name
    | _ => false

/-- The same pairs, with those of each parameter in the same order. -/
structure Rearranged (infos : List (QueryParamValidatorInfo σ)) (pairs pairs' : List Bytes) : Prop where
  perm : pairs.Perm pairs'
  own : ∀ info ∈ infos, pairs'.filter (belongs info) = pairs.filter (belongs info)

/-- For an operation of a specification and two orders of the pairs of a query, the code is the same
exactly if the code looks in front of both queries or of none, and the verdicts on the parameters
agree.  The trees of errors that RapidJSON makes for these parameters are such that they can be
written. -/
theorem query_code_iff {rj : RapidJson σ} {order : Hashing} {files : Bytes → Option Bytes}
    {oasSpecs : Bytes} {methodMap : MethodMap} {doc : Json} {imp : OASValidatorImp σ}
    (h : Constructs rj order files oasSpecs methodMap doc imp)
    {method : HttpMethod} {key : Bytes} {store : ValidatorsStore σ}
    (hstore : (imp.oasValidators method).perPathValidators.lookup key = some store)
    (herrors : ∀ info ∈ store.queryParamValidators, info.validator.WritesErrors rj)
    (pairs pairs' : List Bytes) (m : Bytes) :
    codeOf (store.validateQueryParams rj (queryOf pairs) m) =
        codeOf (store.validateQueryParams rj (queryOf pairs') m) ↔
      (LooksBefore (queryOf pairs) store.queryParamValidators ↔
        LooksBefore (queryOf pairs') store.queryParamValidators) ∧
      VerdictsAgree rj store.queryParamValidators (queryOf pairs) (queryOf pairs') := by
  obtain ⟨hguarded, hcode⟩ := h.queryStore hstore
  rw [← cleared_iff_verdictsAgree hcode.ne_none]
  exact codeOf_eq_iff hguarded hcode herrors _ _ m

/-- The pairs of the parameter stand together from where its name is first found, up to the end of the
query or to the next located parameter. -/
structure Together (infos : List (QueryParamValidatorInfo σ)) (info : QueryParamValidatorInfo σ)
    (pairs before behind : List Bytes) : Prop where
  split : pairs = before ++ pairs.filter (belongs info) ++ behind
  own : pairs.filter (belongs info) ≠ []
  found : find info.name (queryOf pairs) = some (pairStart pairs before.length)
  next : nextStart (startsOf infos (queryOf pairs)) (pairStart pairs before.length) =
    .ok (pairStart pairs (before.length + (pairs.filter (belongs info)).length))

/-- The parameter is not found in either order, or its pairs stand together in both, and for an object
at the end of the query in both or in none. -/
inductive Grouped (infos : List (QueryParamValidatorInfo σ)) (info : QueryParamValidatorInfo σ)
    (pairs pairs' : List Bytes) : Prop
  | absent (h : find info.name (queryOf pairs) = none) (h' : find info.name (queryOf pairs') = none)
  | together {before behind before' behind' : List Bytes}
      (h : Together infos info pairs before behind) (h' : Together infos info pairs' before' behind')
      (hend : (∃ o, info.validator.deserializer = .object o) → (behind = [] ↔ behind' = []))

variable {infos : List (QueryParamValidatorInfo σ)} {info : QueryParamValidatorInfo σ}
  {pairs pairs' before behind : List Bytes}

theorem Together.cutOut_eq (h : Together infos info pairs before behind) :
    cutOut infos (queryOf pairs) info = some ([ampersand].intercalate (pairs.filter (belongs info)),
      goesOn info.validator.deserializer (if behind = [] then 0 else ampersand)) := by
  obtain ⟨hslice, hbehind⟩ := slice_block h.own h.split
  have hrange : cutRange infos (queryOf pairs) info.name = some (.ok
      (pairStart pairs before.length,
        pairStart pairs (before.length + (pairs.filter (belongs info)).length) - 1)) := by
    rw [cutRange, h.found, Option.map_some, h.next]
    rfl
  rw [cutOut, hrange]
  simp only [hslice, hbehind]

theorem Together.not_misplaced (h : Together infos info pairs before behind) :
    ¬Misplaced (queryOf pairs) info.name := by
  rintro ⟨s, hs, hmark⟩
  obtain rfl := Option.some.inj (h.found.symm.trans hs)
  have hlt : before.length < pairs.length := by
    have hpos := List.length_pos_iff.mpr h.own
    have hlength := congrArg List.length h.split
    simp only [List.length_append] at hlength
    omega
  exact hmark ⟨_, rfl, before_pairStart hlt⟩

theorem Grouped.cutAlike (h : Grouped infos info pairs pairs')
    (hown : pairs'.filter (belongs info) = pairs.filter (belongs info)) :
    CutAlike infos (queryOf pairs) (queryOf pairs') info := by
  cases h with
  | absent h h' =>
    have hcut : ∀ {query}, find info.name query = none → cutOut infos query info = none := by
      intro query hfind
      rw [cutOut, cutRange_eq_none_iff.mpr hfind]
    refine ⟨(hcut h).trans (hcut h').symm, iff_of_false ?_ ?_⟩
    · rintro ⟨s, hs, -⟩
      simp [h] at hs
    · rintro ⟨s, hs, -⟩
      simp [h'] at hs
  | together h h' hend =>
    refine ⟨?_, iff_of_false h.not_misplaced h'.not_misplaced⟩
    rw [h.cutOut_eq, h'.cutOut_eq, hown]
    cases hd : info.validator.deserializer with
    | object o => simp only [hend ⟨o, hd⟩]
    | _ => rfl

theorem Grouped.found_inside (h : Grouped infos info pairs pairs') :
    ¬info.name <+: queryOf pairs ∧ ¬info.name <+: queryOf pairs' := by
  have hnot : ∀ {pairs k}, find info.name (queryOf pairs) = some (pairStart pairs k) →
      ¬info.name <+: queryOf pairs := by
    intro pairs k hfind hfront
    rw [find_eq_zero_iff.mpr hfront] at hfind
    simp [pairStart] at hfind
  have habsent : ∀ {pairs}, find info.name (queryOf pairs) = none → ¬info.name <+: queryOf pairs := by
    intro pairs hfind hfront
    rw [find_eq_zero_iff.mpr hfront] at hfind
    simp at hfind
  cases h with
  | absent h h' => exact ⟨habsent h, habsent h'⟩
  | together h h' _ => exact ⟨hnot h.found, hnot h'.found⟩

theorem not_looksBefore {query : Bytes} (h : ∀ info ∈ infos, ¬info.name <+: query) :
    ¬LooksBefore query infos := by
  induction infos with
  | nil => exact id
  | cons info rest ih =>
    rintro (hfront | ⟨-, hrest⟩)
    · exact h info List.mem_cons_self hfront
    · exact ih (fun i hi => h i (List.mem_cons_of_mem _ hi)) hrest

/-- The order of groups of pairs does not matter. -/
theorem grouped_code_eq {rj : RapidJson σ} {order : Hashing} {files : Bytes → Option Bytes}
    {oasSpecs : Bytes} {methodMap : MethodMap} {doc : Json} {imp : OASValidatorImp σ}
    (h : Constructs rj order files oasSpecs methodMap doc imp)
    {method : HttpMethod} {key : Bytes} {store : ValidatorsStore σ}
    (hstore : (imp.oasValidators method).perPathValidators.lookup key = some store)
    (herrors : ∀ info ∈ store.queryParamValidators, info.validator.WritesErrors rj)
    (hrearranged : Rearranged store.queryParamValidators pairs pairs')
    (hgrouped : ∀ info ∈ store.queryParamValidators,
      Grouped store.queryParamValidators info pairs pairs') (m : Bytes) :
    codeOf (store.validateQueryParams rj (queryOf pairs) m) =
      codeOf (store.validateQueryParams rj (queryOf pairs') m) := by
  obtain ⟨hguarded, hcode⟩ := h.queryStore hstore
  rw [codeOf_eq_iff hguarded hcode herrors, cleared_iff_verdictsAgree hcode.ne_none]
  refine ⟨iff_of_false (not_looksBefore ?_) (not_looksBefore ?_), .alike ?_⟩
  · exact fun info hinfo => (hgrouped info hinfo).found_inside.1
  · exact fun info hinfo => (hgrouped info hinfo).found_inside.2
  · exact fun info hinfo => (hgrouped info hinfo).cutAlike (hrearranged.own info hinfo)

end

theorem query_code_iff_search : ∃ (doc : Json) (imp : OASValidatorImp Json)
    (store : ValidatorsStore Json),
    Constructs RapidJson.plain .insertion (fun _ => none) (searchSpec (lit "size")) [] doc imp ∧
      (imp.oasValidators .GET).perPathValidators.lookup (lit "/a") = some store ∧
      let queries := (queryOf [lit "sort=2", lit "size=1"], queryOf [lit "size=1", lit "sort=2"])
      (codeOf (store.validateQueryParams RapidJson.plain queries.1 []) =
          codeOf (store.validateQueryParams RapidJson.plain queries.2 []) ↔
        (LooksBefore queries.1 store.queryParamValidators ↔
          LooksBefore queries.2 store.queryParamValidators) ∧
        VerdictsAgree RapidJson.plain store.queryParamValidators queries.1 queries.2) := by
  have hrun : trial (searchSpec (lit "size")) (fun _ imp =>
      ((imp.oasValidators .GET).perPathValidators.lookup (lit "/a")).isSome) =
        some (.ok true) := by
    decide +kernel
  obtain ⟨doc, imp, hdoc, hsome⟩ := trial_spec hrun
  obtain ⟨store, hstore⟩ := Option.isSome_iff_exists.mp hsome
  exact ⟨doc, imp, store, hdoc, hstore, query_code_iff hdoc hstore
    (fun info _ => plain_writesErrors info.validator.toJsonValidator) _ _ []⟩

/-- An undeclared pair is cut out with the declared one that it follows. -/
theorem undeclared_pair_behind : ¬∀ (rj : RapidJson Json) (order : Hashing)
    (files : Bytes → Option Bytes) (oasSpecs : Bytes) (methodMap : MethodMap) (doc : Json)
    (imp : OASValidatorImp Json), Constructs rj order files oasSpecs methodMap doc imp →
      ∀ (method : HttpMethod) (key : Bytes) (store : ValidatorsStore Json),
        (imp.oasValidators method).perPathValidators.lookup key = some store →
        (∀ info ∈ store.queryParamValidators, info.validator.WritesErrors rj) →
        ∀ pairs pairs' : List Bytes, (∀ p ∈ pairs, ampersand ∉ p) →
          Rearranged store.queryParamValidators pairs pairs' → ∀ m : Bytes,
            codeOf (store.validateQueryParams rj (queryOf pairs) m) =
              codeOf (store.validateQueryParams rj (queryOf pairs') m) := by
  intro h
  have hrun : trial (searchSpec (lit "size")) (fun _ imp =>
      ((imp.oasValidators .GET).perPathValidators.lookup (lit "/a")).map fun store =>
        (store.queryParamValidators.all fun info =>
            belongs info (lit "size=1") && !belongs info (lit "sort=2")) &&
          decide (codeOf (store.validateQueryParams RapidJson.plain
            (queryOf [lit "size=1", lit "sort=2"]) []) = .ok .INVALID_QUERY_PARAM) &&
          decide (codeOf (store.validateQueryParams RapidJson.plain
            (queryOf [lit "sort=2", lit "size=1"]) []) = .ok .NONE)) =
        some (.ok (some true)) := by
    decide +kernel
  obtain ⟨doc, imp, hdoc, hask⟩ := trial_spec hrun
  obtain ⟨store, hstore, hask⟩ := Option.map_eq_some_iff.mp hask
  simp only [Bool.and_eq_true, List.all_eq_true, Bool.not_eq_true', decide_eq_true_eq] at hask
  obtain ⟨⟨hbelongs, hfirst⟩, hsecond⟩ := hask
  have hrearranged : Rearranged store.queryParamValidators [lit "size=1", lit "sort=2"]
      [lit "sort=2", lit "size=1"] := by
    refine ⟨List.Perm.swap _ _ _, fun info hinfo => ?_⟩
    obtain ⟨hsize, hsort⟩ := hbelongs info hinfo
    simp [hsize, hsort]
  have hsame := h _ _ _ _ _ doc imp hdoc .GET (lit "/a") store hstore
    (fun info _ => plain_writesErrors info.validator.toJsonValidator)
    [lit "size=1", lit "sort=2"] [lit "sort=2", lit "size=1"] (by decide) hrearranged []
  rw [hfirst, hsecond] at hsame
  exact nomatch hsame

end OasValidator
