import OasValidator.Imp.Permuted

/-! Header names in another case.  A header is looked up under its declared spelling, byte by byte, so
a recasing of the names of a request keeps the code where it takes no declared spelling away and
brings none in; otherwise the two codes are the same when the declared headers are cleared by both
requests or by neither. -/

namespace OasValidator

open Library.Table ValidatorsStore

/-- The names equal each other up to case, and the values are the same. -/
def SameHeader (e e' : Bytes × Bytes) : Prop := e.1.map toLower = e'.1.map toLower ∧ e.2 = e'.2

/-- The same headers, with letters of their names in another case. -/
def Recased (headers headers' : List (Bytes × Bytes)) : Prop :=
  List.Forall₂ SameHeader headers headers'

/-- No two names are equal up to case. -/
def DistinctNames (headers : List (Bytes × Bytes)) : Prop :=
  (headers.map fun e => e.1.map toLower).Nodup

theorem Recased.lowered {headers headers' : List (Bytes × Bytes)} (h : Recased headers headers') :
    headers.map (fun e => e.1.map toLower) = headers'.map (fun e => e.1.map toLower) := by
  induction h with
  | nil => rfl
  | cons hsame _ ih => simp [hsame.1, ih]

/-- A name that both maps have stands for one value in both. -/
theorem Recased.lookup_eq {headers headers' : List (Bytes × Bytes)} (h : Recased headers headers')
    (hdistinct : DistinctNames headers) {name : Bytes} (hname : name ∈ keys headers)
    (hname' : name ∈ keys headers') : headers.lookup name = headers'.lookup name := by
  induction h with
  | nil => rfl
  | @cons e e' rest rest' hsame hrest ih =>
    obtain ⟨hhead, hdistinct⟩ := List.nodup_cons.mp hdistinct
    have hlowered : ∀ l : List (Bytes × Bytes), name ∈ keys l →
        name.map toLower ∈ l.map fun e => e.1.map toLower := fun l hmem => by
      simpa [keys] using List.mem_map_of_mem (f := fun n : Bytes => n.map toLower) hmem
    by_cases he : name = e.1
    · by_cases he' : name = e'.1
      · simp [lookup_cons_eq_if, ← he, ← he', hsame.2]
      · have hmem' : name ∈ keys rest' := (List.mem_cons.mp hname').resolve_left he'
        rw [Recased.lowered hrest] at hhead
        rw [he] at hlowered
        exact absurd (hlowered rest' (he ▸ hmem')) hhead
    · have hmem : name ∈ keys rest := (List.mem_cons.mp hname).resolve_left he
      by_cases he' : name = e'.1
      · rw [he', ← hsame.1] at hlowered
        exact absurd (hlowered rest (he' ▸ hmem)) hhead
      · have hmem' : name ∈ keys rest' := (List.mem_cons.mp hname').resolve_left he'
        rw [lookup_cons_eq_if, lookup_cons_eq_if, if_neg (by simpa using he),
          if_neg (by simpa using he')]
        exact ih hdistinct hmem hmem'

section

variable {σ : Type} {rj : RapidJson σ} {validators : List (Bytes × ParamValidator σ)}

/-- What is looked up under the declared spellings decides on the result. -/
theorem checkHeaderParams_congr {headers headers' : List (Bytes × Bytes)} {names : List Bytes}
    (h : ∀ name ∈ names, headers.lookup name = headers'.lookup name)
    (validators : List (Bytes × ParamValidator σ)) (m : Bytes) :
    checkHeaderParams rj headers names validators m =
      checkHeaderParams rj headers' names validators m := by
  induction names generalizing validators m with
  | nil => rfl
  | cons name rest ih =>
    have ih := ih fun n hn => h n (List.mem_cons_of_mem _ hn)
    simp only [checkHeaderParams, h name List.mem_cons_self, ih]

/-- The loop passes when all the headers it looks up are cleared. -/
theorem checkHeaderParams_passes_iff (hreset : ResetRestores rj) (headers : List (Bytes × Bytes))
    {names : List Bytes} (hnames : ∀ name ∈ names, name ∈ keys validators)
    (hvalidators : ∀ p ∈ validators, p.2.AtRest rj ∧ p.2.codeOnError ≠ .NONE) (m : Bytes) :
    Passes (checkHeaderParams rj headers names validators m) ↔
      ∀ name ∈ names, ∀ v, validators.lookup name = some v → HeaderCleared rj headers name v := by
  induction names generalizing m with
  | nil => simp [checkHeaderParams, Passes]
  | cons name rest ih =>
    have ih := ih fun n hn => hnames n (List.mem_cons_of_mem _ hn)
    obtain ⟨v, hv⟩ := exists_lookup (hnames name List.mem_cons_self)
    obtain ⟨hat, hcode⟩ := hvalidators _ (mem_of_lookup hv)
    simp only [List.forall_mem_cons, hv, Option.some.injEq, forall_eq']
    unfold checkHeaderParams
    rw [hv]
    cases hparam : headers.lookup name with
    | none =>
      have hcleared : HeaderCleared rj headers name v ↔ v.required = false := by
        rw [HeaderCleared, hparam]
      rw [hcleared, ← ih m]
      simp only
      split
      · rename_i hrequired
        simp [Passes, hrequired, hcode]
      · rename_i hrequired
        simp [hrequired]
    | some param =>
      have hcleared : HeaderCleared rj headers name v ↔
          Passes (v.validateParam rj (dataOf param) 0 param.length m) := by
        rw [HeaderCleared, hparam]
        exact (v.validateParam_assigns rj (dataOf param) 0 param.length [] m).passes_iff
      have hkeeps := ParamValidator.validateParam_keeps hreset hat (dataOf param) 0 param.length m
      simp only
      rw [passes_next_iff (f := fun w m => checkHeaderParams rj headers rest (put name w validators) m)
        (g := fun w => put name w validators), hcleared]
      constructor
      · rintro ⟨c, hc, hnone, hrest⟩
        rw [hkeeps c hc, put_of_lookup hv, ih] at hrest
        exact ⟨⟨c, hc, hnone⟩, hrest⟩
      · rintro ⟨⟨c, hc, hnone⟩, hrest⟩
        refine ⟨c, hc, hnone, ?_⟩
        rw [hkeeps c hc, put_of_lookup hv, ih]
        exact hrest

theorem checkHeaderParams_codes (hreset : ResetRestores rj) (headers : List (Bytes × Bytes))
    (names : List Bytes)
    (hvalidators : ∀ p ∈ validators, p.2.AtRest rj ∧ p.2.codeOnError = .INVALID_HEADER_PARAM)
    (m : Bytes) :
    Codes .INVALID_HEADER_PARAM (checkHeaderParams rj headers names validators m) := by
  induction names generalizing m with
  | nil =>
    intro c hc
    obtain rfl := Except.ok.inj hc
    exact Or.inl rfl
  | cons name rest ih =>
    unfold checkHeaderParams
    split
    · intro c hc
      simp at hc
    · rename_i v hv
      obtain ⟨hat, hcode⟩ := hvalidators _ (mem_of_lookup hv)
      split
      · split
        · intro c hc
          obtain rfl := Except.ok.inj hc
          exact Or.inr hcode
        · exact ih m
      · intro c hc
        obtain ⟨c', hc', hc⟩ := bind_eq_ok_iff.mp hc
        simp only at hc
        split at hc
        · rw [ParamValidator.validateParam_keeps hreset hat _ _ _ m c' hc', put_of_lookup hv] at hc
          exact ih _ c hc
        · obtain rfl := Except.ok.inj hc
          exact hcode ▸ ParamValidator.validateParam_codes v _ _ _ m c' hc'

/-- The validators of headers report errors of header parameters. -/
def HeaderCodes (store : ValidatorsStore σ) : Prop :=
  ∀ p ∈ store.headerParamValidators, p.2.codeOnError = .INVALID_HEADER_PARAM

theorem headerCodes_kept : Kept rj fun _ store => HeaderCodes store where
  empty _ := by simp [HeaderCodes]
  body _ _ _ := by simp [HeaderCodes, ofBody]
  add hstore h := by
    obtain ⟨_, name, -, -, hadded⟩ := addParam_added h
    cases hadded with
    | path index built => exact hstore
    | query built => exact hstore
    | header built =>
      intro p hp
      rcases mem_emplace hp with hp | ⟨-, hp⟩
      · exact hstore p hp
      · rw [hp]
        rfl

/-- The check of the headers passes when all declared headers are cleared, and fails with the code of
header parameters otherwise. -/
theorem validateHeaderParams_code (hreset : ResetRestores rj) (order : Hashing)
    {store : ValidatorsStore σ} (hguarded : Guarded rj store) (hcodes : HeaderCodes store)
    (herrors : ∀ p ∈ store.headerParamValidators, p.2.WritesErrors rj)
    (headers : List (Bytes × Bytes)) (m : Bytes) :
    (HeadersCleared rj store headers →
      codeOf (store.validateHeaderParams rj order headers m) = .ok .NONE) ∧
    (¬HeadersCleared rj store headers →
      codeOf (store.validateHeaderParams rj order headers m) = .ok .INVALID_HEADER_PARAM) := by
  obtain ⟨c, hc⟩ := (validateHeaderParams_endsBy hreset order hguarded headers m).2
    (not_headersBreak herrors order headers)
  have hpasses : Passes (store.validateHeaderParams rj order headers m) ↔
      HeadersCleared rj store headers := by
    rw [validateHeaderParams, passes_map_iff, checkHeaderParams_passes_iff hreset headers
      (fun _ hname => (order.perm _).mem_iff.mp hname)
      (fun p hp => ⟨hguarded.rest.header p hp, by simp [hcodes p hp]⟩)]
    refine ⟨fun h name v hv => h name ?_ v hv, fun h name _ v hv => h name v hv⟩
    exact (order.perm _).mem_iff.mpr (mem_keys_of_lookup hv)
  have hcode : c.code = .NONE ∨ c.code = .INVALID_HEADER_PARAM :=
    (checkHeaderParams_codes hreset headers _
      (fun p hp => ⟨hguarded.rest.header p hp, hcodes p hp⟩) m).map _ c hc
  rw [← hpasses, hc]
  refine ⟨?_, fun h => ?_⟩
  · rintro ⟨c', hc', hnone⟩
    obtain rfl := Except.ok.inj hc'
    exact congrArg Except.ok hnone
  · exact congrArg Except.ok (hcode.resolve_left fun hnone => h ⟨c, rfl, hnone⟩)

/-- A recasing of the header names of a request keeps the code if it takes no declared spelling away
and brings none in.  In general it keeps the code if and only if the declared headers are cleared by
both requests or not by both.  The trees of errors that RapidJSON makes for the headers are such that
they can be written. -/
theorem recased_code_iff {order : Hashing} {files : Bytes → Option Bytes} {oasSpecs : Bytes}
    {methodMap : MethodMap} {doc : Json} {imp : OASValidatorImp σ}
    (h : Constructs rj order files oasSpecs methodMap doc imp) (hreset : ResetRestores rj)
    {method : HttpMethod} {key : Bytes} {store : ValidatorsStore σ}
    (hstore : (imp.oasValidators method).perPathValidators.lookup key = some store)
    (herrors : ∀ p ∈ store.headerParamValidators, p.2.WritesErrors rj)
    {headers headers' : List (Bytes × Bytes)} (hrecased : Recased headers headers')
    (hdistinct : DistinctNames headers) (m : Bytes) :
    ((∀ name ∈ keys store.headerParamValidators, name ∈ keys headers ↔ name ∈ keys headers') →
      codeOf (store.validateHeaderParams rj order headers m) =
        codeOf (store.validateHeaderParams rj order headers' m)) ∧
    (codeOf (store.validateHeaderParams rj order headers m) =
        codeOf (store.validateHeaderParams rj order headers' m) ↔
      (HeadersCleared rj store headers ↔ HeadersCleared rj store headers')) := by
  obtain ⟨_, -, hprocess⟩ := h
  have hguarded := guarded_kept.processDocument hprocess method key store hstore
  have hcodes := headerCodes_kept.processDocument hprocess method key store hstore
  constructor
  · intro hspelled
    have hlookup : ∀ name ∈ order.iterate (keys store.headerParamValidators),
        headers.lookup name = headers'.lookup name := fun name hname => by
      have hiff := hspelled name ((order.perm _).mem_iff.mp hname)
      by_cases hmem : name ∈ keys headers
      · exact hrecased.lookup_eq hdistinct hmem (hiff.mp hmem)
      · rw [lookup_eq_none_iff.mpr hmem, lookup_eq_none_iff.mpr (mt hiff.mpr hmem)]
    rw [validateHeaderParams, validateHeaderParams, checkHeaderParams_congr hlookup]
  · obtain ⟨hpass, hfail⟩ :=
      validateHeaderParams_code hreset order hguarded hcodes herrors headers m
    obtain ⟨hpass', hfail'⟩ :=
      validateHeaderParams_code hreset order hguarded hcodes herrors headers' m
    by_cases hcleared : HeadersCleared rj store headers
    · by_cases hcleared' : HeadersCleared rj store headers'
      · simp [hpass hcleared, hpass' hcleared', hcleared, hcleared']
      · simp [hpass hcleared, hfail' hcleared', hcleared, hcleared']
    · by_cases hcleared' : HeadersCleared rj store headers'
      · simp [hfail hcleared, hpass' hcleared', hcleared, hcleared']
      · simp [hfail hcleared, hfail' hcleared', hcleared, hcleared']

end

/-- An operation with a required header. -/
def headerSpec : Bytes :=
  lit "\x7b\"paths\":\x7b\"/a\":\x7b\"get\":\x7b\"parameters\":[\x7b\"name\":\"X-Id\",\"in\":" ++
    lit "\"header\",\"required\":true,\"schema\":\x7b\"type\":\"integer\"\x7d\x7d]\x7d\x7d\x7d\x7d"

theorem recased_id (value : Bytes) : Recased [(lit "X-Id", value)] [(lit "x-id", value)] := by
  have hlowered : (lit "X-Id").map toLower = (lit "x-id").map toLower := by decide
  exact .cons ⟨hlowered, rfl⟩ .nil

theorem recased_code_iff_id : ∃ (doc : Json) (imp : OASValidatorImp Json)
    (store : ValidatorsStore Json),
    Constructs RapidJson.plain .insertion (fun _ => none) headerSpec [] doc imp ∧
      (imp.oasValidators .GET).perPathValidators.lookup (lit "/a") = some store ∧
      let headers := ([(lit "X-Id", lit "1")], [(lit "x-id", lit "1")])
      ((∀ name ∈ keys store.headerParamValidators, name ∈ keys headers.1 ↔ name ∈ keys headers.2) →
        codeOf (store.validateHeaderParams RapidJson.plain .insertion headers.1 []) =
          codeOf (store.validateHeaderParams RapidJson.plain .insertion headers.2 [])) ∧
      (codeOf (store.validateHeaderParams RapidJson.plain .insertion headers.1 []) =
          codeOf (store.validateHeaderParams RapidJson.plain .insertion headers.2 []) ↔
        (HeadersCleared RapidJson.plain store headers.1 ↔
          HeadersCleared RapidJson.plain store headers.2)) := by
  have hrun : trial headerSpec (fun _ imp =>
      ((imp.oasValidators .GET).perPathValidators.lookup (lit "/a")).isSome) =
        some (.ok true) := by
    decide +kernel
  obtain ⟨doc, imp, hdoc, hsome⟩ := trial_spec hrun
  obtain ⟨store, hstore⟩ := Option.isSome_iff_exists.mp hsome
  exact ⟨doc, imp, store, hdoc, hstore, recased_code_iff hdoc plain_resetRestores hstore
    (fun p _ => plain_writesErrors p.2.toJsonValidator) (recased_id _) (by simp [DistinctNames]) []⟩

/-- A required header that is there in lower case is reported as missing. -/
theorem lower_case_header_missing : ¬∀ (rj : RapidJson Json) (order : Hashing)
    (files : Bytes → Option Bytes) (oasSpecs : Bytes) (methodMap : MethodMap) (doc : Json)
    (imp : OASValidatorImp Json), Constructs rj order files oasSpecs methodMap doc imp →
      ResetRestores rj → ∀ (method : HttpMethod) (key : Bytes) (store : ValidatorsStore Json),
        (imp.oasValidators method).perPathValidators.lookup key = some store →
        (∀ p ∈ store.headerParamValidators, p.2.WritesErrors rj) →
        ∀ headers headers' : List (Bytes × Bytes), Recased headers headers' →
          DistinctNames headers → ∀ m : Bytes,
            codeOf (store.validateHeaderParams rj order headers m) =
              codeOf (store.validateHeaderParams rj order headers' m) := by
  intro h
  have hrun : trial headerSpec (fun _ imp =>
      ((imp.oasValidators .GET).perPathValidators.lookup (lit "/a")).map fun store =>
        (codeOf (store.validateHeaderParams RapidJson.plain .insertion [(lit "X-Id", lit "1")] []),
          codeOf (store.validateHeaderParams RapidJson.plain .insertion
            [(lit "x-id", lit "1")] []))) =
        some (.ok (some (.ok .NONE, .ok .INVALID_HEADER_PARAM))) := by
    decide +kernel
  obtain ⟨doc, imp, hdoc, hask⟩ := trial_spec hrun
  obtain ⟨store, hstore, hask⟩ := Option.map_eq_some_iff.mp hask
  have hsame := h _ _ _ _ _ doc imp hdoc plain_resetRestores .GET (lit "/a") store
    hstore (fun p _ => plain_writesErrors p.2.toJsonValidator) _ _ (recased_id (lit "1")) (by simp [DistinctNames]) []
  obtain ⟨hnone, hinvalid⟩ := Prod.mk.inj hask
  rw [hnone, hinvalid] at hsame
  exact nomatch hsame

end OasValidator
