import OasValidator.Deserializer.EmptyTexts
import OasValidator.Imp.Permuted

/-! Query parameters without a value.  `allowEmptyValue` is read from the specification and stored, and
no check asks for it: the name of a parameter without a value is cut out and deserialized like any
other text, and so it is refused, unless a deep object has a key for it or the text cut out goes on. -/

namespace OasValidator

open Library.Scanning ValidatorsStore Text

section

variable {σ : Type}

/-- A text that RapidJSON takes for a document is not empty, and starts with no `&`. -/
def RapidJson.NeedsValue (rj : RapidJson σ) : Prop :=
  ∀ t v, rj.parse t = .ok v → t ≠ [] ∧ t.head? ≠ some ampersand

/-- The same parameter without `required`. -/
def QueryParamValidatorInfo.optional (info : QueryParamValidatorInfo σ) :
    QueryParamValidatorInfo σ :=
  { info with validator := { info.validator with required := false } }

/-- What is known of a query parameter of an operation. -/
structure QueryParamValidatorInfo.Built (info : QueryParamValidatorInfo σ) : Prop where
  code : info.validator.codeOnError ≠ .NONE
  name : info.validator.deserializer.toBase.paramName = info.name
  starts : StartsPlain info.validator.deserializer
  key : ∀ o, info.validator.deserializer = .object o → o.kvSeparator ≠ ampersand

theorem deserializers_kept {rj : RapidJson σ} : Kept rj fun _ store => EachParam (fun v =>
    ∃ paramVal style explode refKeys,
      getDeserializer paramVal style explode refKeys = .ok v.deserializer) store where
  empty _ := by constructor <;> simp
  body _ schemaVal refKeys := by constructor <;> simp [ofBody]
  add hstore h := hstore.add (fun _ hinfo => ⟨_, _, _, _, (getParamInfo_eq_ok hinfo).2⟩) h

theorem Constructs.built {rj : RapidJson σ} {order : Hashing} {files : Bytes → Option Bytes}
    {oasSpecs : Bytes} {methodMap : MethodMap} {doc : Json} {imp : OASValidatorImp σ}
    (h : Constructs rj order files oasSpecs methodMap doc imp)
    {method : HttpMethod} {key : Bytes} {store : ValidatorsStore σ}
    (hstore : (imp.oasValidators method).perPathValidators.lookup key = some store) :
    ∀ info ∈ store.queryParamValidators, info.Built := by
  intro info hinfo
  obtain ⟨_, -, hprocess⟩ := h
  have hkeyed := (keyed_kept.processDocument hprocess method key store hstore).query info hinfo
  obtain ⟨paramVal, style, explode, refKeys, hd⟩ :=
    (deserializers_kept.processDocument hprocess method key store hstore).query info hinfo
  refine ⟨by simp [hkeyed.code], ?_, getDeserializer_startsPlain hd, fun o ho => ?_⟩
  · rw [hkeyed.keyed.paramName, hkeyed.name]
  · obtain ⟨_, explode', -, hkv, -⟩ := getDeserializer_object (ho ▸ hd)
    rw [hkv]
    cases explode' <;> decide

/-! ### The parameter -/

section

variable (rj : RapidJson σ)

/-- A deep object reads its name alone as a member with an empty key, and the schema accepts this. -/
def ReadsName (info : QueryParamValidatorInfo σ) : Prop :=
  ∃ o, info.validator.deserializer = .object o ∧ HasEmptyKey o ∧
    ∃ doc, rj.parse emptyObject = .ok doc ∧ (rj.accept info.validator.validator doc).1 = true

/-- How a parameter may pass with the pair `e`: the pair is the name alone and a deep object reads it,
with nothing behind; or undeclared pairs behind it are taken for a part of the value; or the name is
first found elsewhere. -/
inductive TakesEmpty (infos : List (QueryParamValidatorInfo σ)) (query e : Bytes)
    (info : QueryParamValidatorInfo σ) : Prop
  | name (he : e = info.name) (hcut : cutOut infos query info = some (e, false))
      (hplace : ¬Misplaced query info.name) (hread : ReadsName rj info)
  | undeclared {behind : Bytes} {on : Bool} (he : e = info.name ++ [equals])
      (hcut : cutOut infos query info = some (e ++ ampersand :: behind, on))
      (htakes : TakesAmpersand info.validator.deserializer) (hcleared : ClearedAt rj infos query info)
  | elsewhere {t : Bytes} {on : Bool} (hcut : cutOut infos query info = some (t, on)) (ht : t ≠ e)
      (hpair : ¬e ++ [ampersand] <+: t) (hcleared : ClearedAt rj infos query info)

end

variable {rj : RapidJson σ} {infos : List (QueryParamValidatorInfo σ)}
  {info : QueryParamValidatorInfo σ} {buf : Nat → UInt8} {beg end_ : Nat}

theorem EmptyTail.not_start {u : Bytes} (h : EmptyTail u) {d : Deserializer} (hd : StartsPlain d) :
    ∀ c ∈ u.head?, c ≠ d.toBase.start := by
  intro c hc
  rcases hd with hd | hd | hd <;> rw [hd] <;> rcases h.head c hc with rfl | rfl <;> decide

/-- What passes behind the name without a value. -/
theorem passes_empty (hbuilt : info.Built) (hnames : NamesItself info.validator.deserializer)
    (hneeds : rj.NeedsValue) (hle : beg ≤ end_) {u : Bytes} (hu : EmptyTail u)
    (hslice : slice buf beg end_ = info.name ++ u) {m : Bytes}
    (h : Passes (info.validator.validateParam rj buf beg end_ m)) :
    ((∃ w, u = equals :: ampersand :: w) ∧ TakesAmpersand info.validator.deserializer) ∨
      u = [] ∧ ReadsName rj info := by
  rw [validateParam_passes_iff rj hbuilt.code] at h
  obtain ⟨out, hout, doc, hdoc, haccept⟩ := h
  obtain ⟨rest, hlexer⟩ := @lexer_of_scan buf end_ ⟨beg, 0⟩ _ hle (Nat.zero_le _) out hout
  simp only [hslice, ← hbuilt.name] at hlexer
  cases lexer_empty hu (EmptyTail.not_start hu hbuilt.starts) hnames hbuilt.key hlexer with
  | behind hw htakes => exact Or.inl ⟨⟨_, hw⟩, htakes⟩
  | name hd hnil hkey hout =>
    subst hout
    exact Or.inr ⟨hnil, _, hd, hkey, doc, hdoc, haccept⟩
  | content _ hout =>
    obtain ⟨hne, hhead⟩ := hneeds _ _ hdoc
    rcases hout with rfl | hamp
    · exact absurd rfl hne
    · obtain ⟨t, rfl⟩ := List.head?_eq_some_iff.mp hamp
      exact absurd rfl hhead

/-- The name alone passes where nothing goes on behind it. -/
theorem passes_name_iff (hbuilt : info.Built) (hread : ReadsName rj info) (hne : info.name ≠ [])
    (hle : beg ≤ end_) (hslice : slice buf beg end_ = info.name) (m : Bytes) :
    Passes (info.validator.validateParam rj buf beg end_ m) ↔
      goesOn info.validator.deserializer (buf end_) = false := by
  obtain ⟨o, hd, hkey, doc, hdoc, haccept⟩ := hread
  have hname : o.paramName = info.name := by
    rw [← hbuilt.name, hd]
    rfl
  have hrun := deepObject_name hkey (hname ▸ hne) hle (hslice.trans hname.symm)
  rw [validateParam_passes_iff rj hbuilt.code, hd, Deserializer.deserialize, Deserializer.scan, hrun]
  by_cases hon : buf end_ = o.vkSeparator
  · simp [hon, goesOn]
  · have hcstr : cstr emptyObject = emptyObject := by decide
    exact iff_of_true ⟨emptyObject, if_neg hon, doc, by rwa [hcstr], haccept⟩ (by simp [goesOn, hon])

theorem name_ne_nil {query name : Bytes} (h : ¬Misplaced query name) : name ≠ [] := by
  rintro rfl
  exact h ⟨0, find_eq_zero_iff.mpr List.nil_prefix, by simp [Marked]⟩

/-- The name without a value passes exactly if the parameter takes it. -/
theorem clearedAt_empty_iff (hbuilt : info.Built)
    (hnames : NamesItself info.validator.deserializer) (hneeds : rj.NeedsValue) {query e : Bytes}
    (he : e = info.name ∨ e = info.name ++ [equals]) (hin : e <:+: query) :
    ClearedAt rj infos query info ↔ TakesEmpty rj infos query e info := by
  obtain ⟨u, hu, rfl⟩ : ∃ u, (u = [] ∨ u = [equals]) ∧ e = info.name ++ u := by
    rcases he with rfl | rfl
    · exact ⟨[], Or.inl rfl, (List.append_nil _).symm⟩
    · exact ⟨[equals], Or.inr rfl, rfl⟩
  have hmisplaced : (∀ s, find info.name query = some s → Marked query s) ↔
      ¬Misplaced query info.name := by simp [Misplaced]
  rcases cutRange_cases infos query info with ⟨hrange, -⟩ | ⟨start, end_, hrange, hle, hcut⟩
  · -- the name is found, for the pair is there
    obtain ⟨a, b, rfl⟩ := hin
    have hnone := find_eq_none_iff.mp (cutRange_eq_none_iff.mp hrange) a.length
    rw [List.append_assoc, List.drop_left] at hnone
    exact absurd ⟨u ++ b, by simp⟩ hnone
  · constructor
    · intro hcleared
      obtain ⟨hmarked, hpasses⟩ := hcleared
      rw [hrange, RangePasses] at hpasses
      by_cases hpair : slice (dataOf query) start end_ = info.name ++ u
      · have htail : EmptyTail u := hu.imp_right fun h => Or.inr (Or.inl h)
        rcases passes_empty hbuilt hnames hneeds hle htail hpair hpasses with
          ⟨⟨w, rfl⟩, -⟩ | ⟨rfl, hread⟩
        · simp at hu
        · rw [List.append_nil] at hpair ⊢
          have hne := name_ne_nil (hmisplaced.mp hmarked)
          rw [passes_name_iff hbuilt hread hne hle hpair] at hpasses
          exact .name rfl (by rw [hcut, hpair, hpasses]) (hmisplaced.mp hmarked) hread
      · by_cases hbehind : info.name ++ u ++ [ampersand] <+: slice (dataOf query) start end_
        · obtain ⟨w, hw⟩ := hbehind
          have hslice : slice (dataOf query) start end_ = info.name ++ (u ++ ampersand :: w) := by
            rw [← hw]
            simp
          have htail : EmptyTail (u ++ ampersand :: w) := by
            rcases hu with rfl | rfl
            · exact Or.inr (Or.inl rfl)
            · exact Or.inr (Or.inr (Or.inr ⟨w, rfl⟩))
          rcases passes_empty hbuilt hnames hneeds hle htail hslice hpasses with
            ⟨⟨w', hw'⟩, htakes⟩ | ⟨hnil, -⟩
          · rcases hu with rfl | rfl
            · exact absurd (List.cons_eq_cons.mp hw').1 (by decide)
            · exact .undeclared rfl (by rw [hcut, hslice, List.append_assoc]) htakes
                ⟨hmarked, by rwa [hrange]⟩
          · simp at hnil
        · exact .elsewhere hcut hpair hbehind ⟨hmarked, by rwa [hrange]⟩
    · intro htakes
      cases htakes with
      | undeclared _ _ _ hcleared => exact hcleared
      | elsewhere _ _ _ hcleared => exact hcleared
      | name he hcut' hplace hread =>
        rw [hcut, Option.some.injEq, Prod.mk.injEq, he] at hcut'
        refine ⟨hmisplaced.mpr hplace, ?_⟩
        rw [hrange]
        exact (passes_name_iff hbuilt hread (name_ne_nil hplace) hle hcut'.1 []).mpr hcut'.2

/-! ### The other parameters -/

theorem pair_infix {pairs : List Bytes} {p : Bytes} (h : p ∈ pairs) : p <:+: queryOf pairs := by
  obtain ⟨k, hk⟩ := List.getElem?_of_mem h
  obtain ⟨rest, hdrop, -⟩ := drop_pairStart hk
  have hprefix : p <+: (queryOf pairs).drop (pairStart pairs k) := ⟨rest, hdrop.symm⟩
  exact hprefix.isInfix.trans (List.drop_suffix _ _).isInfix

/-- What is cut out depends on the names of the parameters alone. -/
theorem cutRange_names {infos infos' : List (QueryParamValidatorInfo σ)}
    (h : infos.map (·.name) = infos'.map (·.name)) (query name : Bytes) :
    cutRange infos query name = cutRange infos' query name := by
  have hstarts : ∀ l : List (QueryParamValidatorInfo σ), startsOf l query =
      (query.length + 1) :: (l.map (·.name)).filterMap fun n => find n query := by
    intro l
    rw [startsOf, List.filterMap_map]
    rfl
  simp only [cutRange, hstarts, h]

theorem clearedAt_names {infos infos' : List (QueryParamValidatorInfo σ)}
    (h : infos.map (·.name) = infos'.map (·.name)) (query : Bytes)
    (info : QueryParamValidatorInfo σ) :
    ClearedAt rj infos query info ↔ ClearedAt rj infos' query info := by
  rw [ClearedAt, ClearedAt, cutRange_names h]

/-- A query that is accepted with a parameter optional clears the other ones. -/
theorem clearedAt_of_optional {store : ValidatorsStore σ}
    {before behind : List (QueryParamValidatorInfo σ)} {query m : Bytes}
    (hsplit : store.queryParamValidators = before ++ info :: behind)
    (hcode : QueryCodes store.queryParamValidators)
    (h : Passes (({ store with queryParamValidators := before ++ info.optional :: behind } :
      ValidatorsStore σ).validateQueryParams rj query m)) :
    ∀ other ∈ before ++ behind, ClearedAt rj store.queryParamValidators query other := by
  have hcode' : QueryCodes (before ++ info.optional :: behind) := by
    rw [hsplit] at hcode
    simpa [QueryCodes, QueryParamValidatorInfo.optional, or_imp, forall_and] using hcode
  have hnames : (before ++ info.optional :: behind).map (·.name) =
      store.queryParamValidators.map (·.name) := by
    rw [hsplit]
    simp [QueryParamValidatorInfo.optional]
  intro other hmem
  rw [← clearedAt_names hnames]
  refine (validateQueryParams_passes_iff_cleared rj hcode' m).mp h other ?_
  rcases List.mem_append.mp hmem with hb | hb
  · exact List.mem_append_left _ hb
  · exact List.mem_append_right _ (List.mem_cons_of_mem _ hb)

end

/-- For a parameter of an operation and a query that is accepted without its pair and with the parameter
optional: the query with the name, or the name and `=`, in any place is accepted exactly if the
parameter takes it and every other parameter that is cut out otherwise passes, whether or not the empty
value is allowed. -/
theorem empty_value_iff {σ : Type} {rj : RapidJson σ} {order : Hashing}
    {files : Bytes → Option Bytes} {oasSpecs : Bytes} {methodMap : MethodMap} {doc : Json}
    {imp : OASValidatorImp σ} (h : Constructs rj order files oasSpecs methodMap doc imp)
    (hneeds : rj.NeedsValue) {method : HttpMethod} {key : Bytes} {store : ValidatorsStore σ}
    (hstore : (imp.oasValidators method).perPathValidators.lookup key = some store)
    {before behind : List (QueryParamValidatorInfo σ)} {info : QueryParamValidatorInfo σ}
    (hsplit : store.queryParamValidators = before ++ info :: behind)
    (hnames : NamesItself info.validator.deserializer) {pairs : List Bytes}
    (haccepted : Passes (({ store with queryParamValidators := before ++ info.optional :: behind } :
      ValidatorsStore σ).validateQueryParams rj (queryOf pairs) []))
    {e : Bytes} (he : e = info.name ∨ e = info.name ++ [equals]) (k : Nat) :
    Passes (store.validateQueryParams rj (queryOf (pairs.take k ++ e :: pairs.drop k)) []) ↔
      TakesEmpty rj store.queryParamValidators (queryOf (pairs.take k ++ e :: pairs.drop k)) e info ∧
        ∀ other ∈ before ++ behind,
          ¬CutAlike store.queryParamValidators (queryOf pairs)
              (queryOf (pairs.take k ++ e :: pairs.drop k)) other →
            ClearedAt rj store.queryParamValidators
              (queryOf (pairs.take k ++ e :: pairs.drop k)) other := by
  have hbuilt := h.built hstore
  have hcode := (h.queryStore hstore).2
  have hother : ∀ other ∈ before ++ behind, other ∈ store.queryParamValidators := by
    intro other hmem
    rw [hsplit]
    exact (List.mem_append.mp hmem).elim (List.mem_append_left _) fun hb =>
      List.mem_append_right _ (List.mem_cons_of_mem _ hb)
  have hinfo : info ∈ store.queryParamValidators := by
    rw [hsplit]
    exact List.mem_append_right _ List.mem_cons_self
  have hin : e <:+: queryOf (pairs.take k ++ e :: pairs.drop k) :=
    pair_infix (List.mem_append_right _ List.mem_cons_self)
  have hcleared := clearedAt_of_optional hsplit hcode haccepted
  rw [validateQueryParams_passes_iff_cleared rj hcode,
    ← clearedAt_empty_iff (hbuilt info hinfo) hnames hneeds he hin]
  constructor
  · intro hall
    exact ⟨hall info hinfo, fun other hmem _ => hall other (hother other hmem)⟩
  · rintro ⟨hown, hrest⟩ other hmem
    rw [hsplit, List.mem_append, List.mem_cons] at hmem
    by_cases hsame : other = info
    · exact hsame ▸ hown
    · have hmem' : other ∈ before ++ behind := by
        rw [List.mem_append]
        tauto
      by_cases halike : CutAlike store.queryParamValidators (queryOf pairs)
          (queryOf (pairs.take k ++ e :: pairs.drop k)) other
      · exact halike.clearedAt (hcode.ne_none other (hother other hmem')) (hcleared other hmem')
      · exact hrest other hmem' halike

theorem plain_needsValue : RapidJson.plain.NeedsValue := by
  intro t v h
  have hparse : Library.Json.parse t = some v := by
    simp only [RapidJson.plain] at h
    split at h
    · rename_i hp
      rw [hp, Except.ok.inj h]
    · simp at h
  constructor
  · rintro rfl
    simp [Library.Json.parse, Library.Json.value, Library.Json.skipSpace] at hparse
  · intro hhead
    obtain ⟨t, rfl⟩ := List.head?_eq_some_iff.mp hhead
    have hvalue : ∀ n, Library.Json.value (n + 1) (ampersand :: t) = none := fun n => rfl
    simp [Library.Json.parse, hvalue] at hparse

/-- A specification of an operation with a query parameter whose value may be empty. -/
def flagSpec : Bytes :=
  lit "\x7b\"paths\":\x7b\"/a\":\x7b\"get\":\x7b\"parameters\":[\x7b\"name\":\"x\",\"in\":\"query\"," ++
    lit "\"allowEmptyValue\":true,\"schema\":\x7b\"type\":\"integer\"\x7d\x7d]\x7d\x7d\x7d\x7d"

theorem namesItself_of_skipName {d : Deserializer} (h : d.toBase.skipName) : NamesItself d := by
  cases d with
  | primitive d => exact h
  | array d => exact Or.inl h
  | object d => exact Or.inl h
  | content d => exact h

/-- The query `?` is accepted, and `?x=` is not. -/
theorem flagSpec_queries : ∃ (doc : Json) (imp : OASValidatorImp Json) (store : ValidatorsStore Json)
    (info : QueryParamValidatorInfo Json),
    Constructs RapidJson.plain .insertion (fun _ => none) flagSpec [] doc imp ∧
      (imp.oasValidators .GET).perPathValidators.lookup (lit "/a") = some store ∧
      store.queryParamValidators = [info] ∧ info.name = lit "x" ∧
      info.validator.emptyAllowed = true ∧ NamesItself info.validator.deserializer ∧
      Passes (({ store with queryParamValidators := [info.optional] } :
        ValidatorsStore Json).validateQueryParams RapidJson.plain (queryOf []) []) ∧
      ¬Passes (store.validateQueryParams RapidJson.plain (queryOf [lit "x="]) []) := by
  have hrun : trial flagSpec (fun _ imp =>
      ((imp.oasValidators .GET).perPathValidators.lookup (lit "/a")).bind fun store =>
        store.queryParamValidators.head?.map fun info =>
          decide (store.queryParamValidators.length = 1 ∧ info.name = lit "x" ∧
            info.validator.emptyAllowed = true ∧
            info.validator.deserializer.toBase.skipName = true ∧
            codeOf (({ store with queryParamValidators := [info.optional] } :
              ValidatorsStore Json).validateQueryParams RapidJson.plain (queryOf []) []) =
                .ok .NONE ∧
            codeOf (store.validateQueryParams RapidJson.plain (queryOf [lit "x="]) []) =
              .ok .INVALID_QUERY_PARAM)) = some (.ok (some true)) := by
    decide +kernel
  obtain ⟨doc, imp, hdoc, hask⟩ := trial_spec hrun
  obtain ⟨store, hstore, hask⟩ := Option.bind_eq_some_iff.mp hask
  obtain ⟨info, hinfo, hask⟩ := Option.map_eq_some_iff.mp hask
  obtain ⟨hlength, hname, hallowed, hskip, hfirst, hsecond⟩ := of_decide_eq_true hask
  obtain ⟨info', hinfos⟩ := List.length_eq_one_iff.mp hlength
  obtain rfl : info' = info := by simpa [hinfos] using hinfo
  refine ⟨doc, imp, store, info', hdoc, hstore, hinfos, hname, hallowed,
    namesItself_of_skipName hskip, passes_iff_codeOf.mpr hfirst, ?_⟩
  rw [passes_iff_codeOf, hsecond]
  simp

theorem empty_value_iff_flag : ∃ (doc : Json) (imp : OASValidatorImp Json)
    (store : ValidatorsStore Json) (info : QueryParamValidatorInfo Json),
    Constructs RapidJson.plain .insertion (fun _ => none) flagSpec [] doc imp ∧
      (imp.oasValidators .GET).perPathValidators.lookup (lit "/a") = some store ∧
      (Passes (store.validateQueryParams RapidJson.plain (queryOf [lit "x="]) []) ↔
        TakesEmpty RapidJson.plain store.queryParamValidators (queryOf [lit "x="]) (lit "x=") info ∧
          ∀ other ∈ ([] : List (QueryParamValidatorInfo Json)) ++ [],
            ¬CutAlike store.queryParamValidators (queryOf []) (queryOf [lit "x="]) other →
              ClearedAt RapidJson.plain store.queryParamValidators (queryOf [lit "x="]) other) := by
  obtain ⟨doc, imp, store, info, hdoc, hstore, hinfos, hname, -, hnames, haccepted, -⟩ :=
    flagSpec_queries
  exact ⟨doc, imp, store, info, hdoc, hstore, empty_value_iff hdoc plain_needsValue hstore hinfos
    hnames haccepted (Or.inr (by rw [hname]; rfl)) 0⟩

/-- An integer whose value may be empty is refused as `x=`. -/
theorem empty_value_refused : ¬∀ (rj : RapidJson Json) (order : Hashing)
    (files : Bytes → Option Bytes) (oasSpecs : Bytes) (methodMap : MethodMap) (doc : Json)
    (imp : OASValidatorImp Json), Constructs rj order files oasSpecs methodMap doc imp →
      rj.NeedsValue → ∀ (method : HttpMethod) (key : Bytes) (store : ValidatorsStore Json),
        (imp.oasValidators method).perPathValidators.lookup key = some store →
        ∀ (before behind : List (QueryParamValidatorInfo Json)) (info : QueryParamValidatorInfo Json),
          store.queryParamValidators = before ++ info :: behind →
          info.validator.emptyAllowed = true → NamesItself info.validator.deserializer →
          ∀ pairs : List Bytes,
            Passes (({ store with queryParamValidators := before ++ info.optional :: behind } :
              ValidatorsStore Json).validateQueryParams rj (queryOf pairs) []) →
            ∀ e : Bytes, e = info.name ∨ e = info.name ++ [equals] → ∀ k : Nat,
              Passes (store.validateQueryParams rj
                (queryOf (pairs.take k ++ e :: pairs.drop k)) []) := by
  intro h
  obtain ⟨doc, imp, store, info, hdoc, hstore, hinfos, hname, hallowed, hnames, haccepted, hrefused⟩ :=
    flagSpec_queries
  exact hrefused (h _ _ _ _ _ doc imp hdoc plain_needsValue .GET (lit "/a") store hstore [] [] info
    hinfos hallowed hnames [] haccepted (lit "x=") (Or.inr (by rw [hname]; rfl)) 0)

end OasValidator
