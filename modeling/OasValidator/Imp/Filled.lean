import OasValidator.Deserializer.Strings
import OasValidator.Imp.Acceptance
import OasValidator.Imp.Completeness
import OasValidator.Validators.WholeText

/-! Requests that a client writes.  The text written for a name reaches the deserializer of the parameter
of this name as it was written, wherever it stands and whatever stands around it: in the path always, in
the query where no name can be taken for another, and in the headers.  So each schema judges the value
that the client meant. -/

namespace OasValidator

open Library.Cut Library.Table Library.Scanning PathTrie ValidatorsStore

/-! ### Templates -/

/-- A segment with its parameter filled in. -/
def fillSegment (texts : Bytes → Bytes) (segment : Bytes) : Bytes :=
  ((paramName? segment).map texts).getD segment

/-- A path with its parameters filled in. -/
def fill (texts : Bytes → Bytes) (path : Bytes) : Bytes :=
  [slash].intercalate ((segments path).map (fillSegment texts))

/-- The texts for the parameters have no bytes that the path gives a meaning to; percent-encoding leaves
none. -/
def Fillable (texts : Bytes → Bytes) (path : Bytes) : Prop :=
  ∀ segment ∈ segments path, ∀ name ∈ paramName? segment,
    texts name ≠ [] ∧ slash ∉ texts name ∧ openBrace ∉ texts name

section

variable {path segment : Bytes} {i : Nat} {texts : Bytes → Bytes}

theorem segments_fill (h : Fillable texts path) :
    segments (fill texts path) = (segments path).map (fillSegment texts) := by
  refine List.splitOn_intercalate slash (fun f hf => ?_) (by simp)
  obtain ⟨segment, hsegment, rfl⟩ := List.mem_map.mp hf
  unfold fillSegment
  cases hname : paramName? segment with
  | none =>
    have hplain : ∀ f ∈ segments path, slash ∉ f := fun f hf => by
      rw [segments_eq] at hf
      split at hf
      · rcases List.mem_append.mp hf with hf | hf
        · exact sep_not_mem_of_mem_cut hf
        · simp [List.mem_singleton.mp hf]
      · exact sep_not_mem_of_mem_cut hf
    simpa using hplain segment hsegment
  | some name => simpa using (h segment hsegment name hname).2.1

theorem getElem_segments (h : (cut slash path)[i]? = some segment) :
    (segments path)[i]? = some segment := by
  rw [segments_eq]
  split
  · obtain ⟨hlt, -⟩ := List.getElem?_eq_some_iff.mp h
    rw [List.getElem?_append_left hlt, h]
  · exact h

theorem getElem_cut (h : (segments path)[i]? = some segment) (hne : segment ≠ []) :
    (cut slash path)[i]? = some segment := by
  rw [segments_eq] at h
  split at h
  · rcases Nat.lt_or_ge i (cut slash path).length with hlt | hge
    · rwa [List.getElem?_append_left hlt] at h
    · -- the segment behind the last slash is empty
      rw [List.getElem?_append_right hge] at h
      exact absurd (List.mem_singleton.mp (List.mem_of_getElem? h)) hne
  · exact h

/-- The fragment at the place of a parameter is the text that was filled in. -/
theorem cut_fill (h : Fillable texts path) {name : Bytes}
    (hi : (getPathParamIndices path).lookup name = some i) :
    (cut slash (fill texts path))[i]? = some (texts name) ∧ texts name ≠ [] ∧
      (cut slash (fill texts path))[i]? ≠ (cut slash path)[i]? := by
  have hsegment := getElem_segments (getPathParamIndices_spec hi)
  have hname : paramName? (openBrace :: name ++ [closeBrace]) = some name := by
    rw [paramName?, if_pos ⟨rfl, List.getLast?_concat⟩]
    simp
  obtain ⟨hne, -, hbrace⟩ := h _ (List.mem_of_getElem? hsegment) name hname
  have hfilled : (segments (fill texts path))[i]? = some (texts name) := by
    rw [segments_fill h, List.getElem?_map, hsegment, Option.map_some, fillSegment, hname]
    rfl
  refine ⟨getElem_cut hfilled hne, hne, ?_⟩
  rw [getElem_cut hfilled hne, getPathParamIndices_spec hi]
  intro heq
  rw [Option.some.inj heq] at hbrace
  simp at hbrace

end

/-! ### Ranges and texts -/

/-- A deserializer that does what it says on a fragment of a path. -/
structure OnFragments (d : Deserializer) : Prop where
  separator : ∀ o, d = .object o → o.vkSeparator ≠ 0 ∧ o.vkSeparator ≠ slash ∧ o.vkSeparator ≠ question

theorem getDeserializer_onFragments {paramVal : Json} {defaultStyle : Bytes} {defaultExplode : Bool}
    {refKeys : List Bytes} {d : Deserializer}
    (h : getDeserializer paramVal defaultStyle defaultExplode refKeys = .ok d) : OnFragments d where
  separator := by
    rintro o rfl
    obtain ⟨style, explode, -, -, hvk, -⟩ := getDeserializer_object h
    rw [hvk]
    cases style <;> cases explode <;> decide

/-- On a fragment of a path a deserializer does what it does with the text of the fragment alone. -/
theorem OnFragments.deserialize {d : Deserializer} (hd : OnFragments d) {httpPath dir : Bytes} {i : Nat}
    {range : ParamRange} (h : (fragments (pathPart httpPath))[i]? = some (dir, range)) (hne : dir ≠ []) :
    (d.deserialize (dataOf httpPath) range.beg range.end_).1 = deserializeText d dir := by
  obtain ⟨-, hslice⟩ := fragments_getElem h
  obtain ⟨hle, hbehind⟩ := fragment_behind h
  have hlt : range.beg < range.end_ := by
    by_contra hge
    exact hne (hslice ▸ slice_eq_nil_iff.mpr (Nat.not_lt.mp hge))
  have hscan := @scan_result (dataOf httpPath) range.end_ ⟨range.beg, 0⟩ d hle (Nat.zero_le _)
    (Or.inr hlt) fun o ho heq => by
      obtain ⟨hzero, hslash, hquestion⟩ := hd.separator o ho
      rcases hbehind with hb | hb | hb
      · exact hzero (heq.symm.trans hb)
      · exact hslash (heq.symm.trans hb)
      · exact hquestion (heq.symm.trans hb)
  rw [hslice] at hscan
  rw [deserializeText_eq (Or.inr hne) fun o ho => (hd.separator o ho).1]
  exact hscan

/-! ### The parameters of a path -/

/-- The index of a path parameter is that of its name, and its deserializer is at home in a path. -/
def PlacedBy {σ : Type} (path : Bytes) (store : ValidatorsStore σ) : Prop :=
  ∀ info ∈ store.pathParamValidators,
    (getPathParamIndices path).lookup info.validator.name = some info.idx ∧
      OnFragments info.validator.deserializer

section

variable {σ : Type} {rj : RapidJson σ}

theorem placedBy_kept : Kept rj PlacedBy where
  empty path := by simp [PlacedBy]
  body path schemaVal refKeys := by simp [PlacedBy, ofBody]
  add := by
    intro path refKeys paramVal store store' hstore h
    obtain ⟨v, name, hv, hname, hadded⟩ := addParam_added h
    cases hadded with
    | path index built =>
      intro info hinfo
      rcases List.mem_append.mp hinfo with hinfo | hinfo
      · exact hstore info hinfo
      · obtain rfl := List.mem_singleton.mp hinfo
        obtain ⟨⟨v', hv', hname'⟩, hbuilt⟩ := getParamInfo_eq_ok built
        obtain rfl := Except.ok.inj (hv'.symm.trans hv)
        refine ⟨?_, getDeserializer_onFragments hbuilt⟩
        rw [← Except.ok.inj (hname'.symm.trans hname)] at index
        exact index
    | query built => exact hstore
    | header built => exact hstore

variable {order : Hashing} {files : Bytes → Option Bytes} {oasSpecs : Bytes} {methodMap : MethodMap}
  {doc : Json} {imp : OASValidatorImp σ}

/-- A range is accepted if and only if the value that its text stands for is. -/
theorem acceptsRange_iff_value {v : ParamValidator σ} {buf : Nat → UInt8} {beg end_ : Nat}
    {out : Bytes} {value : Json} (hout : (v.deserializer.deserialize buf beg end_).1 = .ok out)
    (hvalue : rj.parse (cstr out) = .ok value) :
    v.AcceptsRange rj buf beg end_ ↔ (rj.accept v.validator value).1 = true := by
  unfold ParamValidator.AcceptsRange JsonValidator.AcceptsText
  simp [hout, hvalue]

end

/-! ### Requests -/

/-- What a client writes: a text for each name of the path, the pairs of the query, the headers and the
body. -/
structure Written where
  texts : Bytes → Bytes
  pairs : List Bytes
  headers : List (Bytes × Bytes)
  body : Bytes

/-- The values that a client means by what it writes. -/
structure Meant where
  path : Bytes → Json
  query : Bytes → Json
  header : Bytes → Json
  body : Json

/-- The query with the pairs, and none without. -/
def Written.query (w : Written) : Bytes := if w.pairs = [] then [] else queryOf w.pairs

/-- The call sends what is written, to the path filled in. -/
structure Call.Sends (call : Call) (path : Bytes) (w : Written) : Prop where
  fillable : Fillable w.texts path
  path : pathPart call.httpPath = fill w.texts path
  query : queryPart call.httpPath = w.query
  body : ∀ jsonBody ∈ call.jsonBody, jsonBody = w.body
  headers : ∀ given ∈ call.givenHeaders, given = w.headers

section

variable {σ : Type} (rj : RapidJson σ)

/-- The deserializer makes of the text a JSON text of the value. -/
def Conveys (d : Deserializer) (text : Bytes) (value : Json) : Prop :=
  ∃ out, deserializeText d text = .ok out ∧ rj.parse (cstr out) = .ok value

/-- What is written for each declared part that the call asks to be checked conveys what is meant, and
the pairs of the query cannot be taken for one another. -/
structure Call.Carries (call : Call) (store : ValidatorsStore σ) (w : Written) (m : Meant) : Prop where
  path : call.asks.1 = true → ∀ info ∈ store.pathParamValidators,
    Conveys rj info.validator.deserializer (w.texts info.validator.name) (m.path info.validator.name)
  pairs : call.asks.2 = true → Unambiguous (store.queryParamValidators.map (·.name)) w.pairs
  query : call.asks.2 = true → ∀ info ∈ store.queryParamValidators,
    SinglePair info.validator.deserializer ∧ ∀ p ∈ w.pairs, Heads info.name p →
      Conveys rj info.validator.deserializer p (m.query info.name)
  headers : call.givenHeaders.isSome → ∀ name v, store.headerParamValidators.lookup name = some v →
    ∀ text, w.headers.lookup name = some text → Conveys rj v.deserializer text (m.header name)
  body : call.jsonBody.isSome → ∀ v ∈ store.bodyValidator,
    rj.parse (cstr w.body) = .ok m.body

/-- A part that is written has a value that its schema accepts, and one that is not written is optional. -/
def Judges (written accepts : Prop) (required : Bool) : Prop :=
  (written → accepts) ∧ (¬written → required = false)

/-- What the call asks to be checked of what is meant satisfies its schemas. -/
structure Call.Satisfies (call : Call) (store : ValidatorsStore σ) (w : Written)
    (m : Meant) : Prop where
  body : call.jsonBody.isSome → ∀ v ∈ store.bodyValidator, (rj.accept v.validator m.body).1 = true
  path : call.asks.1 = true → ∀ info ∈ store.pathParamValidators,
    (rj.accept info.validator.validator (m.path info.validator.name)).1 = true
  query : call.asks.2 = true → ∀ info ∈ store.queryParamValidators,
    Judges (∃ p ∈ w.pairs, Heads info.name p)
      ((rj.accept info.validator.validator (m.query info.name)).1 = true) info.validator.required
  headers : call.givenHeaders.isSome → ∀ name v, store.headerParamValidators.lookup name = some v →
    Judges (name ∈ keys w.headers) ((rj.accept v.validator (m.header name)).1 = true) v.required

variable {rj} {store : ValidatorsStore σ} {w : Written} {m : Meant}

theorem judges_of {written accepts : Prop} {required : Bool} (h : written) :
    Judges written accepts required ↔ accepts :=
  ⟨fun hjudges => hjudges.1 h, fun haccepts => ⟨fun _ => haccepts, fun hnot => absurd h hnot⟩⟩

theorem judges_not {written accepts : Prop} {required : Bool} (h : ¬written) :
    Judges written accepts required ↔ required = false :=
  ⟨fun hjudges => hjudges.2 h, fun hoptional => ⟨fun hw => absurd hw h, fun _ => hoptional⟩⟩

theorem takesBody_iff_value
    (hbody : ∀ v ∈ store.bodyValidator, rj.parse (cstr w.body) = .ok m.body) :
    store.TakesBody rj w.body ↔
      ∀ v ∈ store.bodyValidator, (rj.accept v.validator m.body).1 = true :=
  forall₂_congr fun v hv => by simp [JsonValidator.AcceptsText, hbody v hv]

theorem takesHeaders_iff_values
    (hheaders : ∀ name v, store.headerParamValidators.lookup name = some v →
      ∀ text, w.headers.lookup name = some text → Conveys rj v.deserializer text (m.header name)) :
    store.TakesHeaders rj w.headers ↔
      ∀ name v, store.headerParamValidators.lookup name = some v →
        Judges (name ∈ keys w.headers) ((rj.accept v.validator (m.header name)).1 = true)
          v.required := by
  refine forall_congr' fun name => forall₂_congr fun v hv => ?_
  unfold ParamValidator.TakesHeader
  cases htext : w.headers.lookup name with
  | none => exact (judges_not (lookup_eq_none_iff.mp htext)).symm
  | some text =>
    obtain ⟨out, hout, hvalue⟩ := hheaders name v hv text htext
    exact (acceptsRange_iff_value hout hvalue).trans (judges_of (mem_keys_of_lookup htext)).symm

/-- In an unambiguous query each parameter is checked against its own pair. -/
theorem takesQuery_iff_values
    (hpairs : Unambiguous (store.queryParamValidators.map (·.name)) w.pairs)
    (hquery : ∀ info ∈ store.queryParamValidators,
      SinglePair info.validator.deserializer ∧ ∀ p ∈ w.pairs, Heads info.name p →
        Conveys rj info.validator.deserializer p (m.query info.name)) :
    store.TakesQuery rj w.query ↔ ∀ info ∈ store.queryParamValidators,
      Judges (∃ p ∈ w.pairs, Heads info.name p)
        ((rj.accept info.validator.validator (m.query info.name)).1 = true) info.validator.required := by
  refine forall₂_congr fun info hinfo => ?_
  obtain ⟨hsingle, hconveys⟩ := hquery info hinfo
  have hname : info.name ∈ store.queryParamValidators.map (·.name) := List.mem_map_of_mem hinfo
  unfold QueryParamValidatorInfo.Takes
  by_cases hheads : ∃ p ∈ w.pairs, Heads info.name p
  · rw [judges_of hheads]
    obtain ⟨p, hmem, hp⟩ := hheads
    obtain ⟨k, hk⟩ := List.mem_iff_getElem?.mp hmem
    obtain ⟨out, hout, hvalue⟩ := hconveys p hmem hp
    have hrun : (info.validator.deserializer.deserialize (dataOf (queryOf w.pairs))
        (pairStart w.pairs k) (pairStart w.pairs k + p.length)).1 = .ok out :=
      (deserialize_alone hsingle hk).trans hout
    have hmarked : Marked (queryOf w.pairs) (pairStart w.pairs k) :=
      ⟨_, rfl, before_pairStart (List.getElem?_eq_some_iff.mp hk).1⟩
    rw [Written.query, if_neg (List.ne_nil_of_mem hmem), hpairs.find_eq hname hk hp]
    simp only [hpairs.nextStart_eq hinfo hk hp, Except.ok.injEq, exists_eq_left',
      Nat.add_sub_cancel]
    exact (and_iff_right hmarked).trans (acceptsRange_iff_value hrun hvalue)
  · rw [judges_not hheads]
    have hinfix : ¬info.name <:+: queryOf w.pairs :=
      hpairs.absent info.name hname fun p hmem hp => hheads ⟨p, hmem, hp⟩
    have hfind : find info.name w.query = none := by
      unfold Written.query
      split
      · refine find_eq_none_iff.mpr fun j hprefix => hinfix ?_
        have hempty : info.name = [] := by simpa using hprefix
        exact hempty ▸ List.nil_infix
      · exact find_eq_none_iff.mpr (not_infix_iff.mp hinfix)
    rw [hfind]

end

/-! ### The verdict -/

section

variable {σ : Type} {rj : RapidJson σ} {order : Hashing} {files : Bytes → Option Bytes}
  {oasSpecs : Bytes} {methodMap : MethodMap} {doc : Json} {imp : OASValidatorImp σ}

/-- In a path that is filled in, each path parameter is checked against what was written for its name. -/
theorem takesPath_iff_values (h : Constructs rj order files oasSpecs methodMap doc imp)
    {httpPath : Bytes} {methods : List HttpMethod} {method : HttpMethod}
    {path : Bytes} {store : ValidatorsStore σ} {texts : Bytes → Bytes} {values : Bytes → Json}
    (hfillable : Fillable texts path) (hfilled : pathPart httpPath = fill texts path)
    (hrouted : routed order (declared doc) (pathPart httpPath) methods = some (method, path))
    (hstore : (imp.oasValidators method).perPathValidators.lookup path = some store)
    (hvalues : ∀ info ∈ store.pathParamValidators,
      Conveys rj info.validator.deserializer (texts info.validator.name) (values info.validator.name)) :
    store.TakesPath rj httpPath (recordedIn order (declared doc) (pathPart httpPath) methods) ↔
      ∀ info ∈ store.pathParamValidators,
        (rj.accept info.validator.validator (values info.validator.name)).1 = true := by
  refine forall₂_congr fun info hinfo => ?_
  obtain ⟨_, -, hprocess⟩ := h
  obtain ⟨hidx, hon⟩ := placedBy_kept.processDocument hprocess method path store hstore info hinfo
  obtain ⟨hcut, hne, hdiffers⟩ := cut_fill hfillable hidx
  obtain ⟨out, hout, hvalue⟩ := hvalues info hinfo
  rw [← hfilled] at hcut hdiffers
  have hrecorded : info.idx ∈ keys (recordedIn order (declared doc) (pathPart httpPath) methods) := by
    have hroute := (routed_spec hrouted).2
    refine (mem_keys_recordedIn hrouted _).mpr (Or.inl ?_)
    exact (mem_keys_recordedBy hroute (getPathParamIndices_spec hidx)).mpr hdiffers
  have hrange : ∀ dir range, (fragments (pathPart httpPath))[info.idx]? = some (dir, range) →
      (info.validator.AcceptsRange rj (dataOf httpPath) range.beg range.end_ ↔
        (rj.accept info.validator.validator (values info.validator.name)).1 = true) := by
    intro dir range hdir
    obtain rfl : dir = texts info.validator.name :=
      Option.some.inj ((fragments_getElem hdir).1.symm.trans hcut)
    exact acceptsRange_iff_value ((hon.deserialize hdir hne).trans hout) hvalue
  constructor
  · rintro ⟨dir, range, hdir, -, haccepts⟩
    exact (hrange dir range hdir).mp haccepts
  · intro haccepts
    rw [← fragments_fst, List.getElem?_map] at hcut
    obtain ⟨⟨dir, range⟩, hdir, -⟩ := Option.map_eq_some_iff.mp hcut
    exact ⟨dir, range, hdir, hrecorded, (hrange dir range hdir).mpr haccepts⟩

/-- A request that a client writes to a declared path, and that routes to this path, is accepted if and
only if the schemas accept the values that the client means. -/
theorem written_judged (h : Constructs rj order files oasSpecs methodMap doc imp)
    (hreset : ResetRestores rj) (errorMsg : Bytes) {call : Call}
    (hvalid : call.method ∈ kValidMethods) {method : HttpMethod} {path : Bytes}
    {store : ValidatorsStore σ} {w : Written} {m : Meant} (hsends : call.Sends path w)
    (hrouted : routed order (declared doc) (fill w.texts path)
      (candidates order (buildCaseInsensitiveMap order methodMap) call.method) = some (method, path))
    (hstore : (imp.oasValidators method).perPathValidators.lookup path = some store)
    (hcarries : call.Carries rj store w m) :
    Passes (imp.call rj order errorMsg call) ↔ call.Satisfies rj store w m := by
  rw [← hsends.path] at hrouted
  rw [call_passes_iff_meets h hreset errorMsg hvalid hrouted hstore]
  have hpath : call.asks.1 = true → (store.TakesPath rj call.httpPath _ ↔ _) := fun hasks =>
    takesPath_iff_values h hsends.fillable hsends.path hrouted hstore (hcarries.path hasks)
  have hquery : call.asks.2 = true → (store.TakesQuery rj (queryPart call.httpPath) ↔ _) := fun hasks =>
    hsends.query ▸ takesQuery_iff_values (hcarries.pairs hasks) (hcarries.query hasks)
  have hheaders : call.givenHeaders.isSome → (store.TakesHeaders rj w.headers ↔ _) := fun hsome =>
    takesHeaders_iff_values (hcarries.headers hsome)
  have hbody : call.jsonBody.isSome → (store.TakesBody rj w.body ↔ _) := fun hsome =>
    takesBody_iff_value (hcarries.body hsome)
  rw [Call.meets_iff]
  constructor
  · rintro ⟨hb, hp, hq, hh⟩
    refine ⟨fun hsome => ?_, fun hasks => (hpath hasks).mp (hp hasks),
      fun hasks => (hquery hasks).mp (hq hasks), fun hsome => ?_⟩
    · obtain ⟨jsonBody, hjson⟩ := Option.isSome_iff_exists.mp hsome
      exact (hbody hsome).mp (hsends.body jsonBody hjson ▸ hb jsonBody hjson)
    · obtain ⟨given, hgiven⟩ := Option.isSome_iff_exists.mp hsome
      exact (hheaders hsome).mp (hsends.headers given hgiven ▸ hh given hgiven)
  · rintro ⟨hb, hp, hq, hh⟩
    refine ⟨fun jsonBody hjson => ?_, fun hasks => (hpath hasks).mpr (hp hasks),
      fun hasks => (hquery hasks).mpr (hq hasks), fun given hgiven => ?_⟩
    · have hsome := Option.isSome_of_mem hjson
      exact hsends.body jsonBody hjson ▸ (hbody hsome).mpr (hb hsome)
    · have hsome := Option.isSome_of_mem hgiven
      exact hsends.headers given hgiven ▸ (hheaders hsome).mpr (hh hsome)

end

/-- A name in the path, in the query and in the headers. -/
def partsSpec : Bytes :=
  lit "\x7b\"paths\":\x7b\"/u/\x7bid\x7d\":\x7b\"get\":\x7b\"parameters\":[" ++
    lit "\x7b\"name\":\"id\",\"in\":\"path\",\"schema\":\x7b\"type\":\"string\"\x7d\x7d," ++
    lit "\x7b\"name\":\"n\",\"in\":\"query\",\"schema\":\x7b\"type\":\"string\"\x7d\x7d," ++
    lit "\x7b\"name\":\"h\",\"in\":\"header\",\"schema\":\x7b\"type\":\"string\"\x7d\x7d]\x7d\x7d\x7d\x7d"

/-- The name of each parameter and its deserializer. -/
def parts (store : ValidatorsStore Json) : List (List (Bytes × Deserializer)) :=
  [store.pathParamValidators.map fun info => (info.validator.name, info.validator.deserializer),
    store.queryParamValidators.map fun info => (info.name, info.validator.deserializer),
    store.headerParamValidators.map fun entry => (entry.1, entry.2.deserializer)]

/-- A parameter that is a string. -/
def stringPart (name : Bytes) (skipName : Bool) : Bytes × Deserializer :=
  (name, .primitive ⟨⟨name, 0, skipName⟩, .STRING⟩)

/-- The text `7` for every name, and the value it stands for where this is a string. -/
def sevens : Written where
  texts _ := lit "7"
  pairs := [lit "n=7"]
  headers := [(lit "h", lit "7")]
  body := []

def sevenValues : Meant where
  path _ := .string (lit "7")
  query _ := .string (lit "7")
  header _ := .string (lit "7")
  body := .null

theorem sevens_texts (name : Bytes) : sevens.texts name = lit "7" := rfl

theorem unambiguous_sevens : Unambiguous [lit "n"] sevens.pairs := by
  refine ⟨fun name hname hnone => ?_, fun name hname k p hk hp => ?_,
    fun name hname k p q hk hp hq => ?_⟩
  · obtain rfl := List.mem_singleton.mp hname
    exact absurd ⟨lit "7", by decide⟩ (hnone (lit "n=7") (by simp [sevens]))
  · obtain rfl := List.mem_singleton.mp hname
    rcases k with _ | k
    · decide +kernel
    · simp [sevens] at hk
  · rcases k with _ | k <;> simp [sevens] at hq

theorem sends_sevens : Call.Sends (.requestHeaders (lit "GET") (lit "/u/7?n=7") [(lit "h", lit "7")])
    (lit "/u/\x7bid\x7d") sevens where
  fillable _ _ name _ := by
    rw [sevens_texts]
    decide
  path := by decide
  query := by decide
  body _ hbody := by simp [Call.jsonBody] at hbody
  headers given hgiven := by simpa [Call.givenHeaders, sevens] using hgiven.symm

theorem parts_singletons {store : ValidatorsStore Json} (h : parts store =
    [[stringPart (lit "id") false], [stringPart (lit "n") true], [stringPart (lit "h") false]]) :
    (∃ info, store.pathParamValidators = [info] ∧ info.validator.name = lit "id" ∧
      info.validator.deserializer = (stringPart (lit "id") false).2) ∧
    (∃ info, store.queryParamValidators = [info] ∧ info.name = lit "n" ∧
      info.validator.deserializer = (stringPart (lit "n") true).2) ∧
    ∃ v, store.headerParamValidators = [(lit "h", v)] ∧
      v.deserializer = (stringPart (lit "h") false).2 := by
  simpa [parts, stringPart] using h

set_option synthInstance.maxSize 400 in
theorem written_judged_sevens : ∃ (doc : Json) (imp : OASValidatorImp Json) (store : ValidatorsStore Json),
    Constructs RapidJson.plain .insertion (fun _ => none) partsSpec [] doc imp ∧
      (imp.oasValidators .GET).perPathValidators.lookup (lit "/u/\x7bid\x7d") = some store ∧
      parts store =
        [[stringPart (lit "id") false], [stringPart (lit "n") true], [stringPart (lit "h") false]] ∧
      (Passes (imp.call RapidJson.plain .insertion [] (.requestHeaders (lit "GET") (lit "/u/7?n=7")
          [(lit "h", lit "7")])) ↔
        Call.Satisfies RapidJson.plain (.requestHeaders (lit "GET") (lit "/u/7?n=7")
          [(lit "h", lit "7")]) store sevens sevenValues) := by
  have hrun : trial partsSpec (fun doc imp => (routed .insertion (declared doc) (lit "/u/7")
      (candidates .insertion (buildCaseInsensitiveMap .insertion []) (lit "GET")),
      ((imp.oasValidators .GET).perPathValidators.lookup (lit "/u/\x7bid\x7d")).map parts)) =
      some (.ok (some (.GET, lit "/u/\x7bid\x7d"), some
        [[stringPart (lit "id") false], [stringPart (lit "n") true], [stringPart (lit "h") false]])) := by
    decide +kernel
  obtain ⟨doc, imp, hdoc, hasked⟩ := trial_spec hrun
  obtain ⟨hrouted, hstores⟩ := Prod.mk.inj hasked
  obtain ⟨store, hstore, hparts⟩ := Option.map_eq_some_iff.mp hstores
  obtain ⟨⟨_, hpath, -, hp⟩, ⟨_, hquery, hname, hq⟩, _, hheaders, hv⟩ := parts_singletons hparts
  have hfill : fill sevens.texts (lit "/u/\x7bid\x7d") = lit "/u/7" := by decide
  have hquoted : RapidJson.plain.parse (cstr (lit "\"7\"")) = .ok (.string (lit "7")) :=
    (plain_rfc8259 _ _ (nul_not_mem_cstr _)).mpr ((parse_between_quotes (lit "7")).mpr (by decide))
  have hcarries : Call.Carries RapidJson.plain (.requestHeaders (lit "GET") (lit "/u/7?n=7") [(lit "h", lit "7")])
      store sevens sevenValues := by
    refine ⟨fun _ info hinfo => ?_, fun _ => ?_, fun _ info hinfo => ?_, fun _ name' v' hv' text hgiven => ?_,
      fun hbody => absurd hbody (by decide)⟩
    · obtain rfl := List.mem_singleton.mp (hpath ▸ hinfo)
      rw [hp, sevens_texts]
      exact ⟨lit "\"7\"", by decide +kernel, hquoted⟩
    · rw [hquery, List.map_singleton, hname]
      exact unambiguous_sevens
    · obtain rfl := List.mem_singleton.mp (hquery ▸ hinfo)
      rw [hq]
      refine ⟨⟨rfl, rfl, nofun, nofun⟩, fun pair hpair _ => ?_⟩
      obtain rfl := List.mem_singleton.mp hpair
      exact ⟨lit "\"7\"", by decide +kernel, hquoted⟩
    · obtain ⟨rfl, rfl⟩ := Prod.mk.inj (List.mem_singleton.mp (hheaders ▸ mem_of_lookup hv'))
      obtain ⟨-, rfl⟩ := Prod.mk.inj (List.mem_singleton.mp (mem_of_lookup hgiven))
      rw [hv]
      exact ⟨lit "\"7\"", by decide +kernel, hquoted⟩
  rw [← hfill] at hrouted
  exact ⟨doc, imp, store, hdoc, hstore, hparts, written_judged hdoc plain_resetRestores []
    (by decide) sends_sevens hrouted hstore hcarries⟩

end OasValidator
