import OasValidator.Imp.Calls
import OasValidator.Validators.Pieces

/-! The error texts of calls.  All but the reports of schemas are one JSON object each, as long as what
they take over from the request and the specification needs no escape. -/

namespace OasValidator

open Library.Json Library.Table

/-! ### Validators of a specification -/

theorem getStartChar_needsNoEscape (style : ParamStyle) :
    getStartChar style ≠ 0 → NeedsNoEscape [getStartChar style] := by
  cases style <;> decide

section

variable {σ : Type} {rj : RapidJson σ}

theorem ofInfo_keyed {paramVal : Json} {defaultStyle : Bytes} {defaultExplode defaultRequired : Bool}
    {refKeys : List Bytes} {info : ParamInfo} {errCode : ValidationError} (hcode : errCode ≠ .NONE)
    (h : getParamInfo paramVal defaultStyle defaultExplode defaultRequired refKeys = .ok info) :
    (ParamValidator.ofInfo rj info refKeys errCode).Keyed ∧
      ∃ v, paramVal.get (lit "name") = .ok v ∧ v.getString = .ok info.name := by
  obtain ⟨⟨v, hv, hname⟩, hdeserializer⟩ := getParamInfo_eq_ok h
  obtain ⟨⟨v', hv', hname'⟩, style, hstart⟩ := getDeserializer_base hdeserializer
  obtain rfl : v' = v := Except.ok.inj (hv'.symm.trans hv)
  refine ⟨⟨ofKeys_keyed hcode, Except.ok.inj (hname'.symm.trans hname), ?_⟩, v', hv, hname⟩
  intro h0
  have h1 : info.deserializer.toBase.start ≠ 0 := h0
  show NeedsNoEscape [info.deserializer.toBase.start]
  rw [hstart] at h1 ⊢
  exact getStartChar_needsNoEscape style h1

theorem empty_keyed : ValidatorsStore.Keyed (σ := σ) {} where
  body := by simp
  path := by simp
  query := by simp
  header := by simp

theorem ofBody_keyed (schemaVal : Json) (refKeys : List Bytes) :
    (ValidatorsStore.ofBody rj schemaVal refKeys).Keyed where
  body := by
    intro v hv
    obtain rfl : JsonValidator.ofSchema rj schemaVal refKeys .INVALID_BODY = v := by
      simpa [ValidatorsStore.ofBody] using hv
    exact ofKeys_keyed (by simp)
  path := by simp [ValidatorsStore.ofBody]
  query := by simp [ValidatorsStore.ofBody]
  header := by simp [ValidatorsStore.ofBody]

theorem addParam_keyed {pathParamIdxs : List (Bytes × Nat)} {refKeys : List Bytes} {paramVal : Json}
    {store store' : ValidatorsStore σ} (hstore : store.Keyed)
    (h : store.addParam rj pathParamIdxs refKeys paramVal = .ok store') : store'.Keyed := by
  obtain ⟨v, name, hv, hname, hadded⟩ := ValidatorsStore.addParam_added h
  cases hadded with
  | path index built =>
    refine ⟨hstore.body, ?_, hstore.query, hstore.header⟩
    intro i hi
    rcases List.mem_append.mp hi with hi | hi
    · exact hstore.path i hi
    · obtain rfl := List.mem_singleton.mp hi
      exact (ofInfo_keyed (by simp) built).1
  | query built =>
    refine ⟨hstore.body, hstore.path, ?_, hstore.header⟩
    intro i hi
    rcases List.mem_append.mp hi with hi | hi
    · exact hstore.query i hi
    · obtain rfl := List.mem_singleton.mp hi
      have hkeyed := @ofInfo_keyed _ rj _ _ _ _ _ _ .INVALID_QUERY_PARAM (by simp) built
      obtain ⟨v', hv', hname'⟩ := hkeyed.2
      obtain rfl : v' = v := Except.ok.inj (hv'.symm.trans hv)
      exact ⟨hkeyed.1, rfl, Except.ok.inj (hname.symm.trans hname')⟩
  | header built =>
    refine ⟨hstore.body, hstore.path, hstore.query, ?_⟩
    intro p hp
    rcases mem_emplace hp with hp | ⟨-, hp⟩
    · exact hstore.header p hp
    · rw [hp]
      exact (ofInfo_keyed (by simp) built).1

theorem keyed_kept : Kept rj fun _ store => store.Keyed where
  empty _ := empty_keyed
  body _ := ofBody_keyed
  add := addParam_keyed

/-! ### Calls -/

theorem route_wellFormed {method httpPath : Bytes} (h : NeedsNoEscape method)
    (h' : NeedsNoEscape httpPath) : WellFormed .INVALID_ROUTE (invalidRoute method httpPath) := by
  have hs : NeedsNoEscape (lit "Invalid HTTP method '" ++ method ++ lit "' or path: '" ++ httpPath ++
      lit "'") := by
    simp only [needsNoEscape_append]
    exact ⟨⟨⟨⟨by decide, h⟩, by decide⟩, h'⟩, by decide⟩
  have htext := @wellFormed_of_details .INVALID_ROUTE (by simp) _ _
    (.cons (@parsesMember_blank (lit "description") _ (by decide) hs) .nil) (by simp)
  rw [commas_singleton, memberText_blank] at htext
  have hfixed : errHeaderOf .INVALID_ROUTE ++
      (lit "\"description\": \"" ++ lit "Invalid HTTP method '") =
      lit "\x7b\"errorCode\":\"INVALID_ROUTE\",\"details\":\x7b\"description\": \"Invalid HTTP method '" := by
    decide
  have hend : lit "'\"\x7d\x7d" = lit "'" ++ (lit "\"" ++ lit "\x7d\x7d") := by decide
  rw [invalidRoute, ← hfixed, hend]
  simpa only [List.append_assoc] using htext

theorem valid_needsNoEscape {method : Bytes} (h : method ∈ kValidMethods) : NeedsNoEscape method := by
  have hall : ∀ name ∈ kValidMethods, NeedsNoEscape name := by decide +kernel
  exact hall method h

/-- What the first part of the check that cannot be read takes over needs no escape. -/
def Call.Plain (rj : RapidJson σ) (order : Hashing) (found : Found) (store : ValidatorsStore σ)
    (call : Call) : Prop :=
  match call with
  | .route .. => True
  | .body _ _ jsonBody => store.BodyPlain rj jsonBody
  | .pathParam _ httpPath => store.PathPlain rj (dataOf httpPath) (found.paramIdxs.getD [])
  | .queryParam _ httpPath => store.QueryPlain rj (queryPart httpPath)
  | .headers _ _ given => store.HeadersPlain rj given order
  | .request _ httpPath =>
    store.PathPlain rj (dataOf httpPath) (found.paramIdxs.getD []) ∧
      (store.PathReads rj (dataOf httpPath) (found.paramIdxs.getD []) →
        store.QueryPlain rj (queryPart httpPath))
  | .requestBody _ httpPath jsonBody =>
    store.BodyPlain rj jsonBody ∧ (store.BodyReads rj jsonBody →
      store.PathPlain rj (dataOf httpPath) (found.paramIdxs.getD []) ∧
        (store.PathReads rj (dataOf httpPath) (found.paramIdxs.getD []) →
          store.QueryPlain rj (queryPart httpPath)))
  | .requestHeaders _ httpPath given =>
    store.PathPlain rj (dataOf httpPath) (found.paramIdxs.getD []) ∧
      (store.PathReads rj (dataOf httpPath) (found.paramIdxs.getD []) →
        store.QueryPlain rj (queryPart httpPath) ∧
          (store.QueryReads rj (queryPart httpPath) → store.HeadersPlain rj given order))
  | .requestBodyHeaders _ httpPath jsonBody given =>
    store.BodyPlain rj jsonBody ∧ (store.BodyReads rj jsonBody →
      store.PathPlain rj (dataOf httpPath) (found.paramIdxs.getD []) ∧
        (store.PathReads rj (dataOf httpPath) (found.paramIdxs.getD []) →
          store.QueryPlain rj (queryPart httpPath) ∧
            (store.QueryReads rj (queryPart httpPath) → store.HeadersPlain rj given order)))

/-- What the error text of a call takes over needs no escape: the method if it is not valid, the path
if no declared path answers it, and else what the first part of the check that cannot be read does. -/
structure PlainCall (rj : RapidJson σ) (order : Hashing) (doc : Json) (imp : OASValidatorImp σ)
    (call : Call) : Prop where
  method : call.method ∉ kValidMethods → NeedsNoEscape call.method
  route : call.method ∈ kValidMethods →
    routed order (declared doc) (pathPart call.httpPath)
      (candidates order imp.methodMap call.method) = none → NeedsNoEscape call.httpPath
  check : ∀ found method key store, imp.lookup order [] call = .ok found → found.code = .NONE →
    found.validators = some (method, key) →
    (imp.oasValidators method).perPathValidators.lookup key = some store →
    call.Plain rj order found store

/-- The checks of a call report their failures. -/
theorem check_reports (hreset : ResetRestores rj) {order : Hashing} {store : ValidatorsStore σ}
    (hrest : store.AtRest rj) (hstore : store.Keyed) {call : Call} {found : Found}
    (hplain : call.Plain rj order found store)
    (hquery : call.asks.2 → found.query = some (queryPart call.httpPath)) (errorMsg : Bytes) :
    Reports (call.check rj.lenient order found store errorMsg) := by
  have hbody := @ValidatorsStore.validateBody_reportsBy _ rj _ hstore.body
  have hpath := @ValidatorsStore.validatePathParams_reportsBy _ rj _ hstore.path
    (dataOf call.httpPath) (found.paramIdxs.getD [])
  have hqueries := @ValidatorsStore.validateQueryParams_reportsBy _ rj _ hstore.query
    (queryPart call.httpPath)
  have hheaders := ValidatorsStore.validateHeaderParams_reportsBy hreset order hrest hstore.header
  -- each check leaves the validators of the next as they were
  have hbodyKeeps := ValidatorsStore.validateBody_keeps (lenient_resetRestores hreset) hrest.lenient
  have hpathKeeps := ValidatorsStore.validatePathParams_keeps (lenient_resetRestores hreset)
    hrest.lenient (dataOf call.httpPath) (found.paramIdxs.getD [])
  have hqueryKeeps := ValidatorsStore.validateQueryParams_keeps (lenient_resetRestores hreset)
    hrest.lenient (queryPart call.httpPath)
  cases call with
  | route method httpPath => exact (ReportsBy.none errorMsg store).reports trivial
  | body method httpPath jsonBody => exact (hbody jsonBody errorMsg).reports hplain
  | pathParam method httpPath => exact (hpath errorMsg).reports hplain
  | queryParam method httpPath =>
    simp only [Call.check, hquery rfl]
    exact (hqueries errorMsg).reports hplain
  | headers method httpPath given => exact (hheaders given errorMsg).reports hplain
  | request method httpPath =>
    simp only [Call.check, hquery rfl]
    exact ((hpath errorMsg).andThen (hpathKeeps errorMsg) hqueries).reports hplain
  | requestBody method httpPath jsonBody =>
    simp only [Call.check, hquery rfl]
    exact ((hbody jsonBody errorMsg).andThen (hbodyKeeps jsonBody errorMsg) fun m =>
      (hpath m).andThen (hpathKeeps m) hqueries).reports hplain
  | requestHeaders method httpPath given =>
    simp only [Call.check, hquery rfl]
    exact ((hpath errorMsg).andThen (hpathKeeps errorMsg) fun m =>
      (hqueries m).andThen (hqueryKeeps m) (hheaders given)).reports hplain
  | requestBodyHeaders method httpPath jsonBody given =>
    simp only [Call.check, hquery rfl]
    exact ((hbody jsonBody errorMsg).andThen (hbodyKeeps jsonBody errorMsg) fun m =>
      (hpath m).andThen (hpathKeeps m) fun m =>
        (hqueries m).andThen (hqueryKeeps m) (hheaders given)).reports hplain

/-- In any run, a call whose failure is no report of a schema, so that it ends the same with
`SchemaValidator`s that refuse nothing, leaves one JSON object with the code that it returns, if what
the text takes over needs no escape. -/
theorem error_text_wellFormed {order : Hashing} {files : Bytes → Option Bytes} {oasSpecs : Bytes}
    {methodMap : MethodMap} {doc : Json} {imp last : OASValidatorImp σ}
    {answers : List (Call × ValidationError × Bytes)}
    (h : Constructs rj order files oasSpecs methodMap doc imp) (hreset : ResetRestores rj)
    (hrun : Run rj order imp answers last) {call : Call} {code : ValidationError} {errorMsg : Bytes}
    (hcode : code ≠ .NONE) (hcall : handedBack (last.answer rj order call) = .ok (code, errorMsg))
    (hlenient : handedBack (last.answer rj.lenient order call) =
      handedBack (last.answer rj order call))
    (hplain : PlainCall rj order doc last call) : WellFormed code errorMsg := by
  obtain ⟨rfl, -⟩ := (run_iff hreset h.atRest).mp hrun
  obtain ⟨hreg, -, hmethod⟩ := h.registered
  obtain ⟨c, hc, hpair⟩ := map_eq_ok_iff.mp (hlenient.trans hcall)
  obtain ⟨rfl, rfl⟩ := Prod.mk.inj hpair
  rw [OASValidatorImp.answer_eq_call, OASValidatorImp.call_eq_lookup hreg] at hc
  obtain ⟨found, hfound, hin⟩ := OASValidatorImp.lookup_registered hreg [] call
  rw [hfound] at hc
  have hcheck : last.withStore found (call.check rj.lenient order found) = .ok c := hc
  unfold OASValidatorImp.withStore at hcheck
  split at hcheck
  · rename_i hfail
    obtain rfl := Except.ok.inj hcheck
    rcases hin with ⟨hvalid, hinvalid⟩ | ⟨hvalid, hin⟩
    · have hmsg : found = ⟨.INVALID_METHOD, errHeaderOf .INVALID_METHOD ++
          lit "\"description\": \"Invalid HTTP method '" ++ call.method ++ lit "'" ++
            lit "\"\x7d\x7d", found.paramIdxs, found.query, found.validators⟩ := by
        simp only [OASValidatorImp.lookup, OASValidatorImp.getValidators, MethodValidator.validate,
          if_neg hvalid, hmethod] at hfound
        obtain rfl := Except.ok.inj hfound
        rfl
      rw [hmsg]
      exact method_wellFormed (hplain.method hvalid)
    · obtain ⟨first, -, ⟨hnone, hsame, -⟩ | ⟨-, hmsg⟩⟩ := getValidators_errorMsg hvalid hfound
      · exact absurd (hsame ▸ hnone) hfail
      · have hcodeRoute : found.code = .INVALID_ROUTE := by
          have := hin.code
          split at this
          · exact absurd this hfail
          · exact this
        have hrouted : routed order (declared doc) (pathPart call.httpPath)
            (candidates order last.methodMap call.method) = none := by
          have := hin.code
          rw [← hin.validators]
          split at this
          · exact absurd this hfail
          · rename_i hsome
            simpa using hsome
        rw [hcodeRoute, hmsg]
        exact route_wellFormed (valid_needsNoEscape hvalid) (hplain.route hvalid hrouted)
  · rename_i hnone
    have hnone : found.code = .NONE := by simpa using hnone
    obtain ⟨method, key, store, hv, hrouted, hstore⟩ :=
      OASValidatorImp.found_store hreg hfound hnone
    simp only [hv, hstore] at hcheck
    obtain ⟨d, hd, hmap⟩ := bind_eq_ok_iff.mp hcheck
    obtain rfl := Except.ok.inj hmap
    obtain ⟨hvalid, -, -⟩ := found_routed hreg hfound hnone
    have hquery : call.asks.2 → found.query = some (queryPart call.httpPath) := by
      intro hask
      unfold OASValidatorImp.lookup at hfound
      rw [if_pos hask] at hfound
      exact getValidators_query hvalid hfound
    have hkeyed : store.Keyed := keyed_kept.processDocument h.choose_spec.2 method key store hstore
    exact check_reports hreset (h.atRest method key store hstore) hkeyed
      (hplain.check found method key store hfound hnone hv hstore) hquery found.errorMsg d hd hcode

end

/-- An operation with two optional query parameters, one with a quote in its name. -/
def quotedSpec : Bytes :=
  lit "\x7b\"paths\":\x7b\"/list\":\x7b\"get\":\x7b\"parameters\":[" ++
    lit "\x7b\"name\":\"a\\\"b\",\"in\":\"query\",\"schema\":\x7b\"type\":\"integer\"\x7d\x7d," ++
    lit "\x7b\"name\":\"size\",\"in\":\"query\",\"schema\":\x7b\"type\":\"integer\"\x7d\x7d]" ++
    lit "\x7d\x7d\x7d\x7d"

/-- The place of the parameter `size` in it. -/
def sizeKeys : List Bytes := [lit "paths", lit "%2Flist", lit "get", lit "parameters", lit "size"]

def sizeMessage : Bytes := lit "Invalid 'integer' format for 'size'"

/-- What is expected of a `size` that is no integer. -/
def sizeText : Bytes :=
  (BaseValidator.ofKeys sizeKeys .INVALID_QUERY_PARAM).errHeader ++
    cstr (lit "\"description\":\"" ++ sizeMessage ++ lit "\"") ++ lit "\x7d\x7d"

def sizeDeserializer : Deserializer := .primitive ⟨⟨lit "size", 0, true⟩, .INTEGER⟩

/-- What the check of a query parameter depends on. -/
def queryParts {σ : Type} (info : QueryParamValidatorInfo σ) :
    Bytes × Bool × Deserializer × ValidationError × Bytes :=
  (info.name, info.validator.required, info.validator.deserializer, info.validator.codeOnError,
    info.validator.errHeader)

theorem deserializationException_inj {message message' : Bytes}
    (h : DeserializationException message = DeserializationException message') : message = message' := by
  have htext := DeserializeError.exception.inj h
  rwa [List.append_cancel_right_eq, List.append_cancel_left_eq] at htext

/-- The quote is in the name of a parameter that no text takes over. -/
theorem quoted_plain {store : ValidatorsStore Json} {first size : QueryParamValidatorInfo Json}
    (hinfos : store.queryParamValidators = [first, size]) (hname : first.name = lit "a\"b")
    (hoptional : first.validator.required = false)
    (hsize : queryParts size =
      (lit "size", false, sizeDeserializer, .INVALID_QUERY_PARAM,
        (BaseValidator.ofKeys sizeKeys .INVALID_QUERY_PARAM).errHeader)) :
    store.QueryPlain RapidJson.plain (lit "?size=x") := by
  simp only [queryParts, Prod.mk.injEq] at hsize
  obtain ⟨hsizeName, -, hdeserializer, hcode, hheader⟩ := hsize
  have hkeys : size.validator.toBaseValidator = .ofKeys sizeKeys .INVALID_QUERY_PARAM :=
    congrArg₂ BaseValidator.mk hcode hheader
  have hfirst : find first.name (lit "?size=x") = none := by
    rw [hname]
    decide
  have hfind : find size.name (lit "?size=x") = some 1 := by
    rw [hsizeName]
    decide
  have hcutFirst : cutRange [first, size] (lit "?size=x") first.name = none := by
    rw [cutRange, hfirst]
    rfl
  have hcutSize : cutRange [first, size] (lit "?size=x") size.name = some (.ok (1, 7)) := by
    have hstarts : startsOf [first, size] (lit "?size=x") = [8, 1] := by
      simp only [startsOf, List.filterMap_cons, hfirst, hfind, List.filterMap_nil]
      decide
    rw [cutRange, hfind, hstarts]
    decide
  rw [ValidatorsStore.QueryPlain, hinfos]
  refine ⟨⟨fun hpast => ?_, fun _ => ⟨fun hpast => ?_, fun _ => trivial⟩⟩, fun _ =>
    ⟨?_, fun _ => ⟨?_, fun _ => trivial⟩⟩⟩
  · exact absurd (Or.inl ⟨hfirst, by simp [hoptional]⟩) hpast
  · exact absurd (Or.inr ⟨1, hfind, Nat.one_pos, by decide⟩) hpast
  · rw [ValidatorsStore.QueryParamPlain, hcutFirst]
    trivial
  · rw [ValidatorsStore.QueryParamPlain, hcutSize]
    have hrun : (size.validator.deserializer.deserialize (dataOf (lit "?size=x")) 1 7).1 =
        .error (DeserializationException sizeMessage) := by
      rw [hdeserializer]
      decide
    refine ⟨fun message hmessage => ⟨?_, ?_⟩, fun t ht => ?_⟩
    · rw [hkeys, plainRef_ofKeys]
      decide
    · rw [deserializationException_inj (Except.error.inj (hmessage.symm.trans hrun))]
      decide
    · rw [hrun] at ht
      simp at ht

set_option synthInstance.maxSize 400 in
theorem error_text_wellFormed_size :
    ∃ (doc : Json) (imp : OASValidatorImp Json),
      Constructs RapidJson.plain .insertion (fun _ => none) quotedSpec [] doc imp ∧
      handedBack (imp.answer RapidJson.plain .insertion
        (.queryParam (lit "GET") (lit "/list?size=x"))) = .ok (.INVALID_QUERY_PARAM, sizeText) ∧
      WellFormed .INVALID_QUERY_PARAM sizeText := by
  let call : Call := .queryParam (lit "GET") (lit "/list?size=x")
  have hrun : trial quotedSpec (fun _ imp => decide (
      handedBack (imp.answer RapidJson.plain .insertion call) = .ok (.INVALID_QUERY_PARAM, sizeText) ∧
      handedBack (imp.answer RapidJson.plain.lenient .insertion call) =
        .ok (.INVALID_QUERY_PARAM, sizeText) ∧
      (imp.lookup .insertion [] call).map (fun found => (found.code, found.validators)) =
        .ok (.NONE, some (.GET, lit "/list")) ∧
      ((imp.oasValidators .GET).perPathValidators.lookup (lit "/list")).map (fun store =>
          store.queryParamValidators.map queryParts) =
        some [(lit "a\"b", false, .primitive ⟨⟨lit "a\"b", 0, true⟩, .INTEGER⟩,
            .INVALID_QUERY_PARAM, (BaseValidator.ofKeys (sizeKeys.dropLast ++ [lit "a\"b"])
              .INVALID_QUERY_PARAM).errHeader),
          (lit "size", false, sizeDeserializer, .INVALID_QUERY_PARAM,
            (BaseValidator.ofKeys sizeKeys .INVALID_QUERY_PARAM).errHeader)])) =
      some (.ok true) := by
    decide +kernel
  obtain ⟨doc, imp, hdoc, hask⟩ := trial_spec hrun
  obtain ⟨hcall, hlenient, hlookup, hparts⟩ := of_decide_eq_true hask
  refine ⟨doc, imp, hdoc, hcall, ?_⟩
  apply error_text_wellFormed hdoc plain_resetRestores (Run.nil imp) (by simp) hcall
    (hlenient.trans hcall.symm)
  obtain ⟨found, hfound, hmap⟩ := map_eq_ok_iff.mp hlookup
  obtain ⟨hcode, hvalidators⟩ := Prod.mk.inj hmap
  refine ⟨fun h => absurd (by decide) h, fun hvalid hnone => ?_, ?_⟩
  · obtain ⟨-, hin, -⟩ := found_routed hdoc.registered.1 hfound hcode
    exact nomatch hvalidators.symm.trans (hin.validators.trans hnone)
  · intro found' method key store hfound' _ hvalidators' hstore
    obtain rfl : found = found' := Except.ok.inj (hfound.symm.trans hfound')
    obtain ⟨rfl, rfl⟩ := Prod.mk.inj (Option.some.inj (hvalidators.symm.trans hvalidators'))
    obtain ⟨store', hstore', hinfos⟩ := Option.map_eq_some_iff.mp hparts
    obtain rfl : store = store' := Option.some.inj (hstore.symm.trans hstore')
    obtain ⟨first, rest, hcons, hfirst, hrest⟩ := List.map_eq_cons_iff.mp hinfos
    obtain ⟨size, hsize, hone⟩ := List.map_eq_singleton_iff.mp hrest
    exact quoted_plain (by rw [hcons, hsize]) (congrArg Prod.fst hfirst)
      (congrArg (fun parts => parts.2.1) hfirst) hone

/-- What is expected of the method `G"T`, which is not valid. -/
def quoteText : Bytes :=
  errHeaderOf .INVALID_METHOD ++ lit "\"description\": \"Invalid HTTP method 'G\"T'\"\x7d\x7d"

/-- The text takes over the quote of the method as it is. -/
theorem quote_in_method : ¬∀ (rj : RapidJson (Json × Option Json)) (order : Hashing)
    (files : Bytes → Option Bytes) (oasSpecs : Bytes) (methodMap : MethodMap) (doc : Json)
    (imp last : OASValidatorImp (Json × Option Json))
    (answers : List (Call × ValidationError × Bytes)) (call : Call) (code : ValidationError)
    (errorMsg : Bytes), Constructs rj order files oasSpecs methodMap doc imp → ResetRestores rj →
      Run rj order imp answers last → code ≠ .NONE →
      handedBack (last.answer rj order call) = .ok (code, errorMsg) →
      handedBack (last.answer rj.lenient order call) = handedBack (last.answer rj order call) →
        WellFormed code errorMsg := by
  intro h
  let call : Call := .route (lit "G\"T") (lit "/list")
  have hrun : (construct RapidJson.latching .insertion (fun _ => none) 60 listSpec []).map
      (fun r => r.map fun imp => decide (
        handedBack (imp.answer RapidJson.latching .insertion call) =
          .ok (.INVALID_METHOD, quoteText) ∧
        handedBack (imp.answer RapidJson.latching.lenient .insertion call) =
          .ok (.INVALID_METHOD, quoteText))) = some (.ok true) := by
    decide +kernel
  obtain ⟨r, hr, hmap⟩ := Option.map_eq_some_iff.mp hrun
  obtain ⟨imp, rfl, hask⟩ := map_eq_ok_iff.mp hmap
  obtain ⟨hcall, hlenient⟩ := of_decide_eq_true hask
  obtain ⟨doc, hdoc⟩ := constructs_iff.mpr ⟨60, hr⟩
  obtain ⟨members, hparse, -⟩ := h _ _ _ _ _ doc imp imp [] call _ _ hdoc latching_resetRestores
    (Run.nil imp) (by simp) hcall (hlenient.trans hcall.symm)
  have hnone : parse quoteText = none := by decide +kernel
  simp [hnone] at hparse

end OasValidator
