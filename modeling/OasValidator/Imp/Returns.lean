import OasValidator.Imp.Calls
import OasValidator.Imp.Captured
import OasValidator.Validators.Returns
import OasValidator.Validators.Verdict

/-! Calls that return.  A call on a validator as the constructor builds it lets no exception out, and
hands back a code unless it looks at the byte in front of the query, or a schema rejects a value with a
tree of errors that the code cannot go through. -/

namespace OasValidator

open Library.Cut Library.Table PathTrie ValidatorsStore

/-! ### Validators of a specification -/

section

variable {σ : Type} {rj : RapidJson σ}

theorem guarded_kept : Kept rj fun _ store => Guarded rj store where
  empty _ := ⟨ValidatorsStore.empty_atRest, by constructor <;> simp⟩
  body _ schemaVal refKeys :=
    ⟨ValidatorsStore.ofBody_atRest schemaVal refKeys, by constructor <;> simp [ofBody]⟩
  add hstore h := ⟨ValidatorsStore.addParam_atRest hstore.rest h,
    hstore.starts.add (fun _ hinfo => getParamInfo_startsPlain hinfo) h⟩

/-! ### Ranges -/

/-- A fragment of a request path ends at a slash, at the query or with the request path. -/
theorem fragment_behind {httpPath dir : Bytes} {i : Nat} {range : ParamRange}
    (h : (fragments (pathPart httpPath))[i]? = some (dir, range)) :
    range.beg ≤ range.end_ ∧ (dataOf httpPath range.end_ = 0 ∨ dataOf httpPath range.end_ = slash ∨
      dataOf httpPath range.end_ = question) := by
  obtain ⟨before, behind, hpath, hslash, rfl⟩ := ranged_getElem h
  have hhttp : httpPath = (before ++ dir) ++ (behind ++ queryPart httpPath) := by
    rw [← List.append_assoc, ← hpath]
    exact List.takeWhile_append_dropWhile.symm
  have hbyte : dataOf httpPath (0 + before.length + dir.length) =
      ((behind ++ queryPart httpPath).head?).getD 0 := by
    have hlength : 0 + before.length + dir.length = (before ++ dir).length := by simp
    rw [hlength, dataOf, hhttp, List.getD_eq_getElem?_getD, List.getElem?_append_right (le_refl _),
      Nat.sub_self, ← hhttp, List.head?_eq_getElem?]
  have hquery : ∀ b ∈ (queryPart httpPath).head?, b = question := by
    intro b hb
    have hdrop := List.head?_dropWhile_not (fun b => b ≠ question) httpPath
    rw [show httpPath.dropWhile (fun b => b ≠ question) = queryPart httpPath from rfl,
      Option.mem_def.mp hb] at hdrop
    simpa using hdrop
  refine ⟨by simp, ?_⟩
  show dataOf httpPath (0 + before.length + dir.length) = 0 ∨ _
  rw [hbyte, List.head?_append]
  cases hhead : behind.head? with
  | some b => exact Or.inr (Or.inl (hslash b hhead))
  | none =>
    cases hhead' : (queryPart httpPath).head? with
    | some b => exact Or.inr (Or.inr (hquery b hhead'))
    | none => exact Or.inl rfl

theorem fragment_bounded {httpPath dir : Bytes} {i : Nat} {range : ParamRange}
    (h : (fragments (pathPart httpPath))[i]? = some (dir, range)) :
    Bounded (dataOf httpPath) range.beg range.end_ := by
  obtain ⟨hle, hbehind⟩ := fragment_behind h
  exact ⟨hle, hbehind.imp_right (Or.imp_right Or.inl)⟩

end

/-! ### Checks -/

namespace Call

section

variable {σ : Type} (rj : RapidJson σ) (order : Hashing)

/-- The first check of the call that does not pass breaks. -/
def Breaks (found : Found) (store : ValidatorsStore σ) : Call → Prop
  | .route .. => False
  | .body _ _ jsonBody => store.BodyBreaks rj jsonBody
  | .pathParam _ httpPath => store.PathBreaks rj (dataOf httpPath) (found.paramIdxs.getD [])
  | .queryParam _ httpPath => store.QueryBreaks rj (queryPart httpPath)
  | .headers _ _ given => store.HeadersBreak rj order given
  | .request _ httpPath =>
    store.PathBreaks rj (dataOf httpPath) (found.paramIdxs.getD []) ∨
      Passes (store.validatePathParams rj (dataOf httpPath) (found.paramIdxs.getD []) []) ∧
        store.QueryBreaks rj (queryPart httpPath)
  | .requestBody _ httpPath jsonBody =>
    store.BodyBreaks rj jsonBody ∨ Passes (store.validateBody rj jsonBody []) ∧
      (store.PathBreaks rj (dataOf httpPath) (found.paramIdxs.getD []) ∨
        Passes (store.validatePathParams rj (dataOf httpPath) (found.paramIdxs.getD []) []) ∧
          store.QueryBreaks rj (queryPart httpPath))
  | .requestHeaders _ httpPath given =>
    store.PathBreaks rj (dataOf httpPath) (found.paramIdxs.getD []) ∨
      Passes (store.validatePathParams rj (dataOf httpPath) (found.paramIdxs.getD []) []) ∧
        (store.QueryBreaks rj (queryPart httpPath) ∨
          Passes (store.validateQueryParams rj (queryPart httpPath) []) ∧
            store.HeadersBreak rj order given)
  | .requestBodyHeaders _ httpPath jsonBody given =>
    store.BodyBreaks rj jsonBody ∨ Passes (store.validateBody rj jsonBody []) ∧
      (store.PathBreaks rj (dataOf httpPath) (found.paramIdxs.getD []) ∨
        Passes (store.validatePathParams rj (dataOf httpPath) (found.paramIdxs.getD []) []) ∧
          (store.QueryBreaks rj (queryPart httpPath) ∨
            Passes (store.validateQueryParams rj (queryPart httpPath) []) ∧
              store.HeadersBreak rj order given))

end

end Call

section

variable {σ : Type} {rj : RapidJson σ} {order : Hashing} {store : ValidatorsStore σ}

/-- The check of a call, on ranges of fragments and on the query of the request. -/
theorem check_endsBy (hreset : ResetRestores rj) (hstore : Guarded rj store) {found : Found} (call : Call)
    (hranges : ∀ p ∈ found.paramIdxs.getD [], Bounded (dataOf call.httpPath) p.2.beg p.2.end_)
    (hquery : call.asks.2 → found.query = some (queryPart call.httpPath)) (errorMsg : Bytes) :
    EndsBy (call.Breaks rj order found store) (call.check rj order found store errorMsg) := by
  have hrest := hstore.rest
  have hbody := fun jsonBody => @validateBody_endsBy _ rj store jsonBody
  have hheaders := validateHeaderParams_endsBy hreset order hstore
  have hends := validateQueryParams_endsBy hstore
  have hbodyKeeps := validateBody_keeps hreset hrest
  have hpathKeeps := fun buf idxs m => validatePathParams_keeps hreset hrest buf idxs m
  have hqueryKeeps := fun query m => validateQueryParams_keeps hreset hrest query m
  have hbodyPasses : ∀ jsonBody m, Passes (store.validateBody rj jsonBody m) ↔
      Passes (store.validateBody rj jsonBody []) := fun jsonBody m =>
    (validateBody_assigns rj store jsonBody m []).passes_iff
  have hpathPasses : ∀ buf idxs m, Passes (store.validatePathParams rj buf idxs m) ↔
      Passes (store.validatePathParams rj buf idxs []) := fun buf idxs m =>
    (validatePathParams_assigns rj store buf idxs m []).passes_iff
  have hqueryPasses : ∀ query m, Passes (store.validateQueryParams rj query m) ↔
      Passes (store.validateQueryParams rj query []) := fun query m =>
    (validateQueryParams_assigns rj store query m []).passes_iff
  cases call with
  | route method httpPath => exact .ok _
  | body method httpPath jsonBody => exact hbody jsonBody errorMsg
  | pathParam method httpPath => exact validatePathParams_endsBy hstore hranges errorMsg
  | queryParam method httpPath =>
    simp only [Call.check, hquery rfl, Option.getD_some]
    exact hends _ errorMsg
  | headers method httpPath given => exact hheaders given errorMsg
  | request method httpPath =>
    have hpath := validatePathParams_endsBy hstore hranges
    simp only [Call.check, hquery rfl, Option.getD_some]
    refine ((hpath errorMsg).andThen (hpathKeeps _ _ errorMsg) fun m => hends _ m).congr ?_
    exact or_congr_right (and_congr_left' (hpathPasses _ _ _))
  | requestBody method httpPath jsonBody =>
    have hpath := validatePathParams_endsBy hstore hranges
    simp only [Call.check, hquery rfl, Option.getD_some]
    refine ((hbody jsonBody errorMsg).andThen (hbodyKeeps jsonBody errorMsg) fun m =>
      ((hpath m).andThen (hpathKeeps _ _ m) fun m => hends _ m).congr
        (or_congr_right (and_congr_left' (hpathPasses _ _ _)))).congr ?_
    exact or_congr_right (and_congr_left' (hbodyPasses _ _))
  | requestHeaders method httpPath given =>
    have hpath := validatePathParams_endsBy hstore hranges
    simp only [Call.check, hquery rfl, Option.getD_some]
    refine ((hpath errorMsg).andThen (hpathKeeps _ _ errorMsg) fun m =>
      ((hends _ m).andThen (hqueryKeeps _ m) (hheaders given)).congr
        (or_congr_right (and_congr_left' (hqueryPasses _ _)))).congr ?_
    exact or_congr_right (and_congr_left' (hpathPasses _ _ _))
  | requestBodyHeaders method httpPath jsonBody given =>
    have hpath := validatePathParams_endsBy hstore hranges
    simp only [Call.check, hquery rfl, Option.getD_some]
    refine ((hbody jsonBody errorMsg).andThen (hbodyKeeps jsonBody errorMsg) fun m =>
      ((hpath m).andThen (hpathKeeps _ _ m) fun m =>
        ((hends _ m).andThen (hqueryKeeps _ m) (hheaders given)).congr
          (or_congr_right (and_congr_left' (hqueryPasses _ _)))).congr
            (or_congr_right (and_congr_left' (hpathPasses _ _ _)))).congr ?_
    exact or_congr_right (and_congr_left' (hbodyPasses _ _))

/-! ### Calls -/

/-- The call finds the validators of an operation, and breaks there. -/
def CallBreaks (rj : RapidJson σ) (order : Hashing) (imp : OASValidatorImp σ) (errorMsg : Bytes)
    (call : Call) : Prop :=
  ∃ found method key store, imp.lookup order errorMsg call = .ok found ∧ found.code = .NONE ∧
    found.validators = some (method, key) ∧
    (imp.oasValidators method).perPathValidators.lookup key = some store ∧
    call.Breaks rj order found store

variable {imp : OASValidatorImp σ} {paths : HttpMethod → List Bytes}

/-- The ranges that a call passes on are those of fragments. -/
theorem lookup_bounded (himp : Registered imp paths) {errorMsg : Bytes} {call : Call} {found : Found}
    (h : imp.lookup order errorMsg call = .ok found) (hcode : found.code = .NONE) :
    ∀ p ∈ found.paramIdxs.getD [], Bounded (dataOf call.httpPath) p.2.beg p.2.end_ := by
  intro p hp
  by_cases hasks : call.asks.1
  · rw [OASValidatorImp.lookup, if_pos hasks] at h
    obtain ⟨dir, hdir⟩ := recorded_getElem himp h hp
    exact fragment_bounded hdir
  · obtain ⟨-, hin, -⟩ := found_routed himp h hcode
    have hidxs : found.paramIdxs = none := by
      simpa [hasks] using hin.paramIdxs
    simp [hidxs] at hp

theorem call_endsBy (hreset : ResetRestores rj) (himp : Registered imp paths)
    (hguarded : imp.Has fun _ store => Guarded rj store) (errorMsg : Bytes) (call : Call) :
    EndsBy (CallBreaks rj order imp errorMsg call) (imp.call rj order errorMsg call) := by
  obtain ⟨found, hfound, -⟩ :=
    @OASValidatorImp.lookup_registered σ order imp paths himp errorMsg call
  have hrun : imp.call rj order errorMsg call = imp.withStore found (call.check rj order found) := by
    rw [OASValidatorImp.call_eq_lookup himp, hfound]
    rfl
  rw [hrun]
  by_cases hcode : found.code = .NONE
  · obtain ⟨method, key, store, hvalidators, -, hstore⟩ :=
      OASValidatorImp.found_store himp hfound hcode
    obtain ⟨hvalid, -, -⟩ := found_routed himp hfound hcode
    have hquery : call.asks.2 → found.query = some (queryPart call.httpPath) := by
      intro hasks
      rw [OASValidatorImp.lookup, if_pos hasks] at hfound
      exact getValidators_query hvalid hfound
    have hcheck := @check_endsBy σ rj order store hreset
      (hguarded method key store hstore) found call (lookup_bounded himp hfound hcode) hquery
      found.errorMsg
    have hbreaks : call.Breaks rj order found store ↔ CallBreaks rj order imp errorMsg call := by
      constructor
      · intro h
        exact ⟨found, method, key, store, hfound, hcode, hvalidators, hstore, h⟩
      · rintro ⟨found', method', key', store', hfound', -, hvalidators', hstore', h⟩
        obtain rfl : found = found' := Except.ok.inj (hfound.symm.trans hfound')
        obtain ⟨rfl, rfl⟩ := Prod.mk.inj (Option.some.inj (hvalidators.symm.trans hvalidators'))
        obtain rfl : store = store' := Option.some.inj (hstore.symm.trans hstore')
        exact h
    simp only [OASValidatorImp.withStore, hcode, hvalidators, hstore, ne_eq, not_true_eq_false,
      if_false]
    exact (hcheck.map _).congr hbreaks
  · have hbreaks : ¬CallBreaks rj order imp errorMsg call := by
      rintro ⟨found', -, -, -, hfound', hcode', -⟩
      obtain rfl : found = found' := Except.ok.inj (hfound.symm.trans hfound')
      exact hcode hcode'
    rw [OASValidatorImp.withStore, if_pos hcode]
    exact (EndsBy.ok _).congr (iff_of_false not_false hbreaks)

end

section

variable {σ : Type} {rj : RapidJson σ} {order : Hashing} {files : Bytes → Option Bytes}
  {oasSpecs : Bytes} {methodMap : MethodMap} {doc : Json} {imp last : OASValidatorImp σ}
  {answers : List (Call × ValidationError × Bytes)}

/-- Behind any run of calls on a constructed validator, no exception leaves a call, and a call hands
back a code exactly if it does not break. -/
theorem call_returns_iff (h : Constructs rj order files oasSpecs methodMap doc imp)
    (hreset : ResetRestores rj) (hrun : Run rj order imp answers last) (errorMsg : Bytes)
    (call : Call) :
    (∀ x, last.call rj order errorMsg call = .error x → x = .undefined) ∧
      (Returns (last.call rj order errorMsg call) ↔ ¬CallBreaks rj order last errorMsg call) := by
  obtain ⟨rfl, -⟩ := (run_iff hreset h.atRest).mp hrun
  have hguarded : last.Has fun _ store => Guarded rj store := by
    obtain ⟨_, -, hprocess⟩ := h
    exact guarded_kept.processDocument hprocess
  obtain ⟨hbreaks, hreturns⟩ :=
    @call_endsBy σ rj order last _ hreset h.registered.1 hguarded errorMsg call
  by_cases hin : CallBreaks rj order last errorMsg call
  · rw [hbreaks hin]
    refine ⟨fun x hx => (Except.error.inj hx).symm, iff_of_false ?_ (not_not.mpr hin)⟩
    rintro ⟨c, hc⟩
    simp at hc
  · have hreturn := hreturns hin
    refine ⟨fun x hx => ?_, iff_of_true hreturn hin⟩
    obtain ⟨c, hc⟩ := hreturn
    simp [hx] at hc

end

/-- A specification of an operation with a query parameter. -/
def searchSpec (name : Bytes) : Bytes :=
  lit "\x7b\"paths\":\x7b\"/a\":\x7b\"get\":\x7b\"parameters\":[\x7b\"name\":\"" ++ name ++
    lit "\",\"in\":\"query\",\"schema\":\x7b\"type\":\"integer\"\x7d\x7d]\x7d\x7d\x7d\x7d"

/-- The code of a call, or that none is handed back. -/
def codeOf {τ : Type} : Except Fault (Checked τ) → Except Fault ValidationError :=
  Except.map Checked.code

theorem passes_iff_codeOf {τ : Type} {r : Except Fault (Checked τ)} :
    Passes r ↔ codeOf r = .ok .NONE := by
  cases r with
  | error x => simp [Passes, codeOf, Except.map]
  | ok c => simp [Passes, codeOf, Except.map]

theorem call_returns_iff_search :
    ∃ (doc : Json) (imp : OASValidatorImp Json),
      Constructs RapidJson.plain .insertion (fun _ => none) (searchSpec (lit "x")) [] doc imp ∧
      let call := Call.queryParam (lit "GET") (lit "/a?x=1")
      (∀ x, imp.call RapidJson.plain .insertion [] call = .error x → x = .undefined) ∧
        (Returns (imp.call RapidJson.plain .insertion [] call) ↔
          ¬CallBreaks RapidJson.plain .insertion imp [] call) := by
  have hrun : trial (searchSpec (lit "x")) (fun _ imp =>
      codeOf (imp.call RapidJson.plain .insertion [] (.queryParam (lit "GET") (lit "/a?x=1")))) =
        some (.ok (.ok .NONE)) := by
    decide +kernel
  obtain ⟨doc, imp, hdoc, -⟩ := trial_spec hrun
  exact ⟨doc, imp, hdoc, call_returns_iff hdoc plain_resetRestores (Run.nil imp) _ _⟩

/-! ### A tree that cannot be written -/

namespace RapidJson

/-- `AddError`: the first error of a keyword stands alone, and the second one makes an array of it.  An
array that is added to another error is pushed into the array. -/
def addError (keyword : Bytes) (error : Json) (tree : List (Bytes × Json)) : List (Bytes × Json) :=
  match tree.lookup keyword with
  | none => tree ++ [(keyword, error)]
  | some (.array errors) => put keyword (.array (errors ++ [error])) tree
  | some first => put keyword (.array [first, error]) tree

def mergeError (other tree : List (Bytes × Json)) : List (Bytes × Json) :=
  other.foldl (fun tree m => addError m.1 m.2 tree) tree

/-- The members of the tree of errors for a value of a schema with `type` and `patternProperties`, where
the patterns are plain texts: the first thing that is wrong ends the check, but all patterns that a name
has are checked. -/
def violations : Nat → Json → Json → Bytes → Bytes → List (Bytes × Json)
  | 0, _, _, _, _ => []
  | depth + 1, schema, value, instanceRef, schemaRef =>
    let keyword (name : Bytes) := ((membersOf schema).lookup name).getD .null
    if ¬hasType schema value then
      [(lit "type", .object [(lit "expected", .array [keyword (lit "type")]),
        (lit "actual", .string (typeName value)), (lit "errorCode", .number (lit "20")),
        (lit "instanceRef", .string instanceRef), (lit "schemaRef", .string schemaRef)])]
    else
      let violationsOf (m : Bytes × Json) : List (Bytes × Json) :=
        (membersOf (keyword (lit "patternProperties"))).foldl
          (fun tree p =>
            if find p.1 m.1 = none then tree
            else mergeError (violations depth p.2 m.2 (instanceRef ++ lit "/" ++ m.1)
              (schemaRef ++ lit "/patternProperties/" ++ p.1)) tree) []
      (((membersOf value).map violationsOf).find? fun tree => tree ≠ []).getD []

/-- RapidJSON as far as schemas with `type` and `patternProperties` go, for values of few levels. -/
def patterned : RapidJson (Json × List (Bytes × Json)) where
  parse := plain.parse
  getParseError_En := plain.getParseError_En
  schemaValidator schema := (schema, [])
  accept state value :=
    let tree := violations 9 state.1 value (lit "#") (lit "#")
    (tree.isEmpty, state.1, tree)
  getError state := .object state.2
  reset state := (state.1, [])
  getInt := latching.getInt
  getValidateError_En := latching.getValidateError_En
  numberToString := plain.numberToString

end RapidJson

theorem patterned_resetRestores : ResetRestores RapidJson.patterned := fun _ _ => rfl

/-- A specification of an operation whose body schema has patterns in patterns. -/
def patternsSpec : Bytes :=
  let inner := lit "\x7b\"patternProperties\":\x7b\"x\":\x7b\"type\":\"integer\"\x7d," ++
    lit "\"y\":\x7b\"type\":\"integer\"\x7d\x7d\x7d"
  lit "\x7b\"paths\":\x7b\"/list\":\x7b\"put\":\x7b\"requestBody\":\x7b\"content\":" ++
    lit "\x7b\"application/json\":\x7b\"schema\":\x7b\"patternProperties\":\x7b\"a\":" ++ inner ++
    lit ",\"b\":" ++ inner ++ lit "\x7d\x7d\x7d\x7d\x7d\x7d\x7d\x7d\x7d"

/-- Two patterns of a name lead to errors of two patterns each, so that an array of errors stands in an
array of errors, and the code reads the members of an array. -/
theorem nested_patterns_break : ¬∀ (rj : RapidJson (Json × List (Bytes × Json))) (order : Hashing)
    (files : Bytes → Option Bytes) (oasSpecs : Bytes) (methodMap : MethodMap) (doc : Json)
    (imp : OASValidatorImp (Json × List (Bytes × Json))),
    Constructs rj order files oasSpecs methodMap doc imp → ResetRestores rj →
      ∀ (errorMsg : Bytes) (call : Call), Returns (imp.call rj order errorMsg call) := by
  intro h
  have hrun : (construct RapidJson.patterned .insertion (fun _ => none) 60 patternsSpec []).map
      (fun r => r.map fun imp => codeOf (imp.call RapidJson.patterned .insertion []
        (.body (lit "PUT") (lit "/list") (lit "\x7b\"ab\":\x7b\"xy\":\"s\"\x7d\x7d")))) =
        some (.ok (.error .undefined)) := by
    decide +kernel
  obtain ⟨r, hr, hmap⟩ := Option.map_eq_some_iff.mp hrun
  obtain ⟨imp, rfl, hcall⟩ := map_eq_ok_iff.mp hmap
  obtain ⟨doc, hdoc⟩ := constructs_iff.mpr ⟨60, hr⟩
  obtain ⟨c, hc⟩ := h _ _ _ _ _ doc imp hdoc patterned_resetRestores []
    (.body (lit "PUT") (lit "/list") (lit "\x7b\"ab\":\x7b\"xy\":\"s\"\x7d\x7d"))
  rw [hc] at hcall
  exact nomatch hcall

end OasValidator
