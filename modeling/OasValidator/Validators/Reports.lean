import OasValidator.Deserializer.Failures
import OasValidator.Validators.Store

/-! Error texts that are no report of a schema.  Such a text is put together from fixed pieces and from
pieces of the request and of the specification, which are not escaped.  It is a JSON object, with the
code that is returned, when none of these pieces needs an escape. -/

namespace OasValidator

open Library.Json Library.Table

def ValidationError.name : ValidationError → Bytes
  | .NONE => lit "NONE"
  | .INVALID_METHOD => lit "INVALID_METHOD"
  | .INVALID_ROUTE => lit "INVALID_ROUTE"
  | .INVALID_PATH_PARAM => lit "INVALID_PATH_PARAM"
  | .INVALID_QUERY_PARAM => lit "INVALID_QUERY_PARAM"
  | .INVALID_HEADER_PARAM => lit "INVALID_HEADER_PARAM"
  | .INVALID_BODY => lit "INVALID_BODY"
  | .INVALID_RSP => lit "INVALID_RSP"

/-- The text is one JSON object whose `errorCode` is the name of the code. -/
def WellFormed (code : ValidationError) (text : Bytes) : Prop :=
  ∃ members, parse text = some (.object members) ∧
    members.lookup (lit "errorCode") = some (.string code.name)

/-! ### The texts -/

/-- A string between quotes. -/
def quoted (s : Bytes) : Bytes := quote :: (s ++ [quote])

theorem parsesMember_string {name s : Bytes} (hname : NeedsNoEscape name) (hs : NeedsNoEscape s) :
    ParsesMember (memberText name (quoted s)) (name, .string s) :=
  ⟨hname, _, rfl, (reads_string hs).value.parses⟩

/-- A string with a blank in front of it. -/
theorem parsesMember_blank {name s : Bytes} (hname : NeedsNoEscape name) (hs : NeedsNoEscape s) :
    ParsesMember (memberText name (32 :: quoted s)) (name, .string s) :=
  ⟨hname, _, rfl, (reads_string hs).value.blank.parses⟩

theorem errHeaderOf_eq {code : ValidationError} (h : code ≠ .NONE) :
    errHeaderOf code = lit "\x7b" ++ memberText (lit "errorCode") (quoted code.name) ++ lit "," ++
      lit "\"details\":\x7b" := by
  cases code <;> first | exact absurd rfl h | decide

/-- A header of an error text, with members of the details behind it. -/
theorem wellFormed_of_details {code : ValidationError} (hcode : code ≠ .NONE) {texts : List Bytes}
    {ms : List (Bytes × Json)} (h : List.Forall₂ ParsesMember texts ms) (hne : texts ≠ []) :
    WellFormed code (errHeaderOf code ++ commas texts ++ lit "\x7d\x7d") := by
  have hname : NeedsNoEscape code.name := by cases code <;> decide
  have hparse := @parse_nested_object (lit "errorCode") (lit "details") _ _ _ _ (by decide)
    (by decide) (reads_string hname).value.parses h hne
  refine ⟨[(lit "errorCode", .string code.name), (lit "details", .object ms)], ?_,
    List.lookup_cons_self⟩
  rw [← hparse, errHeaderOf_eq hcode]
  congr 1
  simp [memberText, quoted, lit, quote]

/-- The header of a validator, which names the place that its keys lead to. -/
theorem wellFormed_of_header {v : BaseValidator} {refKeys : List Bytes}
    (hv : v = .ofKeys refKeys v.codeOnError) (hcode : v.codeOnError ≠ .NONE)
    (href : NeedsNoEscape (joinReference refKeys)) {texts : List Bytes} {ms : List (Bytes × Json)}
    (h : List.Forall₂ ParsesMember texts ms) (hne : texts ≠ []) :
    WellFormed v.codeOnError (v.errHeader ++ commas texts ++ lit "\x7d\x7d") := by
  have hheader : v.errHeader ++ commas texts = errHeaderOf v.codeOnError ++
      commas (memberText (lit "specRef") (quoted (joinReference refKeys)) :: texts) := by
    obtain ⟨t, ts, rfl⟩ := List.exists_cons_of_ne_nil hne
    rw [hv, commas_cons_cons]
    simp [BaseValidator.ofKeys, memberText, quoted, lit, quote]
  rw [hheader]
  exact wellFormed_of_details hcode
    (.cons (parsesMember_string (by decide) href) h) (by simp)

/-! ### Numbers -/

theorem number_toString (n : Nat) : number (toString n) = some (toString n, []) := by
  obtain ⟨c, rest, hc, hdigits, hzero⟩ := toString_digits n
  have hminus : (toString n).head? ≠ some '-'.toUInt8 := by
    rw [hc]
    intro h
    have := hdigits c (by rw [hc]; exact List.mem_cons_self)
    rw [Option.some.inj h] at this
    exact absurd this (by decide)
  have hwhole : wholePart (toString n) = some (toString n, []) := by
    by_cases hn : n = 0
    · subst hn
      decide
    · have htake : (toString n).takeWhile isDigit = toString n :=
        List.takeWhile_eq_self_iff.mpr hdigits
      have hdrop : (toString n).dropWhile isDigit = [] := List.dropWhile_eq_nil_iff.mpr hdigits
      have hne : toString n ≠ [] := by simp [hc]
      rw [hc, wholePart, if_neg (hzero hn), ← hc, digits, htake, hdrop, if_neg hne]
  simp [number, hminus, hwhole, fraction, exponent]

/-! ### One failure -/

/-- A validator of a place of the specification, with the code of an error. -/
structure Keyed (v : BaseValidator) : Prop where
  code : v.codeOnError ≠ .NONE
  header : ∃ refKeys, v = .ofKeys refKeys v.codeOnError

/-- The place needs no escape. -/
def PlainRef (v : BaseValidator) : Prop :=
  ∀ refKeys, v = .ofKeys refKeys v.codeOnError → NeedsNoEscape (joinReference refKeys)

theorem ofKeys_keyed {refKeys : List Bytes} {errCode : ValidationError} (h : errCode ≠ .NONE) :
    Keyed (.ofKeys refKeys errCode) :=
  ⟨h, refKeys, rfl⟩

theorem plainRef_ofKeys {refKeys : List Bytes} {errCode : ValidationError} :
    PlainRef (.ofKeys refKeys errCode) ↔ NeedsNoEscape (joinReference refKeys) := by
  constructor
  · intro h
    exact h refKeys rfl
  · intro h refKeys' heq
    have hheader := congrArg BaseValidator.errHeader heq
    simp only [BaseValidator.ofKeys, List.append_assoc, List.append_cancel_left_eq,
      List.append_cancel_right_eq] at hheader
    rwa [← hheader]

theorem Keyed.wellFormed {v : BaseValidator} (hv : Keyed v) (href : PlainRef v) {texts : List Bytes}
    {ms : List (Bytes × Json)} (h : List.Forall₂ ParsesMember texts ms) (hne : texts ≠ []) :
    WellFormed v.codeOnError (v.errHeader ++ commas texts ++ lit "\x7d\x7d") := by
  obtain ⟨refKeys, hkeys⟩ := hv.header
  exact wellFormed_of_header hkeys hv.code (href refKeys hkeys) h hne

theorem memberText_description (s : Bytes) :
    memberText (lit "description") (quoted s) = lit "\"description\":\"" ++ s ++ lit "\"" := by
  simp [memberText, quoted, lit, quote]

theorem memberText_blank (s : Bytes) :
    memberText (lit "description") (32 :: quoted s) = lit "\"description\": \"" ++ s ++ lit "\"" := by
  have hblank : ' '.toUInt8 = 32 := rfl
  simp [memberText, quoted, lit, quote, hblank]

theorem method_wellFormed {method : Bytes} (h : NeedsNoEscape method) :
    WellFormed .INVALID_METHOD (errHeaderOf .INVALID_METHOD ++
      lit "\"description\": \"Invalid HTTP method '" ++ method ++ lit "'" ++
        lit "\"\x7d\x7d") := by
  have hs : NeedsNoEscape (lit "Invalid HTTP method '" ++ method ++ lit "'") := by
    simp only [needsNoEscape_append]
    exact ⟨⟨by decide, h⟩, by decide⟩
  have htext := @wellFormed_of_details .INVALID_METHOD (by simp) _ _
    (.cons (@parsesMember_blank (lit "description") _ (by decide) hs) .nil) (by simp)
  rw [commas_singleton, memberText_blank] at htext
  have hfixed : lit "\"description\": \"Invalid HTTP method '" =
      lit "\"description\": \"" ++ lit "Invalid HTTP method '" := by decide
  have hend : lit "\"\x7d\x7d" = lit "\"" ++ lit "\x7d\x7d" := by decide
  simpa only [hfixed, hend, List.append_assoc] using htext

/-- A validator of a parameter, whose deserializer is for this parameter. -/
structure ParamValidator.Keyed {σ : Type} (v : ParamValidator σ) : Prop where
  keyed : OasValidator.Keyed v.toBaseValidator
  paramName : v.deserializer.toBase.paramName = v.name
  start : v.deserializer.toBase.start ≠ 0 → NeedsNoEscape [v.deserializer.toBase.start]

theorem missing_wellFormed {σ : Type} {v : ParamValidator σ} (hv : v.Keyed)
    (href : PlainRef v.toBaseValidator) (hname : NeedsNoEscape v.name) :
    WellFormed v.codeOnError v.errorOnMissing := by
  have hs : NeedsNoEscape (lit "Missing required parameter '" ++ v.name ++ lit "'") := by
    simp only [needsNoEscape_append]
    exact ⟨⟨by decide, hname⟩, by decide⟩
  have htext := hv.keyed.wellFormed href
    (.cons (@parsesMember_string (lit "description") _ (by decide) hs) .nil) (by simp)
  rw [commas_singleton, memberText_description] at htext
  have hfixed : lit "\"description\":\"Missing required parameter '" =
      lit "\"description\":\"" ++ lit "Missing required parameter '" := by decide
  have hend : lit "'\"\x7d\x7d" = lit "'" ++ (lit "\"" ++ lit "\x7d\x7d") := by decide
  rw [ParamValidator.errorOnMissing, hfixed, hend]
  simpa only [List.append_assoc] using htext

theorem misplaced_wellFormed {σ : Type} {info : QueryParamValidatorInfo σ}
    (hv : Keyed info.validator.toBaseValidator)
    (hcode : info.validator.codeOnError = .INVALID_QUERY_PARAM)
    (href : PlainRef info.validator.toBaseValidator) (hname : NeedsNoEscape info.name) :
    WellFormed .INVALID_QUERY_PARAM (ValidatorsStore.misplaced info) := by
  have hs : NeedsNoEscape (lit "Query parameter '" ++ info.name ++
      lit "' should start with '?' or '&'") := by
    simp only [needsNoEscape_append]
    exact ⟨⟨by decide, hname⟩, by decide⟩
  have htext := hv.wellFormed href
    (.cons (@parsesMember_blank (lit "description") _ (by decide) hs) .nil) (by simp)
  rw [commas_singleton, memberText_blank, hcode] at htext
  have hfixed : lit "\"description\": \"Query parameter '" =
      lit "\"description\": \"" ++ lit "Query parameter '" := by decide
  have hend : lit "' should start with '?' or '&'\"\x7d\x7d" =
      lit "' should start with '?' or '&'" ++ (lit "\"" ++ lit "\x7d\x7d") := by decide
  rw [ValidatorsStore.misplaced, hfixed, hend]
  simpa only [List.append_assoc] using htext

/-- The text of an exception becomes the description. -/
theorem exception_wellFormed {v : BaseValidator} (hv : Keyed v) (href : PlainRef v) {message : Bytes}
    (hmessage : NeedsNoEscape message) :
    WellFormed v.codeOnError (v.errHeader ++
      cstr (lit "\"description\":\"" ++ message ++ lit "\"") ++ lit "\x7d\x7d") := by
  have hzero : (0 : UInt8) ∉ message := fun h => absurd (hmessage 0 h).2.2 (by decide)
  have hcstr : cstr (lit "\"description\":\"" ++ message ++ lit "\"") =
      lit "\"description\":\"" ++ message ++ lit "\"" := by
    apply cstr_of_not_mem
    have hfixed : (0 : UInt8) ∉ lit "\"description\":\"" ∧ (0 : UInt8) ∉ lit "\"" := by decide
    simp only [List.mem_append, not_or]
    exact ⟨⟨hfixed.1, hzero⟩, hfixed.2⟩
  have htext := hv.wellFormed href
    (.cons (@parsesMember_string (lit "description") _ (by decide) hmessage) .nil) (by simp)
  rw [commas_singleton, memberText_description] at htext
  rw [hcstr]
  exact htext

/-- A parse error is reported with its text and its offset. -/
theorem parserError_wellFormed {v : BaseValidator} (hv : Keyed v) (href : PlainRef v) {text : Bytes}
    (htext : NeedsNoEscape text) (offset : Nat) :
    WellFormed v.codeOnError (v.errHeader ++ lit "\"code\":\"parserError\",\"description\":\"" ++
      text ++ lit "\",\"offset\":" ++ toString offset ++ lit "\x7d\x7d") := by
  have hcode : NeedsNoEscape (lit "parserError") := by decide
  have hoffset : ParsesMember (memberText (lit "offset") (toString offset))
      (lit "offset", .number (toString offset)) :=
    ⟨show NeedsNoEscape (lit "offset") by decide, _, rfl,
      (reads_number (number_toString offset)).value.parses⟩
  have hwell := hv.wellFormed href
    (.cons (@parsesMember_string (lit "code") _ (by decide) hcode)
      (.cons (@parsesMember_string (lit "description") _ (by decide) htext) (.cons hoffset .nil)))
    (by simp)
  rw [commas_cons_cons, commas_cons_cons, commas_singleton, memberText_description] at hwell
  have hfixed : lit "\"code\":\"parserError\",\"description\":\"" =
      memberText (lit "code") (quoted (lit "parserError")) ++
        (','.toUInt8 :: lit "\"description\":\"") := by decide
  have hnumber : lit "\"" ++ (','.toUInt8 :: memberText (lit "offset") (toString offset)) =
      lit "\",\"offset\":" ++ toString offset := by
    simp [memberText, lit, quote]
  have hjoin : memberText (lit "code") (quoted (lit "parserError")) ++ ','.toUInt8 ::
      (lit "\"description\":\"" ++ text ++ lit "\"" ++
        ','.toUInt8 :: memberText (lit "offset") (toString offset)) =
      lit "\"code\":\"parserError\",\"description\":\"" ++ text ++ lit "\",\"offset\":" ++
        toString offset := by
    rw [hfixed]
    simp only [List.append_assoc, List.cons_append]
    rw [← hnumber]
  rw [hjoin] at hwell
  simpa only [List.append_assoc] using hwell

/-! ### Checks -/

/-- The same RapidJSON with `SchemaValidator`s that refuse nothing: a check with it fails where the
check fails without a report of a schema. -/
def RapidJson.lenient {σ : Type} (rj : RapidJson σ) : RapidJson σ :=
  { rj with accept := fun validator value => (true, (rj.accept validator value).2) }

section

variable {σ : Type} {rj : RapidJson σ}

/-- A check leaves all but the `SchemaValidator` as it was. -/
theorem ParamValidator.validateParam_parts {v : ParamValidator σ} {buf : Nat → UInt8}
    {beg end_ : Nat} {errorMsg : Bytes} {c : Checked (ParamValidator σ)}
    (h : v.validateParam rj buf beg end_ errorMsg = .ok c) :
    ∃ validator, c.after = { v with validator := validator } := by
  unfold validateParam at h
  split at h
  · obtain ⟨d, hd, h⟩ := bind_eq_ok_iff.mp h
    obtain rfl := Except.ok.inj h
    obtain ⟨validator, hvalidator⟩ : ∃ validator,
        d.after = { v.toJsonValidator with validator := validator } := by
      unfold JsonValidator.validate at hd
      split at hd
      · obtain rfl := Except.ok.inj hd
        exact ⟨v.validator, rfl⟩
      · simp only at hd
        split at hd
        · obtain rfl := Except.ok.inj hd
          exact ⟨_, rfl⟩
        · obtain ⟨text, -, hd⟩ := bind_eq_ok_iff.mp hd
          obtain rfl := Except.ok.inj hd
          exact ⟨_, rfl⟩
    exact ⟨validator, by simp only [Checked.map, hvalidator]⟩
  · obtain rfl := Except.ok.inj h
    exact ⟨v.validator, rfl⟩
  · simp at h

/-! ### The checks of a store -/

/-- A validator of a query parameter, kept under the name of this parameter. -/
structure QueryParamValidatorInfo.Keyed (info : QueryParamValidatorInfo σ) : Prop where
  keyed : info.validator.toParamValidator.Keyed
  code : info.validator.codeOnError = .INVALID_QUERY_PARAM
  name : info.name = info.validator.name

/-- The validators of an operation are for their places and parameters. -/
structure ValidatorsStore.Keyed (store : ValidatorsStore σ) : Prop where
  body : ∀ v ∈ store.bodyValidator, OasValidator.Keyed v.toBaseValidator
  path : ∀ info ∈ store.pathParamValidators, info.validator.Keyed
  query : ∀ info ∈ store.queryParamValidators, info.Keyed
  header : ∀ p ∈ store.headerParamValidators, p.2.Keyed

namespace ValidatorsStore

variable {store : ValidatorsStore σ}

/-! ### What a check leaves of a store -/

theorem validateBody_after {jsonBody errorMsg : Bytes} {c : Checked (ValidatorsStore σ)}
    (h : store.validateBody rj jsonBody errorMsg = .ok c) :
    ∃ v, c.after = { store with bodyValidator := v } := by
  unfold validateBody at h
  split at h
  · obtain rfl := Except.ok.inj h
    exact ⟨store.bodyValidator, rfl⟩
  · obtain ⟨d, -, h⟩ := bind_eq_ok_iff.mp h
    obtain rfl := Except.ok.inj h
    exact ⟨_, rfl⟩

theorem validatePathParams_after {buf : Nat → UInt8} {paramIdxs : ParamIdxs} {errorMsg : Bytes}
    {c : Checked (ValidatorsStore σ)}
    (h : store.validatePathParams rj buf paramIdxs errorMsg = .ok c) :
    ∃ infos, c.after = { store with pathParamValidators := infos } := by
  obtain ⟨d, -, h⟩ := bind_eq_ok_iff.mp h
  obtain rfl := Except.ok.inj h
  exact ⟨_, rfl⟩

theorem validateQueryParams_after {query errorMsg : Bytes} {c : Checked (ValidatorsStore σ)}
    (h : store.validateQueryParams rj query errorMsg = .ok c) :
    ∃ infos, c.after = { store with queryParamValidators := infos } := by
  obtain ⟨located, -, h⟩ := bind_eq_ok_iff.mp h
  split at h
  · obtain rfl := Except.ok.inj h
    exact ⟨store.queryParamValidators, rfl⟩
  · obtain ⟨d, -, h⟩ := bind_eq_ok_iff.mp h
    obtain rfl := Except.ok.inj h
    exact ⟨_, rfl⟩

end ValidatorsStore

end

end OasValidator
