import OasValidator.Deserializer.Meaning
import OasValidator.Deserializer.Words
import OasValidator.Validators.Verdict

/-! Scalars against JSON.  A parameter of type `boolean`, `integer` or `number` without a prefix is
scanned before it is parsed, and the scanner hands on what it accepts as it is.  What it rejects and
the schema accepts are numbers with an exponent, and `null` where the schema is nullable. -/

namespace OasValidator

open Library.Json Library.Scanning Library.Table BaseDeserializer Text

/-! ### What RapidJSON is taken to do -/

def IsScalar : Json → Prop
  | .null | .bool _ | .number _ => True
  | _ => False

/-- The values of a type that a schema can name, with the `null` of a nullable schema. -/
def ofType : PrimitiveType → Json → Bool
  | _, .null => true
  | .BOOLEAN, .bool _ => true
  | .INTEGER, .number w => point ∉ w ∧ 'e'.toUInt8 ∉ w ∧ 'E'.toUInt8 ∉ w
  | .NUMBER, .number _ => true
  | .STRING, .string _ => true
  | _, _ => false

section

variable {σ : Type}

/-- RapidJSON reads literals and numbers as RFC 8259 writes them. -/
def RapidJson.Standard (rj : RapidJson σ) : Prop :=
  ∀ t v, IsScalar v → (rj.parse t = .ok v ↔ Library.Json.parse t = some v)

/-- The schema accepts values of the type alone, as one does that names the type and has no `$ref` to
another document beside it. -/
def RapidJson.KeepsTo (rj : RapidJson σ) (schema : Json) (type : PrimitiveType) : Prop :=
  ∀ v, (rj.accept (rj.schemaValidator schema) v).1 = true → ofType type v

/-- The text is a JSON text whose value the schema accepts. -/
def SchemaAccepts (rj : RapidJson σ) (schema : Json) (t : Bytes) : Prop :=
  ∃ v, rj.parse t = .ok v ∧ (rj.accept (rj.schemaValidator schema) v).1 = true

/-- The three ways in which a parameter of a specification gets its validator. -/
def Built (rj : RapidJson σ) (paramVal : Json) (refKeys : List Bytes) (v : ParamValidator σ) : Prop :=
  ParamValidator.ofPath rj paramVal refKeys = .ok v ∨
    ParamValidator.ofHeader rj paramVal refKeys = .ok v ∨
    ∃ q, QueryParamValidator.ofQuery rj paramVal refKeys = .ok q ∧ q.toParamValidator = v

/-! ### The validator of a scalar -/

theorem hasMember_of_get {v w : Json} {name : Bytes} (h : v.get name = .ok w) :
    v.hasMember name = .ok true := by
  obtain ⟨members, hmembers, hw⟩ := bind_eq_ok_iff.mp h
  simp only [Json.hasMember, hmembers, bind, Except.bind]
  cases hlookup : members.lookup name with
  | none => simp [hlookup, throw, throwThe, MonadExceptOf.throw] at hw
  | some w => rfl

/-- The type of a schema among all that a schema can name. -/
def extended : PrimitiveType → ExtendedType
  | .BOOLEAN => .BOOLEAN
  | .INTEGER => .INTEGER
  | .NUMBER => .NUMBER
  | .STRING => .STRING

theorem tableAt_extended {typeName : Bytes} {type : PrimitiveType}
    (h : PRIMITIVE_TYPE_MAP.lookup typeName = some type) :
    tableAt EXTENDED_TYPE_MAP (cstr typeName) = .ok (extended type) := by
  have hall : ∀ p ∈ PRIMITIVE_TYPE_MAP, tableAt EXTENDED_TYPE_MAP (cstr p.1) = .ok (extended p.2) := by
    decide
  exact hall _ (mem_of_lookup h)

section

variable {paramVal schema : Json} {refKeys : List Bytes} {typeName : Bytes} {type : PrimitiveType}
  (hschema : paramVal.get (lit "schema") = .ok schema)
  (htypeName : schema.get (lit "type") = .ok (.string typeName))
  (htype : PRIMITIVE_TYPE_MAP.lookup typeName = some type)

include hschema htypeName htype

/-- A parameter with a schema of a scalar type gets a primitive deserializer. -/
theorem getDeserializer_scalar {style0 : Bytes} {explode0 : Bool} {d : Deserializer}
    (h : getDeserializer paramVal style0 explode0 refKeys = .ok d) :
    ∃ b, d = .primitive ⟨b, type⟩ := by
  have hhas : hasSchemaType paramVal = .ok true := by
    simp only [hasSchemaType, hasMember_of_get hschema, hschema, bind, Except.bind, if_true,
      hasMember_of_get htypeName]
  simp only [getDeserializer, hhas, bind_eq_ok_iff, Except.ok.injEq] at h
  obtain ⟨_, -, paramName, -, _, -, in_, -, explode, -, _, -, style, -, _, rfl, h⟩ := h
  simp only [if_true, getTypedDeserializer, bind_eq_ok_iff, hschema,
    Except.ok.injEq] at h
  obtain ⟨_, rfl, tv, htv, name, hname, ext, hext, h⟩ := h
  obtain rfl : Value.string typeName = tv := Except.ok.inj (htypeName.symm.trans htv)
  obtain rfl : cstr typeName = name := Except.ok.inj hname
  obtain rfl : extended type = ext := Except.ok.inj ((tableAt_extended htype).symm.trans hext)
  cases type <;> exact ⟨_, (Except.ok.inj h).symm⟩

/-- It validates against this schema, with an error code of parameters. -/
theorem built_scalar {rj : RapidJson σ} {v : ParamValidator σ} (h : Built rj paramVal refKeys v) :
    (∃ b, v.deserializer = .primitive ⟨b, type⟩) ∧ v.validator = rj.schemaValidator schema ∧
      v.codeOnError ≠ .NONE := by
  have hinfo : ∀ {style0 : Bytes} {explode0 required0 : Bool} {info : ParamInfo},
      getParamInfo paramVal style0 explode0 required0 refKeys = .ok info →
        (∃ b, info.deserializer = .primitive ⟨b, type⟩) ∧ info.schema = schema := by
    intro style0 explode0 required0 info hinfo
    simp only [getParamInfo, hasMember_of_get hschema, hschema, bind_eq_ok_iff,
      Except.ok.injEq] at hinfo
    obtain ⟨_, -, name, -, required, -, _, rfl, hinfo⟩ := hinfo
    simp only [if_true, bind_eq_ok_iff, Except.ok.injEq] at hinfo
    obtain ⟨_, rfl, d, hd, hinfo⟩ := hinfo
    obtain rfl := Except.ok.inj hinfo
    exact ⟨getDeserializer_scalar hschema htypeName htype hd, rfl⟩
  rcases h with h | h | ⟨q, h, rfl⟩
  · obtain ⟨info, hi, h⟩ := bind_eq_ok_iff.mp h
    obtain rfl := Except.ok.inj h
    obtain ⟨hd, rfl⟩ := hinfo hi
    exact ⟨hd, rfl, by simp [ParamValidator.ofInfo, JsonValidator.ofSchema, BaseValidator.ofKeys]⟩
  · obtain ⟨info, hi, h⟩ := bind_eq_ok_iff.mp h
    obtain rfl := Except.ok.inj h
    obtain ⟨hd, rfl⟩ := hinfo hi
    exact ⟨hd, rfl, by simp [ParamValidator.ofInfo, JsonValidator.ofSchema, BaseValidator.ofKeys]⟩
  · obtain ⟨info, hi, h⟩ := bind_eq_ok_iff.mp h
    obtain ⟨emptyAllowed, -, h⟩ := bind_eq_ok_iff.mp h
    obtain rfl := Except.ok.inj h
    obtain ⟨hd, rfl⟩ := hinfo hi
    exact ⟨hd, rfl, by simp [ParamValidator.ofInfo, JsonValidator.ofSchema, BaseValidator.ofKeys]⟩

end

/-! ### The scanners -/

/-- What a primitive deserializer without a prefix does to a text. -/
theorem primitive_plain {b : BaseDeserializer} {type : PrimitiveType} (hstart : b.start = 0)
    (hname : b.skipName = false) (t : Bytes) :
    primitive ⟨b, type⟩ t = (data b >>= fun _ => value b (fun _ => false) [] type >>= fun ret =>
      finish b >>= fun _ => pure ret) t := by
  simp [primitive, Lexer.bind_apply, startChar, hstart, hname]

theorem finish_eq_ok {b : BaseDeserializer} {t rest : Bytes} {u : Unit}
    (h : finish b t = .ok (u, rest)) : t = [] := by
  unfold finish at h
  split at h
  · assumption
  · simp at h

/-- A scanned boolean, integer or number is handed on as it is. -/
theorem primitive_unchanged {b : BaseDeserializer} {type : PrimitiveType} (hstart : b.start = 0)
    (hname : b.skipName = false) (hstring : type ≠ .STRING) {t out rest : Bytes}
    (h : primitive ⟨b, type⟩ t = .ok (out, rest)) : out = t ∧ Writes t t type := by
  rw [primitive_plain hstart hname] at h
  simp only [Lexer.bind_eq_ok_iff] at h
  obtain ⟨_, mid, hdata, ret, mid', hvalue, _, mid'', hfinish, hpure⟩ := h
  obtain ⟨-, rfl⟩ := data_eq_ok hdata
  obtain ⟨word, piece, ht, hret, hwrites, -⟩ := value_eq_ok hvalue
  obtain rfl := finish_eq_ok hfinish
  obtain ⟨rfl, -⟩ : ret = out ∧ mid'' = rest := by simpa using hpure
  have hword : mid = word := by simpa using ht
  have hpiece : piece = word := by
    cases type with
    | STRING => exact absurd rfl hstring
    | _ => exact hwrites.2
  rw [hword]
  exact ⟨by rw [hret, hpiece]; rfl, hpiece ▸ hwrites⟩

/-- The word of a value that can be sent is scanned. -/
theorem primitive_sendable {b : BaseDeserializer} {type : PrimitiveType} (hstart : b.start = 0)
    (hname : b.skipName = false) {v : Json} (hv : Sendable type v) :
    ∃ out rest, primitive ⟨b, type⟩ (wordOf v) = .ok (out, rest) := by
  have hends : Ends (fun _ => false) [] type := by cases type <;> simp [Ends]
  have hvalue := @value_word b (fun _ => false) type v [] hv (fun _ _ _ _ => rfl) hends []
  rw [List.append_nil] at hvalue
  have hdata : data b (wordOf v) = .ok ((), wordOf v) := by
    simp [data, wordOf_ne_nil hv]
  refine ⟨[] ++ pieceOf v, [], ?_⟩
  rw [primitive_plain hstart hname, Lexer.bind_apply, hdata]
  simp only [Lexer.bind_apply, hvalue, finish, if_true, Lexer.pure_apply]

/-! ### Verdicts -/

/-- The value of a text without space is one that is sent, unless the text is `null` or has an
exponent. -/
theorem sendable_of_parse {t : Bytes} {v : Json} {type : PrimitiveType} (hstring : type ≠ .STRING)
    (hspace : ∀ c ∈ t, isSpace c = false) (hparse : Library.Json.parse t = some v)
    (hv : ofType type v) (hnull : t ≠ nullWord)
    (hexponent : type = .NUMBER → 'e'.toUInt8 ∉ t ∧ 'E'.toUInt8 ∉ t) :
    Sendable type v ∧ wordOf v = t := by
  have htext := parse_scalarText hspace hparse
  cases v with
  | null => exact absurd htext hnull
  | bool b =>
    have hword : wordOf (.bool b) = t := by
      rw [show t = if b then trueWord else falseWord from htext]
      rfl
    cases type with
    | BOOLEAN => exact ⟨trivial, hword⟩
    | _ => simp [ofType] at hv
  | number w =>
    obtain ⟨rfl, hnumber⟩ := htext
    cases type with
    | INTEGER =>
      have hplain := of_decide_eq_true hv
      exact ⟨⟨plainDecimal_iff.mpr ⟨hnumber, hplain.2⟩, hplain.1⟩, rfl⟩
    | NUMBER => exact ⟨plainDecimal_iff.mpr ⟨hnumber, hexponent rfl⟩, rfl⟩
    | STRING => exact absurd rfl hstring
    | BOOLEAN => simp [ofType] at hv
  | _ => cases type <;> simp_all [ofType]

/-- What the scanners accept is not `null` and has no exponent. -/
theorem writes_plain {t : Bytes} {type : PrimitiveType} (hstring : type ≠ .STRING)
    (h : Writes t t type) :
    t ≠ nullWord ∧ (type = .NUMBER → 'e'.toUInt8 ∉ t ∧ 'E'.toUInt8 ∉ t) := by
  have hbytes : ∀ {c : UInt8}, ¬NumberByte c → (∀ c ∈ t, NumberByte c) → c ∉ t :=
    fun hc hall hmem => hc (hall _ hmem)
  have hnull : ¬∀ c ∈ nullWord, NumberByte c := by
    intro hall
    exact absurd (hall 'n'.toUInt8 (by decide)) (by unfold NumberByte; decide)
  cases type with
  | BOOLEAN =>
    refine ⟨?_, by simp⟩
    rintro rfl
    exact absurd h.1 (by decide)
  | INTEGER =>
    refine ⟨?_, by simp⟩
    rintro rfl
    exact hnull (isInteger_bytes h.1).2
  | NUMBER =>
    refine ⟨?_, fun _ => ⟨?_, ?_⟩⟩
    · rintro rfl
      exact hnull (isNumber_bytes h.1).2
    · exact hbytes (by unfold NumberByte; decide) (isNumber_bytes h.1).2
    · exact hbytes (by unfold NumberByte; decide) (isNumber_bytes h.1).2
  | STRING => exact absurd rfl hstring

/-- The scanner hands on a text as it is or rejects it, and the verdict on a parameter is the verdict
on the text as JSON, unless the schema accepts the text and this is `null` or a number with an
exponent. -/
theorem scalar_verdict_iff {rj : RapidJson σ} (hrj : rj.Standard) {paramVal schema : Json}
    {refKeys : List Bytes} {typeName : Bytes} {type : PrimitiveType} {v : ParamValidator σ}
    (hschema : paramVal.get (lit "schema") = .ok schema)
    (htypeName : schema.get (lit "type") = .ok (.string typeName))
    (htype : PRIMITIVE_TYPE_MAP.lookup typeName = some type) (hstring : type ≠ .STRING)
    (hkeeps : rj.KeepsTo schema type) (hv : Built rj paramVal refKeys v)
    (hstart : v.deserializer.toBase.start = 0)
    (hname : v.deserializer.toBase.skipName = false) {t : Bytes}
    (ht : ∀ c ∈ t, isSpace c = false ∧ c ≠ 0) {buf : Nat → UInt8} {beg : Nat}
    (hbuf : slice buf beg (beg + t.length) = t) (m : Bytes) :
    (∀ ret, (v.deserializer.deserialize buf beg (beg + t.length)).1 = .ok ret → ret = t) ∧
    ((Passes (v.validateParam rj buf beg (beg + t.length) m) ↔
        Passes (v.toJsonValidator.validate rj t m)) ↔
      (SchemaAccepts rj schema t →
        t ≠ nullWord ∧ (type = .NUMBER → 'e'.toUInt8 ∉ t ∧ 'E'.toUInt8 ∉ t))) := by
  obtain ⟨⟨b, hd⟩, hvalidator, hcode⟩ := built_scalar hschema htypeName htype hv
  rw [hd] at hstart hname
  have hzero : (0 : UInt8) ∉ t := fun h0 => (ht 0 h0).2 rfl
  have hspace : ∀ c ∈ t, isSpace c = false := fun c hc => (ht c hc).1
  -- the deserializer is its lexer on the text of the range
  have hrun : (v.deserializer.deserialize buf beg (beg + t.length)).1 =
      (primitive ⟨b, type⟩ t).map Prod.fst := by
    have := @scan_result buf (beg + t.length) ⟨beg, 0⟩ v.deserializer (Nat.le_add_right _ _)
      (Nat.zero_le _) (Or.inl (hd ▸ hstart)) (by simp [hd])
    rw [hbuf, hd] at this
    rwa [hd]
  have hscan : ∀ ret, (v.deserializer.deserialize buf beg (beg + t.length)).1 = .ok ret →
      ret = t ∧ Writes t t type := by
    intro ret hret
    rw [hrun] at hret
    obtain ⟨p, hp, rfl⟩ := map_eq_ok_iff.mp hret
    exact primitive_unchanged hstart hname hstring hp
  refine ⟨fun ret hret => (hscan ret hret).1, ?_⟩
  have hjson : Passes (v.toJsonValidator.validate rj t m) ↔ SchemaAccepts rj schema t := by
    rw [validate_passes_iff hcode, cstr_of_not_mem hzero, hvalidator]
    rfl
  rw [hjson]
  cases hdes : (v.deserializer.deserialize buf beg (beg + t.length)).1 with
  | ok ret =>
    -- the text is scanned, so both verdicts are those of the parser and the schema
    obtain ⟨rfl, hwrites⟩ := hscan ret hdes
    refine iff_of_true ?_ fun _ => writes_plain hstring hwrites
    rw [ParamValidator.validateParam, hdes, ← hjson]
    exact passes_map_iff
  | error x =>
    have hrejected : ¬Passes (v.validateParam rj buf beg (beg + t.length) m) := by
      rw [ParamValidator.validateParam, hdes]
      cases x with
      | exception what => simp [Passes, hcode]
      | lengthError => simp [Passes]
    refine (iff_false_left hrejected).trans ⟨fun hno hyes => absurd hyes hno, fun hplain hyes => ?_⟩
    -- a text that the schema accepts is the word of a value that is scanned
    obtain ⟨doc, hparse, haccept⟩ := hyes
    have hof := hkeeps doc haccept
    have hscalar : IsScalar doc := by
      cases doc with
      | null | bool _ | number _ => trivial
      | _ => cases type <;> simp_all [ofType]
    obtain ⟨hnull, hexponent⟩ := hplain ⟨doc, hparse, haccept⟩
    obtain ⟨hsend, rfl⟩ := sendable_of_parse hstring hspace ((hrj t doc hscalar).mp hparse) hof
      hnull hexponent
    obtain ⟨out, rest, hok⟩ := @primitive_sendable b type hstart hname doc hsend
    rw [hrun, hok] at hdes
    simp [Except.map] at hdes

end

/-! ### An exponent -/

/-- RapidJSON as far as schemas with a scalar `type` alone go. -/
def RapidJson.typed : RapidJson Json :=
  { RapidJson.plain with
    accept := fun schema value =>
      (match schema.get (lit "type") with
        | .ok (.string typeName) =>
          match PRIMITIVE_TYPE_MAP.lookup typeName with
          | some type => ofType type value
          | none => true
        | _ => true, schema) }

theorem typed_standard : RapidJson.typed.Standard := by
  intro t v _
  simp only [RapidJson.typed, RapidJson.plain]
  cases Library.Json.parse t <;> simp

def factorSchema : Json := .object [(lit "type", .string (lit "number"))]

theorem typed_keepsTo : RapidJson.typed.KeepsTo factorSchema .NUMBER := by
  intro v haccept
  have hmatch : (RapidJson.typed.accept factorSchema v).1 = ofType .NUMBER v := rfl
  exact hmatch ▸ haccept

def factorParam : Json :=
  .object [(lit "name", .string (lit "X-Factor")), (lit "in", .string (lit "header")),
    (lit "schema", factorSchema)]

def factorValidator : ParamValidator Json :=
  ParamValidator.ofInfo RapidJson.typed
    { name := lit "X-Factor", required := false,
      deserializer := .primitive ⟨⟨lit "X-Factor", 0, false⟩, .NUMBER⟩, schema := factorSchema }
    [] .INVALID_HEADER_PARAM

theorem factor_built : Built RapidJson.typed factorParam [] factorValidator := Or.inr (Or.inl rfl)

theorem plain_of_all {t : Bytes} (h : t.all fun c => !isSpace c && decide (c ≠ 0)) :
    ∀ c ∈ t, isSpace c = false ∧ c ≠ 0 := by
  simpa using h

theorem scalar_verdict_iff_factor :
    (∀ ret, (factorValidator.deserializer.deserialize (dataOf (lit "1.5")) 0 3).1 = .ok ret →
        ret = lit "1.5") ∧
    ((Passes (factorValidator.validateParam RapidJson.typed (dataOf (lit "1.5")) 0 3 []) ↔
        Passes (factorValidator.toJsonValidator.validate RapidJson.typed (lit "1.5") [])) ↔
      (SchemaAccepts RapidJson.typed factorSchema (lit "1.5") → lit "1.5" ≠ nullWord ∧
        (PrimitiveType.NUMBER = .NUMBER →
          'e'.toUInt8 ∉ lit "1.5" ∧ 'E'.toUInt8 ∉ lit "1.5"))) :=
  @scalar_verdict_iff _ RapidJson.typed typed_standard factorParam factorSchema [] (lit "number")
    .NUMBER factorValidator rfl rfl (by decide) (by decide) typed_keepsTo factor_built rfl rfl
    (lit "1.5") (plain_of_all (by decide)) (dataOf (lit "1.5")) 0 (by decide) []

/-- `1e5` is a number that the parser and the schema accept and the scanner rejects. -/
theorem exponent_rejected : ¬∀ (rj : RapidJson Json), rj.Standard →
    ∀ (paramVal schema : Json) (refKeys : List Bytes) (typeName : Bytes) (type : PrimitiveType)
      (v : ParamValidator Json), paramVal.get (lit "schema") = .ok schema →
      schema.get (lit "type") = .ok (.string typeName) →
      PRIMITIVE_TYPE_MAP.lookup typeName = some type → type ≠ .STRING → rj.KeepsTo schema type →
      Built rj paramVal refKeys v → v.deserializer.toBase.start = 0 →
      v.deserializer.toBase.skipName = false → ∀ (t : Bytes),
      (∀ c ∈ t, isSpace c = false ∧ c ≠ 0) → ∀ (buf : Nat → UInt8) (beg : Nat),
      slice buf beg (beg + t.length) = t → ∀ m : Bytes,
        (Passes (v.validateParam rj buf beg (beg + t.length) m) ↔
          Passes (v.toJsonValidator.validate rj t m)) := by
  intro h
  have hboth := h RapidJson.typed typed_standard factorParam factorSchema [] (lit "number") .NUMBER
    factorValidator rfl rfl (by decide) (by decide) typed_keepsTo factor_built rfl rfl (lit "1e5")
    (plain_of_all (by decide)) (dataOf (lit "1e5")) 0 (by decide) []
  have haccepted : Passes (factorValidator.toJsonValidator.validate RapidJson.typed (lit "1e5") []) := by
    rw [validate_passes_iff (by decide), cstr_of_not_mem (by decide)]
    exact ⟨.number (lit "1e5"), by rfl, by rfl⟩
  obtain ⟨c, hc, hcode⟩ := hboth.mpr haccepted
  have hrejected : (factorValidator.validateParam RapidJson.typed (dataOf (lit "1e5")) 0 3 []).map
      (·.code) = .ok .INVALID_HEADER_PARAM := by
    decide
  have hc' : factorValidator.validateParam RapidJson.typed (dataOf (lit "1e5")) 0 3 [] = .ok c := hc
  rw [hc'] at hrejected
  have hcode' : c.code = .INVALID_HEADER_PARAM := Except.ok.inj hrejected
  simp [hcode'] at hcode

end OasValidator
