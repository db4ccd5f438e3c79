import OasValidator.Deserializer.Declared
import OasValidator.Deserializer.Locality
import OasValidator.Deserializer.Serialization

/-! String parameters.  The bytes that a percent-encoded string stands for are put between quotes as
they are, so the JSON text is read as the string just when no byte of it needs an escape. -/

namespace OasValidator

open Library.Json Library.Scanning Text

/-- What a deserializer of a single value has in front of its data is the prefix of the style. -/
theorem lead_baseOf {in_ name : Bytes} {style : ParamStyle} {explode : Bool} {type : ExtendedType}
    (harray : type ≠ .ARRAY) (hobject : type ≠ .OBJECT) :
    lead (baseOf name in_ style explode type) (baseOf name in_ style explode type).skipName =
      primitivePrefix in_ style name := by
  have hskip : hasNameAtStart in_ style explode type =
      match style with
      | .SIMPLE | .LABEL => false
      | .CONTENT => decide (in_ = lit "query")
      | _ => true := by
    cases style <;> simp [hasNameAtStart, harray, hobject]
  simp only [lead, baseOf, hskip]
  cases style with
  | CONTENT =>
    by_cases hin : in_ = lit "query"
    · simp [primitivePrefix, getStartChar, hin]
      rfl
    · simp [primitivePrefix, getStartChar, hin]
  | SIMPLE => rfl
  | LABEL => rfl
  | MATRIX => simp [primitivePrefix, getStartChar]; rfl
  | FORM => rfl
  | SPACE_DELIM => rfl
  | PIPE_DELIM => rfl
  | DEEP_OBJ => rfl

theorem percentEncode_ne_nil {s : Bytes} (hs : s ≠ []) : percentEncode s ≠ [] := by
  obtain ⟨c, s, rfl⟩ := List.exists_cons_of_ne_nil hs
  rw [percentEncode_cons, encodeByte]
  split <;> simp

/-- A percent-encoded string is put between quotes as it was. -/
theorem deserializeText_string {p : PrimitiveDeserializer} (hstring : p.paramType = .STRING)
    {s : Bytes} (hs : s ≠ []) :
    deserializeText (.primitive p)
        (lead p.toBaseDeserializer p.skipName ++ percentEncode s) =
      .ok (quote :: (s ++ [quote])) := by
  have hne : lead p.toBaseDeserializer p.skipName ++ percentEncode s ≠ [] := by
    simp [percentEncode_ne_nil hs]
  have hdecode : decode p.toBaseDeserializer (fun _ => false) (percentEncode s ++ []) =
      .ok (s, []) :=
    decode_percentEncode (by simp) (by simp)
  rw [List.append_nil] at hdecode
  rw [deserializeText_eq (Or.inr hne) (by simp)]
  simp only [Deserializer.lexer, primitive]
  rw [lead_append]
  simp [Lexer.bind_apply, data, percentEncode_ne_nil hs, Text.value, hstring, Text.string, hdecode,
    finish, Except.map]

theorem cstr_append_of_mem {s : Bytes} (h : 0 ∈ s) (t : Bytes) : cstr (s ++ t) = cstr s := by
  induction s with
  | nil => simp at h
  | cons c s ih =>
    by_cases hc : c = 0
    · simp [cstr, hc]
    · have hs : 0 ∈ s := (List.mem_cons.mp h).resolve_left (Ne.symm hc)
      simpa [cstr, hc] using ih hs

/-- The bytes of a string between quotes are a JSON text of it just when none of them needs an
escape. -/
theorem parse_between_quotes (s : Bytes) :
    parse (cstr (quote :: (s ++ [quote]))) = some (.string s) ↔ NeedsNoEscape s := by
  constructor
  · intro h
    have hcstr : cstr (quote :: (s ++ [quote])) = quote :: cstr (s ++ [quote]) := by
      simp [cstr, show quote ≠ 0 by decide]
    rw [hcstr, parse, List.length_cons, value_string] at h
    have hstring : ∃ rest, string (cstr (s ++ [quote])) = some (s, rest) := by
      cases hstr : string (cstr (s ++ [quote])) with
      | none => simp [hstr] at h
      | some q =>
        obtain ⟨v, rest⟩ := q
        simp only [hstr, Option.map_some] at h
        split at h
        · obtain rfl : v = s := by simpa using h
          exact ⟨rest, rfl⟩
        · simp at h
    obtain ⟨rest, hrest⟩ := hstring
    by_cases h0 : 0 ∈ s
    · -- the text ends at the NUL, and the string it is would be longer
      have hshort : (cstr (s ++ [quote])).length ≤ s.length := by
        rw [cstr_append_of_mem h0]
        exact (List.takeWhile_sublist _).length_le
      have := stringBody_length hrest
      omega
    · have hall : cstr (s ++ [quote]) = s ++ [quote] := by
        apply cstr_of_not_mem
        simpa [h0] using show (0 : UInt8) ≠ quote by decide
      rw [hall] at hrest
      exact needsNoEscape_of_string hrest
  · intro h
    have h0 : (0 : UInt8) ∉ quote :: (s ++ [quote]) := by
      have hs : (0 : UInt8) ∉ s := fun hmem => absurd (h 0 hmem).2.2 (by decide)
      simpa [hs] using show (0 : UInt8) ≠ quote by decide
    rw [cstr_of_not_mem h0]
    exact (reads_string h).parse

section

variable {paramVal : Json} {style0 : Bytes} {explode0 : Bool} {name in_ : Bytes}
  {style : ParamStyle} {explode : Bool} {refKeys : List Bytes} {p : PrimitiveDeserializer}

/-- A string parameter, percent-encoded behind its prefix, is deserialized to a JSON text of the same
string if and only if no byte of the string is a quote, a backslash or a control character. -/
theorem string_parameter_iff (h : Declares paramVal style0 explode0 name in_ style explode)
    (hd : getDeserializer paramVal style0 explode0 refKeys = .ok (.primitive p))
    (hstring : p.paramType = .STRING) {s : Bytes} (hs : s ≠ []) :
    (∃ out, deserializeText (.primitive p) (primitivePrefix in_ style name ++ percentEncode s) =
        .ok out ∧ parse (cstr out) = some (.string s)) ↔ NeedsNoEscape s := by
  obtain ⟨type, harray, hobject, -, hbase⟩ := getDeserializer_primitive h hd
  have hlead := @lead_baseOf in_ name style explode type harray hobject
  rw [← hbase] at hlead
  rw [← hlead, deserializeText_string hstring hs, ← parse_between_quotes]
  simp

end

/-- A query parameter that is a string. -/
def tagParam : Json :=
  .object [(lit "name", .string (lit "tag")), (lit "in", .string (lit "query")),
    (lit "schema", .object [(lit "type", .string (lit "string"))])]

def tagDeserializer : PrimitiveDeserializer :=
  { paramName := lit "tag", start := 0, skipName := true, paramType := .STRING }

theorem tag_declares : Declares tagParam (lit "form") true (lit "tag") (lit "query") .FORM true where
  name_eq := by decide
  in_eq := by decide
  explode_eq := by decide
  style_eq := by decide

theorem tag_built : getDeserializer tagParam (lit "form") true [] =
    .ok (.primitive tagDeserializer) := by
  decide

theorem string_parameter_iff_tag :
    (∃ out, deserializeText (.primitive tagDeserializer)
        (primitivePrefix (lit "query") .FORM (lit "tag") ++ percentEncode (lit "a b+c%")) = .ok out ∧
        parse (cstr out) = some (.string (lit "a b+c%"))) ↔
      NeedsNoEscape (lit "a b+c%") :=
  string_parameter_iff tag_declares tag_built rfl (by decide)

/-- The string `a"b` makes a text that is no JSON. -/
theorem quote_not_escaped : ¬∀ (paramVal : Json) (style0 : Bytes) (explode0 : Bool)
    (name in_ : Bytes) (style : ParamStyle) (explode : Bool) (refKeys : List Bytes)
    (p : PrimitiveDeserializer), Declares paramVal style0 explode0 name in_ style explode →
      getDeserializer paramVal style0 explode0 refKeys = .ok (.primitive p) →
      p.paramType = .STRING → ∀ s : Bytes, s ≠ [] → (∀ c ∈ s, c < 128) →
        ∃ out, deserializeText (.primitive p) (primitivePrefix in_ style name ++ percentEncode s) =
          .ok out ∧ parse (cstr out) = some (.string s) := by
  intro h
  obtain ⟨out, hout, hparse⟩ := h _ _ _ _ _ _ _ _ _ tag_declares tag_built rfl (lit "a\"b")
    (by decide) (by decide +kernel)
  have hrun : deserializeText (.primitive tagDeserializer)
      (primitivePrefix (lit "query") .FORM (lit "tag") ++ percentEncode (lit "a\"b")) =
        .ok (lit "\"a\"b\"") := by
    decide +kernel
  obtain rfl := Except.ok.inj (hrun.symm.trans hout)
  have hnone : (parse (cstr (lit "\"a\"b\""))).isNone := by
    decide
  rw [hparse] at hnone
  simp at hnone

end OasValidator
