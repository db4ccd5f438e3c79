import OasValidator.Library.JsonPlaces
import OasValidator.Validators.Verdict

/-! How much of a text is validated.  The parser is given a C string, so a check says nothing of what
stands behind the first NUL of a text. -/

namespace OasValidator

open Library.Json

variable {σ : Type} (rj : RapidJson σ)

/-- RapidJSON reads the documents of RFC 8259, each up to its end. -/
def RapidJson.Rfc8259 : Prop := ∀ t v, 0 ∉ t → (rj.parse t = .ok v ↔ Library.Json.parse t = some v)

def Satisfies (schema v : Json) : Prop := (rj.accept (rj.schemaValidator schema) v).1 = true

/-- The whole text is one JSON document, which satisfies the schema. -/
def WholeDocument (schema : Json) (t : Bytes) : Prop :=
  ∃ v, Library.Json.parse t = some v ∧ Satisfies rj schema v

theorem plain_rfc8259 : RapidJson.plain.Rfc8259 := by
  intro t v _
  simp only [RapidJson.plain]
  cases Library.Json.parse t <;> simp

theorem nul_not_mem_cstr (t : Bytes) : 0 ∉ cstr t := fun h => by
  simpa using List.mem_takeWhile_imp h

section

variable {rj} {schema : Json} {v : JsonValidator σ}

/-- A check passes if the text in front of the first NUL is a document that satisfies the schema. -/
theorem passes_iff_document (hrfc : rj.Rfc8259) (hv : v.validator = rj.schemaValidator schema)
    (hcode : v.codeOnError ≠ .NONE) (jsonStr errorMsg : Bytes) :
    Passes (v.validate rj jsonStr errorMsg) ↔ WholeDocument rj schema (cstr jsonStr) := by
  simp only [validate_passes_iff hcode, hv, WholeDocument, Satisfies,
    fun w => hrfc (cstr jsonStr) w (nul_not_mem_cstr jsonStr)]

/-- A check that passes has validated the whole text if and only if no NUL is in the text, or what
stands in front of the first one is no document that satisfies the schema. -/
theorem whole_text_iff (hrfc : rj.Rfc8259) (hv : v.validator = rj.schemaValidator schema)
    (hcode : v.codeOnError ≠ .NONE) (jsonStr errorMsg : Bytes) :
    (Passes (v.validate rj jsonStr errorMsg) → WholeDocument rj schema jsonStr) ↔
      0 ∉ jsonStr ∨ ¬WholeDocument rj schema (cstr jsonStr) := by
  rw [passes_iff_document hrfc hv hcode]
  by_cases hnul : 0 ∈ jsonStr
  · have hnot : ¬WholeDocument rj schema jsonStr := by
      rintro ⟨doc, hdoc, -⟩
      exact nulFree_of_parse hdoc hnul
    simp [hnul, hnot]
  · simp [cstr_of_not_mem hnul, hnul]

end

/-- The validator of an object as body. -/
def objectBody : JsonValidator Json :=
  .ofSchema .plain (.object [(lit "type", .string (lit "object"))]) [] .INVALID_BODY

theorem whole_text_iff_object :
    (Passes (objectBody.validate .plain (lit "\x7b\x7d") []) →
        WholeDocument .plain (.object [(lit "type", .string (lit "object"))]) (lit "\x7b\x7d")) ↔
      0 ∉ lit "\x7b\x7d" ∨
        ¬WholeDocument .plain (.object [(lit "type", .string (lit "object"))]) (cstr (lit "\x7b\x7d")) :=
  whole_text_iff (v := objectBody) plain_rfc8259 rfl (by decide) _ _

/-- An empty object with a NUL and more text behind it passes as an object. -/
theorem text_behind_nul : ¬∀ schema jsonStr errorMsg,
    Passes ((JsonValidator.ofSchema .plain schema [] .INVALID_BODY).validate .plain jsonStr errorMsg) →
      WholeDocument .plain schema jsonStr := by
  intro h
  have hpasses : Passes (objectBody.validate .plain (lit "\x7b\x7d" ++ 0 :: lit "\x7d") []) := by
    refine ⟨⟨.NONE, [], objectBody⟩, ?_, rfl⟩
    rfl
  obtain ⟨doc, hdoc, -⟩ := h _ _ _ hpasses
  exact nulFree_of_parse hdoc (by decide)

end OasValidator
