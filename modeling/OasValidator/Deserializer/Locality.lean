import OasValidator.Deserializer.Build
import OasValidator.Deserializer.Object

/-! Which bytes a deserializer depends on.  A deserializer stays in its range unless the range is empty
where a first character is due, or the range of an object ends in a member.  Behind a range without a
first character, and with any byte but the separator behind an object, the result is what `lexer` says
of the text of the range. -/

namespace OasValidator

open Library.Scanning BaseDeserializer Text

/-- What a deserializer does to a text. -/
def Deserializer.lexer : Deserializer → Text.Lexer Bytes
  | .primitive d => Text.primitive d
  | .array d => Text.array d
  | .object d => Text.object d
  | .content d => Text.content d

/-- The text of a range which a deserializer does not look behind. -/
def Inside (d : Deserializer) (t : Bytes) : Prop :=
  (d.toBase.start = 0 ∨ t ≠ []) ∧
    ∀ o, d = .object o → ∀ rest, objectStart o t = .ok ((), rest) → ¬EndsInMember o rest

/-- On the range from `beg` to `end_` of `buf`, a deserializer inspects no byte behind the range, does
not move past it, and does the same in every buffer that has the same bytes there. -/
def LocalAt (d : Deserializer) (buf : Nat → UInt8) (beg end_ : Nat) : Prop :=
  (d.deserialize buf beg end_).2.seen ≤ end_ ∧ (d.deserialize buf beg end_).2.pos ≤ end_ ∧
    ∀ buf' : Nat → UInt8, (∀ i, beg ≤ i → i < end_ → buf' i = buf i) →
      (d.deserialize buf' beg end_).1 = (d.deserialize buf beg end_).1

theorem not_inside {d : Deserializer} {t : Bytes} (h : ¬Inside d t)
    (hstart : d.toBase.start = 0 ∨ t ≠ []) :
    ∃ o, d = .object o ∧ ∃ rest, objectStart o t = .ok ((), rest) ∧ EndsInMember o rest := by
  simpa [Inside, hstart] using h

section

variable {buf : Nat → UInt8} {e : Nat} {cur : Cursor}

theorem refines_scan {d : Deserializer} (hp : cur.pos ≤ e) (hs : cur.seen ≤ e)
    (h : Inside d (slice buf cur.pos e)) : RefinesAt buf e cur (d.scan buf e) d.lexer := by
  obtain ⟨hstart, hends⟩ := h
  have hstart' : d.toBase.start = 0 ∨ cur.pos < e := by
    simpa [slice_eq_nil_iff] using hstart
  cases d with
  | primitive d => exact refines_primitive hp hs hstart'
  | array d => exact refines_array hp hs hstart'
  | object d => exact refines_object hp hs hstart' (hends d rfl)
  | content d => exact refines_content hp hs hstart'

theorem checkNSkipName_past {d : BaseDeserializer} (h : e < cur.pos) :
    checkNSkipName d buf e cur = (.error d.wrongName, cur) := by
  simp [checkNSkipName, Scan.startsWith, Scan.position, Bind.bind, Pure.pure, Scan.throw,
    show e < cur.pos + d.paramName.length by omega]

theorem checkData_past {d : BaseDeserializer} (h : e < cur.pos) :
    checkData d e cur = (.error d.noData, cur) := by
  simp [checkData, Scan.before, Scan.position, Bind.bind, Scan.throw, show ¬cur.pos < e by omega]

/-- A first character that the range does not have is sought behind it, and the deserializer fails
whatever it finds. -/
theorem scan_empty {d : Deserializer} (hp : cur.pos = e) (h : d.toBase.start ≠ 0) :
    (∃ x, (d.scan buf e cur).1 = .error x) ∧ e < (d.scan buf e cur).2.seen := by
  have hstart : ∀ {α : Type} (b : BaseDeserializer) (m : Unit → Scanner α), b.start ≠ 0 →
      (∀ c : Cursor, e < c.pos → ∃ x, m () c = (.error x, c)) →
      (∃ x, ((checkNSkipStart b buf >>= m) cur).1 = .error x) ∧
        e < ((checkNSkipStart b buf >>= m) cur).2.seen := by
    intro α b m hb hm
    by_cases hbyte : buf cur.pos = b.start
    · obtain ⟨x, hx⟩ := hm ⟨cur.pos + 1, max cur.seen (cur.pos + 1)⟩ (by simp only; omega)
      have hrun : (checkNSkipStart b buf >>= m) cur =
          m () ⟨cur.pos + 1, max cur.seen (cur.pos + 1)⟩ := by
        simp [checkNSkipStart, hb, Bind.bind, Scan.peek, Scan.peekAt, hbyte, Scan.advance]
      rw [hrun, hx]
      exact ⟨⟨x, rfl⟩, by simp only; omega⟩
    · have hrun : (checkNSkipStart b buf >>= m) cur =
          (.error b.wrongStart, ⟨cur.pos, max cur.seen (cur.pos + 1)⟩) := by
        simp [checkNSkipStart, hb, Bind.bind, Scan.peek, Scan.peekAt, hbyte, Scan.throw]
      rw [hrun]
      exact ⟨⟨_, rfl⟩, by simp only; omega⟩
  cases d with
  | primitive d =>
    refine hstart d.toBaseDeserializer _ h fun c hc => ?_
    by_cases hname : d.skipName
    · exact ⟨d.wrongName, by simp [hname, Bind.bind, checkNSkipName_past hc]⟩
    · exact ⟨d.noData, by simp [hname, Bind.bind, checkData_past hc]⟩
  | array d =>
    refine hstart d.toBaseDeserializer _ h fun c hc => ?_
    by_cases hname : d.skipName && !d.hasRunningName
    · exact ⟨d.wrongName, by simp only [hname]; simp [Bind.bind, checkNSkipName_past hc]⟩
    · exact ⟨d.noData, by simp only [hname]; simp [Bind.bind, checkData_past hc]⟩
  | object d =>
    have hhead : (∃ x, (d.checkNSkipHead buf e cur).1 = .error x) ∧
        e < (d.checkNSkipHead buf e cur).2.seen := by
      refine hstart d.toBaseDeserializer _ h fun c hc => ?_
      by_cases hname : d.skipName && !d.isDeepObj
      · exact ⟨d.wrongName, by simp only [hname]; simp [Bind.bind, checkNSkipName_past hc]⟩
      · exact ⟨d.noData, by simp only [hname]; simp [checkData_past hc]⟩
    obtain ⟨⟨x, hx⟩, hseen⟩ := hhead
    have hrun : d.deserialize buf e cur = (.error x, (d.checkNSkipHead buf e cur).2) := by
      simp only [ObjectDeserializer.deserialize, Bind.bind]
      rw [← Prod.eta (d.checkNSkipHead buf e cur), hx]
    rw [Deserializer.scan, hrun]
    exact ⟨⟨x, rfl⟩, hseen⟩
  | content d =>
    refine hstart d.toBaseDeserializer _ h fun c hc => ?_
    by_cases hname : d.skipName
    · exact ⟨d.wrongName, by simp [hname, Bind.bind, checkNSkipName_past hc]⟩
    · exact ⟨.lengthError, by simp [hname, Bind.bind, Scan.position, hc, Scan.throw]⟩

/-- Outside of `Inside`, the byte behind the range is inspected. -/
theorem scan_outside {d : Deserializer} (hp : cur.pos ≤ e) (hs : cur.seen ≤ e)
    (h : ¬Inside d (slice buf cur.pos e)) : e < (d.scan buf e cur).2.seen := by
  by_cases hstart : d.toBase.start = 0 ∨ cur.pos < e
  · obtain ⟨o, rfl, rest, ho, hm⟩ := not_inside h (by simpa [slice_eq_nil_iff] using hstart)
    obtain ⟨out, -, hrun⟩ := object_outside hp hs hstart ho hm
    rw [Deserializer.scan, hrun]
    split <;> exact Nat.lt_succ_self e
  · rw [not_or] at hstart
    exact (scan_empty (by omega) hstart.1).2

/-- On a range that it does not look behind, a deserializer does what `lexer` says. -/
theorem scan_inside {d : Deserializer} (hp : cur.pos ≤ e) (hs : cur.seen ≤ e)
    (h : Inside d (slice buf cur.pos e)) :
    (d.scan buf e cur).1 = (d.lexer (slice buf cur.pos e)).map Prod.fst := by
  have hres := (refines_scan hp hs h).2.2.2
  cases hl : d.lexer (slice buf cur.pos e) with
  | error x =>
    simp only [hl] at hres
    rw [hres]
    rfl
  | ok p =>
    simp only [hl] at hres
    exact hres.1

/-- On a range that has a byte where a first character is due, and before a byte that is not the
separator of an object, a deserializer does what `lexer` says. -/
theorem scan_result {d : Deserializer} (hp : cur.pos ≤ e) (hs : cur.seen ≤ e)
    (hstart : d.toBase.start = 0 ∨ cur.pos < e) (hvk : ∀ o, d = .object o → buf e ≠ o.vkSeparator) :
    (d.scan buf e cur).1 = (d.lexer (slice buf cur.pos e)).map Prod.fst := by
  by_cases h : Inside d (slice buf cur.pos e)
  · exact scan_inside hp hs h
  · obtain ⟨o, rfl, rest, ho, hm⟩ := not_inside h (by simpa [slice_eq_nil_iff] using hstart)
    obtain ⟨out, htext, hrun⟩ := object_outside hp hs hstart ho hm
    rw [Deserializer.scan, hrun, if_neg (hvk o rfl), Deserializer.lexer, htext]
    rfl

/-- What a deserializer returns is what `lexer` says of the text of the range. -/
theorem lexer_of_scan {d : Deserializer} (hp : cur.pos ≤ e) (hs : cur.seen ≤ e) {out : Bytes}
    (h : (d.scan buf e cur).1 = .ok out) :
    ∃ rest, d.lexer (slice buf cur.pos e) = .ok (out, rest) := by
  by_cases hin : Inside d (slice buf cur.pos e)
  · have hres := (refines_scan hp hs hin).2.2.2
    rw [h] at hres
    cases hl : d.lexer (slice buf cur.pos e) with
    | error x => simp [hl] at hres
    | ok p =>
      simp only [hl, Except.ok.injEq] at hres
      exact ⟨p.2, by rw [hres.1]⟩
  · by_cases hstart : d.toBase.start = 0 ∨ cur.pos < e
    · obtain ⟨o, rfl, rest, ho, hm⟩ := not_inside hin (by simpa [slice_eq_nil_iff] using hstart)
      obtain ⟨out', htext, hrun⟩ := object_outside hp hs hstart ho hm
      rw [Deserializer.scan, hrun] at h
      split at h
      · simp at h
      · exact ⟨[], by rw [Deserializer.lexer, htext]; simpa using h⟩
    · rw [not_or] at hstart
      obtain ⟨x, hx⟩ : ∃ x, (d.scan buf e cur).1 = .error x :=
        (scan_empty (by omega) hstart.1).1
      rw [hx] at h
      simp at h

end

/-- What `Deserialize` makes of a whole text, behind which a NUL stands. -/
def deserializeText (d : Deserializer) (t : Bytes) : Except DeserializeError Bytes :=
  (d.deserialize (dataOf t) 0 t.length).1

theorem slice_whole (t : Bytes) : slice (dataOf t) 0 t.length = t := by
  simpa using slice_dataOf [] t []

theorem deserializeText_eq {d : Deserializer} {t : Bytes} (hstart : d.toBase.start = 0 ∨ t ≠ [])
    (hvk : ∀ o, d = .object o → o.vkSeparator ≠ 0) :
    deserializeText d t = (d.lexer t).map Prod.fst := by
  have hend : dataOf t t.length = 0 := by simp [dataOf]
  have hrun := @scan_result (dataOf t) t.length ⟨0, 0⟩ d (Nat.zero_le _) (Nat.zero_le _)
    (by rwa [← List.length_pos_iff] at hstart) (by
      intro o ho
      rw [hend]
      exact (hvk o ho).symm)
  rwa [slice_whole] at hrun

/-- A deserializer depends on its range alone, unless it seeks its first character in an empty range
or reads members of an object up to the very end of the range. -/
theorem localAt_iff_inside (d : Deserializer) (buf : Nat → UInt8) (beg length : Nat) :
    LocalAt d buf beg (beg + length) ↔ Inside d (slice buf beg (beg + length)) := by
  have hp : (⟨beg, 0⟩ : Cursor).pos ≤ beg + length := Nat.le_add_right _ _
  constructor
  · intro ⟨hseen, _, _⟩
    by_contra h
    have := scan_outside hp (Nat.zero_le _) h
    exact absurd hseen (not_le.mpr this)
  · intro h
    have href := refines_scan hp (Nat.zero_le _) h
    refine ⟨href.2.2.1, href.2.1, fun buf' hbuf => ?_⟩
    have hslice : slice buf' beg (beg + length) = slice buf beg (beg + length) := slice_congr hbuf
    exact href.same_result (refines_scan hp (Nat.zero_le _) (by rwa [hslice])) hslice

/-- A deep object in the query. -/
def colorParam : Json :=
  .object [(lit "name", .string (lit "color")), (lit "in", .string (lit "query")),
    (lit "style", .string (lit "deepObject")),
    (lit "schema", .object [(lit "type", .string (lit "object")),
      (lit "properties", .object [(lit "R", .object [(lit "type", .string (lit "integer"))])])])]

def colorDeserializer : ObjectDeserializer :=
  { paramName := lit "color", start := 0, skipName := false, kvSeparator := equals,
    vkSeparator := ampersand, isDeepObj := true, ktMap := [(lit "\"R\"", .INTEGER)] }

/-- The deep object `color[R]=1` is read when it stands alone, and refused when another parameter
follows it. -/
theorem color_not_local : ¬∀ (paramVal : Json) (style : Bytes) (explode : Bool)
    (refKeys : List Bytes) (d : Deserializer), getDeserializer paramVal style explode refKeys = .ok d →
      ∀ (buf : Nat → UInt8) (beg length : Nat), LocalAt d buf beg (beg + length) := by
  intro h
  obtain ⟨-, -, hsame⟩ := h colorParam (lit "form") true [] (.object colorDeserializer)
    (by decide) (dataOf (lit "color[R]=1")) 0 10
  have hagree : ∀ i, 0 ≤ i → i < 0 + 10 →
      dataOf (lit "color[R]=1&size=2") i = dataOf (lit "color[R]=1") i := by
    decide
  have hresult := hsame (dataOf (lit "color[R]=1&size=2")) hagree
  revert hresult
  decide +kernel

end OasValidator
