import OasValidator.Deserializer.Values

/-! Primitive, array and content deserializers on the text of a range.  A deserializer that needs no
first character, or has it in its range, refines what this module says of the text. -/

namespace OasValidator.Text

open Library.Scanning BaseDeserializer

def startChar (d : BaseDeserializer) : Lexer Unit := fun t =>
  if d.start ≠ 0 then
    match t with
    | [] => .error d.wrongStart
    | b :: rest => if b = d.start then .ok ((), rest) else .error d.wrongStart
  else .ok ((), t)

def primitive (d : PrimitiveDeserializer) : Lexer Bytes := do
  startChar d.toBaseDeserializer
  if d.skipName then
    skipName d.toBaseDeserializer
    skipChar d.toBaseDeserializer equals
  data d.toBaseDeserializer
  let ret ← value d.toBaseDeserializer (fun _ => false) [] d.paramType
  finish d.toBaseDeserializer
  pure ret

def itemData (d : ArrayDeserializer) : Lexer Unit := fun t =>
  if t = [] then .error d.noItemData else .ok ((), t)

/-- The separator behind an item that is not the last one. -/
def separatorChars (d : ArrayDeserializer) : Lexer Unit := do
  if d.has20Separator then
    skipChar d.toBaseDeserializer percent
    skipChar d.toBaseDeserializer '2'.toUInt8
    skipChar d.toBaseDeserializer '0'.toUInt8
  else
    skipChar d.toBaseDeserializer d.separator
  itemData d

def separator (d : ArrayDeserializer) : Lexer Unit := fun t =>
  if t = [] then .ok ((), t) else separatorChars d t

def item (d : ArrayDeserializer) (ret : Bytes) : Lexer Bytes := do
  if d.hasRunningName then
    skipName d.toBaseDeserializer
    skipChar d.toBaseDeserializer equals
    itemData d
  let ret ← value d.toBaseDeserializer (· = d.separator) ret d.itemsType
  separator d
  pure (ret ++ [comma])

def items (d : ArrayDeserializer) : Nat → Bytes → Lexer Bytes
  | 0, ret => pure ret
  | n + 1, ret => fun t => if t = [] then .ok (ret, t) else (item d ret >>= items d n) t

def allItems (d : ArrayDeserializer) : Lexer Bytes := fun t => items d t.length (lit "[") t

def array (d : ArrayDeserializer) : Lexer Bytes := do
  startChar d.toBaseDeserializer
  if d.skipName && !d.hasRunningName then
    skipName d.toBaseDeserializer
    skipChar d.toBaseDeserializer equals
  data d.toBaseDeserializer
  let ret ← allItems d
  finish d.toBaseDeserializer
  pure (if ret.getLast? = some comma then ret.dropLast ++ lit "]" else ret ++ lit "]")

def content (d : ContentDeserializer) : Lexer Bytes := do
  startChar d.toBaseDeserializer
  if d.skipName then
    skipName d.toBaseDeserializer
    skipChar d.toBaseDeserializer equals
  let ret ← decode d.toBaseDeserializer fun _ => false
  finish d.toBaseDeserializer
  pure ret

section

variable {buf : Nat → UInt8} {e : Nat}

theorem refines_startChar {d : BaseDeserializer} {cur : Cursor} (hp : cur.pos ≤ e)
    (hs : cur.seen ≤ e) (h : d.start = 0 ∨ cur.pos < e) :
    RefinesAt buf e cur (checkNSkipStart d buf) (startChar d) := by
  by_cases h0 : d.start = 0
  · have hrun : checkNSkipStart d buf = Pure.pure () := by simp [checkNSkipStart, h0]
    rw [hrun]
    exact (RefinesAt.pure () hp hs).congr (by simp [startChar, h0])
  · have hlt : cur.pos < e := h.resolve_left h0
    have hrun : checkNSkipStart d buf cur =
        Scan.look buf e (fun b => if b = d.start then Scan.advance 1 else Scan.throw d.wrongStart)
          (Scan.throw d.wrongStart) cur := by
      simp [checkNSkipStart, h0, Scan.look, Scan.position, Bind.bind, hlt]
    have hlook := (RefinesAt.look (g := fun b =>
        if b = d.start then Lexer.drop 1 else Lexer.fail d.wrongStart)
      (f := Lexer.fail d.wrongStart) hs
      (fun b s hlt hs' => RefinesAt.ite (fun _ => RefinesAt.advance_only hlt hs') fun _ =>
        RefinesAt.throw _ hp hs')
      fun _ => @RefinesAt.throw _ _ _ buf e cur d.wrongStart hp hs).congr (g := startChar d) (by
        cases slice buf cur.pos e <;> simp [startChar, h0])
    unfold RefinesAt at *
    rwa [hrun]

/-- What follows the name, or stands alone where there is none. -/
theorem refines_named {α : Type} {d : BaseDeserializer} {c : Prop} [Decidable c] {m : Scanner α}
    {f : Lexer α} (h : Refines buf e m f) :
    Refines buf e
      (if c then checkNSkipName d buf e >>= fun _ => checkNSkipChar d buf e equals >>= fun _ => m
        else m)
      (if c then skipName d >>= fun _ => skipChar d equals >>= fun _ => f else f) :=
  Refines.ite (fun _ => refines_skipName.bind fun _ => (refines_skipChar _).bind fun _ => h)
    fun _ => h

/-- What stands in front of the data: the first character, and the name where it is due. -/
def lead (d : BaseDeserializer) (named : Bool) : Bytes :=
  (if d.start = 0 then [] else [d.start]) ++ if named then d.paramName ++ [equals] else []

/-- Behind what stands in front of the data, the lexer is the one for the data. -/
theorem lead_append {α : Type} (d : BaseDeserializer) (named : Bool) (f : Lexer α) (t : Bytes) :
    (startChar d >>= fun _ =>
      if named then skipName d >>= fun _ => skipChar d equals >>= fun _ => f else f)
        (lead d named ++ t) = f t := by
  have hstart : ∀ u, startChar d ((if d.start = 0 then [] else [d.start]) ++ u) = .ok ((), u) := by
    intro u
    by_cases h0 : d.start = 0 <;> simp [startChar, h0]
  rw [lead, List.append_assoc, Lexer.bind_apply, hstart]
  simp only [Lexer.ite_apply]
  split
  · have hname : skipName d (d.paramName ++ ([equals] ++ t)) = .ok ((), [equals] ++ t) :=
      skipName_eq_ok_iff.mpr rfl
    rw [List.append_assoc, Lexer.bind_apply, hname]
    simp [Lexer.bind_apply, skipChar]
  · simp

theorem refines_primitive {d : PrimitiveDeserializer} {cur : Cursor} (hp : cur.pos ≤ e)
    (hs : cur.seen ≤ e) (h : d.start = 0 ∨ cur.pos < e) :
    RefinesAt buf e cur (d.deserialize buf e) (primitive d) := by
  have hvalue : Refines buf e (d.deserializeValue buf e [])
      (value d.toBaseDeserializer (fun _ => false) [] d.paramType) := by
    unfold PrimitiveDeserializer.deserializeValue
    cases d.paramType with
    | BOOLEAN => exact refines_boolean []
    | INTEGER => exact refines_integer []
    | NUMBER => exact refines_number []
    | STRING => exact refines_string []
  refine (refines_startChar hp hs h).bind fun _ c' _ hp' hs' _ => refines_named ?_ c' hp' hs'
  exact refines_data.bind fun _ => hvalue.bind fun ret => refines_finish.bind fun _ =>
    Refines.pure ret

/-! ### Arrays -/

theorem refines_itemData {d : ArrayDeserializer} :
    Refines buf e (d.checkElementData e) (itemData d) := by
  intro cur hp hs
  exact (RefinesAt.before (fun _ => RefinesAt.pure () hp hs)
    fun _ => RefinesAt.throw d.noItemData hp hs).congr rfl

theorem refines_separator {d : ArrayDeserializer} :
    Refines buf e (d.checkSeparator buf e) (separator d) := by
  intro cur hp hs
  refine (RefinesAt.before (f := separatorChars d) (fun _ => ?_) fun _ =>
    RefinesAt.pure () hp hs).congr rfl
  exact Refines.ite (fun _ => (refines_skipChar _).bind fun _ => (refines_skipChar _).bind fun _ =>
      (refines_skipChar _).bind fun _ => refines_itemData)
    (fun _ => (refines_skipChar _).bind fun _ => refines_itemData) cur hp hs

theorem refines_item {d : ArrayDeserializer} (ret : Bytes) :
    Refines buf e (d.deserializeElement buf e ret) (item d ret) := by
  have hvalue : Refines buf e (d.deserializeItem buf e ret)
      (value d.toBaseDeserializer (· = d.separator) ret d.itemsType) := by
    unfold ArrayDeserializer.deserializeItem
    cases d.itemsType with
    | BOOLEAN => exact refines_boolean ret
    | INTEGER => exact refines_integer ret
    | NUMBER => exact refines_number ret
    | STRING => exact refines_stringTo d.separator ret
  have hrest := hvalue.bind fun ret => (refines_separator (d := d)).bind fun _ =>
    Refines.pure (ret ++ [comma])
  exact Refines.ite (fun _ => refines_skipName.bind fun _ => (refines_skipChar _).bind fun _ =>
    refines_itemData.bind fun _ => hrest) fun _ => hrest

theorem itemData_eq_ok_iff {d : ArrayDeserializer} {t rest : Bytes} {u : Unit} :
    itemData d t = .ok (u, rest) ↔ t ≠ [] ∧ rest = t := by
  unfold itemData
  split <;> simp_all [eq_comm]

/-- A separator takes a byte of a text that is not at its end. -/
theorem separator_length {d : ArrayDeserializer} {t rest : Bytes} {u : Unit}
    (h : separator d t = .ok (u, rest)) (hne : t ≠ []) : rest.length < t.length := by
  unfold separator separatorChars at h
  rw [if_neg hne, Lexer.ite_apply] at h
  split at h
  · simp only [Lexer.bind_eq_ok_iff, skipChar_eq_ok_iff, itemData_eq_ok_iff] at h
    grind
  · simp only [Lexer.bind_eq_ok_iff, skipChar_eq_ok_iff, itemData_eq_ok_iff] at h
    grind

theorem item_length {d : ArrayDeserializer} {ret t out rest : Bytes}
    (h : item d ret t = .ok (out, rest)) (hne : t ≠ []) : rest.length < t.length := by
  have hvalue : ∀ {t' : Bytes}, t' ≠ [] → (value d.toBaseDeserializer (· = d.separator) ret
      d.itemsType >>= fun ret => separator d >>= fun _ => Pure.pure (ret ++ [comma])) t' =
        .ok (out, rest) → rest.length < t'.length := by
    intro t' hne' h'
    obtain ⟨ret', mid, hv, h'⟩ := Lexer.bind_eq_ok_iff.mp h'
    obtain ⟨u, mid', hsep, hpure⟩ := Lexer.bind_eq_ok_iff.mp h'
    obtain ⟨word, _, rfl, -, -⟩ := value_eq_ok hv
    obtain rfl : mid' = rest := (by simpa using hpure : _ ∧ mid' = rest).2
    by_cases hmid : mid = []
    · -- the value reached the end of the text
      subst hmid
      obtain rfl : [] = mid' := by simpa [separator] using hsep
      exact List.length_pos_iff.mpr hne'
    · have := separator_length hsep hmid
      simp only [List.length_append]
      omega
  simp only [item, Lexer.ite_apply] at h
  split at h
  · obtain ⟨_, mid, hname, h1⟩ := Lexer.bind_eq_ok_iff.mp h
    obtain ⟨_, mid', hchar, h2⟩ := Lexer.bind_eq_ok_iff.mp h1
    obtain ⟨_, mid'', hdata, h3⟩ := Lexer.bind_eq_ok_iff.mp h2
    obtain rfl := skipName_eq_ok_iff.mp hname
    obtain ⟨hne', rfl⟩ := itemData_eq_ok_iff.mp hdata
    have := hvalue hne' h3
    rcases skipChar_eq_ok_iff.mp hchar with ⟨rfl, rfl⟩ | rfl
    · exact absurd rfl hne'
    · simp only [List.length_append, List.length_cons]
      omega
  · exact hvalue hne h

theorem refines_items {d : ArrayDeserializer} (n : Nat) (ret : Bytes) (cur : Cursor)
    (hn : e - cur.pos ≤ n) (hp : cur.pos ≤ e) (hs : cur.seen ≤ e) :
    RefinesAt buf e cur (d.deserializeItems buf e n ret) (items d n ret) := by
  induction n generalizing ret cur with
  | zero => exact RefinesAt.pure ret hp hs
  | succ n ih =>
    refine (RefinesAt.before (f := item d ret >>= items d n) (fun hlt => ?_) fun _ =>
      RefinesAt.pure ret hp hs).congr rfl
    refine (refines_item ret cur hp hs).bind fun ret' c' _ hp' hs' hitem => ih ret' c' ?_ hp' hs'
    have := item_length hitem (by simpa [slice_eq_nil_iff] using hlt)
    simp only [length_slice] at this
    omega

theorem refines_array {d : ArrayDeserializer} {cur : Cursor} (hp : cur.pos ≤ e)
    (hs : cur.seen ≤ e) (h : d.start = 0 ∨ cur.pos < e) :
    RefinesAt buf e cur (d.deserialize buf e) (array d) := by
  refine (refines_startChar hp hs h).bind fun _ c' _ hp' hs' _ => refines_named ?_ c' hp' hs'
  refine refines_data.bind fun _ c'' hp'' hs'' => RefinesAt.position ?_
  refine RefinesAt.bind (f := allItems d)
    ((refines_items (e - c''.pos) (lit "[") c'' le_rfl hp'' hs'').congr (by simp [allItems]))
    fun ret c3 _ hp3 hs3 _ => ?_
  exact refines_finish.bind (fun _ => Refines.pure _) c3 hp3 hs3

theorem refines_content {d : ContentDeserializer} {cur : Cursor} (hp : cur.pos ≤ e)
    (hs : cur.seen ≤ e) (h : d.start = 0 ∨ cur.pos < e) :
    RefinesAt buf e cur (d.deserialize buf e) (content d) := by
  refine (refines_startChar hp hs h).bind fun _ c' _ hp' hs' _ => refines_named ?_ c' hp' hs'
  intro c'' hp'' hs''
  refine RefinesAt.position ?_
  rw [if_neg (by omega)]
  refine RefinesAt.position ((((refines_decodeLoop (fun _ => false) (e - c''.pos) [] c'' le_rfl hp''
    hs'').congr (g := decode d.toBaseDeserializer fun _ => false) ?_).bind fun ret c3 _ hp3 hs3 _ =>
      refines_finish.bind (fun _ => Refines.pure ret) c3 hp3 hs3))
  simp only [Lexer.bind_apply]
  cases decode d.toBaseDeserializer (fun _ => false) (slice buf c''.pos e) <;> rfl

end

end OasValidator.Text
