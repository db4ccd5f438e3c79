import OasValidator.Deserializer.Locality
import OasValidator.Library.JsonText

/-! How deserializers fail.  Each exception carries a member `description` of an error text, and its
message is the name of the parameter, or the character that the parameter should start with, between
fixed words. -/

namespace OasValidator

open Library.Json Library.Scanning Library.Scanning.Scan BaseDeserializer

/-- An exception whose message needs no escape if the name and the first character of the parameter
need none. -/
def Described (d : BaseDeserializer) (x : DeserializeError) : Prop :=
  x = .lengthError ∨ ∃ message, x = DeserializationException message ∧
    (NeedsNoEscape d.paramName → (d.start ≠ 0 → NeedsNoEscape [d.start]) → NeedsNoEscape message)

/-- The same for an exception alone. -/
def Named (d : BaseDeserializer) (x : DeserializeError) : Prop :=
  ∃ message, x = DeserializationException message ∧
    (NeedsNoEscape d.paramName → (d.start ≠ 0 → NeedsNoEscape [d.start]) → NeedsNoEscape message)

theorem Named.described {d : BaseDeserializer} {x : DeserializeError} (h : Named d x) :
    Described d x :=
  Or.inr h

theorem Named.ne_lengthError {d : BaseDeserializer} {x : DeserializeError} (h : Named d x) :
    x ≠ .lengthError := by
  obtain ⟨message, rfl, -⟩ := h
  nofun

/-- The name between fixed words. -/
theorem Named.words {d : BaseDeserializer} {before behind : Bytes} (hb : NeedsNoEscape before)
    (hb' : NeedsNoEscape behind) :
    Named d (DeserializationException (before ++ d.paramName ++ behind)) := by
  refine ⟨_, rfl, fun hname _ => ?_⟩
  rw [needsNoEscape_append, needsNoEscape_append]
  exact ⟨⟨hb, hname⟩, hb'⟩

section

variable {d : BaseDeserializer} {buf : Nat → UInt8} {e : Nat}

theorem fails_start : Fails (Named d) (checkNSkipStart d buf) := by
  unfold checkNSkipStart
  by_cases h0 : d.start = 0
  · rw [if_neg (not_not.mpr h0)]
    exact Fails.pure ()
  · rw [if_pos h0]
    refine (Fails.peekAt buf 0).bind fun _ => Fails.ite (Fails.advance 1) (Fails.throw ?_)
    refine ⟨_, rfl, fun hname hstart => ?_⟩
    simp only [needsNoEscape_append]
    exact ⟨⟨⟨⟨by decide, hname⟩, by decide⟩, hstart h0⟩, by decide⟩

theorem fails_char (c : UInt8) : Fails (Named d) (checkNSkipChar d buf e c) :=
  Fails.look (fun _ => Fails.ite (Fails.advance 1) (Fails.throw (.words (by decide) (by decide))))
    (Fails.pure ())

theorem fails_name : Fails (Named d) (checkNSkipName d buf e) :=
  (Fails.startsWith buf e _).bind fun _ =>
    Fails.ite (Fails.advance _) (Fails.throw (.words (by decide) (by decide)))

theorem fails_data : Fails (Named d) (checkData d e) :=
  Fails.before (Fails.pure ()) (Fails.throw (.words (by decide) (by decide)))

theorem fails_end : Fails (Named d) (checkEnd d e) :=
  Fails.position.bind fun _ =>
    Fails.ite (Fails.throw (.words (by decide) (by decide))) (Fails.pure ())

/-- What follows the name, or stands alone where there is none. -/
theorem fails_named {α : Type} {c : Prop} [Decidable c] {m : Scanner α} (h : Fails (Named d) m) :
    Fails (Named d)
      (if c then checkNSkipName d buf e >>= fun _ => checkNSkipChar d buf e equals >>= fun _ => m
        else m) :=
  Fails.ite (fails_name.bind fun _ => (fails_char _).bind fun _ => h) h

theorem fails_boolean (ret : Bytes) : Fails (Named d) (deserializeBoolean d buf e ret) :=
  (Fails.startsWith buf e _).bind fun _ => Fails.ite ((Fails.advance _).bind fun _ => Fails.pure _)
    ((Fails.startsWith buf e _).bind fun _ => Fails.ite
      ((Fails.advance _).bind fun _ => Fails.pure _) (Fails.throw (.words (by decide) (by decide))))

theorem fails_minus {p : DeserializeError → Prop} : Fails p (skipMinus buf e) :=
  Fails.look (fun _ => Fails.ite (Fails.advance 1) (Fails.pure ())) (Fails.pure ())

theorem fails_digits {p : DeserializeError → Prop} (n : Nat) : Fails p (skipDigits buf e n) := by
  induction n with
  | zero => exact Fails.pure ()
  | succ n ih =>
    exact Fails.look (fun _ => Fails.ite ((Fails.advance 1).bind fun _ => ih) (Fails.pure ()))
      (Fails.pure ())

theorem fails_integer (ret : Bytes) : Fails (Named d) (deserializeInteger d buf e ret) := by
  refine (Fails.taken (fails_minus.bind fun _ => Fails.position.bind fun _ =>
    fails_digits _)).bind fun _ => ?_
  exact Fails.ite (Fails.pure _) (Fails.throw (.words (by decide) (by decide)))

theorem fails_skipNumber (n : Nat) (hasDecimalPoint : Bool) :
    Fails (Named d) (skipNumber d buf e n hasDecimalPoint) := by
  induction n generalizing hasDecimalPoint with
  | zero => exact Fails.pure _
  | succ n ih =>
    refine Fails.look (fun b => Fails.ite (Fails.ite ?_ ?_) (Fails.pure _)) (Fails.pure _)
    · exact Fails.throw (.words (by decide) (by decide))
    · exact (Fails.advance 1).bind fun _ => ih _

theorem fails_number (ret : Bytes) : Fails (Named d) (deserializeNumber d buf e ret) := by
  refine (Fails.taken (fails_minus.bind fun _ => Fails.position.bind fun _ =>
    fails_skipNumber _ _)).bind fun _ => ?_
  exact Fails.ite (Fails.pure _) (Fails.throw (.words (by decide) (by decide)))

theorem fails_decodeLoop (stop : UInt8 → Bool) (n : Nat) (ret : Bytes) :
    Fails (Named d) (decodeLoop d buf e stop n ret) := by
  have hchar : ∀ c ret, Fails (Named d) (decodeChar d buf e c ret) := by
    intro c ret
    unfold decodeChar
    refine Fails.ite (Fails.lookTwo (fun _ _ => Fails.ite ?_ (Fails.pure _)) ?_)
      (Fails.ite (Fails.pure _) (Fails.pure _))
    · exact Fails.throw (.words (by decide) (by decide))
    · exact Fails.throw (.words (by decide) (by decide))
  induction n generalizing ret with
  | zero => exact Fails.pure _
  | succ n ih =>
    exact Fails.look (fun c => Fails.ite (Fails.pure _) ((Fails.advance 1).bind fun _ =>
      (hchar c ret).bind fun _ => ih _)) (Fails.pure _)

theorem fails_string (ret : Bytes) : Fails (Named d) (deserializeString d buf e ret) :=
  Fails.position.bind fun _ => (fails_decodeLoop _ _ _).bind fun _ => Fails.pure _

theorem fails_stringTo (terminator : UInt8) (ret : Bytes) :
    Fails (Named d) (deserializeStringTo d buf e terminator ret) :=
  Fails.position.bind fun _ => (fails_decodeLoop _ _ _).bind fun _ => Fails.pure _

end

/-! ### The deserializers -/

variable {buf : Nat → UInt8} {e : Nat}

theorem fails_primitive (d : PrimitiveDeserializer) :
    Fails (Named d.toBaseDeserializer) (d.deserialize buf e) := by
  have hvalue : Fails (Named d.toBaseDeserializer) (d.deserializeValue buf e []) := by
    unfold PrimitiveDeserializer.deserializeValue
    cases d.paramType with
    | BOOLEAN => exact fails_boolean []
    | INTEGER => exact fails_integer []
    | NUMBER => exact fails_number []
    | STRING => exact fails_string []
  exact fails_start.bind fun _ => fails_named <| fails_data.bind fun _ => hvalue.bind fun _ =>
    fails_end.bind fun _ => Fails.pure _

theorem fails_array (d : ArrayDeserializer) :
    Fails (Named d.toBaseDeserializer) (d.deserialize buf e) := by
  have hdata : Fails (Named d.toBaseDeserializer) (d.checkElementData e) :=
    Fails.before (Fails.pure ()) (Fails.throw (.words (by decide) (by decide)))
  have hseparator : Fails (Named d.toBaseDeserializer) (d.checkSeparator buf e) := by
    refine Fails.before (Fails.ite ?_ ?_) (Fails.pure ())
    · exact (fails_char _).bind fun _ => (fails_char _).bind fun _ => (fails_char _).bind fun _ =>
        hdata
    · exact (fails_char _).bind fun _ => hdata
  have hitem : ∀ ret, Fails (Named d.toBaseDeserializer) (d.deserializeItem buf e ret) := by
    intro ret
    unfold ArrayDeserializer.deserializeItem
    cases d.itemsType with
    | BOOLEAN => exact fails_boolean ret
    | INTEGER => exact fails_integer ret
    | NUMBER => exact fails_number ret
    | STRING => exact fails_stringTo _ ret
  have helement : ∀ ret, Fails (Named d.toBaseDeserializer) (d.deserializeElement buf e ret) := by
    intro ret
    have hrest := (hitem ret).bind fun ret => hseparator.bind fun _ =>
      @Fails.pure _ _ (Named d.toBaseDeserializer) (ret ++ [comma])
    exact Fails.ite (fails_name.bind fun _ => (fails_char _).bind fun _ => hdata.bind fun _ => hrest)
      hrest
  have hitems : ∀ n ret, Fails (Named d.toBaseDeserializer) (d.deserializeItems buf e n ret) := by
    intro n
    induction n with
    | zero => exact fun ret => Fails.pure ret
    | succ n ih => exact fun ret => Fails.before ((helement ret).bind ih) (Fails.pure ret)
  exact fails_start.bind fun _ => fails_named <| fails_data.bind fun _ => Fails.position.bind fun _ =>
    (hitems _ _).bind fun _ => fails_end.bind fun _ => Fails.pure _

theorem fails_object (d : ObjectDeserializer) :
    Fails (Named d.toBaseDeserializer) (d.deserialize buf e) := by
  have hloop : ∀ (terminator : UInt8) (n : Nat) (key : Bytes),
      Fails (Named d.toBaseDeserializer) (ObjectDeserializer.keyLoop buf e terminator n key) := by
    intro terminator n
    induction n with
    | zero => exact fun key => Fails.pure key
    | succ n ih =>
      exact fun key => Fails.look (fun b => Fails.ite (Fails.pure key)
        ((Fails.advance 1).bind fun _ => ih _)) (Fails.pure key)
  have hkey : ∀ terminator key, Fails (Named d.toBaseDeserializer)
      (ObjectDeserializer.deserializeKey buf e terminator key) := fun terminator _ =>
    Fails.position.bind fun _ => (hloop terminator _ _).bind fun _ =>
      (Fails.look (fun _ => Fails.ite (Fails.advance 1) (Fails.pure ())) (Fails.pure ())).bind
        fun _ => Fails.pure _
  have hread : Fails (Named d.toBaseDeserializer) (d.readKey buf e) :=
    Fails.ite (fails_name.bind fun _ => (fails_char _).bind fun _ => (hkey _ _).bind fun _ =>
      (fails_char _).bind fun _ => Fails.pure _) (hkey _ _)
  have hvalue : ∀ type ret,
      Fails (Named d.toBaseDeserializer) (d.deserializeValue buf e type ret) := by
    intro type ret
    cases type with
    | BOOLEAN => exact fails_boolean ret
    | INTEGER => exact fails_integer ret
    | NUMBER => exact fails_number ret
    | STRING => exact fails_stringTo _ ret
  have hmember : ∀ ret, Fails (Named d.toBaseDeserializer) (d.deserializeMember buf e ret) := by
    intro ret
    refine hread.bind fun key => ?_
    split
    · exact Fails.throw (.words (by decide) (by decide))
    · exact hvalue _ _
  have hskip : ∀ ret, Fails (Named d.toBaseDeserializer) (d.skipVkSeparator buf ret) := fun ret =>
    (Fails.peekAt buf 0).bind fun _ => Fails.ite ((Fails.advance 1).bind fun _ => Fails.pure _)
      (Fails.pure ret)
  have hmembers : ∀ n ret,
      Fails (Named d.toBaseDeserializer) (d.deserializeMembers buf e n ret) := by
    intro n
    induction n with
    | zero => exact fun ret => Fails.pure ret
    | succ n ih =>
      exact fun ret => Fails.before ((hmember ret).bind fun ret => (hskip ret).bind ih)
        (Fails.pure ret)
  have hhead : Fails (Named d.toBaseDeserializer) (d.checkNSkipHead buf e) :=
    fails_start.bind fun _ => fails_named fails_data
  exact hhead.bind fun _ => Fails.position.bind fun _ => (hmembers _ _).bind fun _ =>
    fails_end.bind fun _ => Fails.pure _

/-- The end of the deserializer of a content, from the size of its buffer on. -/
def contentData (d : ContentDeserializer) (buf : Nat → UInt8) (e : Nat) : Scanner Bytes := do
  let ret ← decodeLoop d.toBaseDeserializer buf e (fun _ => false) (e - (← position)) []
  checkEnd d.toBaseDeserializer e
  pure ret

def contentRest (d : ContentDeserializer) (buf : Nat → UInt8) (e : Nat) : Scanner Bytes := do
  if e < (← position) then throw .lengthError
  contentData d buf e

theorem content_eq (d : ContentDeserializer) :
    d.deserialize buf e = checkNSkipStart d.toBaseDeserializer buf >>= fun _ =>
      if d.skipName then checkNSkipName d.toBaseDeserializer buf e >>= fun _ =>
        checkNSkipChar d.toBaseDeserializer buf e equals >>= fun _ => contentRest d buf e
      else contentRest d buf e :=
  rfl

theorem fails_contentData (d : ContentDeserializer) :
    Fails (Named d.toBaseDeserializer) (contentData d buf e) :=
  Fails.position.bind fun _ => (fails_decodeLoop _ _ _).bind fun _ => fails_end.bind fun _ =>
    Fails.pure _

theorem fails_content (d : ContentDeserializer) :
    Fails (Described d.toBaseDeserializer) (d.deserialize buf e) := by
  have hlength : Described d.toBaseDeserializer .lengthError := Or.inl rfl
  have hnamed : ∀ {α : Type} {m : Scanner α}, Fails (Named d.toBaseDeserializer) m →
      Fails (Described d.toBaseDeserializer) m := fun h => h.mono fun _ hx => hx.described
  have hdata : Fails (Described d.toBaseDeserializer) (contentData d buf e) :=
    hnamed (fails_contentData d)
  have hrest : Fails (Described d.toBaseDeserializer) (contentRest d buf e) := by
    refine Fails.position.bind fun p => ?_
    split
    · exact (Fails.throw hlength).bind fun _ => hdata
    · exact hdata
  rw [content_eq]
  exact (hnamed fails_start).bind fun _ => Fails.ite ((hnamed fails_name).bind fun _ =>
    (hnamed (fails_char _)).bind fun _ => hrest) hrest

/-- A content whose first character is not found behind its range stays in the range. -/
theorem content_named (d : ContentDeserializer) {cur : Cursor} (hp : cur.pos ≤ e)
    (hs : cur.seen ≤ e) (h : d.start = 0 ∨ cur.pos < e ∨ buf cur.pos ≠ d.start)
    {x : DeserializeError} (hx : (d.deserialize buf e cur).1 = .error x) :
    Named d.toBaseDeserializer x := by
  rw [content_eq] at hx
  have hrest : FailsUpTo (Named d.toBaseDeserializer) e (contentRest d buf e) :=
    FailsUpTo.guard (fails_contentData d).upTo
  have hall : ∀ _ : Unit, FailsUpTo (Named d.toBaseDeserializer) e
      (if d.skipName then checkNSkipName d.toBaseDeserializer buf e >>= fun _ =>
        checkNSkipChar d.toBaseDeserializer buf e equals >>= fun _ => contentRest d buf e
      else contentRest d buf e) := by
    intro _
    split
    · exact .bind fails_name Text.refines_skipName fun _ =>
        .bind (fails_char _) (Text.refines_skipChar _) fun _ => hrest
    · exact hrest
  by_cases hstart : d.start = 0 ∨ cur.pos < e
  · exact fails_start.bindAt (Text.refines_startChar hp hs hstart) hall hx
  · -- the range is empty, and what stands behind it is not the first character
    obtain ⟨hzero, hempty⟩ := not_or.mp hstart
    have hbyte : buf cur.pos ≠ d.start := (h.resolve_left hzero).resolve_left hempty
    have hrun : checkNSkipStart d.toBaseDeserializer buf cur =
        (.error d.wrongStart, ⟨cur.pos, max cur.seen (cur.pos + 1)⟩) := by
      simp [checkNSkipStart, hzero, Bind.bind, Scan.peek, Scan.peekAt, hbyte, Scan.throw]
    simp only [Bind.bind, hrun] at hx
    obtain rfl : d.wrongStart = x := Except.error.inj hx
    exact fails_start cur _ (by rw [hrun])

/-- A deserializer fails with an exception where its first character is not found behind an empty
range. -/
theorem deserialize_named {d : Deserializer} {beg : Nat} (hbeg : beg ≤ e)
    (h : d.toBase.start = 0 ∨ beg < e ∨ buf beg ≠ d.toBase.start) {x : DeserializeError}
    (hx : (d.deserialize buf beg e).1 = .error x) : Named d.toBase x := by
  cases d with
  | primitive d => exact fails_primitive d _ _ hx
  | array d => exact fails_array d _ _ hx
  | object d => exact fails_object d _ _ hx
  | content d => exact @content_named buf e d ⟨beg, 0⟩ hbeg (Nat.zero_le e) h x hx

/-- A deserializer fails with an exception that names its parameter. -/
theorem deserialize_fails {d : Deserializer} {beg : Nat} {x : DeserializeError}
    (h : (d.deserialize buf beg e).1 = .error x) : Described d.toBase x := by
  cases d with
  | primitive d => exact (fails_primitive d _ _ h).described
  | array d => exact (fails_array d _ _ h).described
  | object d => exact (fails_object d _ _ h).described
  | content d => exact fails_content d _ _ h

end OasValidator
