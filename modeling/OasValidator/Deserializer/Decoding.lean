import OasValidator.Deserializer.Text

/-! The percent decoders against one reference.  A decoder fails just where an escape in front of the
first terminator is not whole inside the range, and otherwise gives the reference decoding of what
stands there. -/

namespace OasValidator

open Library.Json (hexValue)
open Library.Scanning BaseDeserializer Text

/-! ### The reference -/

def IsHex (c : UInt8) : Prop := (hexValue c).isSome

/-- The byte that two hexadecimal digits stand for. -/
def hexByte (a b : UInt8) : UInt8 := UInt8.ofNat (16 * (hexValue a).getD 0 + (hexValue b).getD 0)

/-- The bytes that a text stands for whose escapes are whole. -/
def percentDecoded : Bytes → Bytes
  | [] => []
  | c :: t =>
    if c = percent then
      match t with
      | a :: b :: t => hexByte a b :: percentDecoded t
      | _ => []
    else (if c = '+'.toUInt8 then ' '.toUInt8 else c) :: percentDecoded t

/-- The text goes on with two hexadecimal digits. -/
def TwoDigits (t : Bytes) : Prop := ∃ a b rest, t = a :: b :: rest ∧ IsHex a ∧ IsHex b

/-- Some `%` in front of the first byte that `stop` holds of is not followed by two digits. -/
def BrokenEscape (stop : UInt8 → Bool) (t : Bytes) : Prop :=
  ∃ front behind, t = front ++ percent :: behind ∧ (∀ c ∈ front, stop c = false) ∧
    stop percent = false ∧ ¬TwoDigits behind

/-- What stands in front of the first byte that `stop` holds of. -/
def upTo (stop : UInt8 → Bool) (t : Bytes) : Bytes := t.takeWhile fun c => !stop c

/-! ### Digits and bytes -/

theorem kHexLookupTable_eq (c : UInt8) :
    kHexLookupTable c = match hexValue c with
      | some x => (x : Int)
      | none => -1 := by
  apply @forall_byte fun c => kHexLookupTable c = match hexValue c with
    | some x => (x : Int)
    | none => -1
  decide +kernel

theorem kHexLookupTable_neg_iff (c : UInt8) : kHexLookupTable c < 0 ↔ ¬IsHex c := by
  rw [kHexLookupTable_eq, IsHex]
  cases hexValue c <;> simp

theorem hexValue_lt {c : UInt8} {x : Nat} (h : hexValue c = some x) : x < 16 := by
  have hall : ∀ c : UInt8, ((hexValue c).all fun x => decide (x < 16)) = true := by
    apply @forall_byte fun c => ((hexValue c).all fun x => decide (x < 16)) = true
    decide +kernel
  simpa [h] using hall c

/-- The table's values fit into a signed `char`, and two digits, shifted and joined, into a byte. -/
theorem charOf_exact {a b : UInt8} {x y : Nat} (ha : hexValue a = some x) (hb : hexValue b = some y) :
    kHexLookupTable a = x ∧ kHexLookupTable b = y ∧ x ≤ 127 ∧ y ≤ 127 ∧
      x <<< 4 ||| y = 16 * x + y ∧
      (charOf (kHexLookupTable a) (kHexLookupTable b)).toNat = 16 * x + y := by
  have hx := hexValue_lt ha
  have hy := hexValue_lt hb
  have htable : kHexLookupTable a = x ∧ kHexLookupTable b = y := by
    rw [kHexLookupTable_eq, kHexLookupTable_eq, ha, hb]
    exact ⟨rfl, rfl⟩
  have hor : x <<< 4 ||| y = 16 * x + y := by
    rw [← Nat.shiftLeft_add_eq_or_of_lt (show y < 2 ^ 4 by omega), Nat.shiftLeft_eq]
    omega
  refine ⟨htable.1, htable.2, by omega, by omega, hor, ?_⟩
  rw [charOf, htable.1, htable.2, Int.toNat_natCast, Int.toNat_natCast, hor, UInt8.toNat_ofNat']
  omega

theorem charOf_hexByte {a b : UInt8} (ha : IsHex a) (hb : IsHex b) :
    charOf (kHexLookupTable a) (kHexLookupTable b) = hexByte a b := by
  obtain ⟨x, hx⟩ := Option.isSome_iff_exists.mp ha
  obtain ⟨y, hy⟩ := Option.isSome_iff_exists.mp hb
  obtain ⟨hta, htb, -, -, hor, -⟩ := charOf_exact hx hy
  rw [charOf, hta, htb, Int.toNat_natCast, Int.toNat_natCast, hor, hexByte, hx, hy]
  rfl

/-! ### Broken escapes -/

section

variable {stop : UInt8 → Bool} {c : UInt8} {t : Bytes}

theorem not_brokenEscape_nil : ¬BrokenEscape stop [] := by
  rintro ⟨front, behind, h, -⟩
  simp at h

theorem brokenEscape_cons : BrokenEscape stop (c :: t) ↔
    stop c = false ∧ (c = percent ∧ ¬TwoDigits t ∨ BrokenEscape stop t) := by
  constructor
  · rintro ⟨front, behind, h, hfront, hpercent, hdigits⟩
    cases front with
    | nil =>
      obtain ⟨rfl, rfl⟩ := List.cons.inj h
      exact ⟨hpercent, Or.inl ⟨rfl, hdigits⟩⟩
    | cons a front =>
      obtain ⟨rfl, rfl⟩ := List.cons.inj h
      exact ⟨hfront c (by simp), Or.inr ⟨front, behind, rfl,
        fun b hb => hfront b (List.mem_cons_of_mem _ hb), hpercent, hdigits⟩⟩
  · rintro ⟨hc, ⟨rfl, hdigits⟩ | ⟨front, behind, rfl, hfront, hpercent, hdigits⟩⟩
    · exact ⟨[], t, rfl, by simp, hc, hdigits⟩
    · refine ⟨c :: front, behind, rfl, ?_, hpercent, hdigits⟩
      simp only [List.forall_mem_cons]
      exact ⟨hc, hfront⟩

theorem brokenEscape_digit (hstop : ∀ c, IsHex c → stop c = false) (hc : IsHex c) :
    BrokenEscape stop (c :: t) ↔ BrokenEscape stop t := by
  have hne : c ≠ percent := by
    rintro rfl
    simp [IsHex, show hexValue percent = none by decide] at hc
  simp [brokenEscape_cons, hstop c hc, hne]

end

/-! ### The decoders -/

section

variable {d : BaseDeserializer} {stop : UInt8 → Bool}

/-- The text's decoder, by the cases of its recursion. -/
theorem decode_reference (hstop : ∀ c, IsHex c → stop c = false) (t : Bytes) :
    (∃ x, decode d stop t = .error x ∧ BrokenEscape stop t) ∨
      (decode d stop t = .ok (percentDecoded (upTo stop t), t.drop (upTo stop t).length) ∧
        ¬BrokenEscape stop t) := by
  induction t using decode.induct stop with
  | case1 => exact Or.inr ⟨rfl, not_brokenEscape_nil⟩
  | case2 c t hc =>
    refine Or.inr ⟨?_, ?_⟩
    · rw [decode.eq_def]
      simp [hc, upTo, percentDecoded]
    · simp [brokenEscape_cons, hc]
  | case3 a b t hneg hc =>
    refine Or.inl ⟨d.wrongHex, ?_, ?_⟩
    · rw [decode.eq_def]
      simp [hc, hneg]
    · simp only [kHexLookupTable_neg_iff] at hneg
      refine brokenEscape_cons.mpr ⟨by simpa using hc, Or.inl ⟨rfl, ?_⟩⟩
      rintro ⟨_, _, _, h, ha, hb⟩
      simp only [List.cons.injEq] at h
      obtain ⟨rfl, rfl, -⟩ := h
      exact hneg.elim (· ha) (· hb)
  | case4 a b t hneg hc ih =>
    simp only [kHexLookupTable_neg_iff, not_or, not_not] at hneg
    obtain ⟨ha, hb⟩ := hneg
    have hbroken : BrokenEscape stop (percent :: a :: b :: t) ↔ BrokenEscape stop t := by
      have htwo : TwoDigits (a :: b :: t) := ⟨a, b, t, rfl, ha, hb⟩
      rw [brokenEscape_cons, brokenEscape_digit hstop ha, brokenEscape_digit hstop hb]
      simp [hc, htwo]
    have hdecode : decode d stop (percent :: a :: b :: t) =
        (decode d stop t).map fun p => (hexByte a b :: p.1, p.2) := by
      rw [decode.eq_def]
      simp only [hc, if_false, if_true, kHexLookupTable_neg_iff, ha, hb, not_true, or_self,
        charOf_hexByte ha hb, Bool.false_eq_true]
    have hupTo : upTo stop (percent :: a :: b :: t) = percent :: a :: b :: upTo stop t := by
      simp [upTo, hc, hstop a ha, hstop b hb]
    rw [hbroken, hdecode, hupTo]
    rcases ih with ⟨x, hx, h⟩ | ⟨hok, h⟩
    · exact Or.inl ⟨x, by rw [hx]; rfl, h⟩
    · refine Or.inr ⟨?_, h⟩
      rw [hok]
      simp [Except.map, percentDecoded]
  | case5 t hshort hc =>
    refine Or.inl ⟨d.shortEscape, ?_, ?_⟩
    · rw [decode.eq_def]
      rcases t with _ | ⟨a, _ | ⟨b, t⟩⟩
      · simp [hc]
      · simp [hc]
      · exact absurd rfl (hshort a b t)
    · refine brokenEscape_cons.mpr ⟨by simpa using hc, Or.inl ⟨rfl, ?_⟩⟩
      rintro ⟨a, b, rest, rfl, -, -⟩
      exact hshort a b rest rfl
  | case6 c t hc hpercent ih =>
    have hbroken : BrokenEscape stop (c :: t) ↔ BrokenEscape stop t := by
      simp [brokenEscape_cons, hc, hpercent]
    have hupTo : upTo stop (c :: t) = c :: upTo stop t := by
      simp [upTo, hc]
    have hdecode : decode d stop (c :: t) = (decode d stop t).map fun p =>
        ((if c = '+'.toUInt8 then ' '.toUInt8 else c) :: p.1, p.2) := by
      rw [decode.eq_def]
      simp only [hc, hpercent, if_false, Bool.false_eq_true]
    rw [hbroken, hdecode, hupTo]
    rcases ih with ⟨x, hx, h⟩ | ⟨hok, h⟩
    · exact Or.inl ⟨x, by rw [hx]; rfl, h⟩
    · refine Or.inr ⟨?_, h⟩
      rw [hok, percentDecoded.eq_def (c :: upTo stop t)]
      simp [Except.map, hpercent]

variable (d stop) in
/-- From the cursor on, the decoder fails if and only if an escape in front of the first terminator is
broken.  Otherwise it consumes just what stands there, and returns the reference decoding of it with
`emit` around. -/
structure DecodesAs (buf : Nat → UInt8) (e : Nat) (cur : Cursor) (m : Scanner Bytes)
    (emit : Bytes → Bytes) : Prop where
  fails_iff : (∃ x, (m cur).1 = .error x) ↔ BrokenEscape stop (slice buf cur.pos e)
  decodes : ¬BrokenEscape stop (slice buf cur.pos e) →
    (m cur).1 = .ok (emit (percentDecoded (upTo stop (slice buf cur.pos e)))) ∧
      (m cur).2.pos = cur.pos + (upTo stop (slice buf cur.pos e)).length

variable {buf : Nat → UInt8} {e : Nat} {cur : Cursor}

theorem decodesAs_of_refines (hstop : ∀ c, IsHex c → stop c = false) {m : Scanner Bytes}
    {emit : Bytes → Bytes} (hpos : cur.pos ≤ e)
    (h : RefinesAt buf e cur m (do
      let out ← decode d stop
      pure (emit out))) : DecodesAs stop buf e cur m emit := by
  obtain ⟨hle, hend, -, hres⟩ := h
  rw [Lexer.bind_apply] at hres
  rcases decode_reference (d := d) hstop (slice buf cur.pos e) with ⟨x, hx, hbroken⟩ | ⟨hok, hwhole⟩
  · rw [hx] at hres
    exact ⟨iff_of_true ⟨x, hres⟩ hbroken, fun h => absurd hbroken h⟩
  · rw [hok] at hres
    obtain ⟨hout, hrest⟩ := hres
    refine ⟨iff_of_false ?_ hwhole, fun _ => ⟨hout, ?_⟩⟩
    · rintro ⟨x, hx⟩
      rw [hout] at hx
      simp at hx
    · -- what is left tells how far the cursor went
      have hlen := congrArg List.length hrest
      have hfront : (upTo stop (slice buf cur.pos e)).length ≤ (slice buf cur.pos e).length :=
        (List.takeWhile_sublist _).length_le
      simp only [List.length_drop, length_slice] at hlen hfront
      omega

theorem never_stops (c : UInt8) (_ : IsHex c) : (fun _ => false : UInt8 → Bool) c = false := rfl

/-- The three decoders agree with the reference: `DeserializeString` with and without a terminator that
is no hexadecimal digit, and the loop of the content deserializer.  No byte that they emit for an
escape has lost a bit. -/
theorem decoders_agree (d : BaseDeserializer) (buf : Nat → UInt8) (e : Nat) (cur : Cursor)
    (terminator : UInt8) (ret : Bytes) (hpos : cur.pos ≤ e) (hseen : cur.seen ≤ e)
    (hterminator : ¬IsHex terminator) :
    DecodesAs (fun _ => false) buf e cur (deserializeString d buf e ret)
        (fun out => ret ++ quote :: out ++ [quote]) ∧
      DecodesAs (· = terminator) buf e cur (deserializeStringTo d buf e terminator ret)
        (fun out => ret ++ quote :: out ++ [quote]) ∧
      DecodesAs (fun _ => false) buf e cur (decodeLoop d buf e (fun _ => false) (e - cur.pos) ret)
        (fun out => ret ++ out) ∧
      ∀ a b x y, hexValue a = some x → hexValue b = some y →
        kHexLookupTable a = x ∧ kHexLookupTable b = y ∧ x ≤ 127 ∧ y ≤ 127 ∧
          x <<< 4 ||| y = 16 * x + y ∧
          (charOf (kHexLookupTable a) (kHexLookupTable b)).toNat = 16 * x + y := by
  have hstop : ∀ c, IsHex c → decide (c = terminator) = false := by
    rintro c hc
    rw [decide_eq_false_iff_not]
    rintro rfl
    exact hterminator hc
  refine ⟨?_, ?_, ?_, fun a b x y => charOf_exact⟩
  · refine decodesAs_of_refines (d := d) never_stops hpos ((refines_string ret cur hpos hseen).congr ?_)
    simp [string]
  · refine decodesAs_of_refines (d := d) hstop hpos
      ((refines_stringTo terminator ret cur hpos hseen).congr ?_)
    simp [string]
  · exact decodesAs_of_refines never_stops hpos
      (refines_decodeLoop (fun _ => false) (e - cur.pos) ret cur le_rfl hpos hseen)

theorem decoders_agree_comma : DecodesAs (· = comma) (dataOf (lit "a%20+b,c")) 8 ⟨0, 0⟩
    (deserializeStringTo ⟨lit "tags", 0, false⟩ (dataOf (lit "a%20+b,c")) 8 comma [])
    (fun out => [] ++ quote :: out ++ [quote]) :=
  (decoders_agree ⟨lit "tags", 0, false⟩ (dataOf (lit "a%20+b,c")) 8 ⟨0, 0⟩ comma [] (by decide)
    (by decide) (by simp [IsHex, show hexValue comma = none by decide])).2.1

end

end OasValidator
