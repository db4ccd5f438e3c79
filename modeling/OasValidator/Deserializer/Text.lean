import OasValidator.Deserializer.Deserialize

/-! What the scanning functions do to the text of a range.  Each function of this module says, for a
list of bytes, what its namesake reads from a range with these bytes and what it leaves; the scanning
function refines it, so it inspects no byte behind the range. -/

namespace OasValidator.Text

open Library.Scanning BaseDeserializer

abbrev Lexer := Library.Scanning.Lexer UInt8 DeserializeError

variable (d : BaseDeserializer)

def skipChar (c : UInt8) : Lexer Unit
  | [] => .ok ((), [])
  | b :: t => if b = c then .ok ((), t) else .error d.wrongChar

def skipName : Lexer Unit := fun t =>
  if d.paramName.isPrefixOf t then .ok ((), t.drop d.paramName.length) else .error d.wrongName

def data : Lexer Unit := fun t => if t = [] then .error d.noData else .ok ((), t)

def finish : Lexer Unit := fun t => if t = [] then .ok ((), []) else .error d.wrongEnd

def boolean (ret : Bytes) : Lexer Bytes := fun t =>
  if (lit "true").isPrefixOf t then .ok (ret ++ lit "true", t.drop (lit "true").length)
  else if (lit "false").isPrefixOf t then .ok (ret ++ lit "false", t.drop (lit "false").length)
  else .error d.wrongBoolean

/-- The text behind a minus sign, if there is one. -/
def dropMinus : Bytes → Bytes
  | [] => []
  | b :: t => if b = minus then t else b :: t

def sign : Lexer Unit := fun t => .ok ((), dropMinus t)

def digits : Lexer Unit := fun t => .ok ((), t.dropWhile isDigit)

def integer (ret : Bytes) : Lexer Bytes := do
  let (_, word) ← Lexer.taken (do sign; digits)
  if integerWord word then pure (ret ++ word) else Lexer.fail d.wrongInteger

/-- The digits and the point of a number, and what they leave. -/
def numberRest (hasDecimalPoint : Bool) : Lexer Bool
  | [] => .ok (hasDecimalPoint, [])
  | b :: t =>
    if isDigit b ∨ b = point then
      if b = point ∧ hasDecimalPoint then .error d.manyPoints
      else numberRest (hasDecimalPoint || b = point) t
    else .ok (hasDecimalPoint, b :: t)

def number (ret : Bytes) : Lexer Bytes := do
  let (hasDecimalPoint, word) ← Lexer.taken (do sign; numberRest d false)
  if numberWord hasDecimalPoint word then pure (ret ++ word) else Lexer.fail d.wrongNumber

/-- The byte that `c` and what follows it stand for. -/
def decodeOne (c : UInt8) : Lexer UInt8 := fun t =>
  if c = percent then
    match t with
    | a :: b :: rest =>
      if kHexLookupTable a < 0 ∨ kHexLookupTable b < 0 then .error d.wrongHex
      else .ok (charOf (kHexLookupTable a) (kHexLookupTable b), rest)
    | _ => .error d.shortEscape
  else .ok (if c = '+'.toUInt8 then ' '.toUInt8 else c, t)

/-- The decoded bytes in front of the first byte that `stop` holds of. -/
def decode (stop : UInt8 → Bool) : Lexer Bytes
  | [] => .ok ([], [])
  | c :: t =>
    if stop c then .ok ([], c :: t)
    else if c = percent then
      match t with
      | a :: b :: t =>
        if kHexLookupTable a < 0 ∨ kHexLookupTable b < 0 then .error d.wrongHex
        else (decode stop t).map fun p => (charOf (kHexLookupTable a) (kHexLookupTable b) :: p.1, p.2)
      | _ => .error d.shortEscape
    else (decode stop t).map fun p => ((if c = '+'.toUInt8 then ' '.toUInt8 else c) :: p.1, p.2)

theorem decode_cons (stop : UInt8 → Bool) (c : UInt8) (t : Bytes) :
    decode d stop (c :: t) =
      if stop c then .ok ([], c :: t)
      else match decodeOne d c t with
        | .ok (b, rest) => (decode d stop rest).map fun p => (b :: p.1, p.2)
        | .error x => .error x := by
  rw [decode.eq_def]
  simp only [decodeOne]
  split
  · rfl
  · by_cases hc : c = percent
    · rcases t with _ | ⟨a, _ | ⟨b, t⟩⟩
      · simp [hc]
      · simp [hc]
      · simp only [if_pos hc]
        split <;> rfl
    · simp only [if_neg hc]

def string (stop : UInt8 → Bool) (ret : Bytes) : Lexer Bytes := do
  let out ← decode d stop
  pure (ret ++ (quote :: out ++ [quote]))

/-- A value of a primitive type; a string ends before the first byte that `stop` holds of. -/
def value (stop : UInt8 → Bool) (ret : Bytes) : PrimitiveType → Lexer Bytes
  | .BOOLEAN => boolean d ret
  | .INTEGER => integer d ret
  | .NUMBER => number d ret
  | .STRING => string d stop ret

section

variable {d} {buf : Nat → UInt8} {e : Nat}

theorem refines_skipChar (c : UInt8) : Refines buf e (checkNSkipChar d buf e c) (skipChar d c) := by
  intro cur hp hs
  refine (RefinesAt.look (g := fun b => if b = c then Lexer.drop 1 else Lexer.fail d.wrongChar)
    (f := Pure.pure ()) hs (fun b s hlt hs' => ?_) fun _ => RefinesAt.pure () hp hs).congr ?_
  · exact RefinesAt.ite (fun _ => RefinesAt.advance_only hlt hs') fun _ => RefinesAt.throw _ hp hs'
  · cases slice buf cur.pos e with
    | nil => rfl
    | cons b t => simp [skipChar]

theorem refines_skipName : Refines buf e (checkNSkipName d buf e) (skipName d) := by
  intro cur hp hs
  exact (RefinesAt.startsWith d.paramName (m := Pure.pure ()) (f := Pure.pure ())
    (g := Lexer.fail d.wrongName) hp hs (fun s hle hs' => RefinesAt.pure () hle hs')
    fun s hs' => RefinesAt.throw _ hp hs').congr rfl

theorem refines_data : Refines buf e (checkData d e) (data d) := by
  intro cur hp hs
  exact (RefinesAt.before (fun _ => RefinesAt.pure () hp hs)
    fun _ => RefinesAt.throw d.noData hp hs).congr rfl

theorem refines_finish : Refines buf e (checkEnd d e) (finish d) := by
  intro cur hp hs
  have hrun : checkEnd d e cur = Scan.before e (Scan.throw d.wrongEnd) (Pure.pure ()) cur := by
    simp only [checkEnd, Scan.before, Scan.position, Bind.bind]
    by_cases hpe : cur.pos = e
    · simp [hpe]
    · simp [hpe, show cur.pos < e by omega]
  have h := (RefinesAt.before (fun _ => @RefinesAt.throw _ _ _ buf e cur d.wrongEnd hp hs)
    fun _ => RefinesAt.pure () hp hs).congr (g := finish d) (by
      simp only [finish]
      split
      · rename_i h
        rw [h]
        rfl
      · rfl)
  unfold RefinesAt at *
  rwa [hrun]

theorem refines_boolean (ret : Bytes) :
    Refines buf e (deserializeBoolean d buf e ret) (boolean d ret) := by
  intro cur hp hs
  refine (RefinesAt.startsWith (lit "true") (f := Pure.pure (ret ++ lit "true"))
    (g := fun t => if (lit "false").isPrefixOf t then
      .ok (ret ++ lit "false", t.drop (lit "false").length) else .error d.wrongBoolean)
    hp hs (fun s hle hs' => RefinesAt.pure _ hle hs') fun s hs' => ?_).congr rfl
  exact (RefinesAt.startsWith (c := ⟨cur.pos, s⟩) (lit "false")
    (f := Pure.pure (ret ++ lit "false")) (g := Lexer.fail d.wrongBoolean) hp hs'
    (fun s hle hs' => RefinesAt.pure _ hle hs') fun s hs' => RefinesAt.throw _ hp hs').congr rfl

theorem refines_skipMinus : Refines buf e (skipMinus buf e) sign := by
  intro cur hp hs
  refine (RefinesAt.look (g := fun b => if b = minus then Lexer.drop 1 else Pure.pure ())
    (f := Pure.pure ()) hs (fun b s hlt hs' => ?_) fun _ => RefinesAt.pure () hp hs).congr ?_
  · exact RefinesAt.ite (fun _ => RefinesAt.advance_only hlt hs') fun _ => RefinesAt.pure _ hp hs'
  · cases slice buf cur.pos e with
    | nil => rfl
    | cons b t => simp only [sign, dropMinus, Lexer.ite_apply]; split <;> rfl

theorem refines_skipDigits (n : Nat) (cur : Cursor) (hn : e - cur.pos ≤ n) (hp : cur.pos ≤ e)
    (hs : cur.seen ≤ e) : RefinesAt buf e cur (skipDigits buf e n) digits := by
  induction n generalizing cur with
  | zero =>
    refine (RefinesAt.pure () hp hs).congr ?_
    rw [slice_of_le (by omega)]
    rfl
  | succ n ih =>
    refine (RefinesAt.look (g := fun b => if isDigit b then Lexer.drop 1 >>= fun _ => digits
        else Pure.pure ())
      (f := Pure.pure ()) hs (fun b s hlt hs' => ?_) fun _ => RefinesAt.pure () hp hs).congr ?_
    · refine RefinesAt.ite (fun _ => ?_) fun _ => RefinesAt.pure _ hp hs'
      exact RefinesAt.advance (c := ⟨cur.pos, s⟩) hlt
        (ih ⟨cur.pos + 1, s⟩ (by simp only; omega) hlt hs')
    · cases slice buf cur.pos e with
      | nil => rfl
      | cons b t =>
        simp only [Lexer.ite_apply, digits, List.dropWhile_cons]
        split <;> rfl

theorem refines_integer (ret : Bytes) :
    Refines buf e (deserializeInteger d buf e ret) (integer d ret) := by
  refine Refines.bind (Refines.taken (refines_skipMinus.bind fun _ => ?_)) fun ⟨_, word⟩ =>
    Refines.ite (fun _ => Refines.pure _) fun _ => Refines.throw _
  intro cur hp hs
  exact RefinesAt.position (refines_skipDigits (e - cur.pos) cur le_rfl hp hs)

theorem refines_skipNumber (n : Nat) (has : Bool) (cur : Cursor) (hn : e - cur.pos ≤ n)
    (hp : cur.pos ≤ e) (hs : cur.seen ≤ e) :
    RefinesAt buf e cur (skipNumber d buf e n has) (numberRest d has) := by
  induction n generalizing cur has with
  | zero =>
    refine (RefinesAt.pure has hp hs).congr ?_
    rw [slice_of_le (by omega)]
    rfl
  | succ n ih =>
    refine (RefinesAt.look (g := fun b => if isDigit b ∨ b = point then
        (if b = point ∧ has then Lexer.fail d.manyPoints
          else Lexer.drop 1 >>= fun _ => numberRest d (has || b = point)) else Pure.pure has)
      (f := Pure.pure has) hs (fun b s hlt hs' => ?_) fun _ => RefinesAt.pure _ hp hs).congr ?_
    · refine RefinesAt.ite (fun _ => ?_) fun _ => RefinesAt.pure _ hp hs'
      refine RefinesAt.ite (fun _ => RefinesAt.throw _ hp hs') fun _ => ?_
      exact RefinesAt.advance (c := ⟨cur.pos, s⟩) hlt
        (ih (has || b = point) ⟨cur.pos + 1, s⟩ (by simp only; omega) hlt hs')
    · cases slice buf cur.pos e with
      | nil => rfl
      | cons b t =>
        simp only [numberRest, Lexer.ite_apply]
        split
        · split <;> rfl
        · rfl

theorem refines_number (ret : Bytes) :
    Refines buf e (deserializeNumber d buf e ret) (number d ret) := by
  refine Refines.bind (Refines.taken (refines_skipMinus.bind fun _ => ?_)) fun ⟨_, word⟩ =>
    Refines.ite (fun _ => Refines.pure _) fun _ => Refines.throw _
  intro cur hp hs
  exact RefinesAt.position (refines_skipNumber (e - cur.pos) false cur le_rfl hp hs)

theorem refines_decodeChar (c : UInt8) (ret : Bytes) :
    Refines buf e (decodeChar d buf e c ret) (do
      let b ← decodeOne d c
      pure (ret ++ [b])) := by
  intro cur hp hs
  unfold decodeChar
  by_cases hc : c = percent
  · rw [if_pos hc]
    refine (RefinesAt.lookTwo (g := fun a b =>
        if kHexLookupTable a < 0 ∨ kHexLookupTable b < 0 then Lexer.fail d.wrongHex
        else Pure.pure (ret ++ [charOf (kHexLookupTable a) (kHexLookupTable b)]))
      (f := Lexer.fail d.shortEscape) hs (fun a b s hle hs' => ?_)
      (RefinesAt.throw _ hp hs)).congr ?_
    · exact RefinesAt.ite (fun _ => RefinesAt.throw _ hle hs') fun _ => RefinesAt.pure _ hle hs'
    · simp only [Lexer.bind_apply, decodeOne, if_pos hc, Lexer.ite_apply]
      rcases slice buf cur.pos e with _ | ⟨a, _ | ⟨b, rest⟩⟩
      · rfl
      · rfl
      · simp only
        split <;> rfl
  · rw [if_neg hc]
    by_cases hplus : c = '+'.toUInt8
    · rw [if_pos hplus]
      refine (RefinesAt.pure _ hp hs).congr ?_
      simp [Lexer.bind_apply, decodeOne, if_neg hc, if_pos hplus, lit]
    · rw [if_neg hplus]
      refine (RefinesAt.pure _ hp hs).congr ?_
      simp [Lexer.bind_apply, decodeOne, hc, hplus]

theorem refines_decodeLoop (stop : UInt8 → Bool) (n : Nat) (ret : Bytes) (cur : Cursor)
    (hn : e - cur.pos ≤ n) (hp : cur.pos ≤ e) (hs : cur.seen ≤ e) :
    RefinesAt buf e cur (decodeLoop d buf e stop n ret) (do
      let out ← decode d stop
      pure (ret ++ out)) := by
  induction n generalizing cur ret with
  | zero =>
    refine (RefinesAt.pure ret hp hs).congr ?_
    rw [slice_of_le (by omega)]
    simp [Lexer.bind_apply, decode]
  | succ n ih =>
    refine (RefinesAt.look (g := fun c => if stop c then Pure.pure ret
        else Lexer.drop 1 >>= fun _ => (do
            let b ← decodeOne d c
            pure (ret ++ [b])) >>= fun ret => do
          let out ← decode d stop
          pure (ret ++ out))
      (f := Pure.pure ret) hs (fun c s hlt hs' => ?_) fun _ => RefinesAt.pure _ hp hs).congr ?_
    · refine RefinesAt.ite (fun _ => RefinesAt.pure _ hp hs') fun _ => ?_
      refine RefinesAt.advance (n := 1) (c := ⟨cur.pos, s⟩) hlt ?_
      refine (refines_decodeChar c ret ⟨cur.pos + 1, s⟩ hlt hs').bind fun ret' c' hle hp' hs'' _ => ?_
      exact ih ret' c' (by simp only at hle; omega) hp' hs''
    · cases slice buf cur.pos e with
      | nil => simp [Lexer.bind_apply, decode]
      | cons c t =>
        simp only [Lexer.ite_apply, Lexer.bind_apply, Lexer.drop_apply, List.drop_one, List.tail_cons,
          decode_cons, Lexer.pure_apply]
        split
        · simp
        · cases decodeOne d c t with
          | error x => rfl
          | ok p =>
            obtain ⟨b, rest⟩ := p
            simp only
            cases decode d stop rest with
            | error x => rfl
            | ok q => simp [Except.map]

theorem refines_stringTo (terminator : UInt8) (ret : Bytes) :
    Refines buf e (deserializeStringTo d buf e terminator ret)
      (string d (· = terminator) ret) := by
  intro cur hp hs
  refine RefinesAt.position (((refines_decodeLoop (· = terminator) (e - cur.pos) (ret ++ [quote])
    cur le_rfl hp hs).bind fun out c' _ hp' hs' _ => RefinesAt.pure (out ++ [quote]) hp' hs').congr ?_)
  simp only [string, Lexer.bind_apply]
  cases decode d (· = terminator) (slice buf cur.pos e) with
  | error x => rfl
  | ok p => simp

theorem refines_string (ret : Bytes) :
    Refines buf e (deserializeString d buf e ret) (string d (fun _ => false) ret) := by
  intro cur hp hs
  refine RefinesAt.position (((refines_decodeLoop (fun _ => false) (e - cur.pos) (ret ++ [quote])
    cur le_rfl hp hs).bind fun out c' _ hp' hs' _ => RefinesAt.pure (out ++ [quote]) hp' hs').congr ?_)
  simp only [string, Lexer.bind_apply]
  cases decode d (fun _ => false) (slice buf cur.pos e) with
  | error x => rfl
  | ok p => simp

end

end OasValidator.Text
