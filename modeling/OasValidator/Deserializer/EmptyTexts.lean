import OasValidator.Deserializer.Language
import OasValidator.Deserializer.Meaning

/-! What the deserializers make of the name of a parameter without a value.  An array, a primitive, an
object or a content that is named has no data there.  A deep object takes its name alone for a member
with an empty key.  Where `&` follows, it is taken for the start of the value. -/

namespace OasValidator

open Library.Scanning

namespace Text

open BaseDeserializer

variable {d : BaseDeserializer}

/-- A text that one byte moves on is followed by that byte. -/
theorem head_of_cons_append {c : UInt8} {a u r : Bytes} (h : c :: (a ++ r) = a ++ u) :
    u.head? = some c := by
  induction a generalizing c with
  | nil =>
    obtain rfl : c :: r = u := h
    rfl
  | cons b a ih =>
    obtain ⟨rfl, htail⟩ := List.cons_eq_cons.mp h
    exact ih htail

/-- What follows the name is no first character, so none was skipped. -/
theorem startChar_named {t u rest : Bytes} {x y : Unit} (hu : ∀ c ∈ u.head?, c ≠ d.start)
    (hstart : startChar d (d.paramName ++ u) = .ok (x, t)) (hname : skipName d t = .ok (y, rest)) :
    d.start = 0 ∧ rest = u := by
  obtain rfl := skipName_eq_ok_iff.mp hname
  have hsplit := startChar_eq_ok hstart
  by_cases h0 : d.start = 0
  · rw [if_pos h0, List.nil_append] at hsplit
    exact ⟨h0, (List.append_cancel_left hsplit).symm⟩
  · rw [if_neg h0] at hsplit
    have hhead : d.start :: (d.paramName ++ rest) = d.paramName ++ u := hsplit.symm
    exact absurd rfl (hu _ (head_of_cons_append hhead))

/-- Only a string may start with `&`. -/
theorem value_ampersand {stop : UInt8 → Bool} {ret w out rest : Bytes} {type : PrimitiveType}
    (h : value d stop ret type (ampersand :: w) = .ok (out, rest)) : type = .STRING := by
  obtain ⟨word, piece, ht, -, hword, -⟩ := value_eq_ok h
  -- a word of a number starts with its sign, a digit or the point
  have hfirst : ∀ ds : Bytes, ds ≠ [] → (∀ c ∈ ds, isDigit c ∨ c = point) →
      (word = ds ∨ word = minus :: ds) → False := by
    intro ds hne hds hform
    obtain ⟨c, ds, rfl⟩ := List.exists_cons_of_ne_nil hne
    rcases hform with rfl | rfl
    · obtain ⟨rfl, -⟩ := List.cons_eq_cons.mp ht
      exact absurd (hds _ List.mem_cons_self) (by decide)
    · exact absurd (List.cons_eq_cons.mp ht).1 (by decide)
  cases type with
  | BOOLEAN =>
    rcases hword.1 with rfl | rfl
    · exact absurd (List.cons_eq_cons.mp ht).1 (by decide)
    · exact absurd (List.cons_eq_cons.mp ht).1 (by decide)
  | INTEGER =>
    obtain ⟨⟨ds, hform, hne, hdigits⟩, -⟩ := hword
    exact (hfirst ds hne (fun c hc => Or.inl (hdigits c hc)) hform).elim
  | NUMBER =>
    obtain ⟨⟨ds, hform, hne, hdigits | ⟨whole, fraction, rfl, -, hwhole, hfraction⟩⟩, -⟩ := hword
    · exact (hfirst ds hne (fun c hc => Or.inl (hdigits c hc)) hform).elim
    · refine (hfirst _ hne (fun c hc => ?_) hform).elim
      rcases List.mem_append.mp hc with hc | hc
      · exact Or.inl (hwhole c hc)
      · rcases List.mem_cons.mp hc with hc | hc
        · exact Or.inr hc
        · exact Or.inl (hfraction c hc)
  | STRING => rfl

/-- What stands behind the name of a parameter without a value: nothing or `=`, and then the end of the
text or `&`. -/
def EmptyTail (u : Bytes) : Prop :=
  u = [] ∨ u.head? = some ampersand ∨ u = [equals] ∨ ∃ w, u = equals :: ampersand :: w

theorem EmptyTail.head {u : Bytes} (h : EmptyTail u) :
    ∀ c ∈ u.head?, c = ampersand ∨ c = equals := by
  intro c hc
  rcases h with rfl | hamp | rfl | ⟨w, rfl⟩
  · simp at hc
  · exact Or.inl (Option.some.inj (hc.symm.trans hamp))
  · exact Or.inr (by simpa using hc.symm)
  · exact Or.inr (by simpa using hc.symm)

/-- Behind `=` the text ends, or goes on with `&`. -/
theorem EmptyTail.skipped {u t : Bytes} {x : Unit} (h : EmptyTail u)
    (hskip : skipChar d equals u = .ok (x, t)) :
    t = [] ∨ ∃ w, u = equals :: ampersand :: w ∧ t = ampersand :: w := by
  rcases skipChar_eq_ok_iff.mp hskip with ⟨rfl, rfl⟩ | rfl
  · exact Or.inl rfl
  · rcases h with h | hamp | h | ⟨w, h⟩
    · simp at h
    · exact absurd (Option.some.inj hamp) (by decide)
    · exact Or.inl (List.cons_eq_cons.mp h).2
    · obtain ⟨-, rfl⟩ := List.cons_eq_cons.mp h
      exact Or.inr ⟨w, rfl, rfl⟩

variable {u : Bytes}

/-- A lexer behind the name is left with nothing, or with a text that starts with `&`. -/
theorem named_eq_ok {α : Type} {f : Lexer α} {named : Bool} {p : α × Bytes} (hu : EmptyTail u)
    (hplain : ∀ c ∈ u.head?, c ≠ d.start) (hnamed : named)
    (h : (startChar d >>= fun _ => if named then
      skipName d >>= fun _ => skipChar d equals >>= fun _ => f else f) (d.paramName ++ u) = .ok p) :
    ∃ t, f t = .ok p ∧ (t = [] ∨ ∃ w, u = equals :: ampersand :: w ∧ t = ampersand :: w) := by
  obtain ⟨_, t, hstart, h1⟩ := Lexer.bind_eq_ok_iff.mp h
  rw [if_pos hnamed] at h1
  obtain ⟨_, t', hname, h2⟩ := Lexer.bind_eq_ok_iff.mp h1
  obtain ⟨_, t'', hchar, h3⟩ := Lexer.bind_eq_ok_iff.mp h2
  obtain ⟨-, rfl⟩ := startChar_named hplain hstart hname
  exact ⟨t'', h3, hu.skipped hchar⟩

variable {out rest : Bytes}

theorem primitive_empty {d : PrimitiveDeserializer} (hu : EmptyTail u)
    (hplain : ∀ c ∈ u.head?, c ≠ d.start) (hname : d.skipName)
    (h : primitive d (d.paramName ++ u) = .ok (out, rest)) :
    (∃ w, u = equals :: ampersand :: w) ∧ d.paramType = .STRING := by
  obtain ⟨t, h, ht⟩ := named_eq_ok hu hplain hname h
  obtain ⟨_, t', hdata, h⟩ := Lexer.bind_eq_ok_iff.mp h
  obtain ⟨ret, t'', hvalue, -⟩ := Lexer.bind_eq_ok_iff.mp h
  obtain ⟨hne, rfl⟩ := data_eq_ok hdata
  obtain ⟨w, hw, rfl⟩ := ht.resolve_left hne
  exact ⟨⟨w, hw⟩, value_ampersand hvalue⟩

theorem item_value {d : ArrayDeserializer} {ret w : Bytes} {p : Bytes × Bytes}
    (h : (value d.toBaseDeserializer (· = d.separator) ret d.itemsType >>= fun ret =>
      separator d >>= fun _ => Pure.pure (ret ++ [comma])) (ampersand :: w) = .ok p) :
    d.itemsType = .STRING := by
  obtain ⟨_, _, hvalue, -⟩ := Lexer.bind_eq_ok_iff.mp h
  exact value_ampersand hvalue

theorem allItems_eq_ok {d : ArrayDeserializer} {t : Bytes} (ht : t ≠ [])
    (h : allItems d t = .ok (out, rest)) : ∃ p, item d (lit "[") t = .ok p := by
  obtain ⟨b, t, rfl⟩ := List.exists_cons_of_ne_nil ht
  rw [allItems, List.length_cons, items_succ ht] at h
  obtain ⟨ret, mid, hitem, -⟩ := Lexer.bind_eq_ok_iff.mp h
  exact ⟨_, hitem⟩

theorem array_empty {d : ArrayDeserializer} (hu : EmptyTail u) (hplain : ∀ c ∈ u.head?, c ≠ d.start)
    (hname : d.skipName ∨ d.hasRunningName)
    (h : array d (d.paramName ++ u) = .ok (out, rest)) :
    (∃ w, u = equals :: ampersand :: w) ∧ d.itemsType = .STRING := by
  by_cases hrunning : d.hasRunningName
  · obtain ⟨_, t, hstart, h⟩ := Lexer.bind_eq_ok_iff.mp h
    simp only [Lexer.ite_apply, hrunning, Bool.not_true, Bool.and_false, Bool.false_eq_true,
      if_false] at h
    obtain ⟨_, t', hdata, h⟩ := Lexer.bind_eq_ok_iff.mp h
    obtain ⟨ret, t'', hitems, -⟩ := Lexer.bind_eq_ok_iff.mp h
    obtain ⟨hne, rfl⟩ := data_eq_ok hdata
    obtain ⟨p, hitem⟩ := allItems_eq_ok hne hitems
    rw [item, if_pos hrunning] at hitem
    obtain ⟨_, t1, hname, hitem⟩ := Lexer.bind_eq_ok_iff.mp hitem
    obtain ⟨_, t2, hchar, hitem⟩ := Lexer.bind_eq_ok_iff.mp hitem
    obtain ⟨_, t3, hdata, hitem⟩ := Lexer.bind_eq_ok_iff.mp hitem
    obtain ⟨-, rfl⟩ := startChar_named hplain hstart hname
    rcases hu.skipped hchar with rfl | ⟨w, rfl, rfl⟩
    · simp [itemData] at hdata
    · obtain rfl : ampersand :: w = t3 := by simpa [itemData] using hdata
      exact ⟨⟨w, rfl⟩, item_value hitem⟩
  · have hskip : d.skipName && !d.hasRunningName := by
      simpa [hrunning] using hname
    obtain ⟨t, h, ht⟩ := named_eq_ok hu hplain hskip h
    obtain ⟨_, t', hdata, h⟩ := Lexer.bind_eq_ok_iff.mp h
    obtain ⟨ret, t'', hitems, -⟩ := Lexer.bind_eq_ok_iff.mp h
    obtain ⟨hne, rfl⟩ := data_eq_ok hdata
    obtain ⟨w, hw, rfl⟩ := ht.resolve_left hne
    obtain ⟨p, hitem⟩ := allItems_eq_ok hne hitems
    rw [item, if_neg hrunning] at hitem
    exact ⟨⟨w, hw⟩, item_value hitem⟩

/-- The content of such a parameter is empty or starts with `&`. -/
theorem content_empty {d : ContentDeserializer} (hu : EmptyTail u) (hplain : ∀ c ∈ u.head?, c ≠ d.start)
    (hname : d.skipName) (h : content d (d.paramName ++ u) = .ok (out, rest)) :
    out = [] ∨ out.head? = some ampersand := by
  obtain ⟨t, h, ht⟩ := named_eq_ok hu hplain hname h
  obtain ⟨ret, t', hdecode, h1⟩ := Lexer.bind_eq_ok_iff.mp h
  obtain ⟨_, t'', -, h2⟩ := Lexer.bind_eq_ok_iff.mp h1
  obtain rfl : ret = out := (by simpa using h2 : ret = out ∧ _).1
  rcases ht with rfl | ⟨w, -, rfl⟩
  · exact Or.inl (by simpa [decode, eq_comm] using hdecode : ret = [] ∧ t' = []).1
  · have hone : decodeOne d.toBaseDeserializer ampersand w = .ok (ampersand, w) := rfl
    rw [decode_cons, if_neg Bool.false_ne_true, hone] at hdecode
    obtain ⟨p, -, hp⟩ := map_eq_ok_iff.mp hdecode
    obtain rfl := congrArg Prod.fst hp
    exact Or.inr rfl

/-- The first key of an object starts with `&`. -/
theorem object_empty {d : ObjectDeserializer} (hu : EmptyTail u) (hplain : ∀ c ∈ u.head?, c ≠ d.start)
    (hname : d.skipName) (hflat : d.isDeepObj = false) (hkv : d.kvSeparator ≠ ampersand)
    (h : object d (d.paramName ++ u) = .ok (out, rest)) :
    (∃ w, u = equals :: ampersand :: w) ∧
      ∃ k type, d.ktMap.lookup (quote :: ampersand :: k) = some type := by
  obtain ⟨_, t0, hhead, h1⟩ := Lexer.bind_eq_ok_iff.mp h
  obtain ⟨ret, t1, hmembers, -⟩ := Lexer.bind_eq_ok_iff.mp h1
  have hnamed : d.skipName && !d.isDeepObj := by simp [hname, hflat]
  obtain ⟨t, hdata, ht⟩ := named_eq_ok hu hplain hnamed hhead
  obtain ⟨hne, rfl⟩ := data_eq_ok hdata
  obtain ⟨w, hw, rfl⟩ := ht.resolve_left hne
  refine ⟨⟨w, hw⟩, ?_⟩
  simp only [allMembers, List.length_cons, members, if_neg hne] at hmembers
  obtain ⟨ret', t2, hmember, -⟩ := Lexer.bind_eq_ok_iff.mp hmembers
  obtain ⟨k, t3, hkey, hvalue⟩ := Lexer.bind_eq_ok_iff.mp hmember
  simp only [memberKey, hflat, Bool.false_eq_true, if_false] at hkey
  obtain ⟨rfl, -⟩ := key_eq_ok hkey
  have htake : (ampersand :: w).takeWhile (· ≠ d.kvSeparator) =
      ampersand :: w.takeWhile (· ≠ d.kvSeparator) := by
    simp [hkv.symm]
  rw [htake] at hvalue
  refine ⟨w.takeWhile (· ≠ d.kvSeparator) ++ [quote], ?_⟩
  cases hlookup : d.ktMap.lookup
      (quote :: ampersand :: (w.takeWhile (· ≠ d.kvSeparator) ++ [quote])) with
  | none =>
    simp only [List.cons_append, hlookup] at hvalue
    simp at hvalue
  | some type => exact ⟨type, rfl⟩

/-- The member that a deep object reads from the name alone. -/
def emptyMember : Bytes := lit "\"\":\"\""

def emptyObject : Bytes := lit "\x7b" ++ emptyMember ++ lit "\x7d"

/-- A deep object has a string of the empty name. -/
def HasEmptyKey (d : ObjectDeserializer) : Prop :=
  d.isDeepObj ∧ d.start = 0 ∧ d.ktMap.lookup (lit "\"\"") = some .STRING

/-- Of no text nothing but a string can be read. -/
theorem value_nil_iff {stop : UInt8 → Bool} {ret : Bytes} {type : PrimitiveType} {p : Bytes × Bytes} :
    value d stop ret type [] = .ok p ↔ type = .STRING ∧ p = (ret ++ lit "\"\"", []) := by
  cases type with
  | BOOLEAN => simp [value, boolean, lit]
  | INTEGER => simp [value, integer, Lexer.bind_apply, Lexer.taken, sign, digits,
    dropMinus, integerWord]
  | NUMBER =>
    simp [value, number, Lexer.bind_apply, Lexer.taken, sign, numberRest, dropMinus, numberWord]
  | STRING =>
    have hrun : value d stop ret .STRING [] = .ok (ret ++ lit "\"\"", []) := by
      simp [value, string, Lexer.bind_apply, decode]
      rfl
    rw [hrun, Except.ok.injEq]
    simp [eq_comm]

theorem member_name_iff {d : ObjectDeserializer} (hdeep : d.isDeepObj) {ret : Bytes}
    {p : Bytes × Bytes} : member d ret d.paramName = .ok p ↔
      d.ktMap.lookup (lit "\"\"") = some .STRING ∧ p = (ret ++ emptyMember, []) := by
  have hname : skipName d.toBaseDeserializer d.paramName = .ok ((), []) :=
    skipName_eq_ok_iff.mpr (List.append_nil _).symm
  have hkey : memberKey d d.paramName = .ok (lit "\"\"", []) := by
    simp only [memberKey, hdeep, if_true, Lexer.bind_apply, hname]
    rfl
  rw [member, Lexer.bind_apply, hkey]
  cases hlookup : d.ktMap.lookup (lit "\"\"") with
  | none => simp [hlookup]
  | some type =>
    have hpiece : ret ++ lit "\"\"" ++ lit ":" ++ lit "\"\"" = ret ++ emptyMember := by
      simp only [List.append_assoc]
      rfl
    simp only [hlookup, value_nil_iff, hpiece, Option.some.injEq]

/-- Behind its name a deep object wants a bracket or the end. -/
theorem deepObject_empty {d : ObjectDeserializer} (hu : EmptyTail u)
    (hplain : ∀ c ∈ u.head?, c ≠ d.start) (hdeep : d.isDeepObj)
    (h : object d (d.paramName ++ u) = .ok (out, rest)) :
    u = [] ∧ HasEmptyKey d ∧ out = emptyObject := by
  obtain ⟨_, t0, hhead, h1⟩ := Lexer.bind_eq_ok_iff.mp h
  obtain ⟨ret, t1, hmembers, h2⟩ := Lexer.bind_eq_ok_iff.mp h1
  obtain ⟨_, t, hstart, hdata⟩ := Lexer.bind_eq_ok_iff.mp hhead
  simp only [Lexer.ite_apply, hdeep, Bool.not_true, Bool.and_false, Bool.false_eq_true,
    if_false] at hdata
  obtain ⟨hne, rfl⟩ := data_eq_ok hdata
  obtain ⟨n, hn⟩ := Nat.exists_eq_succ_of_ne_zero (List.length_pos_iff.mpr hne).ne'
  simp only [allMembers, hn, members, if_neg hne] at hmembers
  obtain ⟨ret', t2, hmember, hmembers'⟩ := Lexer.bind_eq_ok_iff.mp hmembers
  obtain ⟨k, t3, hkey, -⟩ := Lexer.bind_eq_ok_iff.mp hmember
  simp only [memberKey, hdeep, if_true] at hkey
  obtain ⟨_, t4, hname, hkey'⟩ := Lexer.bind_eq_ok_iff.mp hkey
  obtain ⟨_, t5, hbracket, -⟩ := Lexer.bind_eq_ok_iff.mp hkey'
  obtain ⟨h0, rfl⟩ := startChar_named hplain hstart hname
  obtain rfl : t4 = [] := by
    rcases skipChar_eq_ok_iff.mp hbracket with ⟨hnil, -⟩ | hbracket
    · exact hnil
    · rcases hu.head '['.toUInt8 (by rw [hbracket]; rfl) with hc | hc <;> exact absurd hc (by decide)
  rw [skipName_eq_ok_iff.mp hname, List.append_nil, member_name_iff hdeep] at hmember
  obtain ⟨hlookup, hp⟩ := hmember
  obtain ⟨rfl, rfl⟩ := Prod.mk.inj hp
  simp only [Lexer.bind_apply, vkSeparator, members_nil, Except.ok.injEq, Prod.mk.injEq] at hmembers'
  obtain ⟨rfl, rfl⟩ := hmembers'
  refine ⟨rfl, ⟨hdeep, h0, hlookup⟩, ?_⟩
  exact (by simpa [emptyObject, Lexer.bind_apply, finish, eq_comm] using h2 :
    out = emptyObject ∧ rest = []).1

/-- What a deep object with a string of the empty name makes of its name depends on the byte behind. -/
theorem deepObject_name {buf : Nat → UInt8} {beg end_ : Nat} {d : ObjectDeserializer}
    (hkey : HasEmptyKey d) (hne : d.paramName ≠ []) (hle : beg ≤ end_)
    (hslice : slice buf beg end_ = d.paramName) :
    (d.deserialize buf end_ ⟨beg, 0⟩).1 = if buf end_ = d.vkSeparator then .error d.wrongEnd
      else .ok (emptyObject) := by
  obtain ⟨hdeep, h0, hlookup⟩ := hkey
  have hstart : objectStart d (slice buf beg end_) = .ok ((), d.paramName) := by
    simp [objectStart, hslice, Lexer.bind_apply, startChar, h0, hdeep, data, hne]
  have hends : EndsInMember d d.paramName :=
    .last hne ⟨_, (member_name_iff hdeep).mpr ⟨hlookup, rfl⟩⟩
  obtain ⟨out, htext, hrun⟩ := @object_outside buf end_ d ⟨beg, 0⟩ d.paramName hle (Nat.zero_le _)
    (Or.inl h0) hstart hends
  simp only [hslice] at htext
  rw [← List.append_nil d.paramName] at htext
  obtain ⟨-, -, rfl⟩ := deepObject_empty (Or.inl rfl) (by simp) hdeep htext
  rw [hrun]
  split <;> rfl

end Text

open Text

/-- The name of the parameter is a part of its text. -/
def NamesItself : Deserializer → Prop
  | .primitive d => d.skipName
  | .array d => d.skipName ∨ d.hasRunningName
  | .object d => d.skipName ∨ d.isDeepObj
  | .content d => d.skipName

/-- The parameter may have a value that starts with `&`: a string, strings, or an object with such a
key. -/
def TakesAmpersand : Deserializer → Prop
  | .primitive d => d.paramType = .STRING
  | .array d => d.itemsType = .STRING
  | .object d =>
    d.isDeepObj = false ∧ ∃ k type, d.ktMap.lookup (quote :: ampersand :: k) = some type
  | .content _ => False

/-- What a deserializer makes of its name without a value. -/
inductive EmptyResult (d : Deserializer) (u out : Bytes) : Prop
  | behind {w : Bytes} (hu : u = equals :: ampersand :: w) (htakes : TakesAmpersand d)
  | name {o : ObjectDeserializer} (hd : d = .object o) (hu : u = []) (hkey : HasEmptyKey o)
      (hout : out = emptyObject)
  | content {c : ContentDeserializer} (hd : d = .content c)
      (hout : out = [] ∨ out.head? = some ampersand)

theorem lexer_empty {d : Deserializer} {u out rest : Bytes} (hu : EmptyTail u)
    (hplain : ∀ c ∈ u.head?, c ≠ d.toBase.start) (hnames : NamesItself d)
    (hkv : ∀ o, d = .object o → o.kvSeparator ≠ ampersand)
    (h : d.lexer (d.toBase.paramName ++ u) = .ok (out, rest)) : EmptyResult d u out := by
  cases d with
  | primitive d =>
    obtain ⟨⟨w, hw⟩, htype⟩ := primitive_empty hu hplain hnames h
    exact .behind hw htype
  | array d =>
    obtain ⟨⟨w, hw⟩, htype⟩ := array_empty hu hplain hnames h
    exact .behind hw htype
  | object d =>
    cases hdeep : d.isDeepObj with
    | true =>
      obtain ⟨hnil, hkey, hout⟩ := deepObject_empty hu hplain hdeep h
      exact .name rfl hnil hkey hout
    | false =>
      have hname : d.skipName := hnames.resolve_right (by simp [hdeep])
      obtain ⟨⟨w, hw⟩, hkey⟩ := object_empty hu hplain hname hdeep (hkv d rfl) h
      exact .behind hw ⟨hdeep, hkey⟩
  | content d => exact .content rfl (content_empty hu hplain hnames h)

end OasValidator
