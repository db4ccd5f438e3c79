import OasValidator.Deserializer.Language

/-! Array parameters.  What a client writes for a list of values is read as this list, but for two
cases: the point between numbers of style `label` is taken for a decimal point, and the percent sign
that begins the separator of `spaceDelimited` ends a string in front of an encoded byte. -/

namespace OasValidator

open Library.Json Library.Scanning Library.Cut

namespace Text

variable {d : ArrayDeserializer}

/-- A sent value as an item. -/
def itemOf (v : Json) : Item := ⟨wordOf v, pieceOf v⟩

theorem joinedItems_itemOf (vs : List Json) :
    joinedItems d (vs.map itemOf) = (between d).intercalate (vs.map fun v => chunk d (wordOf v)) := by
  simp [joinedItems, itemOf, Function.comp_def]

theorem itemOf_last {type : PrimitiveType} {vs : List Json} (hvs : ∀ v ∈ vs, Sendable type v) :
    ∀ i ∈ (vs.map itemOf).getLast?, i.word ≠ [] := by
  intro i hi
  obtain ⟨v, hv, rfl⟩ := List.mem_map.mp (List.mem_of_getLast? hi)
  exact wordOf_ne_nil (hvs v hv)

/-- There are no more items than bytes. -/
theorem length_chunks {type : PrimitiveType} {vs : List Json} (hne : vs ≠ [])
    (hvs : ∀ v ∈ vs, Sendable type v) :
    vs.length ≤ ((between d).intercalate (vs.map fun v => chunk d (wordOf v))).length := by
  rw [← joinedItems_itemOf]
  simpa using @length_joinedItems d (vs.map itemOf) (by simpa using hne) (itemOf_last hvs)

/-- A list of items is written as a JSON array of their texts. -/
theorem array_chunks {vs : List Json} (hne : vs ≠ [])
    (hvs : ∀ v ∈ vs, Sendable d.itemsType v ∧ Unstopped (· = d.separator) v)
    (hends : 2 ≤ vs.length → ∀ u, Ends (· = d.separator) (between d ++ u) d.itemsType) :
    array d (lead d.toBaseDeserializer (d.skipName && !d.hasRunningName) ++
        (between d).intercalate (vs.map fun v => chunk d (wordOf v))) =
      .ok ('['.toUInt8 :: (commas (vs.map pieceOf) ++ [']'.toUInt8]), []) := by
  have hscan : ∀ i ∈ vs.map itemOf, ∀ rest, Ends (· = d.separator) rest d.itemsType →
      ItemScans d i rest := by
    intro i hi rest hrest ret
    obtain ⟨v, hv, rfl⟩ := List.mem_map.mp hi
    exact value_word (hvs v hv).1 (hvs v hv).2 hrest ret
  have hrun := @array_joined d (vs.map itemOf) (by simpa using hne)
    (itemOf_last fun v hv => (hvs v hv).1)
    (fun i hi => hscan i hi [] (by cases d.itemsType <;> simp [Ends]))
    (fun htwo i hi u => hscan i hi _ (hends (by simpa using htwo) u))
  rw [joinedItems_itemOf] at hrun
  rw [hrun, List.map_map]
  rfl

/-! ### A point for a separator -/

theorem item_ret {ret t out rest : Bytes} (h : item d ret t = .ok (out, rest)) :
    ∃ more, out = ret ++ (more ++ [comma]) := by
  have hrest : ∀ {u : Bytes}, (value d.toBaseDeserializer (· = d.separator) ret d.itemsType >>=
      fun ret => separator d >>= fun _ => Pure.pure (ret ++ [comma])) u = .ok (out, rest) →
        ∃ more, out = ret ++ (more ++ [comma]) := by
    intro u hu
    obtain ⟨ret', mid, hvalue, hu⟩ := Lexer.bind_eq_ok_iff.mp hu
    obtain ⟨_, mid', -, hpure⟩ := Lexer.bind_eq_ok_iff.mp hu
    obtain ⟨_, piece, -, rfl, -⟩ := value_eq_ok hvalue
    obtain rfl : ret ++ piece ++ [comma] = out := (by simpa using hpure : _ ∧ _).1
    exact ⟨piece, by simp⟩
  simp only [item, Lexer.ite_apply] at h
  split at h
  · obtain ⟨_, _, -, h⟩ := Lexer.bind_eq_ok_iff.mp h
    obtain ⟨_, _, -, h⟩ := Lexer.bind_eq_ok_iff.mp h
    obtain ⟨_, _, -, h⟩ := Lexer.bind_eq_ok_iff.mp h
    exact hrest h
  · exact hrest h

theorem items_ret {n : Nat} {ret t out rest : Bytes} (h : items d n ret t = .ok (out, rest)) :
    ∃ more, out = ret ++ more := by
  induction n generalizing ret t with
  | zero =>
    obtain ⟨rfl, -⟩ : ret = out ∧ _ := by simpa [items] using h
    exact ⟨[], by simp⟩
  | succ n ih =>
    by_cases ht : t = []
    · obtain ⟨rfl, -⟩ : ret = out ∧ _ := by simpa [items, ht] using h
      exact ⟨[], by simp⟩
    · rw [items_succ ht] at h
      obtain ⟨mid, u, hitem, hitems⟩ := Lexer.bind_eq_ok_iff.mp h
      obtain ⟨more, rfl⟩ := item_ret hitem
      obtain ⟨more', rfl⟩ := ih hitems
      exact ⟨more ++ [comma] ++ more', by simp⟩

/-- A point between numbers is read as a part of the first one. -/
theorem array_takes_point (htype : d.itemsType = .NUMBER) (hpoint : d.separator = point)
    (h20 : d.has20Separator = false) (hname : d.hasRunningName = false) {v w : Json}
    {vs : List Json} (hvs : ∀ u ∈ v :: w :: vs, Sendable .NUMBER u ∧ point ∉ wordOf u)
    {out : Bytes} {rest : Bytes}
    (h : array d (lead d.toBaseDeserializer (d.skipName && !d.hasRunningName) ++
      (between d).intercalate ((v :: w :: vs).map fun u => chunk d (wordOf u))) = .ok (out, rest)) :
    parse out ≠ some (.array (v :: w :: vs)) := by
  obtain ⟨hv, hvpoint⟩ := hvs v List.mem_cons_self
  obtain ⟨word, rfl⟩ : ∃ word, v = .number word := by
    cases v with
    | number word => exact ⟨word, rfl⟩
    | _ => exact hv.elim
  obtain ⟨more, hmore⟩ : ∃ more, (between d).intercalate ((.number word :: w :: vs).map fun u =>
      chunk d (wordOf u)) = word ++ point :: more := by
    refine ⟨(between d).intercalate ((w :: vs).map fun u => chunk d (wordOf u)), ?_⟩
    simp [List.intercalate_cons_cons, chunk, hname, wordOf, between, h20, hpoint]
  rw [hmore] at h
  have ht : word ++ point :: more ≠ [] := by simp
  -- the first item of the text
  unfold array at h
  rw [lead_append] at h
  obtain ⟨_, u, hdata, h⟩ := Lexer.bind_eq_ok_iff.mp h
  obtain rfl : word ++ point :: more = u := by simpa [data] using hdata
  obtain ⟨ret, u, hitems, h⟩ := Lexer.bind_eq_ok_iff.mp h
  obtain ⟨_, u', -, h⟩ := Lexer.bind_eq_ok_iff.mp h
  obtain ⟨n, hn⟩ : ∃ n, (word ++ point :: more).length = n + 1 := ⟨_, List.length_append ..⟩
  rw [allItems, hn, items_succ ht] at hitems
  obtain ⟨ret1, u1, hitem, hitems⟩ := Lexer.bind_eq_ok_iff.mp hitems
  obtain ⟨last, rfl⟩ := items_ret hitems
  have hvalue : ∃ ret0 u0, number d.toBaseDeserializer (lit "[") (word ++ point :: more) =
      .ok (ret0, u0) ∧ ret1 = ret0 ++ [comma] := by
    simp only [item, hname, Bool.false_eq_true, if_false, htype, Text.value] at hitem
    obtain ⟨ret0, u0, hnumber, hitem⟩ := Lexer.bind_eq_ok_iff.mp hitem
    obtain ⟨_, _, -, hitem⟩ := Lexer.bind_eq_ok_iff.mp hitem
    exact ⟨ret0, u0, hnumber, (by simpa using hitem : ret0 ++ [comma] = ret1 ∧ _).1.symm⟩
  obtain ⟨ret0, u0, hnumber, rfl⟩ := hvalue
  obtain ⟨ds, rfl, -, hisNumber⟩ := number_takes_point hv hvpoint hnumber
  -- its text is no text of the first number
  obtain ⟨tail, hout, htail⟩ : ∃ tail, out = lit "[" ++ ((word ++ point :: ds) ++ tail) ∧
      ∀ c ∈ tail.head?, isNumberByte c = false := by
    obtain rfl : (if (lit "[" ++ (word ++ point :: ds) ++ [comma] ++ last).getLast? = some comma then
        (lit "[" ++ (word ++ point :: ds) ++ [comma] ++ last).dropLast ++ lit "]"
      else lit "[" ++ (word ++ point :: ds) ++ [comma] ++ last ++ lit "]") = out := by
      simpa using (Prod.mk.inj (Except.ok.inj h)).1
    by_cases hlast : last = []
    · refine ⟨[']'.toUInt8], ?_, by simp; decide⟩
      rw [hlast, List.append_nil, if_pos List.getLast?_concat, List.dropLast_concat]
      simp [lit_bracket]
    · split
      · refine ⟨comma :: (last.dropLast ++ lit "]"), ?_, by simp; decide⟩
        rw [List.dropLast_append_of_ne_nil hlast]
        simp
      · exact ⟨comma :: (last ++ lit "]"), by simp, by simp; decide⟩
  have hbytes := (isNumber_bytes hisNumber).2
  intro hparse
  rw [hout] at hparse
  obtain ⟨n, r, hread, hr⟩ := parse_array_head hparse (by
    obtain ⟨c, word', hword⟩ := List.exists_cons_of_ne_nil (by simp : word ++ point :: ds ≠ [])
    rw [hword, List.cons_append]
    apply skipSpace_cons
    exact isSpace_of_number (hbytes c (by rw [hword]; exact List.mem_cons_self)))
  obtain ⟨hsame, -⟩ := value_number (by simp) hbytes htail hread hr
  have hlen := congrArg List.length (Value.number.inj hsame)
  simp only [List.length_append, List.length_cons] at hlen
  omega

/-! ### A percent sign for a separator -/

theorem separatorChars_percent (h20 : d.has20Separator = true) {a b : UInt8} {t : Bytes}
    (h : ¬(a = '2'.toUInt8 ∧ b = '0'.toUInt8)) :
    separatorChars d (percent :: a :: b :: t) = .error d.wrongChar := by
  simp only [separatorChars, h20, if_true, Lexer.bind_apply, skipChar]
  by_cases ha : a = '2'.toUInt8
  · have hb : b ≠ '0'.toUInt8 := fun hb => h ⟨ha, hb⟩
    simp [ha, hb]
  · simp [ha]

/-- A string ends in front of its first encoded byte. -/
theorem item_stuck (h20 : d.has20Separator = true) (hpercent : d.separator = percent)
    (hname : d.hasRunningName = false) (htype : d.itemsType = .STRING) {s : Bytes}
    (hbytes : ∃ c ∈ s, unreserved c = false) (hraw : ¬lit "%20" <:+: percentEncode s)
    (ret rest : Bytes) :
    item d ret (chunk d (wordOf (.string s)) ++ rest) = .error d.wrongChar := by
  obtain ⟨c, tail, hdrop⟩ : ∃ c tail, s.dropWhile unreserved = c :: tail := by
    apply List.exists_cons_of_ne_nil
    rw [Ne, List.dropWhile_eq_nil_iff]
    obtain ⟨c, hc, hres⟩ := hbytes
    intro hall
    rw [hall c hc] at hres
    exact Bool.false_ne_true hres.symm
  have hc : unreserved c = false := by
    have hhead := List.head?_dropWhile_not unreserved s
    rw [hdrop] at hhead
    simpa using hhead
  have hsplit : s = s.takeWhile unreserved ++ c :: tail := by
    rw [← hdrop, List.takeWhile_append_dropWhile]
  have hword : percentEncode s = percentEncode (s.takeWhile unreserved) ++
      percent :: hexDigit (c.toNat / 16) :: hexDigit (c.toNat % 16) :: percentEncode tail := by
    conv_lhs => rw [hsplit]
    simp [percentEncode, encodeByte, hc]
  have hnot20 : ¬(hexDigit (c.toNat / 16) = '2'.toUInt8 ∧ hexDigit (c.toNat % 16) = '0'.toUInt8) := by
    rintro ⟨h2, h0⟩
    apply hraw
    rw [hword, h2, h0]
    exact ⟨_, percentEncode tail, by simp; rfl⟩
  have hdecode : decode d.toBaseDeserializer (· = d.separator) (percentEncode s ++ rest) =
      .ok (s.takeWhile unreserved, percent :: hexDigit (c.toNat / 16) :: hexDigit (c.toNat % 16) ::
        (percentEncode tail ++ rest)) := by
    rw [hword, List.append_assoc, decode_percentEncode]
    · rfl
    · intro b hb
      have hres : unreserved b := List.mem_takeWhile_imp hb
      simp only [leading, hres, if_true, hpercent, decide_eq_false_iff_not]
      rintro rfl
      exact absurd hres (by decide)
    · simp [hpercent]
  simp only [item, chunk, hname, Bool.false_eq_true, if_false, List.nil_append, htype, Text.value,
    Text.string, wordOf]
  rw [Lexer.bind_apply, Lexer.bind_apply, hdecode]
  simp only [Lexer.pure_apply, Lexer.bind_apply, separator]
  rw [if_neg (by simp), separatorChars_percent h20 hnot20]

/-- An encoded byte in a list of strings is taken for a separator. -/
theorem items_stuck (h20 : d.has20Separator = true) (hpercent : d.separator = percent)
    (hname : d.hasRunningName = false) (htype : d.itemsType = .STRING) {vs : List Json}
    (hvs : ∀ v ∈ vs, Sendable .STRING v ∧ ¬lit "%20" <:+: wordOf v)
    (hbytes : ∃ s, .string s ∈ vs ∧ ∃ c ∈ s, unreserved c = false)
    {n : Nat} (hn : vs.length ≤ n) (ret : Bytes) :
    items d n ret ((between d).intercalate (vs.map fun v => chunk d (wordOf v))) =
      .error d.wrongChar := by
  induction vs generalizing n ret with
  | nil => simp at hbytes
  | cons v vs ih =>
    obtain ⟨n, rfl⟩ : ∃ m, n = m + 1 := ⟨n - 1, by simp at hn; omega⟩
    obtain ⟨hv, hraw⟩ := hvs v List.mem_cons_self
    obtain ⟨s, rfl⟩ : ∃ s, v = .string s := by
      cases v with
      | string s => exact ⟨s, rfl⟩
      | _ => exact hv.elim
    obtain ⟨rest, hrest⟩ : ∃ rest, (between d).intercalate ((.string s :: vs).map fun v =>
        chunk d (wordOf v)) = chunk d (wordOf (.string s)) ++ rest := by
      cases vs with
      | nil => exact ⟨[], by simp⟩
      | cons w ws => exact ⟨_, by simp [List.intercalate_cons_cons]; rfl⟩
    have ht : chunk d (wordOf (.string s)) ++ rest ≠ [] := by
      simp [chunk, wordOf_ne_nil hv]
    by_cases hs : ∃ c ∈ s, unreserved c = false
    · rw [hrest, items_succ ht, Lexer.bind_apply, item_stuck h20 hpercent hname htype hs hraw]
    · -- this string is read, and a later one is not
      have hs' : ∀ c ∈ s, unreserved c := by simpa using hs
      have hlater : ∃ s, .string s ∈ vs ∧ ∃ c ∈ s, unreserved c = false := by
        obtain ⟨s', hmem, hs''⟩ := hbytes
        rcases List.mem_cons.mp hmem with heq | hmem
        · exact absurd (Value.string.inj heq ▸ hs'') hs
        · exact ⟨s', hmem, hs''⟩
      have hstop : Unstopped (· = d.separator) (.string s) := by
        rintro s' hs'' c hc
        obtain rfl := Value.string.inj hs''
        have hres := hs' c hc
        simp only [leading, hres, if_true, hpercent, decide_eq_false_iff_not]
        rintro rfl
        exact absurd hres (by decide)
      obtain ⟨w, ws, rfl⟩ := List.exists_cons_of_ne_nil (by rintro rfl; simp at hlater : vs ≠ [])
      have hends : ∀ u, Ends (· = d.separator) (between d ++ u) d.itemsType := by
        intro u
        rw [htype, between, if_pos h20, hpercent]
        intro c hc
        obtain rfl : percent = c := Option.some.inj hc
        simp
      have htail : (between d).intercalate ((w :: ws).map fun v => chunk d (wordOf v)) ≠ [] := by
        have hw := wordOf_ne_nil (hvs w (by simp)).1
        cases ws <;> simp [List.intercalate_cons_cons, chunk, hw]
      have hscan : ItemScans d (itemOf (.string s)) (between d ++ (between d).intercalate
          ((w :: ws).map fun v => chunk d (wordOf v))) := value_word (htype ▸ hv) hstop (hends _)
      have hitem := item_chunk hscan (by simp [between_ne_nil]) ret
      rw [separator_between htail] at hitem
      have hjoin : (between d).intercalate ((.string s :: w :: ws).map fun v =>
          chunk d (wordOf v)) = chunk d (wordOf (.string s)) ++ (between d ++
            (between d).intercalate ((w :: ws).map fun v => chunk d (wordOf v))) := by
        simp [List.intercalate_cons_cons]
      rw [hjoin, items_succ (by simp [chunk, wordOf_ne_nil hv]), Lexer.bind_apply]
      rw [show wordOf (.string s) = (itemOf (.string s)).word from rfl, hitem]
      simp only [Except.map, itemOf]
      exact ih (fun u hu => hvs u (List.mem_cons_of_mem _ hu)) hlater (by simpa using hn) _

theorem array_stuck (h20 : d.has20Separator = true) (hpercent : d.separator = percent)
    (hname : d.hasRunningName = false) (htype : d.itemsType = .STRING) {vs : List Json}
    (hvs : ∀ v ∈ vs, Sendable .STRING v ∧ ¬lit "%20" <:+: wordOf v)
    (hbytes : ∃ s, .string s ∈ vs ∧ ∃ c ∈ s, unreserved c = false) :
    array d (lead d.toBaseDeserializer (d.skipName && !d.hasRunningName) ++
      (between d).intercalate (vs.map fun v => chunk d (wordOf v))) = .error d.wrongChar := by
  have hne : vs ≠ [] := by
    rintro rfl
    simp at hbytes
  have hlen := length_chunks (d := d) hne fun v hv => (hvs v hv).1
  unfold array
  rw [lead_append, Lexer.bind_apply]
  have ht : (between d).intercalate (vs.map fun v => chunk d (wordOf v)) ≠ [] := by
    have := List.length_pos_iff.mpr hne
    exact List.length_pos_iff.mp (by omega)
  simp only [data, ht, if_false]
  rw [Lexer.bind_apply, allItems, items_stuck h20 hpercent hname htype hvs hbytes hlen]

end Text

open Text

/-- The styles of arrays, by the place of the parameter. -/
def arraySupported (in_ : Bytes) : ParamStyle → Bool
  | .SIMPLE => in_ = lit "path" || in_ = lit "header"
  | .LABEL | .MATRIX => in_ = lit "path"
  | .FORM | .SPACE_DELIM | .PIPE_DELIM => in_ = lit "query"
  | .DEEP_OBJ | .CONTENT => false

/-- The point between numbers of style `label`. -/
def PointBetweenNumbers (style : ParamStyle) (explode : Bool) (type : PrimitiveType)
    (vs : List Json) : Prop :=
  style = .LABEL ∧ explode = true ∧ type = .NUMBER ∧ 2 ≤ vs.length

/-- An encoded byte in a string of style `spaceDelimited`. -/
def EncodedBetweenSpaces (style : ParamStyle) (explode : Bool) (type : PrimitiveType)
    (vs : List Json) : Prop :=
  style = .SPACE_DELIM ∧ explode = false ∧ type = .STRING ∧
    ∃ s, .string s ∈ vs ∧ ∃ c ∈ s, unreserved c = false

section

variable {paramVal : Json} {style0 : Bytes} {explode0 : Bool} {name in_ : Bytes}
  {style : ParamStyle} {explode : Bool} {refKeys : List Bytes} {a : ArrayDeserializer}

/-- The deserializer of an array of a style. -/
def arrayOf (name in_ : Bytes) (style : ParamStyle) (explode : Bool) (type : PrimitiveType) :
    ArrayDeserializer where
  toBaseDeserializer := baseOf name in_ style explode .ARRAY
  itemsType := type
  separator := getArrayItemsSeparator style explode
  hasRunningName := hasArrayRunningName style explode
  has20Separator := style = .SPACE_DELIM && !explode

theorem between_arrayOf (hstyle : arraySupported in_ style) (type : PrimitiveType) :
    between (arrayOf name in_ style explode type) = rawSeparator style explode := by
  cases style with
  | DEEP_OBJ => simp [arraySupported] at hstyle
  | CONTENT => simp [arraySupported] at hstyle
  | _ => cases explode <;> rfl

/-- What the styles say of a list is what the deserializer looks for. -/
theorem serializeArray_eq (hstyle : arraySupported in_ style) {type : PrimitiveType}
    {d : ArrayDeserializer} (hd : d = arrayOf name in_ style explode type) (vs : List Json) :
    serializeArray style explode name (vs.map wordOf) =
      lead d.toBaseDeserializer (d.skipName && !d.hasRunningName) ++
        (between d).intercalate (vs.map fun v => chunk d (wordOf v)) := by
  subst hd
  rw [between_arrayOf hstyle]
  set d := arrayOf name in_ style explode type
  have hcomp : (vs.map fun v => chunk d (wordOf v)) = (vs.map wordOf).map (chunk d) := by
    rw [List.map_map]
    rfl
  rw [hcomp]
  generalize vs.map wordOf = words
  have hplain : d.hasRunningName = false → words.map (chunk d) = words := by
    intro hname
    have hchunk : chunk d = id := funext fun w => by simp [chunk, hname]
    rw [hchunk, List.map_id]
  have hnamed : d.hasRunningName = true → words.map (chunk d) = words.map (name ++ lit "=" ++ ·) := by
    intro hname
    have hchunk : chunk d = (name ++ lit "=" ++ ·) := funext fun w => by rw [chunk, if_pos hname]; rfl
    rw [hchunk]
  cases style with
  | DEEP_OBJ => simp [arraySupported] at hstyle
  | CONTENT => simp [arraySupported] at hstyle
  | SIMPLE => cases explode <;> rw [hplain rfl] <;> rfl
  | LABEL => cases explode <;> rw [hplain rfl] <;> rfl
  | MATRIX =>
    cases explode with
    | false => rw [hplain rfl]; rfl
    | true => rw [hnamed rfl]; rfl
  | FORM =>
    cases explode with
    | false => rw [hplain rfl]; rfl
    | true => rw [hnamed rfl]; rfl
  | SPACE_DELIM =>
    cases explode with
    | false => rw [hplain rfl]; rfl
    | true => rw [hnamed rfl]; rfl
  | PIPE_DELIM =>
    cases explode with
    | false => rw [hplain rfl]; rfl
    | true => rw [hnamed rfl]; rfl

/-- A separator is a reserved byte, but for the point and the percent sign. -/
theorem separator_cases (hstyle : arraySupported in_ style) :
    (style = .LABEL ∧ explode = true ∧ getArrayItemsSeparator style explode = point) ∨
    (style = .SPACE_DELIM ∧ explode = false ∧ getArrayItemsSeparator style explode = percent) ∨
    (unreserved (getArrayItemsSeparator style explode) = false ∧
      getArrayItemsSeparator style explode ≠ percent) := by
  cases style with
  | LABEL => cases explode <;> decide
  | SPACE_DELIM => cases explode <;> decide
  | DEEP_OBJ => simp [arraySupported] at hstyle
  | CONTENT => simp [arraySupported] at hstyle
  | _ => cases explode <;> decide

theorem head_between (hstyle : arraySupported in_ style) (type : PrimitiveType) (u : Bytes) :
    (between (arrayOf name in_ style explode type) ++ u).head? =
      some (getArrayItemsSeparator style explode) := by
  rw [between_arrayOf hstyle]
  cases style with
  | DEEP_OBJ => simp [arraySupported] at hstyle
  | CONTENT => simp [arraySupported] at hstyle
  | _ => cases explode <;> rfl

/-- Outside the two cases, no string ends before its end. -/
theorem unstopped_items (hstyle : arraySupported in_ style) {type : PrimitiveType} {vs : List Json}
    (hvs : ∀ v ∈ vs, Sendable type v ∧ ¬rawSeparator style explode <:+: wordOf v)
    (hspace : ¬EncodedBetweenSpaces style explode type vs) :
    ∀ v ∈ vs, Unstopped (· = getArrayItemsSeparator style explode) v := by
  intro v hv
  rcases @separator_cases in_ style explode hstyle with
    ⟨rfl, rfl, heq⟩ | ⟨rfl, rfl, heq⟩ | ⟨hreserved, hpercent⟩
  · rw [heq]
    exact unstopped_of_not_mem (not_mem_of_apart (hvs v hv).2)
  · rw [heq]
    rintro s rfl c hc
    have hstring : type = .STRING := by
      cases type with
      | STRING => rfl
      | _ => exact (hvs _ hv).1.elim
    have hres : unreserved c := by
      by_contra hres
      exact hspace ⟨rfl, rfl, hstring, s, hv, c, hc, by simpa using hres⟩
    simp only [leading, hres, if_true, decide_eq_false_iff_not]
    rintro rfl
    exact absurd hres (by decide)
  · exact unstopped_of_reserved hreserved hpercent v

/-- Nor does an item go on behind its end. -/
theorem ends_between (hstyle : arraySupported in_ style) {type : PrimitiveType} {vs : List Json}
    (hpoint : ¬PointBetweenNumbers style explode type vs) (h2 : 2 ≤ vs.length) (u : Bytes) :
    Ends (· = getArrayItemsSeparator style explode)
      (between (arrayOf name in_ style explode type) ++ u) type := by
  apply ends_of_head (head_between hstyle type u)
  · rcases @separator_cases in_ style explode hstyle with ⟨-, -, heq⟩ | ⟨-, -, heq⟩ | ⟨hreserved, -⟩
    · rw [heq]
      decide
    · rw [heq]
      decide
    · exact isDigit_of_reserved hreserved
  · rintro rfl
    rcases @separator_cases in_ style explode hstyle with
      ⟨rfl, rfl, -⟩ | ⟨-, -, heq⟩ | ⟨hreserved, -⟩
    · exact absurd ⟨rfl, rfl, rfl, h2⟩ hpoint
    · rw [heq]
      decide
    · intro heq
      rw [heq] at hreserved
      exact absurd hreserved (by decide)

/-- An array parameter that a style has a form for, of values without the separator of the style, is
deserialized to a JSON array of the same values if and only if it is neither a list of several numbers
with points between them nor a list of strings with an encoded byte and encoded spaces between
them. -/
theorem array_parameter_iff (h : Declares paramVal style0 explode0 name in_ style explode)
    (hd : getDeserializer paramVal style0 explode0 refKeys = .ok (.array a))
    (hstyle : arraySupported in_ style) {vs : List Json} (hne : vs ≠ [])
    (hvs : ∀ v ∈ vs, Sendable a.itemsType v ∧ ¬rawSeparator style explode <:+: wordOf v) :
    (∃ out, deserializeText (.array a) (serializeArray style explode name (vs.map wordOf)) =
        .ok out ∧ parse out = some (.array vs)) ↔
      ¬PointBetweenNumbers style explode a.itemsType vs ∧
        ¬EncodedBetweenSpaces style explode a.itemsType vs := by
  obtain ⟨-, ha⟩ := getDeserializer_array h hd
  obtain ⟨type, rfl⟩ : ∃ type, a = arrayOf name in_ style explode type := ⟨a.itemsType, ha⟩
  have htext := @serializeArray_eq name in_ style explode hstyle type _ rfl vs
  set d := arrayOf name in_ style explode type with hdef
  have hnil : serializeArray style explode name (vs.map wordOf) ≠ [] := by
    have hlen := length_chunks (d := d) hne fun v hv => (hvs v hv).1
    have := List.length_pos_iff.mpr hne
    rw [htext]
    exact List.append_ne_nil_of_right_ne_nil _ (List.length_pos_iff.mp (by omega))
  rw [deserializeText_eq (Or.inr hnil) (by simp), htext]
  simp only [Deserializer.lexer]
  constructor
  · rintro ⟨out, hout, hparse⟩
    obtain ⟨⟨out, rest⟩, hrun, rfl⟩ := map_eq_ok_iff.mp hout
    refine ⟨?_, ?_⟩
    · rintro ⟨rfl, rfl, htype, h2⟩
      obtain ⟨v, w, vs, rfl⟩ : ∃ v w ws, vs = v :: w :: ws := by
        obtain ⟨v, vs, rfl⟩ := List.exists_cons_of_ne_nil hne
        obtain ⟨w, ws, rfl⟩ : ∃ w ws, vs = w :: ws :=
          List.exists_cons_of_ne_nil fun hnil => by simp [hnil] at h2
        exact ⟨v, w, ws, rfl⟩
      exact array_takes_point htype rfl rfl rfl
        (fun u hu => ⟨htype ▸ (hvs u hu).1, not_mem_of_apart (hvs u hu).2⟩) hrun hparse
    · rintro ⟨rfl, rfl, htype, hbytes⟩
      have hstuck := @array_stuck d rfl rfl rfl htype vs
        (fun v hv => ⟨htype ▸ (hvs v hv).1, (hvs v hv).2⟩) hbytes
      rw [hstuck] at hrun
      simp at hrun
  · rintro ⟨hpoint, hspace⟩
    have hends := fun h2 u => @ends_between name in_ style explode hstyle type vs hpoint h2 u
    have hrun := @array_chunks d vs hne
      (fun v hv => ⟨(hvs v hv).1, unstopped_items hstyle hvs hspace v hv⟩) hends
    refine ⟨_, by rw [hrun]; rfl, ?_⟩
    apply parse_array_reads
    · rw [List.forall₂_map_left_iff, List.forall₂_same]
      exact fun v hv => reads_pieceOf (hvs v hv).1
    · simpa using hne

end

/-- A path parameter that is a list of numbers, with what its style takes besides. -/
def pointsParam (style : List (Bytes × Json)) : Json :=
  .object ([(lit "name", .string (lit "at")), (lit "in", .string (lit "path"))] ++ style ++
    [(lit "schema", .object [(lit "type", .string (lit "array")),
      (lit "items", .object [(lit "type", .string (lit "number"))])])])

theorem array_parameter_iff_points :
    (∃ out, deserializeText (.array (arrayOf (lit "at") (lit "path") .SIMPLE false .NUMBER))
        (serializeArray .SIMPLE false (lit "at")
          ([.number (lit "3"), .number (lit "-14.5")].map wordOf)) = .ok out ∧
        parse out = some (.array [.number (lit "3"), .number (lit "-14.5")])) ↔
      ¬PointBetweenNumbers .SIMPLE false .NUMBER [.number (lit "3"), .number (lit "-14.5")] ∧
        ¬EncodedBetweenSpaces .SIMPLE false .NUMBER [.number (lit "3"), .number (lit "-14.5")] := by
  have hdeclares : Declares (pointsParam []) (lit "simple") false (lit "at") (lit "path") .SIMPLE
      false :=
    ⟨by decide, by decide, by decide, by decide⟩
  have hbuilt : getDeserializer (pointsParam []) (lit "simple") false [] =
      .ok (.array (arrayOf (lit "at") (lit "path") .SIMPLE false .NUMBER)) := by
    decide
  have hvs : ∀ word ∈ [lit "3", lit "-14.5"],
      Sendable .NUMBER (.number word) ∧ ¬rawSeparator .SIMPLE false <:+: word := by
    simp only [Sendable, PlainDecimal]
    decide +kernel
  exact array_parameter_iff hdeclares hbuilt (by decide) (by simp)
    (List.forall_mem_map.mpr hvs : ∀ v ∈ [lit "3", lit "-14.5"].map Value.number, _)

/-- The numbers 1 and 2 of style `label` are read as the number 1.2. -/
theorem point_between_numbers : ¬∀ (paramVal : Json) (style0 : Bytes) (explode0 : Bool)
    (name in_ : Bytes) (style : ParamStyle) (explode : Bool) (refKeys : List Bytes)
    (a : ArrayDeserializer), Declares paramVal style0 explode0 name in_ style explode →
      getDeserializer paramVal style0 explode0 refKeys = .ok (.array a) →
      arraySupported in_ style → ∀ vs : List Json, vs ≠ [] →
      (∀ v ∈ vs, Sendable a.itemsType v ∧ ¬rawSeparator style explode <:+: wordOf v) →
        ∃ out, deserializeText (.array a) (serializeArray style explode name (vs.map wordOf)) =
          .ok out ∧ parse out = some (.array vs) := by
  intro h
  let label := pointsParam [(lit "style", .string (lit "label")), (lit "explode", .bool true)]
  let a := arrayOf (lit "at") (lit "path") .LABEL true .NUMBER
  have hdeclares : Declares label (lit "simple") false (lit "at") (lit "path") .LABEL true :=
    ⟨by decide, by decide, by decide, by decide +kernel⟩
  have hbuilt : getDeserializer label (lit "simple") false [] = .ok (.array a) := by
    decide +kernel
  have hvs : ∀ word ∈ [lit "1", lit "2"],
      Sendable .NUMBER (.number word) ∧ ¬rawSeparator .LABEL true <:+: word := by
    simp only [Sendable, PlainDecimal]
    decide +kernel
  obtain ⟨out, hout, hparse⟩ := h _ _ _ _ _ _ _ _ _ hdeclares hbuilt (by decide)
    [.number (lit "1"), .number (lit "2")] (by simp)
    (List.forall_mem_map.mpr hvs : ∀ v ∈ [lit "1", lit "2"].map Value.number, _)
  have hrun : deserializeText (.array a) (serializeArray .LABEL true (lit "at")
      ([.number (lit "1"), .number (lit "2")].map wordOf)) = .ok (lit "[1.2]") := by
    decide +kernel
  obtain rfl := Except.ok.inj (hrun.symm.trans hout)
  have hread : parse (lit "[1.2]") = some (.array [.number (lit "1.2")]) := by
    have hone : Reads (lit "1.2") (.number (lit "1.2")) := reads_number (by decide +kernel)
    have htext : lit "[1.2]" = '['.toUInt8 :: (commas [lit "1.2"] ++ [']'.toUInt8]) := by
      decide +kernel
    rw [htext]
    exact parse_array_reads (.cons hone .nil) (by simp)
  rw [hread] at hparse
  simp at hparse

end OasValidator
