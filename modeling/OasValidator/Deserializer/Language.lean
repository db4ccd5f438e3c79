import OasValidator.Deserializer.Declared
import OasValidator.Deserializer.Locality
import OasValidator.Deserializer.Meaning
import OasValidator.Deserializer.Words
import OasValidator.Library.Cut

/-! The language of array parameters.  An array deserializer accepts the items that its type scans, joined
by its separator and each behind its name where it has a running one, and writes them as a JSON array. -/

namespace OasValidator

open Library.Json Library.Scanning Library.Cut

namespace Text

variable {d : ArrayDeserializer}

/-- What stands between items. -/
def between (d : ArrayDeserializer) : Bytes := if d.has20Separator then lit "%20" else [d.separator]

/-- An item behind its name, where each item has one. -/
def chunk (d : ArrayDeserializer) (word : Bytes) : Bytes :=
  (if d.hasRunningName then d.paramName ++ [equals] else []) ++ word

/-- The text of an item, and the JSON text that is written for it. -/
structure Item where
  word : Bytes
  piece : Bytes

/-- The items of a text, joined. -/
def joinedItems (d : ArrayDeserializer) (is : List Item) : Bytes :=
  (between d).intercalate (is.map fun i => chunk d i.word)

theorem between_ne_nil : between d ≠ [] := by
  unfold between
  split
  · decide
  · simp

theorem joinedItems_cons_cons (i j : Item) (is : List Item) :
    joinedItems d (i :: j :: is) = chunk d i.word ++ (between d ++ joinedItems d (j :: is)) := by
  simp [joinedItems, List.intercalate_cons_cons]

@[simp] theorem joinedItems_singleton (i : Item) : joinedItems d [i] = chunk d i.word := by
  simp [joinedItems]

theorem separator_between {u : Bytes} (hu : u ≠ []) : separator d (between d ++ u) = .ok ((), u) := by
  have hne : between d ++ u ≠ [] := by simp [between_ne_nil]
  rw [separator, if_neg hne]
  unfold separatorChars between
  by_cases h20 : d.has20Separator
  · have h3 : lit "%20" ++ u = percent :: '2'.toUInt8 :: '0'.toUInt8 :: u := rfl
    simp [h20, h3, Lexer.bind_apply, skipChar, itemData, hu]
  · simp [h20, Lexer.bind_apply, skipChar, itemData, hu]

theorem separator_eq_ok {t rest : Bytes} {u : Unit} (h : separator d t = .ok (u, rest)) :
    t = [] ∧ rest = [] ∨ rest ≠ [] ∧ t = between d ++ rest := by
  by_cases ht : t = []
  · subst ht
    obtain rfl : [] = rest := by simpa [separator] using h
    exact Or.inl ⟨rfl, rfl⟩
  · refine Or.inr ?_
    rw [separator, if_neg ht, separatorChars, Lexer.ite_apply] at h
    unfold between
    split at h
    · rename_i h20
      simp only [Lexer.bind_eq_ok_iff, skipChar_eq_ok_iff, itemData_eq_ok_iff] at h
      obtain ⟨_, t1, h1, _, t2, h2, _, t3, h3, hne, rfl⟩ := h
      have hlit : lit "%20" ++ rest = percent :: '2'.toUInt8 :: '0'.toUInt8 :: rest := rfl
      rw [if_pos h20, hlit]
      -- a text that ends in front of the last character leaves no data
      grind
    · rename_i h20
      simp only [Lexer.bind_eq_ok_iff, skipChar_eq_ok_iff, itemData_eq_ok_iff] at h
      obtain ⟨_, t1, h1, hne, rfl⟩ := h
      rw [if_neg h20]
      exact ⟨hne, (h1.resolve_left fun h => hne h.2)⟩

/-! ### Joined items are read -/

/-- The item is scanned in front of `rest`. -/
def ItemScans (d : ArrayDeserializer) (i : Item) (rest : Bytes) : Prop :=
  ∀ ret, value d.toBaseDeserializer (· = d.separator) ret d.itemsType (i.word ++ rest) =
    .ok (ret ++ i.piece, rest)

/-- An item is read behind its name, and the separator behind it. -/
theorem item_chunk {i : Item} {rest : Bytes} (hscan : ItemScans d i rest)
    (hne : i.word ++ rest ≠ []) (ret : Bytes) :
    item d ret (chunk d i.word ++ rest) =
      (separator d rest).map fun p => (ret ++ i.piece ++ [comma], p.2) := by
  have hrest : (value d.toBaseDeserializer (· = d.separator) ret d.itemsType >>= fun ret =>
      separator d >>= fun _ => Pure.pure (ret ++ [comma])) (i.word ++ rest) =
        (separator d rest).map fun p => (ret ++ i.piece ++ [comma], p.2) := by
    rw [Lexer.bind_apply, hscan ret]
    simp only [Lexer.bind_apply]
    cases separator d rest <;> rfl
  unfold item chunk
  by_cases hname : d.hasRunningName
  · have hskip : skipName d.toBaseDeserializer
        (d.paramName ++ ([equals] ++ (i.word ++ rest))) = .ok ((), [equals] ++ (i.word ++ rest)) :=
      skipName_eq_ok_iff.mpr rfl
    simp only [hname, if_true, List.append_assoc]
    rw [Lexer.bind_apply, hskip]
    simp only [Lexer.bind_apply, List.singleton_append, skipChar, if_true, itemData, hne, if_false]
    simpa [Lexer.bind_apply] using hrest
  · simp only [hname, Bool.false_eq_true, if_false, List.nil_append]
    exact hrest

theorem items_succ {n : Nat} {ret t : Bytes} (ht : t ≠ []) :
    items d (n + 1) ret t = (item d ret >>= items d n) t :=
  if_neg ht

theorem chunk_ne_nil {word : Bytes} (h : word ≠ []) : chunk d word ≠ [] := by
  simp [chunk, h]

theorem joinedItems_ne_nil {is : List Item} (hne : is ≠ [])
    (hlast : ∀ i ∈ is.getLast?, i.word ≠ []) : joinedItems d is ≠ [] := by
  cases is with
  | nil => exact absurd rfl hne
  | cons i is =>
    cases is with
    | nil =>
      rw [joinedItems_singleton]
      exact chunk_ne_nil (hlast i (by simp))
    | cons j is => simp [joinedItems_cons_cons, between_ne_nil]

/-- The items, each scanned in front of the next separator, and the last one at the end. -/
theorem items_joined {is : List Item} (hne : is ≠ []) (hlast : ∀ i ∈ is.getLast?, i.word ≠ [])
    (hend : ∀ i ∈ is, ItemScans d i [])
    (hbetween : 2 ≤ is.length → ∀ i ∈ is, ∀ u, ItemScans d i (between d ++ u))
    {n : Nat} (hn : is.length ≤ n) (ret : Bytes) :
    items d n ret (joinedItems d is) = .ok (ret ++ glue comma (is.map Item.piece), []) := by
  induction is generalizing n ret with
  | nil => exact absurd rfl hne
  | cons i is ih =>
    obtain ⟨n, rfl⟩ : ∃ m, n = m + 1 := ⟨n - 1, by simp at hn; omega⟩
    cases is with
    | nil =>
      have hword : i.word ≠ [] := hlast i (by simp)
      have hitem := item_chunk (hend i List.mem_cons_self) (by simpa using hword) ret
      rw [List.append_nil] at hitem
      rw [joinedItems_singleton, items_succ (chunk_ne_nil hword), Lexer.bind_apply, hitem]
      cases n <;> simp [separator, Except.map, items]
    | cons j is =>
      have hlast' : ∀ k ∈ (j :: is).getLast?, k.word ≠ [] := by
        rwa [List.getLast?_cons_cons] at hlast
      have hne' : joinedItems d (j :: is) ≠ [] := joinedItems_ne_nil (by simp) hlast'
      have hitem := item_chunk (hbetween (by simp) i List.mem_cons_self (joinedItems d (j :: is)))
        (by simp [between_ne_nil]) ret
      rw [separator_between hne'] at hitem
      rw [joinedItems_cons_cons, items_succ (by simp [between_ne_nil]), Lexer.bind_apply, hitem]
      simp only [Except.map]
      rw [ih (by simp) hlast' (fun k hk => hend k (List.mem_cons_of_mem i hk))
        (fun _ k hk => hbetween (by simp) k (List.mem_cons_of_mem i hk)) (by simpa using hn)]
      simp

/-- The items but the last one may be empty, but a separator stands behind each of them. -/
theorem length_joinedItems {is : List Item} (hne : is ≠ [])
    (hlast : ∀ i ∈ is.getLast?, i.word ≠ []) : is.length ≤ (joinedItems d is).length := by
  induction is with
  | nil => exact absurd rfl hne
  | cons i is ih =>
    cases is with
    | nil =>
      rw [joinedItems_singleton]
      exact List.length_pos_iff.mpr (chunk_ne_nil (hlast i (by simp)))
    | cons j is =>
      have hrec := ih (by simp) (by rwa [List.getLast?_cons_cons] at hlast)
      have hbetween := List.length_pos_iff.mpr (between_ne_nil (d := d))
      simp only [joinedItems_cons_cons, List.length_append, List.length_cons] at hrec ⊢
      omega

theorem lit_bracket : lit "]" = [']'.toUInt8] := rfl

/-- The closing bracket takes the place of the comma behind the last piece. -/
theorem closed_pieces {ps : List Bytes} (hne : ps ≠ []) :
    (if (lit "[" ++ glue comma ps).getLast? = some comma then
        (lit "[" ++ glue comma ps).dropLast ++ lit "]"
      else lit "[" ++ glue comma ps ++ lit "]") = '['.toUInt8 :: (commas ps ++ [']'.toUInt8]) := by
  obtain ⟨qs, q, rfl⟩ := (List.eq_nil_or_concat' ps).resolve_left hne
  have hlast : (lit "[" ++ glue comma (qs ++ [q])).getLast? = some comma := by
    rw [glue_append, glue_cons, glue_nil]
    simp
  have hdrop : (lit "[" ++ glue comma (qs ++ [q])).dropLast = lit "[" ++ commas (qs ++ [q]) := by
    rw [List.dropLast_append_of_ne_nil (by rw [glue_append]; simp), dropLast_glue]
    rfl
  rw [if_pos hlast, hdrop]
  rfl

/-- A list of items is written as a JSON array of their texts. -/
theorem array_joined {is : List Item} (hne : is ≠ []) (hlast : ∀ i ∈ is.getLast?, i.word ≠ [])
    (hend : ∀ i ∈ is, ItemScans d i [])
    (hbetween : 2 ≤ is.length → ∀ i ∈ is, ∀ u, ItemScans d i (between d ++ u)) :
    array d (lead d.toBaseDeserializer (d.skipName && !d.hasRunningName) ++ joinedItems d is) =
      .ok ('['.toUInt8 :: (commas (is.map Item.piece) ++ [']'.toUInt8]), []) := by
  unfold array
  rw [lead_append, Lexer.bind_apply]
  simp only [data, joinedItems_ne_nil hne hlast, if_false]
  rw [Lexer.bind_apply, allItems,
    items_joined hne hlast hend hbetween (length_joinedItems hne hlast)]
  simp only [Lexer.bind_apply, finish, if_true, Lexer.pure_apply,
    @closed_pieces (is.map Item.piece) (by simpa using hne)]

/-! ### What is read is joined items -/

/-- What an item of the type is: a word of the scanner's grammar, a string without the separator. -/
def IsItem (d : ArrayDeserializer) (i : Item) : Prop :=
  Writes i.word i.piece d.itemsType ∧ (d.itemsType = .STRING → d.separator ∉ i.word)

theorem item_eq_ok (hhex : kHexLookupTable d.separator < 0) {ret t out rest : Bytes}
    (h : item d ret t = .ok (out, rest)) (ht : t ≠ []) :
    ∃ i mid, IsItem d i ∧ t = chunk d i.word ++ mid ∧ i.word ++ mid ≠ [] ∧
      out = ret ++ i.piece ++ [comma] ∧ (mid = [] ∧ rest = [] ∨ rest ≠ [] ∧ mid = between d ++ rest) := by
  have hvalue : ∀ {u : Bytes}, u ≠ [] → (value d.toBaseDeserializer (· = d.separator) ret
      d.itemsType >>= fun ret => separator d >>= fun _ => Pure.pure (ret ++ [comma])) u =
        .ok (out, rest) → ∃ i mid, IsItem d i ∧ u = i.word ++ mid ∧
          out = ret ++ i.piece ++ [comma] ∧
          (mid = [] ∧ rest = [] ∨ rest ≠ [] ∧ mid = between d ++ rest) := by
    intro u hu h
    obtain ⟨ret', mid, hv, h⟩ := Lexer.bind_eq_ok_iff.mp h
    obtain ⟨_, mid', hsep, hpure⟩ := Lexer.bind_eq_ok_iff.mp h
    obtain ⟨word, piece, rfl, rfl, hwrites, hstring⟩ := value_eq_ok hv
    obtain ⟨rfl, rfl⟩ : ret ++ piece ++ [comma] = out ∧ mid' = rest := by simpa using hpure
    refine ⟨⟨word, piece⟩, mid, ⟨hwrites, fun htype hmem => ?_⟩, rfl, rfl, separator_eq_ok hsep⟩
    exact absurd ((hstring htype).2 _ hmem (by simp)) (by omega)
  simp only [item, Lexer.ite_apply] at h
  unfold chunk
  split at h
  · rename_i hname
    obtain ⟨_, t1, hskip, h1⟩ := Lexer.bind_eq_ok_iff.mp h
    obtain ⟨_, t2, hchar, h2⟩ := Lexer.bind_eq_ok_iff.mp h1
    obtain ⟨_, t3, hdata, h3⟩ := Lexer.bind_eq_ok_iff.mp h2
    obtain rfl := skipName_eq_ok_iff.mp hskip
    obtain ⟨hne, rfl⟩ := itemData_eq_ok_iff.mp hdata
    obtain rfl := (skipChar_eq_ok_iff.mp hchar).resolve_left fun h => hne h.2
    obtain ⟨i, mid, hitem, rfl, hout, hmid⟩ := hvalue hne h3
    exact ⟨i, mid, hitem, by simp [hname], hne, hout, hmid⟩
  · rename_i hname
    obtain ⟨i, mid, hitem, rfl, hout, hmid⟩ := hvalue ht h
    exact ⟨i, mid, hitem, by simp [hname], ht, hout, hmid⟩

theorem items_eq_ok (hhex : kHexLookupTable d.separator < 0) {n : Nat} {ret t out : Bytes}
    (h : items d n ret t = .ok (out, [])) (ht : t ≠ []) :
    ∃ is : List Item, is ≠ [] ∧ (∀ i ∈ is, IsItem d i) ∧ (∀ i ∈ is.getLast?, i.word ≠ []) ∧
      t = joinedItems d is ∧ out = ret ++ glue comma (is.map Item.piece) := by
  induction n generalizing ret t with
  | zero =>
    obtain ⟨-, rfl⟩ : ret = out ∧ t = [] := by simpa [items] using h
    exact absurd rfl ht
  | succ n ih =>
    rw [items_succ ht] at h
    obtain ⟨mid, u, hitem, hitems⟩ := Lexer.bind_eq_ok_iff.mp h
    obtain ⟨i, behind, hi, rfl, hword, rfl, hrest⟩ := item_eq_ok hhex hitem ht
    rcases hrest with ⟨rfl, rfl⟩ | ⟨hne, rfl⟩
    · -- the last item
      have hout : ret ++ i.piece ++ [comma] = out := by cases n <;> simpa [items] using hitems
      refine ⟨[i], by simp, by simpa using hi, by simpa using hword, by simp, ?_⟩
      simp [← hout]
    · obtain ⟨is, his, hall, hlast, rfl, rfl⟩ := ih hitems hne
      obtain ⟨j, is, rfl⟩ := List.exists_cons_of_ne_nil his
      refine ⟨i :: j :: is, by simp, ?_, by rwa [List.getLast?_cons_cons],
        (joinedItems_cons_cons i j is).symm, by simp⟩
      rintro k hk
      rcases List.mem_cons.mp hk with rfl | hk
      · exact hi
      · exact hall k hk

theorem array_eq_ok (hhex : kHexLookupTable d.separator < 0) {t out rest : Bytes}
    (h : array d t = .ok (out, rest)) :
    ∃ is : List Item, is ≠ [] ∧ (∀ i ∈ is, IsItem d i) ∧ (∀ i ∈ is.getLast?, i.word ≠ []) ∧
      t = lead d.toBaseDeserializer (d.skipName && !d.hasRunningName) ++ joinedItems d is ∧
      out = '['.toUInt8 :: (commas (is.map Item.piece) ++ [']'.toUInt8]) := by
  have hdata : ∀ {u : Bytes}, (data d.toBaseDeserializer >>= fun _ => allItems d >>= fun ret =>
      finish d.toBaseDeserializer >>= fun _ => Pure.pure
        (if ret.getLast? = some comma then ret.dropLast ++ lit "]" else ret ++ lit "]")) u =
          .ok (out, rest) →
      ∃ is : List Item, is ≠ [] ∧ (∀ i ∈ is, IsItem d i) ∧ (∀ i ∈ is.getLast?, i.word ≠ []) ∧
        u = joinedItems d is ∧ u ≠ [] ∧
        out = '['.toUInt8 :: (commas (is.map Item.piece) ++ [']'.toUInt8]) := by
    intro u h
    obtain ⟨_, u', hne, h1⟩ := Lexer.bind_eq_ok_iff.mp h
    obtain ⟨hu, rfl⟩ := data_eq_ok hne
    obtain ⟨ret, u1, hitems, h2⟩ := Lexer.bind_eq_ok_iff.mp h1
    obtain ⟨_, u2, hfinish, hpure⟩ := Lexer.bind_eq_ok_iff.mp h2
    obtain rfl : u1 = [] := by
      unfold finish at hfinish
      split at hfinish
      · assumption
      · simp at hfinish
    obtain ⟨is, his, hall, hlast, ht, rfl⟩ := items_eq_ok hhex hitems hu
    refine ⟨is, his, hall, hlast, ht, hu, ?_⟩
    rw [← @closed_pieces (is.map Item.piece) (by simpa using his)]
    exact (Prod.mk.inj (Except.ok.inj hpure)).1.symm
  obtain ⟨_, u, hstart, h1⟩ := Lexer.bind_eq_ok_iff.mp h
  obtain rfl := startChar_eq_ok hstart
  rw [Lexer.ite_apply] at h1
  unfold lead
  split at h1
  · rename_i hname
    obtain ⟨_, u1, hskip, h2⟩ := Lexer.bind_eq_ok_iff.mp h1
    obtain ⟨_, u2, hchar, h3⟩ := Lexer.bind_eq_ok_iff.mp h2
    obtain rfl := skipName_eq_ok_iff.mp hskip
    obtain ⟨is, his, hall, hlast, ht, hne, hout⟩ := hdata h3
    obtain rfl := (skipChar_eq_ok_iff.mp hchar).resolve_left fun h => hne h.2
    refine ⟨is, his, hall, hlast, ?_, hout⟩
    rw [if_pos hname, ← ht]
    simp
  · rename_i hname
    obtain ⟨is, his, hall, hlast, ht, hne, hout⟩ := hdata h1
    refine ⟨is, his, hall, hlast, ?_, hout⟩
    rw [if_neg hname, ← ht]
    simp

/-! ### The items of a type are scanned -/

theorem boolean_word {b : BaseDeserializer} {word rest ret : Bytes}
    (h : word = lit "true" ∨ word = lit "false") :
    boolean b ret (word ++ rest) = .ok (ret ++ word, rest) := by
  rcases h with rfl | rfl
  · simp [boolean]
  · have hnot : (lit "true").isPrefixOf (lit "false" ++ rest) = false := rfl
    simp [boolean, hnot]

/-- A text without a byte that ends it is decoded up to such a byte. -/
theorem decode_word {b : BaseDeserializer} {stop : UInt8 → Bool} {word out rest : Bytes}
    (h : percentDecode word = some out) (hstop : ∀ c ∈ word, stop c = false)
    (hrest : ∀ c ∈ rest.head?, stop c) : decode b stop (word ++ rest) = .ok (out, rest) := by
  induction word using percentDecode.induct generalizing out with
  | case1 =>
    obtain rfl : [] = out := by simpa [percentDecode] using h
    cases rest with
    | nil => simp [decode]
    | cons c rest => simp [decode_cons, hrest c rfl]
  | case2 x y t hhex => simp [percentDecode, hhex] at h
  | case3 x y t hhex ih =>
    rw [percentDecode, if_pos rfl] at h
    simp only [hhex, if_false] at h
    obtain ⟨out', hout', rfl⟩ := Option.map_eq_some_iff.mp h
    have hc : stop percent = false := hstop percent (by simp)
    have hone : decodeOne b percent (x :: y :: t ++ rest) =
        .ok (charOf (kHexLookupTable x) (kHexLookupTable y), t ++ rest) := by
      simp [decodeOne, hhex]
    rw [List.cons_append, decode_cons, hc, hone]
    simp only [Bool.false_eq_true, if_false]
    rw [ih hout' fun c hc => hstop c (by simp [hc])]
    rfl
  | case4 t hshort =>
    cases t with
    | nil => simp [percentDecode] at h
    | cons x t =>
      cases t with
      | nil => simp [percentDecode] at h
      | cons y t => exact absurd rfl (hshort x y t)
  | case5 c t hpercent ih =>
    rw [percentDecode.eq_def] at h
    simp only [hpercent, if_false] at h
    obtain ⟨out', hout', rfl⟩ := Option.map_eq_some_iff.mp h
    have hc : stop c = false := hstop c (by simp)
    have hone : decodeOne b c (t ++ rest) =
        .ok (if c = '+'.toUInt8 then ' '.toUInt8 else c, t ++ rest) := by
      simp [decodeOne, hpercent]
    rw [List.cons_append, decode_cons, hc, hone]
    simp only [Bool.false_eq_true, if_false]
    rw [ih hout' fun c hc => hstop c (by simp [hc])]
    rfl

theorem IsItem.scans {i : Item} (h : IsItem d i) {rest : Bytes}
    (hends : Ends (· = d.separator) rest d.itemsType) : ItemScans d i rest := by
  intro ret
  obtain ⟨hwrites, hstring⟩ := h
  cases htype : d.itemsType with
  | BOOLEAN =>
    rw [htype] at hwrites
    rw [hwrites.2]
    exact boolean_word hwrites.1
  | INTEGER =>
    rw [htype] at hwrites hends
    rw [hwrites.2]
    exact integer_word hwrites.1 hends
  | NUMBER =>
    rw [htype] at hwrites hends
    rw [hwrites.2]
    exact number_word hwrites.1 hends
  | STRING =>
    rw [htype] at hwrites hends
    obtain ⟨out, hdecode, hpiece⟩ := hwrites
    have hstop : ∀ c ∈ i.word, decide (c = d.separator) = false := by
      rintro c hc
      simp only [decide_eq_false_iff_not]
      rintro rfl
      exact hstring htype hc
    have hrun := decode_word (b := d.toBaseDeserializer) hdecode hstop hends
    rw [hpiece]
    simp only [Text.value, Text.string, Lexer.bind_apply, hrun, Lexer.pure_apply]

end Text

/-! ### The language -/

open Text

section

variable {paramVal : Json} {style0 : Bytes} {explode0 : Bool} {refKeys : List Bytes}

/-- A parameter with a deserializer declares its style. -/
theorem declares_of_ok {d : Deserializer}
    (h : getDeserializer paramVal style0 explode0 refKeys = .ok d) :
    ∃ name in_ style explode, Declares paramVal style0 explode0 name in_ style explode := by
  simp only [getDeserializer, bind_eq_ok_iff] at h
  obtain ⟨v, hv, name, hname, w, hw, in_, hin, explode, hexplode, styleName, hstyleName, style, hstyle,
    -⟩ := h
  exact ⟨name, in_, style, explode, bind_eq_ok_iff.mpr ⟨v, hv, hname⟩,
    bind_eq_ok_iff.mpr ⟨w, hw, hin⟩, hexplode, bind_eq_ok_iff.mpr ⟨styleName, hstyleName, hstyle⟩⟩

/-- No separator of items can stand in a scanned item, but a point in a number. -/
theorem separator_array {d : ArrayDeserializer}
    (h : getDeserializer paramVal style0 explode0 refKeys = .ok (.array d)) :
    kHexLookupTable d.separator < 0 ∧ isDigit d.separator = false ∧
      (d.has20Separator = true → d.separator = percent) := by
  obtain ⟨name, in_, style, explode, hdeclares⟩ := declares_of_ok h
  obtain ⟨-, hd⟩ := getDeserializer_array hdeclares h
  have hall : ∀ style explode, kHexLookupTable (getArrayItemsSeparator style explode) < 0 ∧
      isDigit (getArrayItemsSeparator style explode) = false ∧
      ((decide (style = .SPACE_DELIM) && !explode) = true →
        getArrayItemsSeparator style explode = percent) := by
    intro style explode
    cases style <;> cases explode <;> decide
  rw [hd]
  exact hall style explode

theorem head_between_eq {d : ArrayDeserializer} (h20 : d.has20Separator = true → d.separator = percent)
    (u : Bytes) : (between d ++ u).head? = some d.separator := by
  unfold between
  split
  · rename_i h
    rw [h20 h]
    rfl
  · rfl

/-- An array deserializer accepts a text exactly when behind its first character and its name the text
is made of items, joined by the separator and each behind its running name, of which the last one is
not empty, and it writes them between brackets. -/
theorem array_language {d : ArrayDeserializer}
    (h : getDeserializer paramVal style0 explode0 refKeys = .ok (.array d))
    (hnumber : d.itemsType = .NUMBER → d.separator ≠ point) {buf : Nat → UInt8} {beg length : Nat}
    (hstart : d.start = 0 ∨ (slice buf beg (beg + length)).head? = some d.start) (out : Bytes) :
    ((Deserializer.array d).deserialize buf beg (beg + length)).1 = .ok out ↔
      ∃ is : List Item, is ≠ [] ∧ (∀ i ∈ is, IsItem d i) ∧ (∀ i ∈ is.getLast?, i.word ≠ []) ∧
        slice buf beg (beg + length) =
          lead d.toBaseDeserializer (d.skipName && !d.hasRunningName) ++ joinedItems d is ∧
        out = '['.toUInt8 :: (commas (is.map Item.piece) ++ [']'.toUInt8]) := by
  obtain ⟨hhex, hdigit, h20⟩ := separator_array h
  have hrange : d.start = 0 ∨ beg < beg + length := by
    refine hstart.imp_right fun hhead => ?_
    have hne : slice buf beg (beg + length) ≠ [] := by
      rintro hnil
      simp [hnil] at hhead
    rw [Ne, slice_eq_nil_iff] at hne
    omega
  have hrun : ((Deserializer.array d).deserialize buf beg (beg + length)).1 =
      (array d (slice buf beg (beg + length))).map Prod.fst :=
    @scan_result buf (beg + length) ⟨beg, 0⟩ (.array d) (Nat.le_add_right _ _) (Nat.zero_le _) hrange
      (by simp)
  rw [hrun, map_eq_ok_iff]
  constructor
  · rintro ⟨⟨out, rest⟩, hok, rfl⟩
    exact array_eq_ok hhex hok
  · rintro ⟨is, hne, hall, hlast, ht, rfl⟩
    rw [ht]
    refine ⟨_, array_joined hne hlast (fun i hi => ?_) fun _ i hi u => ?_, rfl⟩
    · exact (hall i hi).scans (by cases d.itemsType <;> simp [Ends])
    · refine (hall i hi).scans ?_
      cases htype : d.itemsType with
      | BOOLEAN => trivial
      | INTEGER => simpa [Ends, head_between_eq h20] using hdigit
      | NUMBER => simpa [Ends, head_between_eq h20] using ⟨hdigit, hnumber htype⟩
      | STRING => simp [Ends, head_between_eq h20]

end

def idsParam : Json :=
  .object [(lit "name", .string (lit "X-Ids")), (lit "in", .string (lit "header")),
    (lit "schema", .object [(lit "type", .string (lit "array")),
      (lit "items", .object [(lit "type", .string (lit "integer"))])])]

def idsDeserializer : ArrayDeserializer :=
  ⟨⟨lit "X-Ids", 0, false⟩, .INTEGER, comma, false, false⟩

theorem array_language_ids :
    ((Deserializer.array idsDeserializer).deserialize (dataOf (lit "1,2")) 0 (0 + 3)).1 =
        .ok (lit "[1,2]") ↔
      ∃ is : List Item, is ≠ [] ∧ (∀ i ∈ is, IsItem idsDeserializer i) ∧
        (∀ i ∈ is.getLast?, i.word ≠ []) ∧
        slice (dataOf (lit "1,2")) 0 (0 + 3) =
          lead idsDeserializer.toBaseDeserializer
            (idsDeserializer.skipName && !idsDeserializer.hasRunningName) ++
              joinedItems idsDeserializer is ∧
        lit "[1,2]" = '['.toUInt8 :: (commas (is.map Item.piece) ++ [']'.toUInt8]) :=
  @array_language idsParam (lit "simple") false [] idsDeserializer (by decide) (by decide)
    (dataOf (lit "1,2")) 0 3 (Or.inl rfl) (lit "[1,2]")

end OasValidator
