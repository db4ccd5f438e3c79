import OasValidator.Deserializer.Language
import OasValidator.Deserializer.ObjectTexts

/-! The language of object parameters.  An object deserializer reads members until the text ends.  A
separator may stand behind each member or be left out wherever its value ends by itself, and the last
key may lack the characters behind it.  What is written for the members is joined as it stands. -/

namespace OasValidator

open Library.Json Library.Scanning

namespace Text

/-! ### Values -/

section

variable {b : BaseDeserializer}

theorem integer_ends {ret t out rest : Bytes} (h : integer b ret t = .ok (out, rest)) :
    ∀ c ∈ rest.head?, isDigit c = false := by
  simp only [integer, Lexer.bind_eq_ok_iff] at h
  obtain ⟨⟨u, word⟩, mid, htaken, hif⟩ := h
  obtain ⟨hlex, -⟩ := signed_eq_ok htaken
  have hmid : (dropMinus t).dropWhile isDigit = mid := by simpa [digits] using hlex
  obtain rfl : mid = rest := by
    rw [Lexer.ite_apply] at hif
    split at hif
    · exact (by simpa using hif : _ ∧ mid = rest).2
    · simp at hif
  intro c hc
  have hnot := List.head?_dropWhile_not isDigit (dropMinus t)
  rw [hmid, Option.mem_def.mp hc] at hnot
  simpa using hnot

theorem numberRest_ends {has has' : Bool} {t rest : Bytes}
    (h : numberRest b has t = .ok (has', rest)) :
    ∀ c ∈ rest.head?, isDigit c = false ∧ c ≠ point := by
  induction t generalizing has with
  | nil =>
    obtain rfl : [] = rest := (by simpa [numberRest] using h : has = has' ∧ [] = rest).2
    simp
  | cons c t ih =>
    rw [numberRest] at h
    split at h
    · split at h
      · simp at h
      · exact ih h
    · rename_i hc
      obtain rfl : c :: t = rest := (by simpa using h : has = has' ∧ c :: t = rest).2
      simpa [not_or] using hc

theorem number_ends {ret t out rest : Bytes} (h : number b ret t = .ok (out, rest)) :
    ∀ c ∈ rest.head?, isDigit c = false ∧ c ≠ point := by
  simp only [number, Lexer.bind_eq_ok_iff] at h
  obtain ⟨⟨has, word⟩, mid, htaken, hif⟩ := h
  obtain ⟨hlex, -⟩ := signed_eq_ok htaken
  obtain rfl : mid = rest := by
    rw [Lexer.ite_apply] at hif
    split at hif
    · exact (by simpa using hif : _ ∧ mid = rest).2
    · simp at hif
  exact numberRest_ends hlex

/-- A value is read exactly if a word of its type stands there that what follows cannot go on with. -/
theorem value_eq_ok_iff {sep : UInt8} (hhex : kHexLookupTable sep < 0) {ret t out rest : Bytes}
    {type : PrimitiveType} :
    value b (· = sep) ret type t = .ok (out, rest) ↔
      ∃ word piece, t = word ++ rest ∧ out = ret ++ piece ∧ Writes word piece type ∧
        (type = .STRING → sep ∉ word) ∧ Ends (· = sep) rest type := by
  constructor
  · intro h
    obtain ⟨word, piece, ht, hout, hwrites, hstring⟩ := value_eq_ok h
    refine ⟨word, piece, ht, hout, hwrites, fun hs hmem => ?_, ?_⟩
    · exact absurd ((hstring hs).2 sep hmem (by simp)) (by omega)
    · cases type with
      | BOOLEAN => trivial
      | INTEGER => exact integer_ends h
      | NUMBER => exact number_ends h
      | STRING => exact (hstring rfl).1
  · rintro ⟨word, piece, rfl, rfl, hwrites, hstring, hends⟩
    -- an array of the type, with this separator, reads the word as an item
    let d : ArrayDeserializer := ⟨b, type, sep, false, false⟩
    have hitem : IsItem d ⟨word, piece⟩ := ⟨hwrites, hstring⟩
    exact hitem.scans hends ret

end

/-! ### Members -/

variable {d : ObjectDeserializer}

/-- A member of a text: its key, the text of its value, the type declared for it, the JSON text that is
written for the value, and whether a separator stands behind. -/
structure Member where
  key : Bytes
  word : Bytes
  type : PrimitiveType
  piece : Bytes
  separated : Bool

def Member.behind (d : ObjectDeserializer) (m : Member) : Bytes :=
  if m.separated then [d.vkSeparator] else []

def Member.text (d : ObjectDeserializer) (m : Member) : Bytes := keyed d m.key (m.word ++ m.behind d)

def Member.output (m : Member) : Bytes :=
  quoted m.key ++ ':'.toUInt8 :: m.piece ++ if m.separated then [comma] else []

def memberTexts (d : ObjectDeserializer) (ms : List Member) : Bytes := ms.flatMap (Member.text d)

def memberOutputs (ms : List Member) : Bytes := ms.flatMap Member.output

/-- The member is read as it is in front of `rest`. -/
structure Member.Reads (d : ObjectDeserializer) (m : Member) (rest : Bytes) : Prop where
  key : terminator d ∉ m.key
  declared : d.ktMap.lookup (quoted m.key) = some m.type
  writes : Writes m.word m.piece m.type
  unstopped : m.type = .STRING → d.vkSeparator ∉ m.word
  ends : Ends (· = d.vkSeparator) (m.behind d ++ rest) m.type
  separated : m.separated = false → rest.head? ≠ some d.vkSeparator

/-- Each member is read as it is in front of the others. -/
def ReadsAll (d : ObjectDeserializer) : List Member → Prop
  | [] => True
  | m :: ms => m.Reads d (memberTexts d ms) ∧ ReadsAll d ms

/-- How many characters may be missing behind the key at the end of a text, with the bracket in front
of it where the key is empty. -/
def closing (d : ObjectDeserializer) (k : Bytes) : Nat :=
  if d.isDeepObj then if k = [] then 3 else 2 else 1

/-- The bytes `cut` are missing at the end of the last member. -/
def Missing (d : ObjectDeserializer) (cut : Bytes) (ms : List Member) : Prop :=
  cut = [] ∨ ∃ m, ms.getLast? = some m ∧ m.word = [] ∧ m.separated = false ∧
    cut.length ≤ closing d m.key ∧ cut.length < (m.text d).length

/-! ### Keys -/

/-- Bytes missing at the end of `u ++ v` that are as many as `v` has are `v`. -/
theorem missing_eq {t cut u v : Bytes} (h : t ++ cut = u ++ v) (hlen : cut.length = v.length) :
    t = u ∧ cut = v :=
  List.append_inj' h hlen

theorem key_eq_ok_iff {terminator : UInt8} {t k after : Bytes} :
    key terminator t = .ok (quoted k, after) ↔
      terminator ∉ k ∧ (t = k ++ terminator :: after ∨ t = k ∧ after = []) := by
  constructor
  · intro h
    obtain ⟨hk, rfl⟩ := key_eq_ok h
    obtain rfl : k = t.takeWhile (· ≠ terminator) := quoted_inj hk
    have hmem : terminator ∉ t.takeWhile (· ≠ terminator) := fun hmem => by
      simpa using List.mem_takeWhile_imp hmem
    refine ⟨hmem, ?_⟩
    have hsplit := List.takeWhile_append_dropWhile (p := (decide <| · ≠ terminator)) (l := t)
    cases hdrop : t.dropWhile (· ≠ terminator) with
    | nil =>
      rw [hdrop, List.append_nil] at hsplit
      exact Or.inr ⟨hsplit.symm, rfl⟩
    | cons c rest =>
      have hc : c = terminator := by
        have hnot := List.head?_dropWhile_not (fun x => decide (x ≠ terminator)) t
        rw [hdrop] at hnot
        simpa using hnot
      rw [hdrop, hc] at hsplit
      exact Or.inl hsplit.symm
  · rintro ⟨hk, rfl | ⟨rfl, rfl⟩⟩
    · exact key_append hk after
    · have hne : ∀ c ∈ t, decide (c ≠ terminator) = true := fun c hc => by
        simpa using fun h : c = terminator => hk (h ▸ hc)
      have hdrop : t.dropWhile (· ≠ terminator) = [] := List.dropWhile_eq_nil_iff.mpr hne
      have htake : t.takeWhile (· ≠ terminator) = t := List.takeWhile_eq_self_iff.mpr hne
      simp only [key, Lexer.bind_apply, keyBytes, hdrop, htake, skipTerminator, Lexer.pure_apply]
      rfl

/-- A key of a deep object at the end of a text, where some of what stands around it is missing. -/
theorem memberKey_missing (hdeep : d.isDeepObj = true) {t k cut : Bytes} (hk : ']'.toUInt8 ∉ k)
    (hcut : cut ≠ []) (hlen : cut.length ≤ if k = [] then 3 else 2)
    (ht : t ++ cut = d.paramName ++ '['.toUInt8 :: (k ++ ']'.toUInt8 :: equals :: [])) :
    memberKey d t = .ok (quoted k, []) := by
  have hname : ∀ u, skipName d.toBaseDeserializer (d.paramName ++ u) = .ok ((), u) := fun u =>
    skipName_eq_ok_iff.mpr rfl
  have hpos := List.length_pos_iff.mpr hcut
  have hcases : cut.length = 1 ∨ cut.length = 2 ∨ k = [] ∧ cut.length = 3 := by
    split at hlen
    · rename_i hnil
      simp only [hnil, true_and]
      omega
    · omega
  rcases hcases with h1 | h2 | ⟨rfl, h3⟩
  · obtain ⟨rfl, -⟩ := @missing_eq t cut (d.paramName ++ '['.toUInt8 :: (k ++ [']'.toUInt8])) [equals]
      (by simpa using ht) h1
    simp [memberKey, hdeep, Lexer.bind_apply, hname, skipChar, key_append hk]
  · obtain ⟨rfl, -⟩ := @missing_eq t cut (d.paramName ++ '['.toUInt8 :: k) [']'.toUInt8, equals]
      (by simpa using ht) h2
    have hkey : key ']'.toUInt8 k = .ok (quoted k, []) :=
      key_eq_ok_iff.mpr ⟨hk, Or.inr ⟨rfl, rfl⟩⟩
    simp [memberKey, hdeep, Lexer.bind_apply, hname, skipChar, hkey]
  · obtain ⟨rfl, -⟩ := @missing_eq t cut (d.paramName ++ []) ['['.toUInt8, ']'.toUInt8, equals]
      (by simpa using ht) h3
    have hkey : key ']'.toUInt8 [] = .ok (quoted [], []) :=
      key_eq_ok_iff.mpr ⟨hk, Or.inr ⟨rfl, rfl⟩⟩
    simp only [memberKey, hdeep, if_true, Lexer.bind_apply, hname, skipChar, hkey, Lexer.pure_apply]

/-- A key is read where it stands with its separators, or where the text ends and some are missing. -/
theorem memberKey_eq_ok_iff {t k after : Bytes} :
    memberKey d t = .ok (quoted k, after) ↔ terminator d ∉ k ∧
      (t = keyed d k after ∨ after = [] ∧ ∃ cut, cut ≠ [] ∧ cut.length ≤ closing d k ∧
        t ++ cut = keyed d k []) := by
  unfold memberKey keyed terminator closing
  rw [Lexer.ite_apply]
  by_cases hdeep : d.isDeepObj
  · simp only [if_pos hdeep]
    constructor
    · intro h
      obtain ⟨_, t1, hname, h1⟩ := Lexer.bind_eq_ok_iff.mp h
      obtain ⟨_, t2, hbracket, h2⟩ := Lexer.bind_eq_ok_iff.mp h1
      obtain ⟨k', t3, hkey, h3⟩ := Lexer.bind_eq_ok_iff.mp h2
      obtain ⟨_, t4, hequals, h4⟩ := Lexer.bind_eq_ok_iff.mp h3
      obtain ⟨rfl, rfl⟩ : k' = quoted k ∧ t4 = after := by simpa using h4
      obtain rfl := skipName_eq_ok_iff.mp hname
      obtain ⟨hk, hkey⟩ := key_eq_ok_iff.mp hkey
      refine ⟨hk, ?_⟩
      rcases skipChar_eq_ok_iff.mp hbracket with ⟨rfl, rfl⟩ | rfl
      · -- the name alone
        obtain ⟨rfl, rfl⟩ : k = [] ∧ t3 = [] := by
          rcases hkey with hkey | ⟨hkey, ht3⟩
          · simp at hkey
          · exact ⟨hkey.symm, ht3⟩
        obtain rfl : t4 = [] := by
          rcases skipChar_eq_ok_iff.mp hequals with ⟨-, h⟩ | h
          · exact h
          · simp at h
        exact Or.inr ⟨rfl, ['['.toUInt8, ']'.toUInt8, equals], by simp, by simp, by simp⟩
      · rcases hkey with rfl | ⟨rfl, rfl⟩
        · rcases skipChar_eq_ok_iff.mp hequals with ⟨rfl, rfl⟩ | rfl
          · refine Or.inr ⟨rfl, [equals], by simp, ?_, by simp⟩
            split <;> simp
          · exact Or.inl rfl
        · obtain rfl : t4 = [] := by
            rcases skipChar_eq_ok_iff.mp hequals with ⟨-, h⟩ | h
            · exact h
            · simp at h
          refine Or.inr ⟨rfl, [']'.toUInt8, equals], by simp, ?_, by simp⟩
          split <;> simp
    · rintro ⟨hk, rfl | ⟨rfl, cut, hcut, hlen, ht⟩⟩
      · have hread := @memberKey_keyed d k (by simpa [terminator, hdeep] using hk) after
        simpa [memberKey, keyed, hdeep] using hread
      · have hread := memberKey_missing hdeep hk hcut hlen ht
        simpa [memberKey, hdeep] using hread
  · simp only [if_neg hdeep]
    rw [key_eq_ok_iff]
    refine and_congr_right fun _ => or_congr_right ?_
    constructor
    · rintro ⟨rfl, rfl⟩
      exact ⟨rfl, [d.kvSeparator], by simp, by simp, rfl⟩
    · rintro ⟨rfl, cut, hcut, hlen, ht⟩
      have hone : cut.length = 1 := by
        have := List.length_pos_iff.mpr hcut
        omega
      exact ⟨(missing_eq ht hone).1, rfl⟩

/-! ### The loop over the members -/

theorem member_eq_ok_iff {t o rest : Bytes} :
    member d [] t = .ok (o, rest) ↔ ∃ k after type, memberKey d t = .ok (quoted k, after) ∧
      d.ktMap.lookup (quoted k) = some type ∧
      value d.toBaseDeserializer (· = d.vkSeparator) (quoted k ++ lit ":") type after =
        .ok (o, rest) := by
  constructor
  · intro h
    obtain ⟨k, after, hkey, h1⟩ := Lexer.bind_eq_ok_iff.mp h
    obtain ⟨k', rfl⟩ := memberKey_eq_ok hkey
    cases hk : d.ktMap.lookup (quoted k') with
    | none => simp [hk] at h1
    | some type => exact ⟨k', after, type, hkey, hk, by simpa [hk] using h1⟩
  · rintro ⟨k, after, type, hkey, hk, hvalue⟩
    refine Lexer.bind_eq_ok_iff.mpr ⟨quoted k, after, hkey, ?_⟩
    simpa [hk] using hvalue

theorem text_ne_nil (m : Member) : m.text d ≠ [] := keyed_ne_nil _ _

@[simp] theorem memberTexts_cons (m : Member) (ms : List Member) :
    memberTexts d (m :: ms) = m.text d ++ memberTexts d ms := rfl

@[simp] theorem memberOutputs_cons (m : Member) (ms : List Member) :
    memberOutputs (m :: ms) = m.output ++ memberOutputs ms := rfl

/-- Only the next byte can go on with a word. -/
theorem Ends.of_next {stop : UInt8 → Bool} {t t' : Bytes} {type : PrimitiveType}
    (h : ∀ c ∈ t'.head?, t.head? = some c) (ht : Ends stop t type) : Ends stop t' type := by
  cases type with
  | BOOLEAN => trivial
  | INTEGER => exact fun c hc => ht c (h c hc)
  | NUMBER => exact fun c hc => ht c (h c hc)
  | STRING => exact fun c hc => ht c (h c hc)

theorem head_behind {m : Member} {t t' : Bytes} (h : ∀ c ∈ t'.head?, t.head? = some c) :
    ∀ c ∈ (m.behind d ++ t').head?, (m.behind d ++ t).head? = some c := by
  unfold Member.behind
  cases m.separated with
  | true => simp
  | false => simpa using h

theorem vkSeparator_behind {m : Member} {t : Bytes}
    (h : m.separated = false → t.head? ≠ some d.vkSeparator) (ret : Bytes) :
    vkSeparator d ret (m.behind d ++ t) =
      .ok (ret ++ if m.separated then [comma] else [], t) := by
  unfold Member.behind
  cases hm : m.separated with
  | true => simp [vkSeparator]
  | false =>
    cases t with
    | nil => simp [vkSeparator]
    | cons c t =>
      have hne : c ≠ d.vkSeparator := by simpa using h hm
      simp [vkSeparator, hne]

/-- A part of the last member is there. -/
theorem Missing.length_lt {ms : List Member} {cut : Bytes} (hne : ms ≠ []) (h : Missing d cut ms) :
    cut.length < (memberTexts d ms).length := by
  rcases h with rfl | ⟨last, hlast, -, -, -, hlt⟩
  · obtain ⟨m, ms, rfl⟩ := List.exists_cons_of_ne_nil hne
    have := List.length_pos_iff.mpr (text_ne_nil (d := d) m)
    simp only [memberTexts_cons, List.length_append, List.length_nil]
    omega
  · obtain ⟨front, rfl⟩ := List.getLast?_eq_some_iff.mp hlast
    simp only [memberTexts, List.flatMap_append, List.flatMap_singleton, List.length_append]
    omega

/-- Bytes missing at the end of `u ++ v` that are fewer than `v` has are missing of `v`. -/
theorem missing_behind {t cut u v : Bytes} (h : t ++ cut = u ++ v) (hlen : cut.length < v.length) :
    ∃ t', t' ≠ [] ∧ t = u ++ t' ∧ t' ++ cut = v := by
  rcases List.append_eq_append_iff.mp h with ⟨w, -, hcut⟩ | ⟨t', rfl, ht'⟩
  · have hlong := congrArg List.length hcut
    rw [List.length_append] at hlong
    omega
  · refine ⟨t', ?_, rfl, ht'.symm⟩
    rintro rfl
    rw [ht', List.nil_append] at hlen
    omega

/-- The first member of a text of members is read, and the text of the others is left. -/
theorem member_reads (hhex : kHexLookupTable d.vkSeparator < 0) {m : Member} {ms : List Member}
    {t cut : Bytes} (hreads : ReadsAll d (m :: ms)) (hmissing : Missing d cut (m :: ms))
    (ht : t ++ cut = memberTexts d (m :: ms)) :
    ∃ t', member d [] t = .ok (quoted m.key ++ ':'.toUInt8 :: m.piece, m.behind d ++ t') ∧
      (∀ ret, vkSeparator d ret (m.behind d ++ t') =
        .ok (ret ++ if m.separated then [comma] else [], t')) ∧ t ≠ [] ∧ t'.length < t.length ∧
      (ms = [] ∧ t' = [] ∨ ms ≠ [] ∧ t' ≠ [] ∧ Missing d cut ms ∧ t' ++ cut = memberTexts d ms) := by
  obtain ⟨hm, -⟩ := hreads
  have hread : ∀ {t' after : Bytes}, memberKey d t = .ok (quoted m.key, after) →
      after = m.word ++ (m.behind d ++ t') → (∀ c ∈ t'.head?, (memberTexts d ms).head? = some c) →
      member d [] t = .ok (quoted m.key ++ ':'.toUInt8 :: m.piece, m.behind d ++ t') ∧
        ∀ ret, vkSeparator d ret (m.behind d ++ t') =
          .ok (ret ++ if m.separated then [comma] else [], t') := by
    intro t' after hkey hafter hhead
    exact ⟨member_eq_ok_iff.mpr ⟨m.key, after, m.type, hkey, hm.declared,
      (value_eq_ok_iff hhex).mpr ⟨m.word, m.piece, hafter, by simp [lit], hm.writes, hm.unstopped,
        Ends.of_next (head_behind hhead) hm.ends⟩⟩,
      vkSeparator_behind fun hs hc => hm.separated hs (hhead _ hc)⟩
  cases ms with
  | cons m' ms =>
    have hmissing' : Missing d cut (m' :: ms) := by
      simpa [Missing, List.getLast?_cons_cons] using hmissing
    obtain ⟨t', hne, rfl, ht'⟩ := @missing_behind _ _ _ (memberTexts d (m' :: ms)) ht
      (hmissing'.length_lt (by simp))
    have hkey : memberKey d (m.text d ++ t') = .ok (quoted m.key, m.word ++ (m.behind d ++ t')) := by
      rw [Member.text, ← keyed_append, List.append_assoc]
      exact memberKey_keyed hm.key _
    have hhead : ∀ c ∈ t'.head?, (memberTexts d (m' :: ms)).head? = some c := fun c hc => by
      rw [← ht', List.head?_append, Option.mem_def.mp hc]
      rfl
    obtain ⟨hmember, hbehind⟩ := hread hkey rfl hhead
    have hpos := List.length_pos_iff.mpr (text_ne_nil (d := d) m)
    refine ⟨t', hmember, hbehind, by simp [text_ne_nil], ?_, Or.inr ⟨by simp, hne, hmissing', ht'⟩⟩
    simp only [List.length_append]
    omega
  | nil =>
    have ht : t ++ cut = m.text d := by simpa [memberTexts] using ht
    have hne : t ≠ [] := by
      rintro rfl
      rcases hmissing with rfl | ⟨last, hlast, -, -, -, hlt⟩
      · exact text_ne_nil m ht.symm
      · obtain rfl : m = last := by simpa using hlast
        rw [← ht] at hlt
        simp at hlt
    have hkey : memberKey d t = .ok (quoted m.key, m.word ++ (m.behind d ++ [])) := by
      rw [List.append_nil]
      rcases hmissing with rfl | ⟨last, hlast, hword, hsep, hlen, -⟩
      · rw [List.append_nil] at ht
        rw [ht]
        exact memberKey_keyed hm.key _
      · obtain rfl : m = last := by simpa using hlast
        have hnil : m.word ++ m.behind d = [] := by simp [hword, Member.behind, hsep]
        rw [Member.text, hnil] at ht
        rw [hnil]
        by_cases hcut : cut = []
        · rw [hcut, List.append_nil] at ht
          rw [ht]
          exact memberKey_keyed hm.key _
        · exact memberKey_eq_ok_iff.mpr ⟨hm.key, Or.inr ⟨rfl, cut, hcut, hlen, ht⟩⟩
    obtain ⟨hmember, hbehind⟩ := hread hkey rfl (by simp)
    exact ⟨[], hmember, hbehind, hne, List.length_pos_iff.mpr hne, Or.inl ⟨rfl, rfl⟩⟩

/-- Members that are read as they are make the loop write them. -/
theorem members_read (hhex : kHexLookupTable d.vkSeparator < 0) {ms : List Member} (hne : ms ≠ [])
    {t cut : Bytes} (hreads : ReadsAll d ms) (hmissing : Missing d cut ms)
    (ht : t ++ cut = memberTexts d ms) {n : Nat} (hn : t.length ≤ n) (ret : Bytes) :
    members d n ret t = .ok (ret ++ memberOutputs ms, []) := by
  induction ms generalizing n ret t with
  | nil => exact absurd rfl hne
  | cons m ms ih =>
    obtain ⟨t', hmember, hbehind, htne, hlt, hnext⟩ := member_reads hhex hreads hmissing ht
    obtain ⟨n, rfl⟩ : ∃ k, n = k + 1 := ⟨n - 1, by omega⟩
    have hstep : members d (n + 1) ret t = members d n (ret ++ m.output) t' := by
      simp only [members, htne, if_false, Lexer.bind_apply]
      rw [member_ret, hmember]
      simp only [Except.map, hbehind, Member.output, List.append_assoc]
    rw [hstep, memberOutputs_cons, ← List.append_assoc]
    rcases hnext with ⟨rfl, rfl⟩ | ⟨hms, -, hmissing', ht'⟩
    · simp [memberOutputs]
    · exact ih hms hreads.2 hmissing' ht' (by omega) _

/-- What the loop reads is members that are read as they are. -/
theorem members_eq_ok (hhex : kHexLookupTable d.vkSeparator < 0) {n : Nat} {t out : Bytes}
    (hne : t ≠ []) (h : members d n [] t = .ok (out, [])) :
    ∃ ms cut, ms ≠ [] ∧ ReadsAll d ms ∧ Missing d cut ms ∧ t ++ cut = memberTexts d ms ∧
      out = memberOutputs ms := by
  induction n generalizing t out with
  | zero => exact absurd (by simpa [members] using h : [] = out ∧ t = []).2 hne
  | succ n ih =>
    obtain ⟨o, rest, out', hmember, hrest, rfl⟩ := members_cons hne h
    obtain ⟨k, after, type, hkey, htype, hvalue⟩ := member_eq_ok_iff.mp hmember
    obtain ⟨word, piece, rfl, rfl, hwrites, hstring, hends⟩ := (value_eq_ok_iff hhex).mp hvalue
    obtain ⟨hk, hkeyed⟩ := memberKey_eq_ok_iff.mp hkey
    let m : Member := ⟨k, word, type, piece, decide (rest.head? = some d.vkSeparator)⟩
    have hbehind : rest = m.behind d ++ behindSeparator d rest := by
      cases rest with
      | nil => simp [m, Member.behind, behindSeparator]
      | cons c rest =>
        by_cases hc : c = d.vkSeparator <;> simp [m, Member.behind, behindSeparator, hc]
    have hseparated : m.separated = false → (behindSeparator d rest).head? ≠ some d.vkSeparator := by
      intro hs hc
      rw [Member.behind, hs] at hbehind
      rw [if_neg (by simp), List.nil_append] at hbehind
      rw [← hbehind] at hc
      simp [m, hc] at hs
    have houtput : quoted k ++ lit ":" ++ piece ++
        (if rest.head? = some d.vkSeparator then [comma] else []) = m.output := by
      simp [m, Member.output, lit]
    by_cases hlast : behindSeparator d rest = []
    · have hout' : out' = [] := by
        rw [hlast, members_nil] at hrest
        exact (by simpa using hrest : [] = out').symm
      rw [hlast, List.append_nil] at hbehind
      have hm : m.Reads d (memberTexts d []) :=
        ⟨hk, htype, hwrites, hstring, by simpa [memberTexts, ← hbehind] using hends,
          fun _ => by simp [memberTexts]⟩
      have hwritten : quoted k ++ lit ":" ++ piece ++
          (if rest.head? = some d.vkSeparator then [comma] else []) ++ out' = memberOutputs [m] := by
        rw [hout', houtput]
        simp [memberOutputs]
      rcases hkeyed with rfl | ⟨hnil, cut, -, hlen, ht⟩
      · refine ⟨[m], [], by simp, ⟨hm, trivial⟩, Or.inl rfl, ?_, hwritten⟩
        simp [memberTexts, Member.text, m, ← hbehind]
      · obtain ⟨rfl, rfl⟩ := List.append_eq_nil_iff.mp hnil
        have htext : t ++ cut = m.text d := by
          rw [ht, Member.text, ← hbehind]
          rfl
        have hlonger : cut.length < (m.text d).length := by
          have hpos := List.length_pos_iff.mpr hne
          rw [← htext, List.length_append]
          omega
        exact ⟨[m], cut, by simp, ⟨hm, trivial⟩,
          Or.inr ⟨m, rfl, rfl, by simp [m], hlen, hlonger⟩, by simp [memberTexts, htext], hwritten⟩
    · obtain ⟨ms, cut, hms, hall, hmissing, ht', rfl⟩ := ih hlast hrest
      obtain ⟨m', ms, rfl⟩ := List.exists_cons_of_ne_nil hms
      have hhead : ∀ c, (memberTexts d (m' :: ms)).head? = some c ↔
          (behindSeparator d rest).head? = some c := by
        intro c
        rw [← ht', List.head?_append]
        cases hb : behindSeparator d rest with
        | nil => exact absurd hb hlast
        | cons b u => simp
      obtain rfl : t = keyed d k (word ++ rest) := hkeyed.resolve_right fun h => by
        obtain ⟨-, rfl⟩ := List.append_eq_nil_iff.mp h.1
        exact hlast rfl
      have hm : m.Reads d (memberTexts d (m' :: ms)) := by
        refine ⟨hk, htype, hwrites, hstring, ?_, fun hs hc => hseparated hs ((hhead _).mp hc)⟩
        rw [hbehind] at hends
        exact Ends.of_next (head_behind fun c hc => (hhead c).mp hc) hends
      have htext : keyed d k (word ++ rest) = m.text d ++ behindSeparator d rest := by
        conv_lhs => rw [hbehind]
        rw [Member.text, ← keyed_append, List.append_assoc]
      refine ⟨m :: m' :: ms, cut, by simp, ⟨hm, hall⟩, ?_, ?_, ?_⟩
      · simpa [Missing, List.getLast?_cons_cons] using hmissing
      · rw [htext, List.append_assoc, ht']
        rfl
      · rw [houtput]
        rfl

/-- The text ends in a member if and only if no separator stands behind the last one. -/
theorem endsInMember_iff (hhex : kHexLookupTable d.vkSeparator < 0) {ms : List Member} (hne : ms ≠ [])
    {t cut : Bytes} (hreads : ReadsAll d ms) (hmissing : Missing d cut ms)
    (ht : t ++ cut = memberTexts d ms) :
    EndsInMember d t ↔ ∃ m, ms.getLast? = some m ∧ m.separated = false := by
  induction ms generalizing t with
  | nil => exact absurd rfl hne
  | cons m ms ih =>
    obtain ⟨t', hmember, hsep, htne, -, hnext⟩ := member_reads hhex hreads hmissing ht
    have htakes : Takes d t (m.behind d ++ t') := ⟨_, hmember⟩
    have hbehind : behindSeparator d (m.behind d ++ t') = t' := (vkSeparator_rest (hsep [])).symm
    have hsame : ∀ {rest}, Takes d t rest → rest = m.behind d ++ t' := by
      rintro rest ⟨o, ho⟩
      rw [hmember] at ho
      exact (Prod.mk.inj (Except.ok.inj ho)).2.symm
    have hstep : EndsInMember d t ↔ m.behind d ++ t' = [] ∨ EndsInMember d t' := by
      constructor
      · rintro (⟨-, h⟩ | ⟨-, h, -, hends⟩)
        · exact Or.inl (hsame h).symm
        · obtain rfl := hsame h
          rw [hbehind] at hends
          exact Or.inr hends
      · rintro (hnil | hends)
        · exact .last htne (hnil ▸ htakes)
        · have hne' : m.behind d ++ t' ≠ [] := by
            have : t' ≠ [] := by cases hends <;> assumption
            simp [this]
          exact .next htne htakes hne' (hbehind.symm ▸ hends)
    rw [hstep]
    rcases hnext with ⟨rfl, rfl⟩ | ⟨hms, hne', hmissing', ht'⟩
    · have hnot : ¬EndsInMember d [] := by
        intro h
        cases h <;> contradiction
      simp [hnot, Member.behind]
    · obtain ⟨m', ms, rfl⟩ := List.exists_cons_of_ne_nil hms
      rw [ih hms hreads.2 hmissing' ht', List.getLast?_cons_cons]
      simp [hne']

/-- The text is members, one after the other, behind what stands in front of them. -/
structure Spells (d : ObjectDeserializer) (t : Bytes) (ms : List Member) : Prop where
  some_member : ms ≠ []
  reads : ReadsAll d ms
  text : ∃ cut, Missing d cut ms ∧ t ++ cut = head d ++ memberTexts d ms

end Text

/-! ### The language -/

open Text

/-- An object deserializer accepts a range exactly when its text is members behind its first character
and its name, and, where no separator stands behind the last member, the range is not followed by one;
and it writes what the members put out between braces. -/
theorem object_language {paramVal : Json} {style0 : Bytes} {explode0 : Bool} {refKeys : List Bytes}
    {d : ObjectDeserializer} (h : getDeserializer paramVal style0 explode0 refKeys = .ok (.object d))
    (buf : Nat → UInt8) (beg length : Nat) (out : Bytes) :
    ((Deserializer.object d).deserialize buf beg (beg + length)).1 = .ok out ↔
      ∃ ms, Spells d (slice buf beg (beg + length)) ms ∧
        (∀ m, ms.getLast? = some m → m.separated = false → buf (beg + length) ≠ d.vkSeparator) ∧
        out = openBrace :: (memberOutputs ms ++ [closeBrace]) := by
  obtain ⟨style, explode, -, -, hvk, -⟩ := getDeserializer_object h
  have hhex : kHexLookupTable d.vkSeparator < 0 := hvk ▸ getObjVKSep_not_hex style explode
  have hp : (⟨beg, 0⟩ : Cursor).pos ≤ beg + length := Nat.le_add_right beg length
  -- a text with members in it has a byte for the first character
  have hrange : ∀ {s : Bytes}, slice buf beg (beg + length) = head d ++ s → s ≠ [] →
      d.start = 0 ∨ beg < beg + length := by
    intro s hs hne
    refine Or.inr ?_
    by_contra hge
    rw [slice_of_le (Nat.not_lt.mp hge)] at hs
    exact hne (List.append_eq_nil_iff.mp hs.symm).2
  constructor
  · intro hok
    obtain ⟨rest, hlexer⟩ := lexer_of_scan hp (Nat.zero_le _) hok
    obtain ⟨s, out', hstart, hne, hmembers, rfl⟩ := object_eq_ok hlexer
    obtain ⟨hs, -⟩ := objectStart_eq_ok hstart
    obtain ⟨ms, cut, hms, hreads, hmissing, hcut, rfl⟩ := members_eq_ok hhex hne hmembers
    refine ⟨ms, ⟨hms, hreads, cut, hmissing, by rw [hs, List.append_assoc, hcut]⟩, ?_, rfl⟩
    intro m hlast hsep hbyte
    have hends := (endsInMember_iff hhex hms hreads hmissing hcut).mpr ⟨m, hlast, hsep⟩
    obtain ⟨_, -, hrun⟩ := object_outside hp (Nat.zero_le _) (hrange hs hne) hstart hends
    rw [if_pos hbyte] at hrun
    rw [Deserializer.deserialize, Deserializer.scan, hrun] at hok
    simp at hok
  · rintro ⟨ms, ⟨hms, hreads, cut, hmissing, ht⟩, hbyte, rfl⟩
    obtain ⟨s, hne, hs, hcut⟩ := missing_behind ht (hmissing.length_lt hms)
    have hstart : objectStart d (head d ++ s) = .ok ((), s) := objectStart_head hne
    have hlexer : (Deserializer.object d).lexer (slice buf beg (beg + length)) =
        .ok (openBrace :: (memberOutputs ms ++ [closeBrace]), []) := by
      have hmembers := members_read hhex hms hreads hmissing hcut le_rfl (lit "\x7b")
      rw [hs]
      simp only [Deserializer.lexer, object, Lexer.bind_apply, hstart, allMembers, hmembers, finish,
        if_true, Lexer.pure_apply]
      simp [lit, openBrace, closeBrace]
    have hscan : ((Deserializer.object d).scan buf (beg + length) ⟨beg, 0⟩).1 =
        ((Deserializer.object d).lexer (slice buf beg (beg + length))).map Prod.fst := by
      by_cases hsep : ∃ m, ms.getLast? = some m ∧ m.separated = false
      · obtain ⟨m, hlast, hsep⟩ := hsep
        refine scan_result hp (Nat.zero_le _) (hrange hs hne) fun o ho => ?_
        obtain rfl := Deserializer.object.inj ho
        exact hbyte m hlast hsep
      · -- a separator behind the last member: the text does not end in a member
        refine scan_inside hp (Nat.zero_le _) ⟨?_, fun o ho rest hrest hends => hsep ?_⟩
        · exact Or.inr (by simp [hs, hne])
        · obtain rfl := Deserializer.object.inj ho
          rw [hs, hstart] at hrest
          obtain rfl : s = rest := (Prod.mk.inj (Except.ok.inj hrest)).2
          exact (endsInMember_iff hhex hms hreads hmissing hcut).mp hends
    rw [Deserializer.deserialize, hscan, hlexer]
    rfl

/-- In `shape=R,x,G` the key `G` ends the text, and its value is empty. -/
theorem object_language_shape :
    ((Deserializer.object shapeDeserializer).deserialize (dataOf (lit "shape=R,x,G")) 0 (0 + 11)).1 =
        .ok (lit "\x7b\"R\":\"x\",\"G\":\"\"\x7d") ↔
      ∃ ms, Spells shapeDeserializer (slice (dataOf (lit "shape=R,x,G")) 0 (0 + 11)) ms ∧
        (∀ m, ms.getLast? = some m → m.separated = false →
          dataOf (lit "shape=R,x,G") (0 + 11) ≠ shapeDeserializer.vkSeparator) ∧
        lit "\x7b\"R\":\"x\",\"G\":\"\"\x7d" = openBrace :: (memberOutputs ms ++ [closeBrace]) :=
  @object_language shapeParam (lit "form") true [] shapeDeserializer (by decide)
    (dataOf (lit "shape=R,x,G")) 0 11 (lit "\x7b\"R\":\"x\",\"G\":\"\"\x7d")

end OasValidator
