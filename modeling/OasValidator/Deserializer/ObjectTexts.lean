import OasValidator.Deserializer.Declared
import OasValidator.Deserializer.Meaning
import OasValidator.Deserializer.Words

/-! Object parameters.  What a client writes for named values is read as the object of these values,
but for three cases: a name that needs percent-encoding, which is not decoded, the point behind a number
of style `label`, and the ampersands of `deepObject` without `explode`, for which a comma is looked
for. -/

namespace OasValidator

open Library.Json Library.Scanning

namespace Text

variable {d : ObjectDeserializer} {sep : UInt8}

/-- The members one after the other, with `sep` between them. -/
def body (d : ObjectDeserializer) (sep : UInt8) (ms : List (Bytes × Json)) : Bytes :=
  [sep].intercalate (ms.map fun m => keyed d (percentEncode m.1) (wordOf m.2))

/-- What stands behind the first member. -/
def others (d : ObjectDeserializer) (sep : UInt8) (ms : List (Bytes × Json)) : Bytes :=
  if ms = [] then [] else sep :: body d sep ms

theorem body_cons (m : Bytes × Json) (ms : List (Bytes × Json)) :
    body d sep (m :: ms) = keyed d (percentEncode m.1) (wordOf m.2 ++ others d sep ms) := by
  rw [keyed_append, others]
  cases ms with
  | nil => simp [body]
  | cons m' ms => simp [body, List.intercalate_cons_cons]

theorem body_ne_nil {ms : List (Bytes × Json)} (h : ms ≠ []) : body d sep ms ≠ [] := by
  obtain ⟨m, ms, rfl⟩ := List.exists_cons_of_ne_nil h
  rw [body_cons]
  exact keyed_ne_nil _ _

/-- Every member takes a byte at least. -/
theorem length_body (ms : List (Bytes × Json)) : ms.length ≤ (body d sep ms).length := by
  have hne : ∀ t ∈ ms.map fun m => keyed d (percentEncode m.1) (wordOf m.2), t ≠ [] := by
    intro t ht
    obtain ⟨m, -, rfl⟩ := List.mem_map.mp ht
    exact keyed_ne_nil _ _
  simpa [body] using Library.Cut.length_intercalate [sep] hne

/-- Behind what stands in front of the members, the members are left. -/
theorem objectStart_head {t : Bytes} (ht : t ≠ []) : objectStart d (head d ++ t) = .ok ((), t) := by
  have hlead := lead_append d.toBaseDeserializer (d.skipName && !d.isDeepObj)
    (data d.toBaseDeserializer) t
  exact hlead.trans (by simp [data, ht])

/-! ### Names -/

theorem encodeByte_mem {c b : UInt8} (h : b ∈ encodeByte c) : unreserved b ∨ b = percent := by
  have hhex : ∀ n : Fin 16, unreserved (hexDigit n) := by decide
  have hlt := c.toNat_lt
  unfold encodeByte at h
  split at h
  · rename_i hc
    obtain rfl := List.mem_singleton.mp h
    exact Or.inl hc
  · rcases List.mem_cons.mp h with rfl | h
    · exact Or.inr rfl
    · rcases List.mem_cons.mp h with rfl | h
      · exact Or.inl (hhex ⟨c.toNat / 16, by omega⟩)
      · obtain rfl := List.mem_singleton.mp h
        exact Or.inl (hhex ⟨c.toNat % 16, by omega⟩)

theorem percentEncode_mem {s : Bytes} {b : UInt8} (h : b ∈ percentEncode s) :
    unreserved b ∨ b = percent := by
  obtain ⟨c, -, hb⟩ := List.mem_flatMap.mp h
  exact encodeByte_mem hb

theorem not_mem_percentEncode {b : UInt8} (hb : unreserved b = false) (hpercent : b ≠ percent)
    (s : Bytes) : b ∉ percentEncode s := by
  intro hmem
  rcases percentEncode_mem hmem with h | h
  · rw [hb] at h
    exact Bool.false_ne_true h
  · exact hpercent h

theorem length_percentEncode (s : Bytes) : s.length ≤ (percentEncode s).length := by
  induction s with
  | nil => simp
  | cons c s ih =>
    rw [percentEncode_cons, encodeByte]
    split <;> simp <;> omega

/-- An encoded name is the name itself just when it has unreserved bytes only. -/
theorem percentEncode_eq_self {s : Bytes} : percentEncode s = s ↔ ∀ c ∈ s, unreserved c := by
  induction s with
  | nil => simp
  | cons c s ih =>
    by_cases hc : unreserved c
    · simp [encodeByte, hc, ih]
    · constructor
      · intro h
        have hlen := congrArg List.length h
        have hs := length_percentEncode s
        simp only [percentEncode_cons, encodeByte, hc, Bool.false_eq_true, if_false,
          List.length_append, List.length_cons, List.length_nil] at hlen
        omega
      · intro h
        exact absurd (h c List.mem_cons_self) hc

theorem percentEncode_needsNoEscape (s : Bytes) : NeedsNoEscape (percentEncode s) := by
  have hbyte : ∀ c : UInt8, (unreserved c ∨ c = percent) →
      c ≠ quote ∧ c ≠ backslash ∧ 32 ≤ c := by
    apply @forall_byte fun c => (unreserved c ∨ c = percent) →
      c ≠ quote ∧ c ≠ backslash ∧ 32 ≤ c
    decide +kernel
  exact fun c hc => hbyte c (percentEncode_mem hc)

theorem plain_of_needsNoEscape {s : Bytes} (h : NeedsNoEscape s) : Plain s :=
  ⟨fun hq => (h quote hq).1 rfl, fun hb => (h backslash hb).2.1 rfl⟩

/-- What the members of an object need to be sent: a declared type, a value of this type, and no
separator in its word. -/
def SendableMember (d : ObjectDeserializer) (m : Bytes × Json) : Prop :=
  ∃ type, d.ktMap.lookup (quoted m.1) = some type ∧ Sendable type m.2 ∧
    d.vkSeparator ∉ wordOf m.2

/-! ### Members that are read -/

/-- A member is read up to what ends it. -/
theorem member_keyed {m : Bytes × Json} {type : PrimitiveType}
    (hterm : terminator d ∉ percentEncode m.1) (hname : percentEncode m.1 = m.1)
    (htype : d.ktMap.lookup (quoted m.1) = some type) (hv : Sendable type m.2)
    (hword : d.vkSeparator ∉ wordOf m.2) {rest : Bytes}
    (hends : Ends (· = d.vkSeparator) rest type) (ret : Bytes) :
    member d ret (keyed d (percentEncode m.1) (wordOf m.2 ++ rest)) =
      .ok (ret ++ memberText m.1 (pieceOf m.2), rest) := by
  rw [member, Lexer.bind_apply, memberKey_keyed hterm]
  simp only [hname, htype]
  rw [value_word hv (unstopped_of_not_mem hword) hends]
  simp [memberText, quoted, lit]

/-- Members with unreserved names are read one by one, where each ends in front of its separator. -/
theorem members_body {ms : List (Bytes × Json)} (hterm : ∀ s, terminator d ∉ percentEncode s)
    (hms : ∀ m ∈ ms, SendableMember d m) (hnames : ∀ m ∈ ms, ∀ c ∈ m.1, unreserved c)
    (hsep : 2 ≤ ms.length → sep = d.vkSeparator)
    (hends : ∀ m ∈ ms.dropLast, ∀ type, d.ktMap.lookup (quoted m.1) = some type →
      ∀ u, Ends (· = d.vkSeparator) (sep :: u) type)
    {n : Nat} (hn : ms.length ≤ n) (ret : Bytes) :
    members d n ret (body d sep ms) =
      .ok (ret ++ commas (ms.map fun m => memberText m.1 (pieceOf m.2)), []) := by
  induction ms generalizing n ret with
  | nil => simp [body, commas]
  | cons m ms ih =>
    obtain ⟨n, rfl⟩ : ∃ k, n = k + 1 := ⟨n - 1, by simp at hn; omega⟩
    obtain ⟨type, htype, hv, hword⟩ := hms m List.mem_cons_self
    have hname := percentEncode_eq_self.mpr (hnames m List.mem_cons_self)
    rw [members, body_cons]
    simp only [keyed_ne_nil, if_false, Lexer.bind_apply]
    cases ms with
    | nil =>
      have hend : Ends (· = d.vkSeparator) [] type := by
        cases type <;> simp [Ends]
      rw [others, if_pos rfl, member_keyed (hterm _) hname htype hv hword hend]
      simp [vkSeparator, commas_singleton]
    | cons m' ms =>
      obtain rfl : sep = d.vkSeparator := hsep (by simp)
      have hend := hends m (by simp) type htype (body d d.vkSeparator (m' :: ms))
      rw [others, if_neg (by simp), member_keyed (hterm _) hname htype hv hword hend]
      simp only [vkSeparator, if_true]
      rw [ih (fun u hu => hms u (List.mem_cons_of_mem m hu))
        (fun u hu => hnames u (List.mem_cons_of_mem m hu)) (fun _ => rfl)
        (fun u hu => hends u (by simp [hu])) (by simpa using hn)]
      simp [commas_cons_cons]
      rfl

/-- The text of an object with unreserved names. -/
theorem object_body {ms : List (Bytes × Json)} (hne : ms ≠ [])
    (hterm : ∀ s, terminator d ∉ percentEncode s)
    (hms : ∀ m ∈ ms, SendableMember d m) (hnames : ∀ m ∈ ms, ∀ c ∈ m.1, unreserved c)
    (hsep : 2 ≤ ms.length → sep = d.vkSeparator)
    (hends : ∀ m ∈ ms.dropLast, ∀ type, d.ktMap.lookup (quoted m.1) = some type →
      ∀ u, Ends (· = d.vkSeparator) (sep :: u) type) :
    object d (head d ++ body d sep ms) =
      .ok (openBrace :: (commas (ms.map fun m => memberText m.1 (pieceOf m.2)) ++ [closeBrace]),
        []) := by
  have hstart : objectStart d (head d ++ body d sep ms) = .ok ((), body d sep ms) :=
    objectStart_head (body_ne_nil hne)
  rw [object, Lexer.bind_apply, hstart]
  simp only [Lexer.bind_apply, allMembers]
  rw [members_body hterm hms hnames hsep hends (length_body ms)]
  simp [finish]
  rfl

/-! ### Members that were read -/

/-- The name in the JSON text is the name of the text, as it stands there. -/
theorem first_name {n k : Nat} {t out r name after : Bytes} {m : Bytes × Json}
    {ms : List (Bytes × Json)} (ht : t ≠ []) (h : members d (n + 1) [] t = .ok (out, []))
    (hjson : Library.Json.members k (out ++ [closeBrace]) = some (m :: ms, r))
    (hkey : memberKey d t = .ok (quoted name, after)) (hname : NeedsNoEscape name) :
    m.1 = name := by
  obtain ⟨o, rest, out', hm, -, rfl⟩ := members_cons ht h
  obtain ⟨k', after', _, _, piece, hkey', -, -, rfl, -⟩ := member_parts hm
  rw [hkey'] at hkey
  obtain rfl := quoted_inj (Prod.mk.inj (Except.ok.inj hkey)).1
  simp only [List.append_assoc, quoted_append, List.cons_append] at hjson
  obtain ⟨_, k'', t1, _, v, _, hstring, -, -, hms⟩ := Library.Json.members_cons hjson
  obtain rfl : k'' = k' := (Prod.mk.inj (Option.some.inj
    (hstring.symm.trans (string_of_needsNoEscape hname _)))).1
  rcases hms with ⟨_, _, -, -, hms⟩ | ⟨-, hms⟩
  · rw [(List.cons.inj hms).1]
  · rw [(List.cons.inj hms).1]

theorem percentDecode_percentEncode (s : Bytes) : percentDecode (percentEncode s) = some s := by
  have hdecode : decode ⟨[], 0, false⟩ (fun _ => false) (percentEncode s ++ []) = .ok (s, []) :=
    decode_percentEncode (by simp) (by simp)
  obtain ⟨word, hword, hdec, -⟩ := decode_eq_ok hdecode
  rw [List.append_nil, List.append_nil] at hword
  rw [hword, hdec]

/-- A string of the text goes on over a byte that is not looked for. -/
theorem string_takes {u o rest ret s : Bytes}
    (hstop : Unstopped (· = d.vkSeparator) (.string s)) (hne : ampersand ≠ d.vkSeparator)
    (h : value d.toBaseDeserializer (· = d.vkSeparator) ret .STRING
      (percentEncode s ++ ampersand :: u) = .ok (o, rest)) :
    ∃ x, o = ret ++ quote :: (s ++ ampersand :: x) := by
  obtain ⟨dec, mid, hdecode, hpure⟩ := Lexer.bind_eq_ok_iff.mp h
  rw [decode_append (hstop s rfl), decode_cons] at hdecode
  have hstopped : decide (ampersand = d.vkSeparator) = false := by simpa using hne
  simp only [hstopped, Bool.false_eq_true, if_false, decodeOne] at hdecode
  rw [if_neg (by decide), if_neg (by decide)] at hdecode
  simp only at hdecode
  obtain ⟨⟨dec', mid'⟩, hdecode', heq⟩ := map_eq_ok_iff.mp hdecode
  obtain ⟨⟨dec2, mid2⟩, -, heq'⟩ := map_eq_ok_iff.mp hdecode'
  obtain ⟨rfl, -⟩ := Prod.mk.inj heq
  obtain ⟨rfl, -⟩ := Prod.mk.inj heq'
  have hout : ret ++ (quote :: (s ++ ampersand :: dec2) ++ [quote]) = o :=
    (by simpa using hpure : _ ∧ _).1
  exact ⟨dec2 ++ [quote], by rw [← hout]; simp⟩

/-- What stands behind the value of the first of several members. -/
theorem first_rest (hvk : kHexLookupTable d.vkSeparator < 0) {n k : Nat} {out r u : Bytes}
    {type : PrimitiveType} {m : Bytes × Json} {ms : List (Bytes × Json)}
    (h : members d (n + 1) [] (keyed d m.1 (wordOf m.2 ++ sep :: u)) = .ok (out, []))
    (hjson : Library.Json.members k (out ++ [closeBrace]) = some (m :: ms, r))
    (hterm : terminator d ∉ m.1) (hname : NeedsNoEscape m.1)
    (htype : d.ktMap.lookup (quoted m.1) = some type) (hv : Sendable type m.2)
    (hword : d.vkSeparator ∉ wordOf m.2) (hsep : type = .STRING → sep = d.vkSeparator) :
    Takes d (keyed d m.1 (wordOf m.2 ++ sep :: u)) (sep :: u) ∧ sep = d.vkSeparator ∧
      ∃ out' k', members d n [] u = .ok (out', []) ∧
        Library.Json.members k' (out' ++ [closeBrace]) = some (ms, r) := by
  have hwhole : ∀ {word rest : Bytes}, type = .STRING → wordOf m.2 ++ sep :: u = word ++ rest →
      (∀ b ∈ rest.head?, b = d.vkSeparator) →
      (d.vkSeparator ∈ word → 0 ≤ kHexLookupTable d.vkSeparator) → word = wordOf m.2 := by
    intro word rest hstring hafter hhead hin
    have hnot : d.vkSeparator ∉ word := fun hmem => by
      have := hin hmem
      omega
    rw [← takeWhile_word hnot hhead, ← hafter]
    exact takeWhile_word hword (by simpa using hsep hstring)
  obtain ⟨type', word, rest, v, htype', hafter, htakes, -, hwritten, -, -, hstring, hcont⟩ :=
    first_member (keyed_ne_nil _ _) h hjson (memberKey_keyed hterm _)
      (Or.inl (plain_of_needsNoEscape hname)) (by
        intro word rest dec hafter hhead hin hlookup hdec
        obtain rfl : type = .STRING := Option.some.inj (htype.symm.trans hlookup)
        obtain rfl := hwhole rfl hafter hhead hin
        cases hm : m.2 with
        | string s =>
          rw [hm] at hv hdec
          obtain rfl : s = dec := Option.some.inj ((percentDecode_percentEncode s).symm.trans hdec)
          exact Or.inl (plain_of_needsNoEscape hv.2)
        | _ =>
          rw [hm] at hv
          exact hv.elim)
  obtain rfl : type = type' := Option.some.inj (htype.symm.trans htype')
  obtain rfl : v = m.2 := by
    rcases hcont with ⟨-, hms⟩ | ⟨_, _, _, _, -, -, -, -, hms⟩
    · rw [(List.cons.inj hms).1]
    · rw [(List.cons.inj hms).1]
  obtain rfl : word = wordOf m.2 := by
    cases type with
    | BOOLEAN => rcases hwritten with ⟨rfl, hm⟩ | ⟨rfl, hm⟩ <;> simp [hm, wordOf]
    | INTEGER => rw [show m.2 = .number word from hwritten, wordOf]
    | NUMBER => rw [show m.2 = .number word from hwritten, wordOf]
    | STRING =>
      obtain ⟨-, hhead, hin⟩ := hstring rfl
      exact hwhole rfl hafter hhead hin
  obtain rfl : sep :: u = rest := List.append_cancel_left hafter
  rcases hcont with ⟨hnil, -⟩ | ⟨rest', out', ms', k', hrest, -, hmembers, hjson', hms⟩
  · simp at hnil
  · obtain ⟨hvk', rfl⟩ := List.cons.inj hrest
    obtain rfl := (List.cons.inj hms).2
    exact ⟨htakes, hvk', out', k', hmembers, hjson'⟩

/-- A number is not read up to a point. -/
theorem not_takes_point {u : Bytes} {m : Bytes × Json} (hterm : terminator d ∉ m.1)
    (htype : d.ktMap.lookup (quoted m.1) = some .NUMBER) (hv : Sendable .NUMBER m.2)
    (hpoint : point ∉ wordOf m.2) :
    ¬Takes d (keyed d m.1 (wordOf m.2 ++ point :: u)) (point :: u) := by
  rintro ⟨o, ho⟩
  simp only [member, Lexer.bind_apply, memberKey_keyed hterm, htype, Text.value] at ho
  cases hm : m.2 with
  | number word =>
    rw [hm] at hv hpoint ho
    obtain ⟨ds, -, hu, -⟩ := number_takes_point hv hpoint ho
    have := congrArg List.length hu
    simp only [List.length_append, List.length_cons] at this
    omega
  | _ =>
    rw [hm] at hv
    exact hv.elim

/-- A string that goes on over an ampersand is not the string that was sent. -/
theorem string_ends {n k : Nat} {out r u s name : Bytes} {ms : List (Bytes × Json)}
    (h : members d (n + 1) [] (keyed d name (percentEncode s ++ ampersand :: u)) = .ok (out, []))
    (hjson : Library.Json.members k (out ++ [closeBrace]) = some ((name, .string s) :: ms, r))
    (hterm : terminator d ∉ name) (hname : NeedsNoEscape name)
    (htype : d.ktMap.lookup (quoted name) = some .STRING) (hs : NeedsNoEscape s)
    (hword : d.vkSeparator ∉ percentEncode s) : ampersand = d.vkSeparator := by
  by_contra hne
  obtain ⟨o, rest, out', hm, -, rfl⟩ := members_cons (keyed_ne_nil _ _) h
  simp only [member, Lexer.bind_apply, memberKey_keyed hterm, htype] at hm
  obtain ⟨x, rfl⟩ := string_takes (unstopped_of_not_mem hword) hne hm
  have hcolon : lit ":" = [':'.toUInt8] := rfl
  simp only [List.nil_append, List.append_assoc, quoted_append, hcolon, List.cons_append] at hjson
  -- the string of the JSON text is longer than the one that was sent
  obtain ⟨k', name', t1, t2, v, t3, hstring, hskip, hvalue, hnext⟩ :=
    Library.Json.members_cons hjson
  rw [string_of_needsNoEscape hname] at hstring
  obtain ⟨rfl, rfl⟩ := Prod.mk.inj (Option.some.inj hstring)
  rw [skipSpace_cons (by decide)] at hskip
  obtain rfl := (List.cons.inj hskip).2
  obtain rfl : v = .string s := by
    rcases hnext with ⟨_, _, -, -, hms⟩ | ⟨-, hms⟩
    · exact (Prod.mk.inj (List.cons.inj hms).1).2.symm
    · exact (Prod.mk.inj (List.cons.inj hms).1).2.symm
  cases k' with
  | zero => simp [Library.Json.value] at hvalue
  | succ k' =>
    rw [value_string] at hvalue
    obtain ⟨⟨s', t'⟩, hread, heq⟩ := Option.map_eq_some_iff.mp hvalue
    obtain rfl : s' = s := Value.string.inj (Prod.mk.inj heq).1
    have hlong : NeedsNoEscape (s' ++ [ampersand]) := by
      intro c hc
      rcases List.mem_append.mp hc with hc | hc
      · exact hs c hc
      · obtain rfl := List.mem_singleton.mp hc
        decide
    obtain ⟨w, hw⟩ := string_append (t := x ++ ((if rest.head? = some d.vkSeparator then [comma]
      else []) ++ (out' ++ [closeBrace]))) hlong (by simpa using hread)
    have := congrArg List.length hw
    simp only [List.length_append, List.length_cons, List.length_nil] at this
    omega

/-- What must hold of members that were read from their text. -/
theorem members_sent (hvk : kHexLookupTable d.vkSeparator < 0)
    (hterm : ∀ s, terminator d ∉ percentEncode s) (hsep : sep = d.vkSeparator ∨ sep = ampersand)
    {ms : List (Bytes × Json)} (hne : ms ≠ []) (hms : ∀ m ∈ ms, SendableMember d m) {n k : Nat}
    {out r : Bytes} (h : members d n [] (body d sep ms) = .ok (out, []))
    (hjson : Library.Json.members k (out ++ [closeBrace]) = some (ms, r)) :
    (∀ m ∈ ms, ∀ c ∈ m.1, unreserved c) ∧ (2 ≤ ms.length → sep = d.vkSeparator) ∧
      (sep = point → ∀ m ∈ ms.dropLast, d.ktMap.lookup (quoted m.1) ≠ some .NUMBER) := by
  induction ms generalizing n k out with
  | nil => exact absurd rfl hne
  | cons m ms ih =>
    obtain ⟨type, htype, hv, hword⟩ := hms m List.mem_cons_self
    cases n with
    | zero =>
      have hnil : body d sep (m :: ms) = [] := (by simpa [members] using h : _ ∧ _).2
      exact absurd hnil (body_ne_nil hne)
    | succ n =>
      rw [body_cons] at h
      have hencoded : m.1 = percentEncode m.1 := first_name (keyed_ne_nil _ _) h hjson
        (memberKey_keyed (hterm _) _) (percentEncode_needsNoEscape _)
      have hname := percentEncode_eq_self.mp hencoded.symm
      cases ms with
      | nil => exact ⟨by simpa using hname, by simp, by simp⟩
      | cons m' ms =>
        have hkey := hterm m.1
        have hescape := percentEncode_needsNoEscape m.1
        rw [← hencoded] at h hkey hescape
        rw [others, if_neg (by simp)] at h
        have hstring : type = .STRING → sep = d.vkSeparator := by
          rintro rfl
          rcases hsep with hsep | rfl
          · exact hsep
          · obtain ⟨name, v⟩ := m
            cases v with
            | string s => exact string_ends h hjson hkey hescape htype hv.2 hword
            | _ => exact hv.elim
        obtain ⟨htakes, rfl, out', k', hmembers, hjson'⟩ :=
          first_rest hvk h hjson hkey hescape htype hv hword hstring
        obtain ⟨hnames, -, hpoints⟩ := ih (by simp) (fun u hu => hms u (List.mem_cons_of_mem m hu))
          hmembers hjson'
        refine ⟨List.forall_mem_cons.mpr ⟨hname, hnames⟩, fun _ => rfl, fun hpoint => ?_⟩
        rw [List.dropLast_cons_of_ne_nil (by simp)]
        refine List.forall_mem_cons.mpr ⟨fun hnumber => ?_, hpoints hpoint⟩
        obtain rfl : type = .NUMBER := Option.some.inj (htype.symm.trans hnumber)
        rw [hpoint] at htakes hword
        exact not_takes_point hkey htype hv hword htakes

end Text

open Text

/-- The styles of objects, by the place of the parameter. -/
def objectSupported (in_ : Bytes) : ParamStyle → Bool
  | .SIMPLE => in_ = lit "path" || in_ = lit "header"
  | .LABEL | .MATRIX => in_ = lit "path"
  | .FORM | .DEEP_OBJ => in_ = lit "query"
  | .SPACE_DELIM | .PIPE_DELIM | .CONTENT => false

/-- The point behind a number of style `label`. -/
def PointBehindNumber (style : ParamStyle) (explode : Bool) (properties : List (Bytes × Json))
    (ms : List (Bytes × Json)) : Prop :=
  style = .LABEL ∧ explode = true ∧
    ∃ m ∈ ms.dropLast, propertyType m.1 properties = some .NUMBER

/-- What a client writes between the members. -/
def memberSeparator (style : ParamStyle) (explode : Bool) : UInt8 :=
  if style = .DEEP_OBJ then ampersand else getObjVKSep style explode

section

variable {paramVal : Json} {style0 : Bytes} {explode0 : Bool} {name in_ : Bytes}
  {style : ParamStyle} {explode : Bool} {refKeys : List Bytes} {o : ObjectDeserializer}

/-- Names and values in one list, with commas between all of them. -/
theorem intercalate_pairs (ms : List (Bytes × Json)) :
    (lit ",").intercalate (ms.flatMap fun m => [percentEncode m.1, wordOf m.2]) =
      [comma].intercalate (ms.map fun m => percentEncode m.1 ++ comma :: wordOf m.2) := by
  have hcomma : lit "," = [comma] := rfl
  rw [hcomma]
  induction ms with
  | nil => rfl
  | cons m ms ih =>
    cases ms with
    | nil => simp [List.intercalate_cons_cons]
    | cons m' ms =>
      have hjoin : ∀ (t u : Bytes) (ts : List Bytes), ts ≠ [] →
          [comma].intercalate (t :: u :: ts) = (t ++ comma :: u) ++ [comma] ++
            [comma].intercalate ts := by
        intro t u ts hts
        obtain ⟨t', ts, rfl⟩ := List.exists_cons_of_ne_nil hts
        simp [List.intercalate_cons_cons]
      calc [comma].intercalate ((m :: m' :: ms).flatMap fun m => [percentEncode m.1, wordOf m.2])
          = (percentEncode m.1 ++ comma :: wordOf m.2) ++ [comma] ++ [comma].intercalate
              ((m' :: ms).flatMap fun m => [percentEncode m.1, wordOf m.2]) :=
            hjoin _ _ _ (by simp)
        _ = (percentEncode m.1 ++ comma :: wordOf m.2) ++ [comma] ++ [comma].intercalate
              ((m' :: ms).map fun m => percentEncode m.1 ++ comma :: wordOf m.2) := by rw [ih]
        _ = _ := (List.intercalate_cons_cons ..).symm

/-- What the styles say of an object is what the deserializer looks for, but for the separator. -/
theorem serializeObject_eq (hstyle : objectSupported in_ style)
    (hbase : o.toBaseDeserializer = baseOf name in_ style explode .OBJECT)
    (hkv : o.kvSeparator = getObjKVSep explode) (hdeep : o.isDeepObj = decide (style = .DEEP_OBJ))
    (ms : List (Bytes × Json)) :
    serializeObject style explode name (ms.map fun m => (m.1, wordOf m.2)) =
      head o ++ body o (memberSeparator style explode) ms := by
  have hhead : head o = (if getStartChar style = 0 then [] else [getStartChar style]) ++
      if hasNameAtStart in_ style explode .OBJECT && !decide (style = .DEEP_OBJ) then
        name ++ [equals] else [] := by
    rw [head, hbase, hdeep]
    rfl
  have hkeyed : style ≠ .DEEP_OBJ → body o (memberSeparator style explode) ms =
      [getObjVKSep style explode].intercalate
        (ms.map fun m => percentEncode m.1 ++ getObjKVSep explode :: wordOf m.2) := by
    intro hne
    rw [body, memberSeparator, if_neg hne]
    simp [keyed, hdeep, hne, hkv]
  have hpairs : ∀ sep : Bytes, sep.intercalate
      ((ms.map fun m => (m.1, wordOf m.2)).map fun m => percentEncode m.1 ++ lit "=" ++ m.2) =
        sep.intercalate (ms.map fun m => percentEncode m.1 ++ equals :: wordOf m.2) := by
    intro sep
    have hequals : lit "=" = [equals] := rfl
    rw [List.map_map, hequals]
    simp [Function.comp_def]
  have hflat : (lit ",").intercalate
      ((ms.map fun m => (m.1, wordOf m.2)).flatMap fun m => [percentEncode m.1, m.2]) =
        [comma].intercalate (ms.map fun m => percentEncode m.1 ++ comma :: wordOf m.2) := by
    rw [← intercalate_pairs, List.flatMap_map]
  cases style with
  | SPACE_DELIM => simp [objectSupported] at hstyle
  | PIPE_DELIM => simp [objectSupported] at hstyle
  | CONTENT => simp [objectSupported] at hstyle
  | DEEP_OBJ =>
    have hname : o.paramName = name := by rw [hbase]; rfl
    have hbrackets : lit "[" = ['['.toUInt8] ∧ lit "]=" = [']'.toUInt8, equals] := ⟨rfl, rfl⟩
    have hnone : head o = [] := by
      rw [hhead]
      simp [getStartChar]
    rw [hnone, body, memberSeparator, if_pos rfl]
    simp only [serializeObject, List.map_map, hbrackets]
    simp [Function.comp_def, keyed, hdeep, hname]
    rfl
  | SIMPLE =>
    rw [hhead, hkeyed (by simp)]
    cases explode with
    | false => exact hflat
    | true => exact hpairs _
  | LABEL =>
    rw [hhead, hkeyed (by simp)]
    cases explode with
    | false => exact congrArg (lit "." ++ ·) hflat
    | true => exact congrArg (lit "." ++ ·) (hpairs _)
  | MATRIX =>
    rw [hhead, hkeyed (by simp)]
    cases explode with
    | false => exact congrArg₂ (· ++ ·) (List.append_assoc ..) hflat
    | true => exact congrArg (lit ";" ++ ·) (hpairs _)
  | FORM =>
    rw [hhead, hkeyed (by simp)]
    cases explode with
    | false => exact congrArg (name ++ lit "=" ++ ·) hflat
    | true => exact hpairs _

theorem not_mem_wordOf {b : UInt8} (hb : unreserved b = false) (hpercent : b ≠ percent)
    {type : PrimitiveType} {v : Json} (hv : Sendable type v) : b ∉ wordOf v := by
  have hdecimal : ∀ word, PlainDecimal word → b ∉ word := by
    intro word hword hmem
    rcases hword.2 b hmem with hdigit | rfl | rfl
    · simp [unreserved, hdigit] at hb
    · exact absurd hb (by decide)
    · exact absurd hb (by decide)
  have hletters : ∀ c ∈ lit "true" ++ lit "false", unreserved c := by decide +kernel
  cases v with
  | bool value =>
    intro hmem
    have hin : b ∈ lit "true" ++ lit "false" := by
      cases value with
      | true => exact List.mem_append_left _ hmem
      | false => exact List.mem_append_right _ hmem
    rw [hletters b hin] at hb
    exact Bool.false_ne_true hb.symm
  | number word =>
    cases type with
    | INTEGER => exact hdecimal word hv.1
    | NUMBER => exact hdecimal word hv
    | _ => exact hv.elim
  | string s => exact not_mem_percentEncode hb hpercent s
  | _ => cases type <;> exact hv.elim

/-- A separator behind a value is a reserved byte, but for the point. -/
theorem getObjVKSep_cases (style : ParamStyle) (explode : Bool) :
    (style = .LABEL ∧ explode = true ∧ getObjVKSep style explode = point) ∨
    (unreserved (getObjVKSep style explode) = false ∧ getObjVKSep style explode ≠ percent ∧
      getObjVKSep style explode ≠ point) := by
  cases style <;> cases explode <;> decide

/-- An object parameter that a style has a form for, of declared properties with values without the
separator of the style, is deserialized to a JSON object with just these members if and only if every
name has unreserved bytes only, no number of style `label` has a point behind it, and several members
of style `deepObject` have `explode`. -/
theorem object_parameter_iff (h : Declares paramVal style0 explode0 name in_ style explode)
    (hd : getDeserializer paramVal style0 explode0 refKeys = .ok (.object o))
    {properties : List (Bytes × Json)} (hproperties : propertiesOf paramVal = .ok properties)
    (hstyle : objectSupported in_ style) {ms : List (Bytes × Json)} (hne : ms ≠ [])
    (hms : ∀ m ∈ ms, (∃ type, propertyType m.1 properties = some type ∧ Sendable type m.2) ∧
      ¬rawSeparator style explode <:+: wordOf m.2) :
    (∃ out, deserializeText (.object o)
        (serializeObject style explode name (ms.map fun m => (m.1, wordOf m.2))) = .ok out ∧
        parse out = some (.object ms)) ↔
      (∀ m ∈ ms, ∀ c ∈ m.1, unreserved c) ∧ ¬PointBehindNumber style explode properties ms ∧
        ¬(style = .DEEP_OBJ ∧ explode = false ∧ 2 ≤ ms.length) := by
  obtain ⟨properties', hproperties', hlookup, hbase, hkv, hvk, hdeep⟩ := getDeserializer_objectOf h hd
  obtain rfl : properties' = properties := Except.ok.inj (hproperties'.symm.trans hproperties)
  have hlookup : ∀ key, o.ktMap.lookup (quoted key) = propertyType key properties' := hlookup
  have hhex : kHexLookupTable o.vkSeparator < 0 := hvk ▸ getObjVKSep_not_hex style explode
  have hmembers : ∀ m ∈ ms, SendableMember o m := by
    intro m hm
    obtain ⟨⟨type, htype, hv⟩, hraw⟩ := hms m hm
    refine ⟨type, (hlookup _).trans htype, hv, ?_⟩
    rw [hvk]
    rcases getObjVKSep_cases style explode with ⟨rfl, rfl, -⟩ | ⟨hreserved, hpercent, -⟩
    · exact not_mem_of_apart hraw
    · exact not_mem_wordOf hreserved hpercent hv
  have hterm : ∀ s, terminator o ∉ percentEncode s := by
    intro s
    unfold terminator
    split
    · exact not_mem_percentEncode (by decide) (by decide) s
    · rw [hkv]
      cases explode <;> exact not_mem_percentEncode (by decide) (by decide) s
  have hsep : memberSeparator style explode = o.vkSeparator ∨
      style = .DEEP_OBJ ∧ explode = false ∧ memberSeparator style explode = ampersand := by
    rw [hvk, memberSeparator]
    cases style with
    | DEEP_OBJ => cases explode <;> simp [getObjVKSep]
    | _ => exact Or.inl (if_neg (by simp))
  have hnonzero : o.vkSeparator ≠ 0 := by
    rw [hvk]
    cases style <;> cases explode <;> decide
  rw [serializeObject_eq hstyle hbase hkv hdeep, deserializeText_eq
    (Or.inr (List.append_ne_nil_of_right_ne_nil _ (body_ne_nil hne))) (by simpa using hnonzero)]
  simp only [Deserializer.lexer]
  constructor
  · rintro ⟨out, hout, hparse⟩
    obtain ⟨⟨out, rest⟩, hrun, rfl⟩ := map_eq_ok_iff.mp hout
    obtain ⟨s, out', hstart, -, hread, rfl⟩ := object_eq_ok hrun
    rw [objectStart_head (body_ne_nil hne)] at hstart
    obtain ⟨-, rfl⟩ := Prod.mk.inj (Except.ok.inj hstart)
    obtain ⟨x, rfl⟩ : ∃ x, out' = quote :: x := by
      have hquote := members_quote (body_ne_nil hne) hread
      cases out' with
      | nil => simp at hquote
      | cons c x => exact ⟨x, by rw [Option.some.inj hquote]⟩
    obtain ⟨k, ms', r, hjson, heq⟩ := parse_object hparse
    obtain rfl := Value.object.inj heq
    obtain ⟨hnames, hsame, hpoints⟩ := members_sent hhex hterm (hsep.imp_right (·.2.2)) hne hmembers
      hread hjson
    refine ⟨hnames, ?_, ?_⟩
    · rintro ⟨rfl, rfl, m, hm, htype⟩
      exact hpoints rfl m hm ((hlookup _).trans htype)
    · rintro ⟨rfl, rfl, h2⟩
      have hcomma := hsame h2
      rw [hvk] at hcomma
      exact absurd hcomma (by decide)
  · rintro ⟨hnames, hpoint, hdeepObject⟩
    have hsame : 2 ≤ ms.length → memberSeparator style explode = o.vkSeparator := by
      intro h2
      rcases hsep with hsep | ⟨hdeep', hexplode, -⟩
      · exact hsep
      · exact absurd ⟨hdeep', hexplode, h2⟩ hdeepObject
    have hends : ∀ m ∈ ms.dropLast, ∀ type, o.ktMap.lookup (quoted m.1) = some type →
        ∀ u, Ends (· = o.vkSeparator) (memberSeparator style explode :: u) type := by
      intro m hm type htype u
      have h2 : 2 ≤ ms.length := by
        have := List.length_pos_of_mem hm
        rw [List.length_dropLast] at this
        omega
      rw [hsame h2, hvk]
      rcases getObjVKSep_cases style explode with ⟨rfl, rfl, heq⟩ | ⟨hreserved, -, hne'⟩
      · rw [heq]
        apply ends_of_head rfl (by decide)
        rintro rfl
        exact absurd ⟨rfl, rfl, m, hm, (hlookup _).symm.trans htype⟩ hpoint
      · exact ends_of_head rfl (isDigit_of_reserved hreserved) fun _ => hne'
    have hrun := object_body hne hterm hmembers hnames hsame hends
    refine ⟨_, by rw [hrun]; rfl, ?_⟩
    apply parse_object_reads
    · rw [List.forall₂_map_left_iff, List.forall₂_same]
      intro m hm
      obtain ⟨type, -, hv, -⟩ := hmembers m hm
      have hescape := percentEncode_needsNoEscape m.1
      rw [percentEncode_eq_self.mpr (hnames m hm)] at hescape
      exact ⟨hescape, pieceOf m.2, rfl, (reads_pieceOf hv).value⟩
    · simpa using hne

end

/-- A path parameter that is a place, with its style. -/
def placeParam (style : String) : Json :=
  .object [(lit "name", .string (lit "at")), (lit "in", .string (lit "path")),
    (lit "style", .string (lit style)), (lit "explode", .bool true),
    (lit "schema", .object [(lit "type", .string (lit "object")),
      (lit "properties", .object [(lit "x", .object [(lit "type", .string (lit "number"))]),
        (lit "y", .object [(lit "type", .string (lit "number"))])])])]

def placeDeserializer (style : ParamStyle) : ObjectDeserializer where
  toBaseDeserializer := baseOf (lit "at") (lit "path") style true .OBJECT
  kvSeparator := equals
  vkSeparator := getObjVKSep style true
  isDeepObj := false
  ktMap := [(quoted (lit "x"), .NUMBER), (quoted (lit "y"), .NUMBER)]

def placeProperties : List (Bytes × Json) :=
  [(lit "x", .object [(lit "type", .string (lit "number"))]),
    (lit "y", .object [(lit "type", .string (lit "number"))])]

theorem place_properties (style : String) :
    propertiesOf (placeParam style) = .ok placeProperties := by
  rfl

/-- A member that is a number is sent by every style whose separator it does not have. -/
theorem place_members {style : ParamStyle} {xs ys : Bytes}
    (hplain : ∀ word ∈ [xs, ys], PlainDecimal word ∧ ¬rawSeparator style true <:+: word) :
    ∀ m ∈ [(lit "x", Value.number xs), (lit "y", .number ys)],
      (∃ type, propertyType m.1 placeProperties = some type ∧ Sendable type m.2) ∧
        ¬rawSeparator style true <:+: wordOf m.2 := by
  have hx : propertyType (lit "x") placeProperties = some .NUMBER := by decide
  have hy : propertyType (lit "y") placeProperties = some .NUMBER := by decide
  intro m hm
  rcases List.mem_cons.mp hm with rfl | hm
  · obtain ⟨hword, hraw⟩ := hplain xs (by simp)
    exact ⟨⟨_, hx, hword⟩, hraw⟩
  · obtain rfl := List.mem_singleton.mp hm
    obtain ⟨hword, hraw⟩ := hplain ys (by simp)
    exact ⟨⟨_, hy, hword⟩, hraw⟩

theorem object_parameter_iff_place :
    (∃ out, deserializeText (.object (placeDeserializer .MATRIX))
        (serializeObject .MATRIX true (lit "at")
          ([(lit "x", Value.number (lit "3")), (lit "y", .number (lit "-14.5"))].map
            fun m => (m.1, wordOf m.2))) = .ok out ∧
        parse out = some (.object [(lit "x", .number (lit "3")), (lit "y", .number (lit "-14.5"))])) ↔
      (∀ m ∈ [(lit "x", Value.number (lit "3")), (lit "y", .number (lit "-14.5"))],
        ∀ c ∈ m.1, unreserved c) ∧
      ¬PointBehindNumber .MATRIX true placeProperties
        [(lit "x", .number (lit "3")), (lit "y", .number (lit "-14.5"))] ∧
      ¬(ParamStyle.MATRIX = .DEEP_OBJ ∧ true = false ∧
        2 ≤ [(lit "x", Value.number (lit "3")), (lit "y", .number (lit "-14.5"))].length) := by
  have hdeclares : Declares (placeParam "matrix") (lit "simple") false (lit "at") (lit "path")
      .MATRIX true :=
    ⟨by decide, by decide +kernel, by decide, by decide⟩
  have hbuilt : getDeserializer (placeParam "matrix") (lit "simple") false [] =
      .ok (.object (placeDeserializer .MATRIX)) := by
    decide
  have hplain : ∀ word ∈ [lit "3", lit "-14.5"],
      PlainDecimal word ∧ ¬rawSeparator .MATRIX true <:+: word := by
    simp only [PlainDecimal]
    decide +kernel
  exact object_parameter_iff hdeclares hbuilt (place_properties _) (by decide) (by simp)
    (place_members hplain)

/-- The point behind the first number of style `label` is taken for a part of it. -/
theorem point_behind_number : ¬∀ (paramVal : Json) (style0 : Bytes) (explode0 : Bool)
    (name in_ : Bytes) (style : ParamStyle) (explode : Bool) (refKeys : List Bytes)
    (o : ObjectDeserializer) (properties : List (Bytes × Json)),
      Declares paramVal style0 explode0 name in_ style explode →
      getDeserializer paramVal style0 explode0 refKeys = .ok (.object o) →
      propertiesOf paramVal = .ok properties → objectSupported in_ style →
      ∀ ms : List (Bytes × Json), ms ≠ [] → (ms.map Prod.fst).Nodup →
      (∀ m ∈ ms, (∃ type, propertyType m.1 properties = some type ∧ Sendable type m.2) ∧
        ¬rawSeparator style explode <:+: wordOf m.2) →
        ∃ out, deserializeText (.object o)
          (serializeObject style explode name (ms.map fun m => (m.1, wordOf m.2))) = .ok out ∧
          parse out = some (.object ms) := by
  intro h
  have hdeclares : Declares (placeParam "label") (lit "simple") false (lit "at") (lit "path")
      .LABEL true :=
    ⟨by decide, by decide, by decide, by decide +kernel⟩
  have hbuilt : getDeserializer (placeParam "label") (lit "simple") false [] =
      .ok (.object (placeDeserializer .LABEL)) := by
    decide +kernel
  have hplain : ∀ word ∈ [lit "1", lit "2"],
      PlainDecimal word ∧ ¬rawSeparator .LABEL true <:+: word := by
    simp only [PlainDecimal]
    decide +kernel
  obtain ⟨out, hout, -⟩ := h _ _ _ _ _ _ _ _ _ _ hdeclares hbuilt (place_properties _) (by decide)
    [(lit "x", .number (lit "1")), (lit "y", .number (lit "2"))] (by simp) (by decide)
    (place_members hplain)
  have hrun : deserializeText (.object (placeDeserializer .LABEL)) (lit ".x=1.y=2") =
      .error (placeDeserializer .LABEL).wrongNumber := by
    decide
  have htext : serializeObject .LABEL true (lit "at")
      ([(lit "x", Value.number (lit "1")), (lit "y", .number (lit "2"))].map
        fun m => (m.1, wordOf m.2)) = lit ".x=1.y=2" := by
    decide
  rw [htext] at hout
  exact nomatch hrun.symm.trans hout

end OasValidator
