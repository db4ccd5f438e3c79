import OasValidator.Deserializer.Whole

/-! The object deserializer on the text of a range.  Reading a key or a value stays in the range.  The
byte behind a value is tested without a look at the end of the range, so the loop over the members
stays in it just when no member ends where the range ends. -/

namespace OasValidator.Text

open Library.Scanning BaseDeserializer

/-- The bytes before `terminator`, added to `k`. -/
def keyBytes (terminator : UInt8) (k : Bytes) : Lexer Bytes := fun t =>
  .ok (k ++ t.takeWhile (· ≠ terminator), t.dropWhile (· ≠ terminator))

def skipTerminator (terminator : UInt8) : Lexer Unit
  | [] => .ok ((), [])
  | b :: t => if b = terminator then .ok ((), t) else .ok ((), b :: t)

/-- The bytes before `terminator`, which is skipped, between quotes. -/
def key (terminator : UInt8) : Lexer Bytes := do
  let k ← keyBytes terminator [quote]
  skipTerminator terminator
  pure (k ++ [quote])

def memberKey (d : ObjectDeserializer) : Lexer Bytes := do
  if d.isDeepObj then
    skipName d.toBaseDeserializer
    skipChar d.toBaseDeserializer '['.toUInt8
    let k ← key ']'.toUInt8
    skipChar d.toBaseDeserializer equals
    pure k
  else key d.kvSeparator

def member (d : ObjectDeserializer) (ret : Bytes) : Lexer Bytes := do
  let k ← memberKey d
  match d.ktMap.lookup k with
  | none => Lexer.fail d.invalidFormat
  | some paramType =>
    value d.toBaseDeserializer (· = d.vkSeparator) (ret ++ k ++ lit ":") paramType

/-- The separator behind a value, if the text has one. -/
def vkSeparator (d : ObjectDeserializer) (ret : Bytes) : Lexer Bytes
  | [] => .ok (ret, [])
  | b :: t => if b = d.vkSeparator then .ok (ret ++ [comma], t) else .ok (ret, b :: t)

def members (d : ObjectDeserializer) : Nat → Bytes → Lexer Bytes
  | 0, ret => pure ret
  | n + 1, ret => fun t =>
    if t = [] then .ok (ret, t)
    else (member d ret >>= fun ret => vkSeparator d ret >>= members d n) t

def allMembers (d : ObjectDeserializer) : Lexer Bytes := fun t => members d t.length (lit "\x7b") t

/-- The part in front of the members. -/
def objectStart (d : ObjectDeserializer) : Lexer Unit := do
  startChar d.toBaseDeserializer
  if d.skipName && !d.isDeepObj then
    skipName d.toBaseDeserializer
    skipChar d.toBaseDeserializer equals
  data d.toBaseDeserializer

def object (d : ObjectDeserializer) : Lexer Bytes := do
  objectStart d
  let ret ← allMembers d
  finish d.toBaseDeserializer
  pure (ret ++ lit "\x7d")

section

variable {buf : Nat → UInt8} {e : Nat}

theorem refines_keyLoop (terminator : UInt8) (n : Nat) (k : Bytes) (cur : Cursor)
    (hn : e - cur.pos ≤ n) (hp : cur.pos ≤ e) (hs : cur.seen ≤ e) :
    RefinesAt buf e cur (ObjectDeserializer.keyLoop buf e terminator n k)
      (keyBytes terminator k) := by
  induction n generalizing k cur with
  | zero =>
    refine (RefinesAt.pure k hp hs).congr ?_
    rw [slice_of_le (by omega)]
    simp [keyBytes]
  | succ n ih =>
    refine (RefinesAt.look (g := fun b => if b = terminator then Pure.pure k
        else Lexer.drop 1 >>= fun _ => keyBytes terminator (k ++ [b]))
      (f := Pure.pure k) hs (fun b s hlt hs' => ?_) fun _ => RefinesAt.pure _ hp hs).congr ?_
    · refine RefinesAt.ite (fun _ => RefinesAt.pure _ hp hs') fun _ => ?_
      exact RefinesAt.advance (n := 1) (c := ⟨cur.pos, s⟩) hlt
        (ih (k ++ [b]) ⟨cur.pos + 1, s⟩ (by simp only; omega) hlt hs')
    · cases slice buf cur.pos e with
      | nil => simp [keyBytes]
      | cons b t =>
        by_cases hb : b = terminator
        · simp [hb, keyBytes]
        · simp [hb, keyBytes, Lexer.bind_apply]

theorem refines_key (terminator : UInt8) :
    Refines buf e (ObjectDeserializer.deserializeKey buf e terminator []) (key terminator) := by
  have hskip : Refines buf e
      (Scan.look buf e (fun b => if b = terminator then Scan.advance 1 else Pure.pure ())
        (Pure.pure ()) : Scanner Unit) (skipTerminator terminator) := by
    intro cur hp hs
    refine (RefinesAt.look (g := fun b => if b = terminator then Lexer.drop 1 else Pure.pure ())
      (f := Pure.pure ()) hs (fun b s hlt hs' => RefinesAt.ite
        (fun _ => RefinesAt.advance_only hlt hs') fun _ => RefinesAt.pure _ hp hs')
      fun _ => RefinesAt.pure () hp hs).congr ?_
    cases slice buf cur.pos e with
    | nil => rfl
    | cons b t => simp [skipTerminator]
  intro cur hp hs
  exact RefinesAt.position ((refines_keyLoop terminator (e - cur.pos) [quote] cur le_rfl hp
    hs).bind fun k c' _ hp' hs' _ => hskip.bind (fun _ => Refines.pure (k ++ [quote])) c' hp' hs')

theorem refines_memberKey {d : ObjectDeserializer} :
    Refines buf e (d.readKey buf e) (memberKey d) :=
  Refines.ite (fun _ => refines_skipName.bind fun _ => (refines_skipChar _).bind fun _ =>
      (refines_key _).bind fun k => (refines_skipChar _).bind fun _ => Refines.pure k)
    fun _ => refines_key _

theorem refines_member {d : ObjectDeserializer} (ret : Bytes) :
    Refines buf e (d.deserializeMember buf e ret) (member d ret) := by
  refine refines_memberKey.bind fun k => ?_
  cases d.ktMap.lookup k with
  | none => exact Refines.throw _
  | some type =>
    simp only [ObjectDeserializer.deserializeValue]
    cases type with
    | BOOLEAN => exact refines_boolean _
    | INTEGER => exact refines_integer _
    | NUMBER => exact refines_number _
    | STRING => exact refines_stringTo _ _

/-- The test of the byte behind a value, where the range has one. -/
theorem refines_vkSeparator {d : ObjectDeserializer} (ret : Bytes) {cur : Cursor}
    (hlt : cur.pos < e) (hs : cur.seen ≤ e) :
    RefinesAt buf e cur (d.skipVkSeparator buf ret) (vkSeparator d ret) := by
  have hrun : d.skipVkSeparator buf ret cur =
      Scan.look buf e (fun b => if b = d.vkSeparator then
          Scan.advance 1 >>= fun _ => Pure.pure (ret ++ [comma]) else Pure.pure ret)
        (Pure.pure ret) cur := by
    simp [ObjectDeserializer.skipVkSeparator, Scan.look, Scan.position, Bind.bind, hlt]
  have hlook := (RefinesAt.look (g := fun b => if b = d.vkSeparator then
      Lexer.drop 1 >>= fun _ => Pure.pure (ret ++ [comma]) else Pure.pure ret)
    (f := Pure.pure ret) hs
    (fun b s hlt hs' => RefinesAt.ite
      (fun _ => RefinesAt.advance (n := 1) (c := ⟨cur.pos, s⟩) hlt (RefinesAt.pure _ hlt hs'))
      fun _ => RefinesAt.pure _ hlt.le hs')
    fun _ => @RefinesAt.pure UInt8 DeserializeError _ buf e cur ret hlt.le hs).congr
      (g := vkSeparator d ret) (by
        cases slice buf cur.pos e with
        | nil => rfl
        | cons b t => simp [vkSeparator, Lexer.bind_apply])
  unfold RefinesAt at *
  rwa [hrun]

theorem key_eq_ok {terminator : UInt8} {t k rest : Bytes} (h : key terminator t = .ok (k, rest)) :
    k = quote :: t.takeWhile (· ≠ terminator) ++ [quote] ∧
      rest = (t.dropWhile (· ≠ terminator)).tail := by
  obtain ⟨k', mid, hk, h1⟩ := Lexer.bind_eq_ok_iff.mp h
  obtain ⟨_, mid', hskip, h2⟩ := Lexer.bind_eq_ok_iff.mp h1
  obtain ⟨rfl, rfl⟩ : quote :: t.takeWhile (· ≠ terminator) = k' ∧
      t.dropWhile (· ≠ terminator) = mid := by simpa [keyBytes] using hk
  obtain ⟨rfl, rfl⟩ : quote :: t.takeWhile (· ≠ terminator) ++ [quote] = k ∧ mid' = rest := by
    simpa using h2
  refine ⟨rfl, ?_⟩
  have hhead : ∀ b ∈ (t.dropWhile (· ≠ terminator)).head?, b = terminator := by
    intro b hb
    have := List.head?_dropWhile_not (fun x => decide (x ≠ terminator)) t
    rw [Option.mem_def.mp hb] at this
    simpa using this
  generalize t.dropWhile (· ≠ terminator) = s at hskip hhead
  cases s with
  | nil => simpa [skipTerminator, eq_comm] using hskip
  | cons b s =>
    -- the byte behind the key can only be the terminator
    obtain rfl : b = terminator := hhead b rfl
    simpa [skipTerminator, eq_comm] using hskip

/-- A key takes at least one byte of a text. -/
theorem key_length {terminator : UInt8} {t k rest : Bytes} (h : key terminator t = .ok (k, rest))
    (hne : t ≠ []) : rest.length < t.length := by
  obtain ⟨-, rfl⟩ := key_eq_ok h
  have := (List.dropWhile_suffix (p := (decide <| · ≠ terminator)) (l := t)).length_le
  cases hd : t.dropWhile (· ≠ terminator) with
  | nil => simpa using List.length_pos_iff.mpr hne
  | cons b t' =>
    simp only [hd, List.length_cons, List.tail_cons] at this ⊢
    omega

theorem memberKey_length {d : ObjectDeserializer} {t k rest : Bytes}
    (h : memberKey d t = .ok (k, rest)) (hne : t ≠ []) : rest.length < t.length := by
  simp only [memberKey, Lexer.ite_apply] at h
  split at h
  · obtain ⟨_, mid, hname, h1⟩ := Lexer.bind_eq_ok_iff.mp h
    obtain ⟨_, mid1, hbracket, h2⟩ := Lexer.bind_eq_ok_iff.mp h1
    obtain ⟨_, mid2, hkey, h3⟩ := Lexer.bind_eq_ok_iff.mp h2
    obtain ⟨_, mid3, hequals, h4⟩ := Lexer.bind_eq_ok_iff.mp h3
    obtain rfl : mid3 = rest := (by simpa using h4 : _ ∧ mid3 = rest).2
    have hle : mid3.length ≤ mid1.length := by
      have h5 : mid3.length ≤ mid2.length := by
        rcases skipChar_eq_ok_iff.mp hequals with ⟨rfl, rfl⟩ | rfl <;> simp
      by_cases hmid : mid1 = []
      · obtain ⟨-, rfl⟩ := key_eq_ok hkey
        simpa [hmid] using h5
      · exact h5.trans (key_length hkey hmid).le
    obtain rfl := skipName_eq_ok_iff.mp hname
    rcases skipChar_eq_ok_iff.mp hbracket with ⟨rfl, rfl⟩ | rfl
    · exact lt_of_le_of_lt hle (List.length_pos_iff.mpr hne)
    · simp only [List.length_append, List.length_cons]
      omega
  · exact key_length h hne

/-- A member takes at least one byte of a text. -/
theorem member_length {d : ObjectDeserializer} {ret t out rest : Bytes}
    (h : member d ret t = .ok (out, rest)) (hne : t ≠ []) : rest.length < t.length := by
  obtain ⟨k, mid, hkey, h1⟩ := Lexer.bind_eq_ok_iff.mp h
  have := memberKey_length hkey hne
  cases hk : d.ktMap.lookup k with
  | none => simp [hk] at h1
  | some type =>
    simp only [hk] at h1
    obtain ⟨word, _, rfl, -, -⟩ := value_eq_ok h1
    simp only [List.length_append] at this
    omega

/-- What is put out goes behind what was there. -/
theorem member_ret (d : ObjectDeserializer) (ret t : Bytes) :
    member d ret t = (member d [] t).map fun p => (ret ++ p.1, p.2) := by
  simp only [member, Lexer.bind_apply]
  cases hk : memberKey d t with
  | error x => rfl
  | ok p =>
    simp only
    cases d.ktMap.lookup p.1 with
    | none => rfl
    | some type =>
      simp only
      rw [value_ret _ _ _ (ret ++ p.1 ++ lit ":"), value_ret _ _ _ ([] ++ p.1 ++ lit ":")]
      cases value d.toBaseDeserializer (· = d.vkSeparator) [] type p.2 <;> simp [Except.map]

/-- A member stands in front of `rest`. -/
def Takes (d : ObjectDeserializer) (t rest : Bytes) : Prop := ∃ out, member d [] t = .ok (out, rest)

/-- The text behind a separator, if there is one. -/
def behindSeparator (d : ObjectDeserializer) : Bytes → Bytes
  | [] => []
  | b :: t => if b = d.vkSeparator then t else b :: t

/-- Members, each with or without a separator behind it, lead to one that ends where the text ends. -/
inductive EndsInMember (d : ObjectDeserializer) : Bytes → Prop where
  | last {t : Bytes} (hne : t ≠ []) (h : Takes d t []) : EndsInMember d t
  | next {t rest : Bytes} (hne : t ≠ []) (h : Takes d t rest) (hrest : rest ≠ [])
      (hends : EndsInMember d (behindSeparator d rest)) : EndsInMember d t

theorem member_eq_ok {d : ObjectDeserializer} (ret : Bytes) {t rest : Bytes} (h : Takes d t rest) :
    ∃ out, member d ret t = .ok (out, rest) := by
  obtain ⟨out, h⟩ := h
  exact ⟨ret ++ out, by rw [member_ret, h]; rfl⟩

theorem takes_of_eq_ok {d : ObjectDeserializer} {ret t out rest : Bytes}
    (h : member d ret t = .ok (out, rest)) : Takes d t rest := by
  rw [member_ret] at h
  cases hm : member d [] t with
  | error x => simp [hm, Except.map] at h
  | ok p =>
    obtain rfl : p.2 = rest := (by simpa [hm, Except.map] using h : _ ∧ p.2 = rest).2
    exact ⟨p.1, hm⟩

theorem skipVkSeparator_run (d : ObjectDeserializer) (ret : Bytes) (cur : Cursor) :
    d.skipVkSeparator buf ret cur =
      if buf cur.pos = d.vkSeparator then
        (.ok (ret ++ [comma]), ⟨cur.pos + 1, max cur.seen (cur.pos + 1)⟩)
      else (.ok ret, ⟨cur.pos, max cur.seen (cur.pos + 1)⟩) := by
  by_cases h : buf cur.pos = d.vkSeparator <;>
    simp [ObjectDeserializer.skipVkSeparator, Scan.peek, Scan.peekAt, Bind.bind, h, Scan.advance,
      Pure.pure]

theorem vkSeparator_ok (d : ObjectDeserializer) (ret t : Bytes) :
    ∃ out, vkSeparator d ret t = .ok (out, behindSeparator d t) := by
  cases t with
  | nil => exact ⟨ret, rfl⟩
  | cons b t =>
    simp only [vkSeparator, behindSeparator]
    split
    · exact ⟨_, rfl⟩
    · exact ⟨_, rfl⟩

theorem vkSeparator_rest {d : ObjectDeserializer} {ret t out rest : Bytes}
    (h : vkSeparator d ret t = .ok (out, rest)) : rest = behindSeparator d t := by
  obtain ⟨out', h'⟩ := vkSeparator_ok d ret t
  rw [h'] at h
  exact (by simpa using h.symm : _ ∧ rest = behindSeparator d t).2

@[simp] theorem members_nil (d : ObjectDeserializer) (n : Nat) (ret : Bytes) :
    members d n ret [] = .ok (ret, []) := by
  cases n <;> rfl

theorem deserializeMembers_done {d : ObjectDeserializer} (n : Nat) (ret : Bytes) {cur : Cursor}
    (h : e ≤ cur.pos) : d.deserializeMembers buf e n ret cur = (.ok ret, cur) := by
  cases n with
  | zero => rfl
  | succ n =>
    simp [ObjectDeserializer.deserializeMembers, Scan.before, Scan.position, Bind.bind,
      not_lt.mpr h, Pure.pure]

/-- What is put out goes behind what was there. -/
theorem members_ret (d : ObjectDeserializer) (n : Nat) (ret t : Bytes) :
    members d n ret t = (members d n [] t).map fun p => (ret ++ p.1, p.2) := by
  induction n generalizing ret t with
  | zero => simp [members, Except.map]
  | succ n ih =>
    by_cases ht : t = []
    · simp [members, ht, Except.map]
    · simp only [members, if_neg ht, Lexer.bind_apply]
      rw [member_ret d ret]
      cases member d [] t with
      | error x => rfl
      | ok p =>
        obtain ⟨o, rest⟩ := p
        simp only [Except.map]
        rcases rest with _ | ⟨b, rest⟩
        · simp [vkSeparator]
        · by_cases hb : b = d.vkSeparator
          · simp only [vkSeparator, if_pos hb]
            rw [ih (ret ++ o ++ [comma]), ih (o ++ [comma])]
            cases members d n [] rest <;> simp [Except.map]
          · simp only [vkSeparator, if_neg hb]
            rw [ih (ret ++ o), ih o]
            cases members d n [] (b :: rest) <;> simp [Except.map]

/-- What the loop puts out is what the first member puts out, a comma if a separator follows, and
what the other members put out. -/
theorem members_cons {d : ObjectDeserializer} {n : Nat} {t out r : Bytes} (ht : t ≠ [])
    (h : members d (n + 1) [] t = .ok (out, r)) :
    ∃ o rest out', member d [] t = .ok (o, rest) ∧
      members d n [] (behindSeparator d rest) = .ok (out', r) ∧
      out = o ++ (if rest.head? = some d.vkSeparator then [comma] else []) ++ out' := by
  simp only [members, if_neg ht] at h
  obtain ⟨o, rest, hm, h1⟩ := Lexer.bind_eq_ok_iff.mp h
  obtain ⟨o', rest', hsep, h2⟩ := Lexer.bind_eq_ok_iff.mp h1
  obtain rfl := vkSeparator_rest hsep
  rw [members_ret] at h2
  cases hrec : members d n [] (behindSeparator d rest) with
  | error x => simp [hrec, Except.map] at h2
  | ok p =>
    obtain ⟨out', r'⟩ := p
    obtain ⟨rfl, rfl⟩ : o' ++ out' = out ∧ r' = r := by simpa [hrec, Except.map] using h2
    refine ⟨o, rest, out', hm, hrec, ?_⟩
    rcases rest with _ | ⟨b, rest⟩
    · obtain rfl : o = o' := by simpa [vkSeparator] using (by simpa [vkSeparator] using hsep : _ ∧ _).1
      simp
    · by_cases hb : b = d.vkSeparator
      · simp only [vkSeparator, if_pos hb, Except.ok.injEq, Prod.mk.injEq] at hsep
        simp [hb, ← hsep.1]
      · simp only [vkSeparator, if_neg hb, Except.ok.injEq, Prod.mk.injEq] at hsep
        simp [hb, ← hsep.1]

/-- Where no member ends at the end of the text, the loop stays in the range. -/
theorem refines_members {d : ObjectDeserializer} (n : Nat) (ret : Bytes) (cur : Cursor)
    (hn : e - cur.pos ≤ n) (hp : cur.pos ≤ e) (hs : cur.seen ≤ e)
    (h : ¬EndsInMember d (slice buf cur.pos e)) :
    RefinesAt buf e cur (d.deserializeMembers buf e n ret) (members d n ret) := by
  induction n generalizing ret cur with
  | zero => exact RefinesAt.pure ret hp hs
  | succ n ih =>
    refine (RefinesAt.before (f := member d ret >>= fun ret => vkSeparator d ret >>= members d n)
      (fun hlt => ?_) fun _ => RefinesAt.pure ret hp hs).congr rfl
    have hne : slice buf cur.pos e ≠ [] := by simpa [slice_eq_nil_iff] using hlt
    refine (refines_member ret cur hp hs).bind fun ret' c' hle hp' hs' hmember => ?_
    have htakes := takes_of_eq_ok hmember
    have hlen := member_length hmember hne
    have hlt' : c'.pos < e := by
      by_contra hge
      rw [slice_of_le (not_lt.mp hge)] at htakes
      exact h (EndsInMember.last hne htakes)
    refine (refines_vkSeparator ret' hlt' hs').bind fun ret2 c2 hle2 hp2 hs2 hsep => ?_
    simp only [length_slice] at hlen
    refine ih ret2 c2 (by omega) hp2 hs2 fun hends => h ?_
    rw [vkSeparator_rest hsep] at hends
    exact EndsInMember.next hne htakes (by simpa [slice_eq_nil_iff] using hlt') hends

/-- Where a member ends at the end of the text, the loop looks at the byte behind the range, and if
that is the separator it moves past the range. -/
theorem members_outside {d : ObjectDeserializer} (n : Nat) (ret : Bytes) (cur : Cursor)
    (hn : e - cur.pos ≤ n) (hp : cur.pos ≤ e) (hs : cur.seen ≤ e)
    (h : EndsInMember d (slice buf cur.pos e)) :
    ∃ out, members d n ret (slice buf cur.pos e) = .ok (out, []) ∧
      d.deserializeMembers buf e n ret cur =
        if buf e = d.vkSeparator then (.ok (out ++ [comma]), ⟨e + 1, e + 1⟩)
        else (.ok out, ⟨e, e + 1⟩) := by
  induction n generalizing ret cur with
  | zero =>
    rw [slice_of_le (by omega)] at h
    cases h <;> contradiction
  | succ n ih =>
    have hne : slice buf cur.pos e ≠ [] := by cases h <;> assumption
    have hlt : cur.pos < e := by simpa [slice_eq_nil_iff] using hne
    -- one pass of the loop, on the text and in the buffer
    have hpass : ∀ {out rest}, member d ret (slice buf cur.pos e) = .ok (out, rest) →
        ∃ c', rest = slice buf c'.pos e ∧ cur.pos < c'.pos ∧ c'.pos ≤ e ∧ c'.seen ≤ e ∧
          members d (n + 1) ret (slice buf cur.pos e) =
            (vkSeparator d out >>= members d n) rest ∧
          d.deserializeMembers buf e (n + 1) ret cur =
            (d.skipVkSeparator buf out >>= d.deserializeMembers buf e n) c' := by
      intro out rest hm
      obtain ⟨c', hrun, rfl, hle, hp', hs'⟩ := (refines_member ret cur hp hs).run_ok hm
      have hlen := member_length hm hne
      simp only [length_slice] at hlen
      refine ⟨c', rfl, by omega, hp', hs', ?_, ?_⟩
      · simp [members, hne, Lexer.bind_apply, hm]
      · simp [ObjectDeserializer.deserializeMembers, Scan.before, Scan.position, Bind.bind, hlt, hrun]
    cases h with
    | last _ htakes =>
      obtain ⟨out, hm⟩ := member_eq_ok ret htakes
      obtain ⟨c', hnil, -, hp', hs', htext, hscan⟩ := hpass hm
      have hend : c'.pos = e := le_antisymm hp' (slice_eq_nil_iff.mp hnil.symm)
      refine ⟨out, by rw [htext]; simp [Lexer.bind_apply, vkSeparator, members_nil], ?_⟩
      have hseen : max c'.seen (e + 1) = e + 1 := by omega
      rw [hscan]
      simp only [Bind.bind, skipVkSeparator_run, hend, hseen]
      by_cases hvk : buf e = d.vkSeparator
      · simp only [if_pos hvk]
        exact deserializeMembers_done n _ (Nat.le_succ e)
      · simp only [if_neg hvk]
        exact deserializeMembers_done n _ le_rfl
    | next _ htakes hrest hends =>
      obtain ⟨out, hm⟩ := member_eq_ok ret htakes
      obtain ⟨c', rfl, hgt, hp', hs', htext, hscan⟩ := hpass hm
      have hlt' : c'.pos < e := by simpa [slice_eq_nil_iff] using hrest
      obtain ⟨out2, hsep⟩ := vkSeparator_ok d out (slice buf c'.pos e)
      obtain ⟨c2, hrun, hrest2, hle2, hp2, hs2⟩ := (refines_vkSeparator out hlt' hs').run_ok hsep
      rw [hrest2] at hends hsep
      obtain ⟨out3, htext3, hscan3⟩ := ih out2 c2 (by omega) hp2 hs2 hends
      refine ⟨out3, ?_, ?_⟩
      · rw [htext, Lexer.bind_apply, hsep]
        exact htext3
      · rw [hscan]
        simp only [Bind.bind, hrun]
        exact hscan3

theorem refines_objectStart {d : ObjectDeserializer} {cur : Cursor} (hp : cur.pos ≤ e)
    (hs : cur.seen ≤ e) (h : d.start = 0 ∨ cur.pos < e) :
    RefinesAt buf e cur (d.checkNSkipHead buf e) (objectStart d) :=
  (refines_startChar hp hs h).bind fun _ c' _ hp' hs' _ => refines_named refines_data c' hp' hs'

theorem refines_object {d : ObjectDeserializer} {cur : Cursor} (hp : cur.pos ≤ e)
    (hs : cur.seen ≤ e) (h : d.start = 0 ∨ cur.pos < e)
    (hends : ∀ t, objectStart d (slice buf cur.pos e) = .ok ((), t) → ¬EndsInMember d t) :
    RefinesAt buf e cur (d.deserialize buf e) (object d) := by
  refine (refines_objectStart hp hs h).bind fun _ c' _ hp' hs' hstart => ?_
  refine RefinesAt.position (RefinesAt.bind (f := allMembers d)
    ((refines_members (e - c'.pos) (lit "\x7b") c' le_rfl hp' hs' (hends _ hstart)).congr
      (by simp [allMembers]))
    fun ret c2 _ hp2 hs2 _ => refines_finish.bind (fun _ => Refines.pure _) c2 hp2 hs2)

/-- Where a member ends at the end of the text, the byte behind the range decides: if it is the
separator, the object is refused, and otherwise it is what the text says. -/
theorem object_outside {d : ObjectDeserializer} {cur : Cursor} {t : Bytes} (hp : cur.pos ≤ e)
    (hs : cur.seen ≤ e) (h : d.start = 0 ∨ cur.pos < e)
    (hstart : objectStart d (slice buf cur.pos e) = .ok ((), t)) (hends : EndsInMember d t) :
    ∃ out, object d (slice buf cur.pos e) = .ok (out, []) ∧
      d.deserialize buf e cur =
        if buf e = d.vkSeparator then (.error d.wrongEnd, ⟨e + 1, e + 1⟩)
        else (.ok out, ⟨e, e + 1⟩) := by
  obtain ⟨c', hrun, rfl, hle, hp', hs'⟩ := (refines_objectStart hp hs h).run_ok hstart
  obtain ⟨out, htext, hscan⟩ :=
    members_outside (e - c'.pos) (lit "\x7b") c' le_rfl hp' hs' hends
  refine ⟨out ++ lit "\x7d", ?_, ?_⟩
  · simp [object, Lexer.bind_apply, hstart, allMembers, htext, finish]
  · simp only [ObjectDeserializer.deserialize, Bind.bind, hrun, Scan.position, hscan]
    by_cases hvk : buf e = d.vkSeparator
    · simp [hvk, checkEnd, Scan.position, Bind.bind, Scan.throw]
    · simp [hvk, checkEnd, Scan.position, Bind.bind, Pure.pure]

end

end OasValidator.Text
