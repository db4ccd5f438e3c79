import OasValidator.Deserializer.Base
import OasValidator.Validators.Store

/-! The query of a request as pairs of a name and a value.  Parameters are located by a search for
their names, and the range of each runs to where the next located parameter starts.  This gives every
parameter its own pair exactly when the query is unambiguous. -/

namespace OasValidator

open Library.Cut Library.Table Library.Scanning

/-! ### The search for a name -/

theorem find_eq_some_iff {needle hay : Bytes} {i : Nat} :
    find needle hay = some i ↔ needle <+: hay.drop i ∧ ∀ j < i, ¬needle <+: hay.drop j := by
  induction hay generalizing i with
  | nil =>
    by_cases hn : needle = []
    · cases i with
      | zero => simp [find, hn]
      | succ i =>
        exact iff_of_false (by simp [find, hn]) fun h => h.2 0 (Nat.succ_pos i) (by simp [hn])
    · simp [find, hn]
  | cons b hay ih =>
    unfold find
    by_cases hpre : needle <+: b :: hay
    · rw [if_pos (List.isPrefixOf_iff_prefix.mpr hpre)]
      cases i with
      | zero => simpa using hpre
      | succ i =>
        simp only [Option.some.injEq, reduceCtorEq, false_iff, not_and, not_forall]
        exact fun _ => ⟨0, Nat.succ_pos i, not_not.mpr hpre⟩
    · rw [if_neg (by simpa using hpre), Option.map_eq_some_iff]
      cases i with
      | zero => simpa using hpre
      | succ i =>
        simp only [Nat.add_right_cancel_iff, exists_eq_right, ih, List.drop_succ_cons]
        refine and_congr_right fun _ => ⟨fun h j hj => ?_, fun h j hj => ?_⟩
        · cases j with
          | zero => exact hpre
          | succ j => exact h j (by omega)
        · exact h (j + 1) (by omega)

theorem find_eq_none_iff {needle hay : Bytes} :
    find needle hay = none ↔ ∀ i, ¬needle <+: hay.drop i := by
  constructor
  · induction hay with
    | nil =>
      intro h i
      by_cases hn : needle = []
      · simp [find, hn] at h
      · simpa using hn
    | cons b hay ih =>
      intro h i
      unfold find at h
      split at h
      · simp at h
      · rename_i hpre
        cases i with
        | zero => simpa using hpre
        | succ i => exact ih (by simpa using h) i
  · intro h
    cases hf : find needle hay with
    | none => rfl
    | some i => exact absurd (find_eq_some_iff.mp hf).1 (h i)

/-- What is found starts no further than the end of the text. -/
theorem find_le_length {needle hay : Bytes} {i : Nat} (h : find needle hay = some i) :
    i ≤ hay.length := by
  by_contra hlt
  obtain ⟨hpre, hfirst⟩ := find_eq_some_iff.mp h
  rw [List.drop_eq_nil_of_le (by omega), List.prefix_nil] at hpre
  exact hfirst hay.length (by omega) (by simp [hpre])

/-! ### Queries -/

/-- The query that joins the pairs. -/
def queryOf (pairs : List Bytes) : Bytes := question :: [ampersand].intercalate pairs

/-- The name stands at the start of the pair with `=` behind it. -/
def Heads (name pair : Bytes) : Prop := ∃ value, pair = name ++ equals :: value

/-- Where a pair starts in the query. -/
def pairStart (pairs : List Bytes) (k : Nat) : Nat := offset pairs k + 1

section

variable {pairs : List Bytes} {p : Bytes} {k : Nat}

/-- A pair stands in the query behind its start, with the end of the query or `&` behind it. -/
theorem drop_pairStart (h : pairs[k]? = some p) :
    ∃ rest, (queryOf pairs).drop (pairStart pairs k) = p ++ rest ∧
      (rest = [] ∧ k + 1 = pairs.length ∨ rest.head? = some ampersand ∧ k + 1 < pairs.length) :=
  drop_offset_of_getElem? ampersand h

theorem prefix_of_heads {name : Bytes} (hk : pairs[k]? = some p) (hp : Heads name p) :
    name <+: (queryOf pairs).drop (pairStart pairs k) := by
  obtain ⟨value, rfl⟩ := hp
  obtain ⟨rest, hdrop, -⟩ := drop_pairStart hk
  exact ⟨equals :: value ++ rest, by rw [hdrop]; simp⟩

theorem pairStart_succ (h : pairs[k]? = some p) :
    pairStart pairs (k + 1) = pairStart pairs k + p.length + 1 := by
  simp only [pairStart, offset_succ h]
  omega

/-- The end of the query is where one more pair would start. -/
theorem pairStart_length (h : k < pairs.length) :
    pairStart pairs pairs.length = (queryOf pairs).length + 1 := by
  have hne : pairs ≠ [] := List.ne_nil_of_length_pos (Nat.zero_lt_of_lt h)
  simp only [pairStart, offset_length ampersand hne, queryOf, List.length_cons]

theorem pairStart_lt {m : Nat} (h : k < m) (hm : m ≤ pairs.length) :
    pairStart pairs k < pairStart pairs m :=
  Nat.succ_lt_succ (offset_lt h hm)

/-- The byte before a pair is `?` or `&`. -/
theorem before_pairStart (h : k < pairs.length) :
    dataOf (queryOf pairs) (offset pairs k) = question ∨
      dataOf (queryOf pairs) (offset pairs k) = ampersand := by
  cases k with
  | zero => exact Or.inl (by simp [dataOf, queryOf])
  | succ k =>
    have hk := List.getElem?_eq_getElem (show k < pairs.length by omega)
    obtain ⟨rest, hdrop, hrest⟩ := drop_pairStart hk
    obtain ⟨hhead, -⟩ := hrest.resolve_left fun hlast => by omega
    refine Or.inr ?_
    have hindex : offset pairs (k + 1) = pairStart pairs k + pairs[k].length := by
      rw [offset_succ hk, pairStart]
      omega
    rw [dataOf, List.getD_eq_getElem?_getD, hindex, ← List.getElem?_drop, hdrop,
      List.getElem?_append_right le_rfl, Nat.sub_self, ← List.head?_eq_getElem?, hhead]
    rfl

theorem pairStart_le (h : k < pairs.length) : pairStart pairs k ≤ (queryOf pairs).length := by
  have := pairStart_lt h le_rfl
  have := pairStart_length h
  omega

/-- A text behind an index, and the byte behind this text. -/
theorem slice_of_drop {t dir rest : Bytes} {n : Nat} (hn : n ≤ t.length)
    (h : t.drop n = dir ++ rest) :
    slice (dataOf t) n (n + dir.length) = dir ∧ dataOf t (n + dir.length) = rest.head?.getD 0 := by
  constructor
  · have hsplit : t = t.take n ++ dir ++ rest := by
      rw [List.append_assoc, ← h, List.take_append_drop]
    have hslice := slice_dataOf (t.take n) dir rest
    rwa [← hsplit, List.length_take, Nat.min_eq_left hn] at hslice
  · rw [dataOf, List.getD_eq_getElem?_getD, ← List.getElem?_drop, h,
      List.getElem?_append_right le_rfl, Nat.sub_self, ← List.head?_eq_getElem?]

/-- The text between the ends of a pair is the pair, and the byte behind it is NUL or `&`. -/
theorem slice_pair (h : pairs[k]? = some p) :
    slice (dataOf (queryOf pairs)) (pairStart pairs k) (pairStart pairs k + p.length) = p ∧
      (dataOf (queryOf pairs) (pairStart pairs k + p.length) = 0 ∨
        dataOf (queryOf pairs) (pairStart pairs k + p.length) = ampersand) := by
  obtain ⟨rest, hdrop, hrest⟩ := drop_pairStart h
  obtain ⟨hslice, hbehind⟩ :=
    slice_of_drop (pairStart_le (List.getElem?_eq_some_iff.mp h).1) hdrop
  refine ⟨hslice, ?_⟩
  rw [hbehind]
  rcases hrest with ⟨rfl, -⟩ | ⟨hhead, -⟩
  · exact Or.inl rfl
  · exact Or.inr (by rw [hhead]; rfl)

/-- The text between the ends of pairs in a row joins them, and the byte behind it is NUL at the end of
the query and `&` elsewhere. -/
theorem slice_block {before own behind : List Bytes} (hown : own ≠ [])
    (hpairs : pairs = before ++ own ++ behind) :
    slice (dataOf (queryOf pairs)) (pairStart pairs before.length)
        (pairStart pairs (before.length + own.length) - 1) = [ampersand].intercalate own ∧
    dataOf (queryOf pairs) (pairStart pairs (before.length + own.length) - 1) =
      if behind = [] then 0 else ampersand := by
  obtain ⟨rest, hdrop, hrest⟩ := @drop_offset_block _ ampersand before own behind hown
  have hblock := @offset_block _ ampersand before own behind hown
  rw [← hpairs] at hdrop hblock
  have hend : pairStart pairs (before.length + own.length) - 1 =
      pairStart pairs before.length + ([ampersand].intercalate own).length := by
    rw [pairStart, pairStart, hblock]
    omega
  have hlt : before.length < pairs.length := by
    have hpos := List.length_pos_iff.mpr hown
    simp only [hpairs, List.length_append]
    omega
  obtain ⟨hslice, hbehind⟩ := slice_of_drop (pairStart_le hlt) hdrop
  rw [hend]
  refine ⟨hslice, hbehind.trans ?_⟩
  rcases hrest with ⟨rfl, rfl⟩ | ⟨hhead, hne⟩
  · rfl
  · rw [hhead, if_neg hne]
    rfl

end

/-! ### The ranges that are cut out -/

open ValidatorsStore

variable {σ : Type}

theorem nextStart_eq_ok_iff {starts : List Nat} {start next : Nat} :
    nextStart starts start = .ok next ↔
      next ∈ starts ∧ start < next ∧ ∀ s ∈ starts, start < s → next ≤ s := by
  have hmin : (starts.filter (start < ·)).min? = some next ↔
      (next ∈ starts ∧ start < next) ∧ ∀ s ∈ starts, start < s → next ≤ s := by
    simp [List.min?_eq_some_iff]
  rw [← and_assoc, ← hmin, nextStart]
  cases (starts.filter (start < ·)).min? <;> simp

/-- Only the elements of the set matter. -/
theorem nextStart_congr {starts starts' : List Nat} (h : ∀ s, s ∈ starts ↔ s ∈ starts')
    (start : Nat) : nextStart starts start = nextStart starts' start := by
  have hiff : ∀ next, nextStart starts start = .ok next ↔ nextStart starts' start = .ok next := by
    intro next
    simp only [nextStart_eq_ok_iff, h]
  have herror : ∀ (l : List Nat) x, nextStart l start = .error x → x = .undefined := by
    intro l x hx
    unfold nextStart at hx
    split at hx
    · simp at hx
    · exact (Except.error.inj hx).symm
  cases hs : nextStart starts start with
  | ok next => exact ((hiff next).mp hs).symm
  | error x =>
    cases hs' : nextStart starts' start with
    | ok next => rw [(hiff next).mpr hs'] at hs; simp at hs
    | error x' => rw [herror _ _ hs, herror _ _ hs']

/-- The set `starts`, when every parameter that occurs in the query is located. -/
def startsOf (infos : List (QueryParamValidatorInfo σ)) (query : Bytes) : List Nat :=
  (query.length + 1) :: infos.filterMap fun info => find info.name query

/-- The ends of the range for a parameter, if the parameter is not treated as missing. -/
def cutRange (infos : List (QueryParamValidatorInfo σ)) (query name : Bytes) :
    Option (Except Fault (Nat × Nat)) :=
  (find name query).map fun start =>
    (nextStart (startsOf infos query) start).map fun next => (start, next - 1)

theorem mem_startsOf {infos : List (QueryParamValidatorInfo σ)} {query : Bytes} {s : Nat} :
    s ∈ startsOf infos query ↔
      s = query.length + 1 ∨ ∃ info ∈ infos, find info.name query = some s := by
  simp [startsOf]

/-- What the loop over the parameters adds to `starts` and to `start_map`. -/
theorem locate_spec {query : Bytes} {infos : List (QueryParamValidatorInfo σ)}
    {starts starts' : List Nat} {startMap startMap' : List (Bytes × Nat)}
    (h : locate query infos starts startMap = .ok (.ok (starts', startMap'))) :
    (∀ s, s ∈ starts' ↔ s ∈ starts ∨ ∃ info ∈ infos, find info.name query = some s) ∧
      ∀ name, startMap'.lookup name = (startMap.lookup name).or
        (if name ∈ infos.map (·.name) then find name query else none) := by
  induction infos generalizing starts startMap with
  | nil =>
    obtain ⟨rfl, rfl⟩ : starts = starts' ∧ startMap = startMap' := by simpa [locate] using h
    simp
  | cons info rest ih =>
    cases hfind : find info.name query with
    | none =>
      have hrest : locate query rest starts startMap = .ok (.ok (starts', startMap')) := by
        simp only [locate, hfind] at h
        split at h
        · simp at h
        · exact h
      obtain ⟨hstarts, hmap⟩ := ih hrest
      refine ⟨fun s => by simp [hstarts, hfind], fun name => ?_⟩
      by_cases hname : name = info.name
      · simp [hmap, hname, hfind]
      · simp [hmap, hname]
    | some i =>
      cases i with
      | zero => simp [locate, hfind] at h
      | succ i =>
        have hrest : locate query rest ((i + 1) :: starts) (emplace info.name (i + 1) startMap) =
            .ok (.ok (starts', startMap')) := by
          simp only [locate, hfind] at h
          split at h
          · simp at h
          · exact h
        obtain ⟨hstarts, hmap⟩ := ih hrest
        refine ⟨fun s => ?_, fun name => ?_⟩
        · simp only [hstarts, List.mem_cons, exists_eq_or_imp, hfind, Option.some.injEq,
            eq_comm (a := s), or_assoc, or_left_comm]
        · rw [hmap, lookup_emplace]
          by_cases hname : name = info.name
          · subst hname
            by_cases hkey : info.name ∈ keys startMap
            · obtain ⟨v, hv⟩ := exists_lookup hkey
              simp [hkey, hv]
            · simp [hkey, lookup_eq_none_iff.mpr hkey, hfind]
          · simp [hname]

/-- Behind the loop, the range of each parameter is the one that `cutRange` says. -/
theorem locate_cutRange {query : Bytes} {infos : List (QueryParamValidatorInfo σ)}
    {starts : List Nat} {startMap : List (Bytes × Nat)}
    (h : locate query infos [] [] = .ok (.ok (starts, startMap)))
    {info : QueryParamValidatorInfo σ} (hinfo : info ∈ infos) :
    ((startMap.lookup info.name).map fun start =>
      (nextStart ((query.length + 1) :: starts) start).map fun next => (start, next - 1)) =
      cutRange infos query info.name := by
  obtain ⟨hstarts, hmap⟩ := locate_spec h
  have hlookup : startMap.lookup info.name = find info.name query := by
    rw [hmap, if_pos (List.mem_map_of_mem hinfo)]
    rfl
  have hmem : ∀ s, s ∈ (query.length + 1) :: starts ↔ s ∈ startsOf infos query := by
    intro s
    simp [mem_startsOf, hstarts]
  rw [cutRange, hlookup]
  simp only [nextStart_congr hmem]

/-! ### When the ranges are the pairs -/

/-- The parameters treated as missing are those whose names head no pair, and the range of every
other one is the pair that its name heads. -/
structure RangesExact (infos : List (QueryParamValidatorInfo σ)) (pairs : List Bytes) : Prop where
  missing : ∀ info ∈ infos, cutRange infos (queryOf pairs) info.name = none ↔
    ∀ p ∈ pairs, ¬Heads info.name p
  range : ∀ info ∈ infos, ∀ k p, pairs[k]? = some p → Heads info.name p →
    cutRange infos (queryOf pairs) info.name =
      some (.ok (pairStart pairs k, pairStart pairs k + p.length))

/-- The declared names occur in the query nowhere before the pairs that they head, those that head
none occur nowhere, and behind a pair that a declared name heads there is the end of the query or
another such pair. -/
structure Unambiguous (names pairs : List Bytes) : Prop where
  absent : ∀ name ∈ names, (∀ p ∈ pairs, ¬Heads name p) → ¬name <:+: queryOf pairs
  first : ∀ name ∈ names, ∀ k p, pairs[k]? = some p → Heads name p →
    ∀ j < pairStart pairs k, ¬name <+: (queryOf pairs).drop j
  next : ∀ name ∈ names, ∀ k p q, pairs[k]? = some p → Heads name p → pairs[k + 1]? = some q →
    ∃ name' ∈ names, Heads name' q

section

variable {infos : List (QueryParamValidatorInfo σ)} {query : Bytes} {pairs : List Bytes}

theorem cutRange_eq_none_iff {name : Bytes} :
    cutRange infos query name = none ↔ find name query = none := by
  simp [cutRange]

theorem cutRange_eq_ok_iff {name : Bytes} {start end_ : Nat} :
    cutRange infos query name = some (.ok (start, end_)) ↔
      find name query = some start ∧
        nextStart (startsOf infos query) start = .ok (end_ + 1) := by
  simp only [cutRange, Option.map_eq_some_iff, map_eq_ok_iff, Prod.mk.injEq]
  constructor
  · rintro ⟨_, hfind, next, hnext, rfl, rfl⟩
    have := (nextStart_eq_ok_iff.mp hnext).2.1
    rw [Nat.sub_add_cancel (by omega)]
    exact ⟨hfind, hnext⟩
  · rintro ⟨hfind, hnext⟩
    exact ⟨start, hfind, end_ + 1, hnext, rfl, rfl⟩

theorem not_infix_iff {name : Bytes} :
    ¬name <:+: query ↔ ∀ i, ¬name <+: query.drop i := by
  constructor
  · intro h i hi
    exact h (hi.isInfix.trans (List.drop_suffix i query).isInfix)
  · rintro h ⟨before, behind, rfl⟩
    exact h before.length ⟨behind, by simp⟩

/-- A name of an unambiguous query is found where the pair starts that it heads. -/
theorem Unambiguous.find_eq {names : List Bytes} (h : Unambiguous names pairs) {name : Bytes}
    (hname : name ∈ names) {k : Nat} {p : Bytes} (hk : pairs[k]? = some p) (hp : Heads name p) :
    find name (queryOf pairs) = some (pairStart pairs k) :=
  find_eq_some_iff.mpr ⟨prefix_of_heads hk hp, h.first name hname k p hk hp⟩

/-- What is found in an unambiguous query is the name of a pair. -/
theorem Unambiguous.heads_of_find {names : List Bytes} (h : Unambiguous names pairs) {name : Bytes}
    (hname : name ∈ names) {i : Nat} (hi : find name (queryOf pairs) = some i) :
    ∃ k p, pairs[k]? = some p ∧ Heads name p ∧ i = pairStart pairs k := by
  by_cases hheads : ∃ p ∈ pairs, Heads name p
  · obtain ⟨p, hmem, hp⟩ := hheads
    obtain ⟨k, hk⟩ := List.mem_iff_getElem?.mp hmem
    rw [h.find_eq hname hk hp] at hi
    exact ⟨k, p, hk, hp, (Option.some.inj hi).symm⟩
  · have hnone := find_eq_none_iff.mpr
      (not_infix_iff.mp (h.absent name hname (by simpa using hheads)))
    rw [hnone] at hi
    simp at hi

/-- Where a pair of an unambiguous query ends, the next located parameter starts or the query
ends. -/
theorem Unambiguous.nextStart_eq (h : Unambiguous (infos.map (·.name)) pairs)
    {info : QueryParamValidatorInfo σ} (hinfo : info ∈ infos) {k : Nat} {p : Bytes}
    (hk : pairs[k]? = some p) (hp : Heads info.name p) :
    nextStart (startsOf infos (queryOf pairs)) (pairStart pairs k) =
      .ok (pairStart pairs k + p.length + 1) := by
  have hlt : k < pairs.length := (List.getElem?_eq_some_iff.mp hk).1
  rw [← pairStart_succ hk, nextStart_eq_ok_iff]
  refine ⟨?_, pairStart_lt (Nat.lt_succ_self k) hlt, ?_⟩
  · rw [mem_startsOf]
    by_cases hlast : k + 1 = pairs.length
    · exact Or.inl (hlast ▸ pairStart_length hlt)
    · have hq := List.getElem?_eq_getElem (show k + 1 < pairs.length by omega)
      obtain ⟨name', hname', hheads⟩ := h.next info.name (List.mem_map_of_mem hinfo) k p _ hk hp hq
      obtain ⟨info', hinfo', rfl⟩ := List.mem_map.mp hname'
      exact Or.inr ⟨info', hinfo', h.find_eq hname' hq hheads⟩
  · intro s hs hgt
    rcases mem_startsOf.mp hs with rfl | ⟨info', hinfo', hfind⟩
    · rw [← pairStart_length hlt]
      rcases Nat.lt_or_ge (k + 1) pairs.length with hm | hm
      · exact (pairStart_lt hm le_rfl).le
      · rw [show k + 1 = pairs.length by omega]
    · obtain ⟨m, q, hm, -, rfl⟩ := h.heads_of_find (List.mem_map_of_mem hinfo') hfind
      have hmlt : m < pairs.length := (List.getElem?_eq_some_iff.mp hm).1
      by_contra hle
      rcases Nat.lt_trichotomy m k with hmk | rfl | hkm
      · have := pairStart_lt hmk hlt.le
        omega
      · omega
      · rcases Nat.lt_or_ge (k + 1) m with hkm' | hkm'
        · have := pairStart_lt hkm' hmlt.le
          omega
        · rw [show m = k + 1 by omega] at hle
          omega

/-- The ranges are the pairs exactly when the query is unambiguous. -/
theorem rangesExact_iff : RangesExact infos pairs ↔ Unambiguous (infos.map (·.name)) pairs := by
  constructor
  · intro h
    refine ⟨?_, ?_, ?_⟩
    · intro name hname hnone
      obtain ⟨info, hinfo, rfl⟩ := List.mem_map.mp hname
      rw [not_infix_iff, ← find_eq_none_iff, ← @cutRange_eq_none_iff _ infos]
      exact (h.missing info hinfo).mpr hnone
    · intro name hname k p hk hp
      obtain ⟨info, hinfo, rfl⟩ := List.mem_map.mp hname
      exact (find_eq_some_iff.mp (cutRange_eq_ok_iff.mp (h.range info hinfo k p hk hp)).1).2
    · intro name hname k p q hk hp hq
      obtain ⟨info, hinfo, rfl⟩ := List.mem_map.mp hname
      have hnext := (cutRange_eq_ok_iff.mp (h.range info hinfo k p hk hp)).2
      have hlt : k + 1 < pairs.length := (List.getElem?_eq_some_iff.mp hq).1
      rw [← pairStart_succ hk] at hnext
      rcases mem_startsOf.mp (nextStart_eq_ok_iff.mp hnext).1 with hend | ⟨info', hinfo', hfind⟩
      · have := pairStart_length hlt
        have := pairStart_lt hlt le_rfl
        omega
      · -- the parameter found there heads some pair, and no other pair starts there
        refine ⟨info'.name, List.mem_map_of_mem hinfo', ?_⟩
        have hsome : ¬∀ p ∈ pairs, ¬Heads info'.name p := by
          rw [← h.missing info' hinfo', cutRange_eq_none_iff, hfind]
          simp
        obtain ⟨r, hmem, hr⟩ : ∃ r ∈ pairs, Heads info'.name r := by simpa using hsome
        obtain ⟨m, hm⟩ := List.mem_iff_getElem?.mp hmem
        have hfind' := (cutRange_eq_ok_iff.mp (h.range info' hinfo' m r hm hr)).1
        rw [hfind] at hfind'
        have hoff : offset pairs (k + 1) = offset pairs m := by
          simpa [pairStart] using hfind'
        obtain rfl := offset_inj hlt (List.getElem?_eq_some_iff.mp hm).1 hoff
        rw [hm] at hq
        exact Option.some.inj hq ▸ hr
  · intro h
    refine ⟨fun info hinfo => ?_, fun info hinfo k p hk hp => ?_⟩
    · have hname : info.name ∈ infos.map (·.name) := List.mem_map_of_mem hinfo
      rw [cutRange_eq_none_iff]
      constructor
      · intro hnone p hmem hp
        obtain ⟨k, hk⟩ := List.mem_iff_getElem?.mp hmem
        rw [h.find_eq hname hk hp] at hnone
        simp at hnone
      · intro hheads
        exact find_eq_none_iff.mpr (not_infix_iff.mp (h.absent _ hname hheads))
    · rw [cutRange_eq_ok_iff]
      exact ⟨h.find_eq (List.mem_map_of_mem hinfo) hk hp, h.nextStart_eq hinfo hk hp⟩

end

end OasValidator
