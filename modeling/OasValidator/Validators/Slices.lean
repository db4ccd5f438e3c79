import OasValidator.Validators.Query

/-! The ranges that the second loop over the query parameters passes on.  Behind a first loop that ran
to its end they lie in the query and are disjoint, and each ends where the query does or at the byte in
front of the next located parameter. -/

namespace OasValidator

open Library.Table

namespace ValidatorsStore

variable {σ : Type}

/-- The ends of the range that the second loop takes for a name, if the name was located. -/
def rangeOf (starts : List Nat) (startMap : List (Bytes × Nat)) (name : Bytes) :
    Option (Except Fault (Nat × Nat)) :=
  (startMap.lookup name).map fun start =>
    (nextStart starts start).map fun next => (start, next - 1)

/-- One turn of the second loop. -/
theorem checkQueryParams_cons (rj : RapidJson σ) (query : Bytes) (starts : List Nat)
    (startMap : List (Bytes × Nat)) (info : QueryParamValidatorInfo σ)
    (rest : List (QueryParamValidatorInfo σ)) (errorMsg : Bytes) :
    checkQueryParams rj query starts startMap (info :: rest) errorMsg =
      match rangeOf starts startMap info.name with
      | none =>
        if info.validator.required then
          .ok ⟨info.validator.codeOnError, info.validator.errorOnMissing, info :: rest⟩
        else do
          let cs ← checkQueryParams rj query starts startMap rest errorMsg
          pure (cs.map (info :: ·))
      | some range => (do
        let ends ← range
        let c ← info.validator.validateParam rj (dataOf query) ends.1 ends.2 errorMsg
        let info := { info with validator := c.after }
        if c.code = .NONE then
          let cs ← checkQueryParams rj query starts startMap rest c.errorMsg
          pure (cs.map (info :: ·))
        else pure ⟨c.code, c.errorMsg, info :: rest⟩) := by
  cases hlookup : startMap.lookup info.name with
  | none => simp only [checkQueryParams, rangeOf, hlookup, Option.map_none]
  | some start =>
    simp only [checkQueryParams, rangeOf, hlookup, Option.map_some]
    cases nextStart starts start <;> rfl

end ValidatorsStore

open ValidatorsStore

section

variable {σ : Type} {infos : List (QueryParamValidatorInfo σ)} {query : Bytes}

/-- The name was found behind `?` or `&`. -/
def Led (query name : Bytes) (start : Nat) : Prop :=
  find name query = some start ∧ 1 ≤ start ∧
    (dataOf query (start - 1) = question ∨ dataOf query (start - 1) = ampersand)

/-- Every name that the first loop finds is led by `?` or `&` when the loop runs to its end. -/
theorem led_of_locate {starts starts' : List Nat} {startMap startMap' : List (Bytes × Nat)}
    (h : locate query infos starts startMap = .ok (.ok (starts', startMap')))
    {info : QueryParamValidatorInfo σ} (hinfo : info ∈ infos) {start : Nat}
    (hfind : find info.name query = some start) : Led query info.name start := by
  induction infos generalizing starts startMap with
  | nil => simp at hinfo
  | cons first rest ih =>
    rcases List.mem_cons.mp hinfo with rfl | hrest
    · cases start with
      | zero => simp [locate, hfind] at h
      | succ start =>
        refine ⟨hfind, Nat.succ_pos start, ?_⟩
        simp only [locate, hfind] at h
        split at h
        · simp at h
        · rename_i hbyte
          rw [Nat.add_sub_cancel]
          exact Decidable.or_iff_not_not_and_not.mpr hbyte
    · unfold locate at h
      split at h
      · split at h
        · simp at h
        · exact ih h hrest
      · simp at h
      · split at h
        · simp at h
        · exact ih h hrest

/-- The next greater element exists for every element but the sentinel. -/
theorem exists_nextStart {starts : List Nat} {start above : Nat} (habove : above ∈ starts)
    (hlt : start < above) : ∃ next, nextStart starts start = .ok next := by
  have hmem : above ∈ starts.filter (start < ·) := by simp [habove, hlt]
  unfold nextStart
  cases hmin : (starts.filter (start < ·)).min? with
  | none =>
    rw [List.min?_eq_none_iff] at hmin
    simp [hmin] at hmem
  | some next => exact ⟨next, rfl⟩

/-- The range lies in the query, no subtraction on its way goes below zero, and it ends where the query
does or at the `?` or `&` in front of a located parameter. -/
structure Slice (infos : List (QueryParamValidatorInfo σ)) (query : Bytes) (starts : List Nat)
    (start end_ : Nat) : Prop where
  next : nextStart starts start = .ok (end_ + 1)
  pos : 1 ≤ start
  le : start ≤ end_
  inside : end_ ≤ query.length
  ends : end_ = query.length ∨
    (∃ info ∈ infos, Led query info.name (end_ + 1)) ∧
      (dataOf query end_ = question ∨ dataOf query end_ = ampersand)

/-- The range of every located parameter is a slice. -/
theorem slice_of_cutRange {starts starts' : List Nat} {startMap startMap' : List (Bytes × Nat)}
    (h : locate query infos starts startMap = .ok (.ok (starts', startMap')))
    {info : QueryParamValidatorInfo σ} (hinfo : info ∈ infos) {start : Nat}
    (hfind : find info.name query = some start) :
    ∃ end_, Slice infos query (startsOf infos query) start end_ := by
  have hled := led_of_locate h hinfo hfind
  have hlast : query.length + 1 ∈ startsOf infos query := mem_startsOf.mpr (Or.inl rfl)
  obtain ⟨next, hnext⟩ := exists_nextStart hlast (Nat.lt_succ_of_le (find_le_length hfind))
  obtain ⟨hmem, hlt, hmin⟩ := nextStart_eq_ok_iff.mp hnext
  have hend : next - 1 + 1 = next := Nat.sub_add_cancel (by omega)
  have hbound : next ≤ query.length + 1 := hmin _ hlast (Nat.lt_succ_of_le (find_le_length hfind))
  refine ⟨next - 1, hend.symm ▸ hnext, hled.2.1, by omega, by omega, ?_⟩
  rcases mem_startsOf.mp hmem with rfl | ⟨info', hinfo', hfind'⟩
  · exact Or.inl rfl
  · -- the byte in front of the next located parameter is the one that the first loop looked at
    have hled' := led_of_locate h hinfo' hfind'
    exact Or.inr ⟨⟨info', hinfo', hend.symm ▸ hled'⟩, hled'.2.2⟩

/-- Slices from different starts do not overlap: the next start stands between them. -/
theorem Slice.disjoint {starts : List Nat} {start end_ start' end' : Nat}
    (h : Slice infos query starts start end_) (h' : Slice infos query starts start' end')
    (hmem : start ∈ starts) (hmem' : start' ∈ starts) (hne : start ≠ start') :
    end_ ≤ start' ∨ end' ≤ start := by
  rcases Nat.lt_or_gt_of_ne hne with hlt | hlt
  · have := (nextStart_eq_ok_iff.mp h.next).2.2 start' hmem' hlt
    omega
  · have := (nextStart_eq_ok_iff.mp h'.next).2.2 start hmem hlt
    omega

/-- When the first loop runs to its end, every range that the second loop takes is a slice of the
query, and slices from different starts are disjoint. -/
theorem ranges_are_slices {starts : List Nat} {startMap : List (Bytes × Nat)}
    (h : locate query infos [] [] = .ok (.ok (starts, startMap))) :
    (∀ info ∈ infos, ∀ range, rangeOf ((query.length + 1) :: starts) startMap info.name = some range →
      ∃ start end_, range = .ok (start, end_) ∧
        Slice infos query ((query.length + 1) :: starts) start end_) ∧
    ∀ info ∈ infos, ∀ info' ∈ infos, ∀ start end_ start' end',
      rangeOf ((query.length + 1) :: starts) startMap info.name = some (.ok (start, end_)) →
      rangeOf ((query.length + 1) :: starts) startMap info'.name = some (.ok (start', end')) →
      start ≠ start' → end_ ≤ start' ∨ end' ≤ start := by
  have hrange : ∀ info ∈ infos, rangeOf ((query.length + 1) :: starts) startMap info.name =
      cutRange infos query info.name := fun info hinfo => locate_cutRange h hinfo
  have hends : ∀ s, nextStart ((query.length + 1) :: starts) s = nextStart (startsOf infos query) s :=
    nextStart_congr fun s => by simp [mem_startsOf, (locate_spec h).1]
  have hslice : ∀ info ∈ infos, ∀ range, cutRange infos query info.name = some range →
      ∃ start end_, range = .ok (start, end_) ∧ start ∈ startsOf infos query ∧
        Slice infos query (startsOf infos query) start end_ := by
    intro info hinfo range hcut
    obtain ⟨start, hfind, rfl⟩ := Option.map_eq_some_iff.mp hcut
    obtain ⟨end_, hslice⟩ := slice_of_cutRange h hinfo hfind
    refine ⟨start, end_, ?_, mem_startsOf.mpr (Or.inr ⟨info, hinfo, hfind⟩), hslice⟩
    rw [hslice.next]
    rfl
  constructor
  · intro info hinfo range hr
    rw [hrange info hinfo] at hr
    obtain ⟨start, end_, rfl, -, hs⟩ := hslice info hinfo range hr
    exact ⟨start, end_, rfl, (hends start).trans hs.next, hs.pos, hs.le, hs.inside, hs.ends⟩
  · intro info hinfo info' hinfo' start end_ start' end' hr hr' hne
    rw [hrange info hinfo] at hr
    rw [hrange info' hinfo'] at hr'
    obtain ⟨_, _, he, hmem, hs⟩ := hslice info hinfo _ hr
    obtain ⟨_, _, he', hmem', hs'⟩ := hslice info' hinfo' _ hr'
    cases he
    cases he'
    exact hs.disjoint hs' hmem hmem' hne

end

/-- A validator of an optional integer. -/
def integerParam (name : Bytes) : QueryParamValidatorInfo Unit where
  name := name
  validator :=
    { codeOnError := .INVALID_QUERY_PARAM, errHeader := [], validator := (), name := name,
      required := false, deserializer := .primitive ⟨⟨name, 0, true⟩, .INTEGER⟩, emptyAllowed := false }

theorem ranges_of_two :
    ∃ start end_, (.ok (1, 7) : Except Fault (Nat × Nat)) = .ok (start, end_) ∧
      Slice [integerParam (lit "size"), integerParam (lit "sort")] (lit "?sort=2&size=1")
        (15 :: [1, 8]) start end_ := by
  have located : locate (lit "?sort=2&size=1")
      [integerParam (lit "size"), integerParam (lit "sort")] [] [] =
      .ok (.ok ([1, 8], [(lit "size", 8), (lit "sort", 1)])) := by decide
  exact (ranges_are_slices located).1
    (integerParam (lit "sort")) (by simp) (.ok (1, 7)) (by decide)

end OasValidator
