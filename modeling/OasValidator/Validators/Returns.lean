import OasValidator.Validators.ErrorTrees
import OasValidator.Validators.Rest
import OasValidator.Validators.Slices
import OasValidator.Validators.Verdict

/-! Checks that return.  A deserializer throws its own exception only, as nothing that a parameter can
start with stands behind a range, and no table is asked for a key that it lacks.  What is left are trees
of errors that the code cannot go through, and the look at the byte in front of a name of a query
parameter, where a query may start with the name. -/

namespace OasValidator

open Library.Table

/-- A check hands back a code. -/
def Returns {τ : Type} (r : Except Fault (Checked τ)) : Prop := ∃ c, r = .ok c

/-- A check hands back a code, but where it breaks: what it does there has no defined behaviour. -/
def EndsBy {τ : Type} (breaks : Prop) (r : Except Fault (Checked τ)) : Prop :=
  (breaks → r = .error .undefined) ∧ (¬breaks → Returns r)

namespace EndsBy

variable {τ υ : Type} {x : τ} {breaks breaks' : Prop} {r : Except Fault (Checked τ)}

theorem ok (c : Checked τ) : EndsBy False (.ok c) := ⟨False.elim, fun _ => ⟨c, rfl⟩⟩

theorem congr (h : EndsBy breaks r) (hiff : breaks ↔ breaks') : EndsBy breaks' r := by
  rwa [← propext hiff]

theorem map (h : EndsBy breaks r) (f : τ → υ) :
    EndsBy breaks (r >>= fun c => pure (c.map f)) := by
  refine ⟨fun hbreaks => ?_, fun hbreaks => ?_⟩
  · rw [h.1 hbreaks]
    rfl
  · obtain ⟨c, rfl⟩ := h.2 hbreaks
    exact ⟨_, rfl⟩

/-- A check, and what is done behind it if it passes. -/
theorem turn (h : EndsBy breaks r) {f : Checked τ → Except Fault (Checked υ)} {g : Checked τ → Checked υ}
    (hnext : ∀ c, r = .ok c → EndsBy breaks' (f c)) :
    EndsBy (breaks ∨ Passes r ∧ breaks')
      (r >>= fun c => if c.code = .NONE then f c else pure (g c)) := by
  by_cases hbreaks : breaks
  · rw [h.1 hbreaks]
    exact ⟨fun _ => rfl, fun hnot => absurd (Or.inl hbreaks) hnot⟩
  · obtain ⟨c, rfl⟩ := h.2 hbreaks
    have hrun : ((Except.ok c : Except Fault (Checked τ)) >>= fun c =>
        if c.code = .NONE then f c else pure (g c)) = if c.code = .NONE then f c else pure (g c) := rfl
    rw [hrun]
    by_cases hcode : c.code = .NONE
    · have hpasses : Passes (Except.ok c : Except Fault (Checked τ)) := ⟨c, rfl, hcode⟩
      rw [if_pos hcode]
      exact (hnext c rfl).congr (by simp [hbreaks, hpasses])
    · have hpasses : ¬Passes (Except.ok c : Except Fault (Checked τ)) := by
        rintro ⟨c', hc', hcode'⟩
        obtain rfl := Except.ok.inj hc'
        exact hcode hcode'
      rw [if_neg hcode]
      exact (EndsBy.ok _).congr (by simp [hbreaks, hpasses])

/-- Another check of the same things behind a check that passes. -/
theorem andThen (h : EndsBy breaks r) (hkeeps : Keeps x r)
    {next : τ → Bytes → Except Fault (Checked τ)}
    (hnext : ∀ errorMsg, EndsBy breaks' (next x errorMsg)) :
    EndsBy (breaks ∨ Passes r ∧ breaks') (Checked.andThen r next) :=
  h.turn (g := id) fun c hc => by
    rw [hkeeps c hc]
    exact hnext c.errorMsg

end EndsBy

/-- The first part that does not pass breaks. -/
def FirstBreaks {α : Type} (breaks passes : α → Prop) : List α → Prop
  | [] => False
  | part :: rest => breaks part ∨ passes part ∧ FirstBreaks breaks passes rest

theorem not_firstBreaks {α : Type} {breaks passes : α → Prop} {parts : List α}
    (h : ∀ part ∈ parts, ¬breaks part) : ¬FirstBreaks breaks passes parts := by
  induction parts with
  | nil => exact not_false
  | cons part rest ih =>
    obtain ⟨hpart, hrest⟩ := List.forall_mem_cons.mp h
    rintro (hbreaks | ⟨-, hbreaks⟩)
    · exact hpart hbreaks
    · exact ih hrest hbreaks

/-! ### Ranges -/

/-- A range that starts no further than it ends, with the end of the buffer or one of the bytes behind
it that ranges end at. -/
structure Bounded (buf : Nat → UInt8) (beg end_ : Nat) : Prop where
  le : beg ≤ end_
  behind : buf end_ = 0 ∨ buf end_ = slash ∨ buf end_ = question ∨ buf end_ = ampersand

/-- The parameter starts with nothing, `.` or `;`. -/
def StartsPlain (d : Deserializer) : Prop :=
  d.toBase.start = 0 ∨ d.toBase.start = '.'.toUInt8 ∨ d.toBase.start = ';'.toUInt8

theorem getDeserializer_startsPlain {paramVal : Json} {defaultStyle : Bytes}
    {defaultExplode : Bool} {refKeys : List Bytes} {d : Deserializer}
    (h : getDeserializer paramVal defaultStyle defaultExplode refKeys = .ok d) : StartsPlain d := by
  obtain ⟨-, style, hstart⟩ := getDeserializer_base h
  rw [StartsPlain, hstart]
  cases style <;> decide

theorem getParamInfo_startsPlain {paramVal : Json} {style : Bytes} {explode required : Bool}
    {refKeys : List Bytes} {info : ParamInfo}
    (h : getParamInfo paramVal style explode required refKeys = .ok info) :
    StartsPlain info.deserializer :=
  getDeserializer_startsPlain (getParamInfo_eq_ok h).2

/-- What a deserializer does on such a range is to return or to throw its own exception. -/
theorem Bounded.exception {buf : Nat → UInt8} {beg end_ : Nat} (h : Bounded buf beg end_)
    {d : Deserializer} (hd : StartsPlain d) {x : DeserializeError}
    (hx : (d.deserialize buf beg end_).1 = .error x) : x ≠ .lengthError := by
  have hstart : d.toBase.start = 0 ∨ beg < end_ ∨ buf beg ≠ d.toBase.start := by
    rcases Nat.lt_or_ge beg end_ with hlt | hge
    · exact Or.inr (Or.inl hlt)
    · obtain rfl : beg = end_ := Nat.le_antisymm h.le hge
      rcases hd with hd | hd | hd
      · exact Or.inl hd
      · refine Or.inr (Or.inr ?_)
        rw [hd]
        rcases h.behind with hb | hb | hb | hb <;> (rw [hb]; decide)
      · refine Or.inr (Or.inr ?_)
        rw [hd]
        rcases h.behind with hb | hb | hb | hb <;> (rw [hb]; decide)
  exact (deserialize_named h.le hstart hx).ne_lengthError

section

variable {σ : Type} {rj : RapidJson σ}

/-! ### One check -/

/-- The validator gets a tree of errors that it cannot write for the document in the text. -/
def JsonValidator.BreaksOn (rj : RapidJson σ) (v : JsonValidator σ) (jsonStr : Bytes) : Prop :=
  ∃ doc, rj.parse (cstr jsonStr) = .ok doc ∧ (rj.accept v.validator doc).1 = false ∧
    ¬Writable (rj.getError (rj.accept v.validator doc).2)

/-- The validator can write the tree of errors of each value that it rejects. -/
def JsonValidator.WritesErrors (rj : RapidJson σ) (v : JsonValidator σ) : Prop :=
  ∀ value, (rj.accept v.validator value).1 = false →
    Writable (rj.getError (rj.accept v.validator value).2)

/-- An empty tree can be written. -/
theorem plain_writesErrors (v : JsonValidator Json) : v.WritesErrors RapidJson.plain := by
  intro value _
  refine .object ?_ ?_ ?_
  · simp
  · simp [errorsOf]
  · simp [errorsOf]

def ParamValidator.BreaksOn (rj : RapidJson σ) (v : ParamValidator σ) (buf : Nat → UInt8)
    (beg end_ : Nat) : Prop :=
  ∃ out, (v.deserializer.deserialize buf beg end_).1 = .ok out ∧ v.toJsonValidator.BreaksOn rj out

theorem JsonValidator.WritesErrors.not_breaksOn {v : JsonValidator σ} (h : v.WritesErrors rj)
    (jsonStr : Bytes) : ¬v.BreaksOn rj jsonStr := by
  rintro ⟨doc, -, hreject, htree⟩
  exact htree (h doc hreject)

theorem ParamValidator.not_breaksOn {v : ParamValidator σ} (h : v.WritesErrors rj)
    (buf : Nat → UInt8) (beg end_ : Nat) : ¬v.BreaksOn rj buf beg end_ := by
  rintro ⟨out, -, hbreaks⟩
  exact h.not_breaksOn out hbreaks

theorem JsonValidator.validate_endsBy (v : JsonValidator σ) (jsonStr errorMsg : Bytes) :
    EndsBy (v.BreaksOn rj jsonStr) (v.validate rj jsonStr errorMsg) := by
  unfold validate BreaksOn
  cases rj.parse (cstr jsonStr) with
  | error e => exact (EndsBy.ok _).congr (by simp)
  | ok doc =>
    simp only [Except.ok.injEq, exists_eq_left']
    cases haccept : (rj.accept v.validator doc).1 with
    | true => exact (EndsBy.ok _).congr (by simp)
    | false =>
      simp only [Bool.false_eq_true, if_false, true_and]
      cases hrun : createErrorMessages rj [] false (rj.getError (rj.accept v.validator doc).2)
          v.errHeader with
      | ok text =>
        have htree := (createErrorMessages_ok_iff rj).mp ⟨text, hrun⟩
        exact (EndsBy.ok _).congr (by simp [htree])
      | error x =>
        obtain rfl := createErrorMessages_undefined rj _ _ _ _ _ hrun
        have htree : ¬Writable (rj.getError (rj.accept v.validator doc).2) := fun h => by
          obtain ⟨text, htext⟩ := (createErrorMessages_ok_iff rj).mpr h
          exact nomatch hrun.symm.trans htext
        exact ⟨fun _ => rfl, fun hnot => absurd htree hnot⟩

theorem ParamValidator.validateParam_endsBy {v : ParamValidator σ} (hstart : StartsPlain v.deserializer)
    {buf : Nat → UInt8} {beg end_ : Nat} (h : Bounded buf beg end_) (errorMsg : Bytes) :
    EndsBy (v.BreaksOn rj buf beg end_) (v.validateParam rj buf beg end_ errorMsg) := by
  unfold validateParam BreaksOn
  cases hrun : (v.deserializer.deserialize buf beg end_).1 with
  | ok out =>
    exact ((JsonValidator.validate_endsBy v.toJsonValidator out errorMsg).map _).congr (by simp)
  | error x =>
    cases x with
    | exception what => exact (EndsBy.ok _).congr (by simp)
    | lengthError => exact absurd rfl (h.exception hstart hrun)

theorem QueryParamValidator.validateParam_endsBy {v : QueryParamValidator σ}
    (hstart : StartsPlain v.deserializer) {buf : Nat → UInt8} {beg end_ : Nat}
    (h : Bounded buf beg end_) (errorMsg : Bytes) :
    EndsBy (v.BreaksOn rj buf beg end_) (v.validateParam rj buf beg end_ errorMsg) :=
  (ParamValidator.validateParam_endsBy hstart h errorMsg).map _

/-! ### The validators of a store -/

/-- The property holds of the validators of all parameters. -/
structure EachParam (P : ParamValidator σ → Prop) (store : ValidatorsStore σ) : Prop where
  path : ∀ info ∈ store.pathParamValidators, P info.validator
  query : ∀ info ∈ store.queryParamValidators, P info.validator.toParamValidator
  header : ∀ p ∈ store.headerParamValidators, P p.2

/-- What holds of every new validator of a parameter holds of all that are added. -/
theorem EachParam.add {P : ParamValidator σ → Prop}
    (hnew : ∀ {paramVal style explode required refKeys info} errCode,
      getParamInfo paramVal style explode required refKeys = .ok info →
        P (.ofInfo rj info refKeys errCode))
    {pathParamIdxs : List (Bytes × Nat)} {refKeys : List Bytes} {paramVal : Json}
    {store store' : ValidatorsStore σ} (hstore : EachParam P store)
    (h : store.addParam rj pathParamIdxs refKeys paramVal = .ok store') : EachParam P store' := by
  obtain ⟨v, name, -, -, hadded⟩ := ValidatorsStore.addParam_added h
  cases hadded with
  | path index built =>
    refine ⟨?_, hstore.query, hstore.header⟩
    intro info hinfo
    rcases List.mem_append.mp hinfo with hinfo | hinfo
    · exact hstore.path info hinfo
    · obtain rfl := List.mem_singleton.mp hinfo
      exact hnew _ built
  | query built =>
    refine ⟨hstore.path, ?_, hstore.header⟩
    intro info hinfo
    rcases List.mem_append.mp hinfo with hinfo | hinfo
    · exact hstore.query info hinfo
    · obtain rfl := List.mem_singleton.mp hinfo
      exact hnew _ built
  | header built =>
    refine ⟨hstore.path, hstore.query, ?_⟩
    intro p hp
    rcases mem_emplace hp with hp | ⟨-, hp⟩
    · exact hstore.header p hp
    · rw [hp]
      exact hnew _ built

/-- The validators of one operation are at rest, and start plainly. -/
structure Guarded (rj : RapidJson σ) (store : ValidatorsStore σ) : Prop where
  rest : store.AtRest rj
  starts : EachParam (fun v => StartsPlain v.deserializer) store

namespace ValidatorsStore

/-- The first loop gets past the parameter. -/
def GetsPast (query : Bytes) (info : QueryParamValidatorInfo σ) : Prop :=
  (find info.name query = none ∧ ¬info.validator.required) ∨
    ∃ start, Led query info.name start

/-- The first loop gets to a parameter with whose name the query starts, and looks at the byte in
front of the query. -/
def LooksBefore (query : Bytes) : List (QueryParamValidatorInfo σ) → Prop
  | [] => False
  | info :: rest => info.name <+: query ∨ (GetsPast query info ∧ LooksBefore query rest)

theorem find_eq_zero_iff {name query : Bytes} : find name query = some 0 ↔ name <+: query := by
  simp [find_eq_some_iff]

theorem locate_spec_iff {query : Bytes} {infos : List (QueryParamValidatorInfo σ)}
    (starts : List Nat) (startMap : List (Bytes × Nat)) :
    (LooksBefore query infos → locate query infos starts startMap = .error .undefined) ∧
      (¬LooksBefore query infos → ∃ located, locate query infos starts startMap = .ok located) := by
  induction infos generalizing starts startMap with
  | nil => exact ⟨fun h => h.elim, fun _ => ⟨_, rfl⟩⟩
  | cons info rest ih =>
    cases hfind : find info.name query with
    | none =>
      have hfront : ¬info.name <+: query := by
        rw [← find_eq_zero_iff, hfind]
        simp
      have hled : ¬∃ start, Led query info.name start := by
        rintro ⟨start, hstart, -⟩
        simp [hfind] at hstart
      by_cases hrequired : info.validator.required
      · simp [locate, hfind, LooksBefore, GetsPast, hrequired, hfront, hled]
      · simpa [locate, hfind, LooksBefore, GetsPast, hrequired, hfront] using ih starts startMap
    | some start =>
      cases start with
      | zero =>
        have hfront : info.name <+: query := find_eq_zero_iff.mp hfind
        simp [locate, hfind, LooksBefore, hfront]
      | succ start =>
        have hfront : ¬info.name <+: query := by
          rw [← find_eq_zero_iff, hfind]
          simp
        by_cases hbyte : dataOf query start = question ∨ dataOf query start = ampersand
        · have hpast : GetsPast query info := Or.inr ⟨start + 1, hfind, Nat.succ_pos start, hbyte⟩
          have hnot : ¬(dataOf query start ≠ question ∧ dataOf query start ≠ ampersand) :=
            Decidable.or_iff_not_not_and_not.mp hbyte
          simp only [locate, hfind, if_neg hnot, LooksBefore, hfront, hpast, false_or, true_and]
          exact ih _ _
        · have hpast : ¬GetsPast query info := by
            rintro (⟨hnone, -⟩ | ⟨start', hstart', -, hbyte'⟩)
            · simp [hfind] at hnone
            · obtain rfl : start + 1 = start' := Option.some.inj (hfind.symm.trans hstart')
              exact hbyte hbyte'
          have hboth : dataOf query start ≠ question ∧ dataOf query start ≠ ampersand :=
            not_or.mp hbyte
          simp [locate, hfind, LooksBefore, hfront, hpast, hboth]

/-- The first loop runs to its end exactly if it gets past every parameter. -/
theorem locate_ok_iff {query : Bytes} {infos : List (QueryParamValidatorInfo σ)} {starts : List Nat}
    {startMap : List (Bytes × Nat)} :
    (∃ located, locate query infos starts startMap = .ok (.ok located)) ↔
      ∀ info ∈ infos, GetsPast query info := by
  induction infos generalizing starts startMap with
  | nil => simp [locate]
  | cons info rest ih =>
    rw [List.forall_mem_cons, locate]
    cases hfind : find info.name query with
    | none =>
      by_cases hrequired : info.validator.required
      · simp [GetsPast, Led, hfind, hrequired]
      · simp [GetsPast, hfind, hrequired, ih]
    | some start =>
      cases start with
      | zero => simp [GetsPast, Led, hfind]
      | succ start =>
        by_cases hbyte : dataOf query start = question ∨ dataOf query start = ampersand
        · have hpast : GetsPast query info := Or.inr ⟨start + 1, hfind, Nat.succ_pos start, hbyte⟩
          simp only [if_neg (Decidable.or_iff_not_not_and_not.mp hbyte), hpast, true_and]
          exact ih
        · simp [GetsPast, Led, hfind, not_or.mp hbyte]

/-! ### Where the checks break -/

section

variable (rj) (store : ValidatorsStore σ)

/-- The body holds a document with a tree of errors that cannot be written. -/
def BodyBreaks (jsonBody : Bytes) : Prop := ∃ v ∈ store.bodyValidator, v.BreaksOn rj jsonBody

/-- The first path parameter that does not pass has a tree of errors that cannot be written. -/
def PathBreaks (buf : Nat → UInt8) (paramIdxs : ParamIdxs) : Prop :=
  FirstBreaks
    (fun info => ∃ range, paramIdxs.lookup info.idx = some range ∧
      info.validator.BreaksOn rj buf range.beg range.end_)
    (fun info => ∃ range, paramIdxs.lookup info.idx = some range ∧
      Passes (info.validator.validateParam rj buf range.beg range.end_ []))
    store.pathParamValidators

/-- The check looks in front of the query, or all names are where they may be and the first query
parameter that does not pass in its range has a tree of errors that cannot be written. -/
def QueryBreaks (query : Bytes) : Prop :=
  LooksBefore query store.queryParamValidators ∨
    (∀ info ∈ store.queryParamValidators, GetsPast query info) ∧
      FirstBreaks
        (fun info => ∃ start end_,
          cutRange store.queryParamValidators query info.name = some (.ok (start, end_)) ∧
            info.validator.BreaksOn rj (dataOf query) start end_)
        (fun info => RangePasses rj query info (cutRange store.queryParamValidators query info.name))
        store.queryParamValidators

/-- The first declared header that is not cleared has a tree of errors that cannot be written. -/
def HeadersBreak (order : Hashing) (headers : List (Bytes × Bytes)) : Prop :=
  FirstBreaks
    (fun name => ∃ v param, store.headerParamValidators.lookup name = some v ∧
      headers.lookup name = some param ∧ v.BreaksOn rj (dataOf param) 0 param.length)
    (fun name => ∃ v, store.headerParamValidators.lookup name = some v ∧
      HeaderCleared rj headers name v)
    (order.iterate (keys store.headerParamValidators))

end

section

variable {store : ValidatorsStore σ}

theorem queryBreaks_iff (h : ∀ info ∈ store.queryParamValidators, info.validator.WritesErrors rj)
    (query : Bytes) : store.QueryBreaks rj query ↔ LooksBefore query store.queryParamValidators := by
  refine or_iff_left ?_
  rintro ⟨-, hbreaks⟩
  refine not_firstBreaks (fun info hinfo => ?_) hbreaks
  rintro ⟨start, end_, -, hbreaks⟩
  exact ParamValidator.not_breaksOn (h info hinfo) _ _ _ hbreaks

theorem not_headersBreak (h : ∀ p ∈ store.headerParamValidators, p.2.WritesErrors rj)
    (order : Hashing) (headers : List (Bytes × Bytes)) : ¬store.HeadersBreak rj order headers := by
  refine not_firstBreaks fun name _ => ?_
  rintro ⟨v, param, hv, -, hbreaks⟩
  exact ParamValidator.not_breaksOn (h _ (mem_of_lookup hv)) _ _ _ hbreaks

/-! ### The checks of a store -/

theorem validateBody_endsBy (store : ValidatorsStore σ) (jsonBody errorMsg : Bytes) :
    EndsBy (store.BodyBreaks rj jsonBody) (store.validateBody rj jsonBody errorMsg) := by
  unfold validateBody BodyBreaks
  cases store.bodyValidator with
  | none => exact (EndsBy.ok _).congr (by simp)
  | some v => exact ((v.validate_endsBy jsonBody errorMsg).map _).congr (by simp)

theorem checkPathParams_endsBy {buf : Nat → UInt8} {paramIdxs : ParamIdxs}
    (hranges : ∀ p ∈ paramIdxs, Bounded buf p.2.beg p.2.end_)
    {infos : List (PathParamValidatorInfo σ)}
    (hinfos : ∀ info ∈ infos, StartsPlain info.validator.deserializer) (errorMsg : Bytes) :
    EndsBy (FirstBreaks
        (fun info => ∃ range, paramIdxs.lookup info.idx = some range ∧
          info.validator.BreaksOn rj buf range.beg range.end_)
        (fun info => ∃ range, paramIdxs.lookup info.idx = some range ∧
          Passes (info.validator.validateParam rj buf range.beg range.end_ [])) infos)
      (checkPathParams rj buf paramIdxs infos errorMsg) := by
  induction infos generalizing errorMsg with
  | nil => exact .ok _
  | cons info rest ih =>
    unfold checkPathParams FirstBreaks
    cases hrange : paramIdxs.lookup info.idx with
    | none => exact (EndsBy.ok _).congr (by simp)
    | some range =>
      have hparam := @ParamValidator.validateParam_endsBy _ rj _ (hinfos info List.mem_cons_self) _ _ _
        (hranges _ (mem_of_lookup hrange)) errorMsg
      have hsame := (info.validator.validateParam_assigns rj buf range.beg range.end_ errorMsg
        []).passes_iff
      refine (hparam.turn (g := fun c => ⟨c.code, c.errorMsg, _⟩) fun c _ =>
        (ih (fun i hi => hinfos i (List.mem_cons_of_mem _ hi)) c.errorMsg).map _).congr ?_
      simp [hsame]

theorem validatePathParams_endsBy (hstore : Guarded rj store) {buf : Nat → UInt8}
    {paramIdxs : ParamIdxs} (hranges : ∀ p ∈ paramIdxs, Bounded buf p.2.beg p.2.end_)
    (errorMsg : Bytes) :
    EndsBy (store.PathBreaks rj buf paramIdxs) (store.validatePathParams rj buf paramIdxs errorMsg) :=
  (checkPathParams_endsBy hranges hstore.starts.path errorMsg).map _

/-- The second loop, behind a first one that ran to its end. -/
theorem checkQueryParams_endsBy {query : Bytes} {infos : List (QueryParamValidatorInfo σ)}
    {starts : List Nat} {startMap : List (Bytes × Nat)}
    (hlocate : locate query infos [] [] = .ok (.ok (starts, startMap)))
    {rest : List (QueryParamValidatorInfo σ)}
    (hrest : ∀ info ∈ rest, info ∈ infos ∧ StartsPlain info.validator.deserializer)
    (errorMsg : Bytes) :
    EndsBy (FirstBreaks
        (fun info => ∃ start end_, cutRange infos query info.name = some (.ok (start, end_)) ∧
          info.validator.BreaksOn rj (dataOf query) start end_)
        (fun info => RangePasses rj query info (cutRange infos query info.name)) rest)
      (checkQueryParams rj query ((query.length + 1) :: starts) startMap rest errorMsg) := by
  induction rest generalizing errorMsg with
  | nil => exact .ok _
  | cons info rest ih =>
    have hnext := ih fun i hi => hrest i (List.mem_cons_of_mem _ hi)
    obtain ⟨hmem, hstart⟩ := hrest info List.mem_cons_self
    have hrange : rangeOf ((query.length + 1) :: starts) startMap info.name =
        cutRange infos query info.name := locate_cutRange hlocate hmem
    rw [checkQueryParams_cons, hrange, FirstBreaks]
    cases hfind : find info.name query with
    | none =>
      rw [cutRange, hfind]
      show EndsBy _ (if info.validator.required then _ else _)
      split
      · rename_i hrequired
        exact (EndsBy.ok _).congr (by simp [RangePasses, hrequired])
      · rename_i hoptional
        exact ((hnext errorMsg).map _).congr (by simp [RangePasses, hoptional])
    | some start =>
      obtain ⟨end_, hslice⟩ := slice_of_cutRange hlocate hmem hfind
      have hbounded : Bounded (dataOf query) start end_ := by
        refine ⟨hslice.le, ?_⟩
        rcases hslice.ends with rfl | ⟨-, hbyte | hbyte⟩
        · exact Or.inl (by simp [dataOf])
        · exact Or.inr (Or.inr (Or.inl hbyte))
        · exact Or.inr (Or.inr (Or.inr hbyte))
      have hcut : cutRange infos query info.name = some (.ok (start, end_)) := by
        rw [cutRange, hfind, Option.map_some, hslice.next]
        rfl
      have hsame := (info.validator.validateParam_assigns rj (dataOf query) start end_ errorMsg
        []).passes_iff
      rw [hcut]
      show EndsBy _ (info.validator.validateParam rj (dataOf query) start end_ errorMsg >>= _)
      refine ((QueryParamValidator.validateParam_endsBy hstart hbounded errorMsg).turn
        (g := fun c => ⟨c.code, c.errorMsg, _⟩) fun c _ => (hnext c.errorMsg).map _).congr ?_
      simp [RangePasses, hsame]

theorem validateQueryParams_endsBy (hstore : Guarded rj store) (query errorMsg : Bytes) :
    EndsBy (store.QueryBreaks rj query) (store.validateQueryParams rj query errorMsg) := by
  obtain ⟨hlooks, hlocated⟩ := @locate_spec_iff _ query store.queryParamValidators [] []
  by_cases h : LooksBefore query store.queryParamValidators
  · have hrun : store.validateQueryParams rj query errorMsg = .error .undefined := by
      rw [validateQueryParams, hlooks h]
      rfl
    exact ⟨fun _ => hrun, fun hnot => absurd (Or.inl h) hnot⟩
  · obtain ⟨located, hlocate⟩ := hlocated h
    rw [validateQueryParams, hlocate]
    match located with
    | .error (code, errorMsg) =>
      have hpast : ¬∀ info ∈ store.queryParamValidators, GetsPast query info := fun hpast => by
        obtain ⟨located, hlocated⟩ := locate_ok_iff.mpr hpast
        exact nomatch Except.ok.inj (hlocate.symm.trans hlocated)
      exact (EndsBy.ok _).congr (by simp [QueryBreaks, h, hpast])
    | .ok (starts, startMap) =>
      have hpast : ∀ info ∈ store.queryParamValidators, GetsPast query info :=
        locate_ok_iff.mp ⟨_, hlocate⟩
      refine ((checkQueryParams_endsBy hlocate (fun info hinfo =>
        ⟨hinfo, hstore.starts.query info hinfo⟩) errorMsg).map _).congr ?_
      exact ⟨fun hbreaks => Or.inr ⟨hpast, hbreaks⟩, fun hbreaks => (hbreaks.resolve_left h).2⟩

/-- The loop over the headers finds a validator under every key. -/
theorem checkHeaderParams_endsBy (hreset : ResetRestores rj) (headers : List (Bytes × Bytes))
    {names : List Bytes} {validators : List (Bytes × ParamValidator σ)}
    (hnames : ∀ name ∈ names, name ∈ keys validators)
    (hvalidators : ∀ p ∈ validators, p.2.AtRest rj ∧ StartsPlain p.2.deserializer)
    (errorMsg : Bytes) :
    EndsBy (FirstBreaks
        (fun name => ∃ v param, validators.lookup name = some v ∧
          headers.lookup name = some param ∧ v.BreaksOn rj (dataOf param) 0 param.length)
        (fun name => ∃ v, validators.lookup name = some v ∧ HeaderCleared rj headers name v) names)
      (checkHeaderParams rj headers names validators errorMsg) := by
  induction names generalizing errorMsg with
  | nil => exact .ok _
  | cons name rest ih =>
    have hnext := ih fun n hn => hnames n (List.mem_cons_of_mem _ hn)
    obtain ⟨validator, hvalidator⟩ := exists_lookup (hnames name List.mem_cons_self)
    obtain ⟨hat, hstart⟩ := hvalidators _ (mem_of_lookup hvalidator)
    unfold checkHeaderParams FirstBreaks
    rw [hvalidator]
    cases hparam : headers.lookup name with
    | none =>
      simp only
      split
      · rename_i hrequired
        exact (EndsBy.ok _).congr (by simp [HeaderCleared, hparam, hrequired])
      · rename_i hoptional
        exact (hnext errorMsg).congr (by simp [HeaderCleared, hparam, hoptional])
    | some param =>
      have hbounded : Bounded (dataOf param) 0 param.length :=
        ⟨Nat.zero_le _, Or.inl (by simp [dataOf])⟩
      have hkeeps := ParamValidator.validateParam_keeps hreset hat (dataOf param) 0 param.length errorMsg
      have hsame := (validator.validateParam_assigns rj (dataOf param) 0 param.length errorMsg
        []).passes_iff
      have hrest : ∀ c, validator.validateParam rj (dataOf param) 0 param.length errorMsg = .ok c →
          EndsBy _ (checkHeaderParams rj headers rest (put name c.after validators) c.errorMsg) :=
        fun c hc => by
          rw [hkeeps c hc, put_of_lookup hvalidator]
          exact hnext c.errorMsg
      refine ((ParamValidator.validateParam_endsBy hstart hbounded errorMsg).turn
        (g := fun c => ⟨c.code, c.errorMsg, put name c.after validators⟩) hrest).congr ?_
      simp [hsame, HeaderCleared, hparam]

theorem validateHeaderParams_endsBy (hreset : ResetRestores rj) (order : Hashing)
    (hstore : Guarded rj store) (headers : List (Bytes × Bytes)) (errorMsg : Bytes) :
    EndsBy (store.HeadersBreak rj order headers)
      (store.validateHeaderParams rj order headers errorMsg) :=
  (checkHeaderParams_endsBy hreset headers
    (fun _ hname => (order.perm _).mem_iff.mp hname)
    (fun p hp => ⟨hstore.rest.header p hp, hstore.starts.header p hp⟩) errorMsg).map _

end

end ValidatorsStore

end

end OasValidator
