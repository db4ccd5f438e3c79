import OasValidator.Imp.Calls
import OasValidator.Imp.Lifetimes

/-! Calls between the copies of objects.  A copy holds the stores of its original, whose
`SchemaValidator`s every call may change, so that the calls of one object could be seen by another.
They are not: as long as no shared store is released, a program answers what it would with copies
that have stores of their own. -/

namespace OasValidator.Sharing

open Library.Table

/-! ### Programs of objects -/

/-- What a copy of an implementation has for itself: all but the stores. -/
structure Tables where
  methodMap : MethodMap := []
  pathTries : HttpMethod → PathTrie.Node := fun _ => {}
  methodValidator : BaseValidator := BaseValidator.plain .INVALID_METHOD

/-- The entries of all maps, in the order in which they are held. -/
def entries {σ : Type} (imp : OASValidatorImp σ) : List ((HttpMethod × Bytes) × ValidatorsStore σ) :=
  httpMethods.flatMap fun method =>
    (imp.oasValidators method).perPathValidators.map fun e => ((method, e.1), e.2)

def tablesOf {σ : Type} (imp : OASValidatorImp σ) : Tables :=
  ⟨imp.methodMap, fun method => (imp.oasValidators method).pathTrie, imp.methodValidator⟩

/-- The objects with what their implementations have for themselves, and the stores under their
identifiers. -/
structure Memory (σ : Type) where
  world : World := {}
  tables : Nat → Tables := fun _ => {}
  stores : Nat → ValidatorsStore σ := fun _ => {}

inductive Op where
  | life (op : Lifetime)
  | call (validator : Nat) (errorMsg : Bytes) (call : Call)

/-- What the program is handed back: nothing, an exception of the constructor, or the code and
`error_msg` of a call. -/
inductive Answer where
  | done
  | threw (error : InitError)
  | answered (code : ValidationError) (errorMsg : Bytes)
  deriving DecidableEq

namespace Memory

variable {σ : Type}

/-- The entries that identifiers stand for. -/
def read (stores : Nat → ValidatorsStore σ) (held : Held) :
    List ((HttpMethod × Bytes) × ValidatorsStore σ) :=
  held.map fun e => (e.1, stores e.2)

/-- An implementation as its tables and the stores that it holds make it. -/
def view (tables : Tables) (found : List ((HttpMethod × Bytes) × ValidatorsStore σ)) :
    OASValidatorImp σ where
  methodMap := tables.methodMap
  oasValidators method :=
    { perPathValidators := found.filterMap fun e => if e.1.1 = method then some (e.1.2, e.2) else none
      pathTrie := tables.pathTries method }
  methodValidator := tables.methodValidator

/-- New stores, under the identifiers from `next` on. -/
def place (stores : Nat → ValidatorsStore σ) (next : Nat) (new : List (ValidatorsStore σ)) :
    Nat → ValidatorsStore σ :=
  fun id => if id < next then stores id else (new[id - next]?).getD (stores id)

section

variable (rj : RapidJson σ) (order : Hashing) (files : Bytes → Option Bytes) (fuel : Nat)
  (m : Memory σ)

/-- What a step in the lives of objects writes, with what it hands back.  Neither copies nor
assignments write a store. -/
def live (world : World) : Lifetime → Memory σ × Answer
  | .construct validator oasSpecs methodMap =>
    match construct rj order files fuel oasSpecs methodMap with
    | some (.ok imp) =>
      ({ world
         tables := Function.update m.tables validator (tablesOf imp)
         stores := place m.stores m.world.allocated ((entries imp).map Prod.snd) }, .done)
    | some (.error error) => ({ m with world }, .threw error)
    | none => ({ m with world }, .done)
  | .copyConstruct validator other | .assign validator other =>
    ({ m with world, tables := Function.update m.tables validator (m.tables other) }, .done)
  | .destroy _ => ({ m with world }, .done)

/-- A call on an object that holds `held`.  All but `ValidateRoute` follow the pointer that the lookup
found, and write through it. -/
def call (validator : Nat) (held : Held) (errorMsg : Bytes) (call : Call) :
    Except Fault (Memory σ × Answer) := do
  let found ← (view (m.tables validator) (read m.stores held)).lookup order errorMsg call
  if found.code ≠ .NONE then pure (m, .answered found.code found.errorMsg)
  else
    match call, found.validators.bind (List.lookup · held) with
    | .route .., _ => pure (m, .answered found.code found.errorMsg)
    | _, none => throw .undefined
    | _, some id =>
      if id ∈ m.world.released then throw .undefined
      else
        let c ← call.check rj order found (m.stores id) found.errorMsg
        pure ({ m with stores := Function.update m.stores id c.after }, .answered c.code c.errorMsg)

/-- One step, if it is one that a program can take. -/
def step : Op → Option (Except Fault (Memory σ × Answer))
  | .life op => (m.world.step rj order files fuel op).map fun world =>
    .ok (m.live rj order files fuel world op)
  | .call validator errorMsg call =>
    (m.world.validators validator).map fun held => m.call rj order validator held errorMsg call

/-- A program, with what it is handed back, up to a step that does not return. -/
def run (m : Memory σ) : List Op → Option (Except Fault (Memory σ) × List Answer)
  | [] => some (.ok m, [])
  | op :: ops =>
    match m.step rj order files fuel op with
    | none => none
    | some (.error fault) => some (.error fault, [])
    | some (.ok (next, answer)) => (run next ops).map fun r => (r.1, answer :: r.2)

end

end Memory

/-! ### Programs of values -/

/-- Objects that are values: a copy has stores of its own. -/
abbrev Values (σ : Type) := Nat → Option (OASValidatorImp σ)

namespace Values

variable {σ : Type} (rj : RapidJson σ) (order : Hashing) (files : Bytes → Option Bytes) (fuel : Nat)

def step (v : Values σ) : Op → Option (Except Fault (Values σ × Answer))
  | .life (.construct validator oasSpecs methodMap) =>
    match v validator, construct rj order files fuel oasSpecs methodMap with
    | none, some (.ok imp) => some (.ok (Function.update v validator (some imp), .done))
    | none, some (.error error) => some (.ok (v, .threw error))
    | _, _ => none
  | .life (.copyConstruct validator other) =>
    match v validator, v other with
    | none, some imp => some (.ok (Function.update v validator (some imp), .done))
    | _, _ => none
  | .life (.assign validator other) =>
    match v validator, v other with
    | some _, some imp => some (.ok (Function.update v validator (some imp), .done))
    | _, _ => none
  | .life (.destroy validator) =>
    match v validator with
    | some _ => some (.ok (Function.update v validator none, .done))
    | none => none
  | .call validator errorMsg call =>
    (v validator).map fun imp => do
      let c ← imp.call rj order errorMsg call
      pure (Function.update v validator (some c.after), .answered c.code c.errorMsg)

def run (v : Values σ) : List Op → Option (Except Fault (Values σ) × List Answer)
  | [] => some (.ok v, [])
  | op :: ops =>
    match step rj order files fuel v op with
    | none => none
    | some (.error fault) => some (.error fault, [])
    | some (.ok (next, answer)) => (run next ops).map fun r => (r.1, answer :: r.2)

end Values

/-- What a program is handed back, and the fault that it ends with if it does. -/
def outcome {τ : Type} (r : Option (Except Fault τ × List Answer)) : Option (Option Fault × List Answer) :=
  r.map fun r => (match r.1 with | .ok _ => none | .error fault => some fault, r.2)

/-- The steps in the lives of the objects that a program takes. -/
def lifetimes (ops : List Op) : List Lifetime :=
  ops.filterMap fun op => match op with
    | .life op => some op
    | .call .. => none

/-! ### What is held -/

section

variable {σ : Type} {imp : OASValidatorImp σ}

/-- Among the entries of the methods `l` those of one method are the entries of its map. -/
theorem filterMap_entries {l : List HttpMethod} (hl : l.Nodup)
    (t : HttpMethod → List (Bytes × ValidatorsStore σ)) (method : HttpMethod) :
    (l.flatMap fun m => (t m).map fun e => ((m, e.1), e.2)).filterMap
        (fun e => if e.1.1 = method then some (e.1.2, e.2) else none) =
      if method ∈ l then t method else [] := by
  induction l with
  | nil => rfl
  | cons m l ih =>
    rw [List.nodup_cons] at hl
    rw [List.flatMap_cons, List.filterMap_append, ih hl.2, List.filterMap_map]
    by_cases hm : m = method
    · subst hm
      simp [hl.1]
    · simp [hm, Ne.symm hm]

theorem lookup_map_entries (m method : HttpMethod) (path : Bytes)
    (t : List (Bytes × ValidatorsStore σ)) :
    (t.map fun e => ((m, e.1), e.2)).lookup (method, path) =
      if method = m then t.lookup path else none := by
  induction t with
  | nil => simp
  | cons e t ih =>
    rw [List.map_cons, lookup_cons_eq_if, lookup_cons_eq_if, ih]
    by_cases hm : method = m <;> by_cases hp : path = e.1 <;> simp [hm, hp]

theorem lookup_entries_of (l : List HttpMethod) (t : HttpMethod → List (Bytes × ValidatorsStore σ))
    (method : HttpMethod) (path : Bytes) :
    (l.flatMap fun m => (t m).map fun e => ((m, e.1), e.2)).lookup (method, path) =
      if method ∈ l then (t method).lookup path else none := by
  induction l with
  | nil => rfl
  | cons m l ih =>
    rw [List.flatMap_cons, List.lookup_append, ih, lookup_map_entries]
    by_cases hm : method = m
    · subst hm
      by_cases hl : method ∈ l <;> simp [hl]
    · simp [hm]

theorem nodup_httpMethods : httpMethods.Nodup := by decide

theorem mem_httpMethods (method : HttpMethod) : method ∈ httpMethods := by
  cases method <;> decide

/-- An implementation is its tables and its entries. -/
theorem view_entries (imp : OASValidatorImp σ) : Memory.view (tablesOf imp) (entries imp) = imp := by
  have hvalidators : (Memory.view (tablesOf imp) (entries imp)).oasValidators = imp.oasValidators := by
    funext method
    simp only [Memory.view, entries, filterMap_entries nodup_httpMethods, if_pos (mem_httpMethods method),
      tablesOf]
  cases imp
  exact congrArg (OASValidatorImp.mk _ · _) hvalidators

theorem lookup_entries (method : HttpMethod) (path : Bytes) :
    (entries imp).lookup (method, path) = (imp.oasValidators method).perPathValidators.lookup path := by
  rw [entries, lookup_entries_of, if_pos (mem_httpMethods method)]

theorem held_eq (next : Nat) : imp.held next = (keys (entries imp)).zipIdx next := by
  simp only [OASValidatorImp.held, entries, keys, List.map_flatMap, List.map_map, Function.comp_def]

end

namespace Memory

variable {σ : Type} {stores stores' : Nat → ValidatorsStore σ} {held : Held}

theorem lookup_read (key : HttpMethod × Bytes) :
    (read stores held).lookup key = (held.lookup key).map stores := by
  induction held with
  | nil => rfl
  | cons e held ih =>
    simp only [read, List.map_cons] at ih ⊢
    rw [lookup_cons_eq_if, lookup_cons_eq_if, ih]
    split <;> rfl

theorem read_congr (h : ∀ id ∈ held.ids, stores' id = stores id) : read stores' held = read stores held := by
  refine List.map_congr_left fun e he => ?_
  rw [h e.2 (List.mem_map_of_mem he)]

/-- What a new implementation holds are its entries. -/
theorem read_place (imp : OASValidatorImp σ) (next : Nat) :
    read (place stores next ((entries imp).map Prod.snd)) (imp.held next) = entries imp := by
  refine List.ext_getElem (by simp [read, held_eq, keys]) fun i hi hi' => ?_
  have hnew : ¬next + i < next := by omega
  simp [read, held_eq, keys, place, hi', hnew]

theorem place_of_lt {next id : Nat} (h : id < next) (new : List (ValidatorsStore σ)) :
    place stores next new id = stores id := if_pos h

/-! ### One step -/

/-- The object at an address is the implementation `imp`, with all its validators at rest. -/
structure Holds (rj : RapidJson σ) (m : Memory σ) (validator : Nat) (held : Held)
    (imp : OASValidatorImp σ) : Prop where
  tables : m.tables validator = tablesOf imp
  stores : read m.stores held = entries imp
  rest : imp.AtRest rj
  registered : ∃ paths, Registered imp paths

/-- The objects of a program are the values of the other one. -/
structure Agrees (rj : RapidJson σ) (m : Memory σ) (v : Values σ) : Prop where
  ordered : m.world.Ordered
  dead : ∀ validator, m.world.validators validator = none → v validator = none
  live : ∀ validator held, m.world.validators validator = some held →
    ∃ imp, v validator = some imp ∧ Holds rj m validator held imp

variable {rj : RapidJson σ} {order : Hashing} {files : Bytes → Option Bytes} {fuel : Nat} {m : Memory σ}
  {v : Values σ} {validator : Nat} {imp : OASValidatorImp σ}

theorem agrees_empty : Agrees rj ({} : Memory σ) fun _ => none :=
  ⟨World.ordered_empty, fun _ _ => rfl, fun _ _ h => by simp at h⟩

/-- A call that returns leaves the stores as they were, and answers what it answers on the value. -/
theorem call_eq (hreset : ResetRestores rj) (hordered : m.world.Ordered)
    (hheld : m.world.validators validator = some held) (h : Holds rj m validator held imp)
    (errorMsg : Bytes) (call : Call) :
    m.call rj order validator held errorMsg call =
      (imp.call rj order errorMsg call).map fun c => (m, .answered c.code c.errorMsg) := by
  obtain ⟨paths, hreg⟩ := h.registered
  have hkeeps : Keeps imp (imp.call rj order errorMsg call) :=
    OASValidatorImp.call_keeps hreset h.rest errorMsg call
  unfold Memory.call
  rw [h.tables, h.stores, view_entries]
  rw [OASValidatorImp.call_eq_lookup hreg] at hkeeps ⊢
  cases hlookup : imp.lookup order errorMsg call with
  | error fault => rfl
  | ok found =>
    rw [hlookup] at hkeeps
    simp only [bind, Except.bind] at hkeeps ⊢
    by_cases hcode : found.code = .NONE
    · obtain ⟨method, key, store, hfound, -, hstore⟩ := OASValidatorImp.found_store hreg hlookup hcode
      have hread : (List.lookup (method, key) held).map m.stores = some store := by
        rw [← lookup_read, h.stores, lookup_entries, hstore]
      obtain ⟨id, hid, rfl⟩ := Option.map_eq_some_iff.mp hread
      have hlive : id ∉ m.world.released := by
        refine hordered.live validator held hheld id (List.mem_map.mpr ⟨((method, key), id), ?_, rfl⟩)
        exact mem_of_lookup hid
      have hwith : imp.withStore found (call.check rj order found) =
          (call.check rj order found (m.stores id) found.errorMsg).map
            (·.map (imp.setStore method key)) := by
        unfold OASValidatorImp.withStore
        rw [if_neg (by simp [hcode]), hfound]
        simp only [hstore]
        rfl
      rw [hwith] at hkeeps ⊢
      -- a check leaves the store as it is, as the implementation is left so
      have hafter : ∀ c, call.check rj order found (m.stores id) found.errorMsg = .ok c →
          c.after = m.stores id := by
        intro c hc
        have himp : imp.setStore method key c.after = imp := hkeeps _ (by rw [hc]; rfl)
        have hset : ((imp.setStore method key c.after).oasValidators method).perPathValidators.lookup key =
            some c.after := OASValidatorImp.setStore_lookup method key c.after
        rw [himp, hstore] at hset
        exact (Option.some.inj hset).symm
      rw [if_neg (by simp [hcode]), hfound, Option.bind_some, hid]
      cases call with
      | route => simp [Call.check, Checked.map, Except.map, hcode, pure, Except.pure]
      | _ =>
        simp only [if_neg hlive]
        cases hcheck : Call.check rj order _ found (m.stores id) found.errorMsg with
        | error fault => rfl
        | ok c =>
          simp only [hafter c hcheck, Function.update_eq_self, Except.map, pure, Except.pure]
          rfl
    · rw [if_pos hcode]
      simp [OASValidatorImp.withStore, hcode, Except.map, pure, Except.pure]

/-- An object sees of a memory its tables and the stores that it holds. -/
theorem Holds.congr {m' : Memory σ} (h : Holds rj m validator held imp)
    (htables : m'.tables validator = m.tables validator)
    (hstores : ∀ id ∈ held.ids, m'.stores id = m.stores id) : Holds rj m' validator held imp :=
  ⟨htables.trans h.tables, (read_congr hstores).trans h.stores, h.rest, h.registered⟩

theorem Agrees.dead_or_live (h : Agrees rj m v) (validator : Nat) :
    (m.world.validators validator = none ∧ v validator = none) ∨
      ∃ held imp, m.world.validators validator = some held ∧ v validator = some imp := by
  cases hheld : m.world.validators validator with
  | none => exact Or.inl ⟨rfl, h.dead validator hheld⟩
  | some held =>
    obtain ⟨imp, himp, -⟩ := h.live validator held hheld
    exact Or.inr ⟨held, imp, rfl, himp⟩

/-- One object is another one from now on, or is gone, and the others are as they were. -/
theorem Agrees.change (h : Agrees rj m v) {m' : Memory σ} (held' : Option Held)
    (imp' : Option (OASValidatorImp σ)) (hordered : m'.world.Ordered)
    (hvalidators : m'.world.validators = Function.update m.world.validators validator held')
    (htables : ∀ other, other ≠ validator → m'.tables other = m.tables other)
    (hstores : ∀ id < m.world.allocated, m'.stores id = m.stores id)
    (hdead : held' = none → imp' = none)
    (hlive : ∀ held, held' = some held → ∃ imp, imp' = some imp ∧ Holds rj m' validator held imp) :
    Agrees rj m' (Function.update v validator imp') := by
  refine ⟨hordered, fun a ha => ?_, fun a held ha => ?_⟩
  · rw [hvalidators] at ha
    by_cases hav : a = validator
    · subst hav
      rw [Function.update_self] at ha ⊢
      exact hdead ha
    · rw [Function.update_of_ne hav] at ha ⊢
      exact h.dead a ha
  · rw [hvalidators] at ha
    by_cases hav : a = validator
    · subst hav
      rw [Function.update_self] at ha ⊢
      exact hlive held ha
    · rw [Function.update_of_ne hav] at ha ⊢
      obtain ⟨imp, himp, hholds⟩ := h.live a held ha
      exact ⟨imp, himp, hholds.congr (htables a hav) fun id hid =>
        hstores id (h.ordered.held_lt a held ha id hid)⟩

/-- An object becomes a copy of another one. -/
theorem Agrees.copy (h : Agrees rj m v) {other : Nat} {world : World} (hordered : world.Ordered)
    (hheld : m.world.validators other = some held) (himp : v other = some imp)
    (hvalidators : world.validators = Function.update m.world.validators validator (some held)) :
    Agrees rj ⟨world, Function.update m.tables validator (m.tables other), m.stores⟩
      (Function.update v validator (some imp)) := by
  refine h.change _ _ hordered hvalidators (fun a ha => Function.update_of_ne ha _ _) (fun _ _ => rfl)
    (by simp) ?_
  rintro _ ⟨⟩
  obtain ⟨imp', himp', hholds⟩ := h.live other held hheld
  obtain rfl := Option.some.inj (himp.symm.trans himp')
  exact ⟨imp, rfl, (Function.update_self ..).trans hholds.tables, hholds.stores, hholds.rest,
    hholds.registered⟩

/-- A new object. -/
theorem Agrees.construct (h : Agrees rj m v) {oasSpecs : Bytes} {methodMap : MethodMap} {world : World}
    (hordered : world.Ordered)
    (hnew : OasValidator.construct rj order files fuel oasSpecs methodMap = some (.ok imp))
    (hvalidators : world.validators =
      Function.update m.world.validators validator (some (imp.held m.world.allocated))) :
    Agrees rj
      ⟨world, Function.update m.tables validator (tablesOf imp),
        place m.stores m.world.allocated ((entries imp).map Prod.snd)⟩
      (Function.update v validator (some imp)) := by
  refine h.change _ _ hordered hvalidators (fun a ha => Function.update_of_ne ha _ _)
    (fun id hid => place_of_lt hid _) (by simp) ?_
  rintro _ ⟨⟩
  obtain ⟨doc, hdoc⟩ := constructs_iff.mpr ⟨fuel, hnew⟩
  exact ⟨imp, rfl, Function.update_self .., read_place imp _, hdoc.atRest, _, hdoc.registered.1⟩

/-- The outcome of a step: no program can take it, it does not return, or it returns. -/
def Steps (rj : RapidJson σ) (order : Hashing) (files : Bytes → Option Bytes) (fuel : Nat)
    (m : Memory σ) (v : Values σ) (op : Op) : Prop :=
  (m.step rj order files fuel op = none ∧ Values.step rj order files fuel v op = none) ∨
    (∃ fault, m.step rj order files fuel op = some (.error fault) ∧
      Values.step rj order files fuel v op = some (.error fault)) ∨
    ∃ m' v' answer, m.step rj order files fuel op = some (.ok (m', answer)) ∧
      Values.step rj order files fuel v op = some (.ok (v', answer)) ∧ Agrees rj m' v' ∧
      World.run rj order files fuel m.world (lifetimes [op]) = some m'.world

theorem step_call (hreset : ResetRestores rj) (h : Agrees rj m v) (validator : Nat) (errorMsg : Bytes)
    (call : Call) : Steps rj order files fuel m v (.call validator errorMsg call) := by
  cases hheld : m.world.validators validator with
  | none =>
    exact Or.inl ⟨by simp [step, hheld], by simp [Values.step, h.dead validator hheld]⟩
  | some held =>
    obtain ⟨imp, himp, hholds⟩ := h.live validator held hheld
    have hcall : m.call rj order validator held errorMsg call =
        (imp.call rj order errorMsg call).map fun c => (m, .answered c.code c.errorMsg) :=
      call_eq hreset h.ordered hheld hholds errorMsg call
    cases hr : imp.call rj order errorMsg call with
    | error fault =>
      rw [hr] at hcall
      exact Or.inr (Or.inl ⟨fault, by simp [step, hheld, hcall, Except.map],
        by simp [Values.step, himp, hr, bind, Except.bind]⟩)
    | ok c =>
      have hafter : c.after = imp := OASValidatorImp.call_keeps hreset hholds.rest errorMsg call c hr
      rw [hr] at hcall
      refine Or.inr (Or.inr ⟨m, v, .answered c.code c.errorMsg, by simp [step, hheld, hcall, Except.map],
        ?_, h, rfl⟩)
      simp only [Values.step, himp, Option.map_some, hr, bind, Except.bind, pure, Except.pure, hafter]
      rw [← himp, Function.update_eq_self]

/-- A step that the objects and the values take together. -/
theorem steps_of_world (h : Agrees rj m v) {op : Lifetime} {world : World} {v' : Values σ}
    (hexclusive : m.world.Exclusive op) (hworld : m.world.step rj order files fuel op = some world)
    (hvalues : Values.step rj order files fuel v (.life op) =
      some (.ok (v', (m.live rj order files fuel world op).2)))
    (hagrees : world.Ordered → Agrees rj (m.live rj order files fuel world op).1 v')
    (hkept : (m.live rj order files fuel world op).1.world = world) :
    Steps rj order files fuel m v (.life op) := by
  refine Or.inr (Or.inr ⟨_, v', _, by simp only [step, hworld, Option.map_some], hvalues,
    hagrees (World.step_ordered h.ordered hworld hexclusive), ?_⟩)
  simp [lifetimes, World.run, hworld, hkept]

theorem step_construct (h : Agrees rj m v) (validator : Nat) (oasSpecs : Bytes) (methodMap : MethodMap) :
    Steps rj order files fuel m v (.life (.construct validator oasSpecs methodMap)) := by
  rcases h.dead_or_live validator with ⟨hheld, himp⟩ | ⟨held, imp, hheld, himp⟩
  · cases hnew : OasValidator.construct rj order files fuel oasSpecs methodMap with
    | none => exact Or.inl ⟨by simp [step, World.step, hheld, hnew], by simp [Values.step, himp, hnew]⟩
    | some r =>
      cases r with
      | error error =>
        have hworld : m.world.step rj order files fuel (.construct validator oasSpecs methodMap) =
            some m.world := by simp only [World.step, hheld, hnew]
        have hvalues : Values.step rj order files fuel v (.life (.construct validator oasSpecs methodMap)) =
            some (.ok (v, .threw error)) := by simp only [Values.step, himp, hnew]
        refine steps_of_world h trivial hworld (by simpa only [live, hnew] using hvalues) (fun _ => ?_)
          (by simp only [live, hnew])
        simpa only [live, hnew] using h
      | ok imp =>
        refine steps_of_world h trivial (by simp only [World.step, hheld, hnew]; rfl)
          (by simp only [Values.step, live, himp, hnew]; rfl) (fun hordered => ?_)
          (by simp only [live, hnew])
        simp only [live, hnew]
        exact h.construct hordered hnew rfl
  · exact Or.inl ⟨by simp [step, World.step, hheld], by simp [Values.step, himp]⟩

theorem step_copyConstruct (h : Agrees rj m v) (validator other : Nat) :
    Steps rj order files fuel m v (.life (.copyConstruct validator other)) := by
  rcases h.dead_or_live validator with ⟨hheld, himp⟩ | ⟨held, imp, hheld, himp⟩
  · rcases h.dead_or_live other with ⟨hheld', himp'⟩ | ⟨held', imp', hheld', himp'⟩
    · exact Or.inl ⟨by simp [step, World.step, hheld, hheld'], by simp [Values.step, himp, himp']⟩
    · exact steps_of_world h trivial (by simp only [World.step, hheld, hheld']; rfl)
        (by simp only [Values.step, live, himp, himp']) (fun hordered => h.copy hordered hheld' himp' rfl)
        rfl
  · exact Or.inl ⟨by simp [step, World.step, hheld], by simp [Values.step, himp]⟩

theorem step_assign (h : Agrees rj m v) (validator other : Nat)
    (hexclusive : m.world.Exclusive (.assign validator other)) :
    Steps rj order files fuel m v (.life (.assign validator other)) := by
  rcases h.dead_or_live validator with ⟨hheld, himp⟩ | ⟨held, imp, hheld, himp⟩
  · exact Or.inl ⟨by simp [step, World.step, hheld], by simp [Values.step, himp]⟩
  · rcases h.dead_or_live other with ⟨hheld', himp'⟩ | ⟨held', imp', hheld', himp'⟩
    · exact Or.inl ⟨by simp [step, World.step, hheld, hheld'], by simp [Values.step, himp, himp']⟩
    · by_cases hsame : validator = other
      · -- self-assignment returns at once, and the value is assigned to itself
        refine steps_of_world h hexclusive (by simp only [World.step, hheld, hheld', if_pos hsame]; rfl)
          (by simp only [Values.step, live, himp, himp']; rfl) (fun hordered => ?_) rfl
        refine h.copy hordered hheld' himp' ?_
        rw [← hheld', hsame, Function.update_eq_self]
      · exact steps_of_world h hexclusive (by simp only [World.step, hheld, hheld', if_neg hsame]; rfl)
          (by simp only [Values.step, live, himp, himp'])
          (fun hordered => h.copy hordered hheld' himp' rfl) rfl

theorem step_destroy (h : Agrees rj m v) (validator : Nat)
    (hexclusive : m.world.Exclusive (.destroy validator)) :
    Steps rj order files fuel m v (.life (.destroy validator)) := by
  rcases h.dead_or_live validator with ⟨hheld, himp⟩ | ⟨held, imp, hheld, himp⟩
  · exact Or.inl ⟨by simp [step, World.step, hheld], by simp [Values.step, himp]⟩
  · have hworld : m.world.step rj order files fuel (.destroy validator) =
        some { m.world with
          validators := Function.update m.world.validators validator none
          released := m.world.released ++ held.ids } := by simp only [World.step, hheld]
    exact steps_of_world h hexclusive hworld (by simp only [Values.step, live, himp])
      (fun hordered => h.change none none hordered rfl (fun _ _ => rfl) (fun _ _ => rfl) (fun _ => rfl)
        (by simp)) rfl

theorem step_op (hreset : ResetRestores rj) (h : Agrees rj m v) (op : Op)
    (hexclusive : ∀ o, op = .life o → m.world.Exclusive o) : Steps rj order files fuel m v op := by
  cases op with
  | call validator errorMsg call => exact step_call hreset h validator errorMsg call
  | life o =>
    cases o with
    | construct validator oasSpecs methodMap => exact step_construct h validator oasSpecs methodMap
    | copyConstruct validator other => exact step_copyConstruct h validator other
    | assign validator other => exact step_assign h validator other (hexclusive _ rfl)
    | destroy validator => exact step_destroy h validator (hexclusive _ rfl)

/-! ### Programs -/

theorem exclusive_behind {w w' : World} {before behind : List Lifetime}
    (h : World.RunExclusive rj order files fuel w (before ++ behind))
    (hrun : World.run rj order files fuel w before = some w') :
    World.RunExclusive rj order files fuel w' behind := by
  intro front op rest w'' hbehind hfront
  refine h (before ++ front) op rest w'' (by rw [hbehind, List.append_assoc]) ?_
  rw [World.run_append, hrun]
  exact hfront

/-- The outcome of a program: none can take its steps, it ends with a step that does not return, or it
returns from all. -/
def Runs (rj : RapidJson σ) (order : Hashing) (files : Bytes → Option Bytes) (fuel : Nat)
    (m : Memory σ) (v : Values σ) (ops : List Op) : Prop :=
  (m.run rj order files fuel ops = none ∧ Values.run rj order files fuel v ops = none) ∨
    (∃ fault answers, m.run rj order files fuel ops = some (.error fault, answers) ∧
      Values.run rj order files fuel v ops = some (.error fault, answers)) ∨
    ∃ m' v' answers, m.run rj order files fuel ops = some (.ok m', answers) ∧
      Values.run rj order files fuel v ops = some (.ok v', answers) ∧ Agrees rj m' v'

theorem run_ops (hreset : ResetRestores rj) (h : Agrees rj m v) {ops : List Op}
    (hexclusive : World.RunExclusive rj order files fuel m.world (lifetimes ops)) :
    Runs rj order files fuel m v ops := by
  induction ops generalizing m v with
  | nil => exact Or.inr (Or.inr ⟨m, v, [], rfl, rfl, h⟩)
  | cons op ops ih =>
    have hsplit : lifetimes (op :: ops) = lifetimes [op] ++ lifetimes ops := by
      rw [lifetimes, lifetimes, lifetimes, ← List.filterMap_append]
      rfl
    have hop : Steps rj order files fuel m v op := step_op hreset h op fun o ho =>
      hexclusive [] o (lifetimes ops) m.world (by subst ho; rfl) rfl
    rw [hsplit] at hexclusive
    rcases hop with ⟨hm, hv⟩ | ⟨fault, hm, hv⟩ | ⟨m₁, v₁, answer, hm, hv, h₁, hworld⟩
    · exact Or.inl ⟨by simp only [run, hm], by simp only [Values.run, hv]⟩
    · exact Or.inr (Or.inl ⟨fault, [], by simp only [run, hm], by simp only [Values.run, hv]⟩)
    · rcases ih h₁ (exclusive_behind hexclusive hworld) with
        ⟨hm', hv'⟩ | ⟨fault, answers, hm', hv'⟩ | ⟨m', v', answers, hm', hv', h'⟩
      · exact Or.inl ⟨by simp only [run, hm, hm', Option.map_none],
          by simp only [Values.run, hv, hv', Option.map_none]⟩
      · exact Or.inr (Or.inl ⟨fault, answer :: answers, by simp only [run, hm, hm', Option.map_some],
          by simp only [Values.run, hv, hv', Option.map_some]⟩)
      · exact Or.inr (Or.inr ⟨m', v', answer :: answers, by simp only [run, hm, hm', Option.map_some],
          by simp only [Values.run, hv, hv', Option.map_some], h'⟩)

end Memory

open Memory in
/-- As long as no step releases a store that another live object holds, a program of objects that share
their stores with their copies is handed back what a program of values is, up to the same call that
does not return if there is one; and each object is the value at its address in the end. -/
theorem run_as_values {σ : Type} {rj : RapidJson σ} {order : Hashing} {files : Bytes → Option Bytes}
    {fuel : Nat} {ops : List Op} (hreset : ResetRestores rj)
    (hexclusive : World.RunExclusive rj order files fuel {} (lifetimes ops)) :
    outcome (Memory.run rj order files fuel {} ops) =
        outcome (Values.run rj order files fuel (fun _ => none) ops) ∧
      ∀ m answers, Memory.run rj order files fuel {} ops = some (.ok m, answers) →
        ∃ v, Values.run rj order files fuel (fun _ => none) ops = some (.ok v, answers) ∧
          ∀ validator, v validator = (m.world.validators validator).map fun held =>
            view (m.tables validator) (read m.stores held) := by
  rcases run_ops (m := {}) hreset agrees_empty hexclusive with
    ⟨hm, hv⟩ | ⟨fault, answers, hm, hv⟩ | ⟨m, v, answers, hm, hv, h⟩
  · rw [hm, hv]
    exact ⟨rfl, by simp⟩
  · rw [hm, hv]
    exact ⟨rfl, by simp⟩
  · rw [hm, hv]
    refine ⟨rfl, fun m' answers' heq => ?_⟩
    obtain ⟨rfl, rfl⟩ : m = m' ∧ answers = answers' := by simpa using heq
    refine ⟨v, rfl, fun validator => ?_⟩
    rcases h.dead_or_live validator with ⟨hheld, himp⟩ | ⟨held, imp, hheld, himp⟩
    · rw [hheld, himp, Option.map_none]
    · obtain ⟨imp', himp', hholds⟩ := h.live validator held hheld
      obtain rfl := Option.some.inj (himp.symm.trans himp')
      rw [hheld, himp, Option.map_some, hholds.tables, hholds.stores, view_entries]

/-- A validator and its copy take turns with bodies that the schema rejects. -/
def copiedCalls : List Op :=
  [.life (.construct 0 listSpec []), .life (.copyConstruct 1 0),
    .call 0 [] (.body (lit "PUT") (lit "/list") (lit "true")),
    .call 1 [] (.body (lit "PUT") (lit "/list") (lit "[]"))]

theorem run_as_values_copied :
    outcome (Memory.run RapidJson.latching .insertion (fun _ => none) 60 {} copiedCalls) =
      outcome (Values.run RapidJson.latching .insertion (fun _ => none) 60 (fun _ => none)
        copiedCalls) := by
  refine (run_as_values latching_resetRestores fun before op behind w hops _ => ?_).1
  have hop : op ∈ lifetimes copiedCalls := hops ▸ by simp
  rcases List.mem_cons.mp hop with rfl | hop
  · trivial
  · obtain rfl := List.mem_singleton.mp hop
    trivial

end OasValidator.Sharing
