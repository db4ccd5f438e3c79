import OasValidator.Imp.Construct

/-! The objects of `OASValidator` from construction to destruction.  Each owns an implementation, whose
maps hold stores; copying an implementation copies the entries of its maps, and destroying it releases
every store that they hold. -/

namespace OasValidator

open Library.Table

/-! ### Holding and releasing -/

/-- The methods in the order of `oas_validators_`. -/
def httpMethods : List HttpMethod :=
  [.GET, .POST, .PUT, .DELETE, .HEAD, .OPTIONS, .PATCH, .CONNECT, .TRACE]

/-- The entries of the maps of an implementation, with the identifiers of the stores in place of the
pointers to them. -/
abbrev Held := List ((HttpMethod × Bytes) × Nat)

/-- What a newly constructed implementation holds, for the first identifier not yet in use. -/
def OASValidatorImp.held {σ : Type} (imp : OASValidatorImp σ) (next : Nat) : Held :=
  (httpMethods.flatMap fun method =>
    (keys (imp.oasValidators method).perPathValidators).map fun path => (method, path)).zipIdx next

namespace Held

def ids (held : Held) : List Nat := held.map Prod.snd

end Held

theorem OASValidatorImp.ids_held {σ : Type} (imp : OASValidatorImp σ) (next : Nat) :
    (imp.held next).ids = List.range' next (imp.held next).length := by
  simp only [Held.ids, OASValidatorImp.held, List.zipIdx_map_snd, List.length_zipIdx]

/-- The live objects of `OASValidator` under their addresses, the identifiers of the stores released so
far, and the first identifier not yet in use. -/
structure World where
  validators : Nat → Option Held := fun _ => none
  released : List Nat := []
  allocated : Nat := 0

inductive Lifetime where
  | construct (validator : Nat) (oasSpecs : Bytes) (methodMap : MethodMap)
  | copyConstruct (validator other : Nat)
  | assign (validator other : Nat)
  | destroy (validator : Nat)

namespace World

section

variable {σ : Type} (rj : RapidJson σ) (order : Hashing) (files : Bytes → Option Bytes) (fuel : Nat)

/-- One step of the objects' lives, if it is one that a program can take: objects are constructed where
none lives, and copied, assigned and destroyed where one does.  A constructor that throws leaves no
object behind, and its stores to nobody. -/
def step (w : World) : Lifetime → Option World
  | .construct validator oasSpecs methodMap =>
    match w.validators validator, construct rj order files fuel oasSpecs methodMap with
    | none, some (.ok imp) =>
      some { w with
        validators := Function.update w.validators validator (some (imp.held w.allocated))
        allocated := w.allocated + (imp.held w.allocated).length }
    | none, some (.error _) => some w
    | _, _ => none
  | .copyConstruct validator other =>
    match w.validators validator, w.validators other with
    | none, some held =>
      some { w with validators := Function.update w.validators validator (some held) }
    | _, _ => none
  | .assign validator other =>
    match w.validators validator, w.validators other with
    | some held, some otherHeld =>
      if validator = other then some w
      else
        some { w with
          validators := Function.update w.validators validator (some otherHeld)
          released := w.released ++ held.ids }
    | _, _ => none
  | .destroy validator =>
    match w.validators validator with
    | some held =>
      some { w with
        validators := Function.update w.validators validator none
        released := w.released ++ held.ids }
    | none => none

def run (w : World) : List Lifetime → Option World
  | [] => some w
  | op :: ops => (step rj order files fuel w op).bind fun w => run w ops

end

/-- No store was released twice, and no live object holds one that was released. -/
structure Sound (w : World) : Prop where
  once : w.released.Nodup
  live : ∀ validator held, w.validators validator = some held → ∀ id ∈ held.ids, id ∉ w.released

/-- Another live object holds a store of this one. -/
def Shared (w : World) (validator : Nat) : Prop :=
  ∃ held other otherHeld id, w.validators validator = some held ∧ other ≠ validator ∧
    w.validators other = some otherHeld ∧ id ∈ held.ids ∧ id ∈ otherHeld.ids

/-- The step releases no store that another live object holds. -/
def Exclusive (w : World) : Lifetime → Prop
  | .assign validator other => validator ≠ other → ¬w.Shared validator
  | .destroy validator => ¬w.Shared validator
  | _ => True

/-! ### One step -/

/-- What sound worlds keep: identifiers in use are below the first free one, and no object holds one
twice. -/
structure Ordered (w : World) : Prop extends Sound w where
  released_lt : ∀ id ∈ w.released, id < w.allocated
  held_lt : ∀ validator held, w.validators validator = some held → ∀ id ∈ held.ids, id < w.allocated
  held_nodup : ∀ validator held, w.validators validator = some held → held.ids.Nodup

theorem ordered_empty : Ordered {} where
  once := List.nodup_nil
  live := by simp
  released_lt := by simp
  held_lt := by simp
  held_nodup := by simp

variable {w w' : World} {validator other : Nat} {held otherHeld : Held}

/-- An object that holds new identifiers. -/
theorem Ordered.construct (h : Ordered w) {n : Nat} (hids : held.ids = List.range' w.allocated n) :
    Ordered { w with
      validators := Function.update w.validators validator (some held)
      allocated := w.allocated + n } := by
  have hnew : ∀ v held', Function.update w.validators validator (some held) v = some held' →
      held' = held ∨ w.validators v = some held' := by
    intro v held' hv
    by_cases hvv : v = validator
    · subst hvv
      exact Or.inl (by simpa [eq_comm] using hv)
    · exact Or.inr (by rwa [Function.update_of_ne hvv] at hv)
  refine ⟨⟨h.once, ?_⟩, ?_, ?_, ?_⟩
  · intro v held' hv id hid hreleased
    have := h.released_lt id hreleased
    rcases hnew v held' hv with rfl | hold
    · rw [hids, List.mem_range'_1] at hid
      omega
    · exact h.live v held' hold id hid hreleased
  · intro id hid
    exact Nat.lt_add_right n (h.released_lt id hid)
  · intro v held' hv id hid
    rcases hnew v held' hv with rfl | hold
    · rw [hids, List.mem_range'_1] at hid
      exact hid.2
    · exact Nat.lt_add_right n (h.held_lt v held' hold id hid)
  · intro v held' hv
    rcases hnew v held' hv with rfl | hold
    · rw [hids]
      exact List.nodup_range'
    · exact h.held_nodup v held' hold

/-- An object takes over what another one holds. -/
theorem Ordered.copy (h : Ordered w) (hother : w.validators other = some held) :
    Ordered { w with validators := Function.update w.validators validator (some held) } := by
  have hold : ∀ v held', Function.update w.validators validator (some held) v = some held' →
      ∃ v', w.validators v' = some held' := by
    intro v held' hv
    by_cases hvv : v = validator
    · subst hvv
      exact ⟨other, by rw [hother]; simpa using hv⟩
    · exact ⟨v, by rwa [Function.update_of_ne hvv] at hv⟩
  refine ⟨⟨h.once, ?_⟩, h.released_lt, ?_, ?_⟩
  · intro v held' hv
    obtain ⟨v', hv'⟩ := hold v held' hv
    exact h.live v' held' hv'
  · intro v held' hv
    obtain ⟨v', hv'⟩ := hold v held' hv
    exact h.held_lt v' held' hv'
  · intro v held' hv
    obtain ⟨v', hv'⟩ := hold v held' hv
    exact h.held_nodup v' held' hv'

/-- An object whose stores nobody shares gives them up. -/
theorem Ordered.destroy (h : Ordered w) (hheld : w.validators validator = some held)
    (hshared : ¬w.Shared validator) :
    Ordered { w with
      validators := Function.update w.validators validator none
      released := w.released ++ held.ids } := by
  have hold : ∀ v held', Function.update w.validators validator none v = some held' →
      v ≠ validator ∧ w.validators v = some held' := by
    intro v held' hv
    by_cases hvv : v = validator
    · subst hvv
      simp at hv
    · exact ⟨hvv, by rwa [Function.update_of_ne hvv] at hv⟩
  refine ⟨⟨?_, ?_⟩, ?_, ?_, ?_⟩
  · refine List.nodup_append.mpr ⟨h.once, h.held_nodup validator held hheld, ?_⟩
    rintro id hreleased _ hid rfl
    exact h.live validator held hheld id hid hreleased
  · intro v held' hv id hid hreleased
    obtain ⟨hne, hlive⟩ := hold v held' hv
    rcases List.mem_append.mp hreleased with hbefore | hnow
    · exact h.live v held' hlive id hid hbefore
    · exact hshared ⟨held, v, held', id, hheld, hne, hlive, hnow, hid⟩
  · intro id hid
    rcases List.mem_append.mp hid with hbefore | hnow
    · exact h.released_lt id hbefore
    · exact h.held_lt validator held hheld id hnow
  · exact fun v held' hv => h.held_lt v held' (hold v held' hv).2
  · exact fun v held' hv => h.held_nodup v held' (hold v held' hv).2

section

variable {σ : Type} {rj : RapidJson σ} {order : Hashing} {files : Bytes → Option Bytes} {fuel : Nat}

/-- Assigning over another object is to destroy what the object was and to copy the other one. -/
theorem step_ordered (h : Ordered w) {op : Lifetime} (hstep : step rj order files fuel w op = some w')
    (hexclusive : w.Exclusive op) : Ordered w' := by
  cases op with
  | construct validator oasSpecs methodMap =>
    simp only [step] at hstep
    split at hstep
    · obtain rfl := Option.some.inj hstep
      exact h.construct (OASValidatorImp.ids_held _ _)
    · obtain rfl := Option.some.inj hstep
      exact h
    · simp at hstep
  | copyConstruct validator other =>
    simp only [step] at hstep
    split at hstep
    · rename_i hother
      obtain rfl := Option.some.inj hstep
      exact h.copy hother
    · simp at hstep
  | assign validator other =>
    simp only [step] at hstep
    split at hstep
    · rename_i held otherHeld hheld hother
      split at hstep
      · obtain rfl := Option.some.inj hstep
        exact h
      · rename_i hne
        obtain rfl := Option.some.inj hstep
        have hlives : Function.update w.validators validator none other = some otherHeld := by
          rwa [Function.update_of_ne (Ne.symm hne)]
        have hcopied := @Ordered.copy _ validator other _ (h.destroy hheld (hexclusive hne)) hlives
        simpa using hcopied
    · simp at hstep
  | destroy validator =>
    simp only [step] at hstep
    split at hstep
    · rename_i held hheld
      obtain rfl := Option.some.inj hstep
      exact h.destroy hheld hexclusive
    · simp at hstep

/-- A step that releases a shared store leaves it to an object that lives on. -/
theorem exclusive_of_sound {op : Lifetime} (hstep : step rj order files fuel w op = some w')
    (h : w'.Sound) : w.Exclusive op := by
  -- what the shared store and the object left with it look like after either release
  have hleft : ∀ {validator : Nat} {held : Held} {filled : Option Held},
      w.validators validator = some held →
      w'.validators = Function.update w.validators validator filled →
      w'.released = w.released ++ held.ids → ¬w.Shared validator := by
    rintro validator held filled hheld hvalidators hreleased
      ⟨held', other, otherHeld, id, hheld', hne, hother, hid, hid'⟩
    obtain rfl := Option.some.inj (hheld.symm.trans hheld')
    have hlives : w'.validators other = some otherHeld := by
      rwa [hvalidators, Function.update_of_ne hne]
    exact h.live other otherHeld hlives id hid' (hreleased ▸ List.mem_append_right _ hid)
  cases op with
  | construct validator oasSpecs methodMap => trivial
  | copyConstruct validator other => trivial
  | assign validator other =>
    intro hne
    simp only [step] at hstep
    split at hstep
    · rename_i hheld hother
      rw [if_neg hne] at hstep
      obtain rfl := Option.some.inj hstep
      exact hleft hheld rfl rfl
    · simp at hstep
  | destroy validator =>
    simp only [step] at hstep
    split at hstep
    · rename_i hheld
      obtain rfl := Option.some.inj hstep
      exact hleft hheld rfl rfl
    · simp at hstep

/-! ### Runs -/

theorem run_append (ops ops' : List Lifetime) :
    run rj order files fuel w (ops ++ ops') =
      (run rj order files fuel w ops).bind fun w => run rj order files fuel w ops' := by
  induction ops generalizing w with
  | nil => rfl
  | cons op ops ih =>
    simp only [List.cons_append, run, Option.bind_assoc]
    exact congrArg _ (funext fun w => ih)

/-- Every step of the run is exclusive in the world that it is taken in. -/
def RunExclusive (rj : RapidJson σ) (order : Hashing) (files : Bytes → Option Bytes) (fuel : Nat)
    (w : World) (ops : List Lifetime) : Prop :=
  ∀ before op behind w', ops = before ++ op :: behind → run rj order files fuel w before = some w' →
    w'.Exclusive op

/-- Every world that the run goes through is sound. -/
def RunSound (rj : RapidJson σ) (order : Hashing) (files : Bytes → Option Bytes) (fuel : Nat)
    (w : World) (ops : List Lifetime) : Prop :=
  ∀ before behind w', ops = before ++ behind → run rj order files fuel w before = some w' → w'.Sound

theorem runSound_of_ordered {ops : List Lifetime} (h : Ordered w)
    (hexclusive : RunExclusive rj order files fuel w ops) : RunSound rj order files fuel w ops := by
  intro before
  induction before generalizing w ops with
  | nil =>
    intro behind w' hops hrun
    obtain rfl := Option.some.inj hrun
    exact h.toSound
  | cons op before ih =>
    intro behind w' hops hrun
    obtain ⟨next, hstep, hrun'⟩ := Option.bind_eq_some_iff.mp hrun
    have hop : w.Exclusive op := hexclusive [] op (before ++ behind) w hops rfl
    refine ih (step_ordered h hstep hop) ?_ behind w' rfl hrun'
    intro before' op' behind' w'' hbefore hrun''
    refine hexclusive (op :: before') op' behind' w'' ?_ ?_
    · rw [hops, List.cons_append, hbefore, List.cons_append]
    · rw [run, hstep]
      exact hrun''

theorem runExclusive_nil : RunExclusive rj order files fuel w [] := by
  intro before op behind w' hops
  simp at hops

theorem runExclusive_cons {op : Lifetime} {ops : List Lifetime} (hop : w.Exclusive op)
    (hstep : step rj order files fuel w op = some w')
    (h : RunExclusive rj order files fuel w' ops) : RunExclusive rj order files fuel w (op :: ops) := by
  intro before op' behind w'' hops hrun
  cases before with
  | nil =>
    obtain ⟨rfl, -⟩ := List.cons_eq_cons.mp hops
    obtain rfl := Option.some.inj hrun
    exact hop
  | cons first before =>
    obtain ⟨rfl, hrest⟩ := List.cons_eq_cons.mp hops
    rw [run, hstep] at hrun
    exact h before op' behind w'' hrest hrun

/-- In every run no store is released twice and no live object holds a released one, exactly when each
object that is destroyed or assigned over shares its stores with no other live object. -/
theorem runSound_iff {ops : List Lifetime} {w : World} (hrun : run rj order files fuel {} ops = some w) :
    RunSound rj order files fuel {} ops ↔ RunExclusive rj order files fuel {} ops := by
  refine ⟨fun h before op behind w' hops hbefore => ?_, runSound_of_ordered ordered_empty⟩
  rw [hops, run_append, hbefore, Option.bind_some] at hrun
  obtain ⟨next, hstep, -⟩ := Option.bind_eq_some_iff.mp hrun
  refine exclusive_of_sound hstep (h (before ++ [op]) behind next (by simp [hops]) ?_)
  rw [run_append, hbefore]
  simp [run, hstep]

end

end World

/-! ### A copy and its original -/

def oneStore : Bytes := lit "\x7b\"paths\":\x7b\"/a\":\x7b\"get\":\x7b\x7d\x7d\x7d\x7d"

theorem oneStore_built : ∃ imp : OASValidatorImp Json,
    construct RapidJson.plain .insertion (fun _ => none) 60 oneStore [] = some (.ok imp) ∧
      ∀ next, imp.held next = [((.GET, lit "/a"), next)] := by
  have hrun : (construct RapidJson.plain .insertion (fun _ => none) 60 oneStore []).map
      (fun r => r.map fun imp => (httpMethods.flatMap fun method =>
        (keys (imp.oasValidators method).perPathValidators).map fun path => (method, path))) =
      some (.ok [(.GET, lit "/a")]) := by
    decide +kernel
  obtain ⟨r, hr, hmap⟩ := Option.map_eq_some_iff.mp hrun
  obtain ⟨imp, rfl, hheld⟩ := map_eq_ok_iff.mp hmap
  exact ⟨imp, hr, fun next => by rw [OASValidatorImp.held, hheld, List.zipIdx_singleton]⟩

open World

theorem step_oneStore {w : World} {validator : Nat} (h : w.validators validator = none) :
    step RapidJson.plain .insertion (fun _ => none) 60 w (.construct validator oneStore []) =
      some { w with
        validators := Function.update w.validators validator (some [((.GET, lit "/a"), w.allocated)])
        allocated := w.allocated + 1 } := by
  obtain ⟨imp, himp, hheld⟩ := oneStore_built
  simp [step, h, himp, hheld]

/-- Two validators, a copy of the first one, and the second one assigned over with the copy. -/
def copiedAndAssigned : List Lifetime :=
  [.construct 0 oneStore [], .construct 1 oneStore [], .copyConstruct 2 0, .assign 1 2]

/-- The assignment releases the store that the second one alone held. -/
theorem runSound_iff_copied :
    ∃ w, run RapidJson.plain .insertion (fun _ => none) 60 {} copiedAndAssigned = some w ∧
      RunSound RapidJson.plain .insertion (fun _ => none) 60 {} copiedAndAssigned := by
  have hfirst := @step_oneStore {} 0 rfl
  have hsecond := @step_oneStore
    ⟨Function.update (fun _ => none) 0 (some [((.GET, lit "/a"), 0)]), [], 1⟩ 1 rfl
  obtain ⟨w, hw⟩ : ∃ w, run RapidJson.plain .insertion (fun _ => none) 60 {} copiedAndAssigned =
      some w := by
    simp only [copiedAndAssigned, run, hfirst, hsecond, Option.bind_some]
    exact ⟨_, rfl⟩
  refine ⟨w, hw, (runSound_iff hw).mpr ?_⟩
  refine runExclusive_cons trivial hfirst (runExclusive_cons trivial hsecond
    (runExclusive_cons trivial rfl (runExclusive_cons ?_ rfl runExclusive_nil)))
  rintro - ⟨held, other, otherHeld, id, hheld, hne, hother, hid, hid'⟩
  obtain rfl := Option.some.inj hheld
  obtain rfl : id = 1 := by simpa [Held.ids] using hid
  have hstores : otherHeld = [((.GET, lit "/a"), 0)] := by
    by_cases h2 : other = 2
    · subst h2
      exact (Option.some.inj hother).symm
    · by_cases h0 : other = 0
      · subst h0
        exact (Option.some.inj hother).symm
      · simp [Function.update_of_ne h2, Function.update_of_ne hne, Function.update_of_ne h0] at hother
  simp [hstores, Held.ids] at hid'

/-- When a validator is copied and both are destroyed, their one store is released twice. -/
theorem copied_store_released_twice : ¬∀ (rj : RapidJson Json) (order : Hashing)
    (files : Bytes → Option Bytes) (fuel : Nat) (ops : List Lifetime) (w : World),
      run rj order files fuel {} ops = some w → w.Sound := by
  intro h
  have hfirst := @step_oneStore {} 0 rfl
  have hrun : ∃ w, run RapidJson.plain .insertion (fun _ => none) 60 {}
      [.construct 0 oneStore [], .copyConstruct 1 0, .destroy 0, .destroy 1] = some w ∧
      w.released = [0, 0] := by
    rw [run, hfirst]
    exact ⟨_, rfl, rfl⟩
  obtain ⟨w, hw, hreleased⟩ := hrun
  have honce := (h _ _ _ _ _ w hw).once
  rw [hreleased] at honce
  simp at honce

end OasValidator
