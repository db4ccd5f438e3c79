import Mathlib.Data.List.Count
import Mathlib.Logic.Function.Basic

/-! Threads that change objects under locks.  A thread takes the lock of an object, changes the object and
goes on with what it found there, and frees the lock; the steps of the threads come in any order.  Where
a thread holds one lock at a time, changes the object of that lock alone, and puts it back before it
frees the lock, each thread ends as it does alone. -/

namespace Library.Locks

/-- What a thread still has to do: `ι` names the objects, `σ` are their states, and the thread ends with
an `ρ`. -/
inductive Thread (ι σ ρ : Type)
  | done (result : ρ)
  | lock (i : ι) (next : Thread ι σ ρ)
  | change (i : ι) (f : σ → σ) (next : σ → Thread ι σ ρ)
  | unlock (i : ι) (next : Thread ι σ ρ)

variable {τ ι σ ρ : Type}

/-- The next step of the thread changes the object. -/
def Thread.Changes : Thread ι σ ρ → ι → Prop
  | .change i _ _, j => i = j
  | _, _ => False

def Thread.Done : Thread ι σ ρ → Prop
  | .done _ => True
  | _ => False

/-- The objects, who holds their locks, and the threads. -/
structure Pool (τ ι σ ρ : Type) where
  objects : ι → σ
  holder : ι → Option τ
  threads : τ → Thread ι σ ρ

namespace Pool

/-- All locks are free. -/
def start (objects : ι → σ) (threads : τ → Thread ι σ ρ) : Pool τ ι σ ρ := ⟨objects, fun _ => none, threads⟩

section

variable [DecidableEq τ] [DecidableEq ι]

/-- A step of a thread.  One that has ended has none, nor has one that waits for a lock; the lock does
not keep other threads from the object. -/
def step (s : Pool τ ι σ ρ) (t : τ) : Option (Pool τ ι σ ρ) :=
  match s.threads t with
  | .done _ => none
  | .lock i next =>
    match s.holder i with
    | none => some ⟨s.objects, Function.update s.holder i (some t), Function.update s.threads t next⟩
    | some _ => none
  | .change i f next =>
    some ⟨Function.update s.objects i (f (s.objects i)), s.holder,
      Function.update s.threads t (next (s.objects i))⟩
  | .unlock i next =>
    some ⟨s.objects, Function.update s.holder i none, Function.update s.threads t next⟩

/-- The steps of the threads in the order of the schedule. -/
def run (schedule : List τ) (s : Pool τ ι σ ρ) : Option (Pool τ ι σ ρ) := schedule.foldlM step s

/-- What a thread can do in one step. -/
theorem step_cases {s s' : Pool τ ι σ ρ} {t : τ} (h : s.step t = some s') :
    (∃ i next, s.threads t = .lock i next ∧ s.holder i = none ∧
      s' = ⟨s.objects, Function.update s.holder i (some t), Function.update s.threads t next⟩) ∨
    (∃ i f next, s.threads t = .change i f next ∧
      s' = ⟨Function.update s.objects i (f (s.objects i)), s.holder,
        Function.update s.threads t (next (s.objects i))⟩) ∨
    ∃ i next, s.threads t = .unlock i next ∧
      s' = ⟨s.objects, Function.update s.holder i none, Function.update s.threads t next⟩ := by
  unfold step at h
  split at h
  · simp at h
  · rename_i i next hthread
    split at h
    · rename_i hfree
      exact Or.inl ⟨i, next, hthread, hfree, (Option.some.inj h).symm⟩
    · simp at h
  · rename_i i f next hthread
    exact Or.inr (Or.inl ⟨i, f, next, hthread, (Option.some.inj h).symm⟩)
  · rename_i i next hthread
    exact Or.inr (Or.inr ⟨i, next, hthread, (Option.some.inj h).symm⟩)

end

end Pool

/-- A thread that holds at most one lock, with the state of its object, ends after so many steps with the
result, if nobody else changes that object. -/
inductive Ends (rest : ι → σ) : Option (ι × σ) → Thread ι σ ρ → Nat → ρ → Prop
  | done (r : ρ) : Ends rest none (.done r) 0 r
  | lock {i : ι} {next : Thread ι σ ρ} {n : Nat} {r : ρ} (h : Ends rest (some (i, rest i)) next n r) :
    Ends rest none (.lock i next) (n + 1) r
  | change {i : ι} {x : σ} {f : σ → σ} {next : σ → Thread ι σ ρ} {n : Nat} {r : ρ}
    (h : Ends rest (some (i, f x)) (next x) n r) : Ends rest (some (i, x)) (.change i f next) (n + 1) r
  | unlock {i : ι} {next : Thread ι σ ρ} {n : Nat} {r : ρ} (h : Ends rest none next n r) :
    Ends rest (some (i, rest i)) (.unlock i next) (n + 1) r

section

variable {rest : ι → σ} {holds : Option (ι × σ)} {i : ι} {m : Nat} {r : ρ}

theorem ends_done_iff {r' : ρ} : Ends rest holds (.done r') m r ↔ holds = none ∧ m = 0 ∧ r = r' := by
  constructor
  · intro h
    cases h
    exact ⟨rfl, rfl, rfl⟩
  · rintro ⟨rfl, rfl, rfl⟩
    exact .done r

theorem ends_lock_iff {next : Thread ι σ ρ} : Ends rest holds (.lock i next) m r ↔
    holds = none ∧ ∃ n, m = n + 1 ∧ Ends rest (some (i, rest i)) next n r := by
  constructor
  · intro h
    cases h with
    | lock h => exact ⟨rfl, _, rfl, h⟩
  · rintro ⟨rfl, n, rfl, h⟩
    exact .lock h

theorem ends_change_iff {f : σ → σ} {next : σ → Thread ι σ ρ} : Ends rest holds (.change i f next) m r ↔
    ∃ x, holds = some (i, x) ∧ ∃ n, m = n + 1 ∧ Ends rest (some (i, f x)) (next x) n r := by
  constructor
  · intro h
    cases h with
    | change h => exact ⟨_, rfl, _, rfl, h⟩
  · rintro ⟨x, rfl, n, rfl, h⟩
    exact .change h

theorem ends_unlock_iff {next : Thread ι σ ρ} : Ends rest holds (.unlock i next) m r ↔
    holds = some (i, rest i) ∧ ∃ n, m = n + 1 ∧ Ends rest none next n r := by
  constructor
  · intro h
    cases h with
    | unlock h => exact ⟨rfl, _, rfl, h⟩
  · rintro ⟨rfl, n, rfl, h⟩
    exact .unlock h

end

/-- Each thread holds at most one lock and ends with its result from here on, and the objects whose locks
are free are at rest. -/
structure Orderly (rest : ι → σ) (results : τ → ρ) (held : τ → Option ι) (steps : τ → Nat)
    (s : Pool τ ι σ ρ) : Prop where
  ends : ∀ t, Ends rest ((held t).map fun i => (i, s.objects i)) (s.threads t) (steps t) (results t)
  holder : ∀ i t, s.holder i = some t ↔ held t = some i
  free : ∀ i, s.holder i = none → s.objects i = rest i

namespace Orderly

variable {rest : ι → σ} {results : τ → ρ} {held : τ → Option ι} {steps : τ → Nat} {s s' : Pool τ ι σ ρ}
  {t : τ} {i : ι}

theorem start {threads : τ → Thread ι σ ρ} (h : ∀ t, Ends rest none (threads t) (steps t) (results t)) :
    Orderly rest results (fun _ => none) steps (Pool.start rest threads) where
  ends := h
  holder i t := by simp [Pool.start]
  free i _ := rfl

/-- The lock that a thread holds when its next step is one on an object. -/
theorem held_of_some (h : Orderly rest results held steps s) {x : σ}
    (hx : (held t).map (fun i => (i, s.objects i)) = some (i, x)) :
    held t = some i ∧ s.holder i = some t ∧ x = s.objects i := by
  obtain ⟨j, hj, heq⟩ := Option.map_eq_some_iff.mp hx
  obtain ⟨rfl, rfl⟩ := Prod.mk.inj heq
  exact ⟨hj, (h.holder j t).mpr hj, rfl⟩

section

variable [DecidableEq τ] [DecidableEq ι]

theorem lock (h : Orderly rest results held steps s) {next : Thread ι σ ρ}
    (hthread : s.threads t = .lock i next) (hfree : s.holder i = none) :
    ∃ n, steps t = n + 1 ∧ Orderly rest results (Function.update held t (some i))
      (Function.update steps t n)
      ⟨s.objects, Function.update s.holder i (some t), Function.update s.threads t next⟩ := by
  have hends := h.ends t
  rw [hthread, ends_lock_iff] at hends
  obtain ⟨hnone, n, hn, hends⟩ := hends
  have hheld : held t = none := Option.map_eq_none_iff.mp hnone
  refine ⟨n, hn, ⟨fun u => ?_, fun j u => ?_, fun j hj => ?_⟩⟩
  · rcases eq_or_ne u t with rfl | hu
    · simpa [h.free i hfree] using hends
    · simpa [hu] using h.ends u
  · have hju := h.holder j u
    rcases eq_or_ne j i with rfl | hji
    · rcases eq_or_ne u t with rfl | hu
      · simp
      · rw [hfree] at hju
        simpa [hu, hu.symm] using hju
    · rcases eq_or_ne u t with rfl | hu
      · rw [hheld] at hju
        simpa [hji, hji.symm] using hju
      · simpa [hji, hu] using hju
  · rcases eq_or_ne j i with rfl | hji
    · simp at hj
    · exact h.free j (by simpa [hji] using hj)

theorem change (h : Orderly rest results held steps s) {f : σ → σ} {next : σ → Thread ι σ ρ}
    (hthread : s.threads t = .change i f next) :
    ∃ n, steps t = n + 1 ∧ Orderly rest results held (Function.update steps t n)
      ⟨Function.update s.objects i (f (s.objects i)), s.holder,
        Function.update s.threads t (next (s.objects i))⟩ := by
  have hends := h.ends t
  rw [hthread, ends_change_iff] at hends
  obtain ⟨x, hx, n, hn, hends⟩ := hends
  obtain ⟨hheld, hholder, rfl⟩ := h.held_of_some hx
  refine ⟨n, hn, ⟨fun u => ?_, h.holder, fun j hj => ?_⟩⟩
  · rcases eq_or_ne u t with rfl | hu
    · simpa [hheld] using hends
    -- another thread holds another lock, whose object is as it was
    · have hother : ∀ j, held u = some j → j ≠ i := by
        rintro j hj rfl
        have htu := ((h.holder j u).mpr hj).symm.trans hholder
        exact hu (Option.some.inj htu)
      have hends := h.ends u
      cases hj : held u with
      | none => simpa [hj, hu] using hends
      | some j => simpa [hj, hu, hother j hj] using hends
  · have hji : j ≠ i := by
      rintro rfl
      exact nomatch hj.symm.trans hholder
    simpa [hji] using h.free j hj

theorem unlock (h : Orderly rest results held steps s) {next : Thread ι σ ρ}
    (hthread : s.threads t = .unlock i next) :
    ∃ n, steps t = n + 1 ∧ Orderly rest results (Function.update held t none)
      (Function.update steps t n)
      ⟨s.objects, Function.update s.holder i none, Function.update s.threads t next⟩ := by
  have hends := h.ends t
  rw [hthread, ends_unlock_iff] at hends
  obtain ⟨hx, n, hn, hends⟩ := hends
  obtain ⟨hheld, hholder, hrest⟩ := h.held_of_some hx
  refine ⟨n, hn, ⟨fun u => ?_, fun j u => ?_, fun j hj => ?_⟩⟩
  · rcases eq_or_ne u t with rfl | hu
    · simpa using hends
    · simpa [hu] using h.ends u
  · have hju := h.holder j u
    rcases eq_or_ne j i with rfl | hji
    · rcases eq_or_ne u t with rfl | hu
      · simp
      · rw [hholder] at hju
        simpa [hu, hu.symm] using hju
    · rcases eq_or_ne u t with rfl | hu
      · rw [hheld] at hju
        simpa [hji, hji.symm] using hju
      · simpa [hji, hu] using hju
  · rcases eq_or_ne j i with rfl | hji
    · exact hrest.symm
    · exact h.free j (by simpa [hji] using hj)

/-- A step of a thread is one less that it has to take. -/
theorem step (h : Orderly rest results held steps s) (hstep : s.step t = some s') :
    ∃ held' n, steps t = n + 1 ∧ Orderly rest results held' (Function.update steps t n) s' := by
  obtain ⟨i, next, hthread, hfree, rfl⟩ | ⟨i, f, next, hthread, rfl⟩ | ⟨i, next, hthread, rfl⟩ :=
    Pool.step_cases hstep
  · exact ⟨_, h.lock hthread hfree⟩
  · exact ⟨_, h.change hthread⟩
  · exact ⟨_, h.unlock hthread⟩

/-- Behind any schedule each thread has so many steps to take as it has not taken yet. -/
theorem run (h : Orderly rest results held steps s) {schedule : List τ}
    (hrun : s.run schedule = some s') :
    ∃ held' left, (∀ t, left t + schedule.count t = steps t) ∧ Orderly rest results held' left s' := by
  induction schedule generalizing s held steps with
  | nil =>
    obtain rfl := Option.some.inj hrun
    exact ⟨held, steps, by simp, h⟩
  | cons t schedule ih =>
    obtain ⟨s₁, hstep, hrun⟩ := Option.bind_eq_some_iff.mp hrun
    obtain ⟨held₁, n, hn, h₁⟩ := h.step hstep
    obtain ⟨held', left, hleft, h'⟩ := ih h₁ hrun
    refine ⟨held', left, fun u => ?_, h'⟩
    have hu := hleft u
    rcases eq_or_ne u t with rfl | hne
    · rw [Function.update_self] at hu
      rw [List.count_cons_self]
      omega
    · rw [Function.update_of_ne hne] at hu
      rw [List.count_cons_of_ne hne.symm]
      omega

/-- While a thread has not ended, one can take a step: the holder of a lock never waits. -/
theorem progress (h : Orderly rest results held steps s) (hnot : ¬(s.threads t).Done) :
    ∃ u, (s.step u).isSome := by
  have hends := h.ends t
  cases hthread : s.threads t with
  | done r => simp [hthread, Thread.Done] at hnot
  | change i f next => exact ⟨t, by simp [Pool.step, hthread]⟩
  | unlock i next => exact ⟨t, by simp [Pool.step, hthread]⟩
  | lock i next =>
    cases hholder : s.holder i with
    | none => exact ⟨t, by simp [Pool.step, hthread, hholder]⟩
    | some u =>
      have hu := h.ends u
      rw [(h.holder i u).mp hholder] at hu
      refine ⟨u, ?_⟩
      cases hother : s.threads u with
      | done r => simp [hother, ends_done_iff] at hu
      | lock j next => simp [hother, ends_lock_iff] at hu
      | change j f next => simp [Pool.step, hother]
      | unlock j next => simp [Pool.step, hother]

end

theorem result (h : Orderly rest results held steps s) {r : ρ} (hr : s.threads t = .done r) :
    r = results t := by
  have hends := h.ends t
  rw [hr, ends_done_iff] at hends
  exact hends.2.2.symm

/-- A thread that changes an object holds its lock. -/
theorem holds (h : Orderly rest results held steps s) (hi : (s.threads t).Changes i) :
    s.holder i = some t := by
  have hends := h.ends t
  cases hthread : s.threads t with
  | change j f next =>
    obtain rfl : j = i := by simpa [hthread, Thread.Changes] using hi
    rw [hthread, ends_change_iff] at hends
    obtain ⟨x, hx, -⟩ := hends
    exact (h.held_of_some hx).2.1
  | _ => simp [hthread, Thread.Changes] at hi

/-- When all threads have ended, all objects are at rest. -/
theorem at_rest (h : Orderly rest results held steps s) (hdone : ∀ t, (s.threads t).Done) :
    s.objects = rest := by
  funext i
  apply h.free
  cases hholder : s.holder i with
  | none => rfl
  | some t =>
    have hends := h.ends t
    rw [(h.holder i t).mp hholder] at hends
    have hdone := hdone t
    cases hthread : s.threads t with
    | done r => simp [hthread, ends_done_iff] at hends
    | _ => simp [hthread, Thread.Done] at hdone

end Orderly

end Library.Locks
