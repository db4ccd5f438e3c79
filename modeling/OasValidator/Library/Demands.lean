import Mathlib.Tactic.Common

/-! What a computation asks of its input, in the order in which it asks.  The computation ends at the
first demand that is not met, by an error that is either reported as the computation promises or not,
and the demand says which. -/

namespace Library.Demands

structure Demand where
  met : Bool
  reported : Bool
  deriving DecidableEq

/-- A demand that the computation checks, and reports where it is not met. -/
def checked (met : Bool) : Demand := ⟨met, true⟩

/-- A demand that the computation relies on. -/
def needed (met : Bool) : Demand := ⟨met, false⟩

/-- The first demand that is not met. -/
def unmet (ds : List Demand) : Option Demand := ds.find? fun d => !d.met

/-- The first demand that is not met, if there is one, is a checked one. -/
def Settled (ds : List Demand) : Prop := ∀ d ∈ unmet ds, d.reported = true

instance (ds : List Demand) : Decidable (Settled ds) :=
  inferInstanceAs (Decidable (∀ d ∈ unmet ds, d.reported = true))

@[simp] theorem unmet_nil : unmet [] = none := rfl

theorem unmet_append (ds ds' : List Demand) : unmet (ds ++ ds') = (unmet ds).or (unmet ds') :=
  List.find?_append

theorem unmet_eq_none_iff {ds : List Demand} : unmet ds = none ↔ ∀ d ∈ ds, d.met = true := by
  simp [unmet]

/-- What comes in front of a demand that is not checked and not met has something that is not met. -/
theorem settled_iff {ds : List Demand} : Settled ds ↔
    ∀ before d behind, ds = before ++ d :: behind → (∀ b ∈ before, b.met = true) →
      d.met = true ∨ d.reported = true := by
  constructor
  · rintro h before d behind rfl hbefore
    by_cases hd : d.met = true
    · exact Or.inl hd
    · refine Or.inr (h d ?_)
      rw [unmet_append, unmet_eq_none_iff.mpr hbefore, Option.none_or]
      simp [unmet, hd]
  · intro h d hd
    obtain ⟨hmet, before, behind, rfl, hbefore⟩ := List.find?_eq_some_iff_append.mp hd
    have hcase := h before d behind rfl (by simpa using hbefore)
    simp only [Bool.not_eq_true'] at hmet
    simpa [hmet] using hcase

section

variable {ε α β : Type} {R : ε → Prop}

/-- The computation returns a value with the property if all demands are met, and otherwise ends by an
error that is reported exactly if the first one that is not met is a checked one. -/
def Asks (R : ε → Prop) (ds : List Demand) (x : Except ε α) (Q : α → Prop) : Prop :=
  match unmet ds with
  | none => ∃ a, x = .ok a ∧ Q a
  | some d => ∃ e, x = .error e ∧ (R e ↔ d.reported = true)

namespace Asks

variable {ds ds' : List Demand} {x : Except ε α} {f : α → Except ε β} {Q : α → Prop} {P : β → Prop}

theorem ok {a : α} (h : Q a) : Asks R [] (.ok a) Q := ⟨a, rfl, h⟩

theorem returned {a : α} (h : x = .ok a) (ha : Q a) : Asks R [] x Q := ⟨a, h, ha⟩

theorem one {d : Demand} (hmet : d.met = true → ∃ a, x = .ok a ∧ Q a)
    (hunmet : d.met = false → ∃ e, x = .error e ∧ (R e ↔ d.reported = true)) : Asks R [d] x Q := by
  cases hd : d.met with
  | true =>
    have hnone : unmet [d] = none := by simp [unmet, hd]
    rw [Asks, hnone]
    exact hmet hd
  | false =>
    have hsome : unmet [d] = some d := by simp [unmet, hd]
    rw [Asks, hsome]
    exact hunmet hd

theorem mono (h : Asks R ds x Q) {Q' : α → Prop} (hQ : ∀ a, Q a → Q' a) : Asks R ds x Q' := by
  unfold Asks at h ⊢
  split
  · rename_i hnone
    rw [hnone] at h
    obtain ⟨a, ha, hq⟩ := h
    exact ⟨a, ha, hQ a hq⟩
  · rename_i d hsome
    rw [hsome] at h
    exact h

/-- Two computations in a row ask what the first asks, and then what the second asks. -/
theorem bind (hx : Asks R ds x Q) (hf : ∀ a, Q a → Asks R ds' (f a) P) :
    Asks R (ds ++ ds') (x >>= f) P := by
  unfold Asks at hx
  rw [Asks, unmet_append]
  split at hx
  · rename_i hnone
    obtain ⟨a, rfl, ha⟩ := hx
    rw [hnone, Option.none_or]
    exact hf a ha
  · rename_i d hsome
    obtain ⟨e, rfl, he⟩ := hx
    rw [hsome, Option.some_or]
    exact ⟨e, rfl, he⟩

theorem thenPure (hx : Asks R ds x Q) {g : α → β} (hg : ∀ a, Q a → P (g a)) :
    Asks R ds (x >>= fun a => .ok (g a)) P := by
  rw [← List.append_nil ds]
  exact hx.bind fun a ha => .ok (hg a ha)

theorem rejected {e : ε} (h : R e) (ds : List Demand) :
    Asks R (checked false :: ds) (.error e : Except ε α) Q :=
  ⟨e, rfl, iff_of_true h rfl⟩

/-- A check in front of a computation. -/
theorem check {c : Bool} {e : ε} (he : R e) (h : c = true → Asks R ds x Q) :
    Asks R (checked c :: ds) (if c = true then x else .error e) Q := by
  cases c with
  | true => exact h rfl
  | false => exact rejected he ds

/-- A branch on a condition that the demands name. -/
theorem branch {c : Bool} {y : Except ε α} (hx : c = true → Asks R ds x Q)
    (hy : c = false → Asks R ds' y Q) :
    Asks R (if c = true then ds else ds') (if c = true then x else y) Q := by
  cases c with
  | true => exact hx rfl
  | false => exact hy rfl

/-- A demand that is met. -/
theorem met {d : Demand} (hd : d.met = true) (h : Asks R ds x Q) : Asks R (d :: ds) x Q := by
  have hunmet : unmet (d :: ds) = unmet ds := by simp [unmet, hd]
  rwa [Asks, hunmet]

/-- What comes back has the property. -/
theorem of_ok {a : α} (h : Asks R ds (.ok a : Except ε α) Q) : Q a := by
  unfold Asks at h
  split at h
  · obtain ⟨b, hb, hq⟩ := h
    obtain rfl := Except.ok.inj hb
    exact hq
  · obtain ⟨e, he, -⟩ := h
    cases he

/-- The computation returns if and only if all demands are met. -/
theorem ok_iff (h : Asks R ds x Q) : (∃ a, x = .ok a) ↔ ∀ d ∈ ds, d.met = true := by
  rw [← unmet_eq_none_iff]
  unfold Asks at h
  split at h
  · rename_i hnone
    obtain ⟨a, ha, -⟩ := h
    exact iff_of_true ⟨a, ha⟩ hnone
  · rename_i d hsome
    obtain ⟨e, rfl, -⟩ := h
    simp [hsome]

/-- The computation returns, or ends by an error that is reported. -/
theorem settled_iff (h : Asks R ds x Q) :
    ((∃ a, x = .ok a) ∨ ∃ e, x = .error e ∧ R e) ↔ Settled ds := by
  unfold Asks at h
  split at h
  · rename_i hnone
    obtain ⟨a, ha, -⟩ := h
    exact iff_of_true (Or.inl ⟨a, ha⟩) (by simp [Settled, hnone])
  · rename_i d hsome
    obtain ⟨e, rfl, he⟩ := h
    simp [Settled, hsome, he]

end Asks

end

end Library.Demands
