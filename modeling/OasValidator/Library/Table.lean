import Mathlib.Tactic.Common

/-! Tables from keys to values as lists of pairs in order of insertion.  `List.lookup` finds the
value of a key; `put` assigns one, and `emplace` adds one for a key the table does not have. -/

namespace Library.Table

variable {κ : Type} {ν : Type}

/-- The keys of a table, oldest first. -/
def keys (t : List (κ × ν)) : List κ := t.map Prod.fst

@[simp] theorem keys_nil : keys ([] : List (κ × ν)) = [] := rfl

@[simp] theorem keys_cons (p : κ × ν) (t : List (κ × ν)) : keys (p :: t) = p.1 :: keys t := rfl

@[simp] theorem keys_append (t u : List (κ × ν)) : keys (t ++ u) = keys t ++ keys u := by
  simp [keys]

variable [BEq κ]

/-- Assigns `v` to `k`, in place when the table has `k` and behind all other keys otherwise. -/
def put (k : κ) (v : ν) : List (κ × ν) → List (κ × ν)
  | [] => [(k, v)]
  | (k', v') :: t => if k == k' then (k, v) :: t else (k', v') :: put k v t

/-- Adds `v` under `k` unless the table has `k`. -/
def emplace (k : κ) (v : ν) (t : List (κ × ν)) : List (κ × ν) :=
  if (t.lookup k).isSome then t else t ++ [(k, v)]

theorem lookup_cons_eq_if (j : κ) (p : κ × ν) (t : List (κ × ν)) :
    (p :: t).lookup j = if j == p.1 then some p.2 else t.lookup j := by
  rw [List.lookup_cons]
  cases j == p.1 <;> rfl

/-- What is in a table after `emplace` was in it before, or is the new entry. -/
theorem mem_emplace {k j : κ} {v w : ν} {t : List (κ × ν)} (h : (j, w) ∈ emplace k v t) :
    (j, w) ∈ t ∨ (j = k ∧ w = v) := by
  unfold emplace at h
  split at h
  · exact Or.inl h
  · simpa using h

variable [LawfulBEq κ]

theorem lookup_isSome_iff {t : List (κ × ν)} {k : κ} : (t.lookup k).isSome ↔ k ∈ keys t := by
  simp [keys, List.lookup_isSome_iff]

theorem lookup_eq_none_iff {t : List (κ × ν)} {k : κ} : t.lookup k = none ↔ k ∉ keys t := by
  rw [← lookup_isSome_iff, Option.not_isSome_iff_eq_none]

theorem mem_keys_of_lookup {t : List (κ × ν)} {k : κ} {v : ν} (h : t.lookup k = some v) :
    k ∈ keys t :=
  lookup_isSome_iff.mp (by simp [h])

theorem mem_of_lookup {t : List (κ × ν)} {k : κ} {v : ν} (h : t.lookup k = some v) :
    (k, v) ∈ t := by
  obtain ⟨l₁, l₂, rfl, -⟩ := List.lookup_eq_some_iff.mp h
  simp

theorem exists_lookup {t : List (κ × ν)} {k : κ} (h : k ∈ keys t) : ∃ v, t.lookup k = some v :=
  Option.isSome_iff_exists.mp (lookup_isSome_iff.mpr h)

theorem lookup_put (k j : κ) (v : ν) (t : List (κ × ν)) :
    (put k v t).lookup j = if j == k then some v else t.lookup j := by
  induction t with
  | nil => exact lookup_cons_eq_if j (k, v) []
  | cons p t ih =>
    by_cases hk : k = p.1
    · subst hk
      rw [put, if_pos BEq.rfl, lookup_cons_eq_if, lookup_cons_eq_if]
      split <;> rfl
    · rw [put, if_neg (by simpa using hk), lookup_cons_eq_if, lookup_cons_eq_if, ih]
      by_cases h : j = p.1
      · simp [h, Ne.symm hk]
      · simp [h]

/-- Assigning under a key the table has keeps the keys; under a new key it adds the key last. -/
theorem keys_put (k : κ) (v : ν) (t : List (κ × ν)) :
    keys (put k v t) = if k ∈ keys t then keys t else keys t ++ [k] := by
  induction t with
  | nil => rfl
  | cons p t ih =>
    obtain ⟨k', v'⟩ := p
    by_cases hk : k = k'
    · simp [put, hk]
    · rw [put, if_neg (by simpa using hk), keys_cons, ih, keys_cons]
      by_cases h : k ∈ keys t <;> simp [h, hk]

theorem nodup_keys_put {k : κ} {v : ν} {t : List (κ × ν)} (h : (keys t).Nodup) :
    (keys (put k v t)).Nodup := by
  rw [keys_put]
  split
  · exact h
  · rename_i hk
    rw [List.nodup_append]
    refine ⟨h, by simp, ?_⟩
    rintro a ha b hb rfl
    exact hk (List.mem_singleton.mp hb ▸ ha)

/-- With distinct keys, each entry is found. -/
theorem lookup_of_mem {k : κ} {v : ν} {t : List (κ × ν)} (h : (keys t).Nodup) (hmem : (k, v) ∈ t) :
    t.lookup k = some v := by
  induction t with
  | nil => simp at hmem
  | cons p t ih =>
    rw [keys_cons, List.nodup_cons] at h
    rw [lookup_cons_eq_if]
    rcases List.mem_cons.mp hmem with rfl | hmem
    · simp
    · have hne : k ≠ p.1 := fun e => h.1 (e ▸ List.mem_map_of_mem (f := Prod.fst) hmem)
      rw [if_neg (by simpa using hne)]
      exact ih h.2 hmem

theorem put_put (k : κ) (v w : ν) (t : List (κ × ν)) : put k w (put k v t) = put k w t := by
  induction t with
  | nil => simp [put]
  | cons p t ih =>
    obtain ⟨k', v'⟩ := p
    by_cases hk : k = k'
    · simp [put, hk]
    · simp [put, hk, ih]

/-- Assigning the value that a key has changes nothing. -/
theorem put_of_lookup {k : κ} {v : ν} {t : List (κ × ν)} (h : t.lookup k = some v) :
    put k v t = t := by
  induction t with
  | nil => simp at h
  | cons p t ih =>
    obtain ⟨k', v'⟩ := p
    rw [lookup_cons_eq_if] at h
    by_cases hk : k = k'
    · simp_all [put]
    · simp only [beq_iff_eq, hk, if_false] at h
      simp [put, hk, ih h]

theorem lookup_emplace (k j : κ) (v : ν) (t : List (κ × ν)) :
    (emplace k v t).lookup j = if j == k && !decide (k ∈ keys t) then some v else t.lookup j := by
  unfold emplace
  by_cases h : k ∈ keys t
  · simp [lookup_isSome_iff.mpr h, h]
  · have hnone := lookup_eq_none_iff.mpr h
    rw [if_neg (by simp [hnone]), List.lookup_append, lookup_cons_eq_if]
    by_cases hj : j = k
    · subst hj
      simp [hnone, h]
    · cases t.lookup j <;> simp [hj]

theorem keys_emplace (k : κ) (v : ν) (t : List (κ × ν)) :
    keys (emplace k v t) = if k ∈ keys t then keys t else keys t ++ [k] := by
  unfold emplace
  by_cases h : k ∈ keys t
  · simp [lookup_isSome_iff.mpr h, h]
  · rw [if_neg (by simp [lookup_eq_none_iff.mpr h]), if_neg h]
    simp [keys]

theorem mem_keys_emplace {k j : κ} {v : ν} {t : List (κ × ν)} :
    j ∈ keys (emplace k v t) ↔ j ∈ keys t ∨ j = k := by
  rw [keys_emplace]
  split
  · rename_i h
    exact ⟨Or.inl, fun hj => hj.elim id fun e => e ▸ h⟩
  · simp

end Library.Table
