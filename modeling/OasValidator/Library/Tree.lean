import Mathlib.Algebra.GroupWithZero.Nat
import OasValidator.Library.Json

/-! Places in a JSON value.  A place is the list of the indices of items and members that lead to a
value; `at?` reads the value at a place and `setAt` puts another one there. -/

namespace Library.Json

abbrev Place := List Nat

namespace Value

/-- The items of an array, or the values of the members of an object. -/
def children : Value → List Value
  | .array items => items
  | .object members => members.map Prod.snd
  | _ => []

def withChild (v : Value) (i : Nat) (w : Value) : Value :=
  match v with
  | .array items => .array (items.set i w)
  | .object members => .object (members.modify i fun m => (m.1, w))
  | v => v

def at? : Value → Place → Option Value
  | v, [] => some v
  | v, i :: p =>
    match v.children[i]? with
    | some child => child.at? p
    | none => none

/-- A place that the value does not have is not set. -/
def setAt : Value → Place → Value → Value
  | _, [], w => w
  | v, i :: p, w =>
    match v.children[i]? with
    | some child => v.withChild i (child.setAt p w)
    | none => v

/-- The first member of a name, with its index. -/
def findMember (v : Value) (name : List UInt8) : Option (Nat × Value) :=
  match v with
  | .object members =>
    (members.findIdx? (·.1 = name)).bind fun i => members[i]?.map fun m => (i, m.2)
  | _ => none

/-! ### Reading and setting -/

section

variable {v u w : Value} {p : Place} {i : Nat}

@[simp] theorem at?_nil (v : Value) : v.at? [] = some v := by cases v <;> rfl

@[simp] theorem setAt_nil (v w : Value) : v.setAt [] w = w := by cases v <;> rfl

theorem at?_cons (v : Value) (i : Nat) (p : Place) :
    v.at? (i :: p) = v.children[i]?.bind (·.at? p) := by
  cases v <;> simp only [at?] <;> split <;> simp [*]

theorem setAt_cons {child : Value} (h : v.children[i]? = some child) (p : Place) (w : Value) :
    v.setAt (i :: p) w = v.withChild i (child.setAt p w) := by
  cases v <;> simp [setAt, h]

theorem exists_split {α : Type} {l : List α} {a : α} (h : l[i]? = some a) :
    ∃ before behind, before.length = i ∧ l = before ++ a :: behind := by
  obtain ⟨hi, rfl⟩ := List.getElem?_eq_some_iff.mp h
  refine ⟨l.take i, l.drop (i + 1), by simp; omega, ?_⟩
  rw [← List.drop_eq_getElem_cons hi, List.take_append_drop]

theorem withChild_item (before behind : List Value) (u w : Value) :
    (array (before ++ u :: behind)).withChild before.length w = .array (before ++ w :: behind) := by
  simp [withChild]

theorem withChild_member (before behind : List (List UInt8 × Value)) (name : List UInt8)
    (u w : Value) : (object (before ++ (name, u) :: behind)).withChild before.length w =
      .object (before ++ (name, w) :: behind) := by
  simp [withChild, List.modify_eq_take_cons_drop]

/-- A value with a child is an array or an object around it, and so is what `withChild` makes. -/
theorem child_cases (h : v.children[i]? = some u) :
    (∃ before behind, before.length = i ∧ v = .array (before ++ u :: behind) ∧
      ∀ w, v.withChild i w = .array (before ++ w :: behind)) ∨
    ∃ before name behind, before.length = i ∧ v = .object (before ++ (name, u) :: behind) ∧
      ∀ w, v.withChild i w = .object (before ++ (name, w) :: behind) := by
  cases v with
  | array items =>
    obtain ⟨before, behind, rfl, hitems⟩ := exists_split h
    obtain rfl : items = before ++ u :: behind := hitems
    exact Or.inl ⟨before, behind, rfl, rfl, withChild_item before behind u⟩
  | object members =>
    simp only [children, List.getElem?_map, Option.map_eq_some_iff] at h
    obtain ⟨⟨name, value⟩, hm, rfl⟩ := h
    obtain ⟨before, behind, rfl, rfl⟩ := exists_split hm
    exact Or.inr ⟨before, name, behind, rfl, rfl, withChild_member before behind name value⟩
  | null => simp [children] at h
  | bool b => simp [children] at h
  | number lexeme => simp [children] at h
  | string s => simp [children] at h

theorem children_withChild (h : v.children[i]? = some u) (w : Value) :
    (v.withChild i w).children = v.children.set i w := by
  obtain ⟨before, behind, rfl, rfl, hset⟩ | ⟨before, name, behind, rfl, rfl, hset⟩ := child_cases h
  · simp [hset, children]
  · rw [hset]
    simp [children]

theorem withChild_self (h : v.children[i]? = some u) : v.withChild i u = v := by
  obtain ⟨before, behind, -, rfl, hset⟩ | ⟨before, name, behind, -, rfl, hset⟩ := child_cases h
  · exact hset u
  · exact hset u

theorem withChild_withChild (h : v.children[i]? = some u) (w w' : Value) :
    (v.withChild i w).withChild i w' = v.withChild i w' := by
  cases v with
  | array items => simp [withChild]
  | object members => simp only [withChild, List.modify_modify_eq]; rfl
  | _ => rfl

theorem child_withChild (h : v.children[i]? = some u) (w : Value) :
    (v.withChild i w).children[i]? = some w := by
  rw [children_withChild h, List.getElem?_set_self (List.getElem?_eq_some_iff.mp h).1]

theorem findMember_eq_some_iff {members : List (List UInt8 × Value)} {name : List UInt8} :
    (Value.object members).findMember name = some (i, w) ↔
      members[i]? = some (name, w) ∧ ∀ j < i, ∀ m, members[j]? = some m → m.1 ≠ name := by
  simp only [findMember, Option.bind_eq_some_iff, Option.map_eq_some_iff, Prod.mk.injEq,
    List.findIdx?_eq_some_iff_getElem]
  constructor
  · rintro ⟨k, ⟨hk, hname, hfirst⟩, m, hm, rfl, rfl⟩
    obtain rfl : m = members[k] := Option.some.inj (hm.symm.trans (List.getElem?_eq_getElem hk))
    refine ⟨?_, fun j hj m' hm' => ?_⟩
    · rw [hm]
      simpa [Prod.ext_iff] using hname
    · obtain ⟨-, rfl⟩ := List.getElem?_eq_some_iff.mp hm'
      simpa using hfirst j hj
  · rintro ⟨hm, hfirst⟩
    obtain ⟨hi, hget⟩ := List.getElem?_eq_some_iff.mp hm
    refine ⟨i, ⟨hi, by simp [hget], fun j hj => ?_⟩, _, hm, rfl, rfl⟩
    have hj' : j < members.length := Nat.lt_trans hj hi
    simpa using hfirst j hj _ (List.getElem?_eq_getElem hj')

/-- The one member of its name is found. -/
theorem findMember_of_count {members : List (List UInt8 × Value)} {name : List UInt8}
    (hcount : (members.map Prod.fst).count name = 1) (h : members[i]? = some (name, w)) :
    (Value.object members).findMember name = some (i, w) := by
  obtain ⟨before, behind, hlength, rfl⟩ := exists_split h
  refine findMember_eq_some_iff.mpr ⟨h, fun j hj m hm heq => ?_⟩
  rw [List.getElem?_append_left (hlength ▸ hj)] at hm
  have hpos : 0 < (before.map Prod.fst).count name := by
    rw [List.count_pos_iff, ← heq]
    exact List.mem_map_of_mem (List.mem_of_getElem? hm)
  rw [List.map_append, List.count_append, List.map_cons, List.count_cons_self] at hcount
  omega

theorem findMember_of_not_mem {members : List (List UInt8 × Value)} {name : List UInt8}
    (h : name ∉ members.map Prod.fst) : (Value.object members).findMember name = none := by
  cases hfind : (Value.object members).findMember name with
  | none => rfl
  | some p =>
    have hfind' : (Value.object members).findMember name = some (p.1, p.2) := hfind
    obtain ⟨hm, -⟩ := findMember_eq_some_iff.mp hfind'
    exact absurd (List.mem_map_of_mem (f := Prod.fst) (List.mem_of_getElem? hm)) h

theorem at?_append (v : Value) (p q : Place) : v.at? (p ++ q) = (v.at? p).bind (·.at? q) := by
  induction p generalizing v with
  | nil => simp
  | cons i p ih =>
    rw [List.cons_append, at?_cons, at?_cons]
    cases v.children[i]? with
    | none => rfl
    | some child => exact ih child

/-- What was put at a place is there. -/
theorem at?_setAt (h : v.at? p = some u) (w : Value) : (v.setAt p w).at? p = some w := by
  induction p generalizing v with
  | nil => simp
  | cons i p ih =>
    rw [at?_cons] at h
    obtain ⟨child, hchild, h⟩ := Option.bind_eq_some_iff.mp h
    rw [setAt_cons hchild, at?_cons, child_withChild hchild]
    exact ih h

theorem setAt_self (h : v.at? p = some u) : v.setAt p u = v := by
  induction p generalizing v with
  | nil =>
    obtain rfl : v = u := by simpa using h
    simp
  | cons i p ih =>
    rw [at?_cons] at h
    obtain ⟨child, hchild, h⟩ := Option.bind_eq_some_iff.mp h
    rw [setAt_cons hchild, ih h, withChild_self hchild]

/-- Of two values put at one place the second stays. -/
theorem setAt_setAt (h : v.at? p = some u) (w w' : Value) :
    (v.setAt p w).setAt p w' = v.setAt p w' := by
  induction p generalizing v with
  | nil => simp
  | cons i p ih =>
    rw [at?_cons] at h
    obtain ⟨child, hchild, h⟩ := Option.bind_eq_some_iff.mp h
    rw [setAt_cons hchild, setAt_cons (child_withChild hchild _), ih h, setAt_cons hchild,
      withChild_withChild hchild]

/-- Setting below a place is setting in the value there. -/
theorem setAt_append (h : v.at? p = some u) (q : Place) (w : Value) :
    v.setAt (p ++ q) w = v.setAt p (u.setAt q w) := by
  induction p generalizing v with
  | nil =>
    obtain rfl : v = u := by simpa using h
    simp
  | cons i p ih =>
    rw [at?_cons] at h
    obtain ⟨child, hchild, h⟩ := Option.bind_eq_some_iff.mp h
    rw [List.cons_append, setAt_cons hchild, setAt_cons hchild, ih h]

theorem at?_item {before behind : List Value}
    (h : v.at? p = some (.array (before ++ u :: behind))) :
    v.at? (p ++ [before.length]) = some u := by
  rw [at?_append, h]
  simp [at?_cons, children]

theorem setAt_item {before behind : List Value}
    (h : v.at? p = some (.array (before ++ u :: behind))) (w : Value) :
    v.setAt (p ++ [before.length]) w = v.setAt p (.array (before ++ w :: behind)) := by
  have hchild : (array (before ++ u :: behind)).children[before.length]? = some u := by
    simp [children]
  rw [setAt_append h, setAt_cons hchild, setAt_nil, withChild_item]

theorem at?_member {before behind : List (List UInt8 × Value)} {name : List UInt8}
    (h : v.at? p = some (.object (before ++ (name, u) :: behind))) :
    v.at? (p ++ [before.length]) = some u := by
  rw [at?_append, h]
  simp [at?_cons, children]

theorem setAt_member {before behind : List (List UInt8 × Value)} {name : List UInt8}
    (h : v.at? p = some (.object (before ++ (name, u) :: behind))) (w : Value) :
    v.setAt (p ++ [before.length]) w = v.setAt p (.object (before ++ (name, w) :: behind)) := by
  have hchild : (object (before ++ (name, u) :: behind)).children[before.length]? = some u := by
    simp [children]
  rw [setAt_append h, setAt_cons hchild, setAt_nil, withChild_member]

end

/-! ### Sizes -/

mutual

/-- The number of values in a value, and of the steps to them. -/
def size : Value → Nat
  | .array items => sizeItems items + 1
  | .object members => sizeMembers members + 1
  | _ => 1

def sizeItems : List Value → Nat
  | [] => 0
  | v :: vs => size v + 1 + sizeItems vs

def sizeMembers : List (List UInt8 × Value) → Nat
  | [] => 0
  | (_, v) :: ms => size v + 1 + sizeMembers ms

end

theorem size_eq (v : Value) : size v = (v.children.map fun child => size child + 1).sum + 1 := by
  cases v with
  | array items =>
    simp only [size, children, Nat.add_right_cancel_iff]
    induction items with
    | nil => rfl
    | cons v vs ih => simp [sizeItems, ih]
  | object members =>
    simp only [size, children, Nat.add_right_cancel_iff]
    induction members with
    | nil => rfl
    | cons m ms ih => simp [sizeMembers, ih]
  | _ => rfl

/-! ### Collecting from the members that are strings -/

variable {β : Type}

/-- What `f` finds in a member itself. -/
def own (f : List UInt8 → List UInt8 → Option β) (name : List UInt8) : Value → List β
  | .string s => (f name s).toList
  | _ => []

mutual

/-- What `f` finds in the members of a value, at any depth. -/
def collect (f : List UInt8 → List UInt8 → Option β) : Value → List β
  | .array items => collectItems f items
  | .object members => collectMembers f members
  | _ => []

def collectItems (f : List UInt8 → List UInt8 → Option β) : List Value → List β
  | [] => []
  | v :: vs => collect f v ++ collectItems f vs

def collectMembers (f : List UInt8 → List UInt8 → Option β) :
    List (List UInt8 × Value) → List β
  | [] => []
  | (name, v) :: ms => own f name v ++ collect f v ++ collectMembers f ms

end

/-- Both are one string, or neither is a string. -/
def SameText (u w : Value) : Prop := ∀ s, u = .string s ↔ w = .string s

theorem SameText.refl (u : Value) : SameText u u := fun _ => Iff.rfl

theorem SameText.trans {u v w : Value} (h : SameText u v) (h' : SameText v w) : SameText u w :=
  fun s => (h s).trans (h' s)

section

variable (f : List UInt8 → List UInt8 → Option β) {v u w : Value} {p : Place} {i : Nat}

theorem collectItems_eq (items : List Value) :
    collectItems f items = items.flatMap (collect f) := by
  induction items with
  | nil => rfl
  | cons v vs ih => simp [collectItems, ih]

theorem collectMembers_eq (members : List (List UInt8 × Value)) :
    collectMembers f members = members.flatMap fun m => own f m.1 m.2 ++ collect f m.2 := by
  induction members with
  | nil => rfl
  | cons m ms ih => simp [collectMembers, ih]

theorem own_sameText (h : SameText u w) (name : List UInt8) : own f name u = own f name w := by
  cases u with
  | string s => rw [(h s).mp rfl]
  | _ => cases w with
    | string s => exact absurd ((h s).mpr rfl) (by simp)
    | _ => rfl

theorem sameText_withChild (h : v.children[i]? = some u) (w : Value) :
    SameText v (v.withChild i w) := by
  intro s
  obtain ⟨_, _, -, rfl, hset⟩ | ⟨_, _, _, -, rfl, hset⟩ := child_cases h <;> simp [hset]

theorem sameText_setAt (h : v.at? p = some u) (hw : SameText u w) : SameText v (v.setAt p w) := by
  cases p with
  | nil =>
    obtain rfl : v = u := by simpa using h
    simpa using hw
  | cons i p =>
    rw [at?_cons] at h
    obtain ⟨child, hchild, h⟩ := Option.bind_eq_some_iff.mp h
    rw [setAt_cons hchild]
    exact sameText_withChild hchild _

theorem collect_withChild (h : v.children[i]? = some u) :
    ∃ before behind, ∀ w, SameText u w →
      collect f (v.withChild i w) = before ++ collect f w ++ behind := by
  obtain ⟨as, bs, -, rfl, hset⟩ | ⟨as, name, bs, -, rfl, hset⟩ := child_cases h
  · refine ⟨as.flatMap (collect f), bs.flatMap (collect f), fun w _ => ?_⟩
    simp [hset, collect, collectItems_eq]
  · refine ⟨collectMembers f as ++ own f name u, collectMembers f bs, fun w hw => ?_⟩
    simp [hset, collect, collectMembers_eq, own_sameText f hw]

/-- Setting a value that is no string, or the same one, changes the part found in it. -/
theorem collect_setAt (h : v.at? p = some u) :
    ∃ before behind, ∀ w, SameText u w →
      collect f (v.setAt p w) = before ++ collect f w ++ behind := by
  induction p generalizing v with
  | nil => exact ⟨[], [], fun w _ => by simp⟩
  | cons i p ih =>
    rw [at?_cons] at h
    obtain ⟨child, hchild, h⟩ := Option.bind_eq_some_iff.mp h
    obtain ⟨before, behind, hinner⟩ := ih h
    obtain ⟨before', behind', houter⟩ := collect_withChild f hchild
    refine ⟨before' ++ before, behind ++ behind', fun w hw => ?_⟩
    rw [setAt_cons hchild, houter _ (sameText_setAt h hw), hinner w hw]
    simp

/-- A value at a place, and its part of what is found. -/
theorem collect_at (h : v.at? p = some u) :
    ∃ before behind, collect f v = before ++ collect f u ++ behind := by
  obtain ⟨before, behind, hset⟩ := collect_setAt f h
  refine ⟨before, behind, ?_⟩
  rw [← hset u (SameText.refl u), setAt_self h]

theorem collect_setAt_subset (h : v.at? p = some u) (hw : SameText u w) :
    collect f (v.setAt p w) ⊆ collect f v ++ collect f w := by
  obtain ⟨before, behind, hset⟩ := collect_setAt f h
  have hv := hset u (SameText.refl u)
  rw [setAt_self h] at hv
  rw [hset w hw, hv]
  intro b hb
  simp only [List.mem_append] at hb ⊢
  tauto

theorem length_collect_setAt (h : v.at? p = some u) (hw : SameText u w)
    (hle : (collect f w).length ≤ (collect f u).length) :
    (collect f (v.setAt p w)).length ≤ (collect f v).length := by
  obtain ⟨before, behind, hset⟩ := collect_setAt f h
  have hv := hset u (SameText.refl u)
  rw [setAt_self h] at hv
  rw [hset w hw, hv]
  simp only [List.length_append]
  omega

/-- A member that something is found in is not counted in the values of the members. -/
theorem length_collect_lt {members : List (List UInt8 × Value)} {m m' : List UInt8 × Value}
    (hm : m ∈ members) (hown : own f m.1 m.2 ≠ []) (hm' : m' ∈ members) :
    (collect f m'.2).length < (collect f (.object members)).length := by
  have hpos := List.length_pos_iff.mpr hown
  have hpart : ∀ {ms : List (List UInt8 × Value)} {x}, x ∈ ms →
      (own f x.1 x.2).length + (collect f x.2).length ≤ (collectMembers f ms).length := by
    intro ms x hx
    obtain ⟨as, bs, rfl⟩ := List.append_of_mem hx
    simp only [collectMembers_eq, List.flatMap_append, List.flatMap_cons, List.length_append]
    omega
  induction members with
  | nil => simp at hm
  | cons x ms ih =>
    simp only [collect, collectMembers, List.length_append]
    rcases List.mem_cons.mp hm with rfl | hms
    · rcases List.mem_cons.mp hm' with rfl | hms'
      · omega
      · have := hpart hms'
        omega
    · rcases List.mem_cons.mp hm' with rfl | hms'
      · have := hpart hms
        omega
      · have := ih hms hms'
        simp only [collect] at this
        omega

end

end Value

end Library.Json
