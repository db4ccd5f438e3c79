import Mathlib.Data.List.Infix
import Mathlib.Data.List.Nodup
import Mathlib.Tactic.Common

/-! Messages with placeholders.  A placeholder is a mark with a name of letters behind it.  A value may
be put in for a placeholder where the mark and the name are found first, as long as no value that was put
in before has them in it. -/

namespace Library.Template

/-- A piece of a message: a single character, a placeholder, or a value that was put in for one. -/
inductive Piece (α : Type) where
  | plain (c : α)
  | hole (name : List α)
  | filled (value : List α)
  deriving DecidableEq

variable {α : Type}

/-- The needle is found first at this index, or not at all. -/
def FirstAt (needle hay : List α) : Option Nat → Prop
  | some i => needle <+: hay.drop i ∧ ∀ j < i, ¬needle <+: hay.drop j
  | none => ∀ j, ¬needle <+: hay.drop j

/-- Where the needle does not start in the text in front, it is found behind it. -/
theorem firstAt_append_iff {needle text rest : List α}
    (h : ∀ i < text.length, ¬needle <+: (text ++ rest).drop i) {o : Option Nat} :
    FirstAt needle (text ++ rest) (o.map (· + text.length)) ↔ FirstAt needle rest o := by
  have hdrop : ∀ i, (text ++ rest).drop (i + text.length) = rest.drop i := by
    intro i
    rw [Nat.add_comm, List.drop_length_add_append]
  cases o with
  | some i =>
    simp only [Option.map_some, FirstAt, hdrop]
    refine and_congr_right fun _ => ⟨fun hfirst j hj => ?_, fun hfirst j hj => ?_⟩
    · rw [← hdrop]
      exact hfirst _ (Nat.add_lt_add_right hj _)
    · by_cases hlt : j < text.length
      · exact h j hlt
      · have hback := hfirst (j - text.length) (by omega)
        rwa [← hdrop, Nat.sub_add_cancel (Nat.not_lt.mp hlt)] at hback
  | none =>
    simp only [Option.map_none, FirstAt]
    refine ⟨fun hnone j => ?_, fun hnone j => ?_⟩
    · rw [← hdrop]
      exact hnone _
    · by_cases hlt : j < text.length
      · exact h j hlt
      · have hback := hnone (j - text.length)
        rwa [← hdrop, Nat.sub_add_cancel (Nat.not_lt.mp hlt)] at hback

section

variable (mark : α)

def Piece.flat : Piece α → List α
  | .plain c => [c]
  | .hole name => mark :: name
  | .filled value => value

/-- The text of a message. -/
def flat (pieces : List (Piece α)) : List α := pieces.flatMap (Piece.flat mark)

/-- The names of the placeholders. -/
def holes (pieces : List (Piece α)) : List (List α) :=
  pieces.filterMap fun
    | .hole name => some name
    | _ => none

def Piece.put (values : List α → Option (List α)) : Piece α → Piece α
  | .hole name => ((values name).map Piece.filled).getD (.hole name)
  | p => p

/-- The message with the values of all names put in at once. -/
def put (values : List α → Option (List α)) (pieces : List (Piece α)) : List (Piece α) :=
  pieces.map (Piece.put values)

variable [DecidableEq α]

/-- The pieces of a text: the name of a placeholder is as long as there are letters behind the mark. -/
def scan (letter : α → Bool) : List α → List (Piece α)
  | [] => []
  | c :: t =>
    if c = mark then .hole (t.takeWhile letter) :: (scan letter t).drop (t.takeWhile letter).length
    else .plain c :: scan letter t

/-- Where the placeholder of this name stands. -/
def place (name : List α) : List (Piece α) → Option Nat
  | [] => none
  | p :: rest =>
    if p = .hole name then some 0 else (place name rest).map (· + (p.flat mark).length)

/-- The value of a single name. -/
def only (name value : List α) (n : List α) : Option (List α) := if n = name then some value else none

end

variable {mark : α} {letter : α → Bool} {pieces : List (Piece α)} {name : List α}

@[simp] theorem flat_nil : flat mark ([] : List (Piece α)) = [] := rfl

@[simp] theorem flat_cons (p : Piece α) (pieces : List (Piece α)) :
    flat mark (p :: pieces) = p.flat mark ++ flat mark pieces := rfl

@[simp] theorem put_cons (values : List α → Option (List α)) (p : Piece α) (pieces : List (Piece α)) :
    put values (p :: pieces) = p.put values :: put values pieces := rfl

/-- What comes behind a placeholder is no letter that its text could go on with, nor another one. -/
def Stops (letter : α → Bool) : List (Piece α) → Prop
  | [] => True
  | .plain c :: _ => letter c = false
  | _ => False

/-- A placeholder is its mark and all the letters behind it, and there is no other mark. -/
def Delimited (mark : α) (letter : α → Bool) : List (Piece α) → Prop
  | [] => True
  | .plain c :: rest => c ≠ mark ∧ Delimited mark letter rest
  | .hole name :: rest => (∀ c ∈ name, letter c) ∧ Stops letter rest ∧ Delimited mark letter rest
  | .filled _ :: rest => Stops letter rest ∧ Delimited mark letter rest

/-- No value that was put in, in front of the placeholder of this name, has the mark and the name in
it. -/
def Unseen (mark : α) (name : List α) : List (Piece α) → Prop
  | [] => True
  | .plain _ :: rest => Unseen mark name rest
  | .hole n :: rest => n = name ∨ Unseen mark name rest
  | .filled value :: rest => ¬(mark :: name) <:+: value ∧ Unseen mark name rest

/-! ### Putting values in -/

theorem stops_put {values : List α → Option (List α)} (h : Stops letter pieces) :
    Stops letter (put values pieces) := by
  cases pieces with
  | nil => exact h
  | cons p pieces =>
    cases p with
    | plain c => exact h
    | hole n => exact h.elim
    | filled v => exact h.elim

theorem Delimited.put {values : List α → Option (List α)} (h : Delimited mark letter pieces) :
    Delimited mark letter (put values pieces) := by
  induction pieces with
  | nil => exact h
  | cons p pieces ih =>
    cases p with
    | plain c => exact ⟨h.1, ih h.2⟩
    | filled v => exact ⟨stops_put h.1, ih h.2⟩
    | hole n =>
      obtain ⟨hletters, hstops, hrest⟩ := h
      rw [put_cons, Piece.put]
      cases values n with
      | none => exact ⟨hletters, stops_put hstops, ih hrest⟩
      | some v => exact ⟨stops_put hstops, ih hrest⟩

theorem holes_put_sublist (values : List α → Option (List α)) (pieces : List (Piece α)) :
    (holes (put values pieces)).Sublist (holes pieces) := by
  induction pieces with
  | nil => exact .slnil
  | cons p pieces ih =>
    cases p with
    | plain c => exact ih
    | filled v => exact ih
    | hole n =>
      rw [put_cons, Piece.put]
      cases values n with
      | none => exact ih.cons_cons n
      | some v => exact ih.cons n

/-- The characters of a message with values in it are those of the message and those of the values. -/
theorem forall_mem_flat_put_iff {P : α → Prop} {values : List α → Option (List α)}
    (h : ∀ c ∈ flat mark pieces, P c) : (∀ c ∈ flat mark (put values pieces), P c) ↔
      ∀ n ∈ holes pieces, ∀ value, values n = some value → ∀ c ∈ value, P c := by
  induction pieces with
  | nil => simp [put, holes]
  | cons p pieces ih =>
    rw [flat_cons, List.forall_mem_append] at h
    rw [put_cons, flat_cons, List.forall_mem_append, ih h.2]
    cases p with
    | plain c => exact and_iff_right h.1
    | filled v => exact and_iff_right h.1
    | hole n =>
      have hholes : holes (.hole n :: pieces) = n :: holes pieces := rfl
      rw [hholes, List.forall_mem_cons]
      refine and_congr_left fun _ => ?_
      cases hn : values n with
      | none => simpa [Piece.put, hn] using h.1
      | some v => simp [Piece.put, Piece.flat, hn]

/-- Values put in one after the other. -/
theorem put_put (values values' : List α → Option (List α)) (pieces : List (Piece α)) :
    put values' (put values pieces) = put (fun n => (values n).or (values' n)) pieces := by
  simp only [put, List.map_map]
  refine List.map_congr_left fun p _ => ?_
  cases p with
  | plain c => rfl
  | filled v => rfl
  | hole n => cases hn : values n <;> simp [Piece.put, hn]

/-- Without a placeholder of the name there is nothing to put in. -/
theorem put_only_of_place_none [DecidableEq α] (h : place mark name pieces = none) (value : List α) :
    put (only name value) pieces = pieces := by
  induction pieces with
  | nil => rfl
  | cons p pieces ih =>
    rw [place] at h
    split at h
    · simp at h
    · rename_i hp
      rw [put_cons, ih (Option.map_eq_none_iff.mp h)]
      cases p with
      | plain c => rfl
      | filled v => rfl
      | hole n =>
        have hn : n ≠ name := fun e => hp (e ▸ rfl)
        simp [Piece.put, only, hn]

theorem put_only_of_not_mem [DecidableEq α] (h : name ∉ holes pieces) (value : List α) :
    put (only name value) pieces = pieces := by
  induction pieces with
  | nil => rfl
  | cons p pieces ih =>
    cases p with
    | plain c =>
      rw [put_cons, ih h]
      rfl
    | filled v =>
      rw [put_cons, ih h]
      rfl
    | hole n =>
      obtain ⟨hn, hrest⟩ : name ≠ n ∧ name ∉ holes pieces := by simpa [holes] using h
      rw [put_cons, ih hrest]
      simp [Piece.put, only, Ne.symm hn]

/-- The value takes the place of the mark and the name. -/
theorem replace_place [DecidableEq α] {i : Nat} (h : place mark name pieces = some i)
    (hdistinct : (holes pieces).Nodup) (value : List α) :
    (flat mark pieces).take i ++ value ++ (flat mark pieces).drop (i + (mark :: name).length) =
      flat mark (put (only name value) pieces) := by
  induction pieces generalizing i with
  | nil => simp [place] at h
  | cons p pieces ih =>
    rw [place] at h
    split at h
    · rename_i hp
      obtain rfl := Option.some.inj h
      subst hp
      have hnot : name ∉ holes pieces := by
        simp only [holes, List.filterMap_cons, List.nodup_cons] at hdistinct
        exact hdistinct.1
      rw [put_cons, put_only_of_not_mem hnot]
      simp [Piece.put, Piece.flat, only]
    · rename_i hp
      obtain ⟨j, hj, rfl⟩ := Option.map_eq_some_iff.mp h
      have hrest : (holes pieces).Nodup := by
        cases p with
        | plain c => exact hdistinct
        | filled v => exact hdistinct
        | hole n => exact (List.nodup_cons.mp hdistinct).2
      have hsame : p.put (only name value) = p := by
        cases p with
        | plain c => rfl
        | filled v => rfl
        | hole n =>
          have hn : n ≠ name := fun e => hp (e ▸ rfl)
          simp [Piece.put, only, hn]
      rw [put_cons, hsame, flat_cons, flat_cons, ← ih hj hrest, Nat.add_comm j,
        List.take_length_add_append, Nat.add_assoc, List.drop_length_add_append]
      simp only [List.append_assoc]

/-! ### Finding a placeholder -/

/-- Behind an end, no name goes on. -/
theorem not_prefix_of_stops {t : List α} (hne : t ≠ []) (ht : ∀ c ∈ t, letter c)
    (hstops : Stops letter pieces) : ¬t <+: flat mark pieces := by
  obtain ⟨c, t, rfl⟩ := List.exists_cons_of_ne_nil hne
  have hc := ht c List.mem_cons_self
  cases pieces with
  | nil => simp
  | cons p pieces =>
    cases p with
    | plain d =>
      rintro hpre
      obtain rfl := (List.cons_prefix_cons.mp hpre).1
      rw [show letter c = false from hstops] at hc
      simp at hc
    | hole n => exact hstops.elim
    | filled v => exact hstops.elim

/-- A name that starts in front of an end stops there. -/
theorem prefix_append_iff {s : List α} (hname : ∀ c ∈ name, letter c) (hstops : Stops letter pieces) :
    name <+: s ++ flat mark pieces ↔ name <+: s := by
  refine ⟨fun h => ?_, fun h => h.trans (List.prefix_append _ _)⟩
  rcases List.prefix_or_prefix_of_prefix h (List.prefix_append s _) with hpre | ⟨t, rfl⟩
  · exact hpre
  · have ht : t <+: flat mark pieces := (List.prefix_append_right_inj s).mp h
    by_cases hne : t = []
    · simp [hne]
    · exact absurd ht (not_prefix_of_stops hne (fun c hc => hname c (List.mem_append_right _ hc)) hstops)

section

variable (hmark : letter mark = false) (hname : ∀ c ∈ name, letter c)
include hmark hname

/-- A mark that starts in a piece which is not the placeholder of the name starts in a value. -/
theorem starts_in_piece_iff {p : Piece α} (hdelimited : Delimited mark letter (p :: pieces))
    (hp : ∀ n, p = .hole n → ¬name <+: n) {i : Nat} (hi : i < (p.flat mark).length) :
    mark :: name <+: (p.flat mark ++ flat mark pieces).drop i ↔
      ∃ value, p = .filled value ∧ mark :: name <+: value.drop i := by
  rw [List.drop_append_of_le_length hi.le]
  cases p with
  | plain c =>
    obtain rfl : i = 0 := by simpa [Piece.flat] using hi
    refine iff_of_false (fun h => ?_) (by simp)
    exact hdelimited.1 (List.cons_prefix_cons.mp h).1.symm
  | hole n =>
    refine iff_of_false (fun h => ?_) (by simp)
    cases i with
    | zero =>
      have hpre : name <+: n ++ flat mark pieces := (List.cons_prefix_cons.mp h).2
      exact hp n rfl ((prefix_append_iff hname hdelimited.2.1).mp hpre)
    | succ i =>
      have hi' : i < n.length := by simpa [Piece.flat] using hi
      rw [Piece.flat, List.drop_succ_cons, List.drop_eq_getElem_cons hi'] at h
      have hletter := hdelimited.1 n[i] (List.getElem_mem hi')
      rw [← (List.cons_prefix_cons.mp h).1, hmark] at hletter
      simp at hletter
  | filled v =>
    simp only [Piece.flat, Piece.filled.injEq, exists_eq_left'] at hi ⊢
    rw [List.drop_eq_getElem_cons hi, List.cons_append, List.cons_prefix_cons, List.cons_prefix_cons,
      prefix_append_iff hname hdelimited.1]

/-- The mark and the name are found first where the placeholder stands, if no value in front of it has
them in it. -/
theorem firstAt_place_iff [DecidableEq α] (hdelimited : Delimited mark letter pieces)
    (hholes : ∀ n ∈ holes pieces, name <+: n → name = n) :
    FirstAt (mark :: name) (flat mark pieces) (place mark name pieces) ↔ Unseen mark name pieces := by
  induction pieces with
  | nil => simp [FirstAt, place, Unseen]
  | cons p pieces ih =>
    have hrest : Delimited mark letter pieces ∧ ∀ n ∈ holes pieces, name <+: n → name = n := by
      cases p with
      | plain c => exact ⟨hdelimited.2, hholes⟩
      | filled v => exact ⟨hdelimited.2, hholes⟩
      | hole n => exact ⟨hdelimited.2.2, fun m hm => hholes m (List.mem_cons_of_mem _ hm)⟩
    have ih := ih hrest.1 hrest.2
    rw [place]
    split
    · rename_i hp
      subst hp
      refine iff_of_true ⟨?_, by simp⟩ (Or.inl rfl)
      exact List.prefix_append _ _
    · rename_i hp
      have hpre : ∀ n, p = .hole n → ¬name <+: n := by
        rintro n rfl hpre
        exact hp (congrArg Piece.hole (hholes n List.mem_cons_self hpre).symm)
      have hstart := fun i (hi : i < (p.flat mark).length) =>
        starts_in_piece_iff hmark hname hdelimited hpre hi
      rw [flat_cons]
      cases p with
      | plain c =>
        rw [firstAt_append_iff fun i hi h => by simpa using (hstart i hi).mp h, ih, Unseen]
      | hole n =>
        have hn : n ≠ name := fun e => hp (e ▸ rfl)
        rw [firstAt_append_iff fun i hi h => by simpa using (hstart i hi).mp h, ih, Unseen,
          or_iff_right hn]
      | filled v =>
        simp only [Piece.filled.injEq, exists_eq_left'] at hstart
        by_cases hv : mark :: name <:+: v
        · refine iff_of_false (fun h => ?_) fun h => h.1 hv
          -- the needle starts in the value, and the placeholder stands behind it
          obtain ⟨s, t, rfl⟩ := hv
          have hlt : s.length < ((Piece.filled (s ++ mark :: name ++ t)).flat mark).length := by
            simp [Piece.flat]
          have hin := (hstart s.length hlt).mpr (by simp)
          cases hplace : place mark name pieces with
          | none =>
            rw [hplace] at h
            exact h s.length hin
          | some j =>
            rw [hplace] at h
            exact h.2 s.length (Nat.lt_add_left j hlt) hin
        · rw [firstAt_append_iff fun i hi h => hv ?_, ih, Unseen, and_iff_right hv]
          exact ((hstart i hi).mp h).isInfix.trans (List.drop_suffix _ _).isInfix

end

/-! ### Reading the pieces of a text -/

section

variable [DecidableEq α]

/-- Letters are pieces of their own. -/
theorem scan_drop (hmark : letter mark = false) (t : List α) :
    (scan mark letter t).drop (t.takeWhile letter).length = scan mark letter (t.dropWhile letter) := by
  induction t with
  | nil => rfl
  | cons c t ih =>
    by_cases hc : letter c
    · have hne : c ≠ mark := by
        rintro rfl
        simp [hmark] at hc
      rw [List.takeWhile_cons_of_pos hc, List.dropWhile_cons_of_pos hc, scan, if_neg hne,
        List.length_cons, List.drop_succ_cons, ih]
    · rw [List.takeWhile_cons_of_neg hc, List.dropWhile_cons_of_neg hc, List.length_nil,
        List.drop_zero]

/-- The pieces of a text make up the text. -/
theorem flat_scan (hmark : letter mark = false) (t : List α) : flat mark (scan mark letter t) = t := by
  induction hn : t.length using Nat.strongRecOn generalizing t with
  | ind n ih =>
    cases t with
    | nil => rfl
    | cons c t =>
      rw [List.length_cons] at hn
      rw [scan]
      split
      · rename_i hc
        have hlt : (t.dropWhile letter).length < n := by
          have hle := (List.dropWhile_suffix letter (l := t)).length_le
          omega
        rw [flat_cons, scan_drop hmark, ih _ hlt _ rfl, Piece.flat, List.cons_append,
          List.takeWhile_append_dropWhile, hc]
      · rw [flat_cons, ih t.length (by omega) t rfl]
        rfl

end

end Library.Template
