import OasValidator.Library.Template
import OasValidator.Validators.ErrorTrees
import OasValidator.Validators.Query

/-! The descriptions of errors.  `HandleError` puts the values of an error into the message of RapidJSON
one after the other, each where its name is found first in what the message is by then, and writes the
result between quotes.  It says what is meant where the values need no escape and have no name in them
that is searched for behind them. -/

namespace OasValidator

open Library.Json Library.Template

/-! ### The messages and members of RapidJSON -/

/-- The messages of `GetValidateError_En`, by the values of `ValidateErrorCode`. -/
def validateErrorTexts : List (Int × Bytes) := [
  (-1, lit "One or more validation" ++ lit " errors have occurred"),
  (0, lit "No error."),
  (1, lit "Number '%actual' is not a multiple of" ++ lit " the 'multipleOf' value '%expected'."),
  (2, lit "Number '%actual' is greater than" ++ lit " the 'maximum' value '%expected'."),
  (3, lit "Number '%actual' is greater" ++ lit " than or equal to the" ++
    lit " 'exclusiveMaximum' value '%expected'."),
  (4, lit "Number '%actual' is less than" ++ lit " the 'minimum' value '%expected'."),
  (5, lit "Number '%actual' is less than or equal to" ++
    lit " the 'exclusiveMinimum' value '%expected'."),
  (6, lit "String '%actual' is longer than" ++ lit " the 'maxLength' value '%expected'."),
  (7, lit "String '%actual' is shorter than" ++ lit " the 'minLength' value '%expected'."),
  (8, lit "String '%actual' does not match" ++ lit " the 'pattern' regular expression."),
  (9, lit "Array of length '%actual' is longer" ++ lit " than the 'maxItems' value '%expected'."),
  (10, lit "Array of length '%actual' is shorter" ++ lit " than the 'minItems' value '%expected'."),
  (11, lit "Array has duplicate items at indices" ++ lit " '%duplicates' but 'uniqueItems' is true."),
  (12, lit "Array has an additional item" ++ lit " at index '%disallowed' that" ++
    lit " is not allowed by the schema."),
  (13, lit "Object has '%actual' members which is more" ++
    lit " than 'maxProperties' value '%expected'."),
  (14, lit "Object has '%actual' members which is less" ++
    lit " than 'minProperties' value '%expected'."),
  (15, lit "Object is missing the following members" ++ lit " required by the schema: '%missing'."),
  (16, lit "Object has an additional member '%disallowed'" ++
    lit " that is not allowed by the schema."),
  (17, lit "Object has 'patternProperties' that" ++ lit " are not allowed by the schema."),
  (18, lit "Object has missing property or schema" ++ lit " dependencies, refer to following errors."),
  (19, lit "Property has a value that is not one" ++ lit " of its allowed enumerated values."),
  (20, lit "Property has a type '%actual' that is" ++ lit " not in the following list: '%expected'."),
  (21, lit "Property did not match any of" ++ lit " the sub-schemas specified by" ++
    lit " 'oneOf', refer to following errors."),
  (22, lit "Property matched more than one" ++ lit " of the sub-schemas specified" ++
    lit " by 'oneOf', indices '%matches'."),
  (23, lit "Property did not match all of" ++ lit " the sub-schemas specified by" ++
    lit " 'allOf', refer to following errors."),
  (24, lit "Property did not match any of" ++ lit " the sub-schemas specified by" ++
    lit " 'anyOf', refer to following errors."),
  (25, lit "Property matched the" ++ lit " sub-schema specified by 'not'."),
  (26, lit "Property is read-only but has been" ++ lit " provided when validation is for writing."),
  (27, lit "Property is write-only but has been" ++ lit " provided when validation is for reading.")]

def getValidateError_En (code : Int) : Bytes :=
  (validateErrorTexts.lookup code).getD (lit "Unknown error.")

/-- The names that a `SchemaValidator` gives to the members of an error. -/
def memberNames : List Bytes := [
  lit "actual", lit "expected", lit "exclusiveMaximum", lit "exclusiveMinimum", lit "disallowed",
  lit "missing", lit "duplicates", lit "matches", lit "errors", lit "errorCode", lit "instanceRef",
  lit "schemaRef"]

def isLetter (c : UInt8) : Bool :=
  'a'.toUInt8 ≤ c ∧ c ≤ 'z'.toUInt8 ∨ 'A'.toUInt8 ≤ c ∧ c ≤ 'Z'.toUInt8

def messagePieces (message : Bytes) : List (Piece UInt8) := scan percent isLetter message

theorem flat_messagePieces (message : Bytes) : flat percent (messagePieces message) = message :=
  flat_scan (by decide) message

instance decidableStops (pieces : List (Piece UInt8)) : Decidable (Stops isLetter pieces) :=
  match pieces with
  | [] => .isTrue trivial
  | .plain c :: _ => inferInstanceAs (Decidable (isLetter c = false))
  | .hole _ :: _ => .isFalse id
  | .filled _ :: _ => .isFalse id

instance decidableDelimited :
    (pieces : List (Piece UInt8)) → Decidable (Delimited percent isLetter pieces)
  | [] => .isTrue trivial
  | .plain c :: rest =>
    have := decidableDelimited rest
    inferInstanceAs (Decidable (c ≠ percent ∧ Delimited percent isLetter rest))
  | .hole name :: rest =>
    have := decidableDelimited rest
    inferInstanceAs (Decidable ((∀ c ∈ name, isLetter c) ∧ Stops isLetter rest ∧
      Delimited percent isLetter rest))
  | .filled _ :: rest =>
    have := decidableDelimited rest
    inferInstanceAs (Decidable (Stops isLetter rest ∧ Delimited percent isLetter rest))

instance decidableUnseen (name : Bytes) :
    (pieces : List (Piece UInt8)) → Decidable (Unseen percent name pieces)
  | [] => .isTrue trivial
  | .plain _ :: rest => decidableUnseen name rest
  | .hole n :: rest =>
    have := decidableUnseen name rest
    inferInstanceAs (Decidable (n = name ∨ Unseen percent name rest))
  | .filled text :: rest =>
    have := decidableUnseen name rest
    inferInstanceAs (Decidable (¬percent :: name <:+: text ∧ Unseen percent name rest))

/-- What the messages of RapidJSON are like. -/
structure IsMessage (message : Bytes) : Prop where
  plain : NeedsNoEscape message
  delimited : Delimited percent isLetter (messagePieces message)
  distinct : (holes (messagePieces message)).Nodup
  named : ∀ name ∈ holes (messagePieces message), name ∈ memberNames

theorem getValidateError_En_isMessage (code : Int) : IsMessage (getValidateError_En code) := by
  have hall : ∀ message ∈ lit "Unknown error." :: validateErrorTexts.map Prod.snd,
      NeedsNoEscape message ∧ Delimited percent isLetter (messagePieces message) ∧
        (holes (messagePieces message)).Nodup ∧
        ∀ name ∈ holes (messagePieces message), name ∈ memberNames := by
    decide +kernel
  have hmem : getValidateError_En code ∈ lit "Unknown error." :: validateErrorTexts.map Prod.snd := by
    unfold getValidateError_En
    cases h : validateErrorTexts.lookup code with
    | none => exact List.mem_cons_self
    | some message =>
      exact List.mem_cons_of_mem _ (List.mem_map_of_mem (Library.Table.mem_of_lookup h))
  obtain ⟨plain, delimited, distinct, named⟩ := hall _ hmem
  exact ⟨plain, delimited, distinct, named⟩

namespace JsonValidator

variable {σ : Type} (rj : RapidJson σ)

/-! ### What is meant -/

/-- What is put in for a name. -/
def valueOf (members : List (Bytes × Json)) (name : Bytes) : Option Bytes :=
  (members.lookup name).map (insertString rj)

/-- The pieces of the message with the values of these members put in at once. -/
def describedPieces (members : List (Bytes × Json)) (message : Bytes) : List (Piece UInt8) :=
  put (valueOf rj members) (messagePieces message)

/-- The message with all its placeholders replaced at once by the values of the members. -/
def described (members : List (Bytes × Json)) (message : Bytes) : Bytes :=
  flat percent (describedPieces rj members message)

/-- The text up to the value of `"description"`. -/
def upToDescription (errorName : Bytes) (recursive : Bool) (errorMsg : Bytes) : Bytes :=
  errorMsg ++ (if recursive then lit "\x7b" else []) ++ lit "\"code\":\"" ++ errorName ++
    lit "\",\"description\":"

/-- In what has been put behind `errorMsg`, the value of `"description"` is read as this string, and the
next member follows it. -/
def ReadsDescription (errorName : Bytes) (recursive : Bool) (errorMsg out s : Bytes) : Prop :=
  ∃ n t behind, out = upToDescription errorName recursive errorMsg ++ t ∧
    value n t = some (.string s, lit ",\"instance\":\"" ++ behind)

/-- Holds of the name of each member, with the members in front of it. -/
def Each (P : List (Bytes × Json) → Bytes → Prop) (members : List (Bytes × Json)) : Prop :=
  ∀ before name content behind, members = before ++ (name, content) :: behind → P before name

/-- The name of each member is found where its placeholder stands, and only if it has one. -/
def Undirected (members : List (Bytes × Json)) (message : Bytes) : Prop :=
  Each (fun before name => find (percent :: cstr name) (fillMessage rj before message) =
    place percent name (describedPieces rj before message)) members

/-- What is put in for the placeholders needs no escape. -/
def PlainInserts (members : List (Bytes × Json)) (message : Bytes) : Prop :=
  ∀ name ∈ holes (messagePieces message), ∀ text, valueOf rj members name = some text →
    NeedsNoEscape text

/-- No value has the name of a later member in it, unless it is put in behind the placeholder of this
name. -/
def Apart (members : List (Bytes × Json)) (message : Bytes) : Prop :=
  Each (fun before name => Unseen percent name (describedPieces rj before message)) members

section

variable {P Q : List (Bytes × Json) → Bytes → Prop} {members : List (Bytes × Json)}

theorem each_nil : Each P [] := by
  intro before name content behind h
  simp at h

theorem each_concat_iff {name : Bytes} {content : Json} :
    Each P (members ++ [(name, content)]) ↔ Each P members ∧ P members name := by
  constructor
  · intro h
    refine ⟨fun before n c behind hsplit => h before n c (behind ++ [(name, content)]) ?_,
      h members name content [] rfl⟩
    simp [hsplit]
  · rintro ⟨h, hlast⟩ before n c behind hsplit
    rcases List.eq_nil_or_concat behind with rfl | ⟨behind, last, rfl⟩
    · obtain ⟨rfl, heq⟩ := List.append_inj' hsplit rfl
      obtain ⟨rfl, -⟩ := Prod.mk.inj (List.cons.inj heq).1
      exact hlast
    · refine h before n c behind ?_
      have hsplit' : members ++ [(name, content)] = (before ++ (n, c) :: behind) ++ [last] := by
        simpa using hsplit
      exact (List.append_inj' hsplit' rfl).1

end

/-! ### The loop -/

theorem fillMessage_append (members members' : List (Bytes × Json)) (message : Bytes) :
    fillMessage rj (members ++ members') message =
      fillMessage rj members' (fillMessage rj members message) := by
  induction members generalizing message with
  | nil => rfl
  | cons m members ih =>
    obtain ⟨name, content⟩ := m
    rw [List.cons_append, fillMessage, fillMessage]
    split <;> exact ih _

theorem find_eq_iff {needle hay : Bytes} {o : Option Nat} :
    find needle hay = o ↔ FirstAt needle hay o := by
  cases o with
  | some i => exact find_eq_some_iff
  | none => exact find_eq_none_iff

theorem cstr_memberNames {name : Bytes} (h : name ∈ memberNames) : cstr name = name := by
  have hall : ∀ name ∈ memberNames, cstr name = name := by decide
  exact hall name h

theorem describedPieces_concat (members : List (Bytes × Json)) (message name : Bytes) (content : Json) :
    describedPieces rj (members ++ [(name, content)]) message =
      put (only name (insertString rj content)) (describedPieces rj members message) := by
  rw [describedPieces, describedPieces, put_put]
  congr
  funext n
  rw [valueOf, valueOf, only, List.lookup_append]
  cases members.lookup n with
  | some v => rfl
  | none =>
    by_cases hn : n = name
    · simp [hn]
    · simp [hn]

section

variable {rj} {members : List (Bytes × Json)} {message : Bytes} (hmessage : IsMessage message)
include hmessage

/-- Where the values are put in where they belong, the message becomes what is meant. -/
theorem fillMessage_eq (hnames : ∀ m ∈ members, m.1 ∈ memberNames)
    (h : Undirected rj members message) :
    fillMessage rj members message = described rj members message := by
  induction members using List.reverseRecOn with
  | nil =>
    have hnone : describedPieces rj [] message = messagePieces message := by
      rw [describedPieces, put]
      exact List.map_id'' (fun p => by cases p <;> rfl) _
    rw [described, hnone, flat_messagePieces]
    rfl
  | append_singleton members m ih =>
    obtain ⟨name, content⟩ := m
    obtain ⟨hbefore, hlast⟩ := each_concat_iff.mp h
    have hname : cstr name = name :=
      cstr_memberNames (hnames (name, content) (List.mem_append_right _ List.mem_cons_self))
    have ih := ih (fun m hm => hnames m (List.mem_append_left _ hm)) hbefore
    have hdistinct : (holes (describedPieces rj members message)).Nodup :=
      hmessage.distinct.sublist (holes_put_sublist _ _)
    simp only [hname, ih] at hlast
    rw [fillMessage_append, ih, fillMessage]
    simp only [hname, hlast]
    rw [described, described, describedPieces_concat]
    cases hplace : place percent name (describedPieces rj members message) with
    | some i => exact replace_place hplace hdistinct _
    | none =>
      rw [put_only_of_place_none hplace]
      rfl

/-- The values are put in where they belong exactly if no name that is searched for is in them. -/
theorem undirected_iff (hnames : ∀ m ∈ members, m.1 ∈ memberNames) :
    Undirected rj members message ↔ Apart rj members message := by
  induction members using List.reverseRecOn with
  | nil => exact iff_of_true each_nil each_nil
  | append_singleton members m ih =>
    obtain ⟨name, content⟩ := m
    have hbefore : ∀ m ∈ members, m.1 ∈ memberNames := fun m hm =>
      hnames m (List.mem_append_left _ hm)
    have hname := hnames (name, content) (List.mem_append_right _ List.mem_cons_self)
    have hletters : ∀ n ∈ memberNames, (∀ c ∈ n, isLetter c) ∧
        ∀ n' ∈ memberNames, n <+: n' → n = n' := by
      decide +kernel
    obtain ⟨hword, hprefix⟩ := hletters name hname
    rw [Undirected, each_concat_iff, Apart, each_concat_iff, ← Undirected, ← Apart, ← ih hbefore]
    refine and_congr_right fun h => ?_
    rw [cstr_memberNames hname, fillMessage_eq hmessage hbefore h, find_eq_iff]
    refine firstAt_place_iff (by decide) hword hmessage.delimited.put fun n hn => ?_
    exact hprefix n (hmessage.named n ((holes_put_sublist _ _).subset hn))

theorem described_plain_iff :
    NeedsNoEscape (described rj members message) ↔ PlainInserts rj members message :=
  forall_mem_flat_put_iff ((flat_messagePieces message).symm ▸ hmessage.plain)

end

/-! ### The text around the description -/

theorem popComma_extends {errorMsg out : Bytes} (h : errorMsg ++ lit ",\"errors\":[" <+: out) :
    errorMsg <+: popComma out := by
  obtain ⟨behind, rfl⟩ := h
  unfold popComma
  split
  · rw [List.append_assoc, List.dropLast_append_of_ne_nil (by simp [lit])]
    exact List.prefix_append _ _
  · rw [List.append_assoc]
    exact List.prefix_append _ _

mutual

theorem createErrorMessages_extends {context : Bytes} {recursive : Bool} (tree : Json)
    {errorMsg out : Bytes} (h : createErrorMessages rj context recursive tree errorMsg = .ok out) :
    errorMsg <+: out := by
  match tree with
  | .object members =>
    rw [createErrorMessages] at h
    exact createMembers_extends members h
  | .null | .bool _ | .number _ | .string _ | .array _ => simp [createErrorMessages] at h

theorem createMembers_extends {context : Bytes} {recursive : Bool} (members : List (Bytes × Json))
    {errorMsg out : Bytes} (h : createMembers rj context recursive members errorMsg = .ok out) :
    errorMsg <+: out := by
  match members with
  | [] =>
    rw [createMembers] at h
    exact Except.ok.inj h ▸ List.prefix_rfl
  | (name, .array items) :: rest =>
    rw [createMembers] at h
    obtain ⟨mid, hmid, hrest⟩ := bind_eq_ok_iff.mp h
    exact (handleErrors_extends items hmid).trans (createMembers_extends rest hrest)
  | (name, .object members) :: rest =>
    rw [createMembers] at h
    obtain ⟨mid, hmid, hrest⟩ := bind_eq_ok_iff.mp h
    exact (handleError_extends (.object members) hmid).trans (createMembers_extends rest hrest)
  | (name, .null) :: rest | (name, .bool _) :: rest | (name, .number _) :: rest
  | (name, .string _) :: rest =>
    simp only [createMembers] at h
    exact createMembers_extends rest h

theorem handleErrors_extends {errorName context : Bytes} {recursive : Bool} (items : List Json)
    {errorMsg out : Bytes} (h : handleErrors rj errorName context recursive items errorMsg = .ok out) :
    errorMsg <+: out := by
  match items with
  | [] =>
    rw [handleErrors] at h
    exact Except.ok.inj h ▸ List.prefix_rfl
  | error :: rest =>
    rw [handleErrors] at h
    obtain ⟨mid, hmid, hrest⟩ := bind_eq_ok_iff.mp h
    exact (handleError_extends error hmid).trans (handleErrors_extends rest hrest)

theorem handleError_extends {errorName context : Bytes} {recursive : Bool} (error : Json)
    {errorMsg out : Bytes} (h : handleError rj errorName context recursive error errorMsg = .ok out) :
    errorMsg <+: out := by
  match error with
  | .object [] =>
    rw [handleError] at h
    exact Except.ok.inj h ▸ List.prefix_rfl
  | .object (member :: members) =>
    rw [handleError] at h
    obtain ⟨text, -, h⟩ := bind_eq_ok_iff.mp h
    obtain ⟨mid, hmid, h⟩ := bind_eq_ok_iff.mp h
    have hchildren := childErrors_extends (member :: members) hmid
    obtain rfl := Except.ok.inj h
    cases recursive with
    | false => exact (List.prefix_append _ _).trans hchildren
    | true =>
      rw [if_pos rfl, List.append_assoc] at hchildren
      exact ((List.prefix_append _ _).trans hchildren).trans (List.prefix_append _ _)
  | .null | .bool _ | .number _ | .string _ | .array _ => simp [handleError] at h

theorem childErrors_extends {errorName : Bytes} (members : List (Bytes × Json)) {errorMsg out : Bytes}
    (h : childErrors rj errorName members errorMsg = .ok out) : errorMsg <+: out := by
  match members with
  | [] =>
    rw [childErrors] at h
    exact Except.ok.inj h ▸ List.prefix_rfl
  | (name, content) :: rest =>
    rw [childErrors] at h
    split at h
    · match content with
      | .array items =>
        obtain ⟨mid, hmid, h⟩ := bind_eq_ok_iff.mp h
        obtain ⟨last, hlast, rfl⟩ := map_eq_ok_iff.mp hmid
        obtain rfl := Except.ok.inj h
        exact (popComma_extends (createAll_extends items hlast)).trans (List.prefix_append _ _)
      | .object trees =>
        obtain ⟨mid, hmid, h⟩ := bind_eq_ok_iff.mp h
        obtain ⟨last, hlast, rfl⟩ := map_eq_ok_iff.mp hmid
        obtain rfl := Except.ok.inj h
        exact (popComma_extends (createAllMembers_extends trees hlast)).trans (List.prefix_append _ _)
      | .null | .bool _ | .number _ | .string _ =>
        obtain rfl := Except.ok.inj h
        exact (List.prefix_append _ _).trans (List.prefix_append _ _)
    · exact childErrors_extends rest h

theorem createAll_extends {errorName : Bytes} (items : List Json) {errorMsg out : Bytes}
    (h : createAll rj errorName items errorMsg = .ok out) : errorMsg <+: out := by
  match items with
  | [] =>
    rw [createAll] at h
    exact Except.ok.inj h ▸ List.prefix_rfl
  | error :: rest =>
    rw [createAll] at h
    obtain ⟨mid, hmid, hrest⟩ := bind_eq_ok_iff.mp h
    exact ((createErrorMessages_extends error hmid).trans (List.prefix_append _ _)).trans
      (createAll_extends rest hrest)

theorem createAllMembers_extends {errorName : Bytes} (trees : List (Bytes × Json))
    {errorMsg out : Bytes} (h : createAllMembers rj errorName trees errorMsg = .ok out) :
    errorMsg <+: out := by
  match trees with
  | [] =>
    rw [createAllMembers] at h
    exact Except.ok.inj h ▸ List.prefix_rfl
  | (name, error) :: rest =>
    rw [createAllMembers] at h
    obtain ⟨mid, hmid, hrest⟩ := bind_eq_ok_iff.mp h
    exact ((createErrorMessages_extends error hmid).trans (List.prefix_append _ _)).trans
      (createAllMembers_extends rest hrest)

end

/-- What is written for an error: its name, the message between quotes, and the rest. -/
theorem errorText_eq {errorName context text : Bytes} {members : List (Bytes × Json)} {lexeme : Bytes}
    (hcode : members.lookup (lit "errorCode") = some (.number lexeme))
    (h : errorText rj errorName context members = .ok text) :
    ∃ behind, text = lit "\"code\":\"" ++ errorName ++ lit "\",\"description\":" ++ quote ::
      (fillMessage rj members (rj.getValidateError_En (rj.getInt lexeme)) ++ quote ::
        (lit ",\"instance\":\"" ++ behind)) := by
  rw [errorText, hcode] at h
  obtain ⟨code, hcode', h⟩ := bind_eq_ok_iff.mp h
  obtain rfl := Except.ok.inj hcode'
  obtain ⟨instanceRef, -, h⟩ := bind_eq_ok_iff.mp h
  obtain ⟨schemaRef, -, h⟩ := bind_eq_ok_iff.mp h
  obtain rfl := Except.ok.inj h
  refine ⟨instanceRef ++ (lit "\"," ++ lit "\"schema\":\"" ++ schemaRef ++ lit "\"" ++
    if context = [] then [] else lit ",\"context\":\"" ++ context ++ lit "\""), ?_⟩
  have hdescription : ∀ t, lit "\"," ++ (lit "\"description\":\"" ++ t) =
      lit "\",\"description\":" ++ quote :: t := fun t => rfl
  have hinstance : ∀ t, lit "\"," ++ (lit "\"instance\":\"" ++ t) =
      quote :: (lit ",\"instance\":\"" ++ t) := fun t => rfl
  simp only [List.append_assoc, List.cons_append, hdescription, hinstance]

theorem handleError_text {errorName context errorMsg out : Bytes} {recursive : Bool}
    {members : List (Bytes × Json)} {lexeme : Bytes}
    (hcode : members.lookup (lit "errorCode") = some (.number lexeme))
    (h : handleError rj errorName context recursive (.object members) errorMsg = .ok out) :
    ∃ behind, out = upToDescription errorName recursive errorMsg ++ quote ::
      (fillMessage rj members (rj.getValidateError_En (rj.getInt lexeme)) ++ quote ::
        (lit ",\"instance\":\"" ++ behind)) := by
  cases members with
  | nil => simp at hcode
  | cons m members =>
    rw [handleError] at h
    obtain ⟨text, htext, h⟩ := bind_eq_ok_iff.mp h
    obtain ⟨mid, hmid, h⟩ := bind_eq_ok_iff.mp h
    obtain rfl := Except.ok.inj h
    obtain ⟨behind, rfl⟩ := errorText_eq rj hcode htext
    obtain ⟨rest, rfl⟩ := childErrors_extends rj _ hmid
    cases recursive with
    | false => exact ⟨behind ++ rest, by simp [upToDescription]⟩
    | true => exact ⟨behind ++ rest ++ lit "\x7d", by simp [upToDescription]⟩

/-- The description is what the string reader makes of the message and the quote behind it. -/
theorem readsDescription_string_iff {errorName errorMsg out message behind s : Bytes} {recursive : Bool}
    (hout : out = upToDescription errorName recursive errorMsg ++ quote ::
      (message ++ quote :: (lit ",\"instance\":\"" ++ behind))) :
    ReadsDescription errorName recursive errorMsg out s ↔
      ∃ behind', string (message ++ quote :: (lit ",\"instance\":\"" ++ behind)) =
        some (s, lit ",\"instance\":\"" ++ behind') := by
  constructor
  · rintro ⟨n, t, behind', hout', hread⟩
    obtain rfl := List.append_cancel_left (hout.symm.trans hout')
    cases n with
    | zero => simp [value] at hread
    | succ n =>
      rw [value_string] at hread
      obtain ⟨⟨s', rest⟩, hstring, heq⟩ := Option.map_eq_some_iff.mp hread
      obtain ⟨hs, rfl⟩ := Prod.mk.inj heq
      obtain rfl := Value.string.inj hs
      exact ⟨behind', hstring⟩
  · rintro ⟨behind', hstring⟩
    refine ⟨1, _, behind', hout, ?_⟩
    rw [value_string, hstring]
    rfl

/-- A message between quotes is read as itself exactly if it needs no escape. -/
theorem readsDescription_iff {errorName errorMsg out message behind : Bytes} {recursive : Bool}
    (hout : out = upToDescription errorName recursive errorMsg ++ quote ::
      (message ++ quote :: (lit ",\"instance\":\"" ++ behind))) :
    ReadsDescription errorName recursive errorMsg out message ↔ NeedsNoEscape message := by
  rw [readsDescription_string_iff hout]
  constructor
  · rintro ⟨behind', hstring⟩
    exact needsNoEscape_of_string hstring
  · intro hplain
    exact ⟨behind, string_of_needsNoEscape hplain _⟩

end JsonValidator

open JsonValidator

/-- The description of an error is read as the message with all its placeholders replaced at once, and
no value redirects another one, exactly if the values need no escape and have no name in them that is
searched for behind them. -/
theorem description_iff {σ : Type} {rj : RapidJson σ}
    (hrj : ∀ code, rj.getValidateError_En code = getValidateError_En code)
    {errorName context errorMsg out lexeme : Bytes} {recursive : Bool} {members : List (Bytes × Json)}
    (hnames : ∀ m ∈ members, m.1 ∈ memberNames)
    (hcode : members.lookup (lit "errorCode") = some (.number lexeme))
    (hout : handleError rj errorName context recursive (.object members) errorMsg = .ok out) :
    ReadsDescription errorName recursive errorMsg out
        (described rj members (getValidateError_En (rj.getInt lexeme))) ∧
      Undirected rj members (getValidateError_En (rj.getInt lexeme)) ↔
    PlainInserts rj members (getValidateError_En (rj.getInt lexeme)) ∧
      Apart rj members (getValidateError_En (rj.getInt lexeme)) := by
  have hmessage := getValidateError_En_isMessage (rj.getInt lexeme)
  obtain ⟨behind, hout⟩ := handleError_text rj hcode hout
  rw [hrj] at hout
  rw [← undirected_iff hmessage hnames, ← described_plain_iff hmessage]
  refine and_congr_left fun h => ?_
  rw [fillMessage_eq hmessage hnames h] at hout
  exact readsDescription_iff hout

/-- The whole object of an error without nested ones, where the other texts need no escape either. -/
theorem description_object {σ : Type} {rj : RapidJson σ}
    (hrj : ∀ code, rj.getValidateError_En code = getValidateError_En code)
    {errorName lexeme s t : Bytes} {members : List (Bytes × Json)}
    (hnames : ∀ m ∈ members, m.1 ∈ memberNames)
    (hcode : members.lookup (lit "errorCode") = some (.number lexeme))
    (hs : members.lookup (lit "instanceRef") = some (.string s))
    (ht : members.lookup (lit "schemaRef") = some (.string t)) (hchildren : childTrees members = none)
    (hname : NeedsNoEscape errorName) (hinstance : NeedsNoEscape s) (hschema : NeedsNoEscape t)
    (hinserts : PlainInserts rj members (getValidateError_En (rj.getInt lexeme)))
    (hapart : Apart rj members (getValidateError_En (rj.getInt lexeme))) :
    ∃ out, handleError rj errorName [] true (.object members) [] = .ok out ∧
      parse out = some (.object [(lit "code", .string errorName),
        (lit "description", .string (described rj members (getValidateError_En (rj.getInt lexeme)))),
        (lit "instance", .string s), (lit "schema", .string t)]) := by
  have hmessage := getValidateError_En_isMessage (rj.getInt lexeme)
  have hdescribed := (described_plain_iff hmessage).mpr hinserts
  have hfill := fillMessage_eq hmessage hnames ((undirected_iff hmessage hnames).mpr hapart)
  have htext : ∀ {name u : Bytes}, members.lookup name = some (.string u) → NeedsNoEscape u →
      JsonValidator.textOf members name = .ok u := by
    intro name u hu hplain
    have hzero : (0 : UInt8) ∉ u := fun h => absurd (hplain 0 h).2.2 (by decide)
    rw [JsonValidator.textOf, hu]
    exact congrArg Except.ok (cstr_of_not_mem hzero)
  obtain ⟨texts, hfour, hwrite⟩ : ∃ texts, List.Forall₂ ParsesMember texts
      [(lit "code", .string errorName),
        (lit "description", .string (described rj members (getValidateError_En (rj.getInt lexeme)))),
        (lit "instance", .string s), (lit "schema", .string t)] ∧
      errorText rj errorName [] members = .ok (commas texts) := by
    refine ⟨_, .cons (parsesMember_string (by decide) hname)
      (.cons (parsesMember_string (by decide) hdescribed)
        (.cons (parsesMember_string (by decide) hinstance)
          (.cons (parsesMember_string (by decide) hschema) .nil))), ?_⟩
    simp only [errorText, hcode, hrj, hfill, htext hs hinstance, htext ht hschema, bind, Except.bind,
      pure, Except.pure]
    simp [commas_cons_cons, commas_singleton, memberText, quoted, lit, quote]
  have hadds : Adds (writeError rj [] (errorName, members)) (commas texts) := by
    intro errorMsg
    have hrest : childErrors rj errorName members (errorMsg ++ commas texts) = _ :=
      childErrors_none rj hchildren _
    rw [List.append_nil] at hrest
    rw [writeError, hwrite]
    exact hrest
  have hne : members ≠ [] := by
    rintro rfl
    simp at hcode
  have hout := @handleError_adds σ rj [] (commas texts) true (errorName, members) hne hadds []
  refine ⟨_, hout, (parses_object hfour ?_).parse⟩
  rintro rfl
  cases hfour

/-- RapidJSON with its messages, as far as numbers that are written with digits only go. -/
def RapidJson.english : RapidJson Json :=
  { RapidJson.plain with
    getInt := fun lexeme => lexeme.foldl (fun n c => n * 10 + (c.toNat - 48 : Nat)) 0
    getValidateError_En := OasValidator.getValidateError_En }

/-- The error of a string that is longer than three characters. -/
def lengthError (actual : Bytes) : List (Bytes × Json) :=
  [(lit "actual", .string actual), (lit "expected", .number (lit "3")),
    (lit "errorCode", .number (lit "6")), (lit "instanceRef", .string (lit "#")),
    (lit "schemaRef", .string (lit "#"))]

theorem lengthError_named (actual : Bytes) : ∀ m ∈ lengthError actual, m.1 ∈ memberNames := by
  have hall : ∀ name ∈ (lengthError []).map Prod.fst, name ∈ memberNames := by decide
  have hsame : (lengthError actual).map Prod.fst = (lengthError []).map Prod.fst := rfl
  exact fun m hm => hall m.1 (hsame ▸ List.mem_map_of_mem hm)

theorem handleError_lengthError (actual : Bytes) : ∃ out,
    handleError .english (lit "maxLength") [] false (.object (lengthError actual)) [] = .ok out :=
  ⟨_, rfl⟩

theorem description_iff_lengthError : ∃ out,
    handleError .english (lit "maxLength") [] false (.object (lengthError (lit "word"))) [] = .ok out ∧
      ReadsDescription (lit "maxLength") false [] out
        (described .english (lengthError (lit "word")) (getValidateError_En 6)) ∧
      Undirected .english (lengthError (lit "word")) (getValidateError_En 6) := by
  obtain ⟨out, hout⟩ := handleError_lengthError (lit "word")
  refine ⟨out, hout, (description_iff (fun _ => rfl) (lengthError_named _) rfl hout).mpr ⟨?_, ?_⟩⟩
  · have hholes : holes (messagePieces (getValidateError_En 6)) = [lit "actual", lit "expected"] := by
      decide +kernel
    intro name hname text htext
    rw [show RapidJson.english.getInt (lit "6") = 6 from rfl, hholes] at hname
    rcases List.mem_pair.mp hname with rfl | rfl
    · obtain rfl := Option.some.inj htext
      decide
    · obtain rfl := Option.some.inj htext
      decide
  · have hconcat : lengthError (lit "word") = ((([] ++ [(lit "actual", .string (lit "word"))]) ++
        [(lit "expected", .number (lit "3"))]) ++ [(lit "errorCode", .number (lit "6"))] ++
          [(lit "instanceRef", .string (lit "#"))]) ++ [(lit "schemaRef", .string (lit "#"))] := rfl
    rw [hconcat, Apart]
    simp only [each_concat_iff]
    refine ⟨⟨⟨⟨⟨each_nil, ?_⟩, ?_⟩, ?_⟩, ?_⟩, ?_⟩ <;> decide +kernel

/-- The value of the string takes the place of the bound, whose placeholder is left. -/
theorem value_redirects : ¬∀ (rj : RapidJson Json),
    (∀ code, rj.getValidateError_En code = getValidateError_En code) →
    ∀ (errorName context errorMsg out lexeme : Bytes) (recursive : Bool)
        (members : List (Bytes × Json)),
      (∀ m ∈ members, m.1 ∈ memberNames) →
      members.lookup (lit "errorCode") = some (.number lexeme) →
      handleError rj errorName context recursive (.object members) errorMsg = .ok out →
      ReadsDescription errorName recursive errorMsg out
        (described rj members (getValidateError_En (rj.getInt lexeme))) := by
  intro h
  obtain ⟨out, hout⟩ := handleError_lengthError (lit "%expected")
  have hreads := h .english (fun _ => rfl) _ _ _ _ _ _ _ (lengthError_named _) rfl hout
  obtain ⟨behind, htext⟩ := handleError_text .english rfl hout
  obtain ⟨behind', hstring⟩ := (readsDescription_string_iff htext).mp hreads
  rw [string_of_needsNoEscape (by decide +kernel)] at hstring
  have hne : fillMessage RapidJson.english (lengthError (lit "%expected")) (getValidateError_En 6) ≠
      described .english (lengthError (lit "%expected")) (getValidateError_En 6) := by
    decide +kernel
  exact hne (Prod.mk.inj (Option.some.inj hstring)).1

end OasValidator
