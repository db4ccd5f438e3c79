import OasValidator.Library.JsonPlaces
import OasValidator.Validators.Reports

/-! The trees of errors that a `SchemaValidator` hands out, and the texts written for them.  A tree
has errors under the names of keywords, and an error may have trees of its own; a text is one JSON
object exactly for the trees that have one error at each place where the text leaves room for one. -/

namespace OasValidator

open Library.Json

/-! ### Trees of errors -/

/-- The members of an error; an error without members is not written. -/
def errorMembers : Json → Option (List (Bytes × Json))
  | .object (member :: members) => some (member :: members)
  | _ => none

/-- The errors written for one keyword. -/
def contentErrors : Json → List (List (Bytes × Json))
  | .array items => items.filterMap errorMembers
  | content => (errorMembers content).toList

/-- The errors written for a tree, with the names of their keywords. -/
def errorsOf : Json → List (Bytes × List (Bytes × Json))
  | .object members => members.flatMap fun m => (contentErrors m.2).map fun error => (cstr m.1, error)
  | _ => []

/-- The trees nested in an error. -/
def childTrees (members : List (Bytes × Json)) : Option (List Json) :=
  match members.lookup (lit "errors") with
  | some (.array items) => some items
  | some (.object trees) => some (trees.map Prod.snd)
  | some _ => some []
  | none => none

def IsObject : Json → Prop
  | .object _ => True
  | _ => False

/-- One error or an array of them. -/
def IsContent : Json → Prop
  | .array items => ∀ item ∈ items, IsObject item
  | content => IsObject content

/-- What the code can go through under a keyword: an array of errors, one error, or a value of another
kind, which it skips. -/
def IsHandled : Json → Prop
  | .array items => ∀ item ∈ items, IsObject item
  | _ => True

theorem IsContent.isHandled {content : Json} (h : IsContent content) : IsHandled content := by
  cases content <;> first | exact h | trivial

/-- The strings that are put into a message for a value need no escape. -/
def PlainValue : Json → Prop
  | .string s => NeedsNoEscape s
  | .array items => ∀ s, Library.Json.Value.string s ∈ items → NeedsNoEscape s
  | _ => True

/-- The members that every error has. -/
structure HasFields (error : Bytes × List (Bytes × Json)) : Prop where
  errorCode : ∃ lexeme, error.2.lookup (lit "errorCode") = some (.number lexeme)
  instanceRef : ∃ s, error.2.lookup (lit "instanceRef") = some (.string s)
  schemaRef : ∃ s, error.2.lookup (lit "schemaRef") = some (.string s)

/-- An error whose strings need no escape. -/
structure PlainError (error : Bytes × List (Bytes × Json)) : Prop extends HasFields error where
  name : NeedsNoEscape error.1
  plain : ∀ m ∈ error.2, PlainValue m.2

/-- A tree of errors of one kind: keywords with one error or an array of them, and trees in the
errors. -/
inductive TreeOf (P : Bytes × List (Bytes × Json) → Prop) : Json → Prop
  | object {members : List (Bytes × Json)} (contents : ∀ m ∈ members, IsContent m.2)
      (errors : ∀ error ∈ errorsOf (.object members), P error)
      (children : ∀ error ∈ errorsOf (.object members), ∀ trees, childTrees error.2 = some trees →
        ∀ tree ∈ trees, TreeOf P tree) : TreeOf P (.object members)

/-- The trees that a `SchemaValidator` builds. -/
abbrev IsTree : Json → Prop := TreeOf HasFields

abbrev PlainTree : Json → Prop := TreeOf PlainError

/-- The trees that the code can write: nothing but errors stands in arrays under keywords, all errors
have the members that it reads, and the trees nested in them can be written. -/
inductive Writable : Json → Prop
  | object {members : List (Bytes × Json)} (contents : ∀ m ∈ members, IsHandled m.2)
      (errors : ∀ error ∈ errorsOf (.object members), HasFields error)
      (children : ∀ error ∈ errorsOf (.object members), ∀ trees, childTrees error.2 = some trees →
        ∀ tree ∈ trees, Writable tree) : Writable (.object members)

theorem TreeOf.writable {tree : Json} (h : IsTree tree) : Writable tree := by
  induction h with
  | object contents errors children ih =>
    exact .object (fun m hm => (contents m hm).isHandled) errors ih

theorem members_of_error {tree : Json} {error : Bytes × List (Bytes × Json)}
    (h : error ∈ errorsOf tree) : error.2 ≠ [] := by
  have hsome : ∀ {content : Json} {members}, errorMembers content = some members → members ≠ [] := by
    intro content members hmembers
    unfold errorMembers at hmembers
    split at hmembers
    · obtain rfl := Option.some.inj hmembers
      simp
    · simp at hmembers
  cases tree with
  | object members =>
    obtain ⟨m, -, hm⟩ := List.mem_flatMap.mp h
    obtain ⟨ms, hms, rfl⟩ := List.mem_map.mp hm
    unfold contentErrors at hms
    split at hms
    · obtain ⟨item, -, hitem⟩ := List.mem_filterMap.mp hms
      exact hsome hitem
    · exact hsome (Option.mem_toList.mp hms)
  | _ => simp [errorsOf] at h

/-- A tree with one error.  The trees nested in the error have one error each, but for a single one
without errors. -/
inductive OneError : Json → Prop
  | leaf {tree : Json} {error : Bytes × List (Bytes × Json)} (one : errorsOf tree = [error])
      (children : childTrees error.2 = none) : OneError tree
  | silent {tree child : Json} {error : Bytes × List (Bytes × Json)} (one : errorsOf tree = [error])
      (children : childTrees error.2 = some [child]) (none : errorsOf child = []) : OneError tree
  | each {tree : Json} {error : Bytes × List (Bytes × Json)} {trees : List Json}
      (one : errorsOf tree = [error]) (children : childTrees error.2 = some trees)
      (each : ∀ child ∈ trees, OneError child) : OneError tree

/-- The trees nested in an error are written with one object between two commas. -/
def WellNested (members : List (Bytes × Json)) : Prop :=
  childTrees members = none ∨ (∃ child, childTrees members = some [child] ∧ errorsOf child = []) ∨
    ∃ trees, childTrees members = some trees ∧ ∀ child ∈ trees, OneError child

theorem oneError_iff {tree : Json} :
    OneError tree ↔ ∃ error, errorsOf tree = [error] ∧ WellNested error.2 := by
  constructor
  · intro h
    cases h with
    | leaf one children => exact ⟨_, one, Or.inl children⟩
    | silent one children hnone => exact ⟨_, one, Or.inr (Or.inl ⟨_, children, hnone⟩)⟩
    | each one children each => exact ⟨_, one, Or.inr (Or.inr ⟨_, children, each⟩)⟩
  · rintro ⟨error, one, children | ⟨child, children, hnone⟩ | ⟨trees, children, each⟩⟩
    · exact .leaf one children
    · exact .silent one children hnone
    · exact .each one children each

namespace JsonValidator

/-! ### Functions that write behind a text -/

/-- What `f` does to a text is to write `text` behind it. -/
def Adds (f : Bytes → Except Fault Bytes) (text : Bytes) : Prop :=
  ∀ errorMsg, f errorMsg = .ok (errorMsg ++ text)

theorem Adds.bind {f g : Bytes → Except Fault Bytes} {s t : Bytes} (hf : Adds f s) (hg : Adds g t) :
    Adds (fun errorMsg => f errorMsg >>= g) (s ++ t) := by
  intro errorMsg
  show f errorMsg >>= g = _
  rw [hf, ← List.append_assoc, ← hg]
  rfl

variable {σ : Type} (rj : RapidJson σ)

/-! ### The tree as a list of errors -/

section Folds

variable {errorName context : Bytes} {recursive : Bool}

theorem handleError_empty : Adds (handleError rj errorName context recursive (.object [])) [] := by
  intro errorMsg
  rw [handleError, List.append_nil]

theorem handleErrors_adds {items : List Json} {write : List (Bytes × Json) → Bytes}
    (hitems : ∀ item ∈ items, IsObject item)
    (h : ∀ error ∈ items.filterMap errorMembers,
      Adds (handleError rj errorName context recursive (.object error)) (write error)) :
    Adds (handleErrors rj errorName context recursive items)
      ((items.filterMap errorMembers).flatMap write) := by
  induction items with
  | nil =>
    intro errorMsg
    simp [handleErrors]
  | cons item items ih =>
    have hrest := ih (fun i hi => hitems i (List.mem_cons_of_mem _ hi)) fun error herror =>
      h error (by
        obtain ⟨i, hi, heq⟩ := List.mem_filterMap.mp herror
        exact List.mem_filterMap.mpr ⟨i, List.mem_cons_of_mem _ hi, heq⟩)
    have hitem := hitems item List.mem_cons_self
    intro errorMsg
    rw [handleErrors]
    match item, hitem with
    | .object [], _ =>
      have hnone : errorMembers (.object []) = none := rfl
      rw [List.filterMap_cons_none hnone]
      exact (handleError_empty rj).bind hrest errorMsg
    | .object (m :: ms), _ =>
      have hsome : errorMembers (.object (m :: ms)) = some (m :: ms) := rfl
      rw [List.filterMap_cons_some hsome, List.flatMap_cons]
      exact (h _ (List.mem_filterMap.mpr ⟨_, List.mem_cons_self, hsome⟩)).bind hrest errorMsg

/-- The errors of one keyword. -/
def handleContent (errorName context : Bytes) (recursive : Bool) : Json → Bytes → Except Fault Bytes
  | .array items => handleErrors rj errorName context recursive items
  | .object members => handleError rj errorName context recursive (.object members)
  | _ => pure

theorem createMembers_cons (name : Bytes) (content : Json) (members : List (Bytes × Json))
    (errorMsg : Bytes) :
    createMembers rj context recursive ((name, content) :: members) errorMsg =
      handleContent rj (cstr name) context recursive content errorMsg >>=
        createMembers rj context recursive members := by
  cases content <;> (rw [createMembers] <;> first | rfl | nofun)

theorem handleContent_adds {content : Json} {write : List (Bytes × Json) → Bytes}
    (hcontent : IsHandled content)
    (h : ∀ error ∈ contentErrors content,
      Adds (handleError rj errorName context recursive (.object error)) (write error)) :
    Adds (handleContent rj errorName context recursive content)
      ((contentErrors content).flatMap write) := by
  match content, hcontent with
  | .array items, hitems => exact handleErrors_adds rj hitems h
  | .object [], _ =>
    show Adds (handleError rj errorName context recursive (.object [])) []
    exact handleError_empty rj
  | .object (m :: ms), _ =>
    have hone : contentErrors (.object (m :: ms)) = [m :: ms] := rfl
    rw [hone, List.flatMap_singleton]
    exact h _ (by rw [hone]; exact List.mem_cons_self)
  | .null, _ | .bool _, _ | .number _, _ | .string _, _ =>
    intro errorMsg
    simp [handleContent, contentErrors, errorMembers, pure, Except.pure]

theorem createMembers_adds {members : List (Bytes × Json)}
    {write : Bytes × List (Bytes × Json) → Bytes} (hcontents : ∀ m ∈ members, IsHandled m.2)
    (h : ∀ error ∈ errorsOf (.object members),
      Adds (handleError rj error.1 context recursive (.object error.2)) (write error)) :
    Adds (createMembers rj context recursive members)
      ((errorsOf (.object members)).flatMap write) := by
  induction members with
  | nil =>
    intro errorMsg
    simp [createMembers, errorsOf]
  | cons m members ih =>
    obtain ⟨name, content⟩ := m
    have hsplit : errorsOf (.object ((name, content) :: members)) =
        (contentErrors content).map (fun error => (cstr name, error)) ++
          errorsOf (.object members) := rfl
    have hcontent := hcontents _ List.mem_cons_self
    rw [hsplit] at h ⊢
    have hhead := @handleContent_adds _ rj (cstr name) context recursive content
      (fun error => write (cstr name, error)) hcontent fun error herror =>
        h (cstr name, error) (List.mem_append_left _ (List.mem_map_of_mem herror))
    have hrest := ih (fun i hi => hcontents i (List.mem_cons_of_mem _ hi)) fun error herror =>
      h error (List.mem_append_right _ herror)
    intro errorMsg
    rw [createMembers_cons, List.flatMap_append, List.flatMap_map]
    exact hhead.bind hrest errorMsg

end Folds

/-- The members of a nested error stand in braces. -/
def inBraces (recursive : Bool) (body : Bytes) : Bytes :=
  if recursive then lit "\x7b" ++ body ++ lit "\x7d" else body

/-- What an error puts behind the text that is there. -/
def writeError (context : Bytes) (error : Bytes × List (Bytes × Json)) (errorMsg : Bytes) :
    Except Fault Bytes := do
  let text ← errorText rj error.1 context error.2
  childErrors rj error.1 error.2 (errorMsg ++ text)

theorem handleError_adds {context body : Bytes} {recursive : Bool}
    {error : Bytes × List (Bytes × Json)} (hne : error.2 ≠ [])
    (h : Adds (writeError rj context error) body) :
    Adds (handleError rj error.1 context recursive (.object error.2)) (inBraces recursive body) := by
  obtain ⟨name, members⟩ := error
  obtain ⟨m, ms, rfl⟩ := List.exists_cons_of_ne_nil hne
  intro errorMsg
  have hwrite := h (if recursive then errorMsg ++ lit "\x7b" else errorMsg)
  simp only [writeError] at hwrite
  rw [handleError]
  cases htext : errorText rj name context (m :: ms) with
  | error e => simp [htext, bind, Except.bind] at hwrite
  | ok text =>
    simp only [htext, bind, Except.bind] at hwrite ⊢
    rw [hwrite]
    cases recursive <;> simp [inBraces, pure, Except.pure]

theorem createObject_adds {members : List (Bytes × Json)} (hcontents : ∀ m ∈ members, IsHandled m.2)
    {context : Bytes} {recursive : Bool} {body : Bytes × List (Bytes × Json) → Bytes}
    (h : ∀ error ∈ errorsOf (.object members), Adds (writeError rj context error) (body error)) :
    Adds (createErrorMessages rj context recursive (.object members))
      ((errorsOf (.object members)).flatMap fun error => inBraces recursive (body error)) := by
  intro errorMsg
  rw [createErrorMessages]
  apply createMembers_adds rj hcontents
  intro error herror
  exact handleError_adds rj (members_of_error herror) (h error herror)

theorem createErrorMessages_adds {P : Bytes × List (Bytes × Json) → Prop} {tree : Json}
    (htree : TreeOf P tree) {context : Bytes} {recursive : Bool}
    {body : Bytes × List (Bytes × Json) → Bytes}
    (h : ∀ error ∈ errorsOf tree, Adds (writeError rj context error) (body error)) :
    Adds (createErrorMessages rj context recursive tree)
      ((errorsOf tree).flatMap fun error => inBraces recursive (body error)) := by
  cases htree with
  | object contents errors children =>
    exact createObject_adds rj (fun m hm => (contents m hm).isHandled) h

/-! ### The text of one error -/

/-- The texts of RapidJSON need no escape. -/
structure PlainTexts : Prop where
  message : ∀ code, NeedsNoEscape (rj.getValidateError_En code)
  number : ∀ lexeme, NeedsNoEscape (rj.numberToString lexeme)

theorem textOf_eq {members : List (Bytes × Json)} (h : ∀ m ∈ members, PlainValue m.2) {name s : Bytes}
    (hs : members.lookup name = some (.string s)) : NeedsNoEscape s ∧ textOf members name = .ok s := by
  have hplain : NeedsNoEscape s := h _ (Library.Table.mem_of_lookup hs)
  have hzero : (0 : UInt8) ∉ s := fun h => absurd (hplain 0 h).2.2 (by decide)
  exact ⟨hplain, by rw [textOf, hs]; exact congrArg Except.ok (cstr_of_not_mem hzero)⟩

section Texts

variable {rj} (hrj : PlainTexts rj)
include hrj

theorem getString_plain {v : Json} (hv : ∀ s, v = .string s → NeedsNoEscape s) :
    NeedsNoEscape (getString rj v) := by
  cases v with
  | string s => exact fun c hc => hv s rfl c ((List.takeWhile_prefix _).subset hc)
  | number lexeme => exact hrj.number lexeme
  | bool b =>
    have hwords : NeedsNoEscape (lit "true") ∧ NeedsNoEscape (lit "false") := by decide
    cases b with
    | true => exact hwords.1
    | false => exact hwords.2
  | null => exact List.forall_mem_nil _
  | array items => exact List.forall_mem_nil _
  | object members => exact List.forall_mem_nil _

theorem insertString_plain {v : Json} (hv : PlainValue v) : NeedsNoEscape (insertString rj v) := by
  cases v with
  | array items =>
    have hfold : ∀ (is : List Json) (s : Bytes), (∀ t, Library.Json.Value.string t ∈ is →
        NeedsNoEscape t) → NeedsNoEscape s → NeedsNoEscape (is.foldl (fun s item =>
          (if s = [] then s else s ++ [comma]) ++ getString rj item) s) := by
      intro is
      induction is with
      | nil => exact fun _ _ hs => hs
      | cons i is ih =>
        intro s his hs
        apply ih _ fun t ht => his t (List.mem_cons_of_mem _ ht)
        rw [needsNoEscape_append]
        refine ⟨?_, getString_plain hrj fun t ht => his t (ht ▸ List.mem_cons_self)⟩
        split
        · exact hs
        · rw [needsNoEscape_append]
          exact ⟨hs, by decide⟩
    exact hfold items [] hv (List.forall_mem_nil _)
  | string s => exact getString_plain hrj fun t ht => Library.Json.Value.string.inj ht ▸ hv
  | number lexeme => exact getString_plain (v := (.number lexeme)) hrj fun _ ht => nomatch ht
  | bool b => exact getString_plain (v := (.bool b)) hrj fun _ ht => nomatch ht
  | null => exact getString_plain (v := .null) hrj fun _ ht => nomatch ht
  | object members => exact getString_plain (v := (.object members)) hrj fun _ ht => nomatch ht

/-- Values of the error in the places of their names leave a message without escapes. -/
theorem fillMessage_plain {members : List (Bytes × Json)} (h : ∀ m ∈ members, PlainValue m.2)
    {message : Bytes} (hmessage : NeedsNoEscape message) :
    NeedsNoEscape (fillMessage rj members message) := by
  induction members generalizing message with
  | nil => exact hmessage
  | cons m members ih =>
    obtain ⟨name, value⟩ := m
    have hrest : ∀ m ∈ members, PlainValue m.2 := fun m hm => h m (List.mem_cons_of_mem _ hm)
    rw [fillMessage]
    split
    · apply ih hrest
      rw [replaceAt, needsNoEscape_append, needsNoEscape_append]
      exact ⟨⟨fun c hc => hmessage c ((List.take_subset _ _) hc),
        insertString_plain hrj (h _ List.mem_cons_self)⟩,
        fun c hc => hmessage c ((List.drop_subset _ _) hc)⟩
    · exact ih hrest hmessage

theorem errorText_parses {context : Bytes} (hcontext : NeedsNoEscape context)
    {error : Bytes × List (Bytes × Json)} (herror : PlainError error) :
    ∃ texts ms, texts ≠ [] ∧ List.Forall₂ ParsesMember texts ms ∧
      (∃ rest, commas texts = quote :: rest) ∧
      errorText rj error.1 context error.2 = .ok (commas texts) := by
  obtain ⟨lexeme, hcode⟩ := herror.errorCode
  obtain ⟨s, hs⟩ := herror.instanceRef
  obtain ⟨t, ht⟩ := herror.schemaRef
  obtain ⟨hsp, hinstance⟩ := textOf_eq herror.plain hs
  obtain ⟨htp, hschema⟩ := textOf_eq herror.plain ht
  have hmessage := fillMessage_plain hrj herror.plain (hrj.message (rj.getInt lexeme))
  have hfour : List.Forall₂ ParsesMember
      [memberText (lit "code") (quoted error.1),
        memberText (lit "description")
          (quoted (fillMessage rj error.2 (rj.getValidateError_En (rj.getInt lexeme)))),
        memberText (lit "instance") (quoted s), memberText (lit "schema") (quoted t)] _ :=
    .cons (@parsesMember_string (lit "code") _ (by decide) herror.name)
      (.cons (@parsesMember_string (lit "description") _ (by decide) hmessage)
        (.cons (@parsesMember_string (lit "instance") _ (by decide) hsp)
          (.cons (@parsesMember_string (lit "schema") _ (by decide) htp) .nil)))
  by_cases hempty : context = []
  · refine ⟨_, _, by simp, hfour, ⟨_, rfl⟩, ?_⟩
    simp only [errorText, hcode, hinstance, hschema, bind, Except.bind, pure, Except.pure]
    rw [if_pos hempty]
    simp [commas_cons_cons, commas_singleton, memberText, quoted, lit, quote]
  · have hfive := List.rel_append hfour
      (.cons (@parsesMember_string (lit "context") _ (by decide) hcontext) .nil)
    refine ⟨_, _, by simp, hfive, ⟨_, rfl⟩, ?_⟩
    simp only [errorText, hcode, hinstance, hschema, bind, Except.bind, pure, Except.pure]
    rw [if_neg hempty]
    simp [commas_cons_cons, commas_singleton, memberText, quoted, lit, quote]

end Texts

/-! ### The nested errors -/

theorem createAllMembers_eq (errorName : Bytes) (trees : List (Bytes × Json)) (errorMsg : Bytes) :
    createAllMembers rj errorName trees errorMsg =
      createAll rj errorName (trees.map Prod.snd) errorMsg := by
  induction trees generalizing errorMsg with
  | nil => rfl
  | cons tree trees ih =>
    obtain ⟨name, tree⟩ := tree
    rw [createAllMembers, List.map_cons, createAll]
    simp only [ih]

theorem childTrees_cons {name : Bytes} (hname : name ≠ lit "errors") (content : Json)
    (members : List (Bytes × Json)) :
    childTrees ((name, content) :: members) = childTrees members := by
  have hne : ¬ (lit "errors" == name) = true := by simpa using Ne.symm hname
  rw [childTrees, Library.Table.lookup_cons_eq_if, if_neg hne]
  rfl

theorem childErrors_none {errorName : Bytes} {members : List (Bytes × Json)}
    (h : childTrees members = none) : Adds (childErrors rj errorName members) [] := by
  induction members with
  | nil =>
    intro errorMsg
    rw [childErrors, List.append_nil]
  | cons m members ih =>
    obtain ⟨name, content⟩ := m
    have hname : name ≠ lit "errors" := by
      rintro rfl
      rw [childTrees, List.lookup_cons_self] at h
      cases content <;> simp at h
    intro errorMsg
    rw [childErrors, if_neg hname]
    exact ih (childTrees_cons hname content members ▸ h) errorMsg

/-- Nothing is taken off behind the opening bracket. -/
theorem popComma_open (errorMsg : Bytes) :
    popComma (errorMsg ++ lit ",\"errors\":[") = errorMsg ++ lit ",\"errors\":[" := by
  have hlast : (errorMsg ++ lit ",\"errors\":[").getLast? = some '['.toUInt8 := by
    rw [List.getLast?_append]
    rfl
  rw [popComma, hlast, if_neg (by decide)]

theorem childErrors_some {errorName : Bytes} {members : List (Bytes × Json)} {trees : List Json}
    (h : childTrees members = some trees) (errorMsg : Bytes) :
    childErrors rj errorName members errorMsg =
      (fun errorMsg => popComma errorMsg ++ lit "]") <$>
        createAll rj errorName trees (errorMsg ++ lit ",\"errors\":[") := by
  induction members with
  | nil => simp [childTrees] at h
  | cons m members ih =>
    obtain ⟨name, content⟩ := m
    by_cases hname : name = lit "errors"
    · subst hname
      rw [childTrees, List.lookup_cons_self] at h
      match content with
      | .array items =>
        obtain rfl : items = trees := Option.some.inj h
        rw [childErrors, if_pos rfl]
        show (popComma <$> createAll rj errorName items _) >>= (fun m => pure (m ++ lit "]")) = _
        cases createAll rj errorName items (errorMsg ++ lit ",\"errors\":[") <;> rfl
      | .object ms =>
        obtain rfl : ms.map Prod.snd = trees := Option.some.inj h
        rw [childErrors, if_pos rfl, ← createAllMembers_eq]
        show (popComma <$> createAllMembers rj errorName ms _) >>= (fun m => pure (m ++ lit "]")) = _
        cases createAllMembers rj errorName ms (errorMsg ++ lit ",\"errors\":[") <;> rfl
      | .null | .bool _ | .number _ | .string _ =>
        obtain rfl : [] = trees := Option.some.inj h
        rw [childErrors, if_pos rfl, createAll]
        show _ = Except.ok (popComma _ ++ lit "]")
        rw [popComma_open]
        rfl
    · rw [childErrors, if_neg hname]
      exact ih (childTrees_cons hname content members ▸ h)

theorem createAll_adds {errorName : Bytes} {trees : List Json} {text : Json → Bytes}
    (h : ∀ tree ∈ trees, Adds (createErrorMessages rj errorName true tree) (text tree)) :
    Adds (createAll rj errorName trees) (Library.Cut.glue comma (trees.map text)) := by
  induction trees with
  | nil =>
    intro errorMsg
    simp [createAll]
  | cons tree trees ih =>
    have hrest := ih fun t ht => h t (List.mem_cons_of_mem _ ht)
    intro errorMsg
    rw [createAll, h tree List.mem_cons_self, List.map_cons, Library.Cut.glue_cons]
    show createAll rj errorName trees (errorMsg ++ text tree ++ [comma]) = _
    rw [hrest]
    simp

/-- Behind nested errors the last comma is taken off. -/
theorem childErrors_adds {errorName : Bytes} {members : List (Bytes × Json)} {trees : List Json}
    {text : Json → Bytes} (hchildren : childTrees members = some trees)
    (h : ∀ tree ∈ trees, Adds (createErrorMessages rj errorName true tree) (text tree)) :
    Adds (childErrors rj errorName members)
      (lit ",\"errors\":[" ++ commas (trees.map text) ++ lit "]") := by
  intro errorMsg
  rw [childErrors_some rj hchildren, createAll_adds rj h]
  show Except.ok (popComma _ ++ lit "]") = _
  congr 1
  rw [← List.append_assoc, ← List.append_assoc]
  congr 1
  cases trees with
  | nil => simpa [commas, List.intercalate] using popComma_open errorMsg
  | cons tree trees =>
    have hglue : Library.Cut.glue comma ((tree :: trees).map text) ≠ [] := by simp
    have hlast := @Library.Cut.getLast?_glue _ comma ((tree :: trees).map text) (by simp)
    rw [popComma, List.getLast?_append_of_ne_nil _ hglue, hlast, if_pos rfl,
      List.dropLast_append_of_ne_nil hglue, Library.Cut.dropLast_glue]
    rfl

theorem errorText_ok {error : Bytes × List (Bytes × Json)} (herror : HasFields error)
    (context : Bytes) : ∃ text, errorText rj error.1 context error.2 = .ok text := by
  obtain ⟨lexeme, hcode⟩ := herror.errorCode
  obtain ⟨s, hs⟩ := herror.instanceRef
  obtain ⟨t, ht⟩ := herror.schemaRef
  simp only [errorText, textOf, hcode, hs, ht, bind, Except.bind, pure, Except.pure]
  exact ⟨_, rfl⟩

theorem body_of_text {context : Bytes} {error : Bytes × List (Bytes × Json)} {text body : Bytes}
    (htext : errorText rj error.1 context error.2 = .ok text)
    (hchildren : Adds (childErrors rj error.1 error.2) body) :
    Adds (writeError rj context error) (text ++ body) := by
  intro errorMsg
  rw [writeError, htext]
  show childErrors rj error.1 error.2 (errorMsg ++ text) = _
  rw [hchildren, List.append_assoc]

/-- A tree is written, whatever its strings are. -/
theorem exists_text {tree : Json} (htree : Writable tree) (context : Bytes) (recursive : Bool) :
    ∃ text, Adds (createErrorMessages rj context recursive tree) text := by
  induction htree generalizing context recursive with
  | @object members contents errors children ih =>
    have hall : ∀ error, ∃ body, error ∈ errorsOf (.object members) →
        Adds (writeError rj context error) body := by
      intro error
      by_cases herror : error ∈ errorsOf (.object members)
      · obtain ⟨text, htext⟩ := errorText_ok rj (errors error herror) context
        cases hchildren : childTrees error.2 with
        | none => exact ⟨_, fun _ => body_of_text rj htext (childErrors_none rj hchildren)⟩
        | some trees =>
          have htexts : ∀ tree, ∃ text, tree ∈ trees →
              Adds (createErrorMessages rj error.1 true tree) text := by
            intro tree
            by_cases htree : tree ∈ trees
            · obtain ⟨text, h⟩ := ih error herror trees hchildren tree htree error.1 true
              exact ⟨text, fun _ => h⟩
            · exact ⟨[], fun h => absurd h htree⟩
          choose text hadds using htexts
          exact ⟨_, fun _ => body_of_text rj htext (childErrors_adds rj hchildren hadds)⟩
      · exact ⟨[], fun h => absurd h herror⟩
    choose body hbody using hall
    exact ⟨_, createObject_adds rj contents hbody⟩

/-! ### What can be written -/

section

variable {errorName context : Bytes} {recursive : Bool} {errorMsg text : Bytes}

theorem handleErrors_ok {items : List Json}
    (h : handleErrors rj errorName context recursive items errorMsg = .ok text) :
    ∀ item ∈ items, ∃ before after, handleError rj errorName context recursive item before = .ok after := by
  induction items generalizing errorMsg with
  | nil => exact List.forall_mem_nil _
  | cons item items ih =>
    rw [handleErrors] at h
    obtain ⟨mid, hitem, hrest⟩ := bind_eq_ok_iff.mp h
    exact List.forall_mem_cons.mpr ⟨⟨_, _, hitem⟩, ih hrest⟩

theorem createMembers_ok {members : List (Bytes × Json)}
    (h : createMembers rj context recursive members errorMsg = .ok text) :
    ∀ m ∈ members, ∃ before after,
      handleContent rj (cstr m.1) context recursive m.2 before = .ok after := by
  induction members generalizing errorMsg with
  | nil => exact List.forall_mem_nil _
  | cons m members ih =>
    rw [createMembers_cons] at h
    obtain ⟨mid, hm, hrest⟩ := bind_eq_ok_iff.mp h
    exact List.forall_mem_cons.mpr ⟨⟨_, _, hm⟩, ih hrest⟩

theorem createAll_ok {trees : List Json} (h : createAll rj errorName trees errorMsg = .ok text) :
    ∀ tree ∈ trees, ∃ before after,
      createErrorMessages rj errorName true tree before = .ok after := by
  induction trees generalizing errorMsg with
  | nil => exact List.forall_mem_nil _
  | cons tree trees ih =>
    rw [createAll] at h
    obtain ⟨mid, htree, hrest⟩ := bind_eq_ok_iff.mp h
    exact List.forall_mem_cons.mpr ⟨⟨_, _, htree⟩, ih hrest⟩

theorem textOf_ok {members : List (Bytes × Json)} {name : Bytes}
    (h : textOf members name = .ok text) : ∃ s, members.lookup name = some (.string s) := by
  unfold textOf at h
  split at h
  · exact ⟨_, ‹_›⟩
  · simp at h

theorem hasFields_of_errorText {members : List (Bytes × Json)}
    (h : errorText rj errorName context members = .ok text) : HasFields (errorName, members) := by
  match hcode : members.lookup (lit "errorCode") with
  | some (.number lexeme) =>
    simp only [errorText, hcode] at h
    obtain ⟨_, -, h⟩ := bind_eq_ok_iff.mp h
    obtain ⟨instanceRef, hinstance, h⟩ := bind_eq_ok_iff.mp h
    obtain ⟨schemaRef, hschema, -⟩ := bind_eq_ok_iff.mp h
    exact ⟨⟨lexeme, hcode⟩, textOf_ok hinstance, textOf_ok hschema⟩
  | none | some .null | some (.bool _) | some (.string _) | some (.array _) | some (.object _) =>
    simp [errorText, hcode, throw, throwThe, MonadExceptOf.throw, bind, Except.bind] at h

/-- What an error must be if it is written. -/
theorem handleError_ok {item : Json}
    (h : handleError rj errorName context recursive item errorMsg = .ok text) :
    IsObject item ∧ ∀ members, errorMembers item = some members →
      HasFields (errorName, members) ∧ ∀ trees, childTrees members = some trees →
        ∀ tree ∈ trees, ∃ before after,
          createErrorMessages rj errorName true tree before = .ok after := by
  cases item with
  | object ms =>
    refine ⟨trivial, fun members hmembers => ?_⟩
    cases ms with
    | nil => simp [errorMembers] at hmembers
    | cons m ms =>
      obtain rfl : m :: ms = members := Option.some.inj hmembers
      rw [handleError] at h
      obtain ⟨written, hwritten, h⟩ := bind_eq_ok_iff.mp h
      obtain ⟨behind, hbehind, -⟩ := bind_eq_ok_iff.mp h
      refine ⟨hasFields_of_errorText rj hwritten, fun trees htrees => ?_⟩
      rw [childErrors_some rj htrees] at hbehind
      obtain ⟨all, hall, -⟩ := map_eq_ok_iff.mp hbehind
      exact createAll_ok rj hall
  | _ => simp [handleError] at h

end

theorem sizeOf_childTree {members : List (Bytes × Json)} {trees : List Json} {tree : Json}
    (h : childTrees members = some trees) (htree : tree ∈ trees) : sizeOf tree < sizeOf members := by
  unfold childTrees at h
  split at h
  · rename_i items hitems
    obtain rfl := Option.some.inj h
    have hitem := List.sizeOf_lt_of_mem htree
    have hmember := List.sizeOf_lt_of_mem (Library.Table.mem_of_lookup hitems)
    simp only [Prod.mk.sizeOf_spec, Library.Json.Value.array.sizeOf_spec] at hmember
    omega
  · rename_i ms hms
    obtain rfl := Option.some.inj h
    obtain ⟨m, hm, rfl⟩ := List.mem_map.mp htree
    have hitem := List.sizeOf_lt_of_mem hm
    have hmember := List.sizeOf_lt_of_mem (Library.Table.mem_of_lookup hms)
    obtain ⟨name, tree⟩ := m
    simp only [Prod.mk.sizeOf_spec, Library.Json.Value.object.sizeOf_spec] at hitem hmember ⊢
    omega
  · obtain rfl := Option.some.inj h
    simp at htree
  · simp at h

theorem sizeOf_errorMembers {item : Json} {members : List (Bytes × Json)}
    (h : errorMembers item = some members) : sizeOf members < sizeOf item := by
  unfold errorMembers at h
  split at h
  · obtain rfl := Option.some.inj h
    simp only [Library.Json.Value.object.sizeOf_spec]
    omega
  · simp at h

theorem mem_errorsOf {members : List (Bytes × Json)} {error : Bytes × List (Bytes × Json)}
    (h : error ∈ errorsOf (.object members)) :
    ∃ m ∈ members, error.1 = cstr m.1 ∧ error.2 ∈ contentErrors m.2 := by
  obtain ⟨m, hm, herror⟩ := List.mem_flatMap.mp h
  obtain ⟨ms, hms, rfl⟩ := List.mem_map.mp herror
  exact ⟨m, hm, rfl, hms⟩

/-- What is written of a keyword is written of each of its errors. -/
theorem handleContent_ok {errorName context : Bytes} {recursive : Bool} {errorMsg text : Bytes}
    {content : Json} (h : handleContent rj errorName context recursive content errorMsg = .ok text) :
    IsHandled content ∧ ∀ members ∈ contentErrors content, sizeOf members < sizeOf content ∧
      HasFields (errorName, members) ∧ ∀ trees, childTrees members = some trees →
        ∀ tree ∈ trees, ∃ before after,
          createErrorMessages rj errorName true tree before = .ok after := by
  cases content with
  | array items =>
    have hitems := handleErrors_ok rj h
    refine ⟨fun item hitem => ?_, fun members hmembers => ?_⟩
    · obtain ⟨before, after, hrun⟩ := hitems item hitem
      exact (handleError_ok rj hrun).1
    · obtain ⟨item, hitem, hsome⟩ := List.mem_filterMap.mp hmembers
      obtain ⟨before, after, hrun⟩ := hitems item hitem
      have hsize := sizeOf_errorMembers hsome
      have hlt := List.sizeOf_lt_of_mem hitem
      refine ⟨?_, (handleError_ok rj hrun).2 members hsome⟩
      simp only [Library.Json.Value.array.sizeOf_spec]
      omega
  | object ms =>
    refine ⟨trivial, fun members hmembers => ?_⟩
    have hsome : errorMembers (.object ms) = some members := Option.mem_toList.mp hmembers
    exact ⟨sizeOf_errorMembers hsome, (handleError_ok rj h).2 members hsome⟩
  | _ => exact ⟨trivial, by simp [contentErrors, errorMembers]⟩

/-- The code gets through a tree exactly if it can be written. -/
theorem createErrorMessages_ok_iff {tree : Json} {context : Bytes} {recursive : Bool}
    {errorMsg : Bytes} :
    (∃ text, createErrorMessages rj context recursive tree errorMsg = .ok text) ↔ Writable tree := by
  constructor
  · suffices hall : ∀ n tree context recursive errorMsg text, sizeOf tree < n →
        createErrorMessages rj context recursive tree errorMsg = .ok text → Writable tree by
      rintro ⟨text, h⟩
      exact hall _ tree _ _ _ text (Nat.lt_succ_self _) h
    intro n
    induction n with
    | zero => exact fun _ _ _ _ _ hlt => absurd hlt (Nat.not_lt_zero _)
    | succ n ih =>
      intro tree context recursive errorMsg text hlt h
      cases tree with
      | object members =>
        rw [createErrorMessages] at h
        have hmembers := createMembers_ok rj h
        -- each error stands in the content of a keyword, and its trees are smaller
        have herrors : ∀ error ∈ errorsOf (.object members), sizeOf error.2 < n ∧ HasFields error ∧
            ∀ trees, childTrees error.2 = some trees → ∀ tree ∈ trees, ∃ before after,
              createErrorMessages rj error.1 true tree before = .ok after := by
          rintro ⟨name, ms⟩ herror
          obtain ⟨m, hm, rfl, hms⟩ := mem_errorsOf herror
          obtain ⟨before, after, hrun⟩ := hmembers m hm
          obtain ⟨hsize, hfields, htrees⟩ := (handleContent_ok rj hrun).2 ms hms
          have hlt' := List.sizeOf_lt_of_mem hm
          obtain ⟨key, content⟩ := m
          simp only [Prod.mk.sizeOf_spec, Library.Json.Value.object.sizeOf_spec] at hlt hlt' hsize
          exact ⟨by simp only; omega, hfields, htrees⟩
        refine .object (fun m hm => ?_) (fun error herror => (herrors error herror).2.1)
          fun error herror trees htrees child hchild => ?_
        · obtain ⟨before, after, hrun⟩ := hmembers m hm
          exact (handleContent_ok rj hrun).1
        · obtain ⟨hsize, -, hwritten⟩ := herrors error herror
          obtain ⟨before, after, hrun⟩ := hwritten trees htrees child hchild
          exact ih child _ _ _ _ ((sizeOf_childTree htrees hchild).trans hsize) hrun
      | _ => simp [createErrorMessages] at h
  · intro h
    obtain ⟨text, htext⟩ := exists_text rj h context recursive
    exact ⟨_, htext errorMsg⟩

/-! ### What cannot be written -/

/-- What fails has no defined behaviour. -/
def FailsUndefined {α : Type} (r : Except Fault α) : Prop := ∀ x, r = .error x → x = .undefined

namespace FailsUndefined

variable {α β : Type}

theorem ok (a : α) : FailsUndefined (.ok a) := nofun

theorem undefined : FailsUndefined (.error .undefined : Except Fault α) := by
  rintro x ⟨⟩
  rfl

theorem bind {r : Except Fault α} (h : FailsUndefined r) {f : α → Except Fault β}
    (hf : ∀ a, FailsUndefined (f a)) : FailsUndefined (r >>= f) := by
  cases r with
  | error x =>
    rintro y ⟨⟩
    exact h x rfl
  | ok a => exact hf a

theorem map {r : Except Fault α} (h : FailsUndefined r) (f : α → β) : FailsUndefined (f <$> r) := by
  cases r with
  | error x =>
    rintro y ⟨⟩
    exact h x rfl
  | ok a => exact ok _

end FailsUndefined

theorem textOf_undefined (members : List (Bytes × Json)) (name : Bytes) :
    FailsUndefined (textOf members name) := by
  unfold textOf
  split
  · exact .ok _
  · exact .undefined

theorem errorText_undefined (errorName context : Bytes) (members : List (Bytes × Json)) :
    FailsUndefined (errorText rj errorName context members) := by
  match hcode : members.lookup (lit "errorCode") with
  | some (.number lexeme) =>
    simp only [errorText, hcode]
    exact (FailsUndefined.ok _).bind fun _ => (textOf_undefined members _).bind fun _ =>
      (textOf_undefined members _).bind fun _ => .ok _
  | none | some .null | some (.bool _) | some (.string _) | some (.array _) | some (.object _) =>
    simp only [errorText, hcode]
    exact FailsUndefined.undefined.bind fun _ => (textOf_undefined members _).bind fun _ =>
      (textOf_undefined members _).bind fun _ => .ok _

mutual

theorem createErrorMessages_undefined (context : Bytes) (recursive : Bool) :
    ∀ tree errorMsg, FailsUndefined (createErrorMessages rj context recursive tree errorMsg)
  | .object members, errorMsg => createMembers_undefined context recursive members errorMsg
  | .null, _ | .bool _, _ | .number _, _ | .string _, _ | .array _, _ => .undefined

theorem createMembers_undefined (context : Bytes) (recursive : Bool) :
    ∀ members errorMsg, FailsUndefined (createMembers rj context recursive members errorMsg)
  | [], errorMsg => .ok errorMsg
  | (name, .array items) :: rest, errorMsg =>
    (handleErrors_undefined (cstr name) context recursive items errorMsg).bind fun mid =>
      createMembers_undefined context recursive rest mid
  | (name, .object members) :: rest, errorMsg =>
    (handleError_undefined (cstr name) context recursive (.object members) errorMsg).bind fun mid =>
      createMembers_undefined context recursive rest mid
  | (_, .null) :: rest, errorMsg | (_, .bool _) :: rest, errorMsg | (_, .number _) :: rest, errorMsg
  | (_, .string _) :: rest, errorMsg => createMembers_undefined context recursive rest errorMsg

theorem handleErrors_undefined (errorName context : Bytes) (recursive : Bool) :
    ∀ items errorMsg, FailsUndefined (handleErrors rj errorName context recursive items errorMsg)
  | [], errorMsg => .ok errorMsg
  | item :: items, errorMsg =>
    (handleError_undefined errorName context recursive item errorMsg).bind fun mid =>
      handleErrors_undefined errorName context recursive items mid

theorem handleError_undefined (errorName context : Bytes) (recursive : Bool) :
    ∀ item errorMsg, FailsUndefined (handleError rj errorName context recursive item errorMsg)
  | .object [], errorMsg => .ok errorMsg
  | .object (member :: members), _ =>
    (errorText_undefined rj errorName context (member :: members)).bind fun _ =>
      (childErrors_undefined errorName (member :: members) _).bind fun _ => .ok _
  | .null, _ | .bool _, _ | .number _, _ | .string _, _ | .array _, _ => .undefined

theorem childErrors_undefined (errorName : Bytes) :
    ∀ members errorMsg, FailsUndefined (childErrors rj errorName members errorMsg)
  | [], errorMsg => .ok errorMsg
  | (name, .array trees) :: rest, errorMsg => by
    have htrees := createAll_undefined errorName trees (errorMsg ++ lit ",\"errors\":[")
    have hrest := childErrors_undefined errorName rest errorMsg
    rw [childErrors]
    split
    · exact (htrees.map _).bind fun _ => .ok _
    · exact hrest
  | (name, .object trees) :: rest, errorMsg => by
    have htrees := createAllMembers_undefined errorName trees (errorMsg ++ lit ",\"errors\":[")
    have hrest := childErrors_undefined errorName rest errorMsg
    rw [childErrors]
    split
    · exact (htrees.map _).bind fun _ => .ok _
    · exact hrest
  | (name, .null) :: rest, errorMsg | (name, .bool _) :: rest, errorMsg
  | (name, .number _) :: rest, errorMsg | (name, .string _) :: rest, errorMsg => by
    have hrest := childErrors_undefined errorName rest errorMsg
    rw [childErrors]
    split
    · exact .ok _
    · exact hrest

theorem createAll_undefined (errorName : Bytes) :
    ∀ trees errorMsg, FailsUndefined (createAll rj errorName trees errorMsg)
  | [], errorMsg => .ok errorMsg
  | tree :: trees, errorMsg =>
    (createErrorMessages_undefined errorName true tree errorMsg).bind fun mid =>
      createAll_undefined errorName trees (mid ++ [comma])

theorem createAllMembers_undefined (errorName : Bytes) :
    ∀ members errorMsg, FailsUndefined (createAllMembers rj errorName members errorMsg)
  | [], errorMsg => .ok errorMsg
  | (_, tree) :: members, errorMsg =>
    (createErrorMessages_undefined errorName true tree errorMsg).bind fun mid =>
      createAllMembers_undefined errorName members (mid ++ [comma])

end

/-! ### Texts of errors and of trees -/

/-- The text of an error: members with commas between them if its trees are well nested, and else a
text in which a scan gets stuck. -/
structure IsBody (context : Bytes) (error : Bytes × List (Bytes × Json)) (body : Bytes) : Prop where
  adds : Adds (writeError rj context error) body
  head : ∃ rest, body = quote :: rest
  parses : WellNested error.2 → ∃ texts ms, texts ≠ [] ∧ List.Forall₂ ParsesMember texts ms ∧
    body = commas texts
  stuck : ¬ WellNested error.2 → Stuck body

/-- The text of a nested tree. -/
structure IsTreeText (context : Bytes) (tree : Json) (text : Bytes) : Prop where
  adds : Adds (createErrorMessages rj context true tree) text
  silent : errorsOf tree = [] → text = []
  parses : OneError tree → ∃ v, Parses text v
  stuck : errorsOf tree ≠ [] → ¬ OneError tree → Stuck text

variable {rj}

theorem IsTreeText.completes {context : Bytes} {tree : Json} {text : Bytes}
    (h : IsTreeText rj context tree text) (hone : OneError tree) : Completes text := by
  obtain ⟨v, hv⟩ := h.parses hone
  exact hv.value.completes

theorem IsTreeText.not_completes {context : Bytes} {tree : Json} {text : Bytes}
    (h : IsTreeText rj context tree text) (hone : ¬ OneError tree) : ¬ Completes text := by
  by_cases hnone : errorsOf tree = []
  · rw [h.silent hnone]
    exact not_completes_nil
  · exact (h.stuck hnone hone).not_completes

/-- The nested texts, each of a tree, in brackets. -/
theorem nested_parses {errorName : Bytes} {members : List (Bytes × Json)} {trees : List Json}
    {text : Json → Bytes} (hchildren : childTrees members = some trees)
    (htext : ∀ tree ∈ trees, IsTreeText rj errorName tree (text tree))
    (hnested : WellNested members) :
    ∃ vs, Parses ('['.toUInt8 :: (commas (trees.map text) ++ [']'.toUInt8])) (.array vs) := by
  rcases hnested with hnone | ⟨child, hchild, hsilent⟩ | ⟨trees', htrees, hone⟩
  · simp [hchildren] at hnone
  · obtain rfl : trees = [child] := Option.some.inj (hchildren.symm.trans hchild)
    refine ⟨[], ?_⟩
    rw [List.map_singleton, commas_singleton, (htext child List.mem_cons_self).silent hsilent]
    exact parses_empty_array
  · obtain rfl : trees = trees' := Option.some.inj (hchildren.symm.trans htrees)
    cases trees with
    | nil => exact ⟨[], parses_empty_array⟩
    | cons tree trees =>
      have hvalues : ∀ t, ∃ v, t ∈ tree :: trees → Parses (text t) v := by
        intro t
        by_cases ht : t ∈ tree :: trees
        · obtain ⟨v, hv⟩ := (htext t ht).parses (hone t ht)
          exact ⟨v, fun _ => hv⟩
        · exact ⟨.null, fun h => absurd h ht⟩
      choose value hvalue using hvalues
      refine ⟨(tree :: trees).map value, parses_array ?_ (by simp)⟩
      rw [List.forall₂_map_left_iff, List.forall₂_map_right_iff, List.forall₂_same]
      exact hvalue

theorem nested_stuck {errorName : Bytes} {members : List (Bytes × Json)} {trees : List Json}
    {text : Json → Bytes} (hchildren : childTrees members = some trees)
    (htext : ∀ tree ∈ trees, IsTreeText rj errorName tree (text tree))
    (hnested : ¬ WellNested members) (r : Bytes) :
    run (.outside .opening) (commas (trees.map text) ++ ']'.toUInt8 :: r) = none := by
  simp only [WellNested, hchildren, reduceCtorEq, Option.some.injEq, false_or, not_or, not_exists,
    not_and] at hnested
  obtain ⟨hsilent, heach⟩ := hnested
  obtain ⟨bad, hbad, hone⟩ : ∃ tree ∈ trees, ¬ OneError tree := by
    by_contra hall
    push Not at hall
    exact heach trees rfl hall
  apply commas_stuck
  · intro t ht
    obtain ⟨tree, htree, rfl⟩ := List.mem_map.mp ht
    by_cases hnone : errorsOf tree = []
    · exact Or.inl ((htext tree htree).silent hnone)
    · by_cases hgood : OneError tree
      · exact Or.inr (Or.inr ((htext tree htree).completes hgood))
      · exact Or.inr (Or.inl ((htext tree htree).stuck hnone hgood))
  · exact ⟨text bad, List.mem_map_of_mem hbad, (htext bad hbad).not_completes hone⟩
  · refine Or.inr ⟨rfl, fun hempty => ?_⟩
    obtain ⟨child, rfl⟩ : ∃ child, trees = [child] := by
      have hlength := congrArg List.length hempty
      rw [List.length_map] at hlength
      exact List.length_eq_one_iff.mp hlength
    obtain rfl : bad = child := List.mem_singleton.mp hbad
    have htree := htext bad hbad
    have hnone : errorsOf bad ≠ [] := hsilent bad rfl
    have hnil : text bad = [] := by simpa using hempty
    have hstuck := htree.stuck hnone hone .opening (by decide)
    rw [hnil] at hstuck
    simp at hstuck

/-- Every error has a text, once the trees nested in it have theirs. -/
theorem exists_body (hrj : PlainTexts rj) {context : Bytes} (hcontext : NeedsNoEscape context)
    {error : Bytes × List (Bytes × Json)} (herror : PlainError error)
    (htrees : ∀ trees, childTrees error.2 = some trees → ∀ tree ∈ trees,
      ∃ text, IsTreeText rj error.1 tree text) : ∃ body, IsBody rj context error body := by
  obtain ⟨texts, ms, hne, hmembers, ⟨rest, hhead⟩, htext⟩ := errorText_parses hrj hcontext herror
  cases hchildren : childTrees error.2 with
  | none =>
    refine ⟨commas texts, ?_, ⟨rest, hhead⟩, fun _ => ⟨texts, ms, hne, hmembers, rfl⟩,
      fun h => absurd (Or.inl hchildren) h⟩
    simpa using body_of_text rj htext (childErrors_none rj hchildren)
  | some trees =>
    have hall : ∀ tree, ∃ text, tree ∈ trees → IsTreeText rj error.1 tree text := by
      intro tree
      by_cases htree : tree ∈ trees
      · obtain ⟨text, h⟩ := htrees trees hchildren tree htree
        exact ⟨text, fun _ => h⟩
      · exact ⟨[], fun h => absurd h htree⟩
    choose text hnested using hall
    have hadds := body_of_text rj htext
      (childErrors_adds rj hchildren fun tree h => (hnested tree h).adds)
    refine ⟨_, hadds, ⟨_, by rw [hhead]; rfl⟩, ?_, ?_⟩
    · intro hwell
      obtain ⟨vs, hvs⟩ := nested_parses hchildren hnested hwell
      have herrors : ParsesMember (memberText (lit "errors")
          ('['.toUInt8 :: (commas (trees.map text) ++ [']'.toUInt8])))
          (lit "errors", .array vs) :=
        ⟨show NeedsNoEscape (lit "errors") by decide, _, rfl, hvs.value⟩
      refine ⟨_, _, by simp, List.rel_append hmembers (.cons herrors .nil), ?_⟩
      rw [commas_append_singleton hne]
      simp [memberText, lit, quote]
    · intro hwell last hlast
      obtain ⟨last', hended, hrun⟩ := commas_completes (completes_of_members hmembers) hne last hlast
      have hopen : run (.outside .comma) (lit "\"errors\":[") = some (.outside .opening) := by decide
      have hcomma : step (.outside last') comma = some (.outside .comma) := step_comma hended
      have hsplit : lit ",\"errors\":[" = comma :: lit "\"errors\":[" := rfl
      rw [run_append_some hrun, hsplit, List.append_assoc, List.cons_append, run, hcomma,
        Option.bind_some, run_append_some hopen]
      exact nested_stuck hchildren hnested hwell []

theorem inBraces_parses {error : Bytes × List (Bytes × Json)} {context body : Bytes}
    (h : IsBody rj context error body) (hwell : WellNested error.2) :
    ∃ v, Parses (inBraces true body) v := by
  obtain ⟨texts, ms, hne, hmembers, rfl⟩ := h.parses hwell
  exact ⟨_, parses_object hmembers hne⟩

theorem inBraces_stuck {error : Bytes × List (Bytes × Json)} {context body : Bytes}
    (h : IsBody rj context error body) (hwell : ¬ WellNested error.2) :
    Stuck (inBraces true body) := by
  intro last hlast
  have hopen : run (.outside last) (lit "\x7b") = some (.outside .opening) := by
    have hstep : step (.outside last) '\x7b'.toUInt8 = some (.outside .opening) :=
      step_open hlast (Or.inl rfl)
    show run (.outside last) ['\x7b'.toUInt8] = _
    rw [run, hstep]
    rfl
  rw [inBraces, if_pos rfl, List.append_assoc, run_append_some hopen]
  exact run_append_none (h.stuck hwell .opening (by decide)) _

/-- Every tree has a text, once its errors have theirs. -/
theorem exists_treeText {context : Bytes} {tree : Json} (htree : PlainTree tree)
    (h : ∀ error ∈ errorsOf tree, ∃ body, IsBody rj context error body) :
    ∃ text, IsTreeText rj context tree text := by
  have hall : ∀ error, ∃ body, error ∈ errorsOf tree → IsBody rj context error body := by
    intro error
    by_cases herror : error ∈ errorsOf tree
    · obtain ⟨body, hbody⟩ := h error herror
      exact ⟨body, fun _ => hbody⟩
    · exact ⟨[], fun h => absurd h herror⟩
  choose body hbody using hall
  refine ⟨_, createErrorMessages_adds rj htree fun error herror => (hbody error herror).adds, ?_, ?_, ?_⟩
  · intro hnone
    rw [hnone]
    rfl
  · intro hone
    obtain ⟨error, herrors, hwell⟩ := oneError_iff.mp hone
    have hmem : error ∈ errorsOf tree := by
      rw [herrors]
      exact List.mem_singleton_self _
    rw [herrors, List.flatMap_singleton]
    exact inBraces_parses (hbody error hmem) hwell
  · intro hne hone
    obtain ⟨error, errors, herrors⟩ := List.exists_cons_of_ne_nil hne
    have hmem : error ∈ errorsOf tree := by
      rw [herrors]
      exact List.mem_cons_self
    rw [herrors, List.flatMap_cons]
    by_cases hwell : WellNested error.2
    · cases errors with
      | nil => exact absurd (oneError_iff.mpr ⟨error, herrors, hwell⟩) hone
      | cons next errors =>
        -- a brace opens right behind one that closes
        intro last hlast
        obtain ⟨v, hv⟩ := inBraces_parses (hbody error hmem) hwell
        obtain ⟨last', hended, hrun⟩ := hv.value.completes last hlast
        have hbrace : step (.outside last') '\x7b'.toUInt8 = none := by
          rcases hended with rfl | rfl | rfl <;> decide
        rw [run_append_some hrun, List.flatMap_cons, inBraces, if_pos rfl]
        show run (.outside last') ('\x7b'.toUInt8 :: _) = none
        rw [run, hbrace]
        rfl
    · exact (inBraces_stuck (hbody error hmem) hwell).append _

/-- Every error of a tree has a text. -/
theorem exists_bodies (hrj : PlainTexts rj) {tree : Json} (htree : PlainTree tree) {context : Bytes}
    (hcontext : NeedsNoEscape context) :
    ∀ error ∈ errorsOf tree, ∃ body, IsBody rj context error body := by
  induction htree generalizing context with
  | object contents errors children ih =>
    intro error herror
    apply exists_body hrj hcontext (errors error herror)
    intro trees htrees tree htree
    exact exists_treeText (children error herror trees htrees tree htree)
      (ih error herror trees htrees tree htree (errors error herror).name)

/-! ### Reports -/

/-- The header of a place leaves the scan behind a comma. -/
theorem errHeader_run {v : BaseValidator} (hv : Keyed v) (href : PlainRef v) :
    run (.outside .start) v.errHeader = some (.outside .comma) := by
  obtain ⟨refKeys, hkeys⟩ := hv.header
  have hmember : ParsesMember (memberText (lit "specRef") (quoted (joinReference refKeys))) _ :=
    @parsesMember_string (lit "specRef") _ (by decide) (href refKeys hkeys)
  have hopen : ∀ code : ValidationError, code ≠ .NONE →
      run (.outside .start) (errHeaderOf code) = some (.outside .opening) := by
    intro code hcode
    cases code <;> first | exact absurd rfl hcode | decide
  have hheader : v.errHeader = errHeaderOf v.codeOnError ++
      (memberText (lit "specRef") (quoted (joinReference refKeys)) ++ [comma]) := by
    conv_lhs => rw [hkeys]
    simp [BaseValidator.ofKeys, memberText, quoted, lit, quote, comma]
  obtain ⟨last, hended, hrun⟩ := hmember.completes .opening (by decide)
  rw [hheader, run_append_some (hopen _ hv.code), run_append_some hrun, run]
  exact congrArg (fun scan => scan.bind fun scan => run scan []) (step_comma hended)

variable {v : JsonValidator σ} (hv : Keyed v.toBaseValidator) (href : PlainRef v.toBaseValidator)
include hv href

/-- The text for a tree of one error is an object. -/
theorem report_object {error : Bytes × List (Bytes × Json)} {body : Bytes}
    (hbody : IsBody rj [] error body) (hwell : WellNested error.2) :
    WellFormed v.codeOnError (v.errHeader ++ body ++ lit "\x7d\x7d") := by
  obtain ⟨texts, ms, hne, hmembers, rfl⟩ := hbody.parses hwell
  exact hv.wellFormed href hmembers hne

/-- For another tree a scan of the text gets stuck. -/
theorem report_stuck {tree : Json} (hone : ¬ OneError tree)
    {body : Bytes × List (Bytes × Json) → Bytes}
    (hbody : ∀ error ∈ errorsOf tree, IsBody rj [] error (body error)) :
    run (.outside .start) (v.errHeader ++ (errorsOf tree).flatMap body ++ lit "\x7d\x7d") = none := by
  rw [List.append_assoc, run_append_some (errHeader_run hv href)]
  cases herrors : errorsOf tree with
  | nil => rfl
  | cons error errors =>
    have hmem : error ∈ errorsOf tree := by
      rw [herrors]
      exact List.mem_cons_self
    rw [List.flatMap_cons, List.append_assoc]
    by_cases hwell : WellNested error.2
    · obtain ⟨texts, ms, hne, hmembers, htexts⟩ := (hbody error hmem).parses hwell
      obtain ⟨last, hended, hrun⟩ :=
        commas_completes (completes_of_members hmembers) hne .comma (by decide)
      cases errors with
      | nil => exact absurd (oneError_iff.mpr ⟨error, herrors, hwell⟩) hone
      | cons next errors =>
        -- a quote opens right behind a value
        have hnext : next ∈ errorsOf tree := by
          rw [herrors]
          exact List.mem_cons_of_mem _ List.mem_cons_self
        obtain ⟨rest, hrest⟩ := (hbody next hnext).head
        have hquote : step (.outside last) quote = none := by
          rcases hended with rfl | rfl | rfl <;> decide
        rw [htexts, run_append_some hrun, List.flatMap_cons, hrest, List.cons_append, List.cons_append,
          run, hquote]
        rfl
    · exact run_append_none ((hbody error hmem).stuck hwell .comma (by decide)) _

/-- A value that the schema rejects is reported with one JSON object exactly if the tree of errors
has one error, as has each tree nested in it. -/
theorem report_object_iff (hrj : PlainTexts rj) {jsonStr errorMsg : Bytes} {doc tree : Json}
    (hparse : rj.parse (cstr jsonStr) = .ok doc) (hreject : (rj.accept v.validator doc).1 = false)
    (hgetError : rj.getError (rj.accept v.validator doc).2 = tree) (htree : PlainTree tree) :
    ∃ c, v.validate rj jsonStr errorMsg = .ok c ∧
      ((∃ members, parse c.errorMsg = some (.object members)) ↔ OneError tree) := by
  have hall : ∀ error, ∃ body, error ∈ errorsOf tree → IsBody rj [] error body := by
    intro error
    by_cases herror : error ∈ errorsOf tree
    · obtain ⟨body, hbody⟩ := exists_bodies hrj htree (List.forall_mem_nil _) error herror
      exact ⟨body, fun _ => hbody⟩
    · exact ⟨[], fun h => absurd h herror⟩
  choose body hbody using hall
  have hwrites : ∀ error ∈ errorsOf tree, Adds (writeError rj [] error) (body error) :=
    fun error herror => (hbody error herror).adds
  have hadds : Adds (createErrorMessages rj [] false tree)
      ((errorsOf tree).flatMap fun error => inBraces false (body error)) :=
    createErrorMessages_adds rj htree hwrites
  specialize hadds v.errHeader
  simp only [inBraces, Bool.false_eq_true, if_false] at hadds
  refine ⟨⟨v.codeOnError, v.errHeader ++ (errorsOf tree).flatMap body ++ lit "\x7d\x7d",
    { v with validator := rj.reset (rj.accept v.validator doc).2 }⟩, ?_, ?_⟩
  · rw [validate, hparse]
    simp only [hreject, hgetError, hadds, Bool.false_eq_true, if_false]
    rfl
  · constructor
    · rintro ⟨members, hmembers⟩
      by_contra hone
      rw [parse_eq_none (report_stuck hv href hone hbody)] at hmembers
      simp at hmembers
    · intro hone
      obtain ⟨error, herrors, hwell⟩ := oneError_iff.mp hone
      have hmem : error ∈ errorsOf tree := by
        rw [herrors]
        exact List.mem_singleton_self _
      obtain ⟨members, hmembers, -⟩ := report_object hv href (hbody error hmem) hwell
      exact ⟨members, by rwa [herrors, List.flatMap_singleton]⟩

end JsonValidator

/-! ### A failed `allOf` -/

/-- RapidJSON with a `SchemaValidator` that rejects every value with one tree. -/
def RapidJson.rejecting (tree : Json) : RapidJson Unit where
  parse := RapidJson.plain.parse
  getParseError_En := RapidJson.plain.getParseError_En
  schemaValidator _ := ()
  accept _ _ := (false, ())
  getError _ := tree
  reset _ := ()
  getInt lexeme := if lexeme = lit "20" then 20 else if lexeme = lit "23" then 23 else 0
  getValidateError_En code :=
    if code = 20 then
      lit "Property has a type '%actual' that is not in the following list: '%expected'."
    else if code = 23 then
      lit "Property did not match all of the sub-schemas specified by 'allOf', refer to following errors."
    else lit "Unknown error."
  numberToString lexeme := if NeedsNoEscape lexeme then lexeme else []

theorem rejecting_plain (tree : Json) : JsonValidator.PlainTexts (.rejecting tree) where
  message code := by
    simp only [RapidJson.rejecting]
    split
    · decide
    · split <;> decide
  number lexeme := by
    simp only [RapidJson.rejecting]
    split
    · assumption
    · exact List.forall_mem_nil _

/-- The error of a string where the schema at `schemaRef` has integers. -/
def integerError (schemaRef : Bytes) : Json :=
  .object [(lit "expected", .array [.string (lit "integer")]), (lit "actual", .string (lit "string")),
    (lit "errorCode", .number (lit "20")), (lit "instanceRef", .string (lit "#")),
    (lit "schemaRef", .string schemaRef)]

/-- The tree of a value that fails `allOf`, with the trees of the branches. -/
def allOfTree (branches : List Json) : Json :=
  .object [(lit "allOf", .object [(lit "errors", .array branches), (lit "errorCode", .number (lit "23")),
    (lit "instanceRef", .string (lit "#")), (lit "schemaRef", .string (lit "#"))])]

def failedBranch (schemaRef : Bytes) : Json := .object [(lit "type", integerError schemaRef)]

theorem passedBranch_plainTree : PlainTree (.object []) :=
  .object (by simp) (by simp [errorsOf]) (by simp [errorsOf])

/-- A tree with an error under one keyword. -/
theorem plainTree_singleton {name : Bytes} {m : Bytes × Json} {members : List (Bytes × Json)}
    (error : PlainError (cstr name, m :: members))
    (children : ∀ trees, childTrees (m :: members) = some trees → ∀ tree ∈ trees, PlainTree tree) :
    PlainTree (.object [(name, .object (m :: members))]) := by
  have herrors : errorsOf (.object [(name, .object (m :: members))]) = [(cstr name, m :: members)] :=
    rfl
  apply TreeOf.object
  · intro content hcontent
    rw [List.mem_singleton.mp hcontent]
    trivial
  · rw [herrors]
    exact List.forall_mem_singleton.mpr error
  · rw [herrors]
    exact List.forall_mem_singleton.mpr children

theorem failedBranch_plainTree {schemaRef : Bytes} (h : NeedsNoEscape schemaRef) :
    PlainTree (failedBranch schemaRef) := by
  apply plainTree_singleton
    ⟨⟨⟨_, rfl⟩, ⟨_, rfl⟩, ⟨_, rfl⟩⟩, show NeedsNoEscape (cstr (lit "type")) by decide, ?_⟩
  · intro trees htrees
    exact nomatch (htrees : none = some trees)
  · have hfixed : ∀ text ∈ [lit "integer", lit "string", lit "#"], NeedsNoEscape text := by decide
    simp only [List.forall_mem_cons, List.not_mem_nil, false_implies, implies_true, and_true] at hfixed
    simp [PlainValue, hfixed, h]

theorem allOfTree_plainTree {branches : List Json} (h : ∀ branch ∈ branches, PlainTree branch)
    (hplain : ∀ s, Library.Json.Value.string s ∉ branches) : PlainTree (allOfTree branches) := by
  apply plainTree_singleton
    ⟨⟨⟨_, rfl⟩, ⟨_, rfl⟩, ⟨_, rfl⟩⟩, show NeedsNoEscape (cstr (lit "allOf")) by decide, ?_⟩
  · intro trees htrees
    obtain rfl : branches = trees := Option.some.inj htrees
    exact h
  · have hfixed : NeedsNoEscape (lit "#") := by decide
    simp [PlainValue, hfixed, hplain]

def integerSchema : Json := .object [(lit "type", .string (lit "integer"))]

def allOfSchema (branches : List Json) : Json := .object [(lit "allOf", .array branches)]

/-- The validator of a body, where RapidJSON rejects a value with this tree. -/
def bodyValidator (schema tree : Json) : JsonValidator Unit :=
  .ofSchema (.rejecting tree) schema [lit "schema"] .INVALID_BODY

theorem bodyValidator_plainRef (schema tree : Json) :
    PlainRef (bodyValidator schema tree).toBaseValidator := by
  apply plainRef_ofKeys.mpr
  have hreference : NeedsNoEscape (joinReference [lit "schema"]) := by decide
  exact hreference

/-- The schema `{"allOf": [{"type": "integer"}]}` on a string. -/
theorem report_object_iff_failedBranch :
    ∃ c, (bodyValidator (allOfSchema [integerSchema]) (allOfTree [failedBranch (lit "#/allOf/0")])).validate
        (.rejecting (allOfTree [failedBranch (lit "#/allOf/0")])) (lit "\"word\"") [] = .ok c ∧
      ((∃ members, parse c.errorMsg = some (.object members)) ↔
        OneError (allOfTree [failedBranch (lit "#/allOf/0")])) := by
  have hkeyed : Keyed (bodyValidator (allOfSchema [integerSchema])
      (allOfTree [failedBranch (lit "#/allOf/0")])).toBaseValidator := ofKeys_keyed nofun
  have hparse : (RapidJson.rejecting (allOfTree [failedBranch (lit "#/allOf/0")])).parse
      (cstr (lit "\"word\"")) = .ok (.string (lit "word")) := by
    have hread : parse (lit "\"word\"") = some (.string (lit "word")) :=
      (reads_string (s := lit "word") (by decide)).parse
    have hcstr : cstr (lit "\"word\"") = lit "\"word\"" := cstr_of_not_mem (by decide)
    rw [hcstr, RapidJson.rejecting, RapidJson.plain]
    simp only [hread]
  have hfailed : PlainTree (failedBranch (lit "#/allOf/0")) := failedBranch_plainTree (by decide)
  exact JsonValidator.report_object_iff hkeyed (bodyValidator_plainRef _ _) (rejecting_plain _) hparse
    rfl rfl (allOfTree_plainTree (by simpa using hfailed) (by simp [failedBranch]))

/-- The schema `{"allOf": [{}, {"type": "integer"}]}` on a string: the comma behind the branch that passed
stands where a value is due. -/
theorem passed_branch_malformed :
    PlainTree (allOfTree [.object [], failedBranch (lit "#/allOf/1")]) ∧
      ∃ c, (bodyValidator (allOfSchema [.object [], integerSchema])
          (allOfTree [.object [], failedBranch (lit "#/allOf/1")])).validate
          (.rejecting (allOfTree [.object [], failedBranch (lit "#/allOf/1")])) (lit "\"word\"") [] =
            .ok c ∧
        ¬ ∃ members, parse c.errorMsg = some (.object members) := by
  refine ⟨allOfTree_plainTree ?_ (by simp [failedBranch]), ?_⟩
  · have hfailed : PlainTree (failedBranch (lit "#/allOf/1")) := failedBranch_plainTree (by decide)
    simpa using ⟨passedBranch_plainTree, hfailed⟩
  · have hstuck : (match (bodyValidator (allOfSchema [.object [], integerSchema])
          (allOfTree [.object [], failedBranch (lit "#/allOf/1")])).validate
        (.rejecting (allOfTree [.object [], failedBranch (lit "#/allOf/1")])) (lit "\"word\"") [] with
      | .ok c => (run (.outside .start) c.errorMsg).isNone
      | .error _ => false) = true := by decide +kernel
    split at hstuck
    · rename_i c hvalidate
      refine ⟨c, hvalidate, ?_⟩
      rintro ⟨members, hmembers⟩
      rw [parse_eq_none (Option.isNone_iff_eq_none.mp hstuck)] at hmembers
      simp at hmembers
    · simp at hstuck

end OasValidator
