import OasValidator.Imp.Demands

/-! The references in error texts.  A constructed validator carries, for each part of the
specification that it checks, the reference made of the keys that lead there; two parts share one
just where their paths are equal once every slash is escaped, their methods are written alike, and
their last keys are equal. -/

namespace OasValidator

open Library.Cut Library.Table

/-- The body of an operation, or a parameter by its `in` and its name. -/
inductive PartKind where
  | body
  | param (in_ name : Bytes)
deriving DecidableEq

/-- What a validator is about. -/
structure Part where
  method : HttpMethod
  path : Bytes
  kind : PartKind
deriving DecidableEq

/-- The error texts of a validator begin with the reference. -/
def BaseValidator.HasRef (v : BaseValidator) (ref : Bytes) : Prop :=
  v.errHeader = errHeaderOf v.codeOnError ++ lit "\"specRef\":\"" ++ ref ++ lit "\","

namespace ValidatorsStore

variable {σ : Type}

/-- The validators of a store, and what each is about. -/
def validators (store : ValidatorsStore σ) : List (PartKind × BaseValidator) :=
  store.bodyValidator.toList.map (fun v => (.body, v.toBaseValidator)) ++
  store.pathParamValidators.map
    (fun info => (.param (lit "path") info.validator.name, info.validator.toBaseValidator)) ++
  store.queryParamValidators.map
    (fun info => (.param (lit "query") info.name, info.validator.toBaseValidator)) ++
  store.headerParamValidators.map fun entry => (.param (lit "header") entry.1, entry.2.toBaseValidator)

def Carries (store : ValidatorsStore σ) (kind : PartKind) (ref : Bytes) : Prop :=
  ∃ v, (kind, v) ∈ store.validators ∧ v.HasRef ref

end ValidatorsStore

/-- The validator of a part carries the reference. -/
def OASValidatorImp.Carries {σ : Type} (imp : OASValidatorImp σ) (part : Part) (ref : Bytes) : Prop :=
  ∃ store, (imp.oasValidators part.method).perPathValidators.lookup part.path = some store ∧
    store.Carries part.kind ref

/-! ### What a document declares -/

/-- A part of a document, under the method name as it is written there.  An operation declares its
body even if there is nothing to validate it with. -/
structure Declaration where
  methodName : Bytes
  part : Part
  validated : Bool
deriving DecidableEq

namespace Declaration

/-- The keys that lead to a declaration, and those behind the method. -/
def refKeys (d : Declaration) : List Bytes :=
  [lit "paths", escapeSlash d.part.path, d.methodName] ++
    match d.part.kind with
    | .body => [lit "requestBody/content/application%2Fjson/schema"]
    | .param _ name => [lit "parameters", name]

def ref (d : Declaration) : Bytes := joinReference d.refKeys

/-- Of the bodies of one path and method, and of the headers of one name, the first is kept. -/
def emplaced (d : Declaration) : Bool :=
  match d.part.kind with
  | .body => true
  | .param in_ _ => in_ = lit "header"

def add (ds : List Declaration) (d : Declaration) : List Declaration :=
  if d.emplaced ∧ d.part ∈ ds.map (·.part) then ds else ds ++ [d]

end Declaration

/-- There is a schema for the body. -/
def hasBody (operation : Json) : Bool :=
  match bodySchema operation with
  | .ok (some _) => true
  | _ => false

def declarePart (methodName path : Bytes) (validated : Bool) (kind : PartKind) : List Declaration :=
  match kStringToMethod.lookup methodName with
  | some method => [⟨methodName, ⟨method, path, kind⟩, validated⟩]
  | none => []

/-- The declarations of parameters. -/
def declareParams (path methodName : Bytes) (params : List Json) : List Declaration :=
  params.flatMap fun paramVal => declarePart methodName path true
    (.param (textOf (paramVal.member (lit "in"))) (textOf (paramVal.member (lit "name"))))

/-- The declarations of one operation in the order in which they are processed. -/
def declareOperation (path methodName : Bytes) (operation : Json) : List Declaration :=
  declarePart methodName path (hasBody operation) .body ++
    declareParams path methodName (itemsOf (operation.member (lit "parameters")))

def declareMethods (path : Bytes) (methods : List (Bytes × Json)) : List Declaration :=
  methods.flatMap fun member => declareOperation path (cstr member.1) member.2

def declarePaths (paths : List (Bytes × Json)) : List Declaration :=
  paths.flatMap fun member => declareMethods (cstr member.1) (membersOf member.2)

/-- The declarations of a document that are in force. -/
def declarations (doc : Json) : List Declaration :=
  (declarePaths (membersOf (doc.member (lit "paths")))).foldl Declaration.add []

/-! ### References by their keys -/

theorem slash_not_mem_escapeSlash (str : Bytes) : slash ∉ escapeSlash str := by
  simp only [escapeSlash, List.mem_flatMap, not_exists, not_and]
  intro ch _ h
  split at h
  · exact absurd h (by decide)
  · rename_i hne
    exact hne (List.mem_singleton.mp h).symm

theorem slash_not_mem_methodName {methodName : Bytes} {method : HttpMethod}
    (h : kStringToMethod.lookup methodName = some method) : slash ∉ methodName := by
  have hall : kStringToMethod.all (fun p => slash ∉ p.1) = true := by decide
  simpa using List.all_eq_true.mp hall _ (mem_of_lookup h)

namespace Declaration

/-- The method of a declaration is the one its name stands for. -/
def Named (d : Declaration) : Prop := kStringToMethod.lookup d.methodName = some d.part.method

/-- Two declarations that the keys of their references do not tell apart. -/
def Alike (d e : Declaration) : Prop :=
  d.methodName = e.methodName ∧ escapeSlash d.part.path = escapeSlash e.part.path ∧
    match d.part.kind, e.part.kind with
    | .body, .body => True
    | .param _ name, .param _ name' => name = name'
    | _, _ => False

theorem ref_eq_iff {d e : Declaration} (hd : d.Named) (he : e.Named) : d.ref = e.ref ↔ d.Alike e := by
  obtain ⟨dName, ⟨dMethod, dPath, dKind⟩, dValidated⟩ := d
  obtain ⟨eName, ⟨eMethod, ePath, eKind⟩, eValidated⟩ := e
  have hkeys : ∀ tail tail' : Bytes,
      escapeSlash dPath ++ slash :: (dName ++ slash :: tail) =
          escapeSlash ePath ++ slash :: (eName ++ slash :: tail') ↔
        escapeSlash dPath = escapeSlash ePath ∧ dName = eName ∧ tail = tail' := fun tail tail' => by
    rw [append_sep_inj (slash_not_mem_escapeSlash _) (slash_not_mem_escapeSlash _),
      append_sep_inj (slash_not_mem_methodName hd) (slash_not_mem_methodName he)]
  have hsplit : ∀ (path name : Bytes) (keys : List Bytes),
      joinReference ([lit "paths", escapeSlash path, name] ++ keys) =
        lit "#/paths/" ++ (escapeSlash path ++ slash :: (name ++ keys.flatMap (slash :: ·))) :=
    fun path name keys => by
      simp only [joinReference, List.cons_append, List.nil_append, List.flatMap_cons]
      rfl
  simp only [ref, refKeys, Alike, hsplit, List.append_cancel_left_eq]
  cases dKind with
  | body =>
    cases eKind with
    | body =>
      simp only [List.flatMap_cons, List.flatMap_nil, List.append_nil, hkeys]
      exact and_left_comm
    | param _ name =>
      have hne : lit "requestBody/content/application%2Fjson/schema" ≠
          lit "parameters" ++ slash :: name := fun h => absurd (List.cons.inj h).1 (by decide)
      simp [hkeys, hne]
  | param _ name =>
    cases eKind with
    | body =>
      have hne : lit "parameters" ++ slash :: name ≠
          lit "requestBody/content/application%2Fjson/schema" :=
        fun h => absurd (List.cons.inj h).1 (by decide)
      simp [hkeys, hne]
    | param _ name' =>
      simp only [List.flatMap_cons, List.flatMap_nil, List.append_nil, List.cons_append, hkeys,
        List.append_cancel_left_eq, List.cons.injEq, true_and]
      exact and_left_comm

/-- What an operation declares is under its method and its path. -/
theorem declared_by {path methodName : Bytes} {operation : Json} {d : Declaration}
    (h : d ∈ declareOperation path methodName operation) :
    d.Named ∧ d.methodName = methodName ∧ d.part.path = path := by
  obtain ⟨validated, kind, h⟩ : ∃ validated kind, d ∈ declarePart methodName path validated kind := by
    rcases List.mem_append.mp h with h | h
    · exact ⟨_, _, h⟩
    · obtain ⟨_, -, h⟩ := List.mem_flatMap.mp h
      exact ⟨_, _, h⟩
  rw [declarePart] at h
  split at h
  · rename_i hmethod
    obtain rfl := List.mem_singleton.mp h
    exact ⟨hmethod, rfl, rfl⟩
  · simp at h

theorem mem_add {ds : List Declaration} {d e : Declaration} :
    e ∈ add ds d ↔ e ∈ ds ∨ e = d ∧ ¬(d.emplaced = true ∧ d.part ∈ ds.map (·.part)) := by
  unfold add
  split
  · rename_i h
    simp [h]
  · rename_i h
    rw [List.mem_append, List.mem_singleton]
    exact or_congr_right (iff_self_and.mpr fun _ => h)

theorem exists_mem_add {ds : List Declaration} {d : Declaration} {P : Declaration → Prop} :
    (∃ e ∈ add ds d, P e) ↔
      (∃ e ∈ ds, P e) ∨ P d ∧ ¬(d.emplaced = true ∧ d.part ∈ ds.map (·.part)) := by
  simp only [mem_add, or_and_right, exists_or]
  refine or_congr_right ⟨?_, fun h => ⟨d, ⟨rfl, h.2⟩, h.1⟩⟩
  rintro ⟨_, ⟨rfl, hnew⟩, hP⟩
  exact ⟨hP, hnew⟩

theorem mem_parts_add {ds : List Declaration} {d : Declaration} {part : Part} :
    part ∈ (add ds d).map (·.part) ↔ part ∈ ds.map (·.part) ∨ part = d.part := by
  simp only [List.mem_map, exists_mem_add]
  refine ⟨Or.imp_right fun h => h.1.symm, fun h => ?_⟩
  by_cases hthere : d.part ∈ ds.map (·.part)
  · refine Or.inl (h.elim id ?_)
    rintro rfl
    exact List.mem_map.mp hthere
  · exact h.imp_right fun h => ⟨h.symm, fun hmem => hthere (List.mem_map.mpr hmem.2)⟩

end Declaration

/-! ### What each step adds -/

theorem BaseValidator.hasRef_ofKeys {refKeys : List Bytes} {errCode : ValidationError} {ref : Bytes} :
    (BaseValidator.ofKeys refKeys errCode).HasRef ref ↔ ref = joinReference refKeys := by
  simp only [HasRef, ofKeys, List.append_cancel_right_eq, List.append_cancel_left_eq]
  exact eq_comm

theorem text_of_get {v w : Json} {name s : Bytes} (hget : v.get name = .ok w)
    (hs : w.getString = .ok s) : s = textOf (v.member name) := by
  obtain ⟨rfl, -⟩ := (hget ▸ Json.get_asks v name).of_ok
  exact (hs ▸ Json.getString_asks _).of_ok

theorem ParamInfo.name_eq {paramVal : Json} {defaultStyle : Bytes}
    {defaultExplode defaultRequired : Bool} {refKeys : List Bytes} {info : ParamInfo}
    (h : getParamInfo paramVal defaultStyle defaultExplode defaultRequired refKeys = .ok info) :
    info.name = textOf (paramVal.member (lit "name")) := by
  obtain ⟨⟨v, hv, hname⟩, -⟩ := getParamInfo_eq_ok h
  exact text_of_get hv hname

/-- A store with one validator more. -/
theorem carries_more (store : ValidatorsStore σ) {store' : ValidatorsStore σ} (kind : PartKind)
    (refKeys : List Bytes) (errCode : ValidationError)
    (h : ∀ entry, entry ∈ store'.validators ↔
      entry ∈ store.validators ∨ entry = (kind, BaseValidator.ofKeys refKeys errCode))
    (k : PartKind) (ref : Bytes) :
    store'.Carries k ref ↔ store.Carries k ref ∨ k = kind ∧ ref = joinReference refKeys := by
  constructor
  · rintro ⟨v, hv, href⟩
    rcases (h _).mp hv with hv | hv
    · exact Or.inl ⟨v, hv, href⟩
    · obtain ⟨rfl, rfl⟩ := Prod.mk.inj hv
      exact Or.inr ⟨rfl, BaseValidator.hasRef_ofKeys.mp href⟩
  · rintro (⟨v, hv, href⟩ | ⟨rfl, rfl⟩)
    · exact ⟨v, (h _).mpr (Or.inl hv), href⟩
    · exact ⟨_, (h _).mpr (Or.inr rfl), BaseValidator.hasRef_ofKeys.mpr rfl⟩

namespace ValidatorsStore

variable {σ : Type} {rj : RapidJson σ}

theorem not_carries_empty (kind : PartKind) (ref : Bytes) :
    ¬({} : ValidatorsStore σ).Carries kind ref := by
  simp [Carries, validators]

theorem carries_ofBody {schemaVal : Json} {refKeys : List Bytes} {kind : PartKind} {ref : Bytes} :
    (ofBody rj schemaVal refKeys).Carries kind ref ↔ kind = .body ∧ ref = joinReference refKeys := by
  simp [Carries, validators, ofBody, JsonValidator.ofSchema, BaseValidator.hasRef_ofKeys, and_assoc]

/-- One more parameter is carried, but for a header of a name that is there already. -/
theorem addParam_carries {pathParamIdxs : List (Bytes × Nat)} {refKeys : List Bytes}
    {paramVal : Json} {store store' : ValidatorsStore σ}
    (h : store.addParam rj pathParamIdxs refKeys paramVal = .ok store') :
    ∃ in_ name, in_ = textOf (paramVal.member (lit "in")) ∧
      name = textOf (paramVal.member (lit "name")) ∧
      (∀ kind ref, store'.Carries kind ref ↔ store.Carries kind ref ∨
        (kind = .param in_ name ∧ ref = joinReference (refKeys ++ [name])) ∧
          ¬(in_ = lit "header" ∧ name ∈ keys store.headerParamValidators)) ∧
      ∀ n, n ∈ keys store'.headerParamValidators ↔ n ∈ keys store.headerParamValidators ∨
        in_ = lit "header" ∧ n = name := by
  simp only [addParam, bind_eq_ok_iff] at h
  obtain ⟨v, hv, in_, hin, w, hw, name, hname, h⟩ := h
  have htextIn := text_of_get hv hin
  have htextName := text_of_get hw hname
  clear hv hin hw hname
  refine ⟨in_, name, htextIn, htextName, ?_⟩
  split at h
  · rename_i hpath
    subst hpath
    obtain ⟨idx, -, h⟩ := bind_eq_ok_iff.mp h
    obtain ⟨validator, hvalidator, h⟩ := bind_eq_ok_iff.mp h
    obtain ⟨info, hinfo, hvalidator⟩ := bind_eq_ok_iff.mp hvalidator
    obtain rfl := Except.ok.inj hvalidator
    obtain rfl := Except.ok.inj h
    have hinfoName : info.name = name := (ParamInfo.name_eq hinfo).trans htextName.symm
    have hother : lit "path" ≠ lit "header" := by decide
    refine ⟨fun kind ref => ?_, fun n => by simp [hother]⟩
    rw [carries_more store (.param (lit "path") name) (refKeys ++ [name]) .INVALID_PATH_PARAM]
    · simp [hother]
    · intro entry
      simp only [validators, List.map_append, List.map_singleton, List.mem_append,
        List.mem_singleton, ParamValidator.ofInfo, JsonValidator.ofSchema, hinfoName]
      exact Iff.of_eq (by ac_rfl)
  · split at h
    · rename_i hquery
      subst hquery
      obtain ⟨validator, hvalidator, h⟩ := bind_eq_ok_iff.mp h
      obtain ⟨info, hinfo, hvalidator⟩ := bind_eq_ok_iff.mp hvalidator
      obtain ⟨emptyAllowed, -, hvalidator⟩ := bind_eq_ok_iff.mp hvalidator
      obtain rfl := Except.ok.inj hvalidator
      obtain rfl := Except.ok.inj h
      have hother : lit "query" ≠ lit "header" := by decide
      refine ⟨fun kind ref => ?_, fun n => by simp [hother]⟩
      rw [carries_more store (.param (lit "query") name) (refKeys ++ [name]) .INVALID_QUERY_PARAM]
      · simp [hother]
      · intro entry
        simp only [validators, List.map_append, List.map_singleton, List.mem_append,
          List.mem_singleton, ParamValidator.ofInfo, JsonValidator.ofSchema]
        exact Iff.of_eq (by ac_rfl)
    · split at h
      · rename_i hheader
        subst hheader
        obtain ⟨validator, hvalidator, h⟩ := bind_eq_ok_iff.mp h
        obtain ⟨info, hinfo, hvalidator⟩ := bind_eq_ok_iff.mp hvalidator
        obtain rfl := Except.ok.inj hvalidator
        obtain rfl := Except.ok.inj h
        refine ⟨fun kind ref => ?_, fun n => by simp [mem_keys_emplace]⟩
        by_cases hthere : name ∈ keys store.headerParamValidators
        · rw [emplace, if_pos (lookup_isSome_iff.mpr hthere)]
          simp [hthere]
        · rw [emplace, if_neg (mt lookup_isSome_iff.mp hthere)]
          rw [carries_more store (.param (lit "header") name) (refKeys ++ [name])
            .INVALID_HEADER_PARAM]
          · simp [hthere]
          · intro entry
            simp only [validators, List.map_append, List.map_singleton, List.mem_append,
              List.mem_singleton, ParamValidator.ofInfo, JsonValidator.ofSchema]
            exact Iff.of_eq (by ac_rfl)
      · simp [throw, throwThe, MonadExceptOf.throw] at h

end ValidatorsStore

/-! ### The declarations and what a constructed validator holds -/

/-- What is kept under a method and a path carries the references of the declarations for it. -/
structure Mirrors {σ : Type} (ds : List Declaration) (method : HttpMethod) (path : Bytes)
    (held : Option (ValidatorsStore σ)) : Prop where
  opened : held.isSome = true ↔ ⟨method, path, .body⟩ ∈ ds.map (·.part)
  carries : ∀ kind ref, (∃ store, held = some store ∧ store.Carries kind ref) ↔
    ∃ d ∈ ds, d.validated = true ∧ d.part = ⟨method, path, kind⟩ ∧ ref = d.ref
  headers : ∀ name, (∃ store, held = some store ∧ name ∈ keys store.headerParamValidators) ↔
    ⟨method, path, .param (lit "header") name⟩ ∈ ds.map (·.part)

section

variable {σ : Type} {rj : RapidJson σ} {ds : List Declaration} {method : HttpMethod} {path : Bytes}

/-- Declarations for another method or path change nothing. -/
theorem Mirrors.add_other {held : Option (ValidatorsStore σ)} (h : Mirrors ds method path held)
    {d : Declaration} (hd : ¬(d.part.method = method ∧ d.part.path = path)) :
    Mirrors (Declaration.add ds d) method path held := by
  have hne : ∀ kind, ⟨method, path, kind⟩ ≠ d.part := fun kind heq => hd (by simp [← heq])
  refine ⟨?_, fun kind ref => ?_, fun name => ?_⟩
  · rw [h.opened, Declaration.mem_parts_add, or_iff_left (hne _)]
  · rw [h.carries, Declaration.exists_mem_add, or_iff_left]
    exact fun hnew => hne kind hnew.1.2.1.symm
  · rw [h.headers, Declaration.mem_parts_add, or_iff_left (hne _)]

/-- The first operation of a path opens a store. -/
theorem Mirrors.open_store (h : Mirrors (σ := σ) ds method path none) {store : ValidatorsStore σ}
    {d : Declaration} (hpart : d.part = ⟨method, path, .body⟩)
    (hcarries : ∀ kind ref, store.Carries kind ref ↔
      d.validated = true ∧ kind = .body ∧ ref = d.ref)
    (hheaders : store.headerParamValidators = []) :
    Mirrors (Declaration.add ds d) method path (some store) := by
  have hnew : ⟨method, path, .body⟩ ∉ ds.map (·.part) := fun hmem => by
    simpa using h.opened.mpr hmem
  refine ⟨?_, fun kind ref => ?_, fun name => ?_⟩
  · simp [Declaration.mem_parts_add, hpart]
  · rw [Declaration.exists_mem_add, ← h.carries kind ref]
    simpa [hcarries, hpart, hnew] using fun _ _ => eq_comm
  · rw [Declaration.mem_parts_add, ← h.headers name]
    simp [hheaders, hpart]

/-- Another body of a path that is open is left out. -/
theorem Mirrors.keep_store {store : ValidatorsStore σ} (h : Mirrors ds method path (some store))
    {d : Declaration} (hpart : d.part = ⟨method, path, .body⟩) :
    Mirrors (Declaration.add ds d) method path (some store) := by
  have hthere : d.emplaced = true ∧ d.part ∈ ds.map (·.part) := by
    rw [Declaration.emplaced, hpart]
    exact ⟨rfl, h.opened.mp rfl⟩
  rwa [Declaration.add, if_pos hthere]

/-- A parameter is added to a store. -/
theorem Mirrors.add_param {store store' : ValidatorsStore σ} (h : Mirrors ds method path (some store))
    {in_ name : Bytes} {d : Declaration} (hpart : d.part = ⟨method, path, .param in_ name⟩)
    (hvalidated : d.validated = true)
    (hcarries : ∀ kind ref, store'.Carries kind ref ↔ store.Carries kind ref ∨
      (kind = .param in_ name ∧ ref = d.ref) ∧
        ¬(in_ = lit "header" ∧ name ∈ keys store.headerParamValidators))
    (hheaders : ∀ n, n ∈ keys store'.headerParamValidators ↔
      n ∈ keys store.headerParamValidators ∨ in_ = lit "header" ∧ n = name) :
    Mirrors (Declaration.add ds d) method path (some store') := by
  have hkept : d.emplaced = true ∧ d.part ∈ ds.map (·.part) ↔
      in_ = lit "header" ∧ name ∈ keys store.headerParamValidators := by
    simp only [Declaration.emplaced, hpart, decide_eq_true_eq]
    refine and_congr_right ?_
    rintro rfl
    simp [← h.headers name]
  refine ⟨?_, fun kind ref => ?_, fun n => ?_⟩
  · simp [Declaration.mem_parts_add, hpart, ← h.opened]
  · rw [Declaration.exists_mem_add, hkept, ← h.carries kind ref]
    simp [hcarries, hpart, hvalidated, eq_comm (a := kind)]
  · rw [Declaration.mem_parts_add, ← h.headers n]
    simp [hheaders, hpart, eq_comm (a := in_)]

/-! ### Over the whole document -/

/-- All that is kept under the methods carries the references of the declarations. -/
def OASValidatorImp.Mirrors (imp : OASValidatorImp σ) (ds : List Declaration) : Prop :=
  ∀ method path, OasValidator.Mirrors ds method path
    ((imp.oasValidators method).perPathValidators.lookup path)

variable {methodName : Bytes} {operation : Json}

/-- Declarations of another method or path, one after the other. -/
theorem Mirrors.foldl_other {held : Option (ValidatorsStore σ)} {ds' : List Declaration}
    (h : Mirrors ds method path held)
    (hds' : ∀ d ∈ ds', ¬(d.part.method = method ∧ d.part.path = path)) :
    Mirrors (ds'.foldl Declaration.add ds) method path held := by
  induction ds' generalizing ds with
  | nil => exact h
  | cons d rest ih =>
    exact ih (h.add_other (hds' d (by simp))) fun e he => hds' e (by simp [he])

theorem declarePart_of_lookup (hmethod : kStringToMethod.lookup methodName = some method)
    (validated : Bool) (kind : PartKind) :
    declarePart methodName path validated kind = [⟨methodName, ⟨method, path, kind⟩, validated⟩] := by
  rw [declarePart, hmethod]

theorem processRequestBody_mirrors {table table' : List (Bytes × ValidatorsStore σ)}
    (hmethod : kStringToMethod.lookup methodName = some method)
    (htable : Mirrors ds method path (table.lookup path))
    (h : processRequestBody rj path [lit "paths", escapeSlash path, methodName] operation table =
      .ok table') :
    Mirrors ((declarePart methodName path (hasBody operation) .body).foldl Declaration.add ds) method path
        (table'.lookup path) ∧ ∀ p, p ≠ path → table'.lookup p = table.lookup p := by
  obtain ⟨schema, hschema, h⟩ := bind_eq_ok_iff.mp h
  obtain ⟨store, rfl, hcarries, hheaders⟩ : ∃ store : ValidatorsStore σ,
      table' = emplace path store table ∧
        (∀ kind ref, store.Carries kind ref ↔ hasBody operation = true ∧ kind = .body ∧
          ref = (Declaration.mk methodName ⟨method, path, .body⟩ (hasBody operation)).ref) ∧
        store.headerParamValidators = [] := by
    cases schema with
    | none =>
      refine ⟨{}, (Except.ok.inj h).symm, fun kind ref => ?_, rfl⟩
      simp [ValidatorsStore.not_carries_empty, hasBody, hschema]
    | some schema =>
      refine ⟨_, (Except.ok.inj h).symm, fun kind ref => ?_, rfl⟩
      simp [ValidatorsStore.carries_ofBody, hasBody, hschema, Declaration.ref, Declaration.refKeys]
  rw [declarePart_of_lookup hmethod]
  refine ⟨?_, fun p hp => ?_⟩
  · rw [lookup_emplace]
    cases hheld : table.lookup path with
    | none =>
      rw [hheld] at htable
      simpa [lookup_eq_none_iff.mp hheld] using htable.open_store rfl hcarries hheaders
    | some held =>
      rw [hheld] at htable
      simpa [mem_keys_of_lookup hheld] using htable.keep_store rfl
  · rw [lookup_emplace, if_neg (by simp [hp])]

theorem addParams_mirrors {pathParamIdxs : List (Bytes × Nat)} {params : List Json}
    {store store' : ValidatorsStore σ} (hmethod : kStringToMethod.lookup methodName = some method)
    (hstore : Mirrors ds method path (some store))
    (h : store.addParams rj pathParamIdxs
      [lit "paths", escapeSlash path, methodName, lit "parameters"] params = .ok store') :
    Mirrors ((declareParams path methodName params).foldl Declaration.add ds) method path
      (some store') := by
  induction params generalizing store ds with
  | nil =>
    obtain rfl := Except.ok.inj h
    exact hstore
  | cons paramVal rest ih =>
    obtain ⟨next, hnext, h⟩ := bind_eq_ok_iff.mp h
    obtain ⟨in_, name, rfl, rfl, hcarries, hheaders⟩ := ValidatorsStore.addParam_carries hnext
    rw [declareParams, List.flatMap_cons, List.foldl_append, declarePart_of_lookup hmethod]
    exact ih (hstore.add_param rfl rfl hcarries hheaders) h

theorem processParameters_mirrors {table table' : List (Bytes × ValidatorsStore σ)}
    (hmethod : kStringToMethod.lookup methodName = some method)
    (htable : Mirrors ds method path (table.lookup path))
    (h : processParameters rj path [lit "paths", escapeSlash path, methodName] operation table =
      .ok table') :
    Mirrors ((declareParams path methodName
        (itemsOf (operation.member (lit "parameters")))).foldl Declaration.add ds) method path
        (table'.lookup path) ∧ ∀ p, p ≠ path → table'.lookup p = table.lookup p := by
  obtain ⟨has, hhas, h⟩ := bind_eq_ok_iff.mp h
  obtain ⟨rfl, hobject⟩ := (hhas ▸ Json.hasMember_asks operation (lit "parameters")).of_ok
  split at h
  · obtain ⟨store, hstore, h⟩ := bind_eq_ok_iff.mp h
    obtain ⟨params, hparams, h⟩ := bind_eq_ok_iff.mp h
    obtain ⟨store', hadd, h⟩ := bind_eq_ok_iff.mp h
    obtain rfl := Except.ok.inj h
    obtain ⟨items, hitems, hadd⟩ := bind_eq_ok_iff.mp hadd
    obtain ⟨rfl, -⟩ := (hparams ▸ Json.get_asks _ _).of_ok
    obtain rfl := (hitems ▸ Json.getArray_asks _).of_ok
    rw [tableAt_eq_ok hstore] at htable
    refine ⟨?_, fun p hp => by rw [lookup_put, if_neg (by simpa using hp)]⟩
    rw [lookup_put, if_pos (by simp)]
    exact addParams_mirrors hmethod htable hadd
  · rename_i hnone
    obtain rfl := Except.ok.inj h
    have hempty : operation.member (lit "parameters") = .null := by
      rw [Json.member, Option.not_isSome_iff_eq_none.mp hnone]
      rfl
    rw [hempty]
    exact ⟨htable, fun _ _ => rfl⟩

/-- One step: the operation's parts are declared. -/
theorem processMethod_mirrors {imp imp' : OASValidatorImp σ} (himp : imp.Mirrors ds)
    (h : processMethod rj path [lit "paths", escapeSlash path] methodName operation imp = .ok imp') :
    imp'.Mirrors ((declareOperation path (cstr methodName) operation).foldl Declaration.add ds) := by
  obtain ⟨method, hmethod, h⟩ := bind_eq_ok_iff.mp h
  obtain ⟨table, htable, h⟩ := bind_eq_ok_iff.mp h
  obtain ⟨table', htable', h⟩ := bind_eq_ok_iff.mp h
  obtain rfl := Except.ok.inj h
  have hlookup := tableAt_eq_ok hmethod
  obtain ⟨hbody, hbodyOther⟩ := processRequestBody_mirrors hlookup (himp method path) htable
  obtain ⟨hparams, hparamsOther⟩ := processParameters_mirrors hlookup hbody htable'
  intro m p
  by_cases hsame : m = method ∧ p = path
  · obtain ⟨rfl, rfl⟩ := hsame
    simpa only [Function.update_self, declareOperation, List.foldl_append] using hparams
  · have hheld : (Function.update imp.oasValidators method
        ⟨table', if hasPathParams path then PathTrie.insert path (imp.oasValidators method).pathTrie
          else (imp.oasValidators method).pathTrie⟩ m).perPathValidators.lookup p =
        (imp.oasValidators m).perPathValidators.lookup p := by
      by_cases hm : m = method
      · subst hm
        have hp : p ≠ path := fun hp => hsame ⟨rfl, hp⟩
        rw [Function.update_self, hparamsOther p hp, hbodyOther p hp]
      · rw [Function.update_of_ne hm]
    rw [hheld]
    refine (himp m p).foldl_other fun d hd => ?_
    obtain ⟨hnamed, hname, hpath⟩ := Declaration.declared_by hd
    rw [Declaration.Named, hname, hlookup] at hnamed
    rintro ⟨rfl, rfl⟩
    exact hsame ⟨(Option.some.inj hnamed).symm, hpath⟩

theorem processMethods_mirrors {methods : List (Bytes × Json)} {imp imp' : OASValidatorImp σ}
    (himp : imp.Mirrors ds)
    (h : processMethods rj path [lit "paths", escapeSlash path] methods imp = .ok imp') :
    imp'.Mirrors ((declareMethods path methods).foldl Declaration.add ds) := by
  induction methods generalizing imp ds with
  | nil =>
    obtain rfl := Except.ok.inj h
    exact himp
  | cons member rest ih =>
    obtain ⟨next, hnext, h⟩ := bind_eq_ok_iff.mp h
    rw [declareMethods, List.flatMap_cons, List.foldl_append]
    exact ih (processMethod_mirrors himp hnext) h

theorem processPaths_mirrors {paths : List (Bytes × Json)} {imp imp' : OASValidatorImp σ}
    (himp : imp.Mirrors ds) (h : processPaths rj [lit "paths"] paths imp = .ok imp') :
    imp'.Mirrors ((declarePaths paths).foldl Declaration.add ds) := by
  induction paths generalizing imp ds with
  | nil =>
    obtain rfl := Except.ok.inj h
    exact himp
  | cons member rest ih =>
    obtain ⟨next, hnext, h⟩ := bind_eq_ok_iff.mp h
    obtain ⟨methods, hmethods, hnext⟩ := bind_eq_ok_iff.mp hnext
    obtain rfl := (hmethods ▸ Json.getObject_asks _).of_ok
    rw [declarePaths, List.flatMap_cons, List.foldl_append]
    exact ih (processMethods_mirrors himp hnext) h

theorem processDocument_mirrors {order : Hashing} {methodMap : MethodMap} {doc : Json}
    {imp : OASValidatorImp σ} (h : processDocument rj order methodMap doc = .ok imp) :
    imp.Mirrors (declarations doc) := by
  obtain ⟨paths, hpaths, h⟩ := bind_eq_ok_iff.mp h
  obtain ⟨members, hmembers, h⟩ := bind_eq_ok_iff.mp h
  obtain ⟨rfl, -⟩ := (hpaths ▸ Json.get_asks _ _).of_ok
  obtain rfl := (hmembers ▸ Json.getObject_asks _).of_ok
  refine processPaths_mirrors (fun method path => ?_) h
  constructor <;> simp

/-- The declarations of a document are each under the method of its name. -/
theorem named_of_mem_declarations {doc : Json} {d : Declaration} (h : d ∈ declarations doc) :
    d.Named := by
  have hfold : ∀ ds' ds : List Declaration, (∀ e ∈ ds, e.Named) → (∀ e ∈ ds', e.Named) →
      ∀ e ∈ ds'.foldl Declaration.add ds, e.Named := by
    intro ds'
    induction ds' with
    | nil => exact fun ds hds _ => hds
    | cons d rest ih =>
      intro ds hds hds'
      refine ih _ (fun e he => ?_) fun e he => hds' e (by simp [he])
      rcases Declaration.mem_add.mp he with he | ⟨rfl, -⟩
      · exact hds e he
      · exact hds' e (by simp)
  refine hfold _ [] (by simp) (fun e he => ?_) d h
  obtain ⟨member, -, he⟩ := List.mem_flatMap.mp he
  obtain ⟨method, -, he⟩ := List.mem_flatMap.mp he
  exact (Declaration.declared_by he).1

/-! ### The reference determines the part -/

/-- What a constructed validator carries are the references of the declarations. -/
theorem Constructs.carries_iff {order : Hashing} {files : Bytes → Option Bytes} {oasSpecs : Bytes}
    {methodMap : MethodMap} {doc : Json} {imp : OASValidatorImp σ}
    (h : Constructs rj order files oasSpecs methodMap doc imp) (part : Part) (ref : Bytes) :
    imp.Carries part ref ↔
      ∃ d ∈ declarations doc, d.validated = true ∧ d.part = part ∧ ref = d.ref := by
  obtain ⟨_, -, hprocess⟩ := h
  exact (processDocument_mirrors hprocess part.method part.path).carries part.kind ref

/-- For a specification that is constructed, the reference in an error text determines the part of the
specification if and only if no two parts are alike: of paths that are equal once every slash is
escaped, under methods written alike, and both bodies or parameters of one name. -/
theorem specRef_identifies_iff {order : Hashing} {files : Bytes → Option Bytes} {oasSpecs : Bytes}
    {methodMap : MethodMap} {doc : Json} {imp : OASValidatorImp σ}
    (h : Constructs rj order files oasSpecs methodMap doc imp) :
    (∀ part part' ref, imp.Carries part ref → imp.Carries part' ref → part = part') ↔
      ∀ d ∈ declarations doc, ∀ e ∈ declarations doc, d.validated = true → e.validated = true →
        d.Alike e → d.part = e.part := by
  simp only [h.carries_iff]
  constructor
  · intro hunique d hd e he hvd hve halike
    have href := (Declaration.ref_eq_iff (named_of_mem_declarations hd)
      (named_of_mem_declarations he)).mpr halike
    exact hunique _ _ d.ref ⟨d, hd, hvd, rfl, rfl⟩ ⟨e, he, hve, rfl, href⟩
  · rintro hnone _ _ _ ⟨d, hd, hvd, rfl, rfl⟩ ⟨e, he, hve, rfl, href⟩
    exact hnone d hd e he hvd hve ((Declaration.ref_eq_iff (named_of_mem_declarations hd)
      (named_of_mem_declarations he)).mp href)

end

/-- A body for `PUT` at a path, and at the path `/a/b`. -/
def bodiesSpec (path : Bytes) : Bytes :=
  lit "\x7b\"paths\":\x7b\"/a/b\":\x7b\"put\":\x7b\"requestBody\":\x7b\"content\":" ++
    lit "\x7b\"application/json\":\x7b\"schema\":\x7b\x7d\x7d\x7d\x7d\x7d\x7d,\"" ++ path ++
    lit "\":\x7b\"put\":\x7b\"requestBody\":\x7b\"content\":" ++
    lit "\x7b\"application/json\":\x7b\"schema\":\x7b\x7d\x7d\x7d\x7d\x7d\x7d\x7d\x7d"

theorem specRef_identifies_bodies : ∃ (doc : Json) (imp : OASValidatorImp Json),
    Constructs RapidJson.plain .insertion (fun _ => none) (bodiesSpec (lit "/a/c")) [] doc imp ∧
      ((∀ part part' ref, imp.Carries part ref → imp.Carries part' ref → part = part') ↔
        ∀ d ∈ declarations doc, ∀ e ∈ declarations doc, d.validated = true → e.validated = true →
          d.Alike e → d.part = e.part) := by
  have hrun : trial (bodiesSpec (lit "/a/c")) (fun _ _ => ()) = some (.ok ()) := by
    decide +kernel
  obtain ⟨doc, imp, hdoc, -⟩ := trial_spec hrun
  exact ⟨doc, imp, hdoc, specRef_identifies_iff hdoc⟩

/-- The bodies at the paths `/a/b` and `/a%2Fb` have one reference. -/
theorem escaped_path_shares_ref : ¬∀ (rj : RapidJson Json) (order : Hashing)
    (files : Bytes → Option Bytes) (oasSpecs : Bytes) (methodMap : MethodMap) (doc : Json)
    (imp : OASValidatorImp Json), Constructs rj order files oasSpecs methodMap doc imp →
      ∀ part part' ref, imp.Carries part ref → imp.Carries part' ref → part = part' := by
  intro h
  have hrun : trial (bodiesSpec (lit "/a%2Fb")) (fun doc _ => declarations doc) =
      some (.ok [⟨lit "put", ⟨.PUT, lit "/a/b", .body⟩, true⟩,
        ⟨lit "put", ⟨.PUT, lit "/a%2Fb", .body⟩, true⟩]) := by
    decide +kernel
  obtain ⟨doc, imp, hdoc, hdeclarations⟩ := trial_spec hrun
  have hcarries : ∀ d ∈ declarations doc, d.validated = true → imp.Carries d.part d.ref :=
    fun d hd hvalidated => (hdoc.carries_iff _ _).mpr ⟨d, hd, hvalidated, rfl, rfl⟩
  rw [hdeclarations] at hcarries
  have hfirst := hcarries _ List.mem_cons_self rfl
  have hsecond := hcarries _ (List.mem_cons_of_mem _ List.mem_cons_self) rfl
  have href : Declaration.ref ⟨lit "put", ⟨.PUT, lit "/a%2Fb", .body⟩, true⟩ =
      Declaration.ref ⟨lit "put", ⟨.PUT, lit "/a/b", .body⟩, true⟩ := by decide
  exact absurd (h _ _ _ _ _ doc imp hdoc _ _ _ hfirst (href ▸ hsecond)) (by decide)

end OasValidator
