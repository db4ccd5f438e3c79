import OasValidator.Imp.Construct

/-! What a constructed validator holds.  For each method its table has just the paths that the
document declares for the method, its trie holds the fragments of those with parameters in the order
of the document, and the indices kept for path parameters are those of `GetPathParamIndices`. -/

namespace OasValidator

open Library.Cut Library.Table

def membersOf : Json → List (Bytes × Json)
  | .object members => members
  | _ => []

/-- The path once for each of its members that names the method. -/
def declaredUnder (method : HttpMethod) (path : Bytes) (methods : List (Bytes × Json)) : List Bytes :=
  methods.filterMap fun member =>
    if kStringToMethod.lookup (cstr member.1) = some method then some path else none

def declaredIn (method : HttpMethod) (paths : List (Bytes × Json)) : List Bytes :=
  paths.flatMap fun member => declaredUnder method (cstr member.1) (membersOf member.2)

/-- The paths that a document declares for a method, in the order in which they are processed. -/
def declared (doc : Json) (method : HttpMethod) : List Bytes :=
  match doc.get (lit "paths") with
  | .ok paths => declaredIn method (membersOf paths)
  | .error _ => []

/-- The fragments of the paths that are put into a trie. -/
def templates (paths : List Bytes) : List (List Bytes) :=
  (paths.filter hasPathParams).map (cut slash)

theorem templates_append (ps qs : List Bytes) :
    templates (ps ++ qs) = templates ps ++ templates qs := by
  simp [templates]

/-- The path parameters of a store have the indices of its path. -/
def IndexedBy {σ : Type} (path : Bytes) (store : ValidatorsStore σ) : Prop :=
  ∀ info ∈ store.pathParamValidators, ∃ name, (getPathParamIndices path).lookup name = some info.idx

/-- Under each method the paths of a list are registered, in this order. -/
structure Registered {σ : Type} (imp : OASValidatorImp σ) (paths : HttpMethod → List Bytes) :
    Prop where
  keys_iff : ∀ method path,
    path ∈ keys (imp.oasValidators method).perPathValidators ↔ path ∈ paths method
  trie_eq : ∀ method,
    (imp.oasValidators method).pathTrie = PathTrie.holding 0 (templates (paths method))
  indexed : ∀ method path store,
    (imp.oasValidators method).perPathValidators.lookup path = some store → IndexedBy path store

section

variable {σ : Type} {rj : RapidJson σ}

theorem addParam_indexed {path : Bytes} {refKeys : List Bytes} {paramVal : Json}
    {store store' : ValidatorsStore σ} (hstore : IndexedBy path store)
    (h : store.addParam rj (getPathParamIndices path) refKeys paramVal = .ok store') :
    IndexedBy path store' := by
  obtain ⟨v, name, -, -, hadded⟩ := ValidatorsStore.addParam_added h
  cases hadded with
  | path index built =>
    intro info hinfo
    rcases List.mem_append.mp hinfo with hinfo | hinfo
    · exact hstore info hinfo
    · obtain rfl := List.mem_singleton.mp hinfo
      exact ⟨name, index⟩
  | query built => exact hstore
  | header built => exact hstore

/-! ### What all stores have in common -/

/-- A property of a path and its store that holds of new stores and that `AddParamValidators` keeps. -/
structure Kept (rj : RapidJson σ) (P : Bytes → ValidatorsStore σ → Prop) : Prop where
  empty : ∀ path, P path {}
  body : ∀ path schemaVal refKeys, P path (ValidatorsStore.ofBody rj schemaVal refKeys)
  add : ∀ {path refKeys paramVal store store'}, P path store →
    ValidatorsStore.addParam rj (getPathParamIndices path) refKeys paramVal store = .ok store' →
      P path store'

/-- The property holds of all stores of a table. -/
def TableHas (P : Bytes → ValidatorsStore σ → Prop) (table : List (Bytes × ValidatorsStore σ)) :
    Prop :=
  ∀ path store, table.lookup path = some store → P path store

/-- The property holds of all stores of all methods. -/
def OASValidatorImp.Has (P : Bytes → ValidatorsStore σ → Prop) (imp : OASValidatorImp σ) : Prop :=
  ∀ method, TableHas P (imp.oasValidators method).perPathValidators

section

variable {P : Bytes → ValidatorsStore σ → Prop} (hP : Kept rj P)

include hP

theorem Kept.addParams {path : Bytes} {refKeys : List Bytes} {params : List Json}
    {store store' : ValidatorsStore σ} (hstore : P path store)
    (h : ValidatorsStore.addParams rj (getPathParamIndices path) refKeys params store = .ok store') :
    P path store' := by
  induction params generalizing store with
  | nil =>
    obtain rfl := Except.ok.inj h
    exact hstore
  | cons paramVal rest ih =>
    obtain ⟨next, hnext, h⟩ := bind_eq_ok_iff.mp h
    exact ih (hP.add hstore hnext) h

theorem Kept.processRequestBody {path : Bytes} {refKeys : List Bytes} {operation : Json}
    {table table' : List (Bytes × ValidatorsStore σ)} (htable : TableHas P table)
    (h : OasValidator.processRequestBody rj path refKeys operation table = .ok table') :
    TableHas P table' := by
  obtain ⟨store, hstore, rfl⟩ : ∃ store : ValidatorsStore σ,
      P path store ∧ table' = emplace path store table := by
    obtain ⟨schema, -, h⟩ := bind_eq_ok_iff.mp h
    cases schema with
    | none => exact ⟨_, hP.empty path, (Except.ok.inj h).symm⟩
    | some schema => exact ⟨_, hP.body path _ _, (Except.ok.inj h).symm⟩
  intro p s hs
  rw [lookup_emplace] at hs
  split at hs
  · rename_i hp
    obtain rfl := eq_of_beq (Bool.and_eq_true_iff.mp hp).1
    obtain rfl := Option.some.inj hs
    exact hstore
  · exact htable p s hs

theorem Kept.processParameters {path : Bytes} {refKeys : List Bytes} {operation : Json}
    {table table' : List (Bytes × ValidatorsStore σ)} (htable : TableHas P table)
    (h : OasValidator.processParameters rj path refKeys operation table = .ok table') :
    TableHas P table' := by
  obtain ⟨has, -, h⟩ := bind_eq_ok_iff.mp h
  split at h
  · obtain ⟨store, hstore, h⟩ := bind_eq_ok_iff.mp h
    obtain ⟨params, -, h⟩ := bind_eq_ok_iff.mp h
    obtain ⟨store', hadd, h⟩ := bind_eq_ok_iff.mp h
    obtain rfl := Except.ok.inj h
    obtain ⟨items, -, hitems⟩ := bind_eq_ok_iff.mp hadd
    intro p s hs
    rw [lookup_put] at hs
    split at hs
    · rename_i hp
      obtain rfl := eq_of_beq hp
      obtain rfl := Option.some.inj hs
      exact hP.addParams (htable p store (tableAt_eq_ok hstore)) hitems
    · exact htable p s hs
  · obtain rfl := Except.ok.inj h
    exact htable

theorem Kept.processMethod {path : Bytes} {refKeys : List Bytes} {methodName : Bytes}
    {operation : Json} {imp imp' : OASValidatorImp σ} (himp : imp.Has P)
    (h : OasValidator.processMethod rj path refKeys methodName operation imp = .ok imp') :
    imp'.Has P := by
  obtain ⟨method, -, h⟩ := bind_eq_ok_iff.mp h
  obtain ⟨table, htable, h⟩ := bind_eq_ok_iff.mp h
  obtain ⟨table', htable', h⟩ := bind_eq_ok_iff.mp h
  obtain rfl := Except.ok.inj h
  have hall : TableHas P table' :=
    hP.processParameters (hP.processRequestBody (himp method) htable) htable'
  intro m
  by_cases hm : m = method
  · subst hm
    simpa only [Function.update_self] using hall
  · simpa only [Function.update_of_ne hm] using himp m

theorem Kept.processMethods {path : Bytes} {refKeys : List Bytes} {methods : List (Bytes × Json)}
    {imp imp' : OASValidatorImp σ} (himp : imp.Has P)
    (h : OasValidator.processMethods rj path refKeys methods imp = .ok imp') : imp'.Has P := by
  induction methods generalizing imp with
  | nil =>
    obtain rfl := Except.ok.inj h
    exact himp
  | cons member rest ih =>
    obtain ⟨next, hnext, h⟩ := bind_eq_ok_iff.mp h
    exact ih (hP.processMethod himp hnext) h

theorem Kept.processPaths {refKeys : List Bytes} {members : List (Bytes × Json)}
    {imp imp' : OASValidatorImp σ} (himp : imp.Has P)
    (h : OasValidator.processPaths rj refKeys members imp = .ok imp') : imp'.Has P := by
  induction members generalizing imp with
  | nil =>
    obtain rfl := Except.ok.inj h
    exact himp
  | cons member rest ih =>
    obtain ⟨next, hnext, h⟩ := bind_eq_ok_iff.mp h
    obtain ⟨methods, -, hnext⟩ := bind_eq_ok_iff.mp hnext
    exact ih (hP.processMethods himp hnext) h

theorem Kept.processDocument {order : Hashing} {methodMap : MethodMap} {doc : Json}
    {imp : OASValidatorImp σ} (h : OasValidator.processDocument rj order methodMap doc = .ok imp) :
    imp.Has P := by
  obtain ⟨paths, -, h⟩ := bind_eq_ok_iff.mp h
  obtain ⟨members, -, h⟩ := bind_eq_ok_iff.mp h
  refine hP.processPaths ?_ h
  intro m path store hs
  simp at hs

end

theorem indexedBy_kept : Kept rj IndexedBy where
  empty _ := by simp [IndexedBy]
  body _ _ _ := by simp [IndexedBy, ValidatorsStore.ofBody]
  add := addParam_indexed

/-! ### The paths of each method -/

theorem keys_processRequestBody {path : Bytes} {refKeys : List Bytes} {operation : Json}
    {table table' : List (Bytes × ValidatorsStore σ)}
    (h : processRequestBody rj path refKeys operation table = .ok table') (p : Bytes) :
    p ∈ keys table' ↔ p ∈ keys table ∨ p = path := by
  obtain ⟨schema, -, h⟩ := bind_eq_ok_iff.mp h
  cases schema with
  | none =>
    obtain rfl := Except.ok.inj h
    exact mem_keys_emplace
  | some schema =>
    obtain rfl := Except.ok.inj h
    exact mem_keys_emplace

theorem keys_processParameters {path : Bytes} {refKeys : List Bytes} {operation : Json}
    {table table' : List (Bytes × ValidatorsStore σ)}
    (h : processParameters rj path refKeys operation table = .ok table') :
    keys table' = keys table := by
  obtain ⟨has, -, h⟩ := bind_eq_ok_iff.mp h
  split at h
  · obtain ⟨store, hstore, h⟩ := bind_eq_ok_iff.mp h
    obtain ⟨params, -, h⟩ := bind_eq_ok_iff.mp h
    obtain ⟨store', -, h⟩ := bind_eq_ok_iff.mp h
    obtain rfl := Except.ok.inj h
    rw [keys_put, if_pos (mem_keys_of_lookup (tableAt_eq_ok hstore))]
  · obtain rfl := Except.ok.inj h
    rfl

/-- One step: the path is registered under the method that the member names. -/
theorem processMethod_registered {path : Bytes} {refKeys : List Bytes} {methodName : Bytes}
    {operation : Json} {imp imp' : OASValidatorImp σ} {paths : HttpMethod → List Bytes}
    (himp : Registered imp paths)
    (h : processMethod rj path refKeys methodName operation imp = .ok imp') :
    Registered imp' (fun m => paths m ++ declaredUnder m path [(methodName, operation)]) ∧
      imp'.methodMap = imp.methodMap ∧ imp'.methodValidator = imp.methodValidator := by
  have hindexed := indexedBy_kept.processMethod himp.indexed h
  obtain ⟨method, hmethod, h⟩ := bind_eq_ok_iff.mp h
  obtain ⟨table, htable, h⟩ := bind_eq_ok_iff.mp h
  obtain ⟨table', htable', h⟩ := bind_eq_ok_iff.mp h
  obtain rfl := Except.ok.inj h
  have hlookup := tableAt_eq_ok hmethod
  have hkeys := keys_processRequestBody htable
  have hkeys' := keys_processParameters htable'
  have hsame : declaredUnder method path [(methodName, operation)] = [path] := by
    simp [declaredUnder, hlookup]
  have hother : ∀ m, m ≠ method → declaredUnder m path [(methodName, operation)] = [] := by
    intro m hm
    simp [declaredUnder, hlookup, Ne.symm hm]
  refine ⟨⟨fun m p => ?_, fun m => ?_, hindexed⟩, rfl, rfl⟩ <;> dsimp only
  · by_cases hm : m = method
    · subst hm
      rw [Function.update_self, hsame, hkeys', hkeys, himp.keys_iff, List.mem_append,
        List.mem_singleton]
    · rw [Function.update_of_ne hm, hother m hm, List.append_nil, himp.keys_iff]
  · by_cases hm : m = method
    · subst hm
      rw [Function.update_self, hsame, templates_append, himp.trie_eq]
      simp only [templates, List.filter_cons, List.filter_nil]
      split
      · rw [List.map_singleton, PathTrie.holding_snoc]
        rfl
      · simp
    · rw [Function.update_of_ne hm, hother m hm, List.append_nil, himp.trie_eq]

theorem processMethods_registered {path : Bytes} {refKeys : List Bytes}
    {methods : List (Bytes × Json)} {imp imp' : OASValidatorImp σ}
    {paths : HttpMethod → List Bytes} (himp : Registered imp paths)
    (h : processMethods rj path refKeys methods imp = .ok imp') :
    Registered imp' (fun m => paths m ++ declaredUnder m path methods) ∧
      imp'.methodMap = imp.methodMap ∧ imp'.methodValidator = imp.methodValidator := by
  induction methods generalizing imp paths with
  | nil =>
    obtain rfl := Except.ok.inj h
    simpa [declaredUnder] using himp
  | cons member rest ih =>
    obtain ⟨next, hnext, h⟩ := bind_eq_ok_iff.mp h
    obtain ⟨hreg, hmap, hvalidator⟩ := processMethod_registered himp hnext
    obtain ⟨hreg', hmap', hvalidator'⟩ := ih hreg h
    refine ⟨?_, hmap'.trans hmap, hvalidator'.trans hvalidator⟩
    have happend : ∀ m, declaredUnder m path [member] ++ declaredUnder m path rest =
        declaredUnder m path (member :: rest) := fun m => by
      simp [declaredUnder, ← List.filterMap_append]
    simpa only [List.append_assoc, happend] using hreg'

theorem processPaths_registered {refKeys : List Bytes} {members : List (Bytes × Json)}
    {imp imp' : OASValidatorImp σ} {paths : HttpMethod → List Bytes} (himp : Registered imp paths)
    (h : processPaths rj refKeys members imp = .ok imp') :
    Registered imp' (fun m => paths m ++ declaredIn m members) ∧
      imp'.methodMap = imp.methodMap ∧ imp'.methodValidator = imp.methodValidator := by
  induction members generalizing imp paths with
  | nil =>
    obtain rfl := Except.ok.inj h
    simpa [declaredIn] using himp
  | cons member rest ih =>
    obtain ⟨next, hnext, h⟩ := bind_eq_ok_iff.mp h
    obtain ⟨methods, hmethods, hnext⟩ := bind_eq_ok_iff.mp hnext
    have hmembers : methods = membersOf member.2 := by
      cases hv : member.2 with
      | object ms => simpa [hv, Json.getObject, membersOf] using hmethods.symm
      | _ => simp [hv, Json.getObject] at hmethods
    obtain ⟨hreg, hmap, hvalidator⟩ := processMethods_registered himp hnext
    obtain ⟨hreg', hmap', hvalidator'⟩ := ih hreg h
    refine ⟨?_, hmap'.trans hmap, hvalidator'.trans hvalidator⟩
    simpa only [declaredIn, List.flatMap_cons, List.append_assoc, hmembers] using hreg'

/-- The whole document: every path is registered under every method it is declared for. -/
theorem processDocument_registered {order : Hashing} {methodMap : MethodMap} {doc : Json}
    {imp : OASValidatorImp σ} (h : processDocument rj order methodMap doc = .ok imp) :
    Registered imp (declared doc) ∧ imp.methodMap = buildCaseInsensitiveMap order methodMap ∧
      imp.methodValidator = BaseValidator.plain .INVALID_METHOD := by
  obtain ⟨paths, hpaths, h⟩ := bind_eq_ok_iff.mp h
  obtain ⟨members, hmembers, h⟩ := bind_eq_ok_iff.mp h
  have hmembers : members = membersOf paths := by
    cases hv : paths with
    | object ms => simpa [hv, Json.getObject, membersOf] using hmembers.symm
    | _ => simp [hv, Json.getObject] at hmembers
  have hempty : Registered (σ := σ) { methodMap := buildCaseInsensitiveMap order methodMap }
      (fun _ => []) :=
    ⟨fun _ _ => by simp, fun _ => rfl, fun _ _ _ hs => by simp at hs⟩
  obtain ⟨hreg, hmap, hvalidator⟩ := processPaths_registered hempty h
  have hdeclared : declared doc = fun m => [] ++ declaredIn m members := by
    funext m
    simp [declared, hpaths, hmembers]
  exact ⟨hdeclared ▸ hreg, hmap, hvalidator⟩

end

/-- The constructor builds `imp` from a text, of which `doc` is the document with its references
resolved. -/
def Constructs {σ : Type} (rj : RapidJson σ) (order : Hashing) (files : Bytes → Option Bytes)
    (oasSpecs : Bytes) (methodMap : MethodMap) (doc : Json) (imp : OASValidatorImp σ) : Prop :=
  ∃ fuel, resolvedSpecs rj files fuel oasSpecs = some (.ok doc) ∧
    processDocument rj order methodMap doc = .ok imp

theorem constructs_iff {σ : Type} {rj : RapidJson σ} {order : Hashing}
    {files : Bytes → Option Bytes} {oasSpecs : Bytes} {methodMap : MethodMap}
    {imp : OASValidatorImp σ} :
    (∃ doc, Constructs rj order files oasSpecs methodMap doc imp) ↔
      ∃ fuel, construct rj order files fuel oasSpecs methodMap = some (.ok imp) := by
  constructor
  · rintro ⟨doc, fuel, hresolved, hprocess⟩
    exact ⟨fuel, by simpa [construct, hresolved, bind, Except.bind] using hprocess⟩
  · rintro ⟨fuel, h⟩
    obtain ⟨r, hresolved, hr⟩ := Option.map_eq_some_iff.mp h
    obtain ⟨doc, rfl, hprocess⟩ := bind_eq_ok_iff.mp hr
    exact ⟨doc, fuel, hresolved, hprocess⟩

theorem Constructs.registered {σ : Type} {rj : RapidJson σ} {order : Hashing}
    {files : Bytes → Option Bytes} {oasSpecs : Bytes} {methodMap : MethodMap} {doc : Json}
    {imp : OASValidatorImp σ} (h : Constructs rj order files oasSpecs methodMap doc imp) :
    Registered imp (declared doc) ∧ imp.methodMap = buildCaseInsensitiveMap order methodMap ∧
      imp.methodValidator = BaseValidator.plain .INVALID_METHOD := by
  obtain ⟨_, -, hprocess⟩ := h
  exact processDocument_registered hprocess

/-- A question asked about what the constructor makes of a text, with `RapidJson.plain`, hash tables
in the order of insertion, and no mapped methods. -/
def trial {α : Type} (oasSpecs : Bytes) (ask : Json → OASValidatorImp Json → α) :
    Option (Except InitError α) :=
  (resolvedSpecs RapidJson.plain (fun _ => none) 60 oasSpecs).map fun r =>
    r >>= fun doc => (processDocument RapidJson.plain .insertion [] doc).map (ask doc)

theorem trial_spec {α : Type} {oasSpecs : Bytes} {ask : Json → OASValidatorImp Json → α}
    {answer : α} (h : trial oasSpecs ask = some (.ok answer)) :
    ∃ doc imp, Constructs RapidJson.plain .insertion (fun _ => none) oasSpecs [] doc imp ∧
      ask doc imp = answer := by
  obtain ⟨r, hr, heq⟩ := Option.map_eq_some_iff.mp h
  obtain ⟨doc, rfl, hprocess⟩ := bind_eq_ok_iff.mp heq
  obtain ⟨imp, himp, hask⟩ := map_eq_ok_iff.mp hprocess
  exact ⟨doc, imp, ⟨60, hr, himp⟩, hask⟩

end OasValidator
