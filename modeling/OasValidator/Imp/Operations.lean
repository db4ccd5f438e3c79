import OasValidator.Imp.Calls
import OasValidator.Imp.Demands
import OasValidator.Imp.Interference

/-! The validators of an operation, built from its own declarations.  The constructor goes through all
paths and methods and fills the tables of all methods on the way; what it leaves under a method and a
path is what the declarations of this method and path alone make, one after the other. -/

namespace OasValidator

open Library.Table

/-! ### The declarations of an operation -/

/-- The members that declare the method, with the names that they use for it. -/
def operationsUnder (method : HttpMethod) (methods : List (Bytes × Json)) : List (Bytes × Json) :=
  methods.filter fun member => kStringToMethod.lookup (cstr member.1) = some method

def operationsIn (method : HttpMethod) (path : Bytes) (paths : List (Bytes × Json)) :
    List (Bytes × Json) :=
  paths.flatMap fun member =>
    if cstr member.1 = path then operationsUnder method (membersOf member.2) else []

/-- All that a document declares for a method and a path, in the order of the document.  A path may
come twice, and a method in upper and in lower case. -/
def operations (doc : Json) (method : HttpMethod) (path : Bytes) : List (Bytes × Json) :=
  operationsIn method path (membersOf (doc.member (lit "paths")))

section

variable {σ : Type} (rj : RapidJson σ)

/-- The keys of the place in the document that the references of an operation name. -/
def operationKeys (path methodName : Bytes) : List Bytes :=
  [lit "paths", escapeSlash path, cstr methodName]

/-- The store that the first declaration of an operation opens. -/
def openStore (path : Bytes) (declaration : Bytes × Json) : Except InitError (ValidatorsStore σ) := do
  match ← bodySchema declaration.2 with
  | some schema =>
    pure (ValidatorsStore.ofBody rj schema (operationKeys path declaration.1 ++
      [lit "requestBody/content/application%2Fjson/schema"]))
  | none => pure {}

/-- One more declaration of an operation.  The first one has set the body for all. -/
def addOperation (path : Bytes) (held : Option (ValidatorsStore σ)) (declaration : Bytes × Json) :
    Except InitError (Option (ValidatorsStore σ)) := do
  let opened ← openStore rj path declaration
  let store := held.getD opened
  if ← declaration.2.hasMember (lit "parameters") then
    let params ← declaration.2.get (lit "parameters")
    let store ← store.addParamValidators rj path params
      (operationKeys path declaration.1 ++ [lit "parameters"])
    pure (some store)
  else pure (some store)

/-- The store of an operation, if it is declared at all. -/
def storeOf (path : Bytes) (declarations : List (Bytes × Json)) :
    Except InitError (Option (ValidatorsStore σ)) :=
  declarations.foldlM (addOperation rj path) none

end

/-! ### The tables -/

section

variable {σ : Type} {rj : RapidJson σ} {path : Bytes} {methodName : Bytes} {operation : Json}

theorem lookup_processRequestBody {table table' : List (Bytes × ValidatorsStore σ)}
    (h : processRequestBody rj path (operationKeys path methodName) operation table = .ok table') :
    ∃ opened, openStore rj path (methodName, operation) = .ok opened ∧
      table'.lookup path = some ((table.lookup path).getD opened) ∧
      ∀ p, p ≠ path → table'.lookup p = table.lookup p := by
  obtain ⟨schema, hschema, h⟩ := bind_eq_ok_iff.mp h
  have hemplaced : ∀ opened : ValidatorsStore σ, table' = emplace path opened table →
      table'.lookup path = some ((table.lookup path).getD opened) ∧
        ∀ p, p ≠ path → table'.lookup p = table.lookup p := by
    rintro opened rfl
    refine ⟨?_, fun p hp => by rw [lookup_emplace, if_neg (by simp [hp])]⟩
    rw [lookup_emplace]
    cases hheld : table.lookup path with
    | none => simp [lookup_eq_none_iff.mp hheld]
    | some held => simp [mem_keys_of_lookup hheld]
  cases schema with
  | none =>
    refine ⟨{}, ?_, hemplaced _ (Except.ok.inj h).symm⟩
    simp [openStore, hschema, bind, Except.bind, pure, Except.pure]
  | some schema =>
    refine ⟨_, ?_, hemplaced _ (Except.ok.inj h).symm⟩
    simp [openStore, hschema, bind, Except.bind, pure, Except.pure]

/-- What one declaration leaves under its path is what it adds to what was there. -/
theorem lookup_processMethod {table table₁ table₂ : List (Bytes × ValidatorsStore σ)}
    (hbody : processRequestBody rj path (operationKeys path methodName) operation table = .ok table₁)
    (hparams : processParameters rj path (operationKeys path methodName) operation table₁ = .ok table₂) :
    addOperation rj path (table.lookup path) (methodName, operation) = .ok (table₂.lookup path) ∧
      ∀ p, p ≠ path → table₂.lookup p = table.lookup p := by
  obtain ⟨opened, hopened, hpath, hother⟩ := lookup_processRequestBody hbody
  obtain ⟨has, hhas, h⟩ := bind_eq_ok_iff.mp hparams
  cases has with
  | false =>
    obtain rfl := Except.ok.inj h
    refine ⟨?_, hother⟩
    simp [addOperation, hopened, hhas, hpath, bind, Except.bind, pure, Except.pure]
  | true =>
    obtain ⟨store, hstore, h⟩ := bind_eq_ok_iff.mp h
    obtain ⟨params, hget, h⟩ := bind_eq_ok_iff.mp h
    obtain ⟨store', hadd, h⟩ := bind_eq_ok_iff.mp h
    obtain rfl := Except.ok.inj h
    have hheld := tableAt_eq_ok hstore
    rw [hpath] at hheld
    obtain rfl := Option.some.inj hheld
    refine ⟨?_, fun p hp => by rw [lookup_put, if_neg (by simpa using hp), hother p hp]⟩
    simp [addOperation, hopened, hhas, hget, hadd, lookup_put, bind, Except.bind, pure, Except.pure]

/-- The tables hold under each method and path what its declarations make. -/
def OASValidatorImp.BuiltFrom (rj : RapidJson σ) (imp : OASValidatorImp σ)
    (declared : HttpMethod → Bytes → List (Bytes × Json)) : Prop :=
  ∀ method path, storeOf rj path (declared method path) =
    .ok ((imp.oasValidators method).perPathValidators.lookup path)

theorem storeOf_concat (declarations : List (Bytes × Json)) (declaration : Bytes × Json) :
    storeOf rj path (declarations ++ [declaration]) =
      storeOf rj path declarations >>= fun held => addOperation rj path held declaration := by
  simp [storeOf, List.foldlM_append, bind_pure]

variable {declared : HttpMethod → Bytes → List (Bytes × Json)}

theorem processMethod_builtFrom {imp imp' : OASValidatorImp σ} (himp : imp.BuiltFrom rj declared)
    (h : processMethod rj path [lit "paths", escapeSlash path] methodName operation imp = .ok imp') :
    imp'.BuiltFrom rj fun m p =>
      declared m p ++ if path = p then operationsUnder m [(methodName, operation)] else [] := by
  obtain ⟨method, hmethod, h⟩ := bind_eq_ok_iff.mp h
  obtain ⟨table, htable, h⟩ := bind_eq_ok_iff.mp h
  obtain ⟨table', htable', h⟩ := bind_eq_ok_iff.mp h
  obtain rfl := Except.ok.inj h
  have hlookup := tableAt_eq_ok hmethod
  obtain ⟨hadd, hother⟩ := lookup_processMethod htable htable'
  intro m p
  by_cases hm : m = method
  · subst hm
    simp only [Function.update_self]
    by_cases hp : path = p
    · subst hp
      have hdeclared : operationsUnder m [(methodName, operation)] = [(methodName, operation)] := by
        simp [operationsUnder, hlookup]
      rw [if_pos rfl, hdeclared, storeOf_concat, himp m path]
      exact hadd
    · rw [if_neg hp, List.append_nil, hother p (Ne.symm hp)]
      exact himp m p
  · have hnone : operationsUnder m [(methodName, operation)] = [] := by
      simp [operationsUnder, hlookup, Ne.symm hm]
    simpa only [hnone, ite_self, List.append_nil, Function.update_of_ne hm] using himp m p

theorem processMethods_builtFrom {methods : List (Bytes × Json)} {imp imp' : OASValidatorImp σ}
    (himp : imp.BuiltFrom rj declared)
    (h : processMethods rj path [lit "paths", escapeSlash path] methods imp = .ok imp') :
    imp'.BuiltFrom rj fun m p => declared m p ++ if path = p then operationsUnder m methods else [] := by
  induction methods generalizing imp declared with
  | nil =>
    obtain rfl := Except.ok.inj h
    simpa [operationsUnder] using himp
  | cons member rest ih =>
    obtain ⟨next, hnext, h⟩ := bind_eq_ok_iff.mp h
    have hrest := ih (processMethod_builtFrom himp hnext) h
    have hsplit : (fun m p => (declared m p ++ if path = p then operationsUnder m [member] else []) ++
        if path = p then operationsUnder m rest else []) =
        fun m p => declared m p ++ if path = p then operationsUnder m (member :: rest) else [] := by
      funext m p
      by_cases hp : path = p
      · simp only [if_pos hp, List.append_assoc, operationsUnder, ← List.filter_append,
          List.singleton_append]
      · simp only [if_neg hp, List.append_nil]
    rwa [hsplit] at hrest

theorem processPaths_builtFrom {paths : List (Bytes × Json)} {imp imp' : OASValidatorImp σ}
    (himp : imp.BuiltFrom rj declared) (h : processPaths rj [lit "paths"] paths imp = .ok imp') :
    imp'.BuiltFrom rj fun m p => declared m p ++ operationsIn m p paths := by
  induction paths generalizing imp declared with
  | nil =>
    obtain rfl := Except.ok.inj h
    simpa [operationsIn] using himp
  | cons member rest ih =>
    obtain ⟨next, hnext, h⟩ := bind_eq_ok_iff.mp h
    obtain ⟨methods, hmethods, hnext⟩ := bind_eq_ok_iff.mp hnext
    obtain rfl := (hmethods ▸ Json.getObject_asks _).of_ok
    have hrest := ih (processMethods_builtFrom himp hnext) h
    simpa only [operationsIn, List.flatMap_cons, List.append_assoc] using hrest

/-- The tables of a constructed validator hold what each operation's own declarations make. -/
theorem Constructs.builtFrom {order : Hashing} {files : Bytes → Option Bytes} {oasSpecs : Bytes}
    {methodMap : MethodMap} {doc : Json} {imp : OASValidatorImp σ}
    (h : Constructs rj order files oasSpecs methodMap doc imp) : imp.BuiltFrom rj (operations doc) := by
  obtain ⟨_, -, h⟩ := h
  obtain ⟨paths, hpaths, h⟩ := bind_eq_ok_iff.mp h
  obtain ⟨members, hmembers, h⟩ := bind_eq_ok_iff.mp h
  obtain ⟨rfl, -⟩ := (hpaths ▸ Json.get_asks _ _).of_ok
  obtain rfl := (hmembers ▸ Json.getObject_asks _).of_ok
  exact @processPaths_builtFrom _ _ (fun _ _ => []) _ _ _ (fun _ _ => rfl) h

end

/-! ### A change elsewhere -/

section

variable {σ : Type} {rj : RapidJson σ} {order : Hashing} {files files' : Bytes → Option Bytes}
  {oasSpecs oasSpecs' : Bytes} {methodMap methodMap' : MethodMap} {doc doc' : Json}
  {imp imp' : OASValidatorImp σ}

/-- The tables of a constructed validator hold what each operation's own declarations make, and what a
call hands back is decided by its lookup and by the declarations of the operation that the lookup finds:
a specification that is changed in all other places answers the same. -/
theorem call_of_operations (h : Constructs rj order files oasSpecs methodMap doc imp)
    (h' : Constructs rj order files' oasSpecs' methodMap' doc' imp') {errorMsg : Bytes} {call : Call}
    (hlookup : imp'.lookup order errorMsg call = imp.lookup order errorMsg call)
    (hsame : ∀ found method path, imp.lookup order errorMsg call = .ok found →
      found.validators = some (method, path) →
        operations doc' method path = operations doc method path) :
    (imp.BuiltFrom rj (operations doc) ∧ imp'.BuiltFrom rj (operations doc')) ∧
      handedBack (imp'.call rj order errorMsg call) = handedBack (imp.call rj order errorMsg call) := by
  refine ⟨⟨h.builtFrom, h'.builtFrom⟩, ?_⟩
  rw [OASValidatorImp.call_eq_lookup h.registered.1, OASValidatorImp.call_eq_lookup h'.registered.1,
    hlookup]
  cases hfound : imp.lookup order errorMsg call with
  | error fault => rfl
  | ok found =>
    show handedBack (imp'.withStore found _) = handedBack (imp.withStore found _)
    unfold OASValidatorImp.withStore
    by_cases hcode : found.code = .NONE
    · obtain ⟨method, key, store, hv, -, hstore⟩ :=
        OASValidatorImp.found_store h.registered.1 hfound hcode
      have hstore' : (imp'.oasValidators method).perPathValidators.lookup key = some store := by
        have hbuilt := h'.builtFrom method key
        rw [hsame found method key hfound hv, h.builtFrom method key, hstore] at hbuilt
        exact (Except.ok.inj hbuilt).symm
      simp only [if_neg (not_not.mpr hcode), hv, hstore, hstore']
      cases call.check rj order found store found.errorMsg with
      | error fault => rfl
      | ok c => rfl
    · rw [if_pos hcode, if_pos hcode]
      rfl

end

/-- An operation with a query parameter, and what else is given in front of its path. -/
def querySpec (before : Bytes) : Bytes :=
  lit "\x7b\"paths\":\x7b" ++ before ++ lit "\"/a\":\x7b\"get\":\x7b\"parameters\":[" ++
    lit "\x7b\"name\":\"n\",\"in\":\"query\",\"required\":true,\"schema\":" ++
    lit "\x7b\"type\":\"string\"\x7d\x7d]\x7d\x7d\x7d\x7d"

def beside : Bytes := lit "\"/b\":\x7b\"put\":\x7b\x7d\x7d,"

/-- What the document of `querySpec` declares for its path. -/
def queryOperations : List (Bytes × Json) :=
  [(lit "get", .object [(lit "parameters", .array [.object [(lit "name", .string (lit "n")),
    (lit "in", .string (lit "query")), (lit "required", .bool true),
    (lit "schema", .object [(lit "type", .string (lit "string"))])]])])]

theorem call_of_operations_beside :
    ∃ (doc doc' : Json) (imp imp' : OASValidatorImp Json),
      Constructs RapidJson.plain .insertion (fun _ => none) (querySpec []) [] doc imp ∧
      Constructs RapidJson.plain .insertion (fun _ => none) (querySpec beside) [] doc' imp' ∧
      (imp.BuiltFrom RapidJson.plain (operations doc) ∧
        imp'.BuiltFrom RapidJson.plain (operations doc')) ∧
      handedBack (imp'.call RapidJson.plain .insertion [] (.queryParam (lit "GET") (lit "/a?n=7"))) =
        handedBack (imp.call RapidJson.plain .insertion [] (.queryParam (lit "GET") (lit "/a?n=7"))) := by
  have hrun : ∀ before ∈ [[], beside], trial (querySpec before) (fun doc imp =>
      (operations doc .GET (lit "/a"), imp.lookup .insertion [] (.queryParam (lit "GET") (lit "/a?n=7")))) =
      some (.ok (queryOperations, .ok ⟨.NONE, [], none, some (lit "?n=7"), some (.GET, lit "/a")⟩)) := by
    decide +kernel
  obtain ⟨doc, imp, hdoc, hasked⟩ := trial_spec (hrun [] (by simp))
  obtain ⟨doc', imp', hdoc', hasked'⟩ := trial_spec (hrun beside (by simp))
  obtain ⟨hget, hfound⟩ := Prod.mk.inj hasked
  obtain ⟨hget', hfound'⟩ := Prod.mk.inj hasked'
  refine ⟨doc, doc', imp, imp', hdoc, hdoc', call_of_operations hdoc hdoc' (hfound'.trans hfound.symm) ?_⟩
  intro found method path hlookup hv
  obtain rfl := Except.ok.inj (hfound.symm.trans hlookup)
  obtain ⟨rfl, rfl⟩ := Prod.mk.inj (Option.some.inj hv)
  exact hget'.trans hget.symm

end OasValidator
