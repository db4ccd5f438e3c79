import OasValidator.Imp.Requests
import OasValidator.Validators.Messages

/-! `ValidateRequest` as the sequence of the single checks.  The single checks look the validators up
again, each asking for other outputs, in a validator whose states the checks before have changed; all
of these lookups find the same. -/

namespace OasValidator

open Library.Table Checked

/-! ### What a lookup depends on -/

/-- The outputs that a caller asked for. -/
def Found.ask (idxs query : Bool) (found : Found) : Found :=
  { found with
    paramIdxs := if idxs then found.paramIdxs else none
    query := if query then found.query else none }

/-- The same trie and the same paths under every method, and the same methods. -/
structure SameTables {σ : Type} (imp imp' : OASValidatorImp σ) : Prop where
  methodMap : imp'.methodMap = imp.methodMap
  methodValidator : imp'.methodValidator = imp.methodValidator
  pathTrie : ∀ method, (imp'.oasValidators method).pathTrie = (imp.oasValidators method).pathTrie
  paths : ∀ method path,
    ((imp'.oasValidators method).perPathValidators.lookup path).isSome =
      ((imp.oasValidators method).perPathValidators.lookup path).isSome

namespace PathTrie

variable {order : Hashing}

/-- The search that records ranges finds what the other one finds. -/
theorem searchFrom_eq (oasPath : Bytes) (paramIdxs : ParamIdxs) (frags : List (Bytes × ParamRange))
    (node : Node) :
    searchFrom order oasPath frags node =
      (searchParamsFrom order oasPath paramIdxs frags node).map fun r => (r.1, r.2.1) := by
  induction frags generalizing oasPath paramIdxs node with
  | nil => rfl
  | cons p rest ih =>
    obtain ⟨dir, range⟩ := p
    simp only [searchFrom, searchParamsFrom]
    cases node.children.lookup dir with
    | some child => exact ih _ _ _
    | none =>
      simp only
      split
      · cases beginChild order node with
        | error x => rfl
        | ok child => exact ih _ _ _
      · rfl

end PathTrie

namespace OASValidatorImp

variable {σ : Type} {rj : RapidJson σ} {order : Hashing} {imp imp' : OASValidatorImp σ}

theorem searchTrie_ask (trie : PathTrie.Node) (path : Bytes) (paramIdxs : ParamIdxs) (b : Bool) :
    searchTrie order trie path (if b then some paramIdxs else none) =
      (searchTrie order trie path (some paramIdxs)).map fun r =>
        (r.1, r.2.1, if b then r.2.2 else none) := by
  cases b with
  | true =>
    simp only [if_true, searchTrie]
    cases PathTrie.searchParams order trie path paramIdxs <;> rfl
  | false =>
    simp only [searchTrie, PathTrie.search, PathTrie.searchParams, Bool.false_eq_true, if_false]
    rw [PathTrie.searchFrom_eq [] paramIdxs]
    cases PathTrie.searchParamsFrom order [] paramIdxs (PathTrie.fragments path) trie <;> rfl

theorem getValidatorsOf_ask (method mappedMethod httpPath errorMsg : Bytes) (paramIdxs : ParamIdxs)
    (query : Bytes) (i q : Bool) :
    imp.getValidatorsOf order method mappedMethod httpPath errorMsg
        (if i then some paramIdxs else none) (if q then some query else none) =
      (imp.getValidatorsOf order method mappedMethod httpPath errorMsg (some paramIdxs)
        (some query)).map (Found.ask i q) := by
  unfold getValidatorsOf
  cases kStringToMethod.lookup mappedMethod with
  | none => rfl
  | some enumMethod =>
    have hquery : (if question ∈ httpPath then
          (if q then some query else none).map fun _ => queryPart httpPath
        else if q then some query else none) =
        if q then (if question ∈ httpPath then some (queryPart httpPath) else some query)
          else none := by
      cases q <;> simp
    simp only [hquery]
    split
    · simp only [Option.map_some]
      rfl
    · rw [searchTrie_ask]
      cases searchTrie order (imp.oasValidators enumMethod).pathTrie (pathPart httpPath)
          (some paramIdxs) with
      | error x => rfl
      | ok r =>
        simp only [Except.map, bind, Except.bind, Option.map_some]
        split <;> rfl

/-- A lookup that is asked for everything returns what it is asked for. -/
theorem getValidatorsOf_some {method mappedMethod httpPath errorMsg query : Bytes}
    {paramIdxs : ParamIdxs} {found : Found}
    (h : imp.getValidatorsOf order method mappedMethod httpPath errorMsg (some paramIdxs)
      (some query) = .ok found) :
    (∃ idxs, found.paramIdxs = some idxs) ∧ ∃ query, found.query = some query := by
  unfold getValidatorsOf at h
  cases hm : kStringToMethod.lookup mappedMethod with
  | none => simp [hm, throw, throwThe, MonadExceptOf.throw] at h
  | some enumMethod =>
    simp only [hm, Option.map_some] at h
    have hquery : ∃ q, (if question ∈ httpPath then some (queryPart httpPath) else some query) =
        some q := by
      split <;> exact ⟨_, rfl⟩
    split at h
    · obtain rfl := Except.ok.inj h
      exact ⟨⟨_, rfl⟩, hquery⟩
    · simp only [searchTrie, bind_assoc, pure_bind] at h
      obtain ⟨r, -, h⟩ := bind_eq_ok_iff.mp h
      split at h
      · obtain rfl := Except.ok.inj h
        exact ⟨⟨_, rfl⟩, hquery⟩
      · obtain rfl := Except.ok.inj h
        exact ⟨⟨_, rfl⟩, hquery⟩

theorem getMapped_ask (method httpPath : Bytes) (methods : List Bytes) (found : Found)
    (i q : Bool) (hidxs : ∃ idxs, found.paramIdxs = some idxs)
    (hquery : ∃ query, found.query = some query) :
    getMapped order imp method httpPath methods (found.ask i q) =
      (getMapped order imp method httpPath methods found).map (Found.ask i q) := by
  induction methods generalizing found with
  | nil => rfl
  | cons mappedMethod rest ih =>
    obtain ⟨idxs, hidxs⟩ := hidxs
    obtain ⟨query, hquery⟩ := hquery
    simp only [getMapped, Found.ask, hidxs, hquery]
    rw [getValidatorsOf_ask]
    cases hr : imp.getValidatorsOf order method mappedMethod httpPath found.errorMsg (some idxs)
        (some query) with
    | error x => cases x <;> simp [Except.map, Found.ask, hidxs, hquery]
    | ok next =>
      obtain ⟨hidxs', hquery'⟩ := getValidatorsOf_some hr
      simp only [Except.map]
      have hcode : (next.ask i q).code = next.code := rfl
      rw [hcode]
      split
      · rfl
      · exact ih next hidxs' hquery'

/-- The outputs that a caller asks for do not change what a lookup finds. -/
theorem getValidators_ask (method httpPath errorMsg : Bytes) (i q : Bool) :
    imp.getValidators order method httpPath errorMsg (if i then some [] else none)
        (if q then some [] else none) =
      (imp.getValidators order method httpPath errorMsg (some []) (some [])).map
        (Found.ask i q) := by
  unfold getValidators
  simp only
  split
  · rfl
  · rw [getValidatorsOf_ask]
    cases hr : imp.getValidatorsOf order method method httpPath
        (MethodValidator.validate imp.methodValidator method errorMsg).2 (some []) (some []) with
    | error x => rfl
    | ok found =>
      obtain ⟨hidxs, hquery⟩ := getValidatorsOf_some hr
      simp only [Except.map, bind, Except.bind, show (found.ask i q).code = found.code from rfl]
      split
      · cases imp.methodMap.lookup method with
        | none => rfl
        | some methods => exact getMapped_ask method httpPath _ found i q hidxs hquery
      · rfl

theorem getValidatorsOf_same (h : SameTables imp imp') :
    imp'.getValidatorsOf order = imp.getValidatorsOf order := by
  funext method mappedMethod httpPath errorMsg paramIdxs query
  unfold getValidatorsOf
  cases kStringToMethod.lookup mappedMethod with
  | none => rfl
  | some enumMethod => simp only [h.paths, h.pathTrie]

theorem getMapped_same (h : SameTables imp imp') (method httpPath : Bytes) (methods : List Bytes)
    (found : Found) :
    getMapped order imp' method httpPath methods found =
      getMapped order imp method httpPath methods found := by
  induction methods generalizing found with
  | nil => rfl
  | cons mappedMethod rest ih => simp only [getMapped, getValidatorsOf_same h, ih]

/-- The states of the validators do not matter to a lookup. -/
theorem getValidators_same (h : SameTables imp imp') :
    imp'.getValidators order = imp.getValidators order := by
  funext method httpPath errorMsg paramIdxs query
  simp only [getValidators, h.methodValidator, h.methodMap, getValidatorsOf_same h,
    getMapped_same h]

/-! ### One check after the other -/

theorem setStore_same {method : HttpMethod} {key : Bytes} {store : ValidatorsStore σ}
    (h : ((imp.oasValidators method).perPathValidators.lookup key).isSome) :
    SameTables imp (imp.setStore method key store) where
  methodMap := rfl
  methodValidator := rfl
  pathTrie := fun method' => by
    by_cases hm : method' = method
    · subst hm
      simp [setStore]
    · simp [setStore, hm]
  paths := fun method' path => by
    by_cases hm : method' = method
    · subst hm
      simp only [setStore, Function.update_self, lookup_put]
      split
      · rename_i hp
        rw [eq_of_beq hp, h]
        rfl
      · rfl
    · simp [setStore, hm]

theorem setStore_lookup (method : HttpMethod) (key : Bytes) (store : ValidatorsStore σ) :
    ((imp.setStore method key store).oasValidators method).perPathValidators.lookup key =
      some store := by
  simp [setStore, lookup_put]

theorem setStore_setStore (method : HttpMethod) (key : Bytes) (s t : ValidatorsStore σ) :
    (imp.setStore method key s).setStore method key t = imp.setStore method key t := by
  simp [setStore, put_put]

/-- A check of the validators of an operation. -/
abbrev StoreCheck (σ : Type) :=
  ValidatorsStore σ → Bytes → Except Fault (Checked (ValidatorsStore σ))

theorem withStore_same {found : Found} {check : StoreCheck σ} {c : Checked (OASValidatorImp σ)}
    (h : imp.withStore found check = .ok c) : SameTables imp c.after := by
  unfold withStore at h
  split at h
  · obtain rfl := Except.ok.inj h
    exact ⟨rfl, rfl, fun _ => rfl, fun _ _ => rfl⟩
  · split at h
    · simp at h
    · split at h
      · simp at h
      · rename_i store hstore
        obtain ⟨r, -, hr⟩ := bind_eq_ok_iff.mp h
        obtain rfl := Except.ok.inj hr
        exact setStore_same (by simp [hstore])

/-- Checks with `CHECK_ERROR` between them. -/
def chain : StoreCheck σ → List (StoreCheck σ) → StoreCheck σ
  | check, [] => check
  | check, next :: rest => fun store errorMsg => andThen (check store errorMsg) (chain next rest)

theorem chain_assigns {check : StoreCheck σ} {rest : List (StoreCheck σ)}
    (h : ∀ c ∈ check :: rest, ∀ store, Assigns (c store)) (store : ValidatorsStore σ) :
    Assigns (chain check rest store) := by
  induction rest generalizing check store with
  | nil => exact h check (by simp) store
  | cons next rest ih =>
    apply andThen_assigns (h check (by simp) store)
    exact fun s => ih (fun c hc => h c (by simp [hc])) s

/-- Calls one after the other, each on what the one before leaves, up to the first that fails. -/
def inOrder : List (OASValidatorImp σ → Except Fault (Checked (OASValidatorImp σ))) →
    OASValidatorImp σ → Except Fault (Checked (OASValidatorImp σ))
  | [], imp => .ok ⟨.NONE, [], imp⟩
  | call :: rest, imp => do
    let c ← call imp
    if c.code = .NONE then inOrder rest c.after else pure c

theorem inOrder_congr {calls calls' :
      List (OASValidatorImp σ → Except Fault (Checked (OASValidatorImp σ)))}
    (h : List.Forall₂ (fun f g => ∀ imp', SameTables imp imp' →
      f imp' = g imp' ∧ ∀ c, g imp' = .ok c → SameTables imp c.after) calls calls')
    (imp' : OASValidatorImp σ) (himp : SameTables imp imp') :
    inOrder calls imp' = inOrder calls' imp' := by
  induction h generalizing imp' with
  | nil => rfl
  | @cons f g _ _ hfg _ ih =>
    obtain ⟨heq, hsame⟩ := hfg imp' himp
    simp only [inOrder, heq]
    cases hr : g imp' with
    | error x => rfl
    | ok c =>
      simp only [bind, Except.bind]
      rw [ih c.after (hsame c hr)]

/-- Checks in a chain are checks in order, each of the same operation. -/
theorem withStore_chain {found : Found} (hcode : found.code = .NONE) (check : StoreCheck σ)
    (rest : List (StoreCheck σ)) (h : ∀ c ∈ check :: rest, ∀ store, Assigns (c store)) :
    Same (imp.withStore found (chain check rest))
      (inOrder ((check :: rest).map fun c imp' => withStore imp' found c) imp) := by
  induction rest generalizing check imp with
  | nil =>
    simp only [chain, List.map_cons, List.map_nil, inOrder]
    cases imp.withStore found check with
    | error x => exact Same.refl _
    | ok c =>
      simp only [bind, Except.bind]
      split
      · rename_i hc
        exact same_iff.mpr (Or.inr ⟨_, _, rfl, rfl, outcome_eq_iff.mpr
          ⟨hc, fun hne => absurd hc hne, rfl⟩⟩)
      · exact Same.refl _
  | cons next rest ih =>
    rw [List.map_cons, inOrder]
    cases hv : found.validators with
    | none => simp [withStore, hcode, hv, Same, bind, Except.bind]
    | some p =>
      obtain ⟨method, key⟩ := p
      cases hl : (imp.oasValidators method).perPathValidators.lookup key with
      | none => simp [withStore, hcode, hv, hl, Same, bind, Except.bind]
      | some store =>
        have hrun : ∀ c : StoreCheck σ, imp.withStore found c =
            c store found.errorMsg >>= fun r => pure (r.map (imp.setStore method key)) := fun c => by
          simp [withStore, hcode, hv, hl]
        rw [hrun, hrun]
        simp only [chain, andThen]
        cases check store found.errorMsg with
        | error x => exact Same.refl _
        | ok c =>
          by_cases hc : c.code = .NONE
          · have hnext := @ih (imp.setStore method key c.after) next
              fun c' hc' => h c' (by simp [hc'])
            have hstep : (imp.setStore method key c.after).withStore found (chain next rest) =
                chain next rest c.after found.errorMsg >>= fun r =>
                  pure (r.map (imp.setStore method key)) := by
              simp only [withStore, hcode, hv, ne_eq, not_true_eq_false, if_false, setStore_lookup]
              congr 1
              funext r
              simp only [Checked.map, setStore_setStore]
            rw [hstep] at hnext
            have hmsg := @chain_assigns _ next rest (fun c' hc' => h c' (by simp [hc'])) c.after
              c.errorMsg found.errorMsg
            simpa [bind, Except.bind, pure, Except.pure, hc, Checked.map] using
              (hmsg.map (imp.setStore method key)).trans hnext
          · simp [bind, Except.bind, pure, Except.pure, hc, Checked.map, Same]

/-! ### The single calls -/

/-- What a single call does once the lookup has found the operation. -/
theorem call_eq {method httpPath : Bytes} {found : Found} (i q : Bool)
    (h : imp.getValidators order method httpPath [] (some []) (some []) = .ok found)
    (himp : SameTables imp imp') (check : Found → StoreCheck σ) :
    (do
      let found ← imp'.getValidators order method httpPath [] (if i then some [] else none)
        (if q then some [] else none)
      imp'.withStore found (check found)) = imp'.withStore found (check (found.ask i q)) := by
  rw [getValidators_same himp, getValidators_ask, h]
  rfl

/-- A request is the call for its route and the calls for its parts, in order. -/
theorem request_eq {method httpPath : Bytes} (check : Found → StoreCheck σ)
    (rest : List (Found → StoreCheck σ))
    (hassigns : ∀ c ∈ check :: rest, ∀ found store, Assigns (c found store))
    (calls : List (OASValidatorImp σ → Except Fault (Checked (OASValidatorImp σ))))
    (hcalls : ∀ found,
      imp.getValidators order method httpPath [] (some []) (some []) = .ok found →
        List.Forall₂ (fun call (c : Found → StoreCheck σ) => ∀ imp', SameTables imp imp' →
          call imp' = imp'.withStore found (c found)) calls (check :: rest)) :
    Same
      (do
        let found ← imp.getValidators order method httpPath [] (some []) (some [])
        imp.withStore found (chain (check found) (rest.map (· found))))
      (inOrder ((·.validateRoute order method httpPath []) :: calls) imp) := by
  have hroute : ∀ r, imp.getValidators order method httpPath [] (some []) (some []) = r →
      imp.validateRoute order method httpPath [] =
        r >>= fun found => pure ⟨found.code, found.errorMsg, imp⟩ := by
    intro r hr
    have hask := @getValidators_ask _ order imp method httpPath [] false false
    simp only [Bool.false_eq_true, if_false] at hask
    rw [validateRoute, hask, hr]
    cases r <;> rfl
  rw [inOrder]
  cases hr : imp.getValidators order method httpPath [] (some []) (some []) with
  | error x =>
    rw [hroute _ hr]
    exact Same.refl _
  | ok found =>
    rw [hroute _ hr]
    simp only [bind, Except.bind, pure, Except.pure]
    by_cases hcode : found.code = .NONE
    · rw [if_pos hcode]
      have hsame : SameTables imp imp := ⟨rfl, rfl, fun _ => rfl, fun _ _ => rfl⟩
      have hlist : List.Forall₂ (fun f g => ∀ imp', SameTables imp imp' →
          f imp' = g imp' ∧ ∀ c, g imp' = .ok c → SameTables imp c.after) calls
          ((check found :: rest.map (· found)).map fun c imp' => withStore imp' found c) := by
        rw [← List.map_cons (f := fun c : Found → StoreCheck σ => c found), List.map_map,
          List.forall₂_map_right_iff]
        refine (hcalls found hr).imp fun call c hc imp' himp => ⟨hc imp' himp, fun r hr' => ?_⟩
        have hw := withStore_same hr'
        exact ⟨hw.methodMap.trans himp.methodMap, hw.methodValidator.trans himp.methodValidator,
          fun m => (hw.pathTrie m).trans (himp.pathTrie m),
          fun m p => (hw.paths m p).trans (himp.paths m p)⟩
      rw [inOrder_congr hlist imp hsame]
      apply withStore_chain hcode
      intro c hc store
      rw [← List.map_cons (f := fun c : Found → StoreCheck σ => c found)] at hc
      obtain ⟨c', hc', rfl⟩ := List.mem_map.mp hc
      exact hassigns c' hc' found store
    · rw [if_neg hcode]
      simp [withStore, hcode, Same]

section

variable (rj order imp)

/-- Each `ValidateRequest` is the call of `ValidateRoute` and the calls that check what it is given,
in the order of the source, up to the first one that fails. -/
theorem validateRequest_in_order (method httpPath jsonBody : Bytes)
    (headers : List (Bytes × Bytes)) :
    Same (imp.validateRequest rj order method httpPath [])
      (inOrder
        [(·.validateRoute order method httpPath []),
          (·.validatePathParam rj order method httpPath []),
          (·.validateQueryParam rj order method httpPath [])] imp) ∧
    Same (imp.validateRequestBody rj order method httpPath jsonBody [])
      (inOrder
        [(·.validateRoute order method httpPath []),
          (·.validateBody rj order method httpPath jsonBody []),
          (·.validatePathParam rj order method httpPath []),
          (·.validateQueryParam rj order method httpPath [])] imp) ∧
    Same (imp.validateRequestHeaders rj order method httpPath headers [])
      (inOrder
        [(·.validateRoute order method httpPath []),
          (·.validatePathParam rj order method httpPath []),
          (·.validateQueryParam rj order method httpPath []),
          (·.validateHeaders rj order method httpPath headers [])] imp) ∧
    Same (imp.validateRequestBodyHeaders rj order method httpPath jsonBody headers [])
      (inOrder
        [(·.validateRoute order method httpPath []),
          (·.validateBody rj order method httpPath jsonBody []),
          (·.validatePathParam rj order method httpPath []),
          (·.validateQueryParam rj order method httpPath []),
          (·.validateHeaders rj order method httpPath headers [])] imp) := by
  let body : Found → StoreCheck σ := fun _ store => store.validateBody rj jsonBody
  let path : Found → StoreCheck σ := fun found store =>
    store.validatePathParams rj (dataOf httpPath) (found.paramIdxs.getD [])
  let query : Found → StoreCheck σ := fun found store =>
    store.validateQueryParams rj (found.query.getD [])
  let header : Found → StoreCheck σ := fun _ store => store.validateHeaderParams rj order headers
  have hbody : ∀ found store, Assigns (body found store) := fun _ store =>
    store.validateBody_assigns rj jsonBody
  have hpath : ∀ found store, Assigns (path found store) := fun _ store =>
    store.validatePathParams_assigns rj _ _
  have hquery : ∀ found store, Assigns (query found store) := fun _ store =>
    store.validateQueryParams_assigns rj _
  have hheader : ∀ found store, Assigns (header found store) := fun _ store =>
    store.validateHeaderParams_assigns rj order headers
  have callBody : ∀ found imp', imp.getValidators order method httpPath [] (some []) (some []) =
      .ok found → SameTables imp imp' →
        imp'.validateBody rj order method httpPath jsonBody [] = imp'.withStore found (body found) :=
    fun found imp' h himp => call_eq false false h himp body
  have callPath : ∀ found imp', imp.getValidators order method httpPath [] (some []) (some []) =
      .ok found → SameTables imp imp' →
        imp'.validatePathParam rj order method httpPath [] = imp'.withStore found (path found) :=
    fun found imp' h himp => call_eq true false h himp path
  have callQuery : ∀ found imp', imp.getValidators order method httpPath [] (some []) (some []) =
      .ok found → SameTables imp imp' →
        imp'.validateQueryParam rj order method httpPath [] = imp'.withStore found (query found) :=
    fun found imp' h himp => call_eq false true h himp query
  have callHeader : ∀ found imp', imp.getValidators order method httpPath [] (some []) (some []) =
      .ok found → SameTables imp imp' →
        imp'.validateHeaders rj order method httpPath headers [] =
          imp'.withStore found (header found) :=
    fun found imp' h himp => call_eq false false h himp header
  refine ⟨?_, ?_, ?_, ?_⟩
  · refine request_eq path [query] (by simp [hpath, hquery]) _ fun found h => ?_
    exact .cons (callPath found · h) (.cons (callQuery found · h) .nil)
  · refine request_eq body [path, query] (by simp [hbody, hpath, hquery]) _ fun found h => ?_
    exact .cons (callBody found · h) (.cons (callPath found · h) (.cons (callQuery found · h) .nil))
  · refine request_eq path [query, header] (by simp [hpath, hquery, hheader]) _ fun found h => ?_
    exact .cons (callPath found · h)
      (.cons (callQuery found · h) (.cons (callHeader found · h) .nil))
  · refine request_eq body [path, query, header] (by simp [hbody, hpath, hquery, hheader]) _
      fun found h => ?_
    exact .cons (callBody found · h) (.cons (callPath found · h)
      (.cons (callQuery found · h) (.cons (callHeader found · h) .nil)))

end

end OASValidatorImp

end OasValidator
