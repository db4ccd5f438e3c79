import OasValidator.Imp.Runs
import OasValidator.Imp.Sequence
import OasValidator.Imp.Soundness

/-! The calls of the interface in one form: a lookup, and a check with the validators that it found. -/

namespace OasValidator

open Library.Table

namespace Call

def method : Call → Bytes
  | .route method _ | .body method _ _ | .pathParam method _ | .queryParam method _
  | .headers method _ _ | .request method _ | .requestBody method _ _
  | .requestHeaders method _ _ | .requestBodyHeaders method _ _ _ => method

def httpPath : Call → Bytes
  | .route _ httpPath | .body _ httpPath _ | .pathParam _ httpPath | .queryParam _ httpPath
  | .headers _ httpPath _ | .request _ httpPath | .requestBody _ httpPath _
  | .requestHeaders _ httpPath _ | .requestBodyHeaders _ httpPath _ _ => httpPath

/-- Whether the call asks a lookup for the ranges of path parameters, and for the query. -/
def asks : Call → Bool × Bool
  | .route .. | .body .. | .headers .. => (false, false)
  | .pathParam .. => (true, false)
  | .queryParam .. => (false, true)
  | .request .. | .requestBody .. | .requestHeaders .. | .requestBodyHeaders .. => (true, true)

section

variable {σ : Type} (rj : RapidJson σ) (order : Hashing)

/-- The check with the validators of the operation. -/
def check (call : Call) (found : Found) : OASValidatorImp.StoreCheck σ :=
  match call with
  | .route .. => fun store errorMsg => .ok ⟨.NONE, errorMsg, store⟩
  | .body _ _ jsonBody => fun store errorMsg => store.validateBody rj jsonBody errorMsg
  | .pathParam _ httpPath => fun store errorMsg =>
    store.validatePathParams rj (dataOf httpPath) (found.paramIdxs.getD []) errorMsg
  | .queryParam .. => fun store errorMsg =>
    store.validateQueryParams rj (found.query.getD []) errorMsg
  | .headers _ _ given => fun store errorMsg =>
    store.validateHeaderParams rj order given errorMsg
  | .request _ httpPath => fun store errorMsg =>
    Checked.andThen
      (store.validatePathParams rj (dataOf httpPath) (found.paramIdxs.getD []) errorMsg)
      fun store errorMsg => store.validateQueryParams rj (found.query.getD []) errorMsg
  | .requestBody _ httpPath jsonBody => fun store errorMsg =>
    Checked.andThen (store.validateBody rj jsonBody errorMsg) fun store errorMsg =>
    Checked.andThen
      (store.validatePathParams rj (dataOf httpPath) (found.paramIdxs.getD []) errorMsg)
      fun store errorMsg => store.validateQueryParams rj (found.query.getD []) errorMsg
  | .requestHeaders _ httpPath given => fun store errorMsg =>
    Checked.andThen
      (store.validatePathParams rj (dataOf httpPath) (found.paramIdxs.getD []) errorMsg)
      fun store errorMsg =>
    Checked.andThen (store.validateQueryParams rj (found.query.getD []) errorMsg)
      fun store errorMsg => store.validateHeaderParams rj order given errorMsg
  | .requestBodyHeaders _ httpPath jsonBody given => fun store errorMsg =>
    Checked.andThen (store.validateBody rj jsonBody errorMsg) fun store errorMsg =>
    Checked.andThen
      (store.validatePathParams rj (dataOf httpPath) (found.paramIdxs.getD []) errorMsg)
      fun store errorMsg =>
    Checked.andThen (store.validateQueryParams rj (found.query.getD []) errorMsg)
      fun store errorMsg => store.validateHeaderParams rj order given errorMsg

end

end Call

namespace OASValidatorImp

variable {σ : Type} (rj : RapidJson σ) (order : Hashing) (imp : OASValidatorImp σ)

/-- The lookup of a call. -/
def lookup (errorMsg : Bytes) (call : Call) : Except Fault Found :=
  imp.getValidators order call.method call.httpPath errorMsg (if call.asks.1 then some [] else none)
    (if call.asks.2 then some [] else none)

variable {rj order imp} {paths : HttpMethod → List Bytes}

/-- A lookup returns. -/
theorem lookup_registered (himp : Registered imp paths) (errorMsg : Bytes) (call : Call) :
    ∃ found, imp.lookup order errorMsg call = .ok found ∧
      (call.method ∉ kValidMethods ∧ found.code = .INVALID_METHOD ∨
        call.method ∈ kValidMethods ∧
        FoundIn order paths (pathPart call.httpPath) (if call.asks.1 then some [] else none)
          (candidates order imp.methodMap call.method) found) := by
  by_cases hvalid : call.method ∈ kValidMethods
  · obtain ⟨found, hfound, hin⟩ := getValidators_registered order himp hvalid call.httpPath errorMsg
      (if call.asks.1 then some [] else none) (if call.asks.2 then some [] else none)
    exact ⟨found, hfound, Or.inr ⟨hvalid, hin⟩⟩
  · obtain ⟨found, hfound, hcode, -⟩ := getValidators_invalid order imp hvalid call.httpPath errorMsg
      (if call.asks.1 then some [] else none) (if call.asks.2 then some [] else none)
    exact ⟨found, hfound, Or.inl ⟨hvalid, hcode⟩⟩

/-- The store of a lookup that succeeds is there. -/
theorem found_store (himp : Registered imp paths) {errorMsg : Bytes} {call : Call} {found : Found}
    (h : imp.lookup order errorMsg call = .ok found) (hcode : found.code = .NONE) :
    ∃ method key store, found.validators = some (method, key) ∧
      routed order paths (pathPart call.httpPath) (candidates order imp.methodMap call.method) =
        some (method, key) ∧
      (imp.oasValidators method).perPathValidators.lookup key = some store := by
  obtain ⟨hvalid, hin, hsome⟩ := found_routed himp h hcode
  obtain ⟨⟨method, key⟩, hfound⟩ := Option.isSome_iff_exists.mp hsome
  have hrouted := hin.validators.symm.trans hfound
  obtain ⟨-, hroute⟩ := routed_spec hrouted
  have hkey : key ∈ paths method := (route_spec hroute).1
  obtain ⟨store, hstore⟩ := exists_lookup ((himp.keys_iff method key).mpr hkey)
  exact ⟨method, key, store, hfound, hrouted, hstore⟩

/-- A call is its lookup, and its check with the validators that were found. -/
theorem call_eq_lookup (himp : Registered imp paths) (errorMsg : Bytes) (call : Call) :
    imp.call rj order errorMsg call =
      imp.lookup order errorMsg call >>= fun found =>
        imp.withStore found (call.check rj order found) := by
  cases call with
  | route method httpPath =>
    obtain ⟨found, hfound, -⟩ := lookup_registered himp errorMsg (.route method httpPath)
    have hroute : imp.call rj order errorMsg (.route method httpPath) =
        .ok ⟨found.code, found.errorMsg, imp⟩ := by
      simp only [OASValidatorImp.call, validateRoute]
      rw [show imp.getValidators order method httpPath errorMsg none none = .ok found from hfound]
      rfl
    rw [hroute, hfound]
    show _ = imp.withStore found _
    unfold withStore
    by_cases hcode : found.code = .NONE
    · obtain ⟨m, key, store, hv, -, hstore⟩ := found_store himp hfound hcode
      rw [if_neg (by simp [hcode]), hv]
      simp only [hstore, Call.check, bind, Except.bind, pure, Except.pure, Checked.map]
      rw [setStore_of_lookup hstore, hcode]
    · rw [if_pos hcode]
  | _ => rfl

end OASValidatorImp

end OasValidator
