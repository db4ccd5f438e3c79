import OasValidator.Imp.Inlining
import OasValidator.Imp.Tables
import OasValidator.Library.Demands

/-! What the constructor asks of a document whose references are resolved: the members that it reads
without a look at whether they are there and of the right kind, the keys it looks up in a table, and
the checks that it reports by its own exception. -/

namespace OasValidator

open Library.Demands Library.Table

/-- The exception that the constructor is documented to throw. -/
def Reported (x : InitError) : Prop := ∃ message, x = .validatorInitExc message

/-! ### Readings of values -/

def isObject : Json → Bool
  | .object _ => true
  | _ => false

def isArray : Json → Bool
  | .array _ => true
  | _ => false

def isString : Json → Bool
  | .string _ => true
  | _ => false

def isBool : Json → Bool
  | .bool _ => true
  | _ => false

def itemsOf : Json → List Json
  | .array items => items
  | _ => []

def textOf : Json → Bytes
  | .string s => cstr s
  | _ => []

namespace Json

def has (v : Json) (name : Bytes) : Bool := ((membersOf v).lookup name).isSome

/-- The first member of the name, or null. -/
def member (v : Json) (name : Bytes) : Json := ((membersOf v).lookup name).getD .null

/-- The string of a member that may be missing. -/
def textOr (v : Json) (name default_ : Bytes) : Bytes :=
  if v.has name then textOf (v.member name) else default_

variable (v : Json) (name : Bytes)

theorem getObject_asks : Asks Reported [needed (isObject v)] v.getObject (· = membersOf v) := by
  apply Asks.one
  · cases v <;> simp [needed, isObject, getObject, membersOf]
  · cases v <;> simp [needed, isObject, getObject, Reported]

theorem getArray_asks : Asks Reported [needed (isArray v)] v.getArray (· = itemsOf v) := by
  apply Asks.one
  · cases v <;> simp [needed, isArray, getArray, itemsOf]
  · cases v <;> simp [needed, isArray, getArray, Reported]

theorem getString_asks : Asks Reported [needed (isString v)] v.getString (· = textOf v) := by
  apply Asks.one
  · cases v <;> simp [needed, isString, getString, textOf]
  · cases v <;> simp [needed, isString, getString, Reported]

theorem getBool_asks : Asks Reported [needed (isBool v)] v.getBool fun _ => True := by
  apply Asks.one
  · cases v <;> simp [needed, isBool, getBool]
  · cases v <;> simp [needed, isBool, getBool, Reported]

variable {v} in
theorem hasMember_of_object (h : isObject v = true) : v.hasMember name = .ok (v.has name) := by
  cases v with
  | object members => rfl
  | _ => simp [isObject] at h

theorem hasMember_asks : Asks Reported [needed (isObject v)] (v.hasMember name) fun b =>
    b = v.has name ∧ isObject v = true := by
  apply Asks.one
  · intro h
    exact ⟨_, hasMember_of_object name h, rfl, h⟩
  · cases v <;> simp [needed, isObject, hasMember, getObject, Reported, bind, Except.bind]

theorem get_of_has (h : v.has name = true) : v.get name = .ok (v.member name) := by
  obtain ⟨w, hw⟩ := Option.isSome_iff_exists.mp h
  cases v with
  | object members =>
    have hmembers : members.lookup name = some w := hw
    simp [get, getObject, member, membersOf, hmembers, bind, Except.bind, pure, Except.pure]
  | _ => simp [membersOf] at hw

theorem isObject_of_has (h : v.has name = true) : isObject v = true := by
  cases v with
  | object members => rfl
  | _ => simp [has, membersOf] at h

theorem get_asks : Asks Reported [needed (v.has name)] (v.get name) fun w =>
    w = v.member name ∧ isObject v = true := by
  apply Asks.one
  · intro h
    exact ⟨_, get_of_has v name h, rfl, isObject_of_has v name h⟩
  · intro h
    refine ⟨.assertion, ?_, by simp [needed, Reported]⟩
    have hnone : (membersOf v).lookup name = none := by
      simpa [needed, has] using h
    cases v with
    | object members =>
      have hmembers : members.lookup name = none := hnone
      simp [get, getObject, hmembers, bind, Except.bind, throw, throwThe, MonadExceptOf.throw]
    | _ => rfl

end Json

/-- A member that is read as a string. -/
def stringAt (v : Json) (name : Bytes) : List Demand :=
  [needed (v.has name), needed (isString (v.member name))]

/-- A member that may be missing. -/
def optionalAt (v : Json) (name : Bytes) (isKind : Json → Bool) : Demand :=
  needed (!v.has name || isKind (v.member name))

theorem Asks.string {α : Type} {v : Json} {name : Bytes} {ds : List Demand}
    {next : Bytes → Except InitError α} {Q : α → Prop}
    (h : isObject v = true → Asks Reported ds (next (textOf (v.member name))) Q) :
    Asks Reported (stringAt v name ++ ds) (v.get name >>= fun w => w.getString >>= next) Q := by
  apply (Json.get_asks v name).bind
  rintro w ⟨rfl, hobject⟩
  apply (Json.getString_asks _).bind
  rintro s rfl
  exact h hobject

theorem Json.optional_asks {α : Type} {v : Json} (hobject : isObject v = true) (name : Bytes)
    {isKind : Json → Bool} {read : Json → Except InitError α} {Q : Json → α → Prop}
    (hread : ∀ w, Asks Reported [needed (isKind w)] (read w) (Q w)) (default_ : α) :
    Asks Reported [optionalAt v name isKind] (v.optional name read default_) fun a =>
      if v.has name then Q (v.member name) a else a = default_ := by
  simp only [Json.optional, Json.hasMember_of_object name hobject]
  cases h : v.has name with
  | true =>
    simp only [optionalAt, h, Bool.not_true, Bool.false_or]
    show Asks Reported _ (v.get name >>= read) _
    rw [Json.get_of_has v name h]
    exact hread _
  | false =>
    apply Asks.one
    · intro _
      exact ⟨default_, rfl, by simp⟩
    · simp [optionalAt, needed, h]

/-! ### Parameters -/

/-- A property of an object: its `type` is reported where it is missing or no type of a scalar. -/
def propertyDemands (property : Json) : List Demand :=
  [needed (isObject property), checked (property.has (lit "type")),
    needed (isString (property.member (lit "type"))),
    checked (PRIMITIVE_TYPE_MAP.lookup (textOf (property.member (lit "type")))).isSome]

def objectDemands (schema : Json) : List Demand :=
  [needed (schema.has (lit "properties")), needed (isObject (schema.member (lit "properties")))] ++
    (membersOf (schema.member (lit "properties"))).flatMap fun property => propertyDemands property.2

/-- The items of an array: their `type` is reported where it is missing or no type of a scalar. -/
def arrayDemands (schema : Json) : List Demand :=
  checked (schema.has (lit "items")) :: propertyDemands (schema.member (lit "items"))

/-- A schema with a type. -/
def typedDemands (schema : Json) : List Demand :=
  let typeName := textOf (schema.member (lit "type"))
  [needed (isString (schema.member (lit "type"))), needed (EXTENDED_TYPE_MAP.lookup typeName).isSome] ++
    match EXTENDED_TYPE_MAP.lookup typeName with
    | some .ARRAY => arrayDemands schema
    | some .OBJECT => objectDemands schema
    | _ => []

/-- The look whether there is a schema with a type. -/
def schemaDemands (paramVal : Json) : List Demand :=
  if paramVal.has (lit "schema") then [needed (isObject (paramVal.member (lit "schema")))] else []

def deserializerDemands (paramVal : Json) (defaultStyle : Bytes) : List Demand :=
  let schema := paramVal.member (lit "schema")
  stringAt paramVal (lit "name") ++ (stringAt paramVal (lit "in") ++
    (optionalAt paramVal (lit "explode") isBool :: optionalAt paramVal (lit "style") isString ::
      needed (PARAM_STYLE_MAP.lookup (paramVal.textOr (lit "style") defaultStyle)).isSome ::
      (schemaDemands paramVal ++
        if paramVal.has (lit "schema") && schema.has (lit "type") then typedDemands schema
        else [checked (paramVal.has (lit "content"))])))

/-- The content of a parameter without a schema. -/
def contentDemands (paramVal : Json) : List Demand :=
  let content := paramVal.member (lit "content")
  let media := content.member (lit "application/json")
  [checked (paramVal.has (lit "content")), needed (isObject content),
    checked (content.has (lit "application/json")), needed (isObject media),
    checked (media.has (lit "schema"))]

def paramInfoDemands (paramVal : Json) (defaultStyle : Bytes) : List Demand :=
  stringAt paramVal (lit "name") ++ (optionalAt paramVal (lit "required") isBool ::
    ((if paramVal.has (lit "schema") then [] else contentDemands paramVal) ++
      deserializerDemands paramVal defaultStyle))

/-- A parameter of an operation on a path.  A path parameter is relied on to stand in the path, and
another `in` than those of the three kinds is reported. -/
def paramDemands (path : Bytes) (paramVal : Json) : List Demand :=
  let in_ := textOf (paramVal.member (lit "in"))
  let name := textOf (paramVal.member (lit "name"))
  stringAt paramVal (lit "in") ++ (stringAt paramVal (lit "name") ++
    if in_ = lit "path" then
      needed ((getPathParamIndices path).lookup name).isSome ::
        paramInfoDemands paramVal (lit "simple")
    else if in_ = lit "query" then
      paramInfoDemands paramVal (lit "form") ++ [optionalAt paramVal (lit "allowEmptyValue") isBool]
    else if in_ = lit "header" then paramInfoDemands paramVal (lit "simple")
    else [checked false])

/-! ### Documents -/

/-- The schema of the body of an operation. -/
def bodyDemands (operation : Json) : List Demand :=
  let requestBody := operation.member (lit "requestBody")
  let content := requestBody.member (lit "content")
  let media := content.member (lit "application/json")
  needed (isObject operation) ::
    if operation.has (lit "requestBody") then
      needed (isObject requestBody) ::
        if requestBody.has (lit "content") then
          needed (isObject content) ::
            if content.has (lit "application/json") then [needed (isObject media)] else []
        else []
    else []

def parametersDemands (path : Bytes) (operation : Json) : List Demand :=
  if operation.has (lit "parameters") then
    needed (isArray (operation.member (lit "parameters"))) ::
      (itemsOf (operation.member (lit "parameters"))).flatMap (paramDemands path)
  else []

/-- A member of a path item is relied on to be an operation under the name of a method. -/
def operationDemands (path methodName : Bytes) (operation : Json) : List Demand :=
  needed (kStringToMethod.lookup (cstr methodName)).isSome ::
    (bodyDemands operation ++ parametersDemands path operation)

def pathDemands (pathName : Bytes) (methods : Json) : List Demand :=
  needed (isObject methods) ::
    (membersOf methods).flatMap fun method => operationDemands (cstr pathName) method.1 method.2

def documentDemands (doc : Json) : List Demand :=
  let paths := doc.member (lit "paths")
  [needed (doc.has (lit "paths")), needed (isObject paths)] ++
    (membersOf paths).flatMap fun path => pathDemands path.1 path.2

/-! ### Deserializers -/

theorem reported (message : Bytes) : Reported (.validatorInitExc message) := ⟨message, rfl⟩

/-- The type of a property, or of the items of an array. -/
theorem Asks.scalarType {α : Type} {property : Json} {ds : List Demand} {missing : InitError}
    (hmissing : Reported missing) {next : Bytes → Except InitError α} {Q : α → Prop}
    (hnext : Asks Reported
      (checked (PRIMITIVE_TYPE_MAP.lookup (textOf (property.member (lit "type")))).isSome :: ds)
      (next (textOf (property.member (lit "type")))) Q) :
    Asks Reported (propertyDemands property ++ ds)
      (property.hasMember (lit "type") >>= fun b =>
        if b = true then property.get (lit "type") >>= fun w => w.getString >>= next
        else .error missing) Q := by
  apply (Json.hasMember_asks property _).bind
  rintro b ⟨rfl, -⟩
  apply Asks.check hmissing
  intro h
  rw [Json.get_of_has property _ h]
  apply (Json.getString_asks _).bind
  rintro typeName rfl
  exact hnext

theorem ktMapOf_asks (refKeys : List Bytes) (properties : List (Bytes × Json)) (ktMap : ObjKTMap) :
    Asks Reported (properties.flatMap fun property => propertyDemands property.2)
      (ktMapOf refKeys properties ktMap) fun _ => True := by
  induction properties generalizing ktMap with
  | nil => exact .ok trivial
  | cons property rest ih =>
    rw [List.flatMap_cons]
    apply Asks.scalarType (reported _)
    cases h : PRIMITIVE_TYPE_MAP.lookup (textOf (property.2.member (lit "type"))) with
    | none => exact .rejected (reported _) _
    | some type =>
      apply Asks.met rfl
      exact ih _

section

variable {paramVal : Json} {refKeys : List Bytes}

theorem getArrayDeserializer_asks {schema : Json} (hobject : isObject schema = true)
    (base : BaseDeserializer) (style : ParamStyle) (explode : Bool) :
    Asks Reported (arrayDemands schema) (getArrayDeserializer base schema style explode refKeys)
      fun _ => True := by
  simp only [getArrayDeserializer, Json.hasMember_of_object _ hobject]
  apply Asks.check (reported _)
  intro h
  rw [Json.get_of_has schema _ h]
  rw [← List.append_nil (propertyDemands _)]
  apply Asks.scalarType (reported _)
  cases h : PRIMITIVE_TYPE_MAP.lookup (textOf ((schema.member (lit "items")).member (lit "type"))) with
  | none => exact .rejected (reported _) _
  | some type => exact .met rfl (.ok trivial)

theorem getKTMap_asks (h : paramVal.has (lit "schema") = true) :
    Asks Reported (objectDemands (paramVal.member (lit "schema"))) (getKTMap paramVal refKeys)
      fun _ => True := by
  simp only [getKTMap, Json.get_of_has paramVal _ h]
  apply (Json.get_asks _ _).bind
  rintro properties ⟨rfl, -⟩
  apply (Json.getObject_asks _).bind
  rintro members rfl
  exact ktMapOf_asks refKeys _ []

theorem tableAt_asks {ν : Type} (t : List (Bytes × ν)) (key : Bytes) :
    Asks Reported [needed (t.lookup key).isSome] (tableAt t key) fun v => t.lookup key = some v := by
  cases h : t.lookup key with
  | none =>
    exact .one (by simp [needed]) fun _ =>
      ⟨.outOfRange, by simp [tableAt, h], by simp [needed, Reported]⟩
  | some v => exact .met rfl (.returned (by simp [tableAt, h]) rfl)

theorem getTypedDeserializer_asks (hschema : paramVal.has (lit "schema") = true)
    (htype : (paramVal.member (lit "schema")).has (lit "type") = true)
    (paramName in_ : Bytes) (style : ParamStyle) (explode : Bool) :
    Asks Reported (typedDemands (paramVal.member (lit "schema")))
      (getTypedDeserializer paramVal paramName in_ style explode refKeys) fun _ => True := by
  have hobject : isObject (paramVal.member (lit "schema")) = true := Json.isObject_of_has _ _ htype
  simp only [getTypedDeserializer, Json.get_of_has paramVal _ hschema]
  show Asks Reported _ ((paramVal.member (lit "schema")).get (lit "type") >>= _) _
  rw [Json.get_of_has _ _ htype]
  apply (Json.getString_asks _).bind
  rintro typeName rfl
  apply (tableAt_asks _ _).bind
  intro type h
  rw [h]
  cases type with
  | ARRAY => exact (getArrayDeserializer_asks hobject _ style explode).thenPure fun _ _ => trivial
  | OBJECT => exact (getKTMap_asks hschema).thenPure fun _ _ => trivial
  | _ => exact .ok trivial

theorem hasSchemaType_asks (hobject : isObject paramVal = true) :
    Asks Reported (schemaDemands paramVal) (hasSchemaType paramVal) fun b =>
      b = (paramVal.has (lit "schema") && (paramVal.member (lit "schema")).has (lit "type")) := by
  rw [hasSchemaType, Json.hasMember_of_object _ hobject]
  apply Asks.branch
  · intro hschema
    rw [Json.get_of_has _ _ hschema, hschema, Bool.true_and]
    exact (Json.hasMember_asks _ _).mono fun _ h => h.1
  · intro hschema
    exact .ok (by rw [hschema, Bool.false_and])

theorem getDeserializer_asks (defaultStyle : Bytes) (defaultExplode : Bool) :
    Asks Reported (deserializerDemands paramVal defaultStyle)
      (getDeserializer paramVal defaultStyle defaultExplode refKeys) fun _ => True := by
  apply Asks.string
  intro hobject
  apply Asks.string
  intro _
  apply (Json.optional_asks hobject _ Json.getBool_asks _).bind
  intro explode _
  apply (Json.optional_asks hobject _ Json.getString_asks _).bind
  intro styleName hstyleName
  have hname : paramVal.textOr (lit "style") defaultStyle = styleName := by
    rw [Json.textOr]
    split at hstyleName
    · rename_i h
      rw [if_pos h, hstyleName]
    · rename_i h
      rw [if_neg h, hstyleName]
  rw [hname]
  apply (tableAt_asks _ _).bind
  intro style _
  apply (hasSchemaType_asks hobject).bind
  rintro b rfl
  apply Asks.branch
  · intro h
    obtain ⟨hschema, htype⟩ := Bool.and_eq_true_iff.mp h
    exact getTypedDeserializer_asks hschema htype _ _ _ _
  · intro _
    rw [Json.hasMember_of_object _ hobject]
    exact Asks.check (reported _) fun _ => .ok trivial

theorem contentSchema_asks (hobject : isObject paramVal = true) :
    Asks Reported (contentDemands paramVal) (contentSchema paramVal refKeys) fun _ => True := by
  simp only [contentSchema, Json.hasMember_of_object _ hobject]
  apply Asks.check (reported _)
  intro hcontent
  rw [Json.get_of_has _ _ hcontent]
  apply (Json.hasMember_asks _ _).bind
  rintro b ⟨rfl, -⟩
  apply Asks.check (reported _)
  intro hmedia
  rw [Json.get_of_has _ _ hmedia]
  apply (Json.hasMember_asks _ _).bind
  rintro b ⟨rfl, -⟩
  apply Asks.check (reported _)
  intro hschema
  exact .returned (Json.get_of_has _ _ hschema) trivial

theorem getParamInfo_asks (defaultStyle : Bytes) (defaultExplode defaultRequired : Bool) :
    Asks Reported (paramInfoDemands paramVal defaultStyle)
      (getParamInfo paramVal defaultStyle defaultExplode defaultRequired refKeys)
      fun _ => True := by
  apply Asks.string
  intro hobject
  apply (Json.optional_asks hobject _ Json.getBool_asks _).bind
  intro required _
  have hdeserializer : ∀ schema : Json, Asks Reported (deserializerDemands paramVal defaultStyle)
      (getDeserializer paramVal defaultStyle defaultExplode refKeys >>= fun deserializer =>
        pure (⟨textOf (paramVal.member (lit "name")), required, deserializer, schema⟩ : ParamInfo))
      fun _ => True := fun schema =>
    (getDeserializer_asks defaultStyle defaultExplode).thenPure fun _ _ => trivial
  rw [Json.hasMember_of_object _ hobject]
  cases hschema : paramVal.has (lit "schema") with
  | true =>
    simp only [if_true]
    rw [Json.get_of_has _ _ hschema]
    exact hdeserializer _
  | false =>
    simp only [Bool.false_eq_true, if_false]
    exact (contentSchema_asks hobject).bind fun schema _ => hdeserializer schema

end

/-! ### Documents -/

section

variable {σ : Type} {rj : RapidJson σ} {refKeys : List Bytes}

theorem ofPath_asks (paramVal : Json) :
    Asks Reported (paramInfoDemands paramVal (lit "simple"))
      (ParamValidator.ofPath rj paramVal refKeys) fun _ => True :=
  (getParamInfo_asks _ _ _).thenPure fun _ _ => trivial

theorem ofHeader_asks (paramVal : Json) :
    Asks Reported (paramInfoDemands paramVal (lit "simple"))
      (ParamValidator.ofHeader rj paramVal refKeys) fun _ => True :=
  (getParamInfo_asks _ _ _).thenPure fun _ _ => trivial

theorem ofQuery_asks {paramVal : Json} (hobject : isObject paramVal = true) :
    Asks Reported
      (paramInfoDemands paramVal (lit "form") ++ [optionalAt paramVal (lit "allowEmptyValue") isBool])
      (QueryParamValidator.ofQuery rj paramVal refKeys) fun _ => True :=
  (getParamInfo_asks _ _ _).bind fun _ _ =>
    (Json.optional_asks hobject _ Json.getBool_asks false).thenPure fun _ _ => trivial

theorem addParam_asks (path : Bytes) (paramVal : Json) (store : ValidatorsStore σ) :
    Asks Reported (paramDemands path paramVal)
      (store.addParam rj (getPathParamIndices path) refKeys paramVal) fun _ => True := by
  apply Asks.string
  intro hobject
  apply Asks.string
  intro _
  split
  · apply (tableAt_asks _ _).bind
    intro idx _
    exact (ofPath_asks paramVal).thenPure fun _ _ => trivial
  · split
    · exact (ofQuery_asks hobject).thenPure fun _ _ => trivial
    · split
      · exact (ofHeader_asks paramVal).thenPure fun _ _ => trivial
      · exact .rejected (reported _) _

theorem addParams_asks (path : Bytes) (params : List Json) (store : ValidatorsStore σ) :
    Asks Reported (params.flatMap (paramDemands path))
      (store.addParams rj (getPathParamIndices path) refKeys params) fun _ => True := by
  induction params generalizing store with
  | nil => exact .ok trivial
  | cons paramVal rest ih => exact (addParam_asks path paramVal store).bind fun _ _ => ih _

variable {operation : Json}

theorem bodySchema_asks : Asks Reported (bodyDemands operation) (bodySchema operation) fun _ =>
    isObject operation = true := by
  apply (Json.hasMember_asks _ _).bind
  rintro b ⟨rfl, hobject⟩
  apply Asks.branch
  · intro hbody
    rw [Json.get_of_has _ _ hbody]
    apply (Json.hasMember_asks _ _).bind
    rintro b ⟨rfl, -⟩
    apply Asks.branch
    · intro hcontent
      rw [Json.get_of_has _ _ hcontent]
      apply (Json.hasMember_asks _ _).bind
      rintro b ⟨rfl, -⟩
      apply Asks.branch
      · intro hmedia
        rw [Json.get_of_has _ _ hmedia]
        apply (Json.hasMember_asks _ _).bind
        rintro b ⟨rfl, -⟩
        split
        · rename_i hschema
          rw [Json.get_of_has _ _ hschema]
          exact .ok hobject
        · exact .ok hobject
      · exact fun _ => .ok hobject
    · exact fun _ => .ok hobject
  · exact fun _ => .ok hobject

/-- Behind this step there are validators for the path, new ones or those from before. -/
theorem processRequestBody_asks (path : Bytes) (table : List (Bytes × ValidatorsStore σ)) :
    Asks Reported (bodyDemands operation) (processRequestBody rj path refKeys operation table)
      fun table' => isObject operation = true ∧ path ∈ keys table' := by
  have hkeys : ∀ store : ValidatorsStore σ, path ∈ keys (emplace path store table) :=
    fun store => mem_keys_emplace.mpr (Or.inr rfl)
  rw [← List.append_nil (bodyDemands operation)]
  apply bodySchema_asks.bind
  intro schema hobject
  cases schema with
  | some schema => exact .ok ⟨hobject, hkeys _⟩
  | none => exact .ok ⟨hobject, hkeys _⟩

theorem processParameters_asks (hobject : isObject operation = true) {path : Bytes}
    {table : List (Bytes × ValidatorsStore σ)} (hpath : path ∈ keys table) :
    Asks Reported (parametersDemands path operation)
      (processParameters rj path refKeys operation table) fun _ => True := by
  obtain ⟨store, hstore⟩ := exists_lookup hpath
  rw [processParameters, Json.hasMember_of_object _ hobject]
  apply Asks.branch
  · intro hparams
    have htable : tableAt table path = .ok store := by
      rw [tableAt, hstore]
    rw [htable, Json.get_of_has _ _ hparams]
    have hadded : Asks Reported
        (needed (isArray (operation.member (lit "parameters"))) ::
          (itemsOf (operation.member (lit "parameters"))).flatMap (paramDemands path))
        (store.addParamValidators rj path (operation.member (lit "parameters"))
          (refKeys ++ [lit "parameters"])) fun _ => True := by
      apply (Json.getArray_asks _).bind
      rintro items rfl
      exact addParams_asks path _ store
    exact hadded.thenPure fun _ _ => trivial
  · exact fun _ => .ok trivial

theorem processMethod_asks (path methodName : Bytes) (operation : Json) (imp : OASValidatorImp σ) :
    Asks Reported (operationDemands path methodName operation)
      (processMethod rj path refKeys methodName operation imp) fun _ => True := by
  apply (tableAt_asks _ _).bind
  intro method _
  apply (processRequestBody_asks path _).bind
  rintro table ⟨hobject, hpath⟩
  exact (processParameters_asks hobject hpath).thenPure fun _ _ => trivial

theorem processMethods_asks (path : Bytes) (methods : List (Bytes × Json)) (imp : OASValidatorImp σ) :
    Asks Reported (methods.flatMap fun method => operationDemands path method.1 method.2)
      (processMethods rj path refKeys methods imp) fun _ => True := by
  induction methods generalizing imp with
  | nil => exact .ok trivial
  | cons method rest ih => exact (processMethod_asks path _ _ imp).bind fun _ _ => ih _

theorem processPath_asks (pathName : Bytes) (methods : Json) (imp : OASValidatorImp σ) :
    Asks Reported (pathDemands pathName methods)
      (processPath rj refKeys pathName methods imp) fun _ => True := by
  apply (Json.getObject_asks _).bind
  rintro members rfl
  exact processMethods_asks _ _ imp

theorem processPaths_asks (paths : List (Bytes × Json)) (imp : OASValidatorImp σ) :
    Asks Reported (paths.flatMap fun path => pathDemands path.1 path.2)
      (processPaths rj refKeys paths imp) fun _ => True := by
  induction paths generalizing imp with
  | nil => exact .ok trivial
  | cons path rest ih => exact (processPath_asks _ _ imp).bind fun _ _ => ih _

theorem processDocument_asks (order : Hashing) (methodMap : MethodMap) (doc : Json) :
    Asks Reported (documentDemands doc) (processDocument rj order methodMap doc) fun _ => True := by
  apply (Json.get_asks _ _).bind
  rintro paths ⟨rfl, -⟩
  apply (Json.getObject_asks _).bind
  rintro members rfl
  exact processPaths_asks _ _

/-- A document whose references are resolved is built from if and only if it has all that is asked. -/
theorem processDocument_ok_iff (order : Hashing) (methodMap : MethodMap) (doc : Json) :
    (∃ imp, processDocument rj order methodMap doc = .ok imp) ↔
      ∀ d ∈ documentDemands doc, d.met = true :=
  (processDocument_asks order methodMap doc).ok_iff

/-- The constructor completes, or throws the exception that it is documented to throw. -/
def Behaves (r : Except InitError (OASValidatorImp σ)) : Prop :=
  (∃ imp, r = .ok imp) ∨ ∃ x, r = .error x ∧ Reported x

theorem parseSpecs_reported {files : Bytes → Option Bytes} {oasSpecs : Bytes} {x : InitError}
    (h : parseSpecs rj files oasSpecs = .error x) : Reported x := by
  unfold parseSpecs at h
  split at h
  · simp at h
  · exact ⟨_, (Except.error.inj h).symm⟩

theorem construct_det {order : Hashing} {files : Bytes → Option Bytes} {n m : Nat}
    {oasSpecs : Bytes} {methodMap : MethodMap} {r r' : Except InitError (OASValidatorImp σ)}
    (h : construct rj order files n oasSpecs methodMap = some r)
    (h' : construct rj order files m oasSpecs methodMap = some r') : r = r' := by
  obtain ⟨resolved, hn, rfl⟩ := Option.map_eq_some_iff.mp h
  obtain ⟨resolved', hm, rfl⟩ := Option.map_eq_some_iff.mp h'
  suffices hsame : resolved = resolved' by rw [hsame]
  unfold resolvedSpecs at hn hm
  cases hparse : parseSpecs rj files oasSpecs with
  | error x =>
    rw [hparse] at hn hm
    exact Option.some.inj (hn.symm.trans hm)
  | ok doc =>
    rw [hparse] at hn hm
    exact resolveReferences_det hn hm

/-- With a text that parses, what counts is how the references of the document are resolved. -/
theorem behaves_parsed_iff {files : Bytes → Option Bytes} {oasSpecs : Bytes} {doc : Json}
    (hparse : parseSpecs rj files oasSpecs = .ok doc) (order : Hashing) (methodMap : MethodMap) :
    (∃ fuel r, construct rj order files fuel oasSpecs methodMap = some r ∧ Behaves r) ↔
      ∃ fuel, ((∃ x, resolveReferences fuel [] doc = some (.error x) ∧ Reported x) ∨
        ∃ resolved, resolveReferences fuel [] doc = some (.ok resolved) ∧
          Settled (documentDemands resolved)) := by
  have hconstruct : ∀ fuel, construct rj order files fuel oasSpecs methodMap =
      (resolveReferences fuel [] doc).map (· >>= processDocument rj order methodMap) := by
    intro fuel
    rw [construct, resolvedSpecs, hparse]
  have hsettled := fun resolved =>
    (@processDocument_asks σ rj order methodMap resolved).settled_iff
  simp only [hconstruct, Option.map_eq_some_iff]
  apply exists_congr
  intro fuel
  constructor
  · rintro ⟨-, ⟨resolved, hresolved, rfl⟩, hbehaves⟩
    cases resolved with
    | error x =>
      obtain ⟨imp, himp⟩ | ⟨y, hy, hreported⟩ := hbehaves
      · simp [bind, Except.bind] at himp
      · obtain rfl : x = y := Except.error.inj hy
        exact Or.inl ⟨x, hresolved, hreported⟩
    | ok resolved => exact Or.inr ⟨resolved, hresolved, (hsettled resolved).mp hbehaves⟩
  · rintro (⟨x, hresolved, hreported⟩ | ⟨resolved, hresolved, h⟩)
    · exact ⟨_, ⟨_, hresolved, rfl⟩, Or.inr ⟨x, rfl, hreported⟩⟩
    · exact ⟨_, ⟨_, hresolved, rfl⟩, (hsettled resolved).mpr h⟩

/-- The constructor completes or throws its own exception exactly if the text does not parse, or its
references are resolved up to such an exception, or they are resolved and the first demand that the
document does not meet is one that is reported. -/
theorem construct_behaves_iff (rj : RapidJson σ) (order : Hashing) (files : Bytes → Option Bytes)
    (oasSpecs : Bytes) (methodMap : MethodMap) :
    (∃ fuel r, construct rj order files fuel oasSpecs methodMap = some r ∧ Behaves r) ↔
      (∃ x, parseSpecs rj files oasSpecs = .error x) ∨
      ∃ doc, parseSpecs rj files oasSpecs = .ok doc ∧ ∃ fuel,
        ((∃ x, resolveReferences fuel [] doc = some (.error x) ∧ Reported x) ∨
          ∃ resolved, resolveReferences fuel [] doc = some (.ok resolved) ∧
            Settled (documentDemands resolved)) := by
  cases hparse : parseSpecs rj files oasSpecs with
  | error x =>
    have hconstruct : construct rj order files 0 oasSpecs methodMap = some (.error x) := by
      simp [construct, resolvedSpecs, hparse, bind, Except.bind]
    exact iff_of_true ⟨0, _, hconstruct, Or.inr ⟨x, rfl, parseSpecs_reported hparse⟩⟩
      (Or.inl ⟨x, rfl⟩)
  | ok doc =>
    simp only [reduceCtorEq, exists_false, false_or, Except.ok.injEq, exists_eq_left']
    exact behaves_parsed_iff hparse order methodMap

/-- On a well referenced document, what counts is the document with its references inlined. -/
theorem behaves_inlined_iff {files : Bytes → Option Bytes} {oasSpecs : Bytes} {doc inlined : Json}
    (hparse : parseSpecs rj files oasSpecs = .ok doc) (hwell : WellReferenced doc)
    (hinlined : Inlined doc doc inlined) (order : Hashing) (methodMap : MethodMap) :
    (∃ fuel r, construct rj order files fuel oasSpecs methodMap = some r ∧ Behaves r) ↔
      Settled (documentDemands inlined) := by
  obtain ⟨n, doc', hrun, hown, -⟩ := hwell.ends
  obtain rfl := hinlined.unique hwell.keyed hown hwell.keyed
  rw [behaves_parsed_iff hparse]
  constructor
  · rintro ⟨m, ⟨x, hx, -⟩ | ⟨resolved, hresolved, hsettled⟩⟩
    · exact nomatch resolveReferences_det hrun hx
    · obtain rfl := Except.ok.inj (resolveReferences_det hrun hresolved)
      exact hsettled
  · exact fun hsettled => ⟨n, Or.inr ⟨inlined, hrun, hsettled⟩⟩

end

/-- A path item with parameters for all its operations. -/
def pathItemSpec : Bytes :=
  lit "\x7b\"paths\":\x7b\"/a\":\x7b\"parameters\":[],\"get\":\x7b\x7d\x7d\x7d\x7d"

/-- The name of a member of a path item is looked up among the methods. -/
theorem path_item_parameters_escape : ¬∀ (rj : RapidJson Json) (order : Hashing)
    (files : Bytes → Option Bytes) (oasSpecs : Bytes) (methodMap : MethodMap),
      ∃ fuel r, construct rj order files fuel oasSpecs methodMap = some r ∧ Behaves r := by
  intro h
  have hrun : (construct RapidJson.plain .insertion (fun _ => none) 60 pathItemSpec []).map
      (fun r => r.map fun _ => ()) = some (.error .outOfRange) := by
    decide +kernel
  obtain ⟨r, hr, hmap⟩ := Option.map_eq_some_iff.mp hrun
  obtain ⟨fuel, r', hr', hbehaves⟩ := h RapidJson.plain .insertion (fun _ => none) pathItemSpec []
  obtain rfl := construct_det hr hr'
  obtain ⟨imp, rfl⟩ | ⟨x, rfl, message, rfl⟩ := hbehaves
  · simp [Except.map] at hmap
  · simp [Except.map] at hmap

end OasValidator
