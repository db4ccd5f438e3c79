import OasValidator.Deserializer.Deserialize

/-! Which deserializer a parameter of a specification gets, by its style, its `explode` and its
type. -/

namespace OasValidator

open Library.Table

def getStartChar : ParamStyle → UInt8
  | .LABEL => '.'.toUInt8
  | .MATRIX => ';'.toUInt8
  | _ => 0

def hasNameAtStart (in_ : Bytes) (style : ParamStyle) (explode : Bool) (type : ExtendedType) :
    Bool :=
  match style with
  | .SIMPLE | .LABEL => false
  | .MATRIX | .FORM | .SPACE_DELIM | .PIPE_DELIM | .DEEP_OBJ =>
    (type ≠ .ARRAY && type ≠ .OBJECT) || !explode
  | .CONTENT => in_ = lit "query"

def getArrayItemsSeparator (style : ParamStyle) (explode : Bool) : UInt8 :=
  if explode then
    match style with
    | .LABEL => '.'.toUInt8
    | .MATRIX => ';'.toUInt8
    | .FORM | .SPACE_DELIM | .PIPE_DELIM => ampersand
    | _ => comma
  else
    match style with
    | .SPACE_DELIM => percent
    | .PIPE_DELIM => '|'.toUInt8
    | _ => comma

def hasArrayRunningName (style : ParamStyle) (explode : Bool) : Bool :=
  if explode then
    match style with
    | .MATRIX | .FORM | .SPACE_DELIM | .PIPE_DELIM => true
    | _ => false
  else false

def getObjKVSep (explode : Bool) : UInt8 := if explode then equals else comma

def getObjVKSep (style : ParamStyle) (explode : Bool) : UInt8 :=
  if explode then
    match style with
    | .LABEL => '.'.toUInt8
    | .MATRIX => ';'.toUInt8
    | .FORM | .DEEP_OBJ => ampersand
    | _ => comma
  else comma

def PARAM_STYLE_MAP : List (Bytes × ParamStyle) :=
  [(lit "simple", .SIMPLE), (lit "label", .LABEL), (lit "matrix", .MATRIX), (lit "form", .FORM),
    (lit "spaceDelimited", .SPACE_DELIM), (lit "pipeDelimited", .PIPE_DELIM),
    (lit "deepObject", .DEEP_OBJ), (lit "content", .CONTENT)]

def PRIMITIVE_TYPE_MAP : List (Bytes × PrimitiveType) :=
  [(lit "boolean", .BOOLEAN), (lit "integer", .INTEGER), (lit "number", .NUMBER),
    (lit "string", .STRING)]

def EXTENDED_TYPE_MAP : List (Bytes × ExtendedType) :=
  [(lit "boolean", .BOOLEAN), (lit "integer", .INTEGER), (lit "number", .NUMBER),
    (lit "string", .STRING), (lit "array", .ARRAY), (lit "object", .OBJECT)]

/-- `map.at(key)`. -/
def tableAt {ν : Type} (t : List (Bytes × ν)) (key : Bytes) : Except InitError ν :=
  match t.lookup key with
  | some v => .ok v
  | none => .error .outOfRange

theorem tableAt_eq_ok {ν : Type} {t : List (Bytes × ν)} {key : Bytes} {v : ν}
    (h : tableAt t key = .ok v) : t.lookup key = some v := by
  unfold tableAt at h
  split at h
  · rename_i w hw
    rw [hw, Except.ok.inj h]
  · simp at h

/-- The loop over the declared properties. -/
def ktMapOf (refKeys : List Bytes) : List (Bytes × Json) → ObjKTMap → Except InitError ObjKTMap
  | [], ktMap => .ok ktMap
  | (propKey, propValue) :: rest, ktMap => do
    let propName := cstr propKey
    if ← propValue.hasMember (lit "type") then
      let propType ← (← propValue.get (lit "type")).getString
      match PRIMITIVE_TYPE_MAP.lookup propType with
      | some type => ktMapOf refKeys rest (emplace ([quote] ++ propName ++ [quote]) type ktMap)
      | none =>
        throw (.validatorInitExc (lit "Type '" ++ propType ++ lit "' of property '" ++ propName ++
          lit "' of parameter '" ++ joinReference refKeys ++ lit "' is not supported"))
    else
      throw (.validatorInitExc (lit "Type id missing for property '" ++ propName ++
        lit "' of parameter '" ++ joinReference refKeys ++ lit "'"))

def getKTMap (paramVal : Json) (refKeys : List Bytes) : Except InitError ObjKTMap := do
  let properties ← (← (← paramVal.get (lit "schema")).get (lit "properties")).getObject
  ktMapOf refKeys properties []

/-- The deserializer of an array, by the type of its items. -/
def getArrayDeserializer (base : BaseDeserializer) (schema : Json) (style : ParamStyle)
    (explode : Bool) (refKeys : List Bytes) : Except InitError ArrayDeserializer := do
  let noItems : InitError := .validatorInitExc (lit "Array parameter '" ++ joinReference refKeys ++
    lit "' does not have type of items")
  if ← schema.hasMember (lit "items") then
    let items ← schema.get (lit "items")
    if ← items.hasMember (lit "type") then
      let itemsType ← (← items.get (lit "type")).getString
      match PRIMITIVE_TYPE_MAP.lookup itemsType with
      | some type =>
        pure
          { toBaseDeserializer := base
            itemsType := type
            separator := getArrayItemsSeparator style explode
            hasRunningName := hasArrayRunningName style explode
            has20Separator := style = .SPACE_DELIM && !explode }
      | none =>
        throw (.validatorInitExc (lit "Type '" ++ itemsType ++ lit "' of items of array parameter '" ++
          joinReference refKeys ++ lit "' is not supported"))
    else throw noItems
  else throw noItems

/-- Whether there is a `schema` with a `type`. -/
def hasSchemaType (paramVal : Json) : Except InitError Bool := do
  if ← paramVal.hasMember (lit "schema") then
    (← paramVal.get (lit "schema")).hasMember (lit "type")
  else pure false

/-- The deserializer for a schema with a type. -/
def getTypedDeserializer (paramVal : Json) (paramName in_ : Bytes) (style : ParamStyle)
    (explode : Bool) (refKeys : List Bytes) : Except InitError Deserializer := do
  let schema ← paramVal.get (lit "schema")
  let typeName ← (← schema.get (lit "type")).getString
  let type ← tableAt EXTENDED_TYPE_MAP typeName
  let base : BaseDeserializer :=
    ⟨paramName, getStartChar style, hasNameAtStart in_ style explode type⟩
  match type with
  | .BOOLEAN => pure (.primitive { toBaseDeserializer := base, paramType := .BOOLEAN })
  | .INTEGER => pure (.primitive { toBaseDeserializer := base, paramType := .INTEGER })
  | .NUMBER => pure (.primitive { toBaseDeserializer := base, paramType := .NUMBER })
  | .STRING => pure (.primitive { toBaseDeserializer := base, paramType := .STRING })
  | .ARRAY => return .array (← getArrayDeserializer base schema style explode refKeys)
  | .OBJECT =>
    let ktMap ← getKTMap paramVal refKeys
    pure (.object
      { toBaseDeserializer := base
        kvSeparator := getObjKVSep explode
        vkSeparator := getObjVKSep style explode
        isDeepObj := style = .DEEP_OBJ
        ktMap := ktMap })

def getDeserializer (paramVal : Json) (defaultStyle : Bytes) (defaultExplode : Bool)
    (refKeys : List Bytes) : Except InitError Deserializer := do
  let paramName ← (← paramVal.get (lit "name")).getString
  let in_ ← (← paramVal.get (lit "in")).getString
  let explode ← paramVal.optional (lit "explode") Json.getBool defaultExplode
  let styleName ← paramVal.optional (lit "style") Json.getString defaultStyle
  let style ← tableAt PARAM_STYLE_MAP styleName
  if ← hasSchemaType paramVal then
    getTypedDeserializer paramVal paramName in_ style explode refKeys
  else if ← paramVal.hasMember (lit "content") then
    pure (.content
      { paramName, start := getStartChar style,
        skipName := hasNameAtStart in_ .CONTENT explode .OBJECT })
  else
    throw (.validatorInitExc (lit "Invalid type of parameter: " ++ joinReference refKeys))

/-- The separators of an object deserializer are those of its style. -/
theorem getDeserializer_object {paramVal : Json} {defaultStyle : Bytes} {defaultExplode : Bool}
    {refKeys : List Bytes} {o : ObjectDeserializer}
    (h : getDeserializer paramVal defaultStyle defaultExplode refKeys = .ok (.object o)) :
    ∃ style explode, o.start = getStartChar style ∧ o.kvSeparator = getObjKVSep explode ∧
      o.vkSeparator = getObjVKSep style explode ∧ o.isDeepObj = decide (style = .DEEP_OBJ) := by
  simp only [getDeserializer, bind_eq_ok_iff] at h
  obtain ⟨_, -, paramName, -, _, -, in_, -, explode, -, _, -, style, -, _, -, h⟩ := h
  split at h
  · simp only [getTypedDeserializer, bind_eq_ok_iff] at h
    obtain ⟨schema, -, _, -, _, -, type, -, h⟩ := h
    cases type with
    | BOOLEAN => simp [pure, Except.pure] at h
    | INTEGER => simp [pure, Except.pure] at h
    | NUMBER => simp [pure, Except.pure] at h
    | STRING => simp [pure, Except.pure] at h
    | ARRAY => simp [bind_eq_ok_iff, pure, Except.pure] at h
    | OBJECT =>
      obtain ⟨ktMap, -, h⟩ := bind_eq_ok_iff.mp h
      obtain rfl := Deserializer.object.inj (Except.ok.inj h)
      exact ⟨style, explode, rfl, rfl, rfl, rfl⟩
  · obtain ⟨hasContent, -, h⟩ := bind_eq_ok_iff.mp h
    split at h
    · simp [pure, Except.pure] at h
    · simp [throw, throwThe, MonadExceptOf.throw] at h

/-- A deserializer is for the parameter's name, with the start character of a style. -/
theorem getDeserializer_base {paramVal : Json} {defaultStyle : Bytes} {defaultExplode : Bool}
    {refKeys : List Bytes} {d : Deserializer}
    (h : getDeserializer paramVal defaultStyle defaultExplode refKeys = .ok d) :
    (∃ v, paramVal.get (lit "name") = .ok v ∧ v.getString = .ok d.toBase.paramName) ∧
      ∃ style, d.toBase.start = getStartChar style := by
  simp only [getDeserializer, bind_eq_ok_iff] at h
  obtain ⟨v, hv, paramName, hname, _, -, in_, -, explode, -, _, -, style, -, _, -, h⟩ := h
  suffices hbase : d.toBase.paramName = paramName ∧ d.toBase.start = getStartChar style by
    exact ⟨⟨v, hv, hbase.1 ▸ hname⟩, style, hbase.2⟩
  split at h
  · simp only [getTypedDeserializer, bind_eq_ok_iff] at h
    obtain ⟨schema, -, _, -, _, -, type, -, h⟩ := h
    cases type with
    | ARRAY =>
      simp only [getArrayDeserializer, bind_eq_ok_iff] at h
      obtain ⟨a, ⟨hasItems, -, ha⟩, h⟩ := h
      obtain rfl := Except.ok.inj h
      split at ha
      · simp only [bind_eq_ok_iff] at ha
        obtain ⟨items, -, hasType, -, ha⟩ := ha
        split at ha
        · simp only [bind_eq_ok_iff] at ha
          obtain ⟨_, -, typeName, -, ha⟩ := ha
          split at ha
          · obtain rfl := Except.ok.inj ha
            exact ⟨rfl, rfl⟩
          · simp [throw, throwThe, MonadExceptOf.throw] at ha
        · simp [throw, throwThe, MonadExceptOf.throw] at ha
      · simp [throw, throwThe, MonadExceptOf.throw] at ha
    | OBJECT =>
      obtain ⟨ktMap, -, h⟩ := bind_eq_ok_iff.mp h
      obtain rfl := Except.ok.inj h
      exact ⟨rfl, rfl⟩
    | _ =>
      obtain rfl := Except.ok.inj h
      exact ⟨rfl, rfl⟩
  · obtain ⟨hasContent, -, h⟩ := bind_eq_ok_iff.mp h
    split at h
    · obtain rfl := Except.ok.inj h
      exact ⟨rfl, rfl⟩
    · simp [throw, throwThe, MonadExceptOf.throw] at h

/-- No separator between members is a hexadecimal digit. -/
theorem getObjVKSep_not_hex (style : ParamStyle) (explode : Bool) :
    kHexLookupTable (getObjVKSep style explode) < 0 := by
  cases explode <;> cases style <;> decide

end OasValidator
