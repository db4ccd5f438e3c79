import OasValidator.Deserializer.Build

/-! What a parameter of a specification declares, and the deserializer that it gets for this. -/

namespace OasValidator

open Library.Table

/-- The name, place, style and `explode` of a parameter, with the defaults `style0` and `explode0`. -/
structure Declares (paramVal : Json) (style0 : Bytes) (explode0 : Bool) (name in_ : Bytes)
    (style : ParamStyle) (explode : Bool) : Prop where
  name_eq : paramVal.get (lit "name") >>= Json.getString = .ok name
  in_eq : paramVal.get (lit "in") >>= Json.getString = .ok in_
  explode_eq : paramVal.optional (lit "explode") Json.getBool explode0 = .ok explode
  style_eq : paramVal.optional (lit "style") Json.getString style0 >>= tableAt PARAM_STYLE_MAP =
    .ok style

/-- The type of the schema. -/
def schemaType (paramVal : Json) : Except InitError ExtendedType :=
  paramVal.get (lit "schema") >>= (Json.get · (lit "type")) >>= Json.getString >>=
    tableAt EXTENDED_TYPE_MAP

/-- The type of the items of an array. -/
def itemsType (paramVal : Json) : Except InitError PrimitiveType :=
  paramVal.get (lit "schema") >>= (Json.get · (lit "items")) >>= (Json.get · (lit "type")) >>=
    Json.getString >>= tableAt PRIMITIVE_TYPE_MAP

/-- The declared properties of an object. -/
def propertiesOf (paramVal : Json) : Except InitError (List (Bytes × Json)) :=
  paramVal.get (lit "schema") >>= (Json.get · (lit "properties")) >>= Json.getObject

/-- The type of the first of the properties that has this name. -/
def propertyType (name : Bytes) : List (Bytes × Json) → Option PrimitiveType
  | [] => none
  | (propKey, propValue) :: rest =>
    if cstr propKey = name then
      match propValue.get (lit "type") >>= Json.getString with
      | .ok typeName => PRIMITIVE_TYPE_MAP.lookup typeName
      | .error _ => none
    else propertyType name rest

section

variable {paramVal : Json} {style0 : Bytes} {explode0 : Bool} {name in_ : Bytes}
  {style : ParamStyle} {explode : Bool} {refKeys : List Bytes}

theorem getDeserializer_eq (h : Declares paramVal style0 explode0 name in_ style explode)
    (refKeys : List Bytes) :
    getDeserializer paramVal style0 explode0 refKeys = (do
      if ← hasSchemaType paramVal then
        getTypedDeserializer paramVal name in_ style explode refKeys
      else if ← paramVal.hasMember (lit "content") then
        pure (.content
          { paramName := name, start := getStartChar style,
            skipName := hasNameAtStart in_ .CONTENT explode .OBJECT })
      else
        throw (.validatorInitExc (lit "Invalid type of parameter: " ++ joinReference refKeys))) := by
  obtain ⟨nameVal, hname, hname'⟩ := bind_eq_ok_iff.mp h.name_eq
  obtain ⟨inVal, hin, hin'⟩ := bind_eq_ok_iff.mp h.in_eq
  obtain ⟨styleName, hstyle, hstyle'⟩ := bind_eq_ok_iff.mp h.style_eq
  simp only [getDeserializer, hname, hname', hin, hin', h.explode_eq, hstyle, hstyle', bind,
    Except.bind]

/-- A deserializer that is not that of a content is the one for the type of the schema. -/
theorem getTypedDeserializer_of_ok (h : Declares paramVal style0 explode0 name in_ style explode)
    {d : Deserializer} (hd : getDeserializer paramVal style0 explode0 refKeys = .ok d)
    (hcontent : ∀ c, d ≠ .content c) :
    getTypedDeserializer paramVal name in_ style explode refKeys = .ok d := by
  rw [getDeserializer_eq h] at hd
  obtain ⟨hasType, -, hd⟩ := bind_eq_ok_iff.mp hd
  split at hd
  · exact hd
  · obtain ⟨hasContent, -, hd⟩ := bind_eq_ok_iff.mp hd
    split at hd
    · exact absurd (Except.ok.inj hd).symm (hcontent _)
    · simp [throw, throwThe, MonadExceptOf.throw] at hd

/-- What a deserializer has in common with all others for its style. -/
def baseOf (name in_ : Bytes) (style : ParamStyle) (explode : Bool) (type : ExtendedType) :
    BaseDeserializer :=
  ⟨name, getStartChar style, hasNameAtStart in_ style explode type⟩

theorem getDeserializer_primitive (h : Declares paramVal style0 explode0 name in_ style explode)
    {p : PrimitiveDeserializer}
    (hd : getDeserializer paramVal style0 explode0 refKeys = .ok (.primitive p)) :
    ∃ type, type ≠ .ARRAY ∧ type ≠ .OBJECT ∧ schemaType paramVal = .ok type ∧
      p.toBaseDeserializer = baseOf name in_ style explode type := by
  have htyped := getTypedDeserializer_of_ok h hd (by simp)
  simp only [getTypedDeserializer, bind_eq_ok_iff] at htyped
  obtain ⟨schema, hschema, typeVal, htypeVal, typeName, htypeName, type, htype, htyped⟩ := htyped
  have hread : schemaType paramVal = .ok type := by
    simp only [schemaType, bind_eq_ok_iff]
    exact ⟨typeName, ⟨typeVal, ⟨schema, hschema, htypeVal⟩, htypeName⟩, htype⟩
  cases type with
  | BOOLEAN =>
    obtain rfl := Deserializer.primitive.inj (Except.ok.inj htyped)
    exact ⟨_, by simp, by simp, hread, rfl⟩
  | INTEGER =>
    obtain rfl := Deserializer.primitive.inj (Except.ok.inj htyped)
    exact ⟨_, by simp, by simp, hread, rfl⟩
  | NUMBER =>
    obtain rfl := Deserializer.primitive.inj (Except.ok.inj htyped)
    exact ⟨_, by simp, by simp, hread, rfl⟩
  | STRING =>
    obtain rfl := Deserializer.primitive.inj (Except.ok.inj htyped)
    exact ⟨_, by simp, by simp, hread, rfl⟩
  | ARRAY => simp [bind_eq_ok_iff, pure, Except.pure] at htyped
  | OBJECT => simp [bind_eq_ok_iff, pure, Except.pure] at htyped

theorem getDeserializer_array (h : Declares paramVal style0 explode0 name in_ style explode)
    {a : ArrayDeserializer}
    (hd : getDeserializer paramVal style0 explode0 refKeys = .ok (.array a)) :
    itemsType paramVal = .ok a.itemsType ∧
      a = { toBaseDeserializer := baseOf name in_ style explode .ARRAY
            itemsType := a.itemsType
            separator := getArrayItemsSeparator style explode
            hasRunningName := hasArrayRunningName style explode
            has20Separator := style = .SPACE_DELIM && !explode } := by
  have htyped := getTypedDeserializer_of_ok h hd (by simp)
  simp only [getTypedDeserializer, bind_eq_ok_iff] at htyped
  obtain ⟨schema, hschema, _, -, _, -, type, -, htyped⟩ := htyped
  cases type with
  | BOOLEAN => simp [pure, Except.pure] at htyped
  | INTEGER => simp [pure, Except.pure] at htyped
  | NUMBER => simp [pure, Except.pure] at htyped
  | STRING => simp [pure, Except.pure] at htyped
  | OBJECT => simp [bind_eq_ok_iff, pure, Except.pure] at htyped
  | ARRAY =>
    obtain ⟨a', ha, htyped⟩ := bind_eq_ok_iff.mp htyped
    obtain rfl := Deserializer.array.inj (Except.ok.inj htyped)
    obtain ⟨has, -, ha⟩ := bind_eq_ok_iff.mp ha
    split at ha
    · obtain ⟨items, hitems, ha⟩ := bind_eq_ok_iff.mp ha
      obtain ⟨hasType, -, ha⟩ := bind_eq_ok_iff.mp ha
      split at ha
      · obtain ⟨typeVal, htypeVal, ha⟩ := bind_eq_ok_iff.mp ha
        obtain ⟨typeName, htypeName, ha⟩ := bind_eq_ok_iff.mp ha
        split at ha
        · rename_i type htype
          obtain rfl := Except.ok.inj ha
          refine ⟨?_, rfl⟩
          simp only [itemsType, bind_eq_ok_iff]
          exact ⟨typeName, ⟨typeVal, ⟨items, ⟨schema, hschema, hitems⟩, htypeVal⟩, htypeName⟩,
            by simp [tableAt, htype]⟩
        · simp [throw, throwThe, MonadExceptOf.throw] at ha
      · simp [throw, throwThe, MonadExceptOf.throw] at ha
    · simp [throw, throwThe, MonadExceptOf.throw] at ha

/-- The table of a list of properties has the type of each. -/
theorem ktMapOf_lookup {properties : List (Bytes × Json)} {ktMap ktMap' : ObjKTMap}
    (h : ktMapOf refKeys properties ktMap = .ok ktMap') (key : Bytes) :
    ktMap'.lookup ([quote] ++ key ++ [quote]) =
      (ktMap.lookup ([quote] ++ key ++ [quote])).or (propertyType key properties) := by
  induction properties generalizing ktMap with
  | nil =>
    obtain rfl := Except.ok.inj h
    simp [propertyType]
  | cons p rest ih =>
    obtain ⟨propKey, propValue⟩ := p
    simp only [ktMapOf] at h
    obtain ⟨hasType, -, h⟩ := bind_eq_ok_iff.mp h
    split at h
    · obtain ⟨typeVal, htypeVal, h⟩ := bind_eq_ok_iff.mp h
      obtain ⟨typeName, htypeName, h⟩ := bind_eq_ok_iff.mp h
      split at h
      · rename_i type htype
        rw [ih h, lookup_emplace]
        have hread : (propValue.get (lit "type") >>= Json.getString) = .ok typeName := by
          simp [htypeVal, htypeName, bind, Except.bind]
        by_cases hkey : cstr propKey = key
        · subst hkey
          simp only [propertyType, if_true, hread, htype]
          by_cases hmem : ([quote] ++ cstr propKey ++ [quote]) ∈ keys ktMap
          · obtain ⟨v, hv⟩ := exists_lookup hmem
            simp only [hmem, hv, decide_true, Bool.not_true, Bool.and_false, Bool.false_eq_true,
              if_false, Option.some_or]
          · rw [lookup_eq_none_iff.mpr hmem]
            simp only [hmem, decide_false, Bool.not_false, Bool.and_true, beq_self_eq_true, if_true,
              Option.some_or, Option.none_or]
        · have hne : ([quote] ++ key ++ [quote]) ≠ [quote] ++ cstr propKey ++ [quote] := by
            intro e
            exact hkey (by simpa using e.symm)
          rw [propertyType, if_neg hkey, beq_false_of_ne hne, Bool.false_and]
          rfl
      · simp [throw, throwThe, MonadExceptOf.throw] at h
    · simp [throw, throwThe, MonadExceptOf.throw] at h

theorem getDeserializer_objectOf (h : Declares paramVal style0 explode0 name in_ style explode)
    {o : ObjectDeserializer}
    (hd : getDeserializer paramVal style0 explode0 refKeys = .ok (.object o)) :
    ∃ properties, propertiesOf paramVal = .ok properties ∧
      (∀ key, o.ktMap.lookup ([quote] ++ key ++ [quote]) = propertyType key properties) ∧
      o.toBaseDeserializer = baseOf name in_ style explode .OBJECT ∧
      o.kvSeparator = getObjKVSep explode ∧ o.vkSeparator = getObjVKSep style explode ∧
      o.isDeepObj = decide (style = .DEEP_OBJ) := by
  have htyped := getTypedDeserializer_of_ok h hd (by simp)
  simp only [getTypedDeserializer, bind_eq_ok_iff] at htyped
  obtain ⟨schema, hschema, _, -, _, -, type, -, htyped⟩ := htyped
  cases type with
  | BOOLEAN => simp [pure, Except.pure] at htyped
  | INTEGER => simp [pure, Except.pure] at htyped
  | NUMBER => simp [pure, Except.pure] at htyped
  | STRING => simp [pure, Except.pure] at htyped
  | ARRAY => simp [bind_eq_ok_iff, pure, Except.pure] at htyped
  | OBJECT =>
    obtain ⟨ktMap, hktMap, htyped⟩ := bind_eq_ok_iff.mp htyped
    obtain rfl := Deserializer.object.inj (Except.ok.inj htyped)
    simp only [getKTMap, bind_eq_ok_iff] at hktMap
    obtain ⟨s, hs, propVal, hpropVal, properties, hproperties, hktMap⟩ := hktMap
    refine ⟨properties, ?_, fun key => ?_, rfl, rfl, rfl, rfl⟩
    · simp only [propertiesOf, bind_eq_ok_iff]
      exact ⟨propVal, ⟨s, hs, hpropVal⟩, hproperties⟩
    · simpa using ktMapOf_lookup hktMap key

end

end OasValidator
