import AntaresBroker.Patch

namespace AntaresBroker.JsonLd.Instance

open Fallible Json Text Ql.Eval Expiry Model SortedMap Number
open Patch (RESERVED_MEMBERS)

def ATTR_TYPES : List String := [
  "Property", "Relationship", "GeoProperty", "LanguageProperty", "JsonProperty", "VocabProperty", "ListProperty",
  "ListRelationship"]

def GEO_TYPES : List String := ["Point", "MultiPoint", "LineString", "MultiLineString", "Polygon", "MultiPolygon"]

/-- The members only responses and notifications have. -/
def OUTPUT_ONLY : List String := [
  "entity", "entityList", "previousValue", "previousObject", "previousLanguageMap", "previousJson", "previousVocab",
  "previousValueList", "previousObjectList"]

/-- The members that carry a value, and the types they belong to. -/
def VALUE_OWNERS : List (String × List String) := [
  ("value", ["Property", "GeoProperty"]), ("object", ["Relationship"]), ("languageMap", ["LanguageProperty"]),
  ("json", ["JsonProperty"]), ("vocab", ["VocabProperty"]), ("valueList", ["ListProperty"]),
  ("objectList", ["ListRelationship"])]

/-- What the expansion of an instance takes from libraries: the reading of a text as
JSON, and the printing of a number and of a quoted string. -/
structure Texts where
  from_str : String → Option Value
  display : F64 → String
  debug : String → String

def bad (name text : String) : ExpandError := .Instance s!"attribute {name}: {text}"

section Nulls

/-- A null, or a list with one in it. -/
def nullish (v : Value) : Bool := is_ngsi_null v || v.as_array.any (fun a => a.any is_ngsi_null)

mutual
/-- Some key of an object within the value has the null for its value. -/
def has_object_member_null : Value → Bool
  | .object m => member_null_in m
  | .array a => item_null_in a
  | .null => false
  | .bool _ => false
  | .number _ => false
  | .string _ => false
termination_by structural v => v
def item_null_in : List Value → Bool
  | [] => false
  | v :: a => has_object_member_null v || item_null_in a
termination_by structural a => a
def member_null_in : Map → Bool
  | [] => false
  | p :: m => member_is_null p || member_null_in m
termination_by structural m => m
def member_is_null : String × Value → Bool
  | (_, v) => is_ngsi_null v || has_object_member_null v
termination_by structural p => p
end

def check_value_nulls (name : String) (v : Value) (opts : ExpandOpts) : Except ExpandError Unit :=
  if !opts.allow_null && nullish v then
    .error (bad name "the NGSI-LD Null is only allowed in partial update or merge inputs (5.2.1)")
  else if !opts.merge && has_object_member_null v then
    .error (bad name "\"urn:ngsi-ld:null\" inside a compound value is only allowed in merge fragments (5.5.4)")
  else .ok ()

end Nulls

section Geometries

variable (texts : Texts)

def degrees (neg : Bool) (n : Nat) : F64 := ofDecimal (integer neg n)

def within_degrees (n : Nat) (x : F64) : Bool := num_cmp x .Ge (degrees true n) && num_cmp x .Le (degrees false n)

def finite_f64 (v : Value) : Option F64 := v.as_f64.filter (fun x => x.mag < Binary64.infBits)

def check_position (p : Value) : Except String Unit :=
  match p with
  | .array a =>
      if a.length < 2 then .error s!"position has {a.length} elements (minimum 2)"
      else match a.map finite_f64 with
        | some lon :: some lat :: rest =>
            if rest.any (fun c => c.isNone) then .error "position holds a value that is not a number"
            else if !within_degrees 180 lon || !within_degrees 90 lat then
              .error s!"position [{texts.display lon}, {texts.display lat}] is outside the WGS84 range [-180 -90, 180 90]"
            else .ok ()
        | _ => .error "position holds a value that is not a number"
  | _ => .error "position is not an array"

def check_line (v : Value) : Except String Unit :=
  match v with
  | .array a =>
      if a.length < 2 then .error s!"LineString has {a.length} positions (minimum 2)"
      else a.forM (check_position texts)
  | _ => .error "LineString is not an array"

def check_ring (v : Value) : Except String Unit :=
  match v with
  | .array a =>
      if a.length < 4 then .error s!"linear ring has {a.length} positions (minimum 4)"
      else if a.head? ≠ a.getLast? then .error "linear ring is not closed (first != last position)"
      else a.forM (check_position texts)
  | _ => .error "linear ring is not an array"

def each (v : Value) (what : String) (f : Value → Except String Unit) : Except String Unit :=
  match v with
  | .array a => a.forM f
  | _ => .error s!"{what} is not an array"

def check_geometry (gtype : String) (coords : Value) : Except String Unit :=
  if gtype = "Point" then check_position texts coords
  else if gtype = "MultiPoint" then each coords "MultiPoint coordinates" (check_position texts)
  else if gtype = "LineString" then check_line texts coords
  else if gtype = "MultiLineString" then each coords "MultiLineString coordinates" (check_line texts)
  else if gtype = "Polygon" then each coords "Polygon coordinates" (check_ring texts)
  else if gtype = "MultiPolygon" then
    each coords "MultiPolygon coordinates" (fun p => each p "MultiPolygon polygon" (check_ring texts))
  else .error s!"{gtype} is not a supported GeoJSON geometry type"

def validate_geojson (name : String) (v : Value) : Except ExpandError Unit :=
  match (v.get "type").bind Value.as_str, v.get "coordinates" with
  | some t, some coords =>
      if GEO_TYPES.contains t then (check_geometry texts t coords).mapError (bad name)
      else .error (bad name "value is not a valid GeoJSON geometry")
  | _, _ => .error (bad name "value is not a valid GeoJSON geometry")

end Geometries

section Members

variable {Instant : Type} [LinearOrder Instant] (x : Expander Instant) (texts : Texts)

def expand_term (name member : String) (v : Value) : Except ExpandError Value :=
  match v with
  | .string s => .ok (.string (x.ctx.expand_key s))
  | _ => .error (bad name s!"invalid {member}")

def expand_terms (name member : String) (v : Value) : Except ExpandError Value :=
  match v with
  | .array a => (a.mapM (expand_term x name member)).map .array
  | v => expand_term x name member v

/-- A dataset that is to be set; `@none` stands for none. -/
def dataset_id_member (d : Value) : Except String (Option Value) :=
  match d with
  | .string s =>
      if s = NGSI_NULL then .error "a datasetId cannot be set or deleted via \"urn:ngsi-ld:null\" (5.5.8)"
      else if s = "@none" then .ok none
      else if valid_id s then .ok (some (.string s))
      else .error "datasetId must be a URI"
  | _ => .error "datasetId must be a URI"

def looks_like_instance (v : Value) : Bool :=
  v.as_object.any (fun o =>
    ((o.lookup "type").bind Value.as_str).any ATTR_TYPES.contains ||
      ["value", "object", "languageMap", "vocab", "json", "valueList", "objectList"].any (fun k => (o.lookup k).isSome))

/-- How an object states an attribute: by its type, as a bare geometry, or as a whole value. -/
inductive Form
  | Typed (attr_type : String)
  | Geo
  | Whole
deriving DecidableEq

def is_geometry (v : Value) : Bool :=
  ((v.get "type").bind Value.as_str).any GEO_TYPES.contains && (v.get "coordinates").isSome

/-- The type that the members of an object infer. -/
def inferred (o : Map) : Form :=
  if (o.lookup "object").isSome then .Typed "Relationship"
  else if (o.lookup "languageMap").isSome then .Typed "LanguageProperty"
  else if (o.lookup "vocab").isSome then .Typed "VocabProperty"
  else if (o.lookup "json").isSome then .Typed "JsonProperty"
  else if (o.lookup "valueList").isSome then .Typed "ListProperty"
  else if (o.lookup "objectList").isSome then .Typed "ListRelationship"
  else match o.lookup "value" with
    | some v => if is_geometry v then .Typed "GeoProperty" else .Typed "Property"
    | none => .Whole

/-- The form of an object, `none` for a type that is none. -/
def form_of (o : Map) : Option Form :=
  match (o.lookup "type").bind Value.as_str with
  | some t =>
      if ATTR_TYPES.contains t then some (.Typed t)
      else if GEO_TYPES.contains t && (o.lookup "coordinates").isSome then some .Geo
      else none
  | none => some (inferred o)

def sealed_ok (name attr_type : String) : Bool := attr_type = "Property" && name = "ngsildproof"

def unitless (attr_type : String) : Bool :=
  ["Relationship", "ListRelationship", "LanguageProperty", "VocabProperty", "JsonProperty"].contains attr_type

/-- A member of the proof that is a plain string. -/
def copy_sealed (name k : String) (f : String → String) (o out : Map) : Except ExpandError Map :=
  match o.lookup k with
  | some (.string s) => .ok (insert k (.string (f s)) out)
  | some _ => .error (bad name s!"{k} must be a string (4.5.2.2)")
  | none => .ok out

def check_proof (name : String) (o : Map) (opts : ExpandOpts) (out : Map) : Except ExpandError Map :=
  (copy_sealed name "entityIdSealed" id o out).bind fun out =>
  (copy_sealed name "entityTypeSealed" x.ctx.expand_key o out).bind fun out =>
  if (o.lookup "value").any (fun v => !v.is_object && !(opts.allow_null && is_ngsi_null v)) then
    .error (bad name "ngsildproof value shall be an object containing the W3C proof structure (4.5.2.2)")
  else .ok out

/-- The members of other types, of responses and of the proof are refused; those of the proof are copied. -/
def check_prohibited_members (name : String) (o : Map) (attr_type : String) (opts : ExpandOpts) (out : Map) :
    Except ExpandError Map :=
  match VALUE_OWNERS.find? (fun m => (o.lookup m.1).isSome && !m.2.contains attr_type) with
  | some m => .error (bad name s!"{m.1} is not allowed on a {attr_type} (4.5.2.2)")
  | none =>
  match OUTPUT_ONLY.find? (fun m => (o.lookup m).isSome) with
  | some m => .error (bad name s!"{m} is output-only and not allowed in input (4.5.2.2)")
  | none =>
  if !sealed_ok name attr_type && ((o.lookup "entityIdSealed").isSome || (o.lookup "entityTypeSealed").isSome) then
    .error (bad name "entityIdSealed/entityTypeSealed are only allowed on the ngsildproof Property (4.5.2.2, 4.5.3.2)")
  else
    (if sealed_ok name attr_type then check_proof x name o opts out else .ok out).bind fun out =>
    if (o.lookup "unitCode").isSome && unitless attr_type then .error (bad name s!"unitCode is not allowed on a {attr_type}")
    else .ok out

/-- An entry of a list of relationships: a URI, or an object with a URI. -/
def list_entry (it : Value) : Option String :=
  match it with
  | .string s => some s
  | .object [(k, .string s)] => if k = "object" then some s else none
  | _ => none

def list_uri (name : String) (it : Value) : Except ExpandError Value :=
  match list_entry it with
  | none => .error (bad name "objectList entries must be URIs or \x7b\"object\": <URI>\x7d objects")
  | some uri => if valid_id uri then .ok (.string uri) else .error (bad name "objectList entry is not a URI")

def language_value (v : Value) : Bool := v.is_string || v.as_array.any (fun a => a.all Value.is_string)

def language_map (lm : Value) : Bool := lm.as_object.any (fun m => m.all (fun p => p.1 ≠ "" && language_value p.2))

def json_shape (j : Value) : Bool := j.is_object || j.as_array.any (fun a => a.all Value.is_object)

def is_uri (v : Value) : Bool := v.as_str.any valid_id

/-- The value member of each type: what is missing, and what is kept of it. -/
def property_value (name : String) (v : Value) : Except ExpandError Value :=
  if v = .null then .error (bad name "JSON null is not a valid value (use \"urn:ngsi-ld:null\")") else .ok v

/-- A geometry may come as the text of one. -/
def geometry_of (name : String) (opts : ExpandOpts) (v : Value) : Except ExpandError Value :=
  if opts.allow_null && is_ngsi_null v then .ok v
  else match v with
    | .string s => (texts.from_str s).elim (.error (bad name "string-encoded geometry is not valid JSON")) .ok
    | v => .ok v

def geo_value (name : String) (opts : ExpandOpts) (v : Value) : Except ExpandError Value :=
  (geometry_of texts name opts v).bind fun v =>
  if opts.allow_null && is_ngsi_null v then .ok v else (validate_geojson texts name v).map fun _ => v

def relationship_object (name : String) (opts : ExpandOpts) (v : Value) : Except ExpandError Value :=
  match v with
  | .string _ =>
      if (opts.allow_null && is_ngsi_null v) || is_uri v then .ok v else .error (bad name "object must be a URI")
  | .array (a :: items) =>
      match (a :: items).find? (fun s => !is_uri s) with
      | some s => .error (bad name (if s.is_string then "object must be a URI" else "object entries must be URIs"))
      | none => .ok v
  | _ => .error (bad name "invalid object")

def language_property (name : String) (opts : ExpandOpts) (v : Value) : Except ExpandError Value :=
  if (if is_ngsi_null_langmap v then opts.allow_null else language_map v) then .ok v
  else .error (bad name "invalid languageMap")

def json_property (name : String) (opts : ExpandOpts) (v : Value) : Except ExpandError Value :=
  if json_shape v || (opts.allow_null && is_ngsi_null v) then .ok v
  else .error (bad name "json must be an object or array of objects")

def list_property (name : String) (opts : ExpandOpts) (v : Value) : Except ExpandError Value :=
  if v.is_array || (opts.allow_null && is_ngsi_null v) then .ok v else .error (bad name "valueList must be an array")

def list_relationship (name : String) (opts : ExpandOpts) (v : Value) : Except ExpandError Value :=
  if opts.allow_null && is_ngsi_null_list v then .ok v
  else match v with
    | .array items => (items.mapM (list_uri name)).map .array
    | _ => .error (bad name "objectList must be an array")

/-- The member that a type requires. -/
def value_member (attr_type : String) : String :=
  if attr_type = "Relationship" then "object"
  else if attr_type = "LanguageProperty" then "languageMap"
  else if attr_type = "JsonProperty" then "json"
  else if attr_type = "VocabProperty" then "vocab"
  else if attr_type = "ListProperty" then "valueList"
  else if attr_type = "ListRelationship" then "objectList"
  else "value"

def missing (attr_type : String) : String :=
  if ["Property", "GeoProperty", "Relationship"].contains attr_type then s!"{attr_type} needs {value_member attr_type}"
  else s!"needs {value_member attr_type}"

def typed_value (name attr_type : String) (opts : ExpandOpts) (v : Value) : Except ExpandError Value :=
  if attr_type = "Property" then property_value name v
  else if attr_type = "GeoProperty" then geo_value texts name opts v
  else if attr_type = "Relationship" then relationship_object name opts v
  else if attr_type = "LanguageProperty" then language_property name opts v
  else if attr_type = "JsonProperty" then json_property name opts v
  else if attr_type = "VocabProperty" then expand_terms x name "vocab" v
  else if attr_type = "ListProperty" then list_property name opts v
  else if attr_type = "ListRelationship" then list_relationship name opts v
  else .error (.Instance s!"attribute type {attr_type} has no expansion arm")

def required_member (name attr_type : String) (o : Map) (opts : ExpandOpts) (out : Map) : Except ExpandError Map :=
  match o.lookup (value_member attr_type) with
  | none => .error (bad name (missing attr_type))
  | some v => (typed_value x texts name attr_type opts v).map fun v => insert (value_member attr_type) v out

/-- An optional member, kept as it is read. -/
def common_member (k : String) (read : Value → Except ExpandError (Option Value)) (o out : Map) : Except ExpandError Map :=
  match o.lookup k with
  | none => .ok out
  | some v => (read v).map fun v => Expander.put k v out

def date_time (name k : String) (v : Value) : Except ExpandError (Option Value) :=
  if v.as_str.any (fun s => parse_datetime x.chrono s.toList) then .ok (some v) else .error (bad name s!"invalid {k}")

def text_member (name text : String) (f : String → Except ExpandError Value) (v : Value) : Except ExpandError (Option Value) :=
  match v with
  | .string s => (f s).map some
  | _ => .error (bad name text)

def value_type (name attr_type s : String) : Except ExpandError Value :=
  if attr_type = "LanguageProperty" then
    if s = "langString" then .ok (.string s)
    else .error (bad name "valueType shall be \"langString\" on a LanguageProperty")
  else .ok (.string (x.ctx.expand_key s))

def expand_common_members (name : String) (o : Map) (attr_type : String) (opts : ExpandOpts) (out : Map) :
    Except ExpandError Map :=
  (common_member "datasetId" (fun v => (dataset_id_member v).mapError (bad name)) o out).bind fun out =>
  (common_member "observedAt" (date_time x name "observedAt") o out).bind fun out =>
  (common_member "expiresAt" (date_time x name "expiresAt") o out).bind fun out =>
  let out := ["createdAt", "modifiedAt", "deletedAt"].foldl (fun out k => Expander.put k (x.sys_member o opts k) out) out
  (common_member "unitCode" (text_member name "unitCode must be a string" (fun s => .ok (.string s))) o out).bind fun out =>
  (common_member "valueType" (text_member name "valueType must be a string" (value_type x name attr_type)) o out).bind fun out =>
  (common_member "lang" (text_member name "lang must be a language tag" (fun s => .ok (.string s))) o out).bind fun out =>
  common_member "objectType" (fun v => (expand_terms x name "objectType" v).map some) o out

/-- The expansion of a value that is no object, and of an object as a whole. -/
def concise (name attr_type : String) (v : Value) (opts : ExpandOpts) : Except ExpandError Value :=
  (check_value_nulls name v opts).map fun _ => .object [("type", .string attr_type), ("value", v)]

def expand_prim (name : String) (v : Value) (opts : ExpandOpts) : Except ExpandError Value :=
  if is_ngsi_null v then
    if opts.allow_null then .ok (.object [("type", .string "Property"), ("value", .string NGSI_NULL)])
    else .error (bad name "null is not allowed here")
  else concise name "Property" v opts

/-- A sub-attribute is added under its IRI, which no other member of the instance has. -/
def add_sub (name : String) (out : Map) (q : String × Except ExpandError (List Value)) : Except ExpandError Map :=
  if q.1 = "@context" then .error (bad name "embedded @context is not allowed (4.5.1/5.5.7)")
  else if RESERVED_MEMBERS.contains q.1 then .ok out
  else if q.1 = "" then .error (bad name "empty sub-attribute name")
  else
    (x.expand_attr_name q.1).bind fun iri =>
    q.2.bind fun instances =>
    if (out.lookup iri).isSome then
      .error (bad name s!"sub-attribute {q.1} expands to {iri}, which another member already defines (4.5.5.1)")
    else .ok (insert iri (.array instances) out)

/-- Where no null is allowed, none is kept in a value member. -/
def check_member_nulls (name : String) (opts : ExpandOpts) (out : Map) : Except ExpandError Unit :=
  if !opts.allow_null && (["value", "object", "vocab", "valueList", "objectList"].any (fun k => (out.lookup k).any nullish) ||
      ((out.lookup "languageMap").bind Value.as_object).any (fun m => m.any (fun p => nullish p.2))) then
    .error (bad name "the NGSI-LD Null is only allowed in partial update or merge inputs (5.2.1)")
  else if !opts.merge && (out.lookup "value").any has_object_member_null then
    .error (bad name "\"urn:ngsi-ld:null\" inside a compound value is only allowed in merge fragments (5.5.4)")
  else .ok ()

def type_text (o : Map) : String := ((o.lookup "type").bind Value.as_str).getD ""

/-- An object as an instance of its type, its sub-attributes expanded before. -/
def expand_object (name : String) (o : Map) (opts : ExpandOpts) (subs : List (String × Except ExpandError (List Value))) :
    Except ExpandError Value :=
  match form_of o with
  | none => .error (bad name s!"invalid attribute type {texts.debug (type_text o)}")
  | some .Whole => concise name "Property" (.object o) opts
  | some .Geo => (check_value_nulls name (.object o) opts).bind fun _ =>
      (validate_geojson texts name (.object o)).map fun _ => .object [("type", .string "GeoProperty"), ("value", .object o)]
  | some (.Typed attr_type) =>
      (check_prohibited_members x name o attr_type opts [("type", .string attr_type)]).bind fun out =>
      (required_member x texts name attr_type o opts out).bind fun out =>
      (expand_common_members x name o attr_type opts out).bind fun out =>
      (subs.foldlM (add_sub x name) out).bind fun out =>
      (check_member_nulls name opts out).map fun _ => .object out

/-- The depth and the name of an attribute. -/
def check_name (name : String) (depth : Nat) : Except ExpandError Unit :=
  if 8 < depth then .error (bad name "nesting too deep")
  else if !x.valid_name name then .error (.Instance s!"attribute name {texts.debug name} violates the 4.6.2 name grammar")
  else .ok ()

mutual
def expand_attribute (opts : ExpandOpts) (depth : Nat) (name : String) : Value → Except ExpandError (List Value)
  | .array items => (check_name x texts name depth).bind fun _ =>
      if items.all looks_like_instance && !items.isEmpty then expand_items opts depth name items
      else (expand_prim name (.array items) opts).map ([·])
  | .object o => (check_name x texts name depth).bind fun _ =>
      (expand_object x texts name o opts (expand_members opts (depth + 1) o)).map ([·])
  | .null => (check_name x texts name depth).bind fun _ => (expand_prim name .null opts).map ([·])
  | .bool b => (check_name x texts name depth).bind fun _ => (expand_prim name (.bool b) opts).map ([·])
  | .number n => (check_name x texts name depth).bind fun _ => (expand_prim name (.number n) opts).map ([·])
  | .string s => (check_name x texts name depth).bind fun _ => (expand_prim name (.string s) opts).map ([·])
termination_by structural v => v
def expand_items (opts : ExpandOpts) (depth : Nat) (name : String) : List Value → Except ExpandError (List Value)
  | [] => .ok []
  | item :: items => (expand_instance opts depth name item).bind fun inst => (expand_items opts depth name items).map (inst :: ·)
termination_by structural items => items
def expand_instance (opts : ExpandOpts) (depth : Nat) (name : String) : Value → Except ExpandError Value
  | .object o => expand_object x texts name o opts (expand_members opts (depth + 1) o)
  | .null => expand_prim name .null opts
  | .bool b => expand_prim name (.bool b) opts
  | .number n => expand_prim name (.number n) opts
  | .string s => expand_prim name (.string s) opts
  | .array items => expand_prim name (.array items) opts
termination_by structural v => v
def expand_members (opts : ExpandOpts) (depth : Nat) : Map → List (String × Except ExpandError (List Value))
  | [] => []
  | p :: o => expand_member opts depth p :: expand_members opts depth o
termination_by structural o => o
def expand_member (opts : ExpandOpts) (depth : Nat) : String × Value → String × Except ExpandError (List Value)
  | (k, sub) => (k, expand_attribute opts depth k sub)
termination_by structural p => p
end

/-- The expansion of entities with that of their attributes. -/
def expander : Expander Instant :=
  { x with expand_attribute := fun name v opts => expand_attribute x texts opts 0 name v }

end Members

section Specs

variable {Instant : Type} [LinearOrder Instant] {x : Expander Instant} {texts : Texts}
variable {name attr_type : String} {o out out' : Map} {opts : ExpandOpts}

def VALUE_KEYS : List String := ["value", "object", "languageMap", "json", "vocab", "valueList", "objectList"]

/-- The members beside the value of an instance and its sub-attributes. -/
def COMMON_KEYS : List String := [
  "entityIdSealed", "entityTypeSealed", "datasetId", "observedAt", "expiresAt", "createdAt", "modifiedAt", "deletedAt",
  "unitCode", "valueType", "lang", "objectType"]

theorem not_absolute_of_reserved : ∀ k ∈ RESERVED_MEMBERS, is_absolute_iri k = false := by decide

theorem expand_attr_name_ok {key iri : String} (h : x.expand_attr_name key = .ok iri) :
    iri = x.ctx.expand_key key ∧ RESERVED_MEMBERS.contains iri = false := by
  obtain ⟨habs, heq⟩ := ite_error.mp h
  rw [Except.ok.injEq] at heq
  refine ⟨heq.symm, ?_⟩
  rw [heq] at habs
  by_contra hres
  rw [Bool.not_eq_false, List.contains_iff_mem] at hres
  rw [not_absolute_of_reserved iri hres] at habs
  cases habs

theorem copy_sealed_ok {k l : String} {f : String → String} (h : copy_sealed name k f o out = .ok out') (hl : l ≠ k) :
    out'.lookup l = out.lookup l := by
  unfold copy_sealed at h
  split at h
  · cases h
    rw [lookup_insert, if_neg hl]
  · cases h
  · cases h
    rfl

theorem check_proof_ok {l : String} (h : check_proof x name o opts out = .ok out') (hl : l ∉ COMMON_KEYS) :
    out'.lookup l = out.lookup l := by
  obtain ⟨out₁, h₁, h⟩ := bind_eq_ok.mp h
  obtain ⟨out₂, h₂, h⟩ := bind_eq_ok.mp h
  obtain ⟨-, h⟩ := ite_ok.mp h
  cases h
  have hid : l ≠ "entityIdSealed" := by rintro rfl; exact hl (by decide)
  have htype : l ≠ "entityTypeSealed" := by rintro rfl; exact hl (by decide)
  rw [copy_sealed_ok h₂ htype, copy_sealed_ok h₁ hid]

/-- A value member of another type is refused; no value and no sub-attribute is added. -/
theorem prohibited_ok (h : check_prohibited_members x name o attr_type opts out = .ok out') :
    (∀ m ∈ VALUE_OWNERS, (o.lookup m.1).isSome = true → m.2.contains attr_type = true) ∧
      ∀ l ∉ COMMON_KEYS, out'.lookup l = out.lookup l := by
  unfold check_prohibited_members at h
  split at h
  · cases h
  · rename_i hnone
    constructor
    · intro m hm hsome
      have hfound := List.find?_eq_none.mp hnone m hm
      simpa [hsome] using hfound
    · intro l hl
      split at h
      · cases h
      · obtain ⟨out₁, h₁, h⟩ := bind_eq_ok.mp (ite_ok.mp h).2
        obtain ⟨-, h⟩ := ite_ok.mp h
        cases h
        split at h₁
        · exact check_proof_ok h₁ hl
        · cases h₁
          rfl

theorem common_member_ok {k l : String} {read : Value → Except ExpandError (Option Value)}
    (h : common_member k read o out = .ok out') (hl : l ≠ k) : out'.lookup l = out.lookup l := by
  unfold common_member at h
  split at h
  · cases h
    rfl
  · obtain ⟨v, -, rfl⟩ := map_eq_ok.mp h
    rw [Expander.lookup_put, if_neg hl]

/-- No value and no sub-attribute is among the common members. -/
theorem common_ok (h : expand_common_members x name o attr_type opts out = .ok out') {l : String} (hl : l ∉ COMMON_KEYS) :
    out'.lookup l = out.lookup l := by
  have hne {k : String} (hk : k ∈ COMMON_KEYS) : l ≠ k := by
    rintro rfl
    exact hl hk
  obtain ⟨out₁, h₁, h⟩ := bind_eq_ok.mp h
  obtain ⟨out₂, h₂, h⟩ := bind_eq_ok.mp h
  obtain ⟨out₃, h₃, h⟩ := bind_eq_ok.mp h
  obtain ⟨out₄, h₄, h⟩ := bind_eq_ok.mp h
  obtain ⟨out₅, h₅, h⟩ := bind_eq_ok.mp h
  obtain ⟨out₆, h₆, h⟩ := bind_eq_ok.mp h
  rw [common_member_ok h (hne (by decide)), common_member_ok h₆ (hne (by decide)), common_member_ok h₅ (hne (by decide)),
    common_member_ok h₄ (hne (by decide))]
  simp only [List.foldl_cons, List.foldl_nil, Expander.lookup_put]
  rw [if_neg (hne (by decide)), if_neg (hne (by decide)), if_neg (hne (by decide)), common_member_ok h₃ (hne (by decide)),
    common_member_ok h₂ (hne (by decide)), common_member_ok h₁ (hne (by decide))]

variable {subs : List (String × Except ExpandError (List Value))}

/-- The sub-attributes are added under their IRIs, and nothing else is. -/
theorem foldlM_add_sub (h : subs.foldlM (add_sub x name) out = .ok out') :
    (∀ l v, out.lookup l = some v → out'.lookup l = some v) ∧
      (∀ q ∈ subs, RESERVED_MEMBERS.contains q.1 = false →
        ∃ iri insts, x.expand_attr_name q.1 = .ok iri ∧ q.2 = .ok insts ∧ out'.lookup iri = some (.array insts)) ∧
      ∀ l v, out'.lookup l = some v → out.lookup l = some v ∨
        ∃ q ∈ subs, RESERVED_MEMBERS.contains q.1 = false ∧
          ∃ insts, x.expand_attr_name q.1 = .ok l ∧ q.2 = .ok insts ∧ v = .array insts := by
  induction subs generalizing out with
  | nil =>
      cases h
      exact ⟨fun _ _ hk => hk, List.forall_mem_nil _, fun _ _ hk => Or.inl hk⟩
  | cons q subs ih =>
      rw [List.foldlM_cons] at h
      obtain ⟨next, hnext, h⟩ := bind_eq_ok.mp h
      obtain ⟨hkeep, hadd, hfrom⟩ := ih h
      have hlater {l : String} {v : Value} (hn : next.lookup l = some v ∨ ∃ q' ∈ subs, RESERVED_MEMBERS.contains q'.1 = false ∧
          ∃ insts, x.expand_attr_name q'.1 = .ok l ∧ q'.2 = .ok insts ∧ v = .array insts) (hout : next.lookup l = some v →
          out.lookup l = some v ∨ ∃ q' ∈ q :: subs, RESERVED_MEMBERS.contains q'.1 = false ∧
          ∃ insts, x.expand_attr_name q'.1 = .ok l ∧ q'.2 = .ok insts ∧ v = .array insts) :
          out.lookup l = some v ∨ ∃ q' ∈ q :: subs, RESERVED_MEMBERS.contains q'.1 = false ∧
          ∃ insts, x.expand_attr_name q'.1 = .ok l ∧ q'.2 = .ok insts ∧ v = .array insts := by
        rcases hn with hn | ⟨q', hq', hfound⟩
        · exact hout hn
        · exact Or.inr ⟨q', List.mem_cons_of_mem _ hq', hfound⟩
      obtain ⟨-, hnext⟩ := ite_ok.mp hnext
      by_cases hres : RESERVED_MEMBERS.contains q.1 = true
      · rw [if_pos hres] at hnext
        cases hnext
        refine ⟨hkeep, ?_, fun l v hl => hlater (hfrom l v hl) Or.inl⟩
        intro q' hq' hnot
        rcases List.mem_cons.mp hq' with rfl | hq'
        · rw [hres] at hnot
          cases hnot
        · exact hadd q' hq' hnot
      · rw [if_neg hres] at hnext
        obtain ⟨iri, hiri, hnext⟩ := bind_eq_ok.mp (ite_ok.mp hnext).2
        obtain ⟨insts, hinsts, hnext⟩ := bind_eq_ok.mp hnext
        obtain ⟨hnew, hnext⟩ := ite_ok.mp hnext
        cases hnext
        have hnone : out.lookup iri = none := Option.not_isSome_iff_eq_none.mp hnew
        have hq : RESERVED_MEMBERS.contains q.1 = false := Bool.not_eq_true _ ▸ hres
        refine ⟨?_, ?_, fun l v hl => hlater (hfrom l v hl) fun hl => ?_⟩
        · intro l v hl
          apply hkeep
          rw [lookup_insert, if_neg, hl]
          rintro rfl
          rw [hnone] at hl
          cases hl
        · intro q' hq' hnot
          rcases List.mem_cons.mp hq' with rfl | hq'
          · exact ⟨iri, insts, hiri, hinsts, hkeep _ _ (by rw [lookup_insert, if_pos rfl])⟩
          · exact hadd q' hq' hnot
        · rw [lookup_insert] at hl
          split_ifs at hl with heq
          · cases hl
            exact Or.inr ⟨q, List.mem_cons_self, hq, insts, heq ▸ hiri, hinsts, rfl⟩
          · exact Or.inl hl

/-- What an instance of a type is made of. -/
structure Expanded (x : Expander Instant) (texts : Texts) (name attr_type : String) (o : Map) (opts : ExpandOpts)
    (subs : List (String × Except ExpandError (List Value))) (out : Map) : Prop where
  value : ∃ v v', o.lookup (value_member attr_type) = some v ∧ typed_value x texts name attr_type opts v = .ok v' ∧
    ∀ k ∈ VALUE_KEYS, out.lookup k = if k = value_member attr_type then some v' else none
  owned : ∀ k ∈ VALUE_KEYS, (o.lookup k).isSome = true → k = value_member attr_type
  sub : ∀ q ∈ subs, RESERVED_MEMBERS.contains q.1 = false →
    ∃ iri insts, x.expand_attr_name q.1 = .ok iri ∧ q.2 = .ok insts ∧ out.lookup iri = some (.array insts)
  only : ∀ l v, RESERVED_MEMBERS.contains l = false → out.lookup l = some v →
    ∃ q ∈ subs, RESERVED_MEMBERS.contains q.1 = false ∧
      ∃ insts, x.expand_attr_name q.1 = .ok l ∧ q.2 = .ok insts ∧ v = .array insts
  nulls : check_member_nulls name opts out = .ok ()

theorem value_member_mem (attr_type : String) : value_member attr_type ∈ VALUE_KEYS := by
  unfold value_member
  split_ifs <;> decide

theorem owned_value {attr_type : String} (htype : ATTR_TYPES.contains attr_type = true) :
    ∀ m ∈ VALUE_OWNERS, m.2.contains attr_type = true → m.1 = value_member attr_type := by
  rw [List.contains_iff_mem] at htype
  have hall : ∀ t ∈ ATTR_TYPES, ∀ m ∈ VALUE_OWNERS, m.2.contains t = true → m.1 = value_member t := by decide
  exact hall attr_type htype

theorem attr_type_of_form {t : String} (h : form_of o = some (.Typed t)) : ATTR_TYPES.contains t = true := by
  unfold form_of at h
  split at h
  · split_ifs at h with htype hgeo
    · cases h
      exact htype
    · cases h
  · unfold inferred at h
    simp only [Option.some.injEq] at h
    split_ifs at h <;> first
      | (cases h; decide)
      | (split at h
         · split_ifs at h <;> (cases h; decide)
         · cases h)

theorem expand_object_typed (hform : form_of o = some (.Typed attr_type)) {inst : Value}
    (h : expand_object x texts name o opts subs = .ok inst) :
    ∃ out, inst = .object out ∧ Expanded x texts name attr_type o opts subs out := by
  rw [expand_object, hform] at h
  obtain ⟨out₁, h₁, h⟩ := bind_eq_ok.mp h
  obtain ⟨out₂, h₂, h⟩ := bind_eq_ok.mp h
  obtain ⟨out₃, h₃, h⟩ := bind_eq_ok.mp h
  obtain ⟨out, h₄, h⟩ := bind_eq_ok.mp h
  obtain ⟨_, hnulls, rfl⟩ := map_eq_ok.mp h
  obtain ⟨howned, hsealed⟩ := prohibited_ok h₁
  obtain ⟨hkeep, hadd, hfrom⟩ := foldlM_add_sub h₄
  unfold required_member at h₂
  split at h₂
  · cases h₂
  · rename_i v hv
    obtain ⟨v', hv', rfl⟩ := map_eq_ok.mp h₂
    have hbefore {l : String} (hl : l ∉ COMMON_KEYS) :
        out₃.lookup l = if l = value_member attr_type then some v' else if l = "type" then some (.string attr_type) else none := by
      rw [common_ok h₃ hl, lookup_insert, hsealed l hl, lookup_cons, List.lookup_nil]
    have hkeys : ∀ k ∈ VALUE_KEYS, k ∉ COMMON_KEYS ∧ k ≠ "type" ∧ RESERVED_MEMBERS.contains k = true := by decide
    have hcommon : ∀ k ∈ "type" :: COMMON_KEYS, RESERVED_MEMBERS.contains k = true := by decide
    refine ⟨out, rfl, ⟨v, v', hv, hv', ?_⟩, ?_, hadd, ?_, hnulls⟩
    · intro k hk
      obtain ⟨hnot, htype, hres⟩ := hkeys k hk
      cases hout : out.lookup k with
      | some w =>
          rcases hfrom k w hout with hw | ⟨q, -, -, insts, hiri, -⟩
          · rw [hbefore hnot, if_neg htype] at hw
            exact hw.symm
          · rw [(expand_attr_name_ok hiri).2] at hres
            cases hres
      | none =>
          split_ifs with heq
          · have hw := hkeep k v' (by rw [hbefore hnot, if_pos heq])
            rw [hout] at hw
            cases hw
          · rfl
    · intro k hk hsome
      have hmem : ∀ k ∈ VALUE_KEYS, ∃ m ∈ VALUE_OWNERS, m.1 = k := by decide
      obtain ⟨m, hm, rfl⟩ := hmem k hk
      exact owned_value (attr_type_of_form hform) m hm (howned m hm hsome)
    · intro l w hl hw
      rcases hfrom l w hw with hw | hfound
      · have hnot : l ∉ COMMON_KEYS := fun hc => by
          rw [hcommon l (List.mem_cons_of_mem _ hc)] at hl
          cases hl
        have hvalue : l ≠ value_member attr_type := by
          rintro rfl
          rw [(hkeys _ (value_member_mem attr_type)).2.2] at hl
          cases hl
        have htype : l ≠ "type" := by
          rintro rfl
          rw [hcommon "type" List.mem_cons_self] at hl
          cases hl
        rw [hbefore hnot, if_neg hvalue, if_neg htype] at hw
        cases hw
      · exact hfound

theorem sorted_put {k : String} {v : Option Value} (h : Sorted out) : Sorted (Expander.put k v out) := by
  cases v with
  | none => exact h
  | some v => exact sorted_insert k v h

theorem copy_sealed_sorted {k : String} {f : String → String} (hout : Sorted out) (h : copy_sealed name k f o out = .ok out') :
    Sorted out' := by
  unfold copy_sealed at h
  split at h <;> cases h
  · exact sorted_insert _ _ hout
  · exact hout

theorem prohibited_sorted (hout : Sorted out) (h : check_prohibited_members x name o attr_type opts out = .ok out') :
    Sorted out' := by
  unfold check_prohibited_members at h
  split at h
  · cases h
  · split at h
    · cases h
    · obtain ⟨out₁, h₁, h⟩ := bind_eq_ok.mp (ite_ok.mp h).2
      obtain ⟨-, h⟩ := ite_ok.mp h
      cases h
      split at h₁
      · obtain ⟨out₂, h₂, h₁⟩ := bind_eq_ok.mp h₁
        obtain ⟨out₃, h₃, h₁⟩ := bind_eq_ok.mp h₁
        obtain ⟨-, h₁⟩ := ite_ok.mp h₁
        cases h₁
        exact copy_sealed_sorted (copy_sealed_sorted hout h₂) h₃
      · cases h₁
        exact hout

theorem common_member_sorted {k : String} {read : Value → Except ExpandError (Option Value)} (hout : Sorted out)
    (h : common_member k read o out = .ok out') : Sorted out' := by
  unfold common_member at h
  split at h
  · cases h
    exact hout
  · obtain ⟨v, -, rfl⟩ := map_eq_ok.mp h
    exact sorted_put hout

theorem common_sorted (hout : Sorted out) (h : expand_common_members x name o attr_type opts out = .ok out') : Sorted out' := by
  obtain ⟨out₁, h₁, h⟩ := bind_eq_ok.mp h
  obtain ⟨out₂, h₂, h⟩ := bind_eq_ok.mp h
  obtain ⟨out₃, h₃, h⟩ := bind_eq_ok.mp h
  obtain ⟨out₄, h₄, h⟩ := bind_eq_ok.mp h
  obtain ⟨out₅, h₅, h⟩ := bind_eq_ok.mp h
  obtain ⟨out₆, h₆, h⟩ := bind_eq_ok.mp h
  have hthree := common_member_sorted (common_member_sorted (common_member_sorted hout h₁) h₂) h₃
  exact common_member_sorted (common_member_sorted (common_member_sorted (common_member_sorted
    (sorted_put (sorted_put (sorted_put hthree))) h₄) h₅) h₆) h

theorem foldlM_add_sub_sorted (hout : Sorted out) (h : subs.foldlM (add_sub x name) out = .ok out') : Sorted out' := by
  induction subs generalizing out with
  | nil =>
      cases h
      exact hout
  | cons q subs ih =>
      rw [List.foldlM_cons] at h
      obtain ⟨next, hnext, h⟩ := bind_eq_ok.mp h
      refine ih ?_ h
      obtain ⟨-, hnext⟩ := ite_ok.mp hnext
      by_cases hres : RESERVED_MEMBERS.contains q.1 = true
      · rw [if_pos hres] at hnext
        cases hnext
        exact hout
      · rw [if_neg hres] at hnext
        obtain ⟨iri, -, hnext⟩ := bind_eq_ok.mp (ite_ok.mp hnext).2
        obtain ⟨insts, -, hnext⟩ := bind_eq_ok.mp hnext
        obtain ⟨-, hnext⟩ := ite_ok.mp hnext
        cases hnext
        exact sorted_insert _ _ hout

theorem expand_object_sorted (h : expand_object x texts name o opts subs = .ok (.object out))
    (hform : form_of o = some (.Typed attr_type)) : Sorted out := by
  rw [expand_object, hform] at h
  obtain ⟨out₁, h₁, h⟩ := bind_eq_ok.mp h
  obtain ⟨out₂, h₂, h⟩ := bind_eq_ok.mp h
  obtain ⟨out₃, h₃, h⟩ := bind_eq_ok.mp h
  obtain ⟨out₄, h₄, h⟩ := bind_eq_ok.mp h
  obtain ⟨_, -, heq⟩ := map_eq_ok.mp h
  cases heq
  have hrequired : Sorted out₂ := by
    unfold required_member at h₂
    split at h₂
    · cases h₂
    · obtain ⟨v, -, rfl⟩ := map_eq_ok.mp h₂
      exact sorted_insert _ _ (prohibited_sorted (List.pairwise_singleton _ _) h₁)
  exact foldlM_add_sub_sorted (common_sorted hrequired h₃) h₄

theorem expand_members_eq (opts : ExpandOpts) (depth : Nat) (o : Map) :
    expand_members x texts opts depth o = o.map (fun p => (p.1, expand_attribute x texts opts depth p.1 p.2)) := by
  induction o with
  | nil => rfl
  | cons p o ih =>
      obtain ⟨k, v⟩ := p
      rw [expand_members, ih, List.map_cons, expand_member]

end Specs

end AntaresBroker.JsonLd.Instance
