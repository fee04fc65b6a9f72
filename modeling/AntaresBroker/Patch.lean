import AntaresBroker.Expand
import AntaresBroker.Merge
import AntaresBroker.Temporal

namespace AntaresBroker.Patch

open Json JsonLd Merge

/-- The members of an instance that are no sub-attribute. -/
def RESERVED_MEMBERS : List String := [
  "type", "value", "object", "objectType", "datasetId", "observedAt", "unitCode", "lang", "languageMap", "vocab",
  "json", "valueList", "objectList", "entity", "entityList", "entityIdSealed", "entityTypeSealed", "valueType",
  "createdAt", "modifiedAt", "deletedAt", "expiresAt", "instanceId", "previousValue", "previousObject",
  "previousLanguageMap", "previousJson", "previousVocab", "previousValueList", "previousObjectList"]

/-- The stamps of what a write brings in. -/
def stamp (ts : String) (o : Map) : Map :=
  SortedMap.insert "modifiedAt" (.string ts) (SortedMap.insert "createdAt" (.string ts) o)

mutual
def stamp_instances (ts : String) : Value → Value
  | .array arr => .array (stamp_items ts arr)
  | .null => .null
  | .bool b => .bool b
  | .number n => .number n
  | .string s => .string s
  | .object o => .object o
termination_by structural v => v
def stamp_items (ts : String) : List Value → List Value
  | [] => []
  | inst :: arr => stamp_instance ts inst :: stamp_items ts arr
termination_by structural arr => arr
def stamp_instance (ts : String) : Value → Value
  -- the stamps are no arrays, so they may as well be set after the sub-attributes
  | .object o => .object (stamp ts (stamp_subs ts o))
  | .null => .null
  | .bool b => .bool b
  | .number n => .number n
  | .string s => .string s
  | .array arr => .array arr
termination_by structural v => v
def stamp_subs (ts : String) : Map → Map
  | [] => []
  | p :: o => stamp_sub ts p :: stamp_subs ts o
termination_by structural o => o
def stamp_sub (ts : String) : String × Value → String × Value
  | (k, sub) => (k, if RESERVED_MEMBERS.contains k then sub else stamp_instances ts sub)
termination_by structural p => p
end

def stamp_new (ts : String) (doc : Map) : Map :=
  (stamp ts doc).map (fun p => (p.1, if Temporal.is_meta p.1 then p.2 else stamp_instances ts p.2))

def is_null (v : Value) : Bool := v = .null || is_ngsi_null v

mutual
/-- A merge patch over a compound value. -/
def merge_value_object (target : Map) : Map → Map
  | [] => target
  | p :: patch => merge_value_object (merge_value_member target p) patch
termination_by structural patch => patch
def merge_value_member (target : Map) : String × Value → Map
  | (k, v) => merge_value target k v
termination_by structural p => p
def merge_value (target : Map) (k : String) : Value → Map
  | .object po =>
      match target.lookup k with
      | some (.object cur) => SortedMap.insert k (.object (merge_value_object cur po)) target
      | _ => SortedMap.insert k (.object po) target
  | .null => SortedMap.erase k target
  | .string s => if is_null (.string s) then SortedMap.erase k target else SortedMap.insert k (.string s) target
  | .bool b => SortedMap.insert k (.bool b) target
  | .number n => SortedMap.insert k (.number n) target
  | .array a => SortedMap.insert k (.array a) target
termination_by structural v => v
end

def merge_member (t : Map) (p : String × Value) : Map :=
  if p.1 = "createdAt" ∨ p.1 = "modifiedAt" then t
  else merge_value t p.1 p.2

def merge_instance (ts : String) (target frag : Value) : Value :=
  match target, frag with
  | .object t, .object f => .object (SortedMap.insert "modifiedAt" (.string ts) (f.foldl merge_member t))
  | target, _ => target

def stamped (ts : String) : Value → Value
  | .object o => .object (stamp ts o)
  | v => v

/-- An instance of the fragment merges into that of its dataset, or joins the others. -/
def patch_instance (ts : String) (fi : Value) : List Value → List Value
  | [] => [stamped ts fi]
  | ci :: cur => if dataset_id ci = dataset_id fi then merge_instance ts ci fi :: cur else ci :: patch_instance ts fi cur

def same_dataset (ni ci : Value) : Bool := dataset_id ci = dataset_id ni

def apply_instance (ts : String) (cur : List Value) (fi : Value) : List Value :=
  if is_deletion_instance fi then cur.eraseP (same_dataset fi) else patch_instance ts fi cur

/-- Types that are not there yet. -/
def union_values (cur new : List Value) : List Value := new.foldl (fun cur t => if t ∈ cur then cur else cur ++ [t]) cur

def items_of (target : Map) (k : String) : List Value := ((target.lookup k).bind Value.as_array).getD []

def merge_attr (ts : String) (target : Map) (p : String × Value) : Map :=
  if p.1 = "id" ∨ p.1 = "createdAt" ∨ p.1 = "modifiedAt" then target
  else if p.1 = "type" then
    SortedMap.insert "type" (.array (union_values (items_of target "type") (p.2.as_array.getD []))) target
  else if p.1 = "scope" then
    if is_ngsi_null_list p.2 then SortedMap.erase "scope" target else SortedMap.insert "scope" p.2 target
  else if p.1 = "expiresAt" then
    if is_ngsi_null p.2 then SortedMap.erase "expiresAt" target else SortedMap.insert "expiresAt" p.2 target
  else
    let cur := (p.2.as_array.getD []).foldl (apply_instance ts) (items_of target p.1)
    if cur = [] then SortedMap.erase p.1 target else SortedMap.insert p.1 (.array cur) target

/-- A merge patch over a stored entity. -/
def merge_into (ts : String) (doc : Value) (frag : Map) : Value :=
  match doc with
  | .object target => .object (SortedMap.insert "modifiedAt" (.string ts) (frag.foldl (merge_attr ts) target))
  | doc => doc

/-- The members of a fragment that are no attribute. -/
def is_fragment_meta (k : String) : Bool := ["id", "type", "scope", "createdAt", "modifiedAt"].contains k

/-- What an overwritten instance keeps. -/
def overwrite (ci ni : Value) : Value :=
  match ni, ci.get "createdAt" with
  | .object o, some c => .object (SortedMap.insert "createdAt" c o)
  | ni, _ => ni

def replace_instance (ni : Value) : List Value → List Value
  | [] => []
  | ci :: cur => if same_dataset ni ci then overwrite ci ni :: cur else ci :: replace_instance ni cur

/-- One instance of an append, and whether one has been applied. -/
def set_instance (no_overwrite : Bool) (r : List Value × Bool) (ni : Value) : List Value × Bool :=
  if is_deletion_instance ni then
    if r.1.any (same_dataset ni) then (r.1.eraseP (same_dataset ni), true) else r
  else if r.1.any (same_dataset ni) then
    if no_overwrite then r else (replace_instance ni r.1, true)
  else (r.1 ++ [ni], true)

def merge_instance_sets (existing incoming : Value) (no_overwrite : Bool) : Value × Bool :=
  match existing, incoming with
  | .array cur, .array inc =>
      let r := inc.foldl (set_instance no_overwrite) (cur, false)
      (.array r.1, r.2)
  | existing, _ => (existing, false)

/-- What an append has made of the entity, what it updated and what it could not. -/
structure Appended where
  target : Map
  updated : List String
  not_updated : List String

def append_types (frag : Map) (a : Appended) : Appended :=
  match (frag.lookup "type").bind Value.as_array with
  | none => a
  | some new_types =>
      let cur := union_values (items_of a.target "type") new_types
      if (items_of a.target "type").length < cur.length then
        { a with target := SortedMap.insert "type" (.array cur) a.target, updated := a.updated ++ ["type"] }
      else a

def append_scope (no_overwrite : Bool) (frag : Map) (a : Appended) : Appended :=
  match frag.lookup "scope" with
  | none => a
  | some new_scope =>
      if (a.target.lookup "scope").isSome && no_overwrite then
        let cur := union_values (items_of a.target "scope") (new_scope.as_array.getD [])
        if (items_of a.target "scope").length < cur.length then
          { a with target := SortedMap.insert "scope" (.array cur) a.target, updated := a.updated ++ ["scope"] }
        else a
      else { a with target := SortedMap.insert "scope" new_scope a.target, updated := a.updated ++ ["scope"] }

def append_attr (no_overwrite : Bool) (ts : String) (a : Appended) (p : String × Value) : Appended :=
  if is_fragment_meta p.1 then a
  else
    let incoming := stamp_instances ts p.2
    match a.target.lookup p.1 with
    | none => { a with target := SortedMap.insert p.1 incoming a.target, updated := a.updated ++ [p.1] }
    | some existing =>
        let r := merge_instance_sets existing incoming no_overwrite
        let target := SortedMap.insert p.1 r.1 a.target
        if r.2 then { a with target, updated := a.updated ++ [p.1] }
        else { a with target, not_updated := a.not_updated ++ [p.1] }

/-- An append of a fragment; an entity it leaves as it was is not touched. -/
def append_fragment (no_overwrite : Bool) (ts : String) (frag target : Map) : Appended :=
  let a := frag.foldl (append_attr no_overwrite ts) (append_scope no_overwrite frag (append_types frag ⟨target, [], []⟩))
  if a.updated = [] then a else { a with target := SortedMap.insert "modifiedAt" (.string ts) a.target }

end AntaresBroker.Patch
