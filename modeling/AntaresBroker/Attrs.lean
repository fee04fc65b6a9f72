import AntaresBroker.Instance
import AntaresBroker.Placement

namespace AntaresBroker.Attrs

open Fallible Json JsonLd JsonLd.Instance Patch SortedMap Federation Merge
open Ql.Eval Expiry

section Fragments

variable {Instant : Type} [LinearOrder Instant] (x : Expander Instant) (texts : Texts)

/-- What an attribute fragment may not set. -/
def FRAGMENT_SKIPPED : List String := [
  "@context", "createdAt", "modifiedAt", "deletedAt", "instanceId", "entityIdSealed", "entityTypeSealed"]

def FRAGMENT_OPTS : ExpandOpts := { fragment := true, allow_null := true }

/-- A reserved member of a fragment: `none` where it is left out. -/
def fragment_reserved (k : String) (v : Value) : Except ExpandError (Option Value) :=
  if FRAGMENT_SKIPPED.contains k || OUTPUT_ONLY.contains k then .ok none
  else if k = "type" then
    if v.as_str.any ATTR_TYPES.contains then .ok (some v) else .error (.Instance "invalid attribute type in fragment")
  else if k = "observedAt" ∨ k = "expiresAt" then
    if v.as_str.any (fun s => parse_datetime x.chrono s.toList) then .ok (some v) else .error (.Instance s!"invalid {k} in fragment")
  else if k = "value" then
    if v = .null then .error (.Instance "JSON null is not a valid value")
    else if has_object_member_null v then
      .error (.Instance "\"urn:ngsi-ld:null\" inside a compound value is only allowed in merge fragments (5.5.4)")
    else .ok (some v)
  else if k = "datasetId" then (dataset_id_member v).mapError .Instance
  -- every other reserved member is taken as it stands
  else .ok (some v)

def fragment_member (out : Map) (p : String × Value) : Except ExpandError Map :=
  if p.1 = "@context" ∨ RESERVED_MEMBERS.contains p.1 = true then
    (fragment_reserved x p.1 p.2).map fun v => Expander.put p.1 v out
  else
    (x.expand_attr_name p.1).bind fun iri =>
    (expand_attribute x texts FRAGMENT_OPTS 1 p.1 p.2).bind fun instances =>
    if (out.lookup iri).isSome then
      .error (.Instance s!"sub-attribute {p.1} expands to {iri}, which another member of this fragment already defines (4.5.5.1)")
    else .ok (insert iri (.array instances) out)

/-- The members of an attribute to be patched: no type is inferred. -/
def expand_attr_fragment (o : Map) : Except ExpandError Map := o.foldlM (fragment_member x texts) []

end Fragments

section Writes

/-- A scope is only updated where there is one. -/
def update_scope (frag : Map) (a : Appended) : Appended :=
  match frag.lookup "scope" with
  | none => a
  | some new_scope =>
      if (a.target.lookup "scope").isSome then
        { a with target := insert "scope" new_scope a.target, updated := a.updated ++ ["scope"] }
      else { a with not_updated := a.not_updated ++ ["scope"] }

/-- The instances of an attribute that an update leaves. -/
def update_instances (old : Option Value) (incoming : Value) : Option Value :=
  match old with
  | none =>
      let live := (incoming.as_array.getD []).filter (fun i => !is_deletion_instance i)
      if live.isEmpty then none else some (.array live)
  | some existing =>
      let merged := (merge_instance_sets existing incoming false).1
      if merged = .array [] then none else some merged

/-- The member of a name, or none of it. -/
def set (k : String) (v : Option Value) (m : Map) : Map := v.elim (erase k m) (fun v => insert k v m)

def update_attr (ts : String) (a : Appended) (p : String × Value) : Appended :=
  if is_fragment_meta p.1 then a
  else { a with
    target := set p.1 (update_instances (a.target.lookup p.1) (stamp_instances ts p.2)) a.target
    updated := a.updated ++ [p.1] }

def update_fragment (ts : String) (frag target : Map) : Appended :=
  let a := frag.foldl (update_attr ts) (update_scope frag (append_types frag ⟨target, [], []⟩))
  if a.updated = [] then a else { a with target := insert "modifiedAt" (.string ts) a.target }

end Writes

section Single

inductive AttrsError
  | Expand (e : ExpandError)
  | InvalidFragment
  | EntityNotSelected
  | AttributeNotFound
  | ScopeTarget
  | TypeMismatch (fragment existing : String)
  | NotAnObject
deriving DecidableEq

def SCOPE_IRI : String := "https://uri.etsi.org/ngsi-ld/scope"

/-- The first instance of a dataset, edited. -/
def edit (here : Value → Bool) (f : Value → Value) : List Value → List Value
  | [] => []
  | ci :: cur => if here ci then f ci :: cur else ci :: edit here f cur

def put_instances (iri : String) (cur : List Value) (doc : Map) : Map :=
  set iri (if cur.isEmpty then none else some (.array cur)) doc

def patch_member (t : Map) (p : String × Value) : Map :=
  if p.1 = "createdAt" ∨ p.1 = "modifiedAt" then t
  else if is_null p.2 then erase p.1 t
  else insert p.1 p.2 t

/-- The members of a fragment over those of an instance. -/
def patched (ts : String) (frag t : Map) : Map := insert "modifiedAt" (.string ts) (frag.foldl patch_member t)

def type_of (v : Value) : Option String := (v.get "type").bind Value.as_str

def partial_update (ts iri : String) (frag doc : Map) : Except AttrsError Map :=
  let existing := items_of doc iri
  match existing.find? (same_dataset (.object frag)) with
  | none => .error .AttributeNotFound
  | some ci =>
      if is_deletion_instance (.object frag) then
        .ok (insert "modifiedAt" (.string ts) (put_instances iri (existing.eraseP (same_dataset (.object frag))) doc))
      else match ci with
        | .object t =>
            match type_of (.object frag), type_of ci with
            | some ft, some et =>
                if ft = et then
                  .ok (insert "modifiedAt" (.string ts) (insert iri
                    (.array (edit (same_dataset (.object frag)) (fun _ => .object (patched ts frag t)) existing)) doc))
                else .error (.TypeMismatch ft et)
            | _, _ =>
                .ok (insert "modifiedAt" (.string ts) (insert iri
                  (.array (edit (same_dataset (.object frag)) (fun _ => .object (patched ts frag t)) existing)) doc))
        | _ => .error .NotAnObject

/-- A whole new instance, created when the one it replaces was. -/
def renewed (ts : String) (ni ci : Value) : Value :=
  match ni with
  | .object o => .object (insert "modifiedAt" (.string ts) (insert "createdAt" ((ci.get "createdAt").getD (.string ts)) o))
  | ni => ni

def replace_attr (ts iri : String) (ni : Value) (doc : Map) : Except AttrsError Map :=
  let existing := items_of doc iri
  if existing.any (same_dataset ni) then
    .ok (insert "modifiedAt" (.string ts) (insert iri (.array (edit (same_dataset ni) (renewed ts ni) existing)) doc))
  else .error .AttributeNotFound

def delete_attr (ts iri : String) (dataset : Option String) (delete_all : Bool) (doc : Map) : Except AttrsError Map :=
  if iri = "scope" then
    if (doc.lookup "scope").isSome then .ok (insert "modifiedAt" (.string ts) (erase "scope" doc)) else .error .AttributeNotFound
  else
    let existing := items_of doc iri
    if delete_all then
      if existing.isEmpty then .error .AttributeNotFound else .ok (insert "modifiedAt" (.string ts) (erase iri doc))
    else if existing.any (fun ci => dataset_id ci = dataset) then
      .ok (insert "modifiedAt" (.string ts) (put_instances iri (existing.eraseP (fun ci => dataset_id ci = dataset)) doc))
    else .error .AttributeNotFound

end Single

section Operations

variable {Instant : Type} [LinearOrder Instant] (x : Expander Instant) (texts : Texts)

/-- The requests that write attributes. -/
inductive Operation
  | Update (body : Map)
  | Append (no_overwrite : Bool) (body : Map)
  | PartialUpdate (attr : String) (body : Map)
  | Replace (attr : String) (body : Map)
  | Delete (attr : String) (dataset : Option String) (delete_all : Bool)

/-- What a request meets: the registrations of the target, and the selector of its type. -/
structure Request where
  operation : Operation
  regs : List FedReg
  selected : Map → Bool
  ts : String

/-- The IRI of an attribute that is addressed alone, a scope refused. -/
def target_iri (attr : String) : Except AttrsError String :=
  ((x.expand_attr_name attr).mapError .Expand).bind fun iri =>
  if attr = "scope" ∨ iri = SCOPE_IRI then .error .ScopeTarget else .ok iri

/-- The local half, where no registration holds all that is written. -/
def locally (r : Request) (iris : List String) (doc : Map) (write : Map → Except AttrsError Map) : Except AttrsError Map :=
  if proxies_cover_all r.regs iris then .ok doc
  else if r.selected doc then write doc
  else .error .EntityNotSelected

/-- The entity that a request leaves stored. -/
def perform (r : Request) (doc : Map) : Except AttrsError Map :=
  match r.operation with
  | .Update body =>
      (((expander x texts).expand_entity body { fragment := true, allow_null := true }).mapError .Expand).bind fun frag =>
      locally r (attr_iris_of frag) doc fun doc => .ok (update_fragment r.ts (strip_covered_expanded frag r.regs) doc).target
  | .Append no_overwrite body =>
      (((expander x texts).expand_entity body { fragment := true }).mapError .Expand).bind fun frag =>
      locally r (attr_iris_of frag) doc fun doc => .ok (append_fragment no_overwrite r.ts (strip_covered_expanded frag r.regs) doc).target
  | .PartialUpdate attr body =>
      ((expand_attr_fragment x texts body).mapError .Expand).bind fun frag =>
      (target_iri x attr).bind fun iri =>
      locally r [iri] doc (partial_update r.ts iri frag)
  | .Replace attr body =>
      (target_iri x attr).bind fun iri =>
      (((expander x texts).expand_entity [(attr, .object (erase "@context" body))] { fragment := true }).mapError .Expand).bind fun frag =>
      match (items_of frag iri).head? with
      | none => .error .InvalidFragment
      | some ni => locally r [iri] doc (replace_attr r.ts iri ni)
  | .Delete attr dataset delete_all =>
      (if attr = "scope" then .ok "scope"
        else ((x.expand_attr_name attr).mapError .Expand).map (fun iri => if iri = SCOPE_IRI then "scope" else iri)).bind fun iri =>
      locally r [iri] doc (delete_attr r.ts iri dataset delete_all)

end Operations

end AntaresBroker.Attrs
