import AntaresBroker.Drain
import AntaresBroker.Temporal

namespace AntaresBroker.Evolution

open Json Expiry Temporal

/-- The entity members that are not temporal attributes. -/
def DOC_META : List String := ENTITY_META_KEYS

def text (i : Value) (k : String) : Option String := (i.get k).bind Value.as_str

/-- An instance as the expansion of a request leaves it. -/
def Expanded (v : Value) : Prop :=
  v.is_object = true ∧ (v.get "instanceId" = none ∨ (text v "instanceId").isSome = true)

/-- The expansion of a request: each attribute with at least one instance. -/
structure Fragment where
  members : Map
  sorted : SortedMap.Sorted members
  no_context : members.lookup "@context" = none
  arrays : ∀ p ∈ members, p.1 ∉ DOC_META → ∃ items, p.2 = .array items ∧ items ≠ [] ∧ ∀ v ∈ items, Expanded v

/-- The members of an entity besides its attributes. -/
structure Shell where
  members : Map
  sorted : SortedMap.Sorted members
  only_meta : ∀ p ∈ members, p.1 ∈ DOC_META

/-- The instances recorded for attributes, with the ids the recorder gave them. -/
structure Additions where
  members : Map
  sorted : SortedMap.Sorted members
  arrays : ∀ p ∈ members, p.1 ∉ DOC_META ∧
    ∃ items, p.2 = .array items ∧ items ≠ [] ∧ ∀ v ∈ items, v.is_object = true ∧ (text v "instanceId").isSome = true

abbrev AttrName := { k : String // k ∉ DOC_META }

/-- The identifiers made for a request, for the instances of each attribute in turn. -/
abbrev Uuids := String → Nat → String

section Closures

def stamp_instance (uuid ts : String) : Value → Value
  | .object o =>
      let named := if (o.lookup "instanceId").isSome then o else SortedMap.insert "instanceId" (.string uuid) o
      .object (SortedMap.insert "modifiedAt" (.string ts) (SortedMap.insert "createdAt" (.string ts) named))
  | v => v

def stamp_attr (uuid : Uuids) (ts k : String) (v : Value) : Value :=
  if is_meta k then v
  else match v with
    | .array items => .array (items.mapIdx (fun i v => stamp_instance (uuid k i) ts v))
    | v => v

def stamp_temporal_instances (uuid : Uuids) (ts : String) (doc : Map) : Map :=
  doc.map (fun p => (p.1, stamp_attr uuid ts p.1 p.2))

def merge_key (v : Value) : Option String × Option String := (text v "datasetId", text v "observedAt")

/-- Instances of one dataset observed at one time. -/
def same_instant (c ni : Value) : Bool := merge_key c = merge_key ni && (merge_key ni).2.isSome

def keep_member (had ni : Value) (keep : String) : Value :=
  match had.get keep, ni with
  | some v, .object o => .object (SortedMap.insert keep v o)
  | _, _ => ni

/-- A correction keeps the id and the creation time of the instance it corrects. -/
def corrected (had ni : Value) : Value := ["instanceId", "createdAt"].foldl (keep_member had) ni

def merge_instance (ni : Value) : List Value → List Value
  | [] => [ni]
  | c :: cur => if same_instant c ni then corrected c ni :: cur else c :: merge_instance ni cur

def merge_attr (target : Map) (p : String × Value) : Map :=
  if is_meta p.1 then target
  else match target.lookup p.1 with
    | some (.array cur) =>
        SortedMap.insert p.1 (.array ((items p.2).foldl (fun cur ni => merge_instance ni cur) cur)) target
    | _ => SortedMap.insert p.1 (.array (items p.2)) target

def union_types (expanded target : Map) : Map :=
  match (expanded.lookup "type").bind Value.as_array with
  | none => target
  | some new_types =>
      let cur := ((target.lookup "type").bind Value.as_array).getD []
      SortedMap.insert "type" (.array (new_types.foldl (fun cur t => if t ∈ cur then cur else cur ++ [t]) cur)) target

def touch (ts : String) (target : Map) : Map := SortedMap.insert "modifiedAt" (.string ts) target

def merge_temporal (expanded : Map) (ts : String) (target : Map) : Map :=
  touch ts (expanded.foldl merge_attr (union_types expanded target))

def add_attr (target : Map) (p : String × Value) : Map :=
  if is_meta p.1 then target
  else match target.lookup p.1 with
    | some (.array cur) => SortedMap.insert p.1 (.array (cur ++ items p.2)) target
    | _ => SortedMap.insert p.1 (.array (items p.2)) target

def add_temporal_instances (expanded : Map) (ts : String) (target : Map) : Map := touch ts (expanded.foldl add_attr target)

/-- The instance is replaced but for the members it is known by. -/
def replaced (frag : Map) (ts : String) : Value → Value
  | .object t =>
      let kept := ["createdAt", "instanceId"].foldl (fun o k => (t.lookup k).elim o (fun v => SortedMap.insert k v o)) []
      .object (touch ts (frag.foldl (fun o p =>
        if p.1 = "createdAt" ∨ p.1 = "instanceId" then o else SortedMap.insert p.1 p.2 o) kept))
  | v => v

def replace_first (instance_id : String) (f : Value → Value) : List Value → List Value
  | [] => []
  | i :: arr => if text i "instanceId" = some instance_id then f i :: arr else i :: replace_first instance_id f arr

/-- The change, and whether there was something to change. -/
def modify_instance (attr instance_id : String) (frag : Map) (ts : String) (target : Map) : Map × Bool :=
  match target.lookup attr with
  | some (.array arr) =>
      if arr.any (fun i => text i "instanceId" = some instance_id) then
        (SortedMap.insert attr (.array (replace_first instance_id (replaced frag ts) arr)) target, true)
      else (target, false)
  | _ => (target, false)

/-- Some of the instances go, and the attribute with the last of them. -/
def retain (attr : String) (keep : Value → Bool) (ts : String) (target : Map) : Map × Bool :=
  match target.lookup attr with
  | some (.array arr) =>
      let left := arr.filter keep
      let target := if left = [] then SortedMap.erase attr target else SortedMap.insert attr (.array left) target
      if left.length ≠ arr.length then (touch ts target, true) else (target, false)
  | _ => (target, false)

def delete_instance (attr instance_id ts : String) (target : Map) : Map × Bool :=
  retain attr (fun i => text i "instanceId" ≠ some instance_id) ts target

def delete_attr (attr : String) (delete_all : Bool) (want_ds : Option String) (ts : String) (target : Map) : Map × Bool :=
  let in_datasets := ((target.lookup attr).bind Value.as_array).any (fun a => a.any (fun i => (i.get "datasetId").isSome))
  if delete_all || (want_ds.isNone && !in_datasets) then
    if (target.lookup attr).isSome then (touch ts (SortedMap.erase attr target), true) else (target, false)
  else retain attr (fun i => text i "datasetId" ≠ want_ds) ts target

end Closures

/-- A backend, as the handlers use it for one entity. A failure of the store is `none`. -/
structure Arm (σ Time : Type) where
  get : σ → Time → Bool
  create : σ → Time → Map → Option (σ × Bool)
  mutate : σ → Time → (Map → Map × Bool) → Option (σ × Option Bool)
  delete : σ → Time → σ × Bool
  append : σ → Map → Map → Option σ

inductive Answer
  | created | no_content | entity_not_found | target_not_found | failed
deriving DecidableEq

inductive Operation (Time : Type)
  | upsert (now : Time) (ts : String) (uuid : Uuids) (expanded : Fragment)
  | add (now : Time) (ts : String) (uuid : Uuids) (expanded : Fragment)
  | modify (now : Time) (ts : String) (attr : AttrName) (instance_id : String) (frag : Map)
  | delete_instance (now : Time) (ts : String) (attr : AttrName) (instance_id : String)
  | delete_attr (now : Time) (ts : String) (attr : AttrName) (delete_all : Bool) (want_ds : Option String)
  | delete (now : Time)
  /-- recorded for an entity that is there, or of which the store cannot know -/
  | append (recorded : Bool) (shell : Shell) (additions : Additions)

section Handlers

variable {σ Time : Type} (arm : Arm σ Time)

def answer_write (s : σ) : Option (σ × Option Bool) → σ × Answer
  | none => (s, .failed)
  | some (s, none) => (s, .entity_not_found)
  | some (s, some true) => (s, .no_content)
  | some (s, some false) => (s, .target_not_found)

def upsert_temporal_local (now : Time) (ts : String) (expanded : Map) : Nat → σ → σ × Answer
  | 0, s => (s, .failed)
  | attempts + 1, s =>
      if arm.get s now then
        match arm.mutate s now (fun target => (merge_temporal expanded ts target, true)) with
        | none => (s, .failed)
        | some (s, some _) => (s, .no_content)
        -- deleted between the two
        | some (s, none) => upsert_temporal_local now ts expanded attempts s
      else
        match arm.create s now (touch ts (SortedMap.insert "createdAt" (.string ts) expanded)) with
        | none => (s, .failed)
        | some (s, true) => (s, .created)
        | some (s, false) => upsert_temporal_local now ts expanded attempts s

def execute (s : σ) : Operation Time → σ × Answer
  | .upsert now ts uuid expanded =>
      upsert_temporal_local arm now ts (stamp_temporal_instances uuid ts expanded.members) 16 s
  | .add now ts uuid expanded =>
      let expanded := stamp_temporal_instances uuid ts expanded.members
      answer_write s (arm.mutate s now (fun target => (add_temporal_instances expanded ts target, true)))
  | .modify now ts attr instance_id frag => answer_write s (arm.mutate s now (modify_instance attr instance_id frag ts))
  | .delete_instance now ts attr instance_id =>
      answer_write s (arm.mutate s now (Evolution.delete_instance attr instance_id ts))
  | .delete_attr now ts attr delete_all want_ds =>
      answer_write s (arm.mutate s now (Evolution.delete_attr attr delete_all want_ds ts))
  | .delete now =>
      let r := arm.delete s now
      (r.1, if r.2 then .no_content else .entity_not_found)
  | .append recorded shell additions =>
      if recorded then
        match arm.append s shell.members additions.members with
        | none => (s, .failed)
        | some s => (s, .no_content)
      else (s, .no_content)

def run (s : σ) : List (Operation Time) → σ × List Answer
  | [] => (s, [])
  | op :: ops =>
      let r := execute arm s op
      let rest := run r.1 ops
      (rest.1, r.2 :: rest.2)

end Handlers

/-- The memory arm does not look at the expiry of a Temporal Evolution. -/
def memory (Time : Type) : Arm (Option Map) Time where
  get s _ := s.isSome
  create s _ doc := if s.isSome then some (s, false) else some (some doc, true)
  mutate s _ f :=
    match s with
    | none => some (none, none)
    | some doc => some (some (f doc).1, some (f doc).2)
  delete s _ := (none, s.isSome)
  append s shell additions := some (some (additions.foldl Drain.append_attr (s.getD shell)))

end AntaresBroker.Evolution
