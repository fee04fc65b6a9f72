import AntaresBroker.EntityQuery
import AntaresBroker.Registry
import Mathlib.Data.List.Sort

namespace AntaresBroker.Temporal

open Expiry Json Ql Ql.Eval Registry Text

def is_meta (k : String) : Bool := k != "@context" && ENTITY_META_KEYS.contains k

/-- The most instances of one attribute served in one answer. -/
def TEMPORAL_INSTANCE_LIMIT : Nat := 9

def stamp (timeprop : String) (inst : Value) : Option String := (inst.get timeprop).bind Value.as_str

def key (timeprop : String) (inst : Value) : Option (List Char) := (stamp timeprop inst).map dt_key

/-- `before` and `between` end before their instant, `after` and `between` start at theirs. -/
def instance_matches (tq : TemporalQ) (inst : Value) : Bool :=
  (key tq.timeproperty inst).any (fun t =>
    if tq.timerel = "any" then true
    else if tq.timerel = "before" then t < dt_key tq.time_at
    else if tq.timerel = "after" then dt_key tq.time_at ≤ t
    else if tq.timerel = "between" then dt_key tq.time_at ≤ t && tq.end_time_at.any (fun e => t < dt_key e)
    else false)

def items (v : Value) : List Value := v.as_array.getD []

section Scopes

def instance_shaped (v : Value) : Bool := v.as_array.any (fun a => a.head?.any Value.is_object)

/-- When the scope of an instance was set. -/
def scope_set_time (i : Value) : Option String :=
  ["observedAt", "modifiedAt", "createdAt"].findSome? (fun k => (i.get k).bind Value.as_str)

/-- The last of the greatest. -/
def max_by_key {α : Type} (f : α → List Char) (l : List α) : Option α :=
  l.foldl (fun m a => some (m.elim a (fun m => if f m ≤ f a then a else m))) none

def set_key (i : Value) : List Char := ((scope_set_time i).map dt_key).getD []

def named_start (tq : TemporalQ) : Option String :=
  if tq.timerel = "after" ∨ tq.timerel = "between" then some tq.time_at else none

/-- The scope in force at the start of the window. -/
def carried (tq : Option TemporalQ) (v : Value) : Option Value :=
  (tq.bind named_start).bind (fun start =>
    max_by_key set_key ((items v).filter (fun i => (scope_set_time i).any (fun t => dt_key t < dt_key start))))

def scope_value_matches (sq : String) (v : Value) : Bool :=
  if v = .null ∨ v.as_str = some "urn:ngsi-ld:null" then false
  else Scope.scope_matches sq (.object [("scope", v)])

/-- The intervals in which the scope of an evolution matches, open at the end
while no later scope is set. -/
def scope_match_intervals (doc : Value) (sq : String) : List (String × Option String) :=
  match doc.get "scope" with
  | none => []
  | some v =>
      if instance_shaped v then
        let states := ((items v).filterMap (fun i => (scope_set_time i).map (fun t => (t, (i.get "value").getD .null)))).insertionSort
          (fun s t => dt_key s.1 ≤ dt_key t.1)
        (states.zip ((states.drop 1).map (fun s => some s.1) ++ [none])).filterMap (fun p =>
          if scope_value_matches sq p.1.2 then some (p.1.1, p.2) else none)
      else if Scope.scope_matches sq doc then [("", none)]
      else []

end Scopes

/-- What of an evolution is asked for. -/
structure Projection where
  attrs_filter : Option (List String)
  omitted : List String
  dataset : Option (List String)
  last_n : Option Nat

namespace Projection

variable (pr : Projection)

def in_dataset (inst : Value) : Bool :=
  match pr.dataset, inst.get "datasetId" with
  | none, _ => true
  | some want, some (.string own) => want.contains own
  | some want, none => want.contains "@none"
  | some _, some _ => false

def takes (k : String) (v : Value) : Bool :=
  (!is_meta k || (k = "scope" && instance_shaped v)) && pr.attrs_filter.all (fun want => want.contains k) &&
    !pr.omitted.contains k

end Projection

section Windows

variable (tq : Option TemporalQ) (pr : Projection) (timeprop : String)

def order_key (inst : Value) : List Char := dt_key ((stamp timeprop inst).getD "")

/-- The instances the window admits, with the scope in force before them. -/
def found (k : String) (v : Value) : List Value :=
  let found := (items v).filter (fun inst => tq.all (fun tq => instance_matches tq inst) && pr.in_dataset inst)
  if k = "scope" then found ++ (carried tq v).toList.filter (fun c => !found.contains c) else found

/-- The instances of one attribute in the order of time; the last of them,
latest first, if a number is asked for. -/
def instances (k : String) (v : Value) : List Value :=
  let sorted := (found tq pr k v).insertionSort (fun a b => order_key timeprop a ≤ order_key timeprop b)
  pr.last_n.elim sorted (fun n => (sorted.drop (sorted.length - n)).reverse)

def window (doc : Value) : List (String × List Value) :=
  (doc.as_object.getD []).filterMap (fun p =>
    if pr.takes p.1 p.2 then some (p.1, instances tq pr timeprop p.1 p.2) else none) |>.filter (fun p => p.2 ≠ [])

/-- The first of the earliest. -/
def earliest (ts : List String) : Option String :=
  ts.foldl (fun m t => some (m.elim t (fun m => if dt_key t < dt_key m then t else m))) none

/-- The first of the latest. -/
def latest (ts : List String) : Option String :=
  ts.foldl (fun m t => some (m.elim t (fun m => if dt_key m < dt_key t then t else m))) none

def stamps (attrs : List (String × List Value)) : List String := attrs.flatMap (fun p => p.2.filterMap (stamp timeprop))

def overfull (attrs : List (String × List Value)) : List (List Value) :=
  (attrs.map Prod.snd).filter (fun insts => TEMPORAL_INSTANCE_LIMIT < insts.length)

/-- The tightest of the instants at which the attributes reach the limit. -/
def boundary (descending : Bool) (attrs : List (String × List Value)) : Option (List Char) :=
  match (overfull attrs).filterMap (fun insts => (insts[TEMPORAL_INSTANCE_LIMIT - 1]?).bind (key timeprop)) with
  | [] => none
  | a :: rest => some (rest.foldl (fun a b => if decide (b < a) != descending then b else a) a)

def keeps (descending : Bool) (bound : List Char) (inst : Value) : Bool :=
  (key timeprop inst).all (fun k => if descending then bound ≤ k else k ≤ bound)

structure Windowed where
  attrs : List (String × List Value)
  truncated : Bool

/-- One cut for all attributes of an entity. -/
def truncate (descending : Bool) (attrs : List (String × List Value)) : Windowed :=
  if overfull attrs = [] then ⟨attrs, false⟩
  else ⟨attrs.map (fun p => (p.1, match boundary timeprop descending attrs with
    | some bound => p.2.filter (keeps timeprop descending bound)
    | none => p.2.take TEMPORAL_INSTANCE_LIMIT)), true⟩

/-- The instants a partial answer runs over; its size if a number of instances was asked for. -/
structure ContentRange where
  start : String
  stop : String
  size : Option Nat
deriving DecidableEq

def content_range (truncated : Bool) (ts_min ts_max : Option String) : Option ContentRange :=
  if !truncated then none
  else ts_min.bind fun data_min => ts_max.bind fun data_max =>
    match pr.last_n with
    | none => some ⟨(tq.bind named_start).getD data_min, data_max, none⟩
    | some n =>
        let start := (tq.bind fun t =>
          if t.timerel = "before" then some t.time_at
          else if t.timerel = "between" then some (t.end_time_at.getD data_max)
          else none).getD data_max
        some ⟨start, data_min, some n⟩

/-- What is served of one evolution. -/
def served (doc : Value) : Windowed := truncate timeprop pr.last_n.isSome (window tq pr timeprop doc)

/-- The range of the answer with a page of evolutions, if it is a partial one. -/
def range_of (page : List Value) : Option ContentRange :=
  let parts := page.map (served tq pr timeprop)
  content_range tq pr (parts.any Windowed.truncated)
    (earliest (parts.filterMap (fun w => earliest (stamps timeprop w.attrs))))
    (latest (parts.filterMap (fun w => latest (stamps timeprop w.attrs))))

end Windows

section Querying

variable {Instant : Type} [LinearOrder Instant] (env : Entities.Env Instant)

/-- A temporal query as it is read from the parameters; `arrange` is the order asked for. -/
structure Query where
  tq : TemporalQ
  ids : Option (List String)
  id_pattern : Option (String → Bool)
  types : Option (List String)
  attrs : Option (List String)
  q : Option QNode
  geo : Option (Value → Bool)
  scope_q : Option String
  projection : Projection
  arrange : List Value → List Value
  arranges : ∀ l, (arrange l).Perm l
  offset : Nat
  limit : Nat

def type_and_attrs_match (types attrs : Option (List String)) (doc : Value) : Bool :=
  types.all (fun types => ((doc.get "type").toList.flatMap strings).any types.contains) &&
    attrs.all (fun want => want.any (fun a => (doc.get a).isSome))

/-- The attributes of a document with some of their instances only. -/
def retain (keep : Value → Bool) (doc : Value) : Value :=
  match doc with
  | .object o => .object (o.map (fun p => (p.1, match p.2 with
      | .array insts => if is_meta p.1 then .array insts else .array (insts.filter keep)
      | v => v)))
  | v => v

/-- The values filter and the geo-query, judged on the instances within the window. -/
def window_conditions_match (tq : TemporalQ) (q : Option QNode) (geo : Option (Value → Bool)) (doc : Value) : Bool :=
  let eval_doc := retain (instance_matches tq) doc
  q.all (fun ast => eval_q env.chrono { env.toEnv with lookup := fun _ => none } ast eval_doc) &&
    geo.all (fun g => g eval_doc)

def window_bounds (tq : TemporalQ) : Option String × Option String :=
  if tq.timerel = "before" then (none, some tq.time_at)
  else if tq.timerel = "after" then (some tq.time_at, none)
  else if tq.timerel = "between" then (some tq.time_at, tq.end_time_at)
  else (none, none)

def in_intervals (iv : List (String × Option String)) (timeprop : String) (inst : Value) : Bool :=
  (stamp timeprop inst).any (fun t => iv.any (fun p => p.1 ≤ t && p.2.all (fun e => t < e)))

/-- An evolution whose scope matches at some time of the window, with its instances of such times. -/
def scope_window_retain (sq : String) (tq : TemporalQ) (doc : Value) : Option Value :=
  let iv := scope_match_intervals doc sq
  let (wstart, wend) := window_bounds tq
  if iv.any (fun p => wend.all (fun w => p.1 < w) && p.2.all (fun e => wstart.all (fun w => w < e))) then
    some (retain (in_intervals iv tq.timeproperty) doc)
  else none

/-- Some attribute has an instance in the window. -/
def any_instance (tq : TemporalQ) (doc : Value) : Bool :=
  (doc.as_object.getD []).any (fun p => !is_meta p.1 && (items p.2).any (instance_matches tq))

def selects (Q : Query) (doc : Value) : Bool :=
  let id := Entities.id_of doc
  Q.ids.all (fun ids => ids.contains id) && (Q.ids.isSome || Q.id_pattern.all (fun is_match => is_match id)) &&
    type_and_attrs_match Q.types Q.attrs doc && window_conditions_match env Q.tq Q.q Q.geo doc

/-- What the loop over the rows keeps of one. -/
def qualify (Q : Query) (doc : Value) : Option Value :=
  if selects env Q doc then
    (match Q.scope_q with
      | none => some doc
      | some sq => scope_window_retain sq Q.tq doc).filter (any_instance Q.tq)
  else none

def query_matches (Q : Query) (rows : List Value) : List Value := Q.arrange (rows.filterMap (qualify env Q))

/-- The page of a query over the rows of the store. -/
def query_page (Q : Query) (rows : List Value) : List Value := ((query_matches env Q rows).drop Q.offset).take Q.limit

end Querying

end AntaresBroker.Temporal
