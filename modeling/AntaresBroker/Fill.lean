import AntaresBroker.EntityMaps
import AntaresBroker.Paging
import AntaresBroker.Temporal

namespace AntaresBroker.Fill

open Entities Fallible Json Model Ql Temporal

/-- The temporal evolutions of a tenant under the ids of their entities. -/
structure Histories where
  docs : BTreeMap String Value
  keyed : ∀ id doc, docs.get id = some doc → (doc.get "id").bind Value.as_str = some id

/-- What a tenant holds and no write changes. -/
structure Source where
  entities : Stored
  histories : Histories

/-- A tenant that is being filled. -/
structure Synth where
  entities : BTreeMap String Value
  evolutions : BTreeMap String Value

structure Page where
  offset : Nat
  limit : Nat
  count : Bool

structure Outcome where
  rows : List Value
  decided : Bool
  paged : Bool
  total : Option Nat

structure Filtered where
  docs : List Value
  paged : Bool
  total : Option Nat
  rows : Nat

/-- A temporal query of a snapshot, with what it projects and how it renders
attributes and types. -/
structure TemporalQuery extends Temporal.Query where
  pick : Option (List String)
  dropped : List String
  sys : Bool
  compact_types : Value → Value
  render : List (String × List Value) → Except NgsiError Map

inductive Failure
  | ngsi (e : NgsiError)
  | TooManyResults (got budget : Nat)

section Stores

variable {Instant : Type} [LinearOrder Instant] (env : Entities.Env Instant)

/-- What a store narrows a query of entities to. Where it claims to decide the
query, no more than the pattern of the ids is left to the evaluator. -/
structure EntityArm where
  narrow : Selection → Value → Bool
  decides : Selection → Bool
  keeps : ∀ sel doc, sel.selects env doc = true → narrow sel doc = true
  exact : ∀ sel, decides sel = true → ∀ doc, sel.selects env doc =
    (narrow sel doc && (sel.ids.isSome || sel.id_pattern.all (fun is_match => is_match (id_of doc))))

/-- The memory and the file store list all they hold. -/
def EntityArm.memory : EntityArm env := ⟨fun _ _ => true, fun _ => false, fun _ _ _ => rfl, fun _ h => by cases h⟩

structure TemporalArm where
  narrow : Temporal.Query → Value → Bool
  decides : Temporal.Query → Bool
  keeps : ∀ Q doc, (qualify env Q doc).isSome → narrow Q doc = true
  exact : ∀ Q, decides Q = true → Q.arrange = id ∧ ∀ doc, narrow Q doc = (qualify env Q doc).isSome

def TemporalArm.memory : TemporalArm env := ⟨fun _ _ => true, fun _ => false, fun _ _ _ => rfl, fun _ h => by cases h⟩

variable {env}

def query_entities (arm : EntityArm env) (docs : List Value) (sel : Selection) (page : Page) : Outcome :=
  let rows := docs.filter (arm.narrow sel)
  if arm.decides sel then
    ⟨(rows.drop page.offset).take page.limit, true, true, if page.count then some rows.length else none⟩
  else ⟨rows, false, false, none⟩

def filter_entities_paged (arm : EntityArm env) (docs : List Value) (params : Params) (page : Page) :
    Except NgsiError Filtered :=
  (selection env params).map fun sel =>
    let outcome := query_entities arm docs sel page
    let selected := (merge_candidates outcome.rows).filter (fun doc =>
      if outcome.decided then sel.ids.isSome || sel.id_pattern.all (fun is_match => is_match (id_of doc))
      else sel.selects env doc)
    ⟨selected, outcome.paged, outcome.total, outcome.rows.length⟩

def meta_projected (Q : TemporalQuery) (k : String) : Bool := Q.pick.all (fun pick => pick.contains k) && !Q.dropped.contains k

/-- The core members of a presented evolution. -/
def core_members (Q : TemporalQuery) (doc : Value) : Map :=
  ((doc.as_object.getD []).filter (fun p =>
    is_meta p.1 && !(p.1 = "scope" && instance_shaped p.2) &&
      (Q.sys || !(["createdAt", "modifiedAt", "expiresAt", "deletedAt"].contains p.1)) && meta_projected Q p.1)).map
    (fun p => (p.1, if p.1 = "type" then Q.compact_types p.2 else p.2))

/-- What the answer shows of an evolution of its page, nothing where no
instance of it is left. -/
def present (Q : TemporalQuery) (doc : Value) : Except NgsiError (Option Map) :=
  let attrs := window (some Q.tq) Q.projection Q.tq.timeproperty doc
  if attrs = [] ∧ Q.projection.attrs_filter ≠ some [] then .ok none
  else
    (Q.render attrs).map fun rendered =>
      let out := rendered.foldl (fun o p => SortedMap.insert p.1 p.2 o) (core_members Q doc)
      if Q.pick.isSome && out.isEmpty then none else some out

def present_all (Q : TemporalQuery) : List Value → Except NgsiError (List Map)
  | [] => .ok []
  | doc :: docs => (present Q doc).bind fun m => (present_all Q docs).map fun ms => m.toList ++ ms

/-- The evolutions of the page, with the whole of each and with what is shown. -/
def query_temporal_collected (arm : TemporalArm env) (Q : TemporalQuery) (rows : List Value) :
    Except NgsiError (List Value × List Map) :=
  let rows := rows.filter (arm.narrow Q.toQuery)
  let page :=
    if arm.decides Q.toQuery then query_matches env Q.toQuery ((rows.drop Q.offset).take Q.limit)
    else query_page env Q.toQuery rows
  (present_all Q page).map (page, ·)

end Stores

section Filling

variable {Instant : Type} [LinearOrder Instant] {env : Entities.Env Instant}

/-- A broker, the largest page it serves, and what recording the copy of an
Entity makes of the evolution that was there. -/
structure Broker (env : Entities.Env Instant) where
  entities : EntityArm env
  temporal : TemporalArm env
  max_limit : Nat
  record : Value → Option Value → Option Value

variable (broker : Broker env)

def fill_cap : Nat := broker.max_limit * 100

def next_scan_offset (offset rows left_the_set : Nat) (paged : Bool) (chunk : Nat) : Option Nat :=
  if !paged || rows < chunk then none else some (offset + (rows - left_the_set))

/-- An Entity is copied unless one is there; its creation is recorded. -/
def copy_entity (synth : Synth) (doc : Value) : Synth :=
  match (doc.get "id").bind Value.as_str with
  | none => synth
  | some id =>
      if (synth.entities.get id).isSome then synth
      else
        { entities := synth.entities.insert id doc
          evolutions := match broker.record doc (synth.evolutions.get id) with
            | some evolution => synth.evolutions.insert id evolution
            | none => synth.evolutions }

def run_query_from (docs : List Value) (params : Params) (budget : Nat) :
    Nat → Nat → Nat → Synth → Option (Except Failure Nat × Synth)
  | 0, _, _, _ => none
  | fuel + 1, n, offset, synth =>
      match filter_entities_paged broker.entities docs params ⟨offset, broker.max_limit, decide (offset = 0)⟩ with
      | .error e => some (.error (.ngsi e), synth)
      | .ok batch =>
          -- the count is the match set's unless a pattern is left to the evaluator
          match if params "idPattern" = none ∧ offset = 0 ∧ batch.paged then batch.total.filter (budget < ·) else none with
          | some total => some (.error (.TooManyResults total budget), synth)
          | none =>
              let got := batch.docs.length
              if budget < n + got then some (.error (.TooManyResults (n + got) budget), synth)
              else
                let synth := batch.docs.foldl (copy_entity broker) synth
                match next_scan_offset offset batch.rows 0 batch.paged broker.max_limit with
                | some next => run_query_from docs params budget fuel (n + got) next synth
                | none => some (.ok (n + got), synth)

def run_query (docs : List Value) (params : Params) (budget fuel : Nat) (synth : Synth) :
    Option (Except Failure Nat × Synth) := run_query_from broker docs params budget fuel 0 0 synth

/-- A whole evolution replaces the one that is there. -/
def copy_evolution (histories : Histories) (merged : List Value) (s : Synth × Nat) (shown : Map) : Synth × Nat :=
  match (shown.lookup "id").bind Value.as_str with
  | none => s
  | some eid =>
      match (histories.docs.get eid).or (merged.find? (fun m => (m.get "id").bind Value.as_str = some eid)) with
      | some doc => ({ s.1 with evolutions := s.1.evolutions.insert eid doc }, s.2 + 1)
      | none => s

def run_temporal_query_from (histories : Histories) (Q : TemporalQuery) (budget : Nat) :
    Nat → Nat → Nat → Synth → Option (Except Failure Nat × Synth)
  | 0, _, _, _ => none
  | fuel + 1, n, offset, synth =>
      match query_temporal_collected broker.temporal { Q with offset := offset, limit := broker.max_limit }
          histories.docs.values with
      | .error e => some (.error (.ngsi e), synth)
      | .ok (merged, arr) =>
          let got := arr.length
          if budget < n + got then some (.error (.TooManyResults (n + got) budget), synth)
          else
            let (synth, n) := arr.foldl (copy_evolution histories merged) (synth, n)
            if got < broker.max_limit then some (.ok n, synth)
            else run_temporal_query_from histories Q budget fuel n (offset + broker.max_limit) synth

def run_temporal_query (histories : Histories) (Q : TemporalQuery) (budget fuel : Nat) (synth : Synth) :
    Option (Except Failure Nat × Synth) := run_temporal_query_from broker histories Q budget fuel 0 0 synth

inductive ResultStatus
  | empty | success | failure
deriving DecidableEq

def detail : Except Failure Nat → ResultStatus
  | .ok 0 => .empty
  | .ok _ => .success
  | .error _ => .failure

/-- A fill on its way: the copies that count against the cap and what each query is reported as. -/
structure Progress where
  copied : Nat
  details : List ResultStatus
  synth : Synth

def Progress.take (s : Progress) (r : Except Failure Nat × Synth) : Progress :=
  { copied := match r.1 with
      | .ok n => s.copied + n
      | .error _ => s.copied
    details := s.details ++ [detail r.1]
    synth := r.2 }

def run_queries (docs : List Value) (fuel : Nat) (queries : List Params) (s : Progress) : Option Progress :=
  queries.foldlM (fun s q => (run_query broker docs q (fill_cap broker - s.copied) fuel s.synth).map s.take) s

def run_temporal_queries (histories : Histories) (fuel : Nat) (queries : List TemporalQuery) (s : Progress) : Option Progress :=
  queries.foldlM (fun s Q => (run_temporal_query broker histories Q (fill_cap broker - s.copied) fuel s.synth).map s.take) s

structure Filled where
  synth : Synth
  q_details : List ResultStatus
  tq_details : List ResultStatus

def Filled.status (f : Filled) : String :=
  let all := f.q_details ++ f.tq_details
  if !all.contains .failure && !all.contains .empty && all.contains .success then "success"
  else if all.contains .success then "partial"
  else if all.contains .empty then "empty"
  else "failure"

def blank : Synth := ⟨BTreeMap.empty, BTreeMap.empty⟩

def fill_snapshot (src : Source) (fuel : Nat) (queries : List Params) (temporal : List TemporalQuery) : Option Filled :=
  (run_queries broker src.entities.docs.values fuel queries ⟨0, [], blank⟩).bind fun s =>
    (run_temporal_queries broker src.histories fuel temporal { s with details := [] }).map fun t =>
      ⟨t.synth, s.details, t.details⟩

end Filling

end AntaresBroker.Fill
