import AntaresBroker.KeyedLoop
import AntaresBroker.Mem

namespace AntaresBroker.BatchStore

open Expiry Json Mem KeyedLoop

inductive Op
  | create | update | delete
deriving DecidableEq

/-- A change as the hook and the outbox tell it. -/
structure Change where
  op : Op
  id : String
  before : Option Value
  after : Option Value
deriving DecidableEq

/-- The change the hook is told by its images. -/
def emit (id : String) (before after : Option Value) : Change :=
  ⟨if before = none then .create else if after = none then .delete else .update, id, before, after⟩

section Memory

variable {Instant Bytes E : Type} [LinearOrder Instant] (chrono : Chrono Instant) (codec : Codec Bytes) (now : String)
  (tenant : TenantId)

def create_item (s : Store Bytes) (p : String × Value) : Store Bytes × Bool × Option Change :=
  let r := create chrono codec s now tenant .entity p.1 p.2
  (r.1, r.2, if r.2 then some (emit p.1 none (some p.2)) else none)

def delete_item (s : Store Bytes) (p : String × Unit) : Store Bytes × Bool × Option Change :=
  let r := delete chrono codec s now tenant .entity p.1
  (r.1, r.2.isSome, r.2.map (fun old => emit p.1 (some old) none))

def upsert_item (s : Store Bytes) (p : String × Value) : Store Bytes × Bool × Option Change :=
  let r := upsert chrono codec s now tenant .entity p.1 p.2
  let existed := r.2.1.isSome && !r.2.2
  (r.1, !existed, some (emit p.1 (if r.2.2 then none else r.2.1) (some p.2)))

def mutate_item (f : String → Value → Except E Value) (s : Store Bytes) (p : String × Unit) :
    Store Bytes × Option (Except E Unit) × Option Change :=
  let r := mutate chrono codec s now tenant .entity p.1 (fun d => (f p.1 d).map ((), ·))
  (r.1, r.2.map Prod.fst, (r.2.bind Prod.snd).map (fun c => emit p.1 (some c.1) (some c.2)))

end Memory

section Postgres

variable {Instant E : Type} [LinearOrder Instant]

/-- What of the database the statements depend on: its reading of a timestamp
and whether a `jsonb` column takes a document. -/
structure Database (Instant : Type) [LinearOrder Instant] where
  timestamptz : String → Option Instant
  jsonb : Value → Bool

structure Row (Instant : Type) where
  entity : Value
  expires_at : Option Instant
  created_at : Instant
  version : Nat
  counted : 0 < version
deriving DecidableEq

/-- The rows of one tenant, under their primary key. -/
abbrev Table (Instant : Type) := String → Option (Row Instant)

def Row.expired (now : Instant) (r : Row Instant) : Bool := r.expires_at.any (fun e => e ≤ now)

variable (db : Database Instant) (now : Instant)

def text_of (doc : Value) (k : String) : Option String := ((doc.get k).bind Value.as_str).map canonical_datetime

/-- The casts that every statement makes of a document, and its `expires_at`;
`none` if one of them fails. -/
def columns (doc : Value) : Option (Option Instant) :=
  if !db.jsonb doc then none
  else
    (match text_of doc "expiresAt" with
      | none => some none
      | some s => (db.timestamptz s).map some).bind fun expires =>
    (db.timestamptz ((text_of doc "modifiedAt").getD "1970-01-01T00:00:00Z")).map fun _ => expires

/-- A row as an insert makes it. -/
def new_row (doc : Value) : Option (Row Instant) :=
  (columns db doc).bind fun expires =>
    (db.timestamptz ((text_of doc "createdAt").getD "1970-01-01T00:00:00Z")).map fun created =>
      ⟨doc, expires, created, 1, Nat.one_pos⟩

/-- The first item of each id. -/
def firsts {β : Type} (seen : List String) : List (String × β) → List (String × β)
  | [] => []
  | p :: items => if seen.contains p.1 then firsts seen items else p :: firsts (p.1 :: seen) items

/-- The statement over all the documents: it fails if one of them does. -/
def rows_of {γ : Type} (cast : Value → Option γ) (items : List (String × Value)) : Option (List (String × γ)) :=
  items.mapM (fun p => (cast p.2).map (p.1, ·))

/-- Absent, or past its expiry. -/
def fresh (table : Table Instant) (id : String) : Bool := (table id).all (Row.expired now)

/-- A set of ids of which each answers once. -/
def consume (ids : List String) : List String → List Bool
  | [] => []
  | id :: asked => ids.contains id :: consume (ids.filter (· ≠ id)) asked

/-- The outcome of a batch: the table, what the caller is answered, what the
hook is told and what the outbox holds. -/
structure Outcome (Instant ρ : Type) where
  table : Table Instant
  answers : List ρ
  hook : List Change
  outbox : List Change

def put_rows (table : Table Instant) (rows : List (String × Row Instant)) : Table Instant :=
  rows.foldl (fun t p => Function.update t p.1 (some p.2)) table

def batch_create (table : Table Instant) (items : List (String × Value)) : Option (Outcome Instant Bool) :=
  (rows_of (new_row db) (firsts [] items)).map fun payload =>
    let inserted := payload.filter (fun p => fresh now table p.1)
    let created_now := inserted.map Prod.fst
    let flags := consume created_now (items.map Prod.fst)
    { table := put_rows table inserted
      answers := flags
      hook := (items.zip flags).filterMap (fun p => if p.2 then some (emit p.1.1 none (some p.1.2)) else none)
      outbox := ((firsts [] items).filter (fun p => created_now.contains p.1)).map (fun p =>
        ⟨.create, p.1, none, some p.2⟩) }

/-- The document of a row the statement finds alive. -/
def live (table : Table Instant) (id : String) : Option Value :=
  ((table id).filter (fun r => !r.expired now)).map Row.entity

def batch_delete (table : Table Instant) (ids : List String) : Outcome Instant Bool :=
  let deleted := ((firsts [] (ids.map (·, ()))).map Prod.fst).filter (fun id => (live now table id).isSome)
  let flags := consume deleted ids
  { table := fun id => if deleted.contains id then none else table id
    answers := flags
    hook := (ids.zip flags).filterMap (fun p => if p.2 then some (emit p.1 (live now table p.1) none) else none)
    outbox := deleted.map (fun id => ⟨.delete, id, live now table id, none⟩) }

/-- A row after the upsert of another under its key. -/
def replaced (old : Option (Row Instant)) (row : Row Instant) : Row Instant :=
  match old with
  | none => row
  | some old =>
      if old.expired now then row
      else { row with created_at := old.created_at, version := old.version + 1, counted := Nat.succ_pos _ }

def batch_upsert (table : Table Instant) (items : List (String × Value)) : Option (Outcome Instant Bool) :=
  (rows_of (new_row db) (firsts [] items)).map fun payload =>
    let rows := payload.map (fun p => (p.1, replaced now (table p.1) p.2))
    -- `xmax = 0` of a row that was not there
    let inserted := fun id => (table id).isNone || (rows.lookup id).any (fun r => r.version = 1)
    { table := put_rows table rows
      answers := items.map (fun p => inserted p.1)
      hook := items.map (fun p => emit p.1 (live now table p.1) (some p.2))
      outbox := rows.map (fun p =>
        ⟨if inserted p.1 then .create else .update, p.1, live now table p.1, (items.lookup p.1)⟩) }

/-- One application of the closure to a locked document. -/
def apply_closure (f : String → Value → Except E Value) (id : String) (cell : Option Value) (_ : Unit) :
    Option Value × Option (Except E Unit) × Option Change :=
  match cell with
  | none => (none, none, none)
  | some doc =>
      match f id doc with
      | .error e => (some doc, some (.error e), none)
      | .ok after => (some after, some (.ok ()), if after ≠ doc then some (emit id (some doc) (some after)) else none)

/-- A row written back: what was inserted once stays. -/
def rewritten (old : Row Instant) (doc : Value) (expires : Option Instant) : Row Instant :=
  { old with entity := doc, expires_at := expires, version := old.version + 1, counted := Nat.succ_pos _ }

def batch_mutate (f : String → Value → Except E Value) (table : Table Instant) (ids : List String) :
    Option (Outcome Instant (Option (Except E Unit))) :=
  let r := run (apply_closure f) (live now table) (ids.map (·, ()))
  let changed := r.2.filterMap Prod.snd
  let write_ids := (changed.map Change.id).dedup
  let payload := write_ids.filterMap (fun id => (r.1 id).map (id, ·))
  (rows_of (fun doc => (columns db doc).map (doc, ·)) payload).map fun rows =>
    let updated := rows.filterMap (fun p => (table p.1).map (fun row => (p.1, rewritten row p.2.1 p.2.2)))
    { table := put_rows table updated
      answers := r.2.map Prod.fst
      hook := changed
      outbox := (changed.filter (fun c => (updated.lookup c.id).isSome)).map (fun c => { c with op := .update }) }

end Postgres

section Calls

variable {Instant Bytes E : Type} [LinearOrder Instant]

/-- A call of the batch storage; the rounds of the callers keep the ids of an
upsert and of a mutation distinct. -/
inductive Call (E : Type)
  | create (items : List (String × Value))
  | delete (ids : List String)
  | upsert (items : List (String × Value)) (distinct : (items.map Prod.fst).Nodup)
  | mutate (f : String → Value → Except E Value) (ids : List String) (distinct : ids.Nodup)

inductive Answers (E : Type)
  | flags (l : List Bool)
  | results (l : List (Option (Except E Unit)))

structure Effect (σ E : Type) where
  store : σ
  answers : Answers E
  hook : List Change
  outbox : List Change

variable (chrono : Chrono Instant) (codec : Codec Bytes) (now : String) (tenant : TenantId)

/-- The memory arm: one call an item. -/
def mem_run (s : Store Bytes) : Call E → Effect (Store Bytes) E
  | .create items =>
      let r := each (create_item chrono codec now tenant) s items
      ⟨r.1, .flags (r.2.map Prod.fst), r.2.filterMap Prod.snd, r.2.filterMap Prod.snd⟩
  | .delete ids =>
      let r := each (delete_item chrono codec now tenant) s (ids.map (·, ()))
      ⟨r.1, .flags (r.2.map Prod.fst), r.2.filterMap Prod.snd, r.2.filterMap Prod.snd⟩
  | .upsert items _ =>
      let r := each (upsert_item chrono codec now tenant) s items
      ⟨r.1, .flags (r.2.map Prod.fst), r.2.filterMap Prod.snd, r.2.filterMap Prod.snd⟩
  | .mutate f ids _ =>
      let r := each (mutate_item chrono codec now tenant f) s (ids.map (·, ()))
      ⟨r.1, .results (r.2.map Prod.fst), r.2.filterMap Prod.snd, r.2.filterMap Prod.snd⟩

/-- The Postgres arm: one statement a batch; `none` if it fails and is rolled back. -/
def pg_run (db : Database Instant) (at_now : Instant) (table : Table Instant) : Call E → Option (Effect (Table Instant) E)
  | .create items => (batch_create db at_now table items).map (fun o => ⟨o.table, .flags o.answers, o.hook, o.outbox⟩)
  | .delete ids =>
      let o := batch_delete at_now table ids
      some ⟨o.table, .flags o.answers, o.hook, o.outbox⟩
  | .upsert items _ => (batch_upsert db at_now table items).map (fun o => ⟨o.table, .flags o.answers, o.hook, o.outbox⟩)
  | .mutate f ids _ => (batch_mutate db at_now f table ids).map (fun o => ⟨o.table, .results o.answers, o.hook, o.outbox⟩)

def docs (s : Store Bytes) (id : String) : Option Value := s.inner.get .entity tenant.name id

/-- The table holds the documents of the store. -/
def Mirrors (table : Table Instant) (s : Store Bytes) : Prop := ∀ id, (table id).map Row.entity = docs tenant s id

end Calls

end AntaresBroker.BatchStore
