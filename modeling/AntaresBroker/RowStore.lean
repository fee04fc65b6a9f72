import AntaresBroker.Evolution

namespace AntaresBroker.RowStore

open Json Expiry Evolution

/-- The cast of a text to a point in time, as the database makes it. -/
structure Cast (Time : Type) where
  timestamptz : String → Option Time
  epoch : (timestamptz "1970-01-01T00:00:00Z").isSome = true

/-- An instance as it is sent to the table. -/
structure NewRow where
  attr_id : String
  instance_id : String
  dataset_id : Option String
  observed_at : String
  created_at : String
  modified_at : String
  deleted_at : Option String
  data : Value
deriving DecidableEq

/-- What the table tells its rows apart by, orders them by and holds. -/
structure Row (Time : Type) where
  attr_id : String
  instance_id : String
  observed_at : Time
  created_at : Time
  data : Value

structure Stored (Time : Type) where
  meta_doc : Map
  rows : List (Row Time)

def meta_of (doc : Map) : Map := doc.filter (fun p => DOC_META.contains p.1)

def ts (i : Value) (k : String) : Option String := (text i k).map canonical_datetime

/-- The time of an instance, by the first of its stamps. -/
def observed (i : Value) : String :=
  ((((ts i "observedAt").or (ts i "modifiedAt")).or (ts i "deletedAt")).or (ts i "createdAt")).getD "1970-01-01T00:00:00Z"

def row_of (attr : String) (i : Value) : Option NewRow :=
  (text i "instanceId").map (fun instance_id =>
    { attr_id := attr
      instance_id
      dataset_id := text i "datasetId"
      observed_at := observed i
      created_at := (ts i "createdAt").getD (observed i)
      modified_at := (ts i "modifiedAt").getD (observed i)
      deleted_at := ts i "deletedAt"
      data := i })

def decompose (doc : Map) : List NewRow :=
  doc.flatMap (fun p => if DOC_META.contains p.1 then [] else (Temporal.items p.2).filterMap (row_of p.1))

def NewRow.identity (r : NewRow) : String × String := (r.attr_id, r.instance_id)

section Table

variable {Time : Type} (cast : Cast Time)

def Row.key (r : Row Time) : String × String × Time := (r.attr_id, r.instance_id, r.observed_at)

def Row.identity (r : Row Time) : String × String := (r.attr_id, r.instance_id)

/-- The texts of a row are cast when it is inserted. -/
def cast_row (r : NewRow) : Option (Row Time) :=
  match cast.timestamptz r.observed_at, cast.timestamptz r.created_at, cast.timestamptz r.modified_at,
      r.deleted_at.all (fun s => (cast.timestamptz s).isSome) with
  | some observed_at, some created_at, some _, true => some ⟨r.attr_id, r.instance_id, observed_at, created_at, r.data⟩
  | _, _, _, _ => none

def on_conflict (o r : Row Time) : Row Time := { o with data := r.data }

variable [LinearOrder Time]

/-- One statement: it fails on a text it cannot cast, and on two rows of one key. -/
def insert_rows (table : List (Row Time)) (rows : List NewRow) : Option (List (Row Time)) :=
  (rows.mapM (cast_row cast)).bind (fun new =>
    if (new.map Row.key).Nodup then some (new.foldl (fun t r => Grouping.put Row.key on_conflict r t) table) else none)

def row_order (o p : Row Time) : Prop :=
  o.created_at < p.created_at ∨ (o.created_at = p.created_at ∧
    (o.observed_at < p.observed_at ∨ (o.observed_at = p.observed_at ∧ o.instance_id ≤ p.instance_id)))

instance (o p : Row Time) : Decidable (row_order o p) := by unfold row_order; infer_instance

def insts (rows : List (Row Time)) (attr : String) : List Value :=
  ((rows.filter (fun r => r.attr_id = attr)).insertionSort row_order).map Row.data

/-- The document of the rows. -/
def reconstruct (st : Stored Time) : Map :=
  st.rows.foldl (fun doc r => SortedMap.insert r.attr_id (.array (insts st.rows r.attr_id)) doc) st.meta_doc

def not_expired (meta_doc : Map) (now : Time) : Bool :=
  match ((meta_doc.lookup "expiresAt").bind Value.as_str).bind cast.timestamptz with
  | none => true
  | some t => now < t

/-- A map collected from rows keeps the last of a key. -/
def collected (rows : List NewRow) (k : String × String) : Option NewRow := rows.reverse.find? (fun r => r.identity = k)

def deletes (before_rows after_rows : List NewRow) : List (String × String) :=
  (before_rows.map NewRow.identity).filter (fun k =>
    match collected before_rows k, collected after_rows k with
    | some o, some n => n.observed_at ≠ o.observed_at
    | _, none => true
    | none, some _ => false)

def upserts (before_rows after_rows : List NewRow) : List NewRow :=
  after_rows.filter (fun r => collected before_rows r.identity ≠ some r)

/-- Only what has changed of a document is written back. -/
def write_back (st : Stored Time) (before after : Map) : Option (Stored Time) :=
  let gone := deletes (decompose before) (decompose after)
  (insert_rows cast (st.rows.filter (fun r => r.identity ∉ gone)) (upserts (decompose before) (decompose after))).map
    (fun rows => ⟨meta_of after, rows⟩)

def live (s : Option (Stored Time)) (now : Time) : Option (Stored Time) :=
  s.filter (fun st => not_expired cast st.meta_doc now)

def create (s : Option (Stored Time)) (now : Time) (doc : Map) : Option (Option (Stored Time) × Bool) :=
  if (live cast s now).isSome then some (s, false)
  else (insert_rows cast [] (decompose doc)).map (fun rows => (some ⟨meta_of doc, rows⟩, true))

def mutate (s : Option (Stored Time)) (now : Time) (f : Map → Map × Bool) :
    Option (Option (Stored Time) × Option Bool) :=
  match live cast s now with
  | none => some (s, none)
  | some st =>
      let doc := reconstruct st
      (write_back cast st doc (f doc).1).map (fun st => (some st, some (f doc).2))

def delete (s : Option (Stored Time)) (now : Time) : Option (Stored Time) × Bool :=
  if (live cast s now).isSome then (none, true) else (s, false)

/-- The members of the entity are those of the shell from here on. -/
def append (s : Option (Stored Time)) (shell additions : Map) : Option (Option (Stored Time)) :=
  (insert_rows cast ((s.map Stored.rows).getD []) (decompose additions)).map (fun rows => some ⟨meta_of shell, rows⟩)

def postgres : Arm (Option (Stored Time)) Time where
  get s now := (live cast s now).isSome
  create := create cast
  mutate := mutate cast
  delete := delete cast
  append := append cast

end Table

end AntaresBroker.RowStore
