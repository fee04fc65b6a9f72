import AntaresBroker.Patch
import AntaresBroker.Placement

namespace AntaresBroker.Batch

open Json JsonLd Ql.Eval Federation Patch

inductive BatchMode
  | create | upsert | update | merge
deriving DecidableEq

/-- Why an entity of a batch is in error. -/
inductive Problem
  | BadRequestData (detail : String)
  | ResourceNotFound (detail : String)
  | AlreadyExists (detail : String)
  | Conflict (detail : String)
  | InternalError (detail : String)
  | Expansion (e : ExpandError)
  | Remote (type : String) (status : Nat) (detail : String)
deriving DecidableEq

/-- An error of the answer; without an id it is told as unknown. -/
@[ext]
structure BatchError where
  entity_id : Option String
  error : Problem
deriving DecidableEq

/-- What one part of a batch has to say of an entity. -/
inductive Told
  | ok (id : String) (created : Bool)
  | failed (id : Option String) (error : Problem)
deriving DecidableEq

/-- The batch functions of a store: one answer for each item they are given. A failure of the store is `none`. -/
structure Storage (σ : Type) where
  batch_create : σ → List (String × Map) → Option (σ × List Bool)
  batch_upsert : σ → List (String × Map) → Option (σ × List Bool)
  batch_mutate : σ → (String → Value → Except Problem (Value × Bool)) → List String →
    Option (σ × List (Option (Except Problem Bool)))
  batch_delete : σ → List String → Option (σ × List Bool)
  create_answers : ∀ {s docs r}, batch_create s docs = some r → r.2.length = docs.length
  upsert_answers : ∀ {s docs r}, batch_upsert s docs = some r → r.2.length = docs.length
  mutate_answers : ∀ {s f ids r}, batch_mutate s f ids = some r → r.2.length = ids.length
  delete_answers : ∀ {s ids r}, batch_delete s ids = some r → r.2.length = ids.length

structure Reply where
  status : Nat
  body : Value

inductive FwdPath
  | collection | entity | attrs
deriving DecidableEq

/-- The request for a single entity that stands for a batch operation the source does not support. -/
structure BatchFwd where
  path : FwdPath
  method : String
  query : List (String × String)
  created : Bool
deriving DecidableEq

namespace BatchFwd

def create : BatchFwd := ⟨.collection, "POST", [], true⟩

def replace : BatchFwd := ⟨.entity, "PUT", [], false⟩

def update : BatchFwd := ⟨.attrs, "PATCH", [], false⟩

def merge : BatchFwd := ⟨.entity, "PATCH", [], false⟩

def append_no_overwrite : BatchFwd := ⟨.attrs, "POST", [("options", "noOverwrite")], false⟩

end BatchFwd

/-- A registration, with what its source answers: a batch request, and the requests for the entities of a batch in turn. -/
structure Source where
  reg : FedReg
  batch : Reply
  one : BatchFwd → Nat → Nat

structure Item (Instant : Type) [LinearOrder Instant] where
  item : Value
  ctx : Except Problem (Expander Instant)

structure Request (Instant : Type) [LinearOrder Instant] where
  mode : BatchMode
  update_mode : Bool
  no_overwrite : Bool
  items : List (Item Instant)
  sources : List Source
  create_ts : String
  round_ts : Nat → String

inductive Status
  | created | no_content | multi_status
deriving DecidableEq

structure Response where
  status : Status
  success : List String
  errors : List BatchError
deriving DecidableEq

section Local

def BatchMode.opts : BatchMode → ExpandOpts
  | merge => { allow_null := true, merge := true }
  | _ => {}

variable {Instant : Type} [LinearOrder Instant]

def prep (mode : BatchMode) (x : Expander Instant) (item : Value) : Except Problem (String × Map) :=
  match item with
  | .object obj =>
      match x.expand_entity obj mode.opts with
      | .error e => .error (.Expansion e)
      | .ok expanded =>
          match (expanded.lookup "id").bind Value.as_str with
          | some id => .ok (id, expanded)
          | none => .error (.InternalError "expanded entity carries no id")
  | _ => .error (.BadRequestData "entity must be an object")

/-- What of an item no proxy owns; an item that has no other attribute has no local part. -/
def local_item (env : Env) (proxies : List FedReg) (x : Expander Instant) (item : Value) : Option Value :=
  if proxies.isEmpty then some item
  else match item with
    | .object o =>
        let rest := strip_proxied x env o proxies
        if rest.2 then some (.object rest.1) else none
    | item => some item

inductive Prepared
  | away
  | failed (id : Option String) (e : Problem)
  | ready (id : String) (doc : Map)

def id_hint (item : Value) : Option String := (item.get "id").bind Value.as_str

def prepare (env : Env) (mode : BatchMode) (proxies : List FedReg) (i : Item Instant) : Prepared :=
  match i.ctx with
  | .error e => .failed (id_hint i.item) e
  | .ok x =>
      match local_item env proxies x i.item with
      | none => .away
      | some item =>
          match prep mode x item with
          | .ok p => .ready p.1 p.2
          | .error e => .failed (id_hint i.item) e

def Prepared.ready? : Prepared → Option (String × Map)
  | ready id doc => some (id, doc)
  | _ => none

def Prepared.failed? : Prepared → Option Told
  | failed id e => some (.failed id e)
  | _ => none

/-- The n-th occurrence of an id is in the n-th round. -/
def place (rounds : List (List (String × Map))) (n : Nat) (p : String × Map) : List (List (String × Map)) :=
  if rounds.length ≤ n then rounds ++ [[p]] else rounds.modify n (· ++ [p])

def add_to_rounds (r : List String × List (List (String × Map))) (p : String × Map) :
    List String × List (List (String × Map)) :=
  (r.1 ++ [p.1], place r.2 (r.1.count p.1) p)

def rounds_of (prepped : List (String × Map)) : List (List (String × Map)) := (prepped.foldl add_to_rounds ([], [])).2

/-- One attribute of an update that overwrites nothing, and whether an instance has been skipped. -/
def keep_instance (r : List Value × Bool) (ni : Value) : List Value × Bool :=
  if r.1.any (same_dataset ni) then (r.1, true) else (r.1 ++ [ni], r.2)

def keep_attr (r : Map × Bool) (p : String × Value) : Map × Bool :=
  if is_fragment_meta p.1 then r
  else match r.1.lookup p.1 with
    | some (.array cur) =>
        let kept := (p.2.as_array.getD []).foldl keep_instance (cur, r.2)
        (SortedMap.insert p.1 (.array kept.1) r.1, kept.2)
    | _ => (SortedMap.insert p.1 (.array (p.2.as_array.getD [])) r.1, r.2)

def update_no_overwrite (ts : String) (expanded : Map) : Value → Except Problem (Value × Bool)
  | .object target =>
      let r := expanded.foldl keep_attr (target, false)
      .ok (.object (SortedMap.insert "modifiedAt" (.string ts) r.1), r.2)
  | _ => .error (.InternalError "stored document is not an object")

/-- The change a round makes to the entity of an id. -/
def change (round : List (String × Map)) (keep : Bool) (ts id : String) (doc : Value) : Except Problem (Value × Bool) :=
  let expanded := (round.lookup id).getD []
  if keep then update_no_overwrite ts expanded doc else .ok (merge_into ts doc expanded, false)

def merged (id : String) : Option (Except Problem Bool) → Told
  | none => .failed (some id) (.ResourceNotFound ("entity " ++ id ++ " not found"))
  | some (.error e) => .failed (some id) e
  | some (.ok true) => .failed (some id) (.BadRequestData "some attributes already existed (noOverwrite)")
  | some (.ok false) => .ok id false

def existing (id : String) : Option (Except Problem Bool) → Option Told
  | none => none
  | some (.error e) => some (.failed (some id) e)
  | some (.ok _) => some (.ok id false)

variable {σ : Type} (store : Storage σ)

def upsert_all (ts : String) (docs : List (String × Map)) (s : σ) : Option (σ × List Told) :=
  if docs = [] then some (s, [])
  else (store.batch_upsert s (docs.map (fun p => (p.1, stamp_new ts p.2)))).map (fun r =>
    (r.1, (docs.map Prod.fst).zipWith .ok r.2))

def run_round (req : Request Instant) (ts : String) (round : List (String × Map)) (s : σ) : Option (σ × List Told) :=
  let ids := round.map Prod.fst
  match req.mode with
  | .create => some (s, ids.map (fun id => .failed (some id) (.InternalError "batch create is handled before the rounds")))
  | .upsert =>
      if req.update_mode then
        (store.batch_mutate s (change round false ts) ids).bind fun r =>
          -- what turns out absent is created
          let told := (ids.zip r.2).filterMap (fun p => existing p.1 p.2)
          let replaces := ((round.zip r.2).filter (fun p => p.2.isNone)).map Prod.fst
          (upsert_all store ts replaces r.1).map (fun u => (u.1, told ++ u.2))
      else upsert_all store ts round s
  | .update | .merge =>
      (store.batch_mutate s (change round (req.mode = .update && req.no_overwrite) ts) ids).map fun r =>
        (r.1, ids.zipWith merged r.2)

def run_rounds (req : Request Instant) : Nat → List (List (String × Map)) → σ → Option (σ × List Told)
  | _, [], s => some (s, [])
  | n, round :: rounds, s =>
      (run_round store req (req.round_ts n) round s).bind fun r =>
        (run_rounds req (n + 1) rounds r.1).map (fun rest => (rest.1, r.2 ++ rest.2))

def created_told (id : String) (created : Bool) : Told :=
  if created then .ok id true else .failed (some id) (.AlreadyExists ("entity " ++ id ++ " already exists"))

def create_all (ts : String) (docs : List (String × Map)) (s : σ) : Option (σ × List Told) :=
  if docs = [] then some (s, [])
  else (store.batch_create s (docs.map (fun p => (p.1, stamp_new ts p.2)))).map (fun r =>
    (r.1, (docs.map Prod.fst).zipWith created_told r.2))

def Request.proxies (req : Request Instant) : List FedReg := (req.sources.map Source.reg).filter FedReg.is_proxy

def Request.prepared (env : Env) (req : Request Instant) : List Prepared :=
  req.items.map (prepare env req.mode req.proxies)

/-- What is written here of a batch, and what there is to tell of it. -/
def write_local (env : Env) (req : Request Instant) (s : σ) : Option (σ × List Told) :=
  let invalid := (req.prepared env).filterMap Prepared.failed?
  let prepped := (req.prepared env).filterMap Prepared.ready?
  (if req.mode = .create then create_all store req.create_ts prepped s
    else run_rounds store req 0 (rounds_of prepped) s).map (fun r => (r.1, invalid ++ r.2))

end Local

section Forwards

def remote_type (status : Nat) : String :=
  if status = 400 then "BadRequestData"
  else if status = 404 then "ResourceNotFound"
  else if status = 409 then "AlreadyExists"
  else if status = 422 then "OperationNotSupported"
  else "InternalError"

def err_remote (id : String) (status : Nat) (detail : String) : Told :=
  .failed (some id) (.Remote (remote_type status) status detail)

/-- The status the source names for one entity, as the sixteen bits that are kept of it. -/
def named_status (status : Nat) (e : Value) : Nat :=
  (((e.get "error").bind (fun p => p.get "status")).bind as_u64).getD status % 65536

def named_error (status : Nat) (sent_ids : List String) (e : Value) : Option Told :=
  (((e.get "entityId").bind Value.as_str).filter sent_ids.contains).map (fun id =>
    err_remote id (named_status status e) "forwarded batch operation reported an error for this entity")

def listed (v : Option Value) (sent_ids : List String) : List String :=
  (((v.bind Value.as_array).getD []).filterMap Value.as_str).filter sent_ids.contains

/-- Only what was sent may be told of. -/
def merge_remote_batch (reply : Reply) (sent_ids : List String) (created : Bool) : List Told :=
  if 200 ≤ reply.status ∧ reply.status ≤ 206 then
    match reply.body with
    | .array a => (listed (some (.array a)) sent_ids).map (.ok · created)
    | _ => sent_ids.map (.ok · created)
  else if reply.status = 207 ∧ reply.body.is_object then
    (listed (reply.body.get "success") sent_ids).map (.ok · created) ++
      (((reply.body.get "errors").bind Value.as_array).getD []).filterMap (named_error reply.status sent_ids)
  else sent_ids.map (fun id =>
    err_remote id reply.status ("forwarded batch operation returned " ++ toString reply.status))

def one_outcome (id : String) (status : Nat) (created : Bool) : Told :=
  if 200 ≤ status ∧ status < 300 ∧ status ≠ 207 then .ok id (created && status = 201)
  else err_remote id status ("forwarded operation returned " ++ toString status)

def BatchMode.op : BatchMode → String
  | create => "createBatch"
  | upsert => "upsertBatch"
  | update => "updateBatch"
  | merge => "mergeBatch"

/-- How the entities are sent to a source that does not take the batch. -/
def single_op (mode : BatchMode) (update_mode no_overwrite : Bool) (reg : FedReg) : Option BatchFwd :=
  match mode with
  | .create => if reg.supports "createEntity" then some .create else none
  | .upsert =>
      if reg.supports "createEntity" then some .create
      else if !update_mode && reg.supports "replaceEntity" then some .replace
      else if update_mode && reg.supports "updateEntity" then some .update
      else none
  | .update =>
      if !no_overwrite && reg.supports "updateEntity" then some .update
      else if no_overwrite && reg.supports "appendAttrs" then some .append_no_overwrite
      else none
  | .merge => if reg.supports "mergeEntity" then some .merge else none

/-- An entity the source already holds is written by the operation for what is there. -/
def upsert_fallback (update_mode : Bool) (reg : FedReg) : Option BatchFwd :=
  if !update_mode && reg.supports "replaceEntity" then some .replace
  else if update_mode && reg.supports "updateEntity" then some .update
  else none

def sent_id (ent : Map) : String := ((ent.lookup "id").bind Value.as_str).getD ""

def forward_entity (mode : BatchMode) (update_mode : Bool) (s : Source) (call : BatchFwd) (n : Nat) (ent : Map) : Told :=
  let id := sent_id ent
  let status := s.one call n
  if mode = .upsert ∧ call = .create ∧ status = 409 then
    match upsert_fallback update_mode s.reg with
    | some call => one_outcome id (s.one call n) call.created
    | none => err_remote id 422 ("OperationNotSupported: no upsert path for " ++ id)
  else one_outcome id status call.created

variable {Instant : Type} [LinearOrder Instant] (env : Env) (req : Request Instant)

/-- The entities of the batch as they are forwarded. -/
def fwd_items : List (Map × Expander Instant) :=
  req.items.filterMap (fun i =>
    match i.item, i.ctx with
    | .object o, .ok x => some (o, x)
    | _, _ => none)

def sent (s : Source) : List Map := (fwd_items req).filterMap (fun p => reduce_to_scope p.2 env p.1 s.reg)

def sent_ids (s : Source) : List String := (sent env req s).filterMap (fun e => (e.lookup "id").bind Value.as_str)

def forward_batch (s : Source) : List Told :=
  if sent env req s = [] then []
  else if s.reg.supports req.mode.op then
    merge_remote_batch s.batch (sent_ids env req s)
      (req.mode = .create || (req.mode = .upsert && s.batch.status = 201))
  else match single_op req.mode req.update_mode req.no_overwrite s.reg with
    | some call => (sent env req s).mapIdx (forward_entity req.mode req.update_mode s call)
    | none =>
        if s.reg.is_proxy then
          (sent_ids env req s).map (fun id =>
            .failed (some id) (.Conflict ("registration does not accept the operation " ++ req.mode.op)))
        else []

end Forwards

section Answer

structure BatchOutcome where
  success : List String
  errors : List BatchError
  created_ids : List String
  any_created : Bool

def add_once (l : List String) (id : String) : List String := if id ∈ l then l else l ++ [id]

def take_local (out : BatchOutcome) : Told → BatchOutcome
  | .ok id created =>
      { out with
        success := add_once out.success id
        created_ids := if created then add_once out.created_ids id else out.created_ids
        any_created := out.any_created || created }
  | .failed id e => { out with errors := out.errors ++ [⟨id, e⟩] }

def take_remote (out : BatchOutcome) : Told → BatchOutcome
  | .ok id created =>
      { out with
        success := add_once out.success id
        created_ids := if created then out.created_ids ++ [id] else out.created_ids
        any_created := out.any_created || created }
  | .failed id e => { out with errors := out.errors ++ [⟨id, e⟩] }

def respond (mode : BatchMode) (out : BatchOutcome) : Response :=
  if out.errors = [] then
    match mode with
    | .create => ⟨.created, out.success, []⟩
    | .upsert => if out.any_created then ⟨.created, out.created_ids, []⟩ else ⟨.no_content, [], []⟩
    | .update | .merge => ⟨.no_content, [], []⟩
  else ⟨.multi_status, out.success, out.errors⟩

variable {σ Instant : Type} [LinearOrder Instant] (store : Storage σ) (env : Env)

def batch_write (req : Request Instant) (s : σ) : Option (σ × Response) :=
  (write_local store env req s).map fun r =>
    let out := r.2.foldl take_local ⟨[], [], [], false⟩
    (r.1, respond req.mode ((req.sources.flatMap (forward_batch env req)).foldl take_remote out))

end Answer

section Delete

/-- A batch delete: each item of the array, its id if it is a text. -/
structure DeleteRequest where
  ids : List (Option String)
  sources : List Source

def DELETE : BatchFwd := ⟨.entity, "DELETE", [], false⟩

def delete_outcome (id : String) (status : Nat) : Told :=
  if 200 ≤ status ∧ status < 300 ∧ status ≠ 207 then .ok id false
  else err_remote id status ("forwarded delete returned " ++ toString status)

variable (env : Env)

def forward_delete (id_strs : List String) (s : Source) : List Told :=
  let sent_ids := id_strs.filter (s.reg.can_match_id env)
  if sent_ids = [] then []
  else if s.reg.supports "deleteBatch" then merge_remote_batch s.batch sent_ids false
  else if s.reg.supports "deleteEntity" then sent_ids.mapIdx (fun n id => delete_outcome id (s.one DELETE n))
  else if s.reg.is_proxy then
    sent_ids.map (fun id => .failed (some id) (.Conflict "registration does not accept the operation deleteBatch"))
  else []

def Told.ok? : Told → Option String
  | ok id _ => some id
  | failed _ _ => none

def Told.error? : Told → Option BatchError
  | ok _ _ => none
  | failed id e => some ⟨id, e⟩

def not_found (id : String) : BatchError := ⟨some id, .ResourceNotFound ("entity " ++ id ++ " not found")⟩

variable {σ : Type} (store : Storage σ)

def batch_delete (req : DeleteRequest) (s : σ) : Option (σ × Response) :=
  let id_strs := req.ids.filterMap id
  (store.batch_delete s id_strs).map fun r =>
    let flags := id_strs.zip r.2
    let local_ok := (flags.filter Prod.snd).map Prod.fst
    let local_miss := (flags.filter (fun p => !p.2)).map Prod.fst
    let remote := req.sources.flatMap (forward_delete env id_strs)
    let remote_ok := remote.filterMap Told.ok?
    let remote_err := remote.filterMap Told.error?
    let success := remote_ok.foldl add_once ((id_strs.filter local_ok.contains).foldl add_once [])
    let invalid := (req.ids.filter Option.isNone).map (fun _ => ⟨none, .BadRequestData "entity id must be a string"⟩)
    let missed := local_miss.filter (fun id => !remote_ok.contains id && !remote_err.any (fun e => e.entity_id = some id))
    let errors := invalid ++ remote_err ++ missed.map not_found
    (r.1, if errors = [] then ⟨.no_content, [], []⟩ else ⟨.multi_status, success, errors⟩)

end Delete

end AntaresBroker.Batch
