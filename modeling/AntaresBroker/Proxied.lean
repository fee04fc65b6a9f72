import AntaresBroker.BTreeMap
import AntaresBroker.EntityId
import AntaresBroker.Registry

namespace AntaresBroker.Proxied

open Model Expiry Json Ql.Eval Registry

def MAX_INFORMATION : Nat := 128

def MAX_INFO_MEMBERS : Nat := 128

def SCAN_PAGE : Nat := 1000

section Normalize

variable {Instant : Type} [LinearOrder Instant] (chrono : Chrono Instant) (env : Env)

def expand_one (t : Value) : Option Value :=
  match t with
  | .string s => if s = "" then none else some (.string (env.expand s))
  | _ => none

def norm_type (ev : Value) : Option Value :=
  match ev with
  | .array [] => none
  | .array ts => (ts.mapM (expand_one env)).map .array
  | other => expand_one env other

def norm_entity_member (ne : Map) (p : String × Value) : Option Map :=
  if p.1 = "type" then (norm_type env p.2).map (fun v => SortedMap.insert "type" v ne)
  else if p.1 = "id" then if p.2.as_str.any valid_id then some (SortedMap.insert "id" p.2 ne) else none
  else if p.1 = "idPattern" then
    if p.2.as_str.any (fun s => (env.regex s).isSome) then some (SortedMap.insert "idPattern" p.2 ne) else none
  else some (SortedMap.insert p.1 p.2 ne)

/-- An EntityInfo: its type may be left out where an id or a pattern stands. -/
def norm_entity (e : Value) : Option Value :=
  e.as_object.bind fun eo =>
    (eo.foldlM (norm_entity_member env) []).bind fun ne =>
      if (ne.lookup "type").isSome || (ne.lookup "id").isSome || (ne.lookup "idPattern").isSome then some (.object ne)
      else none

def norm_name (n : Value) : Option Value := n.as_str.map (fun s => .string (env.expand s))

def norm_info_member (ni : Map) (p : String × Value) : Option Map :=
  if p.1 = "entities" then
    ((p.2.as_array.filter (· ≠ [])).bind (fun es => es.mapM (norm_entity env))).map (fun nes =>
      SortedMap.insert "entities" (.array nes) ni)
  else if p.1 = "propertyNames" ∨ p.1 = "relationshipNames" then
    ((p.2.as_array.filter (· ≠ [])).bind (fun ns => ns.mapM (norm_name env))).map (fun nn =>
      SortedMap.insert p.1 (.array nn) ni)
  else some (SortedMap.insert p.1 p.2 ni)

def norm_info (info : Value) : Option Value :=
  info.as_object.bind fun io =>
    if ["entities", "propertyNames", "relationshipNames"].any (fun key =>
      ((io.lookup key).bind Value.as_array).any (fun l => MAX_INFO_MEMBERS < l.length)) then none
    else (io.foldlM (norm_info_member env) []).map .object

def norm_registration_info (v : Value) : Option Value :=
  (v.as_array.filter (· ≠ [])).bind fun arr =>
    if MAX_INFORMATION < arr.length then none else (arr.mapM (norm_info env)).map .array

/-- The members a client cannot set. -/
def READ_ONLY : List String :=
  ["@context", "createdAt", "modifiedAt", "status", "timesSent", "timesFailed", "lastSuccess", "lastFailure"]

/-- One member of a registration; `accepts` has the checks of the members kept
as they are, and a refusal is `none`. -/
def norm_reg_member (accepts : String → Value → Bool) (now : String) (out : Map) (p : String × Value) : Option Map :=
  if READ_ONLY.contains p.1 then some out
  else if p.1 = "id" then if p.2.as_str.any valid_id then some (SortedMap.insert "id" p.2 out) else none
  else if p.1 = "type" then
    if p.2 = .string "ContextSourceRegistration" then some (SortedMap.insert "type" p.2 out) else none
  else if p.1 = "information" then
    (norm_registration_info env p.2).map (fun v => SortedMap.insert "information" v out)
  else if p.1 = "mode" then
    if p.2.as_str.any ["inclusive", "auxiliary", "exclusive", "redirect"].contains then
      some (SortedMap.insert "mode" p.2 out)
    else none
  else if p.1 = "expiresAt" then
    if p.2.as_str.any (fun s => parse_datetime chrono s.toList && !decide (dt_key s < dt_key now)) then
      some (SortedMap.insert "expiresAt" p.2 out)
    else none
  else if accepts p.1 p.2 then some (SortedMap.insert p.1 p.2 out)
  else none

end Normalize

def mode_of (doc : Value) : Option String := (doc.get "mode").bind Value.as_str

def information (doc : Value) : List Value := ((doc.get "information").bind Value.as_array).getD []

def entities (info : Value) : List Value := ((info.get "entities").bind Value.as_array).getD []

def id_of (e : Value) : Option String := (e.get "id").bind Value.as_str

def pattern_of (e : Value) : Option String := (e.get "idPattern").bind Value.as_str

def attr_names (info : Value) : List String :=
  ["propertyNames", "relationshipNames"].flatMap (fun k => (names_of info k).getD [])

/-- An exclusive registration names attributes of single entities. -/
def validate_exclusive (doc : Value) : Bool :=
  if mode_of doc ≠ some "exclusive" then true
  else (information doc).all (fun info =>
    ["propertyNames", "relationshipNames"].any (fun k => ((info.get k).bind Value.as_array).any (fun a => !a.isEmpty)) &&
      ((info.get "entities").bind Value.as_array).any (fun es =>
        es.all (fun e => (id_of e).isSome && (e.get "idPattern").isNone)))

def validate_auxiliary_ops (doc : Value) : Bool :=
  if mode_of doc ≠ some "auxiliary" then true
  else (((doc.get "operations").bind Value.as_array).getD []).all (fun o =>
    o.as_str.all ["retrieveOps", "retrieveEntity", "queryEntity"].contains)

section Registrations

variable {Instant : Type} [LinearOrder Instant] (chrono : Chrono Instant) (accepts : String → Value → Bool)

def is_null (v : Value) : Bool := v = .null || v = .string "urn:ngsi-ld:null"

def norm_member (env : Env) (now : String) (is_patch : Bool) (out : Map) (p : String × Value) : Option Map :=
  if is_patch && p.1 ≠ "id" && is_null p.2 then
    if ["type", "information", "endpoint"].contains p.1 then none else some (SortedMap.insert p.1 .null out)
  else norm_reg_member chrono env accepts now out p

def normalize_registration (env : Env) (now : String) (doc : Map) (is_patch : Bool) : Option Map :=
  if !is_patch && doc.any (fun p => p.2 = .string "urn:ngsi-ld:null") then none
  else (doc.foldlM (norm_member chrono accepts env now is_patch) []).bind fun out =>
    if is_patch then some out
    else if ["type", "endpoint", "information"].all (fun k => (out.lookup k).isSome) && validate_exclusive (.object out) then
      some out
    else none

/-- A patch is laid over a registration; the id stays. -/
def merge_fragment (target fragment : Map) : Map :=
  fragment.foldl (fun m p =>
    if p.1 = "id" then m
    else if p.2 = .null then SortedMap.erase p.1 m
    else SortedMap.insert p.1 p.2 m) target

def apply_doc_fragment (target fragment : Map) (ts : String) : Map :=
  SortedMap.insert "modifiedAt" (.string ts) (merge_fragment target fragment)

/-- Registrations whose content is proxied, not answered beside the broker's own. -/
def proxied (doc : Value) : Bool := mode_of doc = some "exclusive" || mode_of doc = some "redirect"

/-- A new exclusive registration against the proxied, a new redirect against the exclusive. -/
def guarded (doc other : Value) : Bool :=
  if mode_of doc = some "exclusive" then proxied other else mode_of other = some "exclusive"

def non_empty (l : List String) : Option (List String) := if l = [] then none else some l

/-- The one query a RegistrationInfo of the new registration becomes. -/
def overlap_spec (info : Value) : CsrSpec where
  types := non_empty ((entities info).flatMap ei_types)
  ids := non_empty ((entities info).filterMap id_of)
  id_pattern := (entities info).findSome? pattern_of
  attrs := non_empty (attr_names info)
  dataset_ids := none
  csf := none
  geo := none
  temporal := none

/-- Whether the walk refuses the new registration at another. -/
def overlaps (env : Env) (now : String) (self_id : Option String) (doc other : Value) : Bool :=
  if id_of other = self_id then false
  else if reg_expired now other then false
  else if !guarded doc other then false
  else (information doc).any (fun info => matching_infos env (overlap_spec info) other ≠ [])

/-- What a request writes once its checks are through. -/
inductive Write
  | create (id : String)
  | update (id : String) (fragment : Map)

/-- The section under the tenant's lock: the document to be written, if any,
and how far the walk over the others has come. -/
structure Held where
  write : Write
  env : Env
  doc : Option Value
  self_id : Option String
  cursor : Option String
  checked : Bool

structure State where
  docs : BTreeMap String Value
  now : String
  held : Option Held

inductive Request
  | create (doc : Map)
  | update (id : String) (fragment : Map)

inductive Act
  /-- time passes -/
  | tick (now : String)
  /-- a registration goes: deleted, or expired and collected -/
  | remove (id : String)
  /-- a request that was parsed earlier under its own context takes the lock -/
  | acquire (r : Request) (expand : String → String) (parsed_at generated : String)
  | page
  | write
  /-- the request that holds the lock fails -/
  | abandon

variable (regex : String → Option (String → Bool))

def context (expand : String → String) : Env := ⟨expand, fun _ => none, regex⟩

/-- An expired registration is removed by the write that names it. -/
def take_live_registration (s : State) (id : String) : BTreeMap String Value × Option Value :=
  match s.docs.get id with
  | none => (s.docs, none)
  | some doc => if reg_expired s.now doc then (s.docs.remove id, none) else (s.docs, some doc)

/-- The id a new registration is stored under, a generated one if it has none. -/
def new_id (norm : Map) (generated : String) : String := ((norm.lookup "id").bind Value.as_str).getD generated

def new_document (norm : Map) (generated : String) : Map :=
  SortedMap.insert "id" (.string (new_id norm generated)) norm

/-- The lock is taken; `none` if it is held or the request is refused before the walk. -/
def acquire (s : State) (r : Request) (expand : String → String) (parsed_at generated : String) : Option State :=
  let env := context regex expand
  if s.held.isSome then none
  else match r with
  | .create obj =>
      (normalize_registration chrono accepts env parsed_at obj false).bind fun norm =>
        let id := new_id norm generated
        let doc := .object (new_document norm generated)
        if !validate_auxiliary_ops doc then none
        else some { s with
          docs := (take_live_registration s id).1
          held := some ⟨.create id, env, some doc, none, none, !proxied doc⟩ }
  | .update id obj =>
      if !valid_id id then none
      else (normalize_registration chrono accepts env parsed_at obj true).bind fun fragment =>
        let (docs, before) := take_live_registration s id
        match before.bind Value.as_object with
        | none => some { s with docs := docs, held := some ⟨.update id fragment, env, none, some id, none, true⟩ }
        | some prev =>
            let merged := .object (merge_fragment prev fragment)
            if !validate_exclusive merged || !validate_auxiliary_ops merged then none
            else some { s with
              docs := docs
              held := some ⟨.update id fragment, env, some merged, some id, none, !proxied merged⟩ }

def list_page (docs : BTreeMap String Value) (after : Option String) : List (String × Value) :=
  (docs.entries.filter (fun e => after.all (fun a => a < e.1))).take SCAN_PAGE

/-- One page of the walk; a conflict ends the request. -/
def read_page (s : State) (h : Held) (doc : Value) : State :=
  let page := list_page s.docs h.cursor
  if page.any (fun e => overlaps h.env s.now h.self_id doc e.2) then { s with held := none }
  else
    let cursor := page.foldl (fun c e => (id_of e.2).or c) h.cursor
    { s with held := some { h with cursor := cursor, checked := page.length < SCAN_PAGE || cursor = h.cursor } }

def write (s : State) (h : Held) : BTreeMap String Value :=
  match h.write, h.doc with
  | .create id, some (.object norm) =>
      if (s.docs.get id).isSome then s.docs
      else s.docs.insert id (.object (SortedMap.insert "modifiedAt" (.string s.now)
        (SortedMap.insert "createdAt" (.string s.now) norm)))
  | .create _, _ => s.docs
  | .update id fragment, _ =>
      match (s.docs.get id).bind Value.as_object with
      | none => s.docs
      | some target => s.docs.insert id (.object (apply_doc_fragment target fragment s.now))

def step (s : State) : Act → Option State
  | .tick now => if dt_key s.now ≤ dt_key now then some { s with now := now } else none
  | .remove id => some { s with docs := s.docs.remove id }
  | .acquire r expand parsed_at generated => acquire chrono accepts regex s r expand parsed_at generated
  | .page =>
      s.held.bind fun h =>
        match h.checked, h.doc with
        | false, some doc => some (read_page s h doc)
        | _, _ => none
  | .write => s.held.bind fun h => if h.checked then some { s with docs := write s h, held := none } else none
  | .abandon => some { s with held := none }

def run (s : State) : List Act → Option State
  | [] => some s
  | a :: acts => (step chrono accepts regex s a).bind (fun s' => run s' acts)

def start (now : String) : State := ⟨BTreeMap.empty, now, none⟩

end Registrations

end AntaresBroker.Proxied
