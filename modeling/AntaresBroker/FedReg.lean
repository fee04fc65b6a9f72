import AntaresBroker.Grouping
import AntaresBroker.Registry

namespace AntaresBroker.Federation

open Json Ql Ql.Eval Expiry Registry

/-- Table 4.20-1, in the table's own order. -/
def OPERATION_NAMES : List String := [
  "createEntity", "updateEntity", "appendAttrs", "updateAttrs", "deleteAttrs", "deleteEntity", "createBatch",
  "upsertBatch", "updateBatch", "deleteBatch", "upsertTemporal", "appendAttrsTemporal", "deleteAttrsTemporal",
  "updateAttrInstanceTemporal", "deleteAttrInstanceTemporal", "deleteTemporal", "mergeEntity", "replaceEntity",
  "replaceAttrs", "mergeBatch", "purgeEntity", "retrieveEntity", "queryEntity", "queryBatch", "retrieveTemporal",
  "queryTemporal", "retrieveEntityTypes", "retrieveEntityTypeDetails", "retrieveEntityTypeInfo", "retrieveAttrTypes",
  "retrieveAttrTypeDetails", "retrieveAttrTypeInfo", "createSubscription", "updateSubscription",
  "retrieveSubscription", "querySubscription", "deleteSubscription", "retrieveEntityMap", "updateEntityMap",
  "deleteEntityMap", "createEntityMapQueryEntity", "createEntityMapQueryTemporal", "retrieveContextSourceIdentity"]

def DEFAULT_OPERATION_GROUP : String := "federationOps"

def FEDERATION : List String := [
  "retrieveEntity", "queryEntity", "queryBatch", "retrieveEntityTypes", "retrieveEntityTypeDetails",
  "retrieveEntityTypeInfo", "retrieveAttrTypes", "retrieveAttrTypeDetails", "retrieveAttrTypeInfo",
  "createSubscription", "updateSubscription", "retrieveSubscription", "querySubscription", "deleteSubscription",
  "retrieveEntityMap", "updateEntityMap", "deleteEntityMap", "createEntityMapQueryEntity",
  "retrieveContextSourceIdentity"]

def ASSOCIATION : List String := [
  "retrieveEntity", "queryEntity", "queryBatch", "retrieveEntityTypes", "retrieveEntityTypeDetails",
  "retrieveEntityTypeInfo", "retrieveAttrTypes", "retrieveAttrTypeDetails", "retrieveAttrTypeInfo",
  "createSubscription", "updateSubscription", "retrieveSubscription", "querySubscription", "deleteSubscription",
  "retrieveContextSourceIdentity"]

def REDIRECTION : List String := [
  "createEntity", "updateEntity", "appendAttrs", "updateAttrs", "deleteAttrs", "deleteEntity", "mergeEntity",
  "replaceEntity", "replaceAttrs", "retrieveEntity", "queryEntity", "purgeEntity", "retrieveEntityTypes",
  "retrieveEntityTypeDetails", "retrieveEntityTypeInfo", "retrieveAttrTypes", "retrieveAttrTypeDetails",
  "retrieveAttrTypeInfo", "retrieveEntityMap", "updateEntityMap", "deleteEntityMap", "createEntityMapQueryEntity",
  "retrieveContextSourceIdentity"]

/-- The operations one group name stands for. -/
def group_members (name : String) : Option (List String) :=
  if name = "federationOps" then some FEDERATION
  else if name = "associationOps" then some ASSOCIATION
  else if name = "updateOps" then some ["updateEntity", "updateAttrs", "replaceEntity", "replaceAttrs"]
  else if name = "retrieveOps" then some ["retrieveEntity", "queryEntity"]
  else if name = "redirectionOps" then some REDIRECTION
  else none

/-- What a registration restricts: attributes (`none` for all), entity ids and types. -/
structure Scope where
  attrs : Option (List String)
  ent_ids : List String
  ent_types : List String
  ent_patterns : List String
  ent_unrestricted : Bool
deriving DecidableEq

/-- One matching registration, compiled for forwarding. -/
structure FedReg extends Scope where
  reg_id : String
  endpoint : String
  mode : String
  ops : List String
  tenant : Option String
  context_source_alias : Option String
  csi : List (String × String)
  local_only : Bool
  timeout_ms : Option Nat
  cooldown_ms : Option Nat
deriving DecidableEq

/-- The types of an item, in either form. -/
def item_types (expand : String → String) (obj : Map) : List String :=
  (match obj.lookup "type" with
    | some (.string t) => [t]
    | some (.array a) => a.filterMap Value.as_str
    | _ => []).map expand

namespace Scope

def covers_attr (s : Scope) (iri : String) : Bool := s.attrs.all (fun a => a.contains iri)

variable (env : Env)

def can_match_id (s : Scope) (id : String) : Bool :=
  s.ent_unrestricted || s.ent_ids.contains id || s.ent_patterns.any (fun p => finds env p id)

/-- An item whose id or type the registration does not name is not the source's. -/
def covers_item (s : Scope) (obj : Map) : Bool :=
  ((s.ent_ids = [] && s.ent_patterns = []) || ((obj.lookup "id").bind Value.as_str).all (s.can_match_id env)) &&
    (s.ent_types = [] || item_types env.expand obj = [] || (item_types env.expand obj).any s.ent_types.contains)

def empty : Scope := ⟨some [], [], [], [], false⟩

def add_entity (s : Scope) (e : Value) : Scope :=
  { s with
    ent_ids := s.ent_ids ++ ((e.get "id").bind Value.as_str).toList
    ent_patterns := s.ent_patterns ++ ((e.get "idPattern").bind Value.as_str).toList
    -- neither id nor idPattern: the element restricts by type only
    ent_unrestricted := s.ent_unrestricted || ((e.get "id").isNone && (e.get "idPattern").isNone)
    ent_types := s.ent_types ++ ei_types e }

def add_attrs (s : Scope) (info : Value) : Scope :=
  match names_of info "propertyNames", names_of info "relationshipNames" with
  | none, none => { s with attrs := none }
  | props, rels => { s with attrs := s.attrs.map (fun list => list ++ props.getD [] ++ rels.getD []) }

def add_info (s : Scope) (info : Value) : Scope :=
  match (info.get "entities").bind Value.as_array with
  | some es => es.foldl add_entity (s.add_attrs info)
  | none => { s.add_attrs info with ent_unrestricted := true }

/-- The scopes of two registrations of one source; an unscoped one covers everything. -/
def union (o r : Scope) : Scope where
  attrs :=
    match o.attrs, r.attrs with
    | some a, some b => some (b.foldl (fun a x => if a.contains x then a else a ++ [x]) a)
    | _, _ => none
  ent_ids := o.ent_ids ++ r.ent_ids
  ent_types := o.ent_types ++ r.ent_types
  ent_patterns := o.ent_patterns ++ r.ent_patterns
  ent_unrestricted := o.ent_unrestricted || r.ent_unrestricted

end Scope

namespace FedReg

def supports (r : FedReg) (op : String) : Bool :=
  r.ops.any (fun o => o = op || (group_members o).any (fun members => members.contains op))

def is_proxy (r : FedReg) : Bool := r.mode = "exclusive" || r.mode = "redirect"

end FedReg

def as_u64 : Value → Option Nat
  | .number (.posInt n) => some n.toNat
  | _ => none

def local_only_of (reg : Value) : Bool :=
  (((reg.get "localOnly").bind Value.as_bool).or
    ((reg.get "management").bind (fun m => (m.get "localOnly").bind Value.as_bool))).getD false

def csi_of (reg : Value) : List (String × String) :=
  (((reg.get "contextSourceInfo").bind Value.as_array).getD []).filterMap (fun kv =>
    ((kv.get "key").bind Value.as_str).bind (fun k => ((kv.get "value").bind Value.as_str).map (fun v => (k, v))))

/-- The API root of a source, however its registration spells it. -/
def endpoint_of (endpoint : String) : String :=
  let e := endpoint.toList.rdropWhile (· = '/')
  let root := "/ngsi-ld/v1".toList
  String.ofList (if root.isSuffixOf e then e.take (e.length - root.length) else e)

variable (env : Env) {Instant : Type} [LinearOrder Instant] (chrono : Chrono Instant)

/-- A stored registration as one to forward to, if it matches. -/
def compile (now : String) (spec : CsrSpec) (seen : List String) (doc : Value) : Option FedReg :=
  (reg_candidate env chrono now spec seen doc).bind fun infos =>
    ((doc.get "endpoint").bind Value.as_str).map fun endpoint => {
      infos.foldl Scope.add_info Scope.empty with
      reg_id := ((doc.get "id").bind Value.as_str).getD ""
      endpoint := endpoint_of endpoint
      mode := ((doc.get "mode").bind Value.as_str).getD "inclusive"
      ops := (((doc.get "operations").bind Value.as_array).map (fun a => a.filterMap Value.as_str)).getD
        [DEFAULT_OPERATION_GROUP]
      tenant := (doc.get "tenant").bind Value.as_str
      context_source_alias := (doc.get "contextSourceAlias").bind Value.as_str
      csi := csi_of doc
      local_only := local_only_of doc
      timeout_ms := (doc.get "management").bind (fun m => (m.get "timeout").bind as_u64)
      cooldown_ms := (doc.get "management").bind (fun m => (m.get "cooldown").bind as_u64) }

/-- The operations a registration answers, its groups expanded. -/
def op_set (r : FedReg) : List String := OPERATION_NAMES.filter r.supports

/-- What makes two registrations name one source. -/
structure Source where
  endpoint : String
  mode : String
  tenant : Option String
  context_source_alias : Option String
  csi : List (String × String)
  local_only : Bool
  ops : List String
deriving DecidableEq

def source (p : FedReg × List String) : Source :=
  ⟨p.1.endpoint, p.1.mode, p.1.tenant, p.1.context_source_alias, p.1.csi, p.1.local_only, p.2⟩

def source_of (r : FedReg) : Source := source (r, op_set r)

/-- The first registration of a source keeps its id and timing, the scopes are joined. -/
def absorb (o r : FedReg × List String) : FedReg × List String :=
  ({ o.1 with toScope := o.1.toScope.union r.1.toScope }, o.2)

def merge_same_source (regs : List FedReg) : List FedReg :=
  (Grouping.group source absorb (regs.map (fun r => (r, op_set r)))).map Prod.fst

end AntaresBroker.Federation
