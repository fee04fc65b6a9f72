import AntaresBroker.EntityId
import AntaresBroker.Eval
import AntaresBroker.Fallible

namespace AntaresBroker.JsonLd

open Fallible Json Text Ql.Eval Expiry Model SortedMap

def NGSI_LD_BASE : String := "https://uri.etsi.org/ngsi-ld/"

def NON_REIFIED_TERMS : List String := [
  "datasetId", "instanceId", "observedAt", "unitCode", "lang", "objectType", "previousValue", "previousObject",
  "previousLanguageMap", "createdAt", "modifiedAt", "deletedAt", "expiresAt", "scope"]

def GEO_ENTITY_MEMBERS : List String := [
  "https://uri.etsi.org/ngsi-ld/location", "https://uri.etsi.org/ngsi-ld/observationSpace",
  "https://uri.etsi.org/ngsi-ld/operationSpace"]

/-- The members of a payload that are no attribute. -/
def ENTITY_LEVEL : List String := [
  "id", "@id", "type", "@type", "@context", "scope", "expiresAt", "createdAt", "modifiedAt", "deletedAt"]

def NGSI_NULL : String := "urn:ngsi-ld:null"

structure ExpandOpts where
  fragment : Bool := false
  allow_null : Bool := false
  merge : Bool := false
  temporal : Bool := false
  sys : Bool := false
deriving DecidableEq

/-- Why an input payload is bad request data. -/
inductive ExpandError
  | MemberNull (k : String)
  | IdNotString
  | InvalidId (id : String)
  | IdRequired
  | TypeName (t : String)
  | TypeNotIri (t : String)
  | TypeEntry
  | TypeShape
  | TypeRequired
  | ScopeInstance
  | ScopeEntry
  | ScopeShape
  | InvalidScope (s : String)
  | ScopeNullMixed
  | ExpiresAt
  | EmptyAttrName
  | AttrNotIri (key : String)
  | NonReified (key : String)
  | NotGeoProperty (key : String)
  | DuplicateDatasetId (key d : String)
  | SecondDefault (key : String)
  | AlreadyDefined (key iri : String)
  | Instance (detail : String)
deriving DecidableEq

def is_ngsi_null (v : Value) : Bool := v.as_str = some NGSI_NULL

def is_ngsi_null_langmap (v : Value) : Bool :=
  is_ngsi_null v || v.as_object.any (fun m => m.length = 1 && (m.lookup "@none").any is_ngsi_null)

def is_ngsi_null_list (v : Value) : Bool :=
  is_ngsi_null v || v.as_array.any (fun a => a.length = 1 && a.head?.any is_ngsi_null)

/-- The whole instance is to be deleted. -/
def is_deletion_instance (inst : Value) : Bool :=
  is_ngsi_null inst ||
    inst.as_object.any (fun o =>
      (o.lookup "value").any is_ngsi_null || (o.lookup "object").any is_ngsi_null ||
        (o.lookup "languageMap").any is_ngsi_null_langmap || (o.lookup "json").any is_ngsi_null ||
        (o.lookup "vocab").any is_ngsi_null || (o.lookup "valueList").any is_ngsi_null_list ||
        (o.lookup "objectList").any is_ngsi_null_list)

/-- What an expansion is given: the request's context, the date library, the
letters and numbers of Unicode, and the expansion of one attribute's value. -/
structure Expander (Instant : Type) [LinearOrder Instant] where
  ctx : Context
  chrono : Chrono Instant
  is_alphabetic : Char → Bool
  is_numeric : Char → Bool
  expand_attribute : String → Value → ExpandOpts → Except ExpandError (List Value)

namespace Expander

variable {Instant : Type} [LinearOrder Instant] (x : Expander Instant)

def level_ok (level : List Char) : Bool :=
  level.head?.any x.is_alphabetic && level.tail.all (fun c => x.is_alphabetic c || x.is_numeric c || c = '_')

/-- The scope grammar. -/
def valid_scope_value (s : String) : Bool :=
  let body := match s.toList with
    | '/' :: rest => rest
    | whole => whole
  !body.isEmpty && (body.splitOn '/').all x.level_ok

def valid_name (s : String) : Bool := s.toList.contains ':' || x.level_ok s.toList

/-- No member of a whole entity is the null. -/
def reject_first_level_nulls (doc : Map) : Except ExpandError Unit :=
  match doc.find? (fun p => is_ngsi_null p.2) with
  | some p => .error (.MemberNull p.1)
  | none => .ok ()

def id_member (doc : Map) (opts : ExpandOpts) : Except ExpandError (Option Value) :=
  match (doc.lookup "id").or (doc.lookup "@id") with
  | some (.string id) => if valid_id id then .ok (some (.string id)) else .error (.InvalidId id)
  | some _ => .error .IdNotString
  | none => if opts.fragment then .ok none else .error .IdRequired

def expand_type (t : String) : Except ExpandError Value :=
  if !x.valid_name t then .error (.TypeName t)
  else if is_absolute_iri (x.ctx.expand_key t) then .ok (.string (x.ctx.expand_key t))
  else .error (.TypeNotIri t)

/-- The types of an entity as IRIs. -/
def expand_types (v : Value) : Except ExpandError (List Value) :=
  match v with
  | .string t => if t = "" then .error .TypeShape else (x.expand_type t).map ([·])
  | .array (a :: items) => (a :: items).mapM (fun t =>
      match t with
      | .string t => if t = "" then .error .TypeEntry else x.expand_type t
      | _ => .error .TypeEntry)
  | _ => .error .TypeShape

def type_member (doc : Map) (opts : ExpandOpts) : Except ExpandError (Option Value) :=
  match (doc.lookup "type").or (doc.lookup "@type") with
  | some v => (x.expand_types v).map (fun types => some (.array types))
  | none => if opts.fragment then .ok none else .error .TypeRequired

def valid_scope (opts : ExpandOpts) (s : String) : Bool :=
  if s = NGSI_NULL then opts.allow_null else x.valid_scope_value s

def scope_values (v : Value) : Except ExpandError (List String) :=
  match v with
  | .string s => .ok [s]
  | .array vs => if vs.all Value.is_string then .ok (vs.filterMap Value.as_str) else .error .ScopeInstance
  | _ => .error .ScopeInstance

def scope_item (opts : ExpandOpts) (s : Value) : Except ExpandError Value :=
  match s with
  | .string s => .ok (.string s)
  | .object o =>
      -- the temporal representation of a scope: an instance whose value is the scope
      if opts.temporal then
        (match o.lookup "value" with
          | some v => scope_values v
          | none => .error .ScopeInstance).bind fun vals =>
            match vals.find? (fun sv => !x.valid_scope opts sv) with
            | some sv => .error (.InvalidScope sv)
            | none => .ok (.object o)
      else .error .ScopeEntry
  | _ => .error .ScopeEntry

def scopes_of (opts : ExpandOpts) (v : Value) : Except ExpandError (List Value) :=
  match v with
  | .string s => .ok [.string s]
  | .array a => a.mapM (x.scope_item opts)
  | _ => .error .ScopeShape

def scope_member (doc : Map) (opts : ExpandOpts) : Except ExpandError (Option Value) :=
  match doc.lookup "scope" with
  | none => .ok none
  | some v => (x.scopes_of opts v).bind fun scopes =>
      match (scopes.filterMap Value.as_str).find? (fun s => !x.valid_scope opts s) with
      | some s => .error (.InvalidScope s)
      | none =>
          if scopes.length > 1 && scopes.any is_ngsi_null then .error .ScopeNullMixed
          else .ok (some (.array scopes))

/-- The lifetime of a transient entity; in a fragment the null asks for its removal. -/
def expires_member (doc : Map) (opts : ExpandOpts) : Except ExpandError (Option Value) :=
  match doc.lookup "expiresAt" with
  | none => .ok none
  | some v =>
      match v.as_str with
      | some s =>
          if (opts.allow_null && (opts.fragment || opts.merge) && s = NGSI_NULL) || parse_datetime x.chrono s.toList then
            .ok (some (.string s))
          else .error .ExpiresAt
      | none => .error .ExpiresAt

def sys_member (doc : Map) (opts : ExpandOpts) (k : String) : Option Value :=
  if opts.sys then (doc.lookup k).filter (fun v => v.as_str.any (fun ts => parse_datetime x.chrono ts.toList)) else none

def put (k : String) (v : Option Value) (out : Map) : Map :=
  match v with
  | some v => insert k v out
  | none => out

/-- The members of the entity itself. -/
def entity_members (doc : Map) (opts : ExpandOpts) : Except ExpandError Map :=
  (id_member doc opts).bind fun id =>
  (x.type_member doc opts).bind fun types =>
  (x.scope_member doc opts).bind fun scope =>
  (x.expires_member doc opts).map fun expires =>
    let out := put "expiresAt" expires (put "scope" scope (put "type" types (put "id" id [])))
    ["createdAt", "modifiedAt", "deletedAt"].foldl (fun out k => put k (x.sys_member doc opts k) out) out

def expand_attr_name (key : String) : Except ExpandError String :=
  if is_absolute_iri (x.ctx.expand_key key) then .ok (x.ctx.expand_key key) else .error (.AttrNotIri key)

def not_geo (opts : ExpandOpts) (inst : Value) : Bool :=
  (inst.get "type").bind Value.as_str ≠ some "GeoProperty" &&
    !(opts.allow_null && (inst.get "value").any is_ngsi_null)

def first_repeated (seen : List String) : List String → Option String
  | [] => none
  | d :: ds => if seen.contains d then some d else first_repeated (d :: seen) ds

/-- One instance of a datasetId, and one without. -/
def validate_dataset_ids (key : String) (instances : List Value) : Except ExpandError Unit :=
  let ids := instances.map (fun inst => (inst.get "datasetId").bind Value.as_str)
  match first_repeated [] (ids.filterMap id) with
  | some d => .error (.DuplicateDatasetId key d)
  | none => if 1 < ids.count none then .error (.SecondDefault key) else .ok ()

/-- The IRI and the instances of one attribute of a payload. -/
def attr_entry (opts : ExpandOpts) (p : String × Value) : Except ExpandError (String × Value) :=
  if p.1 = "" then .error .EmptyAttrName
  else
    (x.expand_attr_name p.1).bind fun iri =>
    if ( strip_prefix iri NGSI_LD_BASE).any NON_REIFIED_TERMS.contains then .error (.NonReified p.1)
    else (x.expand_attribute p.1 p.2 opts).bind fun instances =>
      if GEO_ENTITY_MEMBERS.contains iri && instances.any (not_geo opts) then .error (.NotGeoProperty p.1)
      else (if opts.temporal then .ok () else validate_dataset_ids p.1 instances).map fun _ => (iri, .array instances)

def add_attr (opts : ExpandOpts) (out : Map) (p : String × Value) : Except ExpandError Map :=
  if ENTITY_LEVEL.contains p.1 then .ok out
  else (x.attr_entry opts p).bind fun e =>
    if (out.lookup e.1).isSome then .error (.AlreadyDefined p.1 e.1) else .ok (insert e.1 e.2 out)

def expand_entity (doc : Map) (opts : ExpandOpts) : Except ExpandError Map :=
  (if opts.allow_null then .ok () else reject_first_level_nulls doc).bind fun _ =>
  (x.entity_members doc opts).bind fun out =>
  doc.foldlM (x.add_attr opts) out

variable {x} {opts : ExpandOpts}

theorem attr_entry_key {p e : String × Value} (h : x.attr_entry opts p = .ok e) :
    e.1 = x.ctx.expand_key p.1 ∧ is_absolute_iri e.1 = true := by
  obtain ⟨iri, hiri, h⟩ := bind_eq_ok.mp (ite_ok.mp h).2
  obtain ⟨instances, -, h⟩ := bind_eq_ok.mp (ite_ok.mp h).2
  obtain ⟨-, -, rfl⟩ := map_eq_ok.mp (ite_ok.mp h).2
  obtain ⟨habs, heq⟩ := ite_error.mp hiri
  rw [Except.ok.injEq] at heq
  exact ⟨heq.symm, heq ▸ habs⟩

/-- An attribute is added under its IRI, which no member before it took. -/
theorem add_attr_ok {out res : Map} {p : String × Value} (h : x.add_attr opts out p = .ok res) :
    (ENTITY_LEVEL.contains p.1 = true ∧ res = out) ∨
      (ENTITY_LEVEL.contains p.1 = false ∧ ∃ e, x.attr_entry opts p = .ok e ∧ out.lookup e.1 = none ∧
        res = insert e.1 e.2 out) := by
  cases hp : ENTITY_LEVEL.contains p.1 with
  | true =>
      rw [add_attr, if_pos hp, Except.ok.injEq] at h
      exact Or.inl ⟨rfl, h.symm⟩
  | false =>
      rw [add_attr, hp, if_neg Bool.false_ne_true] at h
      obtain ⟨e, he, h⟩ := bind_eq_ok.mp h
      obtain ⟨hnew, h⟩ := ite_ok.mp h
      rw [Except.ok.injEq] at h
      exact Or.inr ⟨rfl, e, he, Option.not_isSome_iff_eq_none.mp hnew, h.symm⟩

theorem foldlM_add_attr {doc out res : Map} (h : doc.foldlM (x.add_attr opts) out = .ok res) :
    (∀ k v, out.lookup k = some v → res.lookup k = some v) ∧
      (∀ p ∈ doc, ENTITY_LEVEL.contains p.1 = false →
        ∃ e, x.attr_entry opts p = .ok e ∧ res.lookup e.1 = some e.2) ∧
      ∀ k v, res.lookup k = some v →
        out.lookup k = some v ∨ ∃ p ∈ doc, ENTITY_LEVEL.contains p.1 = false ∧ x.attr_entry opts p = .ok (k, v) := by
  induction doc generalizing out with
  | nil =>
      cases h
      exact ⟨fun _ _ hk => hk, fun _ hp => absurd hp List.not_mem_nil, fun _ _ hk => Or.inl hk⟩
  | cons p doc ih =>
      rw [List.foldlM_cons] at h
      obtain ⟨next, hnext, h⟩ := bind_eq_ok.mp h
      obtain ⟨hkeep, hadd, hfrom⟩ := ih h
      rcases add_attr_ok hnext with ⟨hmeta, rfl⟩ | ⟨hattr, e, he, hnew, rfl⟩
      · refine ⟨hkeep, ?_, ?_⟩
        · intro q hq hqa
          rcases List.mem_cons.mp hq with rfl | hq
          · rw [hmeta] at hqa
            cases hqa
          · exact hadd q hq hqa
        · intro k v hk
          exact (hfrom k v hk).imp_right (fun ⟨q, hq, hqa⟩ => ⟨q, List.mem_cons_of_mem _ hq, hqa⟩)
      · refine ⟨?_, ?_, ?_⟩
        · intro k v hk
          apply hkeep
          have hne : k ≠ e.1 := by
            rintro rfl
            rw [hnew] at hk
            cases hk
          rw [lookup_insert, if_neg hne, hk]
        · intro q hq hqa
          rcases List.mem_cons.mp hq with rfl | hq
          · exact ⟨e, he, hkeep _ _ (by rw [lookup_insert, if_pos rfl])⟩
          · exact hadd q hq hqa
        · intro k v hk
          rcases hfrom k v hk with hk | ⟨q, hq, hqa⟩
          · rw [lookup_insert] at hk
            by_cases hke : k = e.1
            · rw [if_pos hke, Option.some.injEq] at hk
              exact Or.inr ⟨p, List.mem_cons_self, hattr, by rw [he, hke, ← hk]⟩
            · rw [if_neg hke] at hk
              exact Or.inl hk
          · exact Or.inr ⟨q, List.mem_cons_of_mem _ hq, hqa⟩

theorem lookup_put (k l : String) (v : Option Value) (out : Map) :
    (put k v out).lookup l = if l = k then v.or (out.lookup l) else out.lookup l := by
  cases v with
  | none => split_ifs <;> rfl
  | some v => rw [put, lookup_insert, Option.some_or]

/-- The members of the entity itself, each of its own source. -/
theorem entity_members_ok {doc out : Map} (h : x.entity_members doc opts = .ok out) :
    id_member doc opts = .ok (out.lookup "id") ∧ x.type_member doc opts = .ok (out.lookup "type") ∧
      x.scope_member doc opts = .ok (out.lookup "scope") ∧ x.expires_member doc opts = .ok (out.lookup "expiresAt") ∧
      ∀ k v, out.lookup k = some v → ENTITY_LEVEL.contains k = true := by
  obtain ⟨id, hid, h⟩ := bind_eq_ok.mp h
  obtain ⟨types, htypes, h⟩ := bind_eq_ok.mp h
  obtain ⟨scope, hscope, h⟩ := bind_eq_ok.mp h
  obtain ⟨expires, hexpires, rfl⟩ := map_eq_ok.mp h
  simp only [List.foldl_cons, List.foldl_nil, lookup_put, List.lookup_nil, Option.or_none]
  refine ⟨by simpa using hid, by simpa using htypes, by simpa using hscope, by simpa using hexpires, ?_⟩
  intro k v hk
  by_contra hn
  simp only [ENTITY_LEVEL, Bool.not_eq_true, List.contains_cons, Bool.or_eq_false_iff, beq_eq_false_iff_ne] at hn
  simp only [if_neg hn.1, if_neg hn.2.2.1, if_neg hn.2.2.2.2.2.1, if_neg hn.2.2.2.2.2.2.1, if_neg hn.2.2.2.2.2.2.2.1,
    if_neg hn.2.2.2.2.2.2.2.2.1, if_neg hn.2.2.2.2.2.2.2.2.2.1] at hk
  cases hk

theorem not_absolute_of_entity_level : ∀ k ∈ ENTITY_LEVEL, is_absolute_iri k = false := by decide

/-- Every attribute of a payload is under its IRI, the entity's own members beside them. -/
theorem expand_entity_ok {doc res : Map} (h : x.expand_entity doc opts = .ok res) :
    (id_member doc opts = .ok (res.lookup "id") ∧ x.type_member doc opts = .ok (res.lookup "type") ∧
      x.scope_member doc opts = .ok (res.lookup "scope") ∧ x.expires_member doc opts = .ok (res.lookup "expiresAt")) ∧
      (∀ p ∈ doc, ENTITY_LEVEL.contains p.1 = false →
        ∃ e, x.attr_entry opts p = .ok e ∧ res.lookup e.1 = some e.2) ∧
      ∀ k v, res.lookup k = some v →
        ENTITY_LEVEL.contains k = true ∨
          ∃ p ∈ doc, ENTITY_LEVEL.contains p.1 = false ∧ x.attr_entry opts p = .ok (k, v) := by
  obtain ⟨-, -, h⟩ := bind_eq_ok.mp h
  obtain ⟨out, hout, h⟩ := bind_eq_ok.mp h
  obtain ⟨hid, htype, hscope, hexpires, hmeta⟩ := entity_members_ok hout
  obtain ⟨hkeep, hadd, hfrom⟩ := foldlM_add_attr h
  have hsame : ∀ k ∈ ENTITY_LEVEL, res.lookup k = out.lookup k := by
    intro k hk
    cases ho : out.lookup k with
    | some v => exact hkeep k v ho
    | none =>
        cases hr : res.lookup k with
        | none => rfl
        | some v =>
            rcases hfrom k v hr with hk' | ⟨p, -, -, hp⟩
            · rw [ho] at hk'
              cases hk'
            · have habs := (attr_entry_key hp).2
              rw [not_absolute_of_entity_level k hk] at habs
              cases habs
  rw [hsame "id" (by decide), hsame "type" (by decide), hsame "scope" (by decide), hsame "expiresAt" (by decide)]
  exact ⟨⟨hid, htype, hscope, hexpires⟩, hadd, fun k v hk => (hfrom k v hk).imp_left (hmeta k v)⟩

end Expander

end AntaresBroker.JsonLd
