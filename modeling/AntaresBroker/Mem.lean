import AntaresBroker.BTreeMap
import AntaresBroker.Expiry
import AntaresBroker.Text
import Mathlib.Data.List.Sort

namespace AntaresBroker.Mem

open Json Expiry

inductive Kind
  | entity | subscription | registration | csourceSubscription | temporal | snapshot | entityMap | distSub
  | deadLetter
deriving DecidableEq

def ALL_KINDS : List Kind :=
  [.entity, .subscription, .registration, .csourceSubscription, .temporal, .snapshot, .entityMap, .distSub,
    .deadLetter]

structure TenantId where
  name : String
  shape : name ≠ "" ∧ name.utf8ByteSize ≤ 64 ∧ ∀ c ∈ name.toList, c.isAlphanum = true ∨ c = '_' ∨ c = '-'

def DEFAULT : String := "default"

def is_reserved_str (raw : String) : Bool := "snap-".toList.isPrefixOf raw.toList || raw == "distsub-index"

abbrev Tenants := BTreeMap String (BTreeMap String Value)

namespace Tenants

def doc (m : Tenants) (tenant id : String) : Option Value := (m.get tenant).bind (fun docs => docs.get id)

/-- The map of a tenant, made if there is none. -/
def entry (m : Tenants) (tenant : String) : Tenants := m.insert tenant ((m.get tenant).getD BTreeMap.empty)

def put (m : Tenants) (tenant id : String) (d : Value) : Tenants :=
  m.insert tenant (((m.get tenant).getD BTreeMap.empty).insert id d)

/-- Removal from the map of a tenant, which stays when it is left empty. -/
def take (m : Tenants) (tenant id : String) : Tenants :=
  match m.get tenant with
  | none => m
  | some docs => m.insert tenant (docs.remove id)

theorem doc_insert (m : Tenants) (tenant t id : String) (docs : BTreeMap String Value) :
    doc (m.insert tenant docs) t id = if t = tenant then docs.get id else doc m t id := by
  rw [doc, BTreeMap.get_insert]
  split_ifs <;> rfl

@[simp] theorem doc_entry (m : Tenants) (tenant t id : String) : doc (entry m tenant) t id = doc m t id := by
  rw [entry, doc_insert]
  split_ifs with h
  · subst h
    rw [doc]
    cases m.get t <;> rfl
  · rfl

@[simp] theorem doc_put (m : Tenants) (tenant id t i : String) (d : Value) :
    doc (put m tenant id d) t i = if t = tenant ∧ i = id then some d else doc m t i := by
  rw [put, doc_insert]
  by_cases ht : t = tenant
  · subst ht
    rw [if_pos rfl, BTreeMap.get_insert, doc]
    by_cases hi : i = id
    · simp [hi]
    · cases m.get t <;> simp [hi]
  · simp [ht]

@[simp] theorem doc_take (m : Tenants) (tenant id t i : String) :
    doc (take m tenant id) t i = if t = tenant ∧ i = id then none else doc m t i := by
  unfold take
  cases hm : m.get tenant with
  | none =>
      split_ifs with h
      · rw [doc, h.1, hm, Option.bind_none]
      · rfl
  | some docs =>
      simp only [doc_insert]
      by_cases ht : t = tenant
      · subst ht
        rw [if_pos rfl, BTreeMap.get_remove, doc, hm]
        by_cases hi : i = id <;> simp [hi]
      · simp [ht]

theorem isSome_get_entry (m : Tenants) (tenant t : String) :
    ((entry m tenant).get t).isSome ↔ t = tenant ∨ (m.get t).isSome := by
  rw [entry, BTreeMap.get_insert]
  by_cases h : t = tenant <;> simp [h]

theorem isSome_get_put (m : Tenants) (tenant id t : String) (d : Value) :
    ((put m tenant id d).get t).isSome ↔ t = tenant ∨ (m.get t).isSome := by
  rw [put, BTreeMap.get_insert]
  by_cases h : t = tenant <;> simp [h]

theorem isSome_get_take (m : Tenants) (tenant id t : String) :
    ((take m tenant id).get t).isSome ↔ (m.get t).isSome := by
  unfold take
  cases hm : m.get tenant with
  | none => exact Iff.rfl
  | some docs =>
      rw [BTreeMap.get_insert]
      by_cases h : t = tenant <;> simp [h, hm]

theorem isSome_get_remove (m : Tenants) (tenant t : String) :
    ((m.remove tenant).get t).isSome ↔ t ≠ tenant ∧ (m.get t).isSome := by
  rw [BTreeMap.get_remove]
  by_cases h : t = tenant <;> simp [h]

end Tenants

/-- Tenant to id to document, for every kind, and the shared contexts. -/
structure Inner where
  map : Kind → Tenants
  contexts : BTreeMap String Value

namespace Inner

def set_map (i : Inner) (kind : Kind) (m : Tenants) : Inner := { i with map := Function.update i.map kind m }

def get (i : Inner) (kind : Kind) (tenant id : String) : Option Value := (i.map kind).doc tenant id

def entry (i : Inner) (kind : Kind) (tenant : String) : Inner := i.set_map kind ((i.map kind).entry tenant)

def insert (i : Inner) (kind : Kind) (tenant id : String) (d : Value) : Inner :=
  i.set_map kind ((i.map kind).put tenant id d)

def remove (i : Inner) (kind : Kind) (tenant id : String) : Inner :=
  i.set_map kind ((i.map kind).take tenant id)

def drop (i : Inner) (kind : Kind) (tenant : String) : Inner := i.set_map kind ((i.map kind).remove tenant)

/-- Whether a tenant has a map of a kind, be it empty. -/
def has (i : Inner) (kind : Kind) (tenant : String) : Prop := ((i.map kind).get tenant).isSome = true

theorem has_set_map (i : Inner) (kind k : Kind) (m : Tenants) (t : String) :
    (i.set_map kind m).has k t ↔ if k = kind then (m.get t).isSome = true else i.has k t := by
  by_cases h : k = kind
  · subst h; simp [set_map, has]
  · simp [set_map, has, h]

@[simp] theorem has_entry (i : Inner) (kind k : Kind) (tenant t : String) :
    (i.entry kind tenant).has k t ↔ k = kind ∧ t = tenant ∨ i.has k t := by
  rw [entry, has_set_map, Tenants.isSome_get_entry]
  by_cases h : k = kind
  · subst h; simp [has]
  · simp [h]

@[simp] theorem has_insert (i : Inner) (kind k : Kind) (tenant id t : String) (d : Value) :
    (i.insert kind tenant id d).has k t ↔ k = kind ∧ t = tenant ∨ i.has k t := by
  rw [insert, has_set_map, Tenants.isSome_get_put]
  by_cases h : k = kind
  · subst h; simp [has]
  · simp [h]

@[simp] theorem has_remove (i : Inner) (kind k : Kind) (tenant id t : String) :
    (i.remove kind tenant id).has k t ↔ i.has k t := by
  rw [remove, has_set_map, Tenants.isSome_get_take]
  by_cases h : k = kind
  · subst h; simp [has]
  · simp [h]

@[simp] theorem has_drop (i : Inner) (kind k : Kind) (tenant t : String) :
    (i.drop kind tenant).has k t ↔ i.has k t ∧ ¬(k = kind ∧ t = tenant) := by
  rw [drop, has_set_map, Tenants.isSome_get_remove]
  by_cases h : k = kind
  · subst h; simp [has, and_comm]
  · simp [h]

theorem has_of_get {i : Inner} {kind : Kind} {t id : String} (h : (i.get kind t id).isSome) : i.has kind t := by
  rw [get, Tenants.doc] at h
  rw [has]
  cases hm : (i.map kind).get t with
  | none => simp [hm] at h
  | some docs => rfl

theorem get_set_map (i : Inner) (kind k : Kind) (m : Tenants) (t id : String) :
    (i.set_map kind m).get k t id = if k = kind then m.doc t id else i.get k t id := by
  by_cases h : k = kind
  · subst h; simp [set_map, get]
  · simp [set_map, get, h]

@[simp] theorem get_entry (i : Inner) (kind k : Kind) (tenant t id : String) :
    (i.entry kind tenant).get k t id = i.get k t id := by
  rw [entry, get_set_map]
  split_ifs with h
  · subst h; exact Tenants.doc_entry _ _ _ _
  · rfl

@[simp] theorem get_insert (i : Inner) (kind k : Kind) (tenant id t j : String) (d : Value) :
    (i.insert kind tenant id d).get k t j = if k = kind ∧ t = tenant ∧ j = id then some d else i.get k t j := by
  rw [insert, get_set_map]
  by_cases h : k = kind
  · subst h; simp [get]
  · simp [h]

@[simp] theorem get_remove (i : Inner) (kind k : Kind) (tenant id t j : String) :
    (i.remove kind tenant id).get k t j = if k = kind ∧ t = tenant ∧ j = id then none else i.get k t j := by
  rw [remove, get_set_map]
  by_cases h : k = kind
  · subst h; simp [get]
  · simp [h]

@[simp] theorem get_drop (i : Inner) (kind k : Kind) (tenant t j : String) :
    (i.drop kind tenant).get k t j = if k = kind ∧ t = tenant then none else i.get k t j := by
  rw [drop, get_set_map]
  by_cases h : k = kind
  · subst h
    by_cases ht : t = tenant <;> simp [get, Tenants.doc, ht]
  · simp [h]

@[simp] theorem contexts_entry (i : Inner) (kind : Kind) (t : String) :
    (i.entry kind t).contexts = i.contexts := rfl

@[simp] theorem contexts_insert (i : Inner) (kind : Kind) (t id : String) (d : Value) :
    (i.insert kind t id d).contexts = i.contexts := rfl

@[simp] theorem contexts_remove (i : Inner) (kind : Kind) (t id : String) :
    (i.remove kind t id).contexts = i.contexts := rfl

@[simp] theorem contexts_drop (i : Inner) (kind : Kind) (t : String) :
    (i.drop kind t).contexts = i.contexts := rfl

end Inner

inductive Table
  | docs (kind : Kind)
  | jsonldContexts
deriving DecidableEq

/-- The durable tables. A key is the text its bytes encode. -/
structure Shadow (Bytes : Type) where
  table : Table → BTreeMap String Bytes
  format : Option String

structure Store (Bytes : Type) where
  inner : Inner
  shadow : Option (Shadow Bytes)

/-- The document encoder and decoder. -/
structure Codec (Bytes : Type) where
  to_vec : Value → Option Bytes
  from_slice : Bytes → Option Value
  round_trip : ∀ v, ∃ b, to_vec v = some b ∧ from_slice b = some v

/-- Documents stored as they are. -/
def plain : Codec Value := ⟨some, some, fun v => ⟨v, rfl, rfl⟩⟩

def key_bytes (tenant id : String) : String := String.ofList (tenant.toList ++ '\x00' :: id.toList)

def split_key (key : String) : Option (String × String) :=
  if '\x00' ∈ key.toList then
    some (String.ofList (key.toList.takeWhile (· ≠ '\x00')),
      String.ofList (key.toList.dropWhile (· ≠ '\x00')).tail)
  else none

section Operations

variable {Instant Bytes : Type} [LinearOrder Instant] (chrono : Chrono Instant) (codec : Codec Bytes)

def write (sh : Shadow Bytes) (table : Table) (key : String) (value : Option Bytes) : Shadow Bytes :=
  let rows := match value with
    | some b => (sh.table table).insert key b
    | none => (sh.table table).remove key
  { sh with table := Function.update sh.table table rows }

/-- Write-through of one document; a document that does not encode is skipped. -/
def persist (s : Store Bytes) (table : Table) (key : String) (doc : Option Value) : Store Bytes :=
  match s.shadow, doc with
  | none, _ => s
  | some sh, none => { s with shadow := some (write sh table key none) }
  | some sh, some d =>
      match codec.to_vec d with
      | none => s
      | some b => { s with shadow := some (write sh table key (some b)) }

def is_expired (i : Inner) (kind : Kind) (tenant id now : String) : Bool :=
  kind = .entity && (i.get kind tenant id).any (fun d => expired_at chrono d now)

/-- The document goes in unless one that has not expired is there; `false` then. -/
def create (s : Store Bytes) (now : String) (tenant : TenantId) (kind : Kind) (id : String) (doc : Value) :
    Store Bytes × Bool :=
  let expired := is_expired chrono s.inner kind tenant.name id now
  let inner := s.inner.entry kind tenant.name
  if (inner.get kind tenant.name id).isSome && !expired then ({ s with inner := inner }, false)
  else (persist codec { s with inner := inner.insert kind tenant.name id doc } (.docs kind)
    (key_bytes tenant.name id) (some doc), true)

/-- The document that was there, and whether it had expired. -/
def upsert (s : Store Bytes) (now : String) (tenant : TenantId) (kind : Kind) (id : String) (doc : Value) :
    Store Bytes × Option Value × Bool :=
  let expired := is_expired chrono s.inner kind tenant.name id now
  let prev := s.inner.get kind tenant.name id
  (persist codec { s with inner := s.inner.insert kind tenant.name id doc } (.docs kind)
    (key_bytes tenant.name id) (some doc), prev, expired)

def delete (s : Store Bytes) (now : String) (tenant : TenantId) (kind : Kind) (id : String) :
    Store Bytes × Option Value :=
  if is_expired chrono s.inner kind tenant.name id now then (s, none)
  else
    let removed := s.inner.get kind tenant.name id
    let s' := { s with inner := s.inner.remove kind tenant.name id }
    if removed.isSome then (persist codec s' (.docs kind) (key_bytes tenant.name id) none, removed)
    else (s', removed)

def delete_if (s : Store Bytes) (now : String) (tenant : TenantId) (id : String) (keep : Value → Bool) :
    Store Bytes × Option Value :=
  if is_expired chrono s.inner .entity tenant.name id now then (s, none)
  else match s.inner.get .entity tenant.name id with
    | none => (s, none)
    | some doc =>
        if keep doc then
          (persist codec { s with inner := s.inner.remove .entity tenant.name id } (.docs .entity)
            (key_bytes tenant.name id) none, some doc)
        else (s, none)

/-- The closure works on a copy; an error leaves the document, and a copy that
came out equal is not written through. -/
def mutate {T E : Type} (s : Store Bytes) (now : String) (tenant : TenantId) (kind : Kind) (id : String)
    (f : Value → Except E (T × Value)) : Store Bytes × Option (Except E T × Option (Value × Value)) :=
  if is_expired chrono s.inner kind tenant.name id now then (s, none)
  else match s.inner.get kind tenant.name id with
    | none => (s, none)
    | some before =>
        match f before with
        | .error e => (s, some (.error e, none))
        | .ok (t, candidate) =>
            let s' := if candidate ≠ before then
              persist codec s (.docs kind) (key_bytes tenant.name id) (some candidate) else s
            let change := if kind = .entity ∧ candidate ≠ before then some (before, candidate) else none
            ({ s' with inner := s.inner.insert kind tenant.name id candidate }, some (.ok t, change))

def reap (s : Store Bytes × Nat) (p : String × String) : Store Bytes × Nat :=
  match (s.1.inner.map .entity).get p.1 with
  | none => s
  | some _ =>
      ({ persist codec s.1 (.docs .entity) (key_bytes p.1 p.2) none with
        inner := s.1.inner.remove .entity p.1 p.2 }, s.2 + 1)

def dead (i : Inner) (now : String) : List (String × String) :=
  (i.map .entity).entries.flatMap (fun e =>
    (e.2.entries.filter (fun d => expired_at chrono d.2 now)).map (fun d => (e.1, d.1)))

def ids (i : Inner) (kind : Kind) : List (String × String) :=
  (i.map kind).entries.flatMap (fun e => e.2.keys.map (fun id => (e.1, id)))

def prune_doc (now : String) (kind : Kind) (s : Store Bytes × Nat) (p : String × String) : Store Bytes × Nat :=
  match s.1.inner.get kind p.1 p.2 with
  | none => s
  | some doc =>
      let (pruned, changed) := prune_expired_instances chrono doc now
      if changed then
        (persist codec { s.1 with inner := s.1.inner.insert kind p.1 p.2 pruned } (.docs kind)
          (key_bytes p.1 p.2) (some pruned), s.2 + 1)
      else s

/-- Expired entities go, then expired instances of entities and of histories. -/
def sweep_expired (s : Store Bytes) (now : String) : Store Bytes × Nat :=
  let s := (dead chrono s.inner now).foldl (reap codec) (s, 0)
  let s := (ids s.1.inner .entity).foldl (prune_doc chrono codec now .entity) s
  (ids s.1.inner .temporal).foldl (prune_doc chrono codec now .temporal) s

def purge_kind (tenant : TenantId) (s : Store Bytes × Bool) (kind : Kind) : Store Bytes × Bool :=
  match (s.1.inner.map kind).get tenant.name with
  | none => s
  | some docs =>
      (docs.keys.foldl (fun s id => persist codec s (.docs kind) (key_bytes tenant.name id) none)
        { s.1 with inner := s.1.inner.drop kind tenant.name }, true)

def purge_kinds (s : Store Bytes) (tenant : TenantId) (kinds : List Kind) : Store Bytes × Bool :=
  kinds.foldl (purge_kind codec tenant) (s, false)

/-- A cached context belongs to no tenant, any other to its owner. -/
def context_row_owner (row : Value) : Option String :=
  if (row.get "kind").bind Value.as_str = some "Cached" then none
  else some (((row.get "owner").bind Value.as_str).getD DEFAULT)

def context_row_visible (row : Value) (tenant : Option TenantId) : Bool :=
  match context_row_owner row with
  | none => true
  | some owner => tenant.any (fun t => t.name = owner)

def remove_context (s : Store Bytes) (id : String) : Store Bytes :=
  { persist codec s .jsonldContexts id none with
    inner := { s.inner with contexts := s.inner.contexts.remove id } }

def purge_tenant (s : Store Bytes) (tenant : TenantId) : Store Bytes × Bool :=
  let (s, existed) := purge_kinds codec s tenant ALL_KINDS
  let dead := (s.inner.contexts.entries.filter (fun e => context_row_owner e.2 = some tenant.name)).map Prod.fst
  (dead.foldl (remove_context codec) s, existed)

@[irreducible] def MAX_CACHED_CONTEXTS : Nat := 1000

def is_cached (doc : Value) : Bool := (doc.get "kind").bind Value.as_str = some "Cached"

def created_at (doc : Value) : String := ((doc.get "createdAt").bind Value.as_str).getD ""

/-- The cached contexts past the ceiling, the oldest first. -/
def oldest_cached (contexts : BTreeMap String Value) : List String :=
  let cached := (contexts.entries.filter (fun e => is_cached e.2)).map (fun e => (created_at e.2, e.1))
  let sorted := cached.mergeSort (fun a b => a.1 < b.1 || (a.1 = b.1 && a.2 ≤ b.2))
  (sorted.take (cached.length - MAX_CACHED_CONTEXTS)).map Prod.snd

def context_put (s : Store Bytes) (tenant : Option TenantId) (id : String) (doc : Value) :
    Store Bytes × Except String Unit :=
  if (s.inner.contexts.get id).all (fun r => context_row_visible r tenant) && context_row_visible doc tenant then
    let s' := { persist codec s .jsonldContexts id (some doc) with
      inner := { s.inner with contexts := s.inner.contexts.insert id doc } }
    (if is_cached doc ∧ MAX_CACHED_CONTEXTS < s'.inner.contexts.entries.length then
      (oldest_cached s'.inner.contexts).foldl (remove_context codec) s' else s', .ok ())
  else (s, .error "@context belongs to another tenant")

def context_delete (s : Store Bytes) (tenant : Option TenantId) (id : String) : Store Bytes × Bool :=
  if (s.inner.contexts.get id).any (fun r => context_row_visible r tenant) then
    (remove_context codec s id, true)
  else (s, false)

end Operations

section Reads

variable {Instant : Type} [LinearOrder Instant] (chrono : Chrono Instant)

def list (i : Inner) (tenant : TenantId) (kind : Kind) : List Value :=
  (((i.map kind).get tenant.name).map BTreeMap.values).getD []

/-- Ids past `after`; an expired entity is gone before the page is cut. -/
def list_page (i : Inner) (now : String) (tenant : TenantId) (kind : Kind) (after : Option String) (limit : Nat) :
    List Value :=
  (((i.map kind).get tenant.name).map (fun m =>
    ((m.entries.filter (fun e => after.all (fun a => a < e.1))).filterMap (fun e =>
      if kind = .entity then strip_expired chrono now e.2 else some e.2)).take limit)).getD []

def list_slice (i : Inner) (tenant : TenantId) (kind : Kind) (offset limit : Nat) : List Value × Nat :=
  (((i.map kind).get tenant.name).map (fun m =>
    ((m.values.drop offset).take limit, m.values.length))).getD ([], 0)

def context_get (i : Inner) (tenant : Option TenantId) (id : String) : Option Value :=
  (i.contexts.get id).filter (fun r => context_row_visible r tenant)

def tenant_exists (i : Inner) (tenant : TenantId) : Bool :=
  ALL_KINDS.any (fun kind => ((i.map kind).get tenant.name).isSome)

/-- The names in order, each once. -/
def sorted_names (names : List String) : List String :=
  (names.foldl (fun (m : BTreeMap String Unit) name => m.insert name ()) BTreeMap.empty).keys

def tenant_ids (i : Inner) : List String :=
  sorted_names (DEFAULT :: ALL_KINDS.flatMap (fun kind => (i.map kind).keys.filter (fun t => !is_reserved_str t)))

def subscription_tenants (i : Inner) : List String :=
  sorted_names ([Kind.subscription, .csourceSubscription, .registration].flatMap (fun kind =>
    ((i.map kind).entries.filter (fun e => !e.2.is_empty)).map Prod.fst))

end Reads

end AntaresBroker.Mem
