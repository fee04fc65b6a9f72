import AntaresBroker.Buckets
import AntaresBroker.Registry

namespace AntaresBroker.Notify

open Json Buckets Registry

/-- The index bucket(s) of one subscription. -/
inductive Keys
  | Types (types : List String)
  | Attrs (attrs : List String)
  | Broad

/-- The type of an entry that is neither missing nor a selection. -/
def plain_type (e : Value) : Option String :=
  ((e.get "type").bind Value.as_str).filter (fun t => !t.toList.any ['|', ',', ';', '(', ')', '*'].contains)

def index_keys (doc : Value) : Keys :=
  match (doc.get "entities").bind Value.as_array with
  | some entities =>
      match entities.mapM plain_type with
      | none | some [] => .Broad
      | some types => .Types types
  | none =>
      match (doc.get "watchedAttributes").bind Value.as_array with
      | some watched =>
          let attrs := watched.filterMap Value.as_str
          if attrs.length = watched.length ∧ attrs ≠ [] then .Attrs attrs else .Broad
      | none => .Broad

structure TenantIndex where
  docs : BTreeMap String Value
  by_type : BTreeMap String (Finset String)
  by_attr : BTreeMap String (Finset String)
  broad : Finset String

namespace TenantIndex

def empty : TenantIndex := ⟨BTreeMap.empty, BTreeMap.empty, BTreeMap.empty, ∅⟩

def hold (id : String) (m : BTreeMap String (Finset String)) (k : String) : BTreeMap String (Finset String) :=
  m.insert k (Insert.insert id ((m.get k).getD ∅))

def remove (t : TenantIndex) (id : String) : TenantIndex :=
  match t.docs.get id with
  | none => t
  | some old =>
      let t := { t with docs := t.docs.remove id }
      match index_keys old with
      | .Types ts => { t with by_type := ts.foldl (drop id) t.by_type }
      | .Attrs ats => { t with by_attr := ats.foldl (drop id) t.by_attr }
      | .Broad => { t with broad := t.broad.erase id }

def insert (t : TenantIndex) (id : String) (doc : Value) : TenantIndex :=
  let t := { t with docs := t.docs.insert id doc }
  match index_keys doc with
  | .Types ts => { t with by_type := ts.foldl (hold id) t.by_type }
  | .Attrs ats => { t with by_attr := ats.foldl (hold id) t.by_attr }
  | .Broad => { t with broad := Insert.insert id t.broad }

theorem remove_docs (t : TenantIndex) (id j : String) :
    (t.remove id).docs.get j = if j = id then none else t.docs.get j := by
  unfold remove
  cases h : t.docs.get id with
  | none =>
      by_cases hj : j = id
      · rw [if_pos hj, hj, h]
      · rw [if_neg hj]
  | some old =>
      have hget := BTreeMap.get_remove t.docs id j
      simp only
      cases index_keys old <;> exact hget

theorem insert_docs (t : TenantIndex) (id : String) (doc : Value) (j : String) :
    (t.insert id doc).docs.get j = if j = id then some doc else t.docs.get j := by
  have hget := BTreeMap.get_insert t.docs id j doc
  unfold insert
  simp only
  cases index_keys doc <;> exact hget

/-- Rekey the index from the old document before the new one. -/
def put (t : TenantIndex) (id : String) : Option Value → TenantIndex
  | none => t.remove id
  | some d => (t.remove id).insert id d

theorem put_docs (t : TenantIndex) (id : String) (doc : Option Value) (j : String) :
    (t.put id doc).docs.get j = if j = id then doc else t.docs.get j := by
  cases doc with
  | none => exact remove_docs t id j
  | some d =>
      rw [put, insert_docs, remove_docs]
      split_ifs <;> rfl

end TenantIndex

/-- The subscriptions of all tenants and the clock of the interval sweep, in
milliseconds; 0 asks for a sweep at the next tick. -/
structure SubMirror where
  map : BTreeMap String TenantIndex
  next_sub_sweep_ms : Int

namespace SubMirror

/-- Without a document the subscription is gone; a periodic one zeroes the clock. -/
def apply (m : SubMirror) (tenant id : String) (doc : Option Value) : SubMirror :=
  let t := ((m.map.get tenant).getD TenantIndex.empty).put id doc
  { map := if t.docs.is_empty then m.map.remove tenant else m.map.insert tenant t
    next_sub_sweep_ms := if doc.any (fun d => (d.get "timeInterval").isSome) then 0 else m.next_sub_sweep_ms }

def doc_of (m : SubMirror) (tenant id : String) : Option Value := (m.map.get tenant).bind (fun t => t.docs.get id)

/-- The tenant's periodic subscriptions, the sweep's whole input. -/
def periodic_docs (m : SubMirror) (tenant : String) : List (String × Value) :=
  ((m.map.get tenant).map (fun t => t.docs.entries.filter (fun p => (p.2.get "timeInterval").isSome))).getD []

theorem mem_periodic_docs {m : SubMirror} {tenant id : String} {doc : Value} :
    (id, doc) ∈ m.periodic_docs tenant ↔ m.doc_of tenant id = some doc ∧ (doc.get "timeInterval").isSome := by
  unfold periodic_docs doc_of
  cases m.map.get tenant with
  | none => simp
  | some t => simp only [Option.map_some, Option.getD_some, List.mem_filter, BTreeMap.mem_entries, Option.bind_some]

theorem doc_of_apply (m : SubMirror) (tenant id : String) (doc : Option Value) (t j : String) :
    (m.apply tenant id doc).doc_of t j = if t = tenant ∧ j = id then doc else m.doc_of t j := by
  have hold : ((m.map.get tenant).getD TenantIndex.empty).docs.get j = m.doc_of tenant j := by
    unfold doc_of
    cases m.map.get tenant <;> rfl
  have hput := TenantIndex.put_docs ((m.map.get tenant).getD TenantIndex.empty) id doc j
  rw [hold] at hput
  unfold apply
  generalize ((m.map.get tenant).getD TenantIndex.empty).put id doc = new at hput
  have hnew : ((if new.docs.is_empty then m.map.remove tenant else m.map.insert tenant new).get t).bind
      (fun t => t.docs.get j) = if t = tenant then new.docs.get j else m.doc_of t j := by
    by_cases he : new.docs.is_empty = true
    · rw [if_pos he, BTreeMap.get_remove, BTreeMap.is_empty_iff.mp he]
      split_ifs <;> rfl
    · rw [if_neg he, BTreeMap.get_insert]
      split_ifs <;> rfl
  refine hnew.trans ?_
  rw [hput]
  by_cases ht : t = tenant
  · rw [if_pos ht, ht]
    simp only [true_and]
  · rw [if_neg ht, if_neg (fun h => ht h.1)]

end SubMirror

end AntaresBroker.Notify
