import AntaresBroker.ReducedCopy
import AntaresBroker.SubMirror

namespace AntaresBroker.Notify

open Json Buckets Expiry Ql.Eval

section Changes

/-- The members an instance is compared without: the broker's own stamps and
the identity of the instance. -/
def volatile (k : String) : Bool := k = "createdAt" || k = "modifiedAt" || k = "instanceId"

def stable_count (o : Map) : Nat := (o.filter (fun p => !volatile p.1)).length

mutual
def stable_eq : Value → Value → Bool
  | .object oa, .object ob => stable_count oa = stable_count ob && members_eq oa ob
  | .array aa, .array ab => items_eq aa ab
  | a, b => a = b
termination_by structural a => a
def items_eq : List Value → List Value → Bool
  | [], [] => true
  | a :: aa, b :: ab => stable_eq a b && items_eq aa ab
  | _, _ => false
termination_by structural aa => aa
def members_eq : Map → Map → Bool
  | [], _ => true
  | p :: oa, ob => member_eq p ob && members_eq oa ob
termination_by structural oa => oa
def member_eq : String × Value → Map → Bool
  | (k, va), ob =>
      if volatile k then true
      else match ob.lookup k with
        | some vb => stable_eq va vb
        | none => false
termination_by structural p => p
end

def attr_keys (doc : Value) : List String :=
  ((doc.as_object.getD []).map Prod.fst).filter (fun k => !ENTITY_META_KEYS.contains k)

def instance_ds (inst : Value) : Option String := (inst.get "datasetId").bind Value.as_str

inductive ChangeClass
  | Created
  | Updated
  | Deleted
deriving DecidableEq

/-- An instance that is gone by its datasetId deletes, whatever survives; what
survives updates if it changed. -/
def classify (x y : Value) : List ChangeClass :=
  let bx := x.as_array.getD []
  let ay := y.as_array.getD []
  if bx.any (fun bi => !ay.any (fun ai => instance_ds ai = instance_ds bi)) then
    .Deleted :: (if ay.any (fun ai => match bx.find? (fun bi => instance_ds bi = instance_ds ai) with
      | some bi => !stable_eq bi ai
      | none => true) then [.Updated] else [])
  else if !stable_eq x y then [.Updated] else []

/-- The attribute changes between two images of an entity. -/
def diff (before after : Option Value) : List (String × ChangeClass) :=
  let b := before.getD (.object [])
  let a := after.getD (.object [])
  let keys := (attr_keys a).foldl (fun keys k => if keys.contains k then keys else keys ++ [k]) (attr_keys b)
  keys.flatMap fun k =>
    match b.get k, a.get k with
    | none, some _ => [(k, .Created)]
    | some _, none => [(k, .Deleted)]
    | some x, some y => (classify x y).map (fun c => (k, c))
    | none, none => []

end Changes

section Gate

def DEFAULT_TRIGGERS : List String := ["attributeCreated", "attributeUpdated"]

/-- `entityUpdated` stands for every attribute trigger too. -/
def triggers_of (sub : Value) : List String :=
  let triggers := (((sub.get "notificationTrigger").bind Value.as_array).map (fun a => a.filterMap Value.as_str)).getD
    DEFAULT_TRIGGERS
  if triggers.contains "entityUpdated" then
    (DEFAULT_TRIGGERS ++ ["attributeDeleted"]).foldl (fun ts t => if ts.contains t then ts else ts ++ [t]) triggers
  else triggers

def ChangeClass.trigger : ChangeClass → String
  | .Created => "attributeCreated"
  | .Updated => "attributeUpdated"
  | .Deleted => "attributeDeleted"

def entity_trigger (before after : Option Value) : String :=
  match before, after with
  | none, some _ => "entityCreated"
  | some _, none => "entityDeleted"
  | _, _ => "entityUpdated"

def watched_of (sub : Value) : Option (List String) :=
  ((sub.get "watchedAttributes").bind Value.as_array).map (fun a => a.filterMap Value.as_str)

/-- The changes a subscription cares about. -/
def relevant (sub : Value) (changes : List (String × ChangeClass)) : List (String × ChangeClass) :=
  changes.filter (fun c => (watched_of sub).all (fun w => w.contains c.1))

/-- The trigger gate of `matches_for`. -/
def fires (sub : Value) (before after : Option Value) : Bool :=
  let rel := relevant sub (diff before after)
  rel.any (fun c => (triggers_of sub).contains c.2.trigger) ||
    ((triggers_of sub).contains (entity_trigger before after) && ((watched_of sub).isNone || !rel.isEmpty))

end Gate

namespace TenantIndex

/-- The types and the attributes a subscription is filed under; `none` under the
attributes for one that is filed in the broad bucket. -/
def type_keys (doc : Value) : Option (List String) :=
  match index_keys doc with
  | .Types types => some types
  | _ => some []

def attr_keys (doc : Value) : Option (List String) :=
  match index_keys doc with
  | .Attrs attrs => some attrs
  | .Types _ => some []
  | .Broad => none

/-- The subscriptions that could fire for a change of these types and attributes. -/
def reached (t : TenantIndex) (types changed : List String) : Finset String :=
  changed.foldl (fun ids a => ids ∪ (t.by_attr.get a).getD ∅) (types.foldl (fun ids ty => ids ∪ (t.by_type.get ty).getD ∅) t.broad)

/-- The buckets file exactly the documents of the index. -/
structure Indexed (t : TenantIndex) : Prop where
  by_type : Indexes type_keys t.docs.get ⟨t.by_type, ∅⟩
  by_attr : Indexes attr_keys t.docs.get ⟨t.by_attr, t.broad⟩

theorem indexed_empty : Indexed empty where
  by_type := indexes_empty _ (fun _ => rfl)
  by_attr := indexes_empty _ (fun _ => rfl)

/-- Taking a subscription out takes it out of both inverted maps. -/
theorem remove_buckets {t : TenantIndex} {id : String} {old : Value} (hold : t.docs.get id = some old) :
    (⟨(t.remove id).by_type, ∅⟩ : Buckets String String) = unfile id (type_keys old) ⟨t.by_type, ∅⟩ ∧
      (⟨(t.remove id).by_attr, (t.remove id).broad⟩ : Buckets String String) =
        unfile id (attr_keys old) ⟨t.by_attr, t.broad⟩ := by
  unfold TenantIndex.remove type_keys attr_keys
  rw [hold]
  dsimp only
  cases index_keys old with
  | Types ts => exact ⟨rfl, rfl⟩
  | Attrs ats => exact ⟨rfl, rfl⟩
  | Broad => exact ⟨rfl, rfl⟩

theorem insert_buckets (t : TenantIndex) (id : String) (doc : Value) :
    (⟨(t.insert id doc).by_type, ∅⟩ : Buckets String String) = file id (type_keys doc) ⟨t.by_type, ∅⟩ ∧
      (⟨(t.insert id doc).by_attr, (t.insert id doc).broad⟩ : Buckets String String) =
        file id (attr_keys doc) ⟨t.by_attr, t.broad⟩ := by
  unfold TenantIndex.insert type_keys attr_keys
  dsimp only
  cases index_keys doc with
  | Types ts => exact ⟨rfl, rfl⟩
  | Attrs ats => exact ⟨rfl, rfl⟩
  | Broad => exact ⟨rfl, rfl⟩

theorem Indexed.remove {t : TenantIndex} (h : Indexed t) (id : String) : Indexed (t.remove id) := by
  have hdocs := remove_docs t id
  cases hold : t.docs.get id with
  | none =>
      rw [TenantIndex.remove, hold]
      exact h
  | some old =>
      obtain ⟨htype, hattr⟩ := remove_buckets hold
      constructor
      · rw [htype]
        exact h.by_type.unfile hold ((hdocs id).trans (if_pos rfl)) (fun j hj => (hdocs j).trans (if_neg hj))
      · rw [hattr]
        exact h.by_attr.unfile hold ((hdocs id).trans (if_pos rfl)) (fun j hj => (hdocs j).trans (if_neg hj))

theorem Indexed.insert {t : TenantIndex} (h : Indexed t) {id : String} (hnone : t.docs.get id = none) (doc : Value) :
    Indexed (t.insert id doc) := by
  have hdocs := insert_docs t id doc
  obtain ⟨htype, hattr⟩ := insert_buckets t id doc
  constructor
  · rw [htype]
    exact h.by_type.file hnone ((hdocs id).trans (if_pos rfl)) (fun j hj => (hdocs j).trans (if_neg hj))
  · rw [hattr]
    exact h.by_attr.file hnone ((hdocs id).trans (if_pos rfl)) (fun j hj => (hdocs j).trans (if_neg hj))

theorem Indexed.put {t : TenantIndex} (h : Indexed t) (id : String) (doc : Option Value) : Indexed (t.put id doc) := by
  cases doc with
  | none => exact h.remove id
  | some d => exact (h.remove id).insert ((remove_docs t id id).trans (if_pos rfl)) d

theorem mem_reached {t : TenantIndex} {types changed : List String} {id : String} :
    id ∈ t.reached types changed ↔ id ∈ t.broad ∨ (∃ ty ∈ types, id ∈ (t.by_type.get ty).getD ∅) ∨
      ∃ a ∈ changed, id ∈ (t.by_attr.get a).getD ∅ := by
  have hattr := mem_foldl_union (b := ⟨t.by_attr, ∅⟩) (j := id) changed
    (types.foldl (fun ids ty => ids ∪ (t.by_type.get ty).getD ∅) t.broad)
  have htype := mem_foldl_union (b := ⟨t.by_type, ∅⟩) (j := id) types t.broad
  exact hattr.trans ((or_congr_left htype).trans or_assoc)

end TenantIndex

section Firing

variable {sub : Value} {before after : Option Value}

theorem relevant_of_fires (h : fires sub before after = true) (hw : (watched_of sub).isSome = true) :
    ∃ c, c ∈ relevant sub (diff before after) := by
  unfold fires at h
  rcases Bool.or_eq_true_iff.mp h with hattr | hentity
  · obtain ⟨c, hc, -⟩ := List.any_eq_true.mp hattr
    exact ⟨c, hc⟩
  · obtain ⟨-, hsome⟩ := Bool.and_eq_true_iff.mp hentity
    rw [Option.isNone_eq_false_iff.mpr hw, Bool.false_or, Bool.not_eq_true', List.isEmpty_eq_false_iff] at hsome
    exact List.exists_mem_of_ne_nil _ hsome

/-- A subscription filed under attributes fires for a change of one of them only. -/
theorem changed_of_fires {attrs : List String} (hkeys : index_keys sub = .Attrs attrs)
    (h : fires sub before after = true) : ∃ a ∈ (diff before after).map Prod.fst, a ∈ attrs := by
  unfold index_keys at hkeys
  split at hkeys
  · split at hkeys <;> exact nomatch hkeys
  · split at hkeys
    · rename_i watched hwatched
      dsimp only at hkeys
      split_ifs at hkeys with hall
      obtain rfl := Keys.Attrs.inj hkeys
      have hof : watched_of sub = some (watched.filterMap Value.as_str) := by
        rw [watched_of, hwatched, Option.map_some]
      obtain ⟨c, hc⟩ := relevant_of_fires h (Option.isSome_iff_exists.mpr ⟨_, hof⟩)
      obtain ⟨hchange, hcares⟩ := List.mem_filter.mp hc
      rw [hof] at hcares
      exact ⟨c.1, List.mem_map_of_mem hchange, List.contains_iff_mem.mp hcares⟩
    · exact nomatch hkeys

end Firing

/-- What `selector_match` tests of a type that is neither missing nor a selection. -/
theorem plain_type_required {e : Value} {ty : String} (h : plain_type e = some ty) {env : Env} {id : String}
    {types : List String} (ht : Distsub.selector_takes env e id types = true) : ty ∈ types := by
  obtain ⟨htype, hplain⟩ := Option.filter_eq_some_iff.mp h
  have hchars : ∀ c ∈ ty.toList, c ∉ ['|', ',', ';', '(', ')', '*'] := by
    intro c hc hin
    rw [Bool.not_eq_true', List.any_eq_false] at hplain
    exact hplain c hc (List.contains_iff_mem.mpr hin)
  obtain ⟨hfirst, -⟩ := Bool.and_eq_true_iff.mp ht
  obtain ⟨htake, -⟩ := Bool.and_eq_true_iff.mp hfirst
  rw [htype, Option.all_some] at htake
  have hstar : ty ≠ "*" := by
    rintro rfl
    exact hchars '*' (by decide) (by decide)
  have hops : ty.toList.any Distsub.TYPE_OPERATORS.contains = false := by
    rw [List.any_eq_false]
    intro c hc hop
    refine hchars c hc ?_
    have hmem := List.contains_iff_mem.mp hop
    simp only [Distsub.TYPE_OPERATORS, List.mem_cons] at hmem ⊢
    tauto
  rw [if_neg hstar, hops, if_neg Bool.false_ne_true] at htake
  exact List.contains_iff_mem.mp htake

theorem mem_of_mapM {α β : Type} {f : α → Option β} {xs : List α} {ys : List β} (h : xs.mapM f = some ys) {x : α}
    (hx : x ∈ xs) : ∃ y, f x = some y ∧ y ∈ ys := by
  induction xs generalizing ys with
  | nil => exact nomatch hx
  | cons a xs ih =>
      rw [List.mapM_cons] at h
      obtain ⟨b, hb, hrest⟩ := Option.bind_eq_some_iff.mp h
      obtain ⟨bs, hbs, hys⟩ := Option.bind_eq_some_iff.mp hrest
      obtain rfl := Option.some.inj hys
      rcases List.mem_cons.mp hx with rfl | hx
      · exact ⟨b, hb, List.mem_cons_self⟩
      · obtain ⟨y, hy, hmem⟩ := ih hbs hx
        exact ⟨y, hy, List.mem_cons_of_mem b hmem⟩

/-- A subscription filed under types takes only an entity of one of them. -/
theorem typed_of_selector_match {sub doc : Value} {types : List String} (hkeys : index_keys sub = .Types types) {env : Env}
    (h : Distsub.selector_match env sub doc = true) : ∃ ty ∈ Distsub.types_of doc, ty ∈ types := by
  unfold index_keys at hkeys
  split at hkeys
  · rename_i entities hentities
    split at hkeys
    · exact nomatch hkeys
    · exact nomatch hkeys
    · rename_i found hne hfound
      obtain rfl := Keys.Types.inj hkeys
      rw [Distsub.selector_match, hentities, Option.all_some] at h
      obtain ⟨e, he, htake⟩ := List.any_eq_true.mp h
      obtain ⟨ty, hty, hmem⟩ := mem_of_mapM hfound he
      exact ⟨ty, plain_type_required hty htake, hmem⟩
  · split at hkeys
    · dsimp only at hkeys
      split_ifs at hkeys
    · exact nomatch hkeys

/-- What `apply` is called with. -/
structure Applied where
  tenant : String
  id : String
  doc : Option Value

namespace SubMirror

def empty : SubMirror := ⟨BTreeMap.empty, 0⟩

/-- The subscriptions that could fire for a change, each under its id. -/
def candidates (m : SubMirror) (tenant : String) (types changed : List String) : List (String × Value) :=
  ((m.map.get tenant).map (fun t => t.docs.entries.filter (fun p => p.1 ∈ t.reached types changed))).getD []

def after (calls : List Applied) : SubMirror := calls.foldl (fun m c => m.apply c.tenant c.id c.doc) empty

/-- The document of the last call for an id; none where that call deleted it. -/
def last_applied (calls : List Applied) (tenant id : String) : Option Value :=
  (calls.reverse.find? (fun c => c.tenant = tenant ∧ c.id = id)).bind Applied.doc

theorem doc_of_after (calls : List Applied) (tenant id : String) :
    (after calls).doc_of tenant id = last_applied calls tenant id := by
  induction calls using List.reverseRecOn with
  | nil => rfl
  | append_singleton calls c ih =>
      rw [after, List.foldl_append, List.foldl_cons, List.foldl_nil, doc_of_apply, last_applied, List.reverse_append,
        List.reverse_singleton, List.singleton_append, List.find?_cons]
      by_cases hc : c.tenant = tenant ∧ c.id = id
      · rw [if_pos ⟨hc.1.symm, hc.2.symm⟩, decide_eq_true hc]
        rfl
      · rw [if_neg (fun h => hc ⟨h.1.symm, h.2.symm⟩), decide_eq_false hc]
        exact ih

/-- Every tenant's buckets file exactly its documents. -/
def Indexed (m : SubMirror) : Prop := ∀ tenant t, m.map.get tenant = some t → t.Indexed

theorem Indexed.apply {m : SubMirror} (h : m.Indexed) (c : Applied) : (m.apply c.tenant c.id c.doc).Indexed := by
  intro tenant t ht
  have hold : ((m.map.get c.tenant).getD TenantIndex.empty).Indexed := by
    cases hget : m.map.get c.tenant with
    | none => exact TenantIndex.indexed_empty
    | some t => exact h c.tenant t hget
  unfold SubMirror.apply at ht
  dsimp only at ht
  by_cases hte : tenant = c.tenant
  · split_ifs at ht with hempty
    · rw [BTreeMap.get_remove, if_pos hte] at ht
      exact nomatch ht
    · rw [BTreeMap.get_insert, if_pos hte] at ht
      obtain rfl := Option.some.inj ht
      exact hold.put c.id c.doc
  · split_ifs at ht with hempty
    · rw [BTreeMap.get_remove, if_neg hte] at ht
      exact h tenant t ht
    · rw [BTreeMap.get_insert, if_neg hte] at ht
      exact h tenant t ht

theorem indexed_after (calls : List Applied) : (after calls).Indexed := by
  induction calls using List.reverseRecOn with
  | nil => exact fun tenant t ht => nomatch ht
  | append_singleton calls c ih =>
      rw [after, List.foldl_append, List.foldl_cons, List.foldl_nil]
      exact ih.apply c

theorem mem_candidates {m : SubMirror} {tenant : String} {types changed : List String} {id : String} {sub : Value} :
    (id, sub) ∈ m.candidates tenant types changed ↔
      ∃ t, m.map.get tenant = some t ∧ t.docs.get id = some sub ∧ id ∈ t.reached types changed := by
  unfold candidates
  cases m.map.get tenant with
  | none => simp
  | some t => simp [BTreeMap.mem_entries]

/-- A subscription that fires for a change stands in one of the buckets the change reaches. -/
theorem reached_of_fires {t : TenantIndex} (h : t.Indexed) {id : String} {sub image : Value}
    (hdoc : t.docs.get id = some sub) {before after : Option Value} (hfires : fires sub before after = true) {env : Env}
    (hsel : Distsub.selector_match env sub image = true) :
    id ∈ t.reached (Distsub.types_of image) ((diff before after).map Prod.fst) := by
  rw [TenantIndex.mem_reached]
  cases hkeys : index_keys sub with
  | Broad =>
      refine Or.inl ((h.by_attr.broad id).mpr ⟨sub, hdoc, ?_⟩)
      rw [TenantIndex.attr_keys, hkeys]
  | Types types =>
      obtain ⟨ty, hty, hin⟩ := typed_of_selector_match hkeys hsel
      refine Or.inr (Or.inl ⟨ty, hty, (h.by_type.under id ty).mpr ⟨sub, hdoc, types, ?_, hin⟩⟩)
      rw [TenantIndex.type_keys, hkeys]
  | Attrs attrs =>
      obtain ⟨a, ha, hin⟩ := changed_of_fires hkeys hfires
      refine Or.inr (Or.inr ⟨a, ha, (h.by_attr.under id a).mpr ⟨sub, hdoc, attrs, ?_, hin⟩⟩)
      rw [TenantIndex.attr_keys, hkeys]

/-- After any calls, the candidates for a change are subscriptions as last applied, and none
that the change would fire is missing from them, whichever image it is evaluated on. -/
theorem candidates_complete (calls : List Applied) (tenant : String) (before after : Option Value) (image : Value)
    (env : Env) :
    let found := (SubMirror.after calls).candidates tenant (Distsub.types_of image) ((diff before after).map Prod.fst)
    (∀ id sub, last_applied calls tenant id = some sub → fires sub before after = true →
      Distsub.selector_match env sub image = true → (id, sub) ∈ found) ∧
    ∀ id sub, (id, sub) ∈ found → last_applied calls tenant id = some sub := by
  intro found
  constructor
  · intro id sub hlast hfires hsel
    rw [← doc_of_after, doc_of] at hlast
    obtain ⟨t, ht, hdoc⟩ := Option.bind_eq_some_iff.mp hlast
    exact mem_candidates.mpr ⟨t, ht, hdoc, reached_of_fires (indexed_after calls tenant t ht) hdoc hfires hsel⟩
  · intro id sub hmem
    obtain ⟨t, ht, hdoc, -⟩ := mem_candidates.mp hmem
    rw [← doc_of_after, doc_of, ht]
    exact hdoc

end SubMirror

end AntaresBroker.Notify
