import AntaresBroker.Restart

namespace AntaresBroker.FileMode

open Json Expiry Mem Shadow Restart

variable {Instant Bytes T E : Type} [LinearOrder Instant] (chrono : Chrono Instant) (codec : Codec Bytes)

/-- The calls that change a store; `now` is the clock the call reads. -/
inductive Op (T E : Type)
  | create (now : String) (tenant : TenantId) (kind : Kind) (id : String) (doc : Value)
  | upsert (now : String) (tenant : TenantId) (kind : Kind) (id : String) (doc : Value)
  | mutate (now : String) (tenant : TenantId) (kind : Kind) (id : String) (f : Value → Except E (T × Value))
  | delete (now : String) (tenant : TenantId) (kind : Kind) (id : String)
  | delete_if (now : String) (tenant : TenantId) (id : String) (keep : Value → Bool)
  | sweep_expired (now : String)
  | purge_kinds (tenant : TenantId) (kinds : List Kind)
  | purge_tenant (tenant : TenantId)
  | context_put (tenant : Option TenantId) (id : String) (doc : Value)
  | context_delete (tenant : Option TenantId) (id : String)

def step (s : Store Bytes) : Op T E → Store Bytes
  | .create now tenant kind id doc => (create chrono codec s now tenant kind id doc).1
  | .upsert now tenant kind id doc => (upsert chrono codec s now tenant kind id doc).1
  | .mutate now tenant kind id f => (mutate chrono codec s now tenant kind id f).1
  | .delete now tenant kind id => (delete chrono codec s now tenant kind id).1
  | .delete_if now tenant id keep => (delete_if chrono codec s now tenant id keep).1
  | .sweep_expired now => (sweep_expired chrono codec s now).1
  | .purge_kinds tenant kinds => (purge_kinds codec s tenant kinds).1
  | .purge_tenant tenant => (purge_tenant codec s tenant).1
  | .context_put tenant id doc => (context_put codec s tenant id doc).1
  | .context_delete tenant id => (context_delete codec s tenant id).1

def run (s : Store Bytes) (ops : List (Op T E)) : Store Bytes := ops.foldl (step chrono codec) s

theorem step_mirrored {s : Store Bytes} (h : Mirrored codec s) (op : Op T E) :
    Mirrored codec (step chrono codec s op) := by
  cases op with
  | create => exact h.create chrono
  | upsert => exact h.upsert chrono
  | mutate => exact h.mutate chrono _
  | delete => exact h.delete chrono
  | delete_if => exact h.delete_if chrono _
  | sweep_expired => exact h.sweep_expired chrono
  | purge_kinds => exact h.purge_kinds _
  | purge_tenant => exact h.purge_tenant
  | context_put => exact h.context_put _
  | context_delete => exact h.context_delete _

theorem run_mirrored {s : Store Bytes} (h : Mirrored codec s) (ops : List (Op T E)) :
    Mirrored codec (run chrono codec s ops) := by
  induction ops generalizing s with
  | nil => exact h
  | cons op ops ih => exact ih (step_mirrored chrono codec h op)

/-- Two memories no read tells apart. -/
structure SameReads (i j : Inner) : Prop where
  get : ∀ (tenant : TenantId) kind id, i.get kind tenant.name id = j.get kind tenant.name id
  list : ∀ tenant kind, list i tenant kind = list j tenant kind
  list_page : ∀ now tenant kind after limit,
    list_page chrono i now tenant kind after limit = list_page chrono j now tenant kind after limit
  list_slice : ∀ tenant kind offset limit, list_slice i tenant kind offset limit = list_slice j tenant kind offset limit
  context_get : ∀ tenant id, context_get i tenant id = context_get j tenant id
  tenant_exists : ∀ tenant, tenant_exists i tenant = tenant_exists j tenant
  tenant_ids : tenant_ids i = tenant_ids j
  subscription_tenants : subscription_tenants i = subscription_tenants j

/-- A tenant that has a map has a document. -/
def Held (i : Inner) (t : String) : Prop := (∃ kind, i.has kind t) → ∃ kind id, (i.get kind t id).isSome

/-- A name some read can answer about. -/
def Visible (t : String) : Prop := (∃ tenant : TenantId, tenant.name = t) ∨ is_reserved_str t = false

theorem not_is_empty_iff {m : BTreeMap String Value} : m.is_empty = false ↔ ∃ id, (m.get id).isSome := by
  constructor
  · intro h
    by_contra hn
    have he : m = BTreeMap.empty := BTreeMap.eq_empty_of_get (fun id => by
      by_contra hne
      exact hn ⟨id, Option.isSome_iff_ne_none.mpr hne⟩)
    rw [BTreeMap.is_empty_iff.mpr he] at h
    simp at h
  · rintro ⟨id, hid⟩
    by_contra hne
    have he : m = BTreeMap.empty := BTreeMap.is_empty_iff.mp (by simpa using hne)
    rw [he] at hid
    simp at hid

theorem get_pruned (i : Inner) (kind : Kind) (t : String) :
    ((pruned i).map kind).get t = (i.map kind).get t ∨
      ((pruned i).map kind).get t = none ∧ (i.map kind).get t = some BTreeMap.empty := by
  rw [show ((pruned i).map kind).get t = _ from BTreeMap.get_filter _ _ _]
  cases hg : (i.map kind).get t with
  | none => exact Or.inl rfl
  | some docs =>
      rw [Option.filter_some]
      cases he : docs.is_empty with
      | false => exact Or.inl rfl
      | true => exact Or.inr ⟨rfl, by rw [BTreeMap.is_empty_iff.mp he]⟩

theorem pruned_get (i : Inner) (kind : Kind) (t id : String) : (pruned i).get kind t id = i.get kind t id := by
  simp only [Inner.get, Tenants.doc]
  rcases get_pruned i kind t with h | ⟨h, h'⟩
  · rw [h]
  · rw [h, h']
    rfl

theorem has_pruned (i : Inner) (kind : Kind) (t : String) :
    (pruned i).has kind t ↔ ∃ id, (i.get kind t id).isSome := by
  rw [Inner.has, show ((pruned i).map kind).get t = _ from BTreeMap.get_filter _ _ _]
  simp only [Inner.get, Tenants.doc]
  cases hg : (i.map kind).get t with
  | none => simp
  | some docs =>
      rw [Option.filter_some]
      simp only [Option.bind_some, ← not_is_empty_iff]
      cases docs.is_empty <;> simp

/-- A read that takes an absent map for an empty one does not see the pruning. -/
theorem map_pruned {α : Type} (i : Inner) (kind : Kind) (t : String) {f : BTreeMap String Value → α} {a : α}
    (hf : f BTreeMap.empty = a) :
    (((i.map kind).get t).map f).getD a = ((((pruned i).map kind).get t).map f).getD a := by
  rcases get_pruned i kind t with h | ⟨h, h'⟩
  · rw [h]
  · rw [h, h']
    exact hf

theorem get_sorted_names (names : List String) (m : BTreeMap String Unit) (n : String) :
    (names.foldl (fun (m : BTreeMap String Unit) name => m.insert name ()) m).get n =
      if n ∈ names then some () else m.get n := by
  induction names generalizing m with
  | nil => simp
  | cons name names ih =>
      rw [List.foldl_cons, ih, BTreeMap.get_insert]
      by_cases h : n = name
      · simp [h]
      · simp [h]

theorem sorted_names_congr {l k : List String} (h : ∀ n, n ∈ l ↔ n ∈ k) : sorted_names l = sorted_names k := by
  unfold sorted_names
  congr 1
  exact BTreeMap.ext_get (fun n => by rw [get_sorted_names, get_sorted_names]; simp [h n])

theorem mem_sorted_names {l : List String} {n : String} : n ∈ sorted_names l ↔ n ∈ l := by
  rw [sorted_names, BTreeMap.mem_keys, get_sorted_names]
  by_cases h : n ∈ l <;> simp [h]

theorem mem_tenant_ids {i : Inner} {n : String} :
    n ∈ tenant_ids i ↔ n = DEFAULT ∨ ∃ kind, i.has kind n ∧ is_reserved_str n = false := by
  rw [tenant_ids, mem_sorted_names, List.mem_cons, List.mem_flatMap]
  constructor
  · rintro (h | ⟨kind, -, h⟩)
    · exact Or.inl h
    · obtain ⟨hk, hr⟩ := List.mem_filter.mp h
      exact Or.inr ⟨kind, BTreeMap.mem_keys.mp hk, by simpa using hr⟩
  · rintro (h | ⟨kind, hk, hr⟩)
    · exact Or.inl h
    · exact Or.inr ⟨kind, mem_all_kinds kind, List.mem_filter.mpr ⟨BTreeMap.mem_keys.mpr hk, by simp [hr]⟩⟩

theorem tenant_exists_iff {i : Inner} {tenant : TenantId} :
    tenant_exists i tenant = true ↔ ∃ kind, i.has kind tenant.name := by
  rw [tenant_exists, List.any_eq_true]
  exact ⟨fun ⟨kind, _, h⟩ => ⟨kind, h⟩, fun ⟨kind, h⟩ => ⟨kind, mem_all_kinds kind, h⟩⟩

def defaultTenant : TenantId := ⟨DEFAULT, by decide, by decide, by decide⟩

/-- The reads of a store and of what its restart rebuilds agree exactly when
every tenant a read can name holds a document if it has a map at all. -/
theorem same_reads_pruned (i : Inner) :
    SameReads chrono i (pruned i) ↔ ∀ t, Visible t → Held i t := by
  have hiff (t : String) (h : Held i t) : (∃ kind, (pruned i).has kind t) ↔ ∃ kind, i.has kind t := by
    simp only [has_pruned]
    exact ⟨fun ⟨kind, id, hid⟩ => ⟨kind, Inner.has_of_get hid⟩, h⟩
  constructor
  · intro h
    have hdefault (tenant : TenantId) : Held i tenant.name := by
      intro hmap
      have he := h.tenant_exists tenant
      rw [tenant_exists_iff.mpr hmap] at he
      obtain ⟨kind, hk⟩ := tenant_exists_iff.mp he.symm
      exact ⟨kind, (has_pruned i kind _).mp hk⟩
    rintro t (⟨tenant, rfl⟩ | hr)
    · exact hdefault tenant
    · rintro ⟨kind, hk⟩
      have hmem : t ∈ tenant_ids i := mem_tenant_ids.mpr (Or.inr ⟨kind, hk, hr⟩)
      rw [h.tenant_ids] at hmem
      rcases mem_tenant_ids.mp hmem with rfl | ⟨kind', hk', -⟩
      · exact hdefault defaultTenant ⟨kind, hk⟩
      · exact ⟨kind', (has_pruned i kind' t).mp hk'⟩
  · intro h
    refine ⟨fun tenant kind id => (pruned_get i kind tenant.name id).symm, ?_, ?_, ?_, fun _ _ => rfl, ?_, ?_, ?_⟩
    · intro tenant kind
      exact map_pruned i kind tenant.name rfl
    · intro now tenant kind after limit
      exact map_pruned i kind tenant.name (by simp [BTreeMap.empty])
    · intro tenant kind offset limit
      exact map_pruned i kind tenant.name (by simp [BTreeMap.empty, BTreeMap.values])
    · intro tenant
      rw [Bool.eq_iff_iff, tenant_exists_iff, tenant_exists_iff, hiff _ (h _ (Or.inl ⟨tenant, rfl⟩))]
    · have hmem (n : String) : n ∈ tenant_ids i ↔ n ∈ tenant_ids (pruned i) := by
        rw [mem_tenant_ids, mem_tenant_ids]
        by_cases hr : is_reserved_str n = false
        · simp only [hr, and_true, hiff n (h n (Or.inr hr))]
        · simp [hr]
      exact sorted_names_congr (fun n => mem_sorted_names.symm.trans ((hmem n).trans mem_sorted_names))
    · refine sorted_names_congr (fun n => ?_)
      have hentry (kind : Kind) : (∃ e ∈ (i.map kind).entries, (!e.2.is_empty) = true ∧ e.1 = n) ↔
          ∃ e ∈ ((pruned i).map kind).entries, (!e.2.is_empty) = true ∧ e.1 = n := by
        constructor
        · rintro ⟨e, he, hne, hn⟩
          exact ⟨e, List.mem_filter.mpr ⟨he, hne⟩, hne, hn⟩
        · rintro ⟨e, he, hne, hn⟩
          exact ⟨e, (List.mem_filter.mp he).1, hne, hn⟩
      simp only [List.mem_flatMap, List.mem_map, List.mem_filter, and_assoc, hentry]

/-- A call that takes the last document of a tenant takes its maps too. -/
def leaves_document (i : Inner) : Op T E → Prop
  | .delete now tenant kind id => is_expired chrono i kind tenant.name id now = false →
      (i.get kind tenant.name id).isSome → ∃ k j, (k, j) ≠ (kind, id) ∧ (i.get k tenant.name j).isSome
  | .delete_if now tenant id keep => is_expired chrono i .entity tenant.name id now = false →
      (i.get .entity tenant.name id).any keep → ∃ k j, (k, j) ≠ (.entity, id) ∧ (i.get k tenant.name j).isSome
  | .sweep_expired now => ∀ t, (∃ id d, i.get .entity t id = some d ∧ expired_at chrono d now) →
      ∃ k j d, i.get k t j = some d ∧ ¬(k = .entity ∧ expired_at chrono d now)
  | .purge_kinds tenant kinds => (∃ k, k ∉ kinds ∧ i.has k tenant.name) →
      ∃ k j, k ∉ kinds ∧ (i.get k tenant.name j).isSome
  | _ => True

def StepsLeaveDocument (s : Store Bytes) : List (Op T E) → Prop
  | [] => True
  | op :: ops => leaves_document chrono s.inner op ∧ StepsLeaveDocument (step chrono codec s op) ops

theorem held_of_more {i j : Inner} {t : String} (h : Held i t) (hhas : ∀ k, j.has k t → i.has k t)
    (hget : ∀ k id, (i.get k t id).isSome → (j.get k t id).isSome) : Held j t := by
  rintro ⟨k, hk⟩
  obtain ⟨k', id, hid⟩ := h ⟨k, hhas k hk⟩
  exact ⟨k', id, hget k' id hid⟩

theorem held_insert {i : Inner} (h : ∀ t, Held i t) (kind : Kind) (t id : String) (d : Value) (u : String) :
    Held (i.insert kind t id d) u := by
  by_cases hu : u = t
  · exact fun _ => ⟨kind, id, by simp [hu]⟩
  · refine held_of_more (h u) (fun k hk => ?_) (fun k j hj => ?_)
    · simpa [hu] using hk
    · simpa [hu] using hj

theorem held_remove {i : Inner} (h : ∀ t, Held i t) {kind : Kind} {t id : String}
    (hleft : (i.get kind t id).isSome → ∃ k j, (k, j) ≠ (kind, id) ∧ (i.get k t j).isSome) (u : String) :
    Held (i.remove kind t id) u := by
  by_cases hu : u = t
  · subst hu
    rintro ⟨k, hk⟩
    obtain ⟨k', j, hj⟩ := h u ⟨k, by simpa using hk⟩
    by_cases hkj : (k', j) = (kind, id)
    · obtain ⟨rfl, rfl⟩ := Prod.mk.inj hkj
      obtain ⟨k'', j', hne, hj'⟩ := hleft hj
      refine ⟨k'', j', ?_⟩
      have : ¬(k'' = k' ∧ j' = j) := fun ⟨h1, h2⟩ => hne (by rw [h1, h2])
      simpa [this] using hj'
    · refine ⟨k', j, ?_⟩
      have : ¬(k' = kind ∧ j = id) := fun ⟨h1, h2⟩ => hkj (by rw [h1, h2])
      simpa [this] using hj
  · refine held_of_more (h u) (fun k hk => by simpa using hk) (fun k j hj => by simpa [hu] using hj)

theorem mem_dead {i : Inner} {now t id : String} :
    (t, id) ∈ dead chrono i now ↔ ∃ d, i.get .entity t id = some d ∧ expired_at chrono d now = true := by
  simp only [dead, List.mem_flatMap, List.mem_map, List.mem_filter, Inner.get, Tenants.doc]
  constructor
  · rintro ⟨⟨t', docs⟩, he, ⟨id', d⟩, ⟨hd, hexp⟩, hp⟩
    obtain ⟨rfl, rfl⟩ := Prod.mk.inj hp
    exact ⟨d, by rw [BTreeMap.mem_entries.mp he]; exact BTreeMap.mem_entries.mp hd, hexp⟩
  · rintro ⟨d, hd, hexp⟩
    obtain ⟨docs, hdocs, hid⟩ := Option.bind_eq_some_iff.mp hd
    exact ⟨(t, docs), BTreeMap.mem_entries.mpr hdocs, (id, d), ⟨BTreeMap.mem_entries.mpr hid, hexp⟩, rfl⟩

theorem reap_inner (r : Store Bytes × Nat) (p : String × String) :
    (reap codec r p).1.inner = r.1.inner.remove .entity p.1 p.2 := by
  unfold reap
  cases hg : (r.1.inner.map .entity).get p.1 with
  | none =>
      have ht : (r.1.inner.map .entity).take p.1 p.2 = r.1.inner.map .entity := by
        rw [Tenants.take, hg]
      simp [Inner.remove, ht, Inner.set_map]
  | some docs => rfl

theorem reaped_inner (ps : List (String × String)) (r : Store Bytes × Nat) :
    (∀ k t, (ps.foldl (reap codec) r).1.inner.has k t ↔ r.1.inner.has k t) ∧
      ∀ k t id, (ps.foldl (reap codec) r).1.inner.get k t id =
        if k = .entity ∧ (t, id) ∈ ps then none else r.1.inner.get k t id := by
  induction ps generalizing r with
  | nil => simp
  | cons p ps ih =>
      obtain ⟨hhas, hget⟩ := ih (reap codec r p)
      rw [reap_inner] at hhas hget
      obtain ⟨t', id'⟩ := p
      refine ⟨fun k t => (hhas k t).trans (by simp), fun k t id => ?_⟩
      rw [List.foldl_cons, hget, Inner.get_remove]
      by_cases hk : k = .entity
      · by_cases hp : (t, id) ∈ ps <;> by_cases he : t = t' ∧ id = id' <;> simp [hk, hp, he]
      · simp [hk]

theorem prune_doc_inner (now : String) (kind : Kind) (r : Store Bytes × Nat) (p : String × String) :
    (∀ k t, (prune_doc chrono codec now kind r p).1.inner.has k t ↔ r.1.inner.has k t) ∧
      ∀ k t id, ((prune_doc chrono codec now kind r p).1.inner.get k t id).isSome ↔
        (r.1.inner.get k t id).isSome := by
  unfold prune_doc
  cases hg : r.1.inner.get kind p.1 p.2 with
  | none => simp
  | some doc =>
      have hhas : r.1.inner.has kind p.1 := Inner.has_of_get (by rw [hg]; rfl)
      dsimp only
      split_ifs
      · refine ⟨fun k t => ?_, fun k t id => ?_⟩
        · rw [persist_inner, Inner.has_insert]
          constructor
          · rintro (⟨rfl, rfl⟩ | h)
            · exact hhas
            · exact h
          · exact Or.inr
        · rw [persist_inner, Inner.get_insert]
          split_ifs with he
          · obtain ⟨rfl, rfl, rfl⟩ := he
            simp [hg]
          · exact Iff.rfl
      · simp

theorem pruned_docs_inner (now : String) (kind : Kind) (ps : List (String × String)) (r : Store Bytes × Nat) :
    (∀ k t, (ps.foldl (prune_doc chrono codec now kind) r).1.inner.has k t ↔ r.1.inner.has k t) ∧
      ∀ k t id, ((ps.foldl (prune_doc chrono codec now kind) r).1.inner.get k t id).isSome ↔
        (r.1.inner.get k t id).isSome := by
  induction ps generalizing r with
  | nil => simp
  | cons p ps ih =>
      obtain ⟨hhas, hget⟩ := ih (prune_doc chrono codec now kind r p)
      obtain ⟨hhas', hget'⟩ := prune_doc_inner chrono codec now kind r p
      exact ⟨fun k t => (hhas k t).trans (hhas' k t), fun k t id => (hget k t id).trans (hget' k t id)⟩

/-- What a sweep leaves: every map, and every document that is not an expired entity. -/
theorem swept_inner (s : Store Bytes) (now : String) :
    (∀ k t, (sweep_expired chrono codec s now).1.inner.has k t ↔ s.inner.has k t) ∧
      ∀ k t id, ((sweep_expired chrono codec s now).1.inner.get k t id).isSome ↔
        ∃ d, s.inner.get k t id = some d ∧ ¬(k = .entity ∧ expired_at chrono d now = true) := by
  unfold sweep_expired
  obtain ⟨h1, g1⟩ := reaped_inner codec (dead chrono s.inner now) (s, 0)
  generalize (dead chrono s.inner now).foldl (reap codec) (s, 0) = r1 at h1 g1
  obtain ⟨h2, g2⟩ := pruned_docs_inner chrono codec now .entity (ids r1.1.inner .entity) r1
  generalize hr2 : (ids r1.1.inner .entity).foldl (prune_doc chrono codec now .entity) r1 = r2 at h2 g2
  obtain ⟨h3, g3⟩ := pruned_docs_inner chrono codec now .temporal (ids r2.1.inner .temporal) r2
  dsimp only
  rw [hr2]
  refine ⟨fun k t => (h3 k t).trans ((h2 k t).trans (h1 k t)), fun k t id => ?_⟩
  rw [g3, g2, g1]
  by_cases hk : k = .entity
  · subst hk
    by_cases hd : (t, id) ∈ dead chrono s.inner now
    · obtain ⟨d, hd', hexp⟩ := (mem_dead chrono).mp hd
      simp [hd, hd', hexp]
    · have hlive : ∀ d, s.inner.get .entity t id = some d → expired_at chrono d now = false := by
        intro d hd'
        by_contra hexp
        exact hd ((mem_dead chrono).mpr ⟨d, hd', by simpa using hexp⟩)
      rw [if_neg (fun h => hd h.2), Option.isSome_iff_exists]
      exact exists_congr (fun d => ⟨fun h => ⟨h, by simp [hlive d h]⟩, fun h => h.1⟩)
  · simp [hk, Option.isSome_iff_exists]

theorem purge_kind_inner (tenant : TenantId) (r : Store Bytes × Bool) (kind : Kind) :
    (∀ k t, (purge_kind codec tenant r kind).1.inner.has k t ↔
        r.1.inner.has k t ∧ ¬(k = kind ∧ t = tenant.name)) ∧
      ∀ k t id, (purge_kind codec tenant r kind).1.inner.get k t id =
        if k = kind ∧ t = tenant.name then none else r.1.inner.get k t id := by
  unfold purge_kind
  cases hg : (r.1.inner.map kind).get tenant.name with
  | none =>
      refine ⟨fun k t => ⟨fun h => ⟨h, ?_⟩, fun h => h.1⟩, fun k t id => ?_⟩
      · rintro ⟨rfl, rfl⟩
        simp [Inner.has, hg] at h
      · split_ifs with he
        · obtain ⟨rfl, rfl⟩ := he
          simp [Inner.get, Tenants.doc, hg]
        · rfl
  | some docs =>
      have hinner (keys : List String) (s : Store Bytes) :
          (keys.foldl (fun s id => persist codec s (.docs kind) (key_bytes tenant.name id) none) s).inner =
            s.inner := by
        induction keys generalizing s with
        | nil => rfl
        | cons id keys ih => rw [List.foldl_cons, ih, persist_inner]
      dsimp only
      rw [hinner]
      exact ⟨fun k t => Inner.has_drop _ _ _ _ _, fun k t id => Inner.get_drop _ _ _ _ _ _⟩

theorem foldl_purge_kind_inner (tenant : TenantId) (kinds : List Kind) (r : Store Bytes × Bool) :
    (∀ k t, (kinds.foldl (purge_kind codec tenant) r).1.inner.has k t ↔
        r.1.inner.has k t ∧ ¬(k ∈ kinds ∧ t = tenant.name)) ∧
      ∀ k t id, (kinds.foldl (purge_kind codec tenant) r).1.inner.get k t id =
        if k ∈ kinds ∧ t = tenant.name then none else r.1.inner.get k t id := by
  induction kinds generalizing r with
  | nil => simp
  | cons kind kinds ih =>
      obtain ⟨hhas, hget⟩ := ih (purge_kind codec tenant r kind)
      obtain ⟨hhas', hget'⟩ := purge_kind_inner codec tenant r kind
      refine ⟨fun k t => ?_, fun k t id => ?_⟩
      · rw [List.foldl_cons, hhas, hhas', List.mem_cons]
        tauto
      · rw [List.foldl_cons, hget, hget']
        by_cases hk : k = kind <;> by_cases ht : t = tenant.name <;> by_cases hm : k ∈ kinds <;> simp [hk, ht, hm]

theorem purge_kinds_inner (s : Store Bytes) (tenant : TenantId) (kinds : List Kind) :
    (∀ k t, (purge_kinds codec s tenant kinds).1.inner.has k t ↔
        s.inner.has k t ∧ ¬(k ∈ kinds ∧ t = tenant.name)) ∧
      ∀ k t id, (purge_kinds codec s tenant kinds).1.inner.get k t id =
        if k ∈ kinds ∧ t = tenant.name then none else s.inner.get k t id :=
  foldl_purge_kind_inner codec tenant kinds (s, false)

theorem held_purge {i j : Inner} (h : ∀ t, Held i t) {tenant : TenantId} {kinds : List Kind}
    (hhas : ∀ k t, j.has k t ↔ i.has k t ∧ ¬(k ∈ kinds ∧ t = tenant.name))
    (hget : ∀ k t id, j.get k t id = if k ∈ kinds ∧ t = tenant.name then none else i.get k t id)
    (hleft : (∃ k, k ∉ kinds ∧ i.has k tenant.name) → ∃ k id, k ∉ kinds ∧ (i.get k tenant.name id).isSome)
    (u : String) : Held j u := by
  by_cases hu : u = tenant.name
  · subst hu
    rintro ⟨k, hk⟩
    obtain ⟨hk, hne⟩ := (hhas k _).mp hk
    obtain ⟨k', id, hk', hid⟩ := hleft ⟨k, fun hm => hne ⟨hm, rfl⟩, hk⟩
    exact ⟨k', id, by rw [hget, if_neg (fun hm => hk' hm.1)]; exact hid⟩
  · refine held_of_more (h u) (fun k hk => ((hhas k u).mp hk).1) (fun k id hid => ?_)
    rwa [hget, if_neg (fun hm => hu hm.2)]

theorem remove_contexts_map (ids : List String) (s : Store Bytes) :
    (ids.foldl (remove_context codec) s).inner.map = s.inner.map := by
  induction ids generalizing s with
  | nil => rfl
  | cons id ids ih =>
      rw [List.foldl_cons, ih]
      rfl

theorem held_of_map {i j : Inner} (hmap : j.map = i.map) {t : String} (h : Held i t) : Held j t := by
  have hhas (k : Kind) : j.has k t ↔ i.has k t := by rw [Inner.has, Inner.has, hmap]
  have hget (k : Kind) (id : String) : j.get k t id = i.get k t id := by rw [Inner.get, Inner.get, hmap]
  exact held_of_more h (fun k hk => (hhas k).mp hk) (fun k id hid => by rwa [hget])

theorem purge_tenant_map (s : Store Bytes) (tenant : TenantId) :
    (purge_tenant codec s tenant).1.inner.map = (purge_kinds codec s tenant ALL_KINDS).1.inner.map := by
  unfold purge_tenant
  generalize purge_kinds codec s tenant ALL_KINDS = r
  exact remove_contexts_map codec _ _

/-- A step that leaves a document keeps every tenant with a map in documents. -/
theorem step_held {s : Store Bytes} (h : ∀ t, Held s.inner t) (op : Op T E)
    (hop : leaves_document chrono s.inner op) (u : String) : Held (step chrono codec s op).inner u := by
  cases op with
  | create now tenant kind id doc =>
      simp only [step, create]
      split_ifs with hc
      · by_cases hu : u = tenant.name
        · subst hu
          exact fun _ => ⟨kind, id, by simp at hc ⊢; exact hc.1⟩
        · exact held_of_more (h u) (fun k hk => by simpa [hu] using hk) (fun k j hj => by simpa using hj)
      · rw [persist_inner]
        by_cases hu : u = tenant.name
        · exact fun _ => ⟨kind, id, by simp [hu]⟩
        · exact held_of_more (h u) (fun k hk => by simpa [hu] using hk) (fun k j hj => by simpa [hu] using hj)
  | upsert now tenant kind id doc =>
      simp only [step, upsert, persist_inner]
      exact held_insert h kind tenant.name id doc u
  | mutate now tenant kind id f =>
      simp only [step, mutate]
      split_ifs with hexp
      · exact h u
      · cases hg : s.inner.get kind tenant.name id with
        | none => exact h u
        | some before =>
            dsimp only
            cases hf : f before with
            | error e => exact h u
            | ok r => exact held_insert h kind tenant.name id r.2 u
  | delete now tenant kind id =>
      simp only [leaves_document] at hop
      simp only [step, delete]
      split_ifs with hexp hsome
      · exact h u
      · rw [persist_inner]
        exact held_remove h (hop (by simpa using hexp)) u
      · exact held_remove h (fun hs => absurd hs hsome) u
  | delete_if now tenant id keep =>
      simp only [leaves_document] at hop
      simp only [step, delete_if]
      split_ifs with hexp
      · exact h u
      · cases hg : s.inner.get .entity tenant.name id with
        | none => exact h u
        | some doc =>
            dsimp only
            split_ifs with hkeep
            · rw [persist_inner]
              refine held_remove h (fun _ => hop (by simpa using hexp) ?_) u
              simp [hg, hkeep]
            · exact h u
  | sweep_expired now =>
      simp only [leaves_document] at hop
      obtain ⟨hhas, hget⟩ := swept_inner chrono codec s now
      rintro ⟨k, hk⟩
      obtain ⟨k', id, hid⟩ := h u ⟨k, (hhas k u).mp hk⟩
      obtain ⟨d, hd⟩ := Option.isSome_iff_exists.mp hid
      by_cases hdead : k' = .entity ∧ expired_at chrono d now = true
      · obtain ⟨rfl, hexp⟩ := hdead
        obtain ⟨k'', j, d', hd', hlive⟩ := hop u ⟨id, d, hd, hexp⟩
        exact ⟨k'', j, (hget k'' u j).mpr ⟨d', hd', hlive⟩⟩
      · exact ⟨k', id, (hget k' u id).mpr ⟨d, hd, hdead⟩⟩
  | purge_kinds tenant kinds =>
      obtain ⟨hhas, hget⟩ := purge_kinds_inner codec s tenant kinds
      exact held_purge h hhas hget hop u
  | purge_tenant tenant =>
      have hmap := purge_tenant_map codec s tenant
      obtain ⟨hhas, hget⟩ := purge_kinds_inner codec s tenant ALL_KINDS
      rw [step]
      generalize (purge_kinds codec s tenant ALL_KINDS).1.inner = left at hmap hhas hget
      exact held_of_map hmap (held_purge h hhas hget (fun ⟨k, hk, _⟩ => absurd (mem_all_kinds k) hk) u)
  | context_put tenant id doc =>
      refine held_of_map ?_ (h u)
      simp only [step, context_put]
      split_ifs
      · exact remove_contexts_map codec _ _
      · rfl
      · rfl
  | context_delete tenant id =>
      refine held_of_map ?_ (h u)
      simp only [step, context_delete]
      split_ifs <;> rfl

theorem run_held {s : Store Bytes} (h : ∀ t, Held s.inner t) {ops : List (Op T E)}
    (hops : StepsLeaveDocument chrono codec s ops) (u : String) : Held (run chrono codec s ops).inner u := by
  induction ops generalizing s with
  | nil => exact h u
  | cons op ops ih => exact ih (step_held chrono codec h op hops.1) hops.2

/-- A restart after any run rebuilds a store no read tells from the running one
exactly when every tenant that has a map holds a document, which runs that
never leave a tenant with empty maps only keep. -/
theorem restart_equivalence {db : Shadow Bytes} {s : Store Bytes} (hdb : from_database codec db = .ok s)
    (ops : List (Op T E)) :
    ∃ sh s', (run chrono codec s ops).shadow = some sh ∧ from_database codec sh = .ok s' ∧
      (SameReads chrono (run chrono codec s ops).inner s'.inner ↔
        ∀ t, Visible t → Held (run chrono codec s ops).inner t) ∧
      (StepsLeaveDocument chrono codec s ops → SameReads chrono (run chrono codec s ops).inner s'.inner) := by
  obtain ⟨hm, hne⟩ := from_database_mirrored hdb
  obtain ⟨sh, hsh, hopen⟩ := reopen (run_mirrored chrono codec hm ops)
  have hiff := same_reads_pruned chrono (run chrono codec s ops).inner
  refine ⟨sh, _, hsh, hopen, hiff, fun hops => hiff.mpr (fun t _ => ?_)⟩
  refine run_held chrono codec (fun u => ?_) hops t
  rintro ⟨kind, hk⟩
  obtain ⟨docs, hdocs⟩ := Option.isSome_iff_exists.mp hk
  obtain ⟨id, hid⟩ := not_is_empty_iff.mp (hne kind u docs hdocs)
  exact ⟨kind, id, by simpa [Inner.get, Tenants.doc, hdocs] using hid⟩

def emptyFile : Shadow Value := ⟨fun _ => BTreeMap.empty, none⟩

def markedFile : Shadow Value := { emptyFile with format := some FORMAT_VERSION }

def newStore : Store Value := ⟨no_documents, some markedFile⟩

def city : TenantId := ⟨"city", by decide, by decide, by decide⟩

def room : Value := .object [("id", .string "urn:ngsi-ld:Room:1")]

theorem newStore_mirrored : Mirrored plain newStore := by
  refine ⟨markedFile, rfl, rfl, fun _ _ _ _ => rfl, ?_, ?_, fun _ => rfl, ?_⟩
  · intro kind key b h
    exact absurd h (by simp [markedFile, emptyFile])
  · intro kind t h
    exact absurd h (by simp [newStore, no_documents, Inner.has])
  · intro id b h
    exact absurd h (by simp [markedFile, emptyFile])

theorem newStore_opened : from_database plain emptyFile = .ok newStore := by
  obtain ⟨sh, hsh, hopen⟩ := reopen newStore_mirrored
  injection hsh with hsh
  subst hsh
  exact hopen

def created : List (Op Unit Unit) :=
  [.create "2026-01-01T00:00:00.000Z" city .entity "urn:ngsi-ld:Room:1" room]

theorem restart_equivalence_created :
    ∃ sh s', (run fixed_width plain newStore created).shadow = some sh ∧ from_database plain sh = .ok s' ∧
      SameReads fixed_width (run fixed_width plain newStore created).inner s'.inner := by
  obtain ⟨sh, s', h1, h2, -, h3⟩ := restart_equivalence fixed_width plain newStore_opened created
  exact ⟨sh, s', h1, h2, h3 ⟨trivial, trivial⟩⟩

def createdThenDeleted : List (Op Unit Unit) :=
  created ++ [.delete "2026-01-01T00:00:00.000Z" city .entity "urn:ngsi-ld:Room:1"]

/-- The tenant of a deleted entity exists until the restart and not after it. -/
theorem restart_forgets_tenant :
    ¬∀ (db : Shadow Value) (s s' : Store Value) (sh : Shadow Value) (ops : List (Op Unit Unit)),
      from_database plain db = .ok s → (run fixed_width plain s ops).shadow = some sh →
        from_database plain sh = .ok s' → SameReads fixed_width (run fixed_width plain s ops).inner s'.inner := by
  intro h
  obtain ⟨sh, hsh, hopen⟩ := reopen (run_mirrored fixed_width plain (from_database_mirrored newStore_opened).1
    createdThenDeleted)
  have hsame := (h emptyFile newStore _ sh createdThenDeleted newStore_opened hsh hopen).tenant_exists city
  have hbefore : tenant_exists (run fixed_width plain newStore createdThenDeleted).inner city = true := by decide
  have hafter : tenant_exists (pruned (run fixed_width plain newStore createdThenDeleted).inner) city = false := by
    decide
  exact absurd (hbefore.symm.trans (hsame.trans hafter)) (by decide)

end AntaresBroker.FileMode
