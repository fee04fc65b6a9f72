import AntaresBroker.RowStore

namespace AntaresBroker.RowStore

open Json Expiry Evolution

def instances (m : Map) (k : String) : List Value := ((m.lookup k).bind Value.as_array).getD []

section Instances

variable {Time : Type} (cast : Cast Time)

def STAMPS : List String := ["observedAt", "modifiedAt", "deletedAt", "createdAt"]

/-- The database can read the stamps of an instance. -/
def Castable (v : Value) : Prop :=
  ∀ k ∈ STAMPS, ∀ s, text v k = some s → (cast.timestamptz (canonical_datetime s)).isSome = true

def Named (v : Value) : Prop := v.is_object = true ∧ (text v "instanceId").isSome = true

/-- Instances that rows can stand for: each has an id of its own and stamps the database can read. -/
structure Lawful (l : List Value) : Prop where
  named : ∀ v ∈ l, Named v
  castable : ∀ v ∈ l, Castable cast v
  distinct : (l.map (fun v => text v "instanceId")).Nodup

/-- A document rows can stand for. -/
structure Solid (m : Map) : Prop where
  sorted : SortedMap.Sorted m
  arrays : ∀ k ∉ DOC_META, ∀ v, m.lookup k = some v → ∃ items, v = .array items ∧ items ≠ [] ∧ Lawful cast items

/-- The same document up to the order of the instances. -/
structure Alike (n m : Map) : Prop where
  meta_members : ∀ k ∈ DOC_META, n.lookup k = m.lookup k
  instances : ∀ k ∉ DOC_META, (instances n k).Perm (instances m k)

variable {cast}

theorem Lawful.nil : Lawful cast [] := ⟨nofun, nofun, List.nodup_nil⟩

theorem Lawful.perm {l l' : List Value} (h : Lawful cast l) (hp : l.Perm l') : Lawful cast l' :=
  ⟨fun v hv => h.named v (hp.mem_iff.mpr hv), fun v hv => h.castable v (hp.mem_iff.mpr hv), (hp.map _).nodup_iff.mp h.distinct⟩

theorem Lawful.nodup {l : List Value} (h : Lawful cast l) : l.Nodup := h.distinct.of_map _

theorem Solid.lawful {m : Map} (h : Solid cast m) {k : String} (hk : k ∉ DOC_META) : Lawful cast (instances m k) := by
  unfold instances
  cases hv : m.lookup k with
  | none => exact .nil
  | some v =>
      obtain ⟨items, rfl, -, hitems⟩ := h.arrays k hk v hv
      exact hitems

/-- Instances under an attribute are all there is of it. -/
theorem Solid.lookup {m : Map} (h : Solid cast m) {k : String} (hk : k ∉ DOC_META) :
    m.lookup k = if instances m k = [] then none else some (.array (instances m k)) := by
  unfold instances
  cases hv : m.lookup k with
  | none => exact (if_pos rfl).symm
  | some v =>
      obtain ⟨items, rfl, hne, -⟩ := h.arrays k hk v hv
      exact (if_neg hne).symm

theorem Alike.refl (m : Map) : Alike m m := ⟨fun _ _ => rfl, fun _ _ => .refl _⟩

theorem Alike.trans {l m n : Map} (h : Alike l m) (h' : Alike m n) : Alike l n :=
  ⟨fun k hk => (h.meta_members k hk).trans (h'.meta_members k hk), fun k hk => (h.instances k hk).trans (h'.instances k hk)⟩

theorem observed_cast {v : Value} (h : Castable cast v) : (cast.timestamptz (observed v)).isSome = true := by
  have hstamp : ∀ k ∈ STAMPS, ∀ s, ts v k = some s → (cast.timestamptz s).isSome = true := by
    intro k hk s hs
    obtain ⟨t, ht, rfl⟩ := Option.map_eq_some_iff.mp hs
    exact h k hk t ht
  unfold observed
  cases ho : ts v "observedAt" with
  | some s => exact hstamp _ (by decide) s ho
  | none =>
      cases hm : ts v "modifiedAt" with
      | some s => exact hstamp _ (by decide) s hm
      | none =>
          cases hd : ts v "deletedAt" with
          | some s => exact hstamp _ (by decide) s hd
          | none =>
              cases hc : ts v "createdAt" with
              | some s => exact hstamp _ (by decide) s hc
              | none => exact cast.epoch

/-- Where an instance is kept among those of its attribute. -/
def place (cast : Cast Time) (v : Value) : Option (String × Time) :=
  (text v "instanceId").bind (fun i => (cast.timestamptz (observed v)).map (fun o => (i, o)))

/-- The row of an instance, before and after the cast. -/
structure Sent (cast : Cast Time) (attr : String) (v : Value) (t : NewRow) (r : Row Time) : Prop where
  row : row_of attr v = some t
  made : cast_row cast t = some r
  attr_id : t.attr_id = attr
  data : t.data = v
  key : r.key = (attr, t.instance_id, r.observed_at)
  held : r.data = v
  placed : place cast v = some (t.instance_id, r.observed_at)

theorem sent_row {v : Value} (hn : Named v) (hc : Castable cast v) (attr : String) : ∃ t r, Sent cast attr v t r := by
  obtain ⟨i, hi⟩ := Option.isSome_iff_exists.mp hn.2
  obtain ⟨o, ho⟩ := Option.isSome_iff_exists.mp (observed_cast hc)
  have hstamp : ∀ k ∈ STAMPS, ∃ c, cast.timestamptz ((ts v k).getD (observed v)) = some c := by
    intro k hk
    cases hs : ts v k with
    | none => exact ⟨o, ho⟩
    | some s =>
        obtain ⟨t, ht, rfl⟩ := Option.map_eq_some_iff.mp hs
        exact Option.isSome_iff_exists.mp (hc k hk t ht)
  obtain ⟨created, hcreated⟩ := hstamp "createdAt" (by decide)
  obtain ⟨modified, hmodified⟩ := hstamp "modifiedAt" (by decide)
  have hdeleted : (ts v "deletedAt").all (fun s => (cast.timestamptz s).isSome) = true := by
    cases hs : ts v "deletedAt" with
    | none => rfl
    | some s =>
        obtain ⟨t, ht, rfl⟩ := Option.map_eq_some_iff.mp hs
        exact hc _ (by decide) t ht
  refine ⟨⟨attr, i, text v "datasetId", observed v, (ts v "createdAt").getD (observed v),
    (ts v "modifiedAt").getD (observed v), ts v "deletedAt", v⟩, ⟨attr, i, o, created, v⟩, ?_, ?_, rfl, rfl, rfl, rfl, ?_⟩
  · rw [row_of, hi, Option.map_some]
  · simp only [RowStore.cast_row, ho, hcreated, hmodified, hdeleted]
  · rw [place, hi, ho]
    rfl

end Instances

section Decomposition

variable {Time : Type} {cast : Cast Time} {m : Map}

theorem mem_decompose (hm : Solid cast m) {t : NewRow} :
    t ∈ decompose m ↔ ∃ a ∉ DOC_META, ∃ v ∈ instances m a, row_of a v = some t := by
  unfold decompose
  rw [List.mem_flatMap]
  constructor
  · rintro ⟨p, hp, ht⟩
    by_cases hmeta : p.1 ∈ DOC_META
    · rw [if_pos (List.contains_iff_mem.mpr hmeta)] at ht
      exact absurd ht List.not_mem_nil
    · rw [if_neg fun h => hmeta (List.contains_iff_mem.mp h)] at ht
      obtain ⟨v, hv, ht⟩ := List.mem_filterMap.mp ht
      refine ⟨p.1, hmeta, v, ?_, ht⟩
      rw [instances, SortedMap.lookup_of_mem hm.sorted hp]
      exact hv
  · rintro ⟨a, ha, v, hv, ht⟩
    unfold instances at hv
    cases hlookup : m.lookup a with
    | none =>
        rw [hlookup] at hv
        exact absurd hv List.not_mem_nil
    | some w =>
        rw [hlookup] at hv
        refine ⟨(a, w), SortedMap.mem_of_lookup hlookup, ?_⟩
        rw [if_neg fun h => ha (List.contains_iff_mem.mp h)]
        exact List.mem_filterMap.mpr ⟨v, hv, ht⟩

theorem row_of_some {attr : String} {v : Value} {t : NewRow} (h : row_of attr v = some t) :
    t.attr_id = attr ∧ t.data = v ∧ text v "instanceId" = some t.instance_id ∧ t.observed_at = observed v := by
  obtain ⟨i, hi, rfl⟩ := Option.map_eq_some_iff.mp h
  exact ⟨rfl, rfl, hi, rfl⟩

/-- The rows of a document differ in attribute or id. -/
theorem identities_nodup (hm : Solid cast m) : ((decompose m).map NewRow.identity).Nodup := by
  have hrow : ∀ p ∈ m, p.1 ∉ DOC_META →
      (((Temporal.items p.2).filterMap (row_of p.1)).map NewRow.identity).Nodup := by
    intro p hp hmeta
    have hl : Lawful cast (Temporal.items p.2) := by
      have hlookup := hm.lawful hmeta
      rwa [instances, SortedMap.lookup_of_mem hm.sorted hp] at hlookup
    have hids := hl.distinct
    generalize Temporal.items p.2 = l at hids
    induction l with
    | nil => exact List.nodup_nil
    | cons v l ih =>
        rw [List.map_cons, List.nodup_cons] at hids
        rw [List.filterMap_cons]
        cases ht : row_of p.1 v with
        | none => exact ih hids.2
        | some t =>
            rw [List.map_cons, List.nodup_cons]
            refine ⟨fun hin => hids.1 ?_, ih hids.2⟩
            obtain ⟨t', ht', hid⟩ := List.mem_map.mp hin
            obtain ⟨v', hv', hrow⟩ := List.mem_filterMap.mp ht'
            obtain ⟨-, -, hi, -⟩ := row_of_some ht
            obtain ⟨-, -, hi', -⟩ := row_of_some hrow
            refine List.mem_map.mpr ⟨v', hv', ?_⟩
            have hsame : t'.instance_id = t.instance_id := (Prod.ext_iff.mp hid).2
            rw [hi, hi', hsame]
  unfold decompose
  rw [List.map_flatMap, List.nodup_flatMap]
  constructor
  · intro p hp
    split_ifs with hmeta
    · exact List.nodup_nil
    · exact hrow p hp fun h => hmeta (List.contains_iff_mem.mpr h)
  · refine hm.sorted.imp fun {p q} hpq k hk hk' => hpq.ne ?_
    have hattr : ∀ p : String × Value, ∀ k ∈ (if DOC_META.contains p.1 then [] else
        (Temporal.items p.2).filterMap (row_of p.1)).map NewRow.identity, k.1 = p.1 := by
      intro p k hk
      split_ifs at hk
      · cases hk
      · obtain ⟨t, ht, rfl⟩ := List.mem_map.mp hk
        obtain ⟨v, -, hrow⟩ := List.mem_filterMap.mp ht
        exact (row_of_some hrow).1
    rw [← hattr p k hk, ← hattr q k hk']

theorem decompose_inj (hm : Solid cast m) {t u : NewRow} (ht : t ∈ decompose m) (hu : u ∈ decompose m)
    (h : t.identity = u.identity) : t = u :=
  List.inj_on_of_nodup_map (identities_nodup hm) ht hu h

theorem collected_some (hm : Solid cast m) {k : String × String} {t : NewRow} :
    collected (decompose m) k = some t ↔ t ∈ decompose m ∧ t.identity = k := by
  unfold collected
  constructor
  · intro h
    exact ⟨List.mem_reverse.mp (List.mem_of_find?_eq_some h), by simpa using List.find?_some h⟩
  · rintro ⟨ht, hk⟩
    cases hfound : (decompose m).reverse.find? (fun r => r.identity = k) with
    | none =>
        have hnone := List.find?_eq_none.mp hfound t (List.mem_reverse.mpr ht)
        rw [decide_eq_true_eq] at hnone
        exact absurd hk hnone
    | some u =>
        have hu := List.mem_reverse.mp (List.mem_of_find?_eq_some hfound)
        have huk : u.identity = k := by simpa using List.find?_some hfound
        rw [decompose_inj hm hu ht (huk.trans hk.symm)]

theorem mapM_filterMap {α β : Type} {f : α → Option β} {l : List α} (h : ∀ a ∈ l, (f a).isSome = true) :
    l.mapM f = some (l.filterMap f) := by
  induction l with
  | nil => rfl
  | cons a l ih =>
      rw [List.forall_mem_cons] at h
      obtain ⟨b, hb⟩ := Option.isSome_iff_exists.mp h.1
      rw [List.mapM_cons, hb, ih h.2, List.filterMap_cons, hb]
      rfl

/-- A row of a document is kept under this key. -/
def Sends (cast : Cast Time) (t : NewRow) (k : String × String × Time) : Prop :=
  (t.attr_id, t.instance_id) = (k.1, k.2.1) ∧ cast.timestamptz t.observed_at = some k.2.2

theorem sends_of_sent {attr : String} {v : Value} {t : NewRow} {r : Row Time} (h : Sent cast attr v t r)
    {k : String × String × Time} : Sends cast t k ↔ r.key = k := by
  obtain ⟨a, i, o⟩ := k
  have ho : cast.timestamptz t.observed_at = some r.observed_at := by
    obtain ⟨hi, hmap⟩ := Option.bind_eq_some_iff.mp h.placed
    obtain ⟨o', ho', heq⟩ := Option.map_eq_some_iff.mp hmap.2
    rw [(row_of_some h.row).2.2.2, ho']
    exact congrArg some (Prod.ext_iff.mp heq).2
  unfold Sends
  rw [h.key, ho, h.attr_id]
  simp only [Prod.mk.injEq, Option.some.injEq, and_assoc]

/-- Which keys the rows of a document are sent under. -/
theorem sends_iff (hm : Solid cast m) {k : String × String × Time} {d : Value} :
    (∃ t ∈ decompose m, Sends cast t k ∧ t.data = d) ↔ k.1 ∉ DOC_META ∧ d ∈ instances m k.1 ∧ place cast d = some k.2 := by
  obtain ⟨a, i, o⟩ := k
  constructor
  · rintro ⟨t, ht, hs, rfl⟩
    obtain ⟨b, hb, v, hv, hrow⟩ := (mem_decompose hm).mp ht
    obtain ⟨hattr, rfl, hi, ho⟩ := row_of_some hrow
    obtain ⟨hid, hcast⟩ := hs
    obtain ⟨rfl, rfl⟩ := Prod.ext_iff.mp hid
    refine ⟨hattr ▸ hb, hattr ▸ hv, ?_⟩
    rw [place, hi, Option.bind_some, ← ho, hcast]
    rfl
  · rintro ⟨ha, hd, hplace⟩
    have hl := hm.lawful ha
    obtain ⟨t, r, hsent⟩ := sent_row (hl.named d hd) (hl.castable d hd) a
    refine ⟨t, (mem_decompose hm).mpr ⟨a, ha, d, hd, hsent.row⟩, (sends_of_sent hsent).mpr ?_, hsent.data⟩
    have hio : (t.instance_id, r.observed_at) = (i, o) := Option.some.inj (hsent.placed.symm.trans hplace)
    rw [hsent.key, hio]

theorem keys_cast_nodup {l : List NewRow} (hsent : ∀ t ∈ l, ∃ a v r, Sent cast a v t r)
    (hids : (l.map NewRow.identity).Nodup) : ((l.filterMap (cast_row cast)).map Row.key).Nodup := by
  induction l with
  | nil => exact List.nodup_nil
  | cons t l ih =>
      rw [List.map_cons, List.nodup_cons] at hids
      rw [List.forall_mem_cons] at hsent
      obtain ⟨a, v, r, h⟩ := hsent.1
      rw [List.filterMap_cons, h.made, List.map_cons, List.nodup_cons]
      refine ⟨fun hin => hids.1 ?_, ih hsent.2 hids.2⟩
      obtain ⟨r', hr', hk⟩ := List.mem_map.mp hin
      obtain ⟨u, hu, hcast⟩ := List.mem_filterMap.mp hr'
      obtain ⟨a', v', r'', h'⟩ := hsent.2 u hu
      obtain rfl := Option.some.inj (hcast.symm.trans h'.made)
      refine List.mem_map.mpr ⟨u, hu, ?_⟩
      rw [h.key, h'.key] at hk
      simp only [Prod.mk.injEq] at hk
      rw [NewRow.identity, NewRow.identity, h.attr_id, h'.attr_id, hk.1, hk.2.1]

theorem lookup_foldl_attrs (f : String → Value) (rows : List (Row Time)) (doc : Map) (k : String) :
    (rows.foldl (fun doc r => SortedMap.insert r.attr_id (f r.attr_id) doc) doc).lookup k =
      if ∃ r ∈ rows, r.attr_id = k then some (f k) else doc.lookup k := by
  induction rows generalizing doc with
  | nil => simp
  | cons r rows ih =>
      rw [List.foldl_cons, ih, SortedMap.lookup_insert]
      by_cases hrows : ∃ r ∈ rows, r.attr_id = k
      · rw [if_pos hrows, if_pos (hrows.imp fun _ hr => ⟨List.mem_cons_of_mem _ hr.1, hr.2⟩)]
      · rw [if_neg hrows]
        by_cases hk : k = r.attr_id
        · rw [if_pos hk, if_pos ⟨r, List.mem_cons_self, hk.symm⟩, hk]
        · rw [if_neg hk, if_neg]
          rintro ⟨r', hr', hattr⟩
          rcases List.mem_cons.mp hr' with rfl | hr'
          · exact hk hattr.symm
          · exact hrows ⟨r', hr', hattr⟩

theorem key_on_conflict (o r : Row Time) (_ : o.key = r.key) : (on_conflict o r).key = o.key := rfl

end Decomposition

section Tables

variable {Time : Type} [LinearOrder Time] {cast : Cast Time} {m : Map}

/-- What a table holds under a key. -/
def view (rows : List (Row Time)) (k : String × String × Time) : Option Value :=
  (rows.find? (fun r => r.key = k)).map Row.data

theorem view_some {rows : List (Row Time)} (hrows : (rows.map Row.key).Nodup) {k : String × String × Time} {d : Value} :
    view rows k = some d ↔ ∃ r ∈ rows, r.key = k ∧ r.data = d := by
  unfold view
  constructor
  · intro h
    obtain ⟨r, hr, hd⟩ := Option.map_eq_some_iff.mp h
    exact ⟨r, List.mem_of_find?_eq_some hr, by simpa using List.find?_some hr, hd⟩
  · rintro ⟨r, hr, hk, rfl⟩
    cases hfound : rows.find? (fun r => r.key = k) with
    | none =>
        have hnone := List.find?_eq_none.mp hfound r hr
        rw [decide_eq_true_eq] at hnone
        exact absurd hk hnone
    | some u =>
        have huk : u.key = k := by simpa using List.find?_some hfound
        rw [List.inj_on_of_nodup_map hrows (List.mem_of_find?_eq_some hfound) hr (huk.trans hk.symm)]
        rfl

theorem view_filter (rows : List (Row Time)) (gone : List (String × String)) (k : String × String × Time) :
    view (rows.filter (fun r => r.identity ∉ gone)) k = if (k.1, k.2.1) ∈ gone then none else view rows k := by
  unfold view
  rw [List.find?_filter]
  split_ifs with hgone
  · rw [List.find?_eq_none.mpr]
    · rfl
    · intro r _
      rw [decide_eq_true_eq]
      rintro ⟨hr, hk⟩
      rw [decide_eq_true_eq] at hr hk
      refine hr ?_
      rw [← hk] at hgone
      exact hgone
  · congr 2
    funext r
    by_cases hk : r.key = k
    · have hr : r.identity ∉ gone := by
        rw [← hk] at hgone
        exact hgone
      simp [hk, hr]
    · simp [hk]

theorem put_all (new table : List (Row Time)) (htable : (table.map Row.key).Nodup) :
    ((new.foldl (fun t r => Grouping.put Row.key on_conflict r t) table).map Row.key).Nodup ∧
      ∀ k, view (new.foldl (fun t r => Grouping.put Row.key on_conflict r t) table) k =
        ((new.reverse.find? (fun r => r.key = k)).map Row.data).or (view table k) := by
  induction new using List.reverseRecOn with
  | nil => exact ⟨htable, fun k => rfl⟩
  | append_singleton new r ih =>
      rw [List.foldl_append]
      constructor
      · rw [List.foldl_cons, List.foldl_nil, Grouping.keys_put key_on_conflict]
        split_ifs with hin
        · exact ih.1
        · exact List.nodup_append.mpr
            ⟨ih.1, List.nodup_singleton _, fun a ha b hb hab => hin (List.mem_singleton.mp hb ▸ hab ▸ ha)⟩
      · intro k
        rw [List.foldl_cons, List.foldl_nil, List.reverse_append, List.reverse_singleton, List.singleton_append,
          List.find?_cons]
        have hih := ih.2 k
        unfold view at hih ⊢
        rw [Grouping.find_put key_on_conflict]
        by_cases hk : r.key = k
        · rw [if_pos hk, decide_eq_true hk]
          cases (new.foldl (fun t r => Grouping.put Row.key on_conflict r t) table).find? (fun o => o.key = k) <;> rfl
        · rw [if_neg hk, decide_eq_false hk]
          exact hih

/-- Some of the rows of a document are inserted. -/
theorem insert_some (hm : Solid cast m) (q : NewRow → Bool) {table : List (Row Time)}
    (htable : (table.map Row.key).Nodup) :
    ∃ rows, insert_rows cast table ((decompose m).filter q) = some rows ∧ (rows.map Row.key).Nodup ∧
      ∀ k d, view rows k = some d ↔
        (∃ t ∈ (decompose m).filter q, Sends cast t k ∧ t.data = d) ∨
          ((∀ t ∈ (decompose m).filter q, ¬Sends cast t k) ∧ view table k = some d) := by
  have hsent : ∀ t ∈ decompose m, ∃ a v r, Sent cast a v t r := by
    intro t ht
    obtain ⟨a, ha, v, hv, hrow⟩ := (mem_decompose hm).mp ht
    have hl := hm.lawful ha
    obtain ⟨t', r, h⟩ := sent_row (hl.named v hv) (hl.castable v hv) a
    obtain rfl := Option.some.inj (hrow.symm.trans h.row)
    exact ⟨a, v, r, h⟩
  have hsent' : ∀ t ∈ (decompose m).filter q, ∃ a v r, Sent cast a v t r :=
    fun t ht => hsent t (List.mem_of_mem_filter ht)
  set sent := (decompose m).filter q with hdef
  have hmap : sent.mapM (cast_row cast) = some (sent.filterMap (cast_row cast)) := by
    refine mapM_filterMap fun t ht => ?_
    obtain ⟨a, v, r, h⟩ := hsent' t ht
    rw [h.made]
    rfl
  have hkeys : ((sent.filterMap (cast_row cast)).map Row.key).Nodup := by
    refine keys_cast_nodup hsent' ?_
    rw [hdef]
    exact (identities_nodup hm).sublist (List.filter_sublist.map _)
  obtain ⟨hnodup, hview⟩ := put_all (sent.filterMap (cast_row cast)) table htable
  refine ⟨_, ?_, hnodup, fun k d => ?_⟩
  · rw [insert_rows, hmap, Option.bind_some, if_pos hkeys]
  · rw [hview]
    have hnew : ∀ d, ((sent.filterMap (cast_row cast)).reverse.find? (fun r => r.key = k)).map Row.data = some d ↔
        ∃ t ∈ sent, Sends cast t k ∧ t.data = d := by
      intro d
      have hkeys' : ((sent.filterMap (cast_row cast)).reverse.map Row.key).Nodup := by
        rw [List.map_reverse]
        exact List.nodup_reverse.mpr hkeys
      rw [show ((sent.filterMap (cast_row cast)).reverse.find? (fun r => r.key = k)).map Row.data =
        view (sent.filterMap (cast_row cast)).reverse k from rfl, view_some hkeys']
      constructor
      · rintro ⟨r, hr, hk, rfl⟩
        obtain ⟨t, ht, hcast⟩ := List.mem_filterMap.mp (List.mem_reverse.mp hr)
        obtain ⟨a, v, r', h⟩ := hsent' t ht
        obtain rfl := Option.some.inj (hcast.symm.trans h.made)
        exact ⟨t, ht, (sends_of_sent h).mpr hk, h.data.trans h.held.symm⟩
      · rintro ⟨t, ht, hs, rfl⟩
        obtain ⟨a, v, r, h⟩ := hsent' t ht
        exact ⟨r, List.mem_reverse.mpr (List.mem_filterMap.mpr ⟨t, ht, h.made⟩), (sends_of_sent h).mp hs,
          h.held.trans h.data.symm⟩
    cases hfound : ((sent.filterMap (cast_row cast)).reverse.find? (fun r => r.key = k)).map Row.data with
    | none =>
        rw [Option.none_or]
        have hnone : ∀ t ∈ sent, ¬Sends cast t k := by
          intro t ht hs
          rw [(hnew t.data).mpr ⟨t, ht, hs, rfl⟩] at hfound
          cases hfound
        exact ⟨fun h => .inr ⟨hnone, h⟩, fun h => h.elim (fun ⟨t, ht, hs, _⟩ => absurd hs (hnone t ht)) And.right⟩
    | some e =>
        rw [Option.some_or]
        obtain ⟨t, ht, hs, he⟩ := (hnew e).mp hfound
        constructor
        · intro h
          exact .inl ⟨t, ht, hs, he.trans (Option.some.inj h)⟩
        · rintro (h | ⟨hnone, -⟩)
          · rw [← hfound]
            exact (hnew d).mpr h
          · exact absurd hs (hnone t ht)

end Tables

/-- The rows and the members of an evolution are those of a document. -/
structure Rowed {Time : Type} [LinearOrder Time] (cast : Cast Time) (st : Stored Time) (m : Map) : Prop where
  sorted : SortedMap.Sorted st.meta_doc
  meta_members : ∀ k, st.meta_doc.lookup k = if k ∈ DOC_META then m.lookup k else none
  unique : (st.rows.map Row.key).Nodup
  held : ∀ k d, view st.rows k = some d ↔ k.1 ∉ DOC_META ∧ d ∈ instances m k.1 ∧ place cast d = some k.2

section Delta

variable {Time : Type} [LinearOrder Time] {cast : Cast Time} {st : Stored Time} {m n : Map}

theorem Rowed.alike (h : Rowed cast st n) (ha : Alike n m) : Rowed cast st m := by
  refine ⟨h.sorted, fun k => ?_, h.unique, fun k d => ?_⟩
  · rw [h.meta_members]
    split_ifs with hk
    · exact ha.meta_members k hk
    · rfl
  · rw [h.held]
    refine and_congr_right fun hk => ?_
    rw [(ha.instances k.1 hk).mem_iff]

theorem sorted_reconstruct (hs : SortedMap.Sorted st.meta_doc) : SortedMap.Sorted (reconstruct st) := by
  unfold reconstruct
  generalize st.meta_doc = doc at hs
  suffices h : ∀ (l : List (Row Time)) (doc : Map), SortedMap.Sorted doc → SortedMap.Sorted
      (l.foldl (fun doc r => SortedMap.insert r.attr_id (.array (insts st.rows r.attr_id)) doc) doc) from h _ _ hs
  intro l
  induction l with
  | nil => exact fun _ h => h
  | cons r l ih => exact fun doc h => ih _ (SortedMap.sorted_insert _ _ h)

theorem mem_insts {rows : List (Row Time)} {a : String} {d : Value} :
    d ∈ insts rows a ↔ ∃ r ∈ rows, r.attr_id = a ∧ r.data = d := by
  unfold insts
  rw [List.mem_map]
  refine exists_congr fun r => ?_
  rw [List.mem_insertionSort, List.mem_filter, decide_eq_true_eq, and_assoc]

/-- A row is kept under the key of its instance. -/
theorem Rowed.key_eq (h : Rowed cast st m) {r : Row Time} (hr : r ∈ st.rows) :
    r.attr_id ∉ DOC_META ∧ r.data ∈ instances m r.attr_id ∧ place cast r.data = some (r.instance_id, r.observed_at) :=
  (h.held r.key r.data).mp ((view_some h.unique).mpr ⟨r, hr, rfl, rfl⟩)

theorem Rowed.insts_perm (h : Rowed cast st m) (hm : Solid cast m) {a : String} (ha : a ∉ DOC_META) :
    (insts st.rows a).Perm (instances m a) := by
  have hnodup : (insts st.rows a).Nodup := by
    unfold insts
    refine List.Nodup.map_on ?_ ((List.perm_insertionSort _ _).nodup_iff.mpr (h.unique.of_map.filter _))
    intro r hr s hs hdata
    obtain ⟨hr, hra⟩ := List.mem_filter.mp ((List.mem_insertionSort _).mp hr)
    obtain ⟨hs, hsa⟩ := List.mem_filter.mp ((List.mem_insertionSort _).mp hs)
    rw [decide_eq_true_eq] at hra hsa
    have hplace := (h.key_eq hr).2.2
    rw [hdata, (h.key_eq hs).2.2] at hplace
    refine List.inj_on_of_nodup_map h.unique hr hs ?_
    rw [Row.key, Row.key, hra, hsa, ← Option.some.inj hplace]
  refine (List.perm_ext_iff_of_nodup hnodup (hm.lawful ha).nodup).mpr fun d => ?_
  rw [mem_insts]
  constructor
  · rintro ⟨r, hr, rfl, rfl⟩
    exact (h.key_eq hr).2.1
  · intro hd
    have hl := hm.lawful ha
    obtain ⟨t, r, hsent⟩ := sent_row (hl.named d hd) (hl.castable d hd) a
    obtain ⟨r, hr, hk, hdata⟩ := (view_some h.unique).mp ((h.held (a, t.instance_id, r.observed_at) d).mpr ⟨ha, hd, hsent.placed⟩)
    exact ⟨r, hr, (Prod.ext_iff.mp hk).1, hdata⟩

/-- The document of the rows is the document they stand for. -/
theorem Rowed.reconstruct (h : Rowed cast st m) (hm : Solid cast m) :
    Solid cast (reconstruct st) ∧ Alike (reconstruct st) m := by
  have hlookup := lookup_foldl_attrs (fun a => .array (insts st.rows a)) st.rows st.meta_doc
  have hinsts : ∀ k ∉ DOC_META, instances (RowStore.reconstruct st) k = insts st.rows k := by
    intro k hk
    unfold instances RowStore.reconstruct
    rw [hlookup]
    split_ifs with hrows
    · rfl
    · rw [h.meta_members, if_neg hk]
      have hnil : insts st.rows k = [] := by
        refine List.eq_nil_iff_forall_not_mem.mpr fun d hd => hrows ?_
        obtain ⟨r, hr, hra, -⟩ := mem_insts.mp hd
        exact ⟨r, hr, hra⟩
      rw [hnil]
      rfl
  refine ⟨⟨sorted_reconstruct h.sorted, fun k hk v hv => ?_⟩, fun k hk => ?_, fun k hk => ?_⟩
  · unfold RowStore.reconstruct at hv
    rw [hlookup] at hv
    split_ifs at hv with hrows
    · obtain rfl := Option.some.inj hv
      refine ⟨_, rfl, ?_, (hm.lawful hk).perm (h.insts_perm hm hk).symm⟩
      obtain ⟨r, hr, hra⟩ := hrows
      exact List.ne_nil_of_mem (mem_insts.mpr ⟨r, hr, hra, rfl⟩)
    · rw [h.meta_members, if_neg hk] at hv
      cases hv
  · unfold RowStore.reconstruct
    rw [hlookup, if_neg, h.meta_members, if_pos hk]
    rintro ⟨r, hr, rfl⟩
    exact (h.key_eq hr).1 hk
  · rw [hinsts k hk]
    exact h.insts_perm hm hk

theorem lookup_meta_of (m : Map) (k : String) : (meta_of m).lookup k = if k ∈ DOC_META then m.lookup k else none := by
  unfold meta_of
  rw [SortedMap.lookup_filter (fun k => DOC_META.contains k)]
  by_cases hk : k ∈ DOC_META
  · rw [if_pos (List.contains_iff_mem.mpr hk), if_pos hk]
  · rw [if_neg fun h => hk (List.contains_iff_mem.mp h), if_neg hk]

/-- A document is created with all its rows. -/
theorem insert_new (hm : Solid cast m) : ∃ rows, insert_rows cast [] (decompose m) = some rows ∧
    Rowed cast ⟨meta_of m, rows⟩ m := by
  obtain ⟨rows, hrows, hnodup, hview⟩ := insert_some hm (fun _ => true)
    (show (([] : List (Row Time)).map Row.key).Nodup from List.nodup_nil)
  rw [List.filter_true] at hrows hview
  refine ⟨rows, hrows, SortedMap.sorted_filter _ hm.sorted, lookup_meta_of m, hnodup, fun k d => ?_⟩
  rw [hview, sends_iff hm]
  exact ⟨fun h => h.elim id (fun h => by cases h.2), .inl⟩

/-- What has changed of a document is written back. -/
theorem write_back_some {n' : Map} (h : Rowed cast st n) (hn : Solid cast n) (hn' : Solid cast n') :
    ∃ st', write_back cast st n n' = some st' ∧ Rowed cast st' n' := by
  set gone := deletes (decompose n) (decompose n') with hgone
  have hunique : ((st.rows.filter (fun r => r.identity ∉ gone)).map Row.key).Nodup :=
    h.unique.sublist (List.filter_sublist.map _)
  obtain ⟨rows, hrows, hnodup, hview⟩ := insert_some hn' (fun r => collected (decompose n) r.identity ≠ some r) hunique
  refine ⟨⟨meta_of n', rows⟩, ?_, SortedMap.sorted_filter _ hn'.sorted, lookup_meta_of n', hnodup, fun k d => ?_⟩
  · have hrows : insert_rows cast (st.rows.filter (fun r => r.identity ∉ gone)) (upserts (decompose n) (decompose n')) =
        some rows := hrows
    rw [write_back, hrows]
    rfl
  have hin : ∀ t, t ∈ (decompose n').filter (fun r => collected (decompose n) r.identity ≠ some r) ↔
      t ∈ decompose n' ∧ t ∉ decompose n := by
    intro t
    rw [List.mem_filter, decide_eq_true_eq, Ne, collected_some hn]
    simp
  rw [hview, ← sends_iff hn', view_filter]
  constructor
  · rintro (⟨t, ht, hs, hd⟩ | ⟨hfresh, hkept⟩)
    · exact ⟨t, ((hin t).mp ht).1, hs, hd⟩
    · split_ifs at hkept with hk
      obtain ⟨t, ht, hs, hd⟩ := (sends_iff hn).mpr ((h.held k d).mp hkept)
      -- the row is still there, or else it would be deleted
      have hthere : ∃ u ∈ decompose n', u.identity = t.identity ∧ u.observed_at = t.observed_at := by
        by_contra hnone
        push Not at hnone
        refine hk ?_
        rw [hgone, deletes, List.mem_filter]
        refine ⟨List.mem_map.mpr ⟨t, ht, hs.1⟩, ?_⟩
        rw [(collected_some hn).mpr ⟨ht, hs.1⟩]
        cases hc : collected (decompose n') (k.1, k.2.1) with
        | none => rfl
        | some u =>
            obtain ⟨hu, huk⟩ := (collected_some hn').mp hc
            exact decide_eq_true (hnone u hu (huk.trans hs.1.symm))
      obtain ⟨u, hu, hid, hobs⟩ := hthere
      have hsu : Sends cast u k := ⟨hid.trans hs.1, by rw [hobs]; exact hs.2⟩
      by_cases hold : u ∈ decompose n
      · rw [decompose_inj hn hold ht hid] at hu
        exact ⟨t, hu, hs, hd⟩
      · exact absurd hsu (hfresh u ((hin u).mpr ⟨hu, hold⟩))
  · rintro ⟨t, ht, hs, hd⟩
    by_cases hold : t ∈ decompose n
    · refine .inr ⟨fun u hu hsu => ?_, ?_⟩
      · obtain ⟨hu, hnew⟩ := (hin u).mp hu
        rw [decompose_inj hn' hu ht (hsu.1.trans hs.1.symm)] at hnew
        exact hnew hold
      · rw [if_neg, h.held, ← sends_iff hn]
        · exact ⟨t, hold, hs, hd⟩
        · rw [hgone, deletes, List.mem_filter]
          rintro ⟨-, hdel⟩
          rw [(collected_some hn).mpr ⟨hold, hs.1⟩, (collected_some hn').mpr ⟨ht, hs.1⟩] at hdel
          simp at hdel
    · exact .inl ⟨t, (hin t).mpr ⟨ht, hold⟩, hs, hd⟩

end Delta

end AntaresBroker.RowStore
