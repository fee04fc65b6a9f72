import AntaresBroker.Attrs
import AntaresBroker.KeyedList

namespace AntaresBroker.Attrs

open Fallible Json JsonLd JsonLd.Instance Patch SortedMap Federation Merge KeyedList

section Expansion

variable {Instant : Type} [LinearOrder Instant] {x : Expander Instant} {texts : Texts} {opts : ExpandOpts}
variable {name : String} {depth : Nat}

def IsInstance (i : Value) : Prop := ∃ o, i = .object o ∧ Sorted o

/-- An instance as an expansion gives it: where no null is allowed, none deletes. -/
structure Expansion (opts : ExpandOpts) (i : Value) : Prop where
  object : IsInstance i
  live : opts.allow_null = false → is_deletion_instance i = false

theorem is_ngsi_null_of_list {v : Value} (h : is_ngsi_null_list v = true) : nullish v = true := by
  rw [is_ngsi_null_list, Bool.or_eq_true] at h
  rw [nullish, Bool.or_eq_true]
  refine h.imp_right fun h => ?_
  cases v with
  | array a =>
      simp only [Value.as_array, Option.any_some, Bool.and_eq_true] at h ⊢
      cases a with
      | nil => simp at h
      | cons v a => simpa using Or.inl h.2
  | null | bool _ | number _ | string _ | object _ => cases h

theorem sorted_valued (t v : Value) : Sorted [("type", t), ("value", v)] := by
  have hlt : "type" < "value" := by decide
  exact List.pairwise_pair.mpr hlt

theorem deletion_of_value (t v : Value) : is_deletion_instance (.object [("type", t), ("value", v)]) = is_ngsi_null v := by
  change (is_ngsi_null v || false || false || false || false || false || false) = is_ngsi_null v
  simp only [Bool.or_false]

theorem concise_expansion {attr_type : String} {v i : Value} (h : concise name attr_type v opts = .ok i) :
    Expansion opts i := by
  obtain ⟨_, hnulls, rfl⟩ := map_eq_ok.mp h
  refine ⟨⟨_, rfl, sorted_valued _ _⟩, fun hallow => ?_⟩
  obtain ⟨hnull, -⟩ := ite_ok.mp hnulls
  rw [hallow, Bool.not_false, Bool.true_and, Bool.not_eq_true, nullish, Bool.or_eq_false_iff] at hnull
  exact (deletion_of_value _ v).trans hnull.1

theorem expand_prim_expansion {v i : Value} (h : expand_prim name v opts = .ok i) : Expansion opts i := by
  rw [expand_prim] at h
  split_ifs at h with hnull hallow
  · cases h
    refine ⟨⟨_, rfl, sorted_valued _ _⟩, fun hallow' => ?_⟩
    rw [hallow] at hallow'
    cases hallow'
  · exact concise_expansion h

theorem typed_live {attr_type : String} {o out : Map} {subs : List (String × Except ExpandError (List Value))}
    (htype : ATTR_TYPES.contains attr_type = true) (h : Expanded x texts name attr_type o opts subs out)
    (hallow : opts.allow_null = false) : is_deletion_instance (.object out) = false := by
  obtain ⟨v, v', -, hv', hvalues⟩ := h.value
  obtain ⟨hnull, -⟩ := ite_ok.mp h.nulls
  rw [hallow, Bool.not_false, Bool.true_and, Bool.not_eq_true, Bool.or_eq_false_iff, List.any_eq_false] at hnull
  have hplain : ∀ k ∈ ["value", "object", "vocab", "valueList", "objectList"], (out.lookup k).any nullish = false :=
    fun k hk => Bool.not_eq_true _ ▸ hnull.1 k hk
  have hnone {k : String} (hk : k ∈ ["value", "object", "vocab"]) : (out.lookup k).any is_ngsi_null = false := by
    have hsub : k ∈ ["value", "object", "vocab", "valueList", "objectList"] := by
      simp only [List.mem_cons, List.not_mem_nil, or_false] at hk ⊢
      tauto
    have hfalse := hplain k hsub
    cases hout : out.lookup k with
    | none => rfl
    | some w =>
        rw [hout, Option.any_some, nullish, Bool.or_eq_false_iff] at hfalse
        exact hfalse.1
  have hlist {k : String} (hk : k ∈ ["valueList", "objectList"]) : (out.lookup k).any is_ngsi_null_list = false := by
    have hsub : k ∈ ["value", "object", "vocab", "valueList", "objectList"] := by
      simp only [List.mem_cons, List.not_mem_nil, or_false] at hk ⊢
      tauto
    have hfalse := hplain k hsub
    cases hout : out.lookup k with
    | none => rfl
    | some w =>
        rw [hout, Option.any_some] at hfalse
        rw [Option.any_some]
        by_contra hlist
        rw [Bool.not_eq_false] at hlist
        rw [is_ngsi_null_of_list hlist] at hfalse
        cases hfalse
  have hlang : (out.lookup "languageMap").any is_ngsi_null_langmap = false := by
    rw [hvalues "languageMap" (by decide)]
    split_ifs with hmember
    · have howner : ∀ t ∈ ATTR_TYPES, "languageMap" = value_member t → t = "LanguageProperty" := by decide
      obtain rfl := howner attr_type (List.contains_iff_mem.mp htype) hmember
      have hread : language_property name opts v = .ok v' := by simpa [typed_value] using hv'
      obtain ⟨hmap, hsame⟩ := ite_error.mp hread
      cases hsame
      rw [Option.any_some]
      by_contra hnull
      rw [Bool.not_eq_false] at hnull
      rw [if_pos hnull, hallow] at hmap
      cases hmap
    · rfl
  have hjson : (out.lookup "json").any is_ngsi_null = false := by
    rw [hvalues "json" (by decide)]
    split_ifs with hmember
    · have howner : ∀ t ∈ ATTR_TYPES, "json" = value_member t → t = "JsonProperty" := by decide
      obtain rfl := howner attr_type (List.contains_iff_mem.mp htype) hmember
      have hread : json_property name opts v = .ok v' := by simpa [typed_value] using hv'
      obtain ⟨hshape, hsame⟩ := ite_error.mp hread
      cases hsame
      rw [hallow, Bool.false_and, Bool.or_false] at hshape
      cases v with
      | string s => cases hshape
      | null | bool _ | number _ | array _ | object _ => rfl
    · rfl
  simp only [is_deletion_instance, Value.as_object, Option.any_some, hnone (k := "value") (by decide),
    hnone (k := "object") (by decide), hnone (k := "vocab") (by decide), hlist (k := "valueList") (by decide),
    hlist (k := "objectList") (by decide), hlang, hjson]
  rfl

theorem expand_object_expansion {o : Map} {subs : List (String × Except ExpandError (List Value))} {i : Value}
    (h : expand_object x texts name o opts subs = .ok i) : Expansion opts i := by
  cases hform : form_of o with
  | none =>
      rw [expand_object, hform] at h
      cases h
  | some form =>
      cases form with
      | Whole =>
          rw [expand_object, hform] at h
          exact concise_expansion h
      | Geo =>
          rw [expand_object, hform] at h
          obtain ⟨_, hnulls, h⟩ := bind_eq_ok.mp h
          obtain ⟨_, -, rfl⟩ := map_eq_ok.mp h
          exact concise_expansion (map_eq_ok.mpr ⟨_, hnulls, rfl⟩)
      | Typed attr_type =>
          obtain ⟨out, rfl, hout⟩ := expand_object_typed hform h
          exact ⟨⟨out, rfl, expand_object_sorted h hform⟩, typed_live (attr_type_of_form hform) hout⟩

theorem expand_instance_expansion {v i : Value} (h : expand_instance x texts opts depth name v = .ok i) :
    Expansion opts i := by
  cases v with
  | object o => exact expand_object_expansion h
  | null | bool _ | number _ | string _ | array _ => exact expand_prim_expansion h

theorem expand_items_expansion {items res : List Value} (h : expand_items x texts opts depth name items = .ok res) :
    res.length = items.length ∧ ∀ i ∈ res, Expansion opts i := by
  induction items generalizing res with
  | nil =>
      cases h
      exact ⟨rfl, List.forall_mem_nil _⟩
  | cons v items ih =>
      obtain ⟨i, hi, h⟩ := bind_eq_ok.mp h
      obtain ⟨rest, hrest, rfl⟩ := map_eq_ok.mp h
      obtain ⟨hlen, hall⟩ := ih hrest
      exact ⟨by simp [hlen], List.forall_mem_cons.mpr ⟨expand_instance_expansion hi, hall⟩⟩

/-- An attribute expands to one instance at least. -/
theorem expand_attribute_expansion {v : Value} {res : List Value}
    (h : expand_attribute x texts opts depth name v = .ok res) : res ≠ [] ∧ ∀ i ∈ res, Expansion opts i := by
  have hone {e : Except ExpandError Value} (hprim : ∀ i, e = .ok i → Expansion opts i) (h : e.map ([·]) = .ok res) :
      res ≠ [] ∧ ∀ i ∈ res, Expansion opts i := by
    obtain ⟨i, hi, rfl⟩ := map_eq_ok.mp h
    exact ⟨List.cons_ne_nil _ _, List.forall_mem_singleton.mpr (hprim i hi)⟩
  cases v with
  | array items =>
      obtain ⟨_, -, h⟩ := bind_eq_ok.mp h
      by_cases hlook : (items.all looks_like_instance && !items.isEmpty) = true
      · rw [if_pos hlook] at h
        obtain ⟨hlen, hall⟩ := expand_items_expansion h
        refine ⟨?_, hall⟩
        rintro rfl
        rw [List.eq_nil_of_length_eq_zero hlen.symm] at hlook
        cases hlook
      · rw [if_neg hlook] at h
        exact hone (fun _ => expand_prim_expansion) h
  | object o =>
      obtain ⟨_, -, h⟩ := bind_eq_ok.mp h
      exact hone (fun _ => expand_object_expansion) h
  | null | bool _ | number _ | string _ =>
      obtain ⟨_, -, h⟩ := bind_eq_ok.mp h
      exact hone (fun _ => expand_prim_expansion) h

end Expansion

section Fragment

variable {Instant : Type} [LinearOrder Instant] {x : Expander Instant} {texts : Texts} {opts : ExpandOpts}

def ENTITY_MEMBERS : List String := ["id", "type", "scope", "expiresAt"]

theorem entity_members_fragment {doc out : Map} (hsys : opts.sys = false) (h : x.entity_members doc opts = .ok out) :
    Sorted out ∧ ∀ k v, out.lookup k = some v → k ∈ ENTITY_MEMBERS := by
  obtain ⟨id, -, h⟩ := bind_eq_ok.mp h
  obtain ⟨types, -, h⟩ := bind_eq_ok.mp h
  obtain ⟨scope, -, h⟩ := bind_eq_ok.mp h
  obtain ⟨expires, -, h⟩ := map_eq_ok.mp h
  have hnone (k : String) : x.sys_member doc opts k = none := by
    rw [Expander.sys_member, if_neg (by rw [hsys]; exact Bool.false_ne_true)]
  simp only [List.foldl_cons, List.foldl_nil, hnone, Expander.put.eq_2] at h
  subst h
  refine ⟨sorted_put (sorted_put (sorted_put (sorted_put sorted_nil))), fun k v hk => ?_⟩
  by_contra hout
  simp only [ENTITY_MEMBERS, List.mem_cons, List.not_mem_nil, or_false, not_or] at hout
  simp only [Expander.lookup_put, if_neg hout.1, if_neg hout.2.1, if_neg hout.2.2.1, if_neg hout.2.2.2] at hk
  cases hk

theorem foldlM_add_attr_sorted {doc out res : Map} (hout : Sorted out) (h : doc.foldlM (x.add_attr opts) out = .ok res) :
    Sorted res := by
  induction doc generalizing out with
  | nil =>
      cases h
      exact hout
  | cons p doc ih =>
      rw [List.foldlM_cons] at h
      obtain ⟨next, hnext, h⟩ := bind_eq_ok.mp h
      refine ih ?_ h
      rcases Expander.add_attr_ok hnext with ⟨-, rfl⟩ | ⟨-, e, -, -, rfl⟩
      · exact hout
      · exact sorted_insert _ _ hout

/-- The instances of an attribute: one of a dataset. -/
structure Instances (items : List Value) : Prop where
  ne_nil : items ≠ []
  object : ∀ i ∈ items, IsInstance i
  nodup : (items.map dataset_id).Nodup

/-- A fragment as an expansion gives it. -/
structure Fragment (opts : ExpandOpts) (frag : Map) : Prop where
  sorted : Sorted frag
  expires : ∀ v, frag.lookup "expiresAt" = some v → v.is_string = true
  attrs : ∀ k v, k ∉ ENTITY_MEMBERS → frag.lookup k = some v → k ∉ META ∧ ∃ items, v = .array items ∧ Instances items ∧
    ∀ i ∈ items, Expansion opts i

theorem first_repeated_none {seen ids : List String} (h : Expander.first_repeated seen ids = none) :
    ids.Nodup ∧ ∀ d ∈ ids, d ∉ seen := by
  induction ids generalizing seen with
  | nil => exact ⟨List.nodup_nil, List.forall_mem_nil _⟩
  | cons d ids ih =>
      rw [Expander.first_repeated] at h
      split_ifs at h with hseen
      obtain ⟨hnodup, hout⟩ := ih h
      refine ⟨List.nodup_cons.mpr ⟨fun hd => hout d hd List.mem_cons_self, hnodup⟩, fun e he => ?_⟩
      rcases List.mem_cons.mp he with rfl | he
      · intro hmem
        exact hseen (List.contains_iff_mem.mpr hmem)
      · exact fun hmem => hout e he (List.mem_cons_of_mem _ hmem)

theorem nodup_of_filterMap {ids : List (Option String)} (hsome : (ids.filterMap id).Nodup) (hnone : ids.count none ≤ 1) :
    ids.Nodup := by
  rw [List.nodup_iff_count_le_one] at hsome ⊢
  intro d
  cases d with
  | none => exact hnone
  | some d =>
      have hcount : ids.count (some d) = (ids.filterMap id).count d := by
        rw [List.count_filterMap]
        apply List.countP_congr
        intro e _
        simp
      exact hcount ▸ hsome d

theorem validate_dataset_ids_ok {key : String} {items : List Value} (h : Expander.validate_dataset_ids key items = .ok ()) :
    (items.map dataset_id).Nodup := by
  unfold Expander.validate_dataset_ids at h
  dsimp only at h
  split at h
  · cases h
  · rename_i hrep
    obtain ⟨hcount, -⟩ := ite_ok.mp h
    exact nodup_of_filterMap (first_repeated_none hrep).1 (Nat.not_lt.mp hcount)

theorem absolute_not_meta {k : String} (h : is_absolute_iri k = true) : k ∉ META ∧ k ∉ ENTITY_MEMBERS := by
  have hlevel : ∀ k ∈ META ++ ENTITY_MEMBERS, is_absolute_iri k = false := by decide
  constructor
  · intro hk
    rw [hlevel k (List.mem_append_left _ hk)] at h
    cases h
  · intro hk
    rw [hlevel k (List.mem_append_right _ hk)] at h
    cases h

theorem expires_member_string {doc : Map} {v : Value} (h : x.expires_member doc opts = .ok (some v)) : v.is_string = true := by
  unfold Expander.expires_member at h
  split at h
  · cases h
  · split at h
    · obtain ⟨-, h⟩ := ite_error.mp h
      cases h
      rfl
    · cases h

theorem expand_entity_fragment {doc frag : Map} (htemporal : opts.temporal = false) (hsys : opts.sys = false)
    (h : (expander x texts).expand_entity doc opts = .ok frag) : Fragment opts frag := by
  obtain ⟨⟨-, -, -, hexpires⟩, -, hfrom⟩ := Expander.expand_entity_ok h
  obtain ⟨-, -, h⟩ := bind_eq_ok.mp h
  obtain ⟨out, hout, h⟩ := bind_eq_ok.mp h
  obtain ⟨hsorted, hmembers⟩ := entity_members_fragment hsys hout
  refine ⟨foldlM_add_attr_sorted hsorted h, fun v hv => expires_member_string (hv ▸ hexpires), fun k v hk hv => ?_⟩
  have hentry : ∃ p ∈ doc, (expander x texts).attr_entry opts p = .ok (k, v) := by
    rcases (Expander.foldlM_add_attr h).2.2 k v hv with hmem | ⟨p, hp, -, he⟩
    · exact absurd (hmembers k v hmem) hk
    · exact ⟨p, hp, he⟩
  obtain ⟨p, -, he⟩ := hentry
  obtain ⟨-, habs⟩ := Expander.attr_entry_key he
  obtain ⟨iri, -, he⟩ := bind_eq_ok.mp (ite_ok.mp he).2
  obtain ⟨items, hitems, he⟩ := bind_eq_ok.mp (ite_ok.mp he).2
  obtain ⟨_, hvalid, heq⟩ := map_eq_ok.mp (ite_ok.mp he).2
  cases heq
  rw [htemporal, if_neg Bool.false_ne_true] at hvalid
  obtain ⟨hne, hall⟩ := expand_attribute_expansion hitems
  exact ⟨(absolute_not_meta habs).1, items, rfl, ⟨hne, fun i hi => (hall i hi).object, validate_dataset_ids_ok hvalid⟩, hall⟩

theorem Fragment.strip {frag : Map} (h : Fragment opts frag) (regs : List FedReg) :
    Fragment opts (strip_covered_expanded frag regs) := by
  have hlookup {k : String} {v : Value} (hk : (strip_covered_expanded frag regs).lookup k = some v) : frag.lookup k = some v := by
    have hmem := List.mem_of_mem_filter (mem_of_lookup hk)
    exact lookup_of_mem h.sorted hmem
  exact ⟨sorted_filter _ h.sorted, fun v hv => h.expires v (hlookup hv), fun k v hk hv => h.attrs k v hk (hlookup hv)⟩

end Fragment

section Instances

/-- The instances in the order of their datasets, `none` where there are none. -/
def arr (items : List Value) : Option Value := if items = [] then none else some (.array items)

def settle (no_overwrite : Bool) (ni : Value) (ci : Option Value) : Option Value :=
  if is_deletion_instance ni then none
  else match ci with
    | none => some ni
    | some ci => if no_overwrite then some ci else some (overwrite ci ni)

/-- Something is applied. -/
def applies (no_overwrite : Bool) (ni : Value) (ci : Option Value) : Bool :=
  if is_deletion_instance ni then ci.isSome else !(no_overwrite && ci.isSome)

theorem get_overwrite {ci ni : Value} {k : String} (hk : k ≠ "createdAt") : (overwrite ci ni).get k = ni.get k := by
  rw [overwrite.eq_def]
  split
  · rw [Value.get, lookup_insert, if_neg hk]
    rfl
  · rfl

theorem dataset_id_overwrite (ci ni : Value) : dataset_id (overwrite ci ni) = dataset_id ni := by
  rw [dataset_id, dataset_id, get_overwrite (by decide)]

theorem settle_keyed (no_overwrite : Bool) (ni : Value) : Keyed dataset_id (dataset_id ni) (settle no_overwrite ni) := by
  intro o r ho hr
  rw [settle.eq_def] at hr
  cases hdel : is_deletion_instance ni with
  | true =>
      rw [hdel] at hr
      cases hr
  | false =>
      rw [hdel, if_neg Bool.false_ne_true] at hr
      cases o with
      | none =>
          cases hr
          rfl
      | some ci =>
          cases no_overwrite with
          | true =>
              cases hr
              exact ho _ rfl
          | false =>
              cases hr
              exact dataset_id_overwrite ci ni

theorem any_same_dataset (ni : Value) (cur : List Value) :
    cur.any (same_dataset ni) = (at_key dataset_id (dataset_id ni) cur).isSome := by
  rw [at_key, Bool.eq_iff_iff, List.any_eq_true, List.find?_isSome]
  rfl

theorem eraseP_eq (ds : Option String) (cur : List Value) :
    cur.eraseP (fun ci => dataset_id ci = ds) = alter dataset_id ds (fun _ => none) cur := by
  induction cur with
  | nil => rfl
  | cons ci cur ih =>
      rw [List.eraseP_cons, alter, ih]
      by_cases h : dataset_id ci = ds
      · rw [if_pos h, decide_eq_true h]
        rfl
      · rw [if_neg h, decide_eq_false h]
        rfl

theorem replace_instance_eq {ni : Value} {cur : List Value} (h : cur.any (same_dataset ni) = true)
    (hlive : is_deletion_instance ni = false) :
    replace_instance ni cur = alter dataset_id (dataset_id ni) (settle false ni) cur := by
  induction cur with
  | nil => cases h
  | cons ci cur ih =>
      rw [replace_instance, alter]
      by_cases hsame : dataset_id ci = dataset_id ni
      · rw [if_pos hsame, same_dataset, decide_eq_true hsame, if_pos rfl, settle.eq_def, hlive]
        rfl
      · rw [List.any_cons, same_dataset, decide_eq_false hsame, Bool.false_or] at h
        rw [if_neg hsame, same_dataset, decide_eq_false hsame, ih h]
        rfl

/-- One incoming instance edits the instance of its dataset. -/
theorem set_instance_eq (no_overwrite : Bool) (r : List Value × Bool) (ni : Value) :
    set_instance no_overwrite r ni = (alter dataset_id (dataset_id ni) (settle no_overwrite ni) r.1,
      r.2 || applies no_overwrite ni (at_key dataset_id (dataset_id ni) r.1)) := by
  obtain ⟨cur, b⟩ := r
  rw [set_instance, applies, any_same_dataset]
  cases hdel : is_deletion_instance ni with
  | true =>
      have hsettle : settle no_overwrite ni = fun _ => none := funext fun _ => by rw [settle.eq_def, hdel]; rfl
      have herase : cur.eraseP (same_dataset ni) = alter dataset_id (dataset_id ni) (fun _ => none) cur := eraseP_eq _ _
      rw [if_pos rfl, hsettle, herase, if_pos rfl]
      cases hci : at_key dataset_id (dataset_id ni) cur with
      | none =>
          rw [alter_eq_self hci.symm]
          simp
      | some ci => simp
  | false =>
      rw [if_neg Bool.false_ne_true, if_neg Bool.false_ne_true]
      cases hci : at_key dataset_id (dataset_id ni) cur with
      | none =>
          rw [alter_fresh (at_key_none.mp hci), settle, hdel]
          simp
      | some ci =>
          cases no_overwrite with
          | true =>
              rw [alter_eq_self (by rw [hci, settle.eq_def, hdel]; rfl)]
              simp
          | false =>
              have hany : cur.any (same_dataset ni) = true := by rw [any_same_dataset, hci]; rfl
              rw [replace_instance_eq hany hdel]
              simp

section Stamped

variable (ts : String)

theorem stamp_items_eq (items : List Value) : stamp_items ts items = items.map (stamp_instance ts) := by
  induction items with
  | nil => rfl
  | cons i items ih => rw [stamp_items, ih, List.map_cons]

theorem stamp_subs_eq (o : Map) :
    stamp_subs ts o = o.map (fun p => (p.1, if RESERVED_MEMBERS.contains p.1 then p.2 else stamp_instances ts p.2)) := by
  induction o with
  | nil => rfl
  | cons p o ih =>
      obtain ⟨k, sub⟩ := p
      rw [stamp_subs, ih, stamp_sub, List.map_cons]

theorem lookup_stamped_reserved (o : Map) {k : String} (hk : RESERVED_MEMBERS.contains k = true) (hc : k ≠ "createdAt")
    (hm : k ≠ "modifiedAt") : (stamp ts (stamp_subs ts o)).lookup k = o.lookup k := by
  rw [stamp, lookup_insert, if_neg hm, lookup_insert, if_neg hc, stamp_subs_eq,
    lookup_map_value (fun k v => if RESERVED_MEMBERS.contains k then v else stamp_instances ts v)]
  have hid : (fun v => if RESERVED_MEMBERS.contains k then v else stamp_instances ts v) = id := by
    funext v
    rw [hk]
    rfl
  rw [hid, Option.map_id, id]

theorem dataset_id_stamped (i : Value) : dataset_id (stamp_instance ts i) = dataset_id i := by
  cases i with
  | object o =>
      have hlookup : (stamp ts (stamp_subs ts o)).lookup "datasetId" = o.lookup "datasetId" :=
        lookup_stamped_reserved ts o (by decide) (by decide) (by decide)
      rw [stamp_instance, dataset_id, dataset_id, Value.get, Value.get, hlookup]
  | null | bool _ | number _ | string _ | array _ => rfl

theorem live_stamped (i : Value) : is_deletion_instance (stamp_instance ts i) = is_deletion_instance i := by
  cases i with
  | object o =>
      have hkeep : ∀ k ∈ VALUE_KEYS, (stamp ts (stamp_subs ts o)).lookup k = o.lookup k := by
        intro k hk
        have hvalue : ∀ k ∈ VALUE_KEYS, RESERVED_MEMBERS.contains k = true ∧ k ≠ "createdAt" ∧ k ≠ "modifiedAt" := by
          decide
        obtain ⟨hres, hc, hm⟩ := hvalue k hk
        exact lookup_stamped_reserved ts o hres hc hm
      simp only [stamp_instance, is_deletion_instance, Value.as_object, Option.any_some, hkeep "value" (by decide),
        hkeep "object" (by decide), hkeep "languageMap" (by decide), hkeep "json" (by decide), hkeep "vocab" (by decide),
        hkeep "valueList" (by decide), hkeep "objectList" (by decide)]
      rfl
  | null | bool _ | number _ | string _ | array _ => rfl

theorem isInstance_stamped {i : Value} (h : IsInstance i) : IsInstance (stamp_instance ts i) := by
  obtain ⟨o, rfl, ho⟩ := h
  refine ⟨_, rfl, sorted_insert _ _ (sorted_insert _ _ ?_)⟩
  rw [stamp_subs_eq]
  exact List.pairwise_map.mpr ho

theorem isInstance_overwrite (ci : Value) {ni : Value} (h : IsInstance ni) : IsInstance (overwrite ci ni) := by
  rw [overwrite.eq_def]
  split
  · obtain ⟨o, heq, ho⟩ := h
    cases heq
    exact ⟨_, rfl, sorted_insert _ _ ho⟩
  · exact h

end Stamped

/-- The incoming instances edit the existing ones, each that of its dataset. -/
def written (no_overwrite : Bool) (ts : String) (inc cur : List Value) : List Value :=
  alter_all dataset_id dataset_id (settle no_overwrite) (stamp_items ts inc) cur

variable {no_overwrite : Bool} {ts : String} {inc cur : List Value}

theorem keys_stamped (ts : String) (inc : List Value) : (stamp_items ts inc).map dataset_id = inc.map dataset_id := by
  rw [stamp_items_eq, List.map_map]
  apply List.map_congr_left
  exact fun i _ => dataset_id_stamped ts i

theorem nodup_written (hcur : (cur.map dataset_id).Nodup) : ((written no_overwrite ts inc cur).map dataset_id).Nodup :=
  nodup_alter_all (settle_keyed no_overwrite) hcur

theorem isInstance_written (hinc : ∀ i ∈ inc, IsInstance i) (hcur : ∀ i ∈ cur, IsInstance i) :
    ∀ i ∈ written no_overwrite ts inc cur, IsInstance i := by
  refine alter_all_elements ?_ hcur
  rw [stamp_items_eq]
  intro ni hni o r ho hr
  obtain ⟨i, hi, rfl⟩ := List.mem_map.mp hni
  have hstamped := isInstance_stamped ts (hinc i hi)
  rw [settle.eq_def] at hr
  cases hdel : is_deletion_instance (stamp_instance ts i) with
  | true =>
      rw [hdel] at hr
      cases hr
  | false =>
      rw [hdel, if_neg Bool.false_ne_true] at hr
      cases o with
      | none =>
          cases hr
          exact hstamped
      | some ci =>
          cases no_overwrite with
          | true =>
              cases hr
              exact ho _ rfl
          | false =>
              cases hr
              exact isInstance_overwrite ci hstamped

/-- What the instance of a dataset has become. -/
theorem at_key_written (hinc : (inc.map dataset_id).Nodup) (hcur : (cur.map dataset_id).Nodup) (ds : Option String) :
    at_key dataset_id ds (written no_overwrite ts inc cur) = (at_key dataset_id ds (stamp_items ts inc)).elim
      (at_key dataset_id ds cur) (fun ni => settle no_overwrite ni (at_key dataset_id ds cur)) := by
  rw [written, at_key_alter_all (settle_keyed no_overwrite) ((keys_stamped ts inc).symm ▸ hinc) hcur]

theorem at_key_stamped_none {ds : Option String} (h : ds ∉ inc.map dataset_id) :
    at_key dataset_id ds (stamp_items ts inc) = none :=
  at_key_none.mpr ((keys_stamped ts inc).symm ▸ h)

theorem foldl_set_instance (inc cur : List Value) (b : Bool) :
    (inc.foldl (set_instance no_overwrite) (cur, b)).1 = alter_all dataset_id dataset_id (settle no_overwrite) inc cur := by
  induction inc generalizing cur b with
  | nil => rfl
  | cons ni inc ih =>
      rw [List.foldl_cons, set_instance_eq, ih]
      rfl

theorem merged_items (no_overwrite : Bool) (ts : String) (inc cur : List Value) :
    (merge_instance_sets (.array cur) (stamp_instances ts (.array inc)) no_overwrite).1 =
      .array (written no_overwrite ts inc cur) := by
  rw [stamp_instances, merge_instance_sets, written, foldl_set_instance]

/-- Where every incoming instance stays, something is applied. -/
theorem merged_told (hne : inc ≠ []) (hlive : ∀ i ∈ inc, is_deletion_instance i = false) :
    (merge_instance_sets (.array cur) (stamp_instances ts (.array inc)) false).2 = true := by
  have htrue (inc : List Value) (cur : List Value) : (inc.foldl (set_instance false) (cur, true)).2 = true := by
    induction inc generalizing cur with
    | nil => rfl
    | cons ni inc ih =>
        rw [List.foldl_cons, set_instance_eq, Bool.true_or]
        exact ih _
  cases inc with
  | nil => exact absurd rfl hne
  | cons i inc =>
      rw [stamp_instances, merge_instance_sets, stamp_items, List.foldl_cons, set_instance_eq, applies, live_stamped,
        hlive i List.mem_cons_self]
      exact htrue _ _

/-- Instances whose datasets are all there leave the others alone when none is to be overwritten. -/
theorem merged_kept (hlive : ∀ i ∈ inc, is_deletion_instance i = false)
    (hmatch : ∀ i ∈ inc, (at_key dataset_id (dataset_id i) cur).isSome = true) :
    merge_instance_sets (.array cur) (stamp_instances ts (.array inc)) true = (.array cur, false) := by
  have hfold : (stamp_items ts inc).foldl (set_instance true) (cur, false) = (cur, false) := by
    induction inc with
    | nil => rfl
    | cons i inc ih =>
        rw [List.forall_mem_cons] at hlive hmatch
        obtain ⟨ci, hci⟩ := Option.isSome_iff_exists.mp hmatch.1
        rw [stamp_items, List.foldl_cons, set_instance_eq, applies, live_stamped, hlive.1, dataset_id_stamped, hci,
          alter_eq_self (by rw [hci, settle.eq_def, live_stamped, hlive.1]; rfl)]
        exact ih hlive.2 hmatch.2
  rw [stamp_instances, merge_instance_sets, hfold]

end Instances

section Edits

/-- What a request writes here. -/
inductive Edit
  | Update (frag : Map)
  | Append (no_overwrite : Bool) (frag : Map)
  | PartialUpdate (iri : String) (frag : Map)
  | Replace (iri : String) (ni : Value)
  | Delete (iri : String) (dataset : Option String) (delete_all : Bool)

def Edit.run (ts : String) (doc : Map) : Edit → Except AttrsError Map
  | .Update frag => .ok (update_fragment ts frag doc).target
  | .Append no_overwrite frag => .ok (append_fragment no_overwrite ts frag doc).target
  | .PartialUpdate iri frag => partial_update ts iri frag doc
  | .Replace iri ni => replace_attr ts iri ni doc
  | .Delete iri dataset delete_all => delete_attr ts iri dataset delete_all doc

/-- The instance of a dataset that an attribute has. -/
def item (doc : Map) (k : String) (ds : Option String) : Option Value := at_key dataset_id ds (items_of doc k)

/-- Every attribute is a non-empty array of instances of different datasets; an expiry is a text. -/
structure Formed (doc : Map) : Prop where
  sorted : Sorted doc
  expires : ∀ v, doc.lookup "expiresAt" = some v → v.is_string = true
  attrs : ∀ k v, k ∉ META → doc.lookup k = some v → ∃ items, v = .array items ∧ Instances items

/-- An edit addresses an instance by its attribute and dataset. -/
def Edit.addresses (k : String) (ds : Option String) : Edit → Prop
  | .Update frag => ds ∈ (items_of frag k).map dataset_id
  | .Append _ frag => ds ∈ (items_of frag k).map dataset_id
  | .PartialUpdate iri frag => k = iri ∧ ds = dataset_id (.object frag)
  | .Replace iri ni => k = iri ∧ ds = dataset_id ni
  | .Delete iri dataset delete_all => k = iri ∧ (delete_all = true ∨ ds = dataset)

/-- The edit leaves what exists. -/
def Edit.keeps : Edit → Prop
  | .Append no_overwrite _ => no_overwrite = true
  | _ => False

/-- The attributes, types and scopes of two entities are the same. -/
structure Unchanged (doc doc' : Map) : Prop where
  attrs : ∀ k, k ∉ META → doc'.lookup k = doc.lookup k
  types : doc'.lookup "type" = doc.lookup "type"
  scope : doc'.lookup "scope" = doc.lookup "scope"

/-- What an edit leaves of the attributes of an entity. -/
structure Sound (e : Edit) (doc doc' : Map) : Prop where
  formed : Formed doc'
  frame : ∀ k, k ∉ META → ∀ ds, ¬ e.addresses k ds → item doc' k ds = item doc k ds
  created : ∀ k, k ∉ META → ∀ ds ci ci', item doc k ds = some ci → item doc' k ds = some ci' →
    ∀ c, ci.get "createdAt" = some c → ci'.get "createdAt" = some c
  kept : e.keeps → ∀ k, k ∉ META → ∀ ds ci, item doc k ds = some ci → item doc' k ds = some ci

/-- What an edit is to leave of an entity: one in which it changes nothing as it was. -/
structure Lawful (e : Edit) (doc doc' : Map) : Prop extends Sound e doc doc' where
  still : Unchanged doc doc' → doc' = doc

/-- An instance that carries already what is to be put in its place. -/
def Same (ci ni : Value) : Prop := (ci.get "createdAt").isSome = true ∧ ∀ k, k ≠ "createdAt" → ci.get k = ni.get k

/-- An incoming instance that changes nothing: it deletes what is not there, or is there. -/
def Settled (no_overwrite : Bool) (ts : String) (cur : List Value) (ni : Value) : Prop :=
  if is_deletion_instance ni then at_key dataset_id (dataset_id ni) cur = none
  else ∃ ci, at_key dataset_id (dataset_id ni) cur = some ci ∧ (no_overwrite = true ∨ Same ci (stamp_instance ts ni))

def TypesKnown (frag doc : Map) : Prop := ∀ t ∈ items_of frag "type", t ∈ items_of doc "type"

def AttrsSettled (no_overwrite : Bool) (ts : String) (frag doc : Map) : Prop :=
  ∀ k, k ∉ META → ∀ ni ∈ items_of frag k, Settled no_overwrite ts (items_of doc k) ni

/-- The document was not stamped with this instant before. -/
def Unstamped (ts : String) (doc : Map) : Prop := doc.lookup "modifiedAt" ≠ some (.string ts)

/-- An edit that changes no attribute, type or scope, and does not leave the document alone. -/
def Edit.Needless (ts : String) (doc : Map) : Edit → Prop
  | .Update frag =>
      TypesKnown frag doc ∧
        (∀ s s', frag.lookup "scope" = some s → doc.lookup "scope" = some s' → s' = s) ∧
        AttrsSettled false ts frag doc ∧ Unstamped ts doc ∧
        ((∃ k, is_fragment_meta k = false ∧ (frag.lookup k).isSome = true) ∨
          (frag.lookup "scope").isSome = true ∧ (doc.lookup "scope").isSome = true)
  | .Append no_overwrite frag =>
      TypesKnown frag doc ∧
        (∀ s, frag.lookup "scope" = some s → if no_overwrite = true ∧ (doc.lookup "scope").isSome = true then
          ∀ v ∈ s.as_array.getD [], v ∈ items_of doc "scope" else doc.lookup "scope" = some s) ∧
        AttrsSettled no_overwrite ts frag doc ∧
        ((frag.lookup "expiresAt").isSome = true ∧ doc.lookup "expiresAt" = none ∨
          no_overwrite = false ∧ Unstamped ts doc ∧
            ((frag.lookup "scope").isSome = true ∨ ∃ k, k ∉ META ∧ (frag.lookup k).isSome = true))
  | .PartialUpdate iri frag =>
      is_deletion_instance (.object frag) = false ∧ Unstamped ts doc ∧
        ∃ t, item doc iri (dataset_id (.object frag)) = some (.object t) ∧
          (∀ ft et, type_of (.object frag) = some ft → type_of (.object t) = some et → ft = et) ∧
          t.lookup "modifiedAt" = some (.string ts) ∧
          ∀ k v, k ≠ "createdAt" → k ≠ "modifiedAt" → frag.lookup k = some v →
            t.lookup k = if is_null v then none else some v
  | .Replace iri ni =>
      Unstamped ts doc ∧ ∃ ci, item doc iri (dataset_id ni) = some ci ∧ ci.get "modifiedAt" = some (.string ts) ∧
        (ci.get "createdAt").isSome = true ∧ ∀ k, k ≠ "createdAt" → k ≠ "modifiedAt" → ci.get k = ni.get k
  | .Delete _ _ _ => False

end Edits

section Merged

variable {no_overwrite : Bool} {ts : String} {inc cur : List Value} {frag doc doc' : Map} {k : String}

theorem lookup_of_formed (h : Formed doc) (hk : k ∉ META) : doc.lookup k = arr (items_of doc k) := by
  cases hv : doc.lookup k with
  | none =>
      rw [items_of, hv]
      rfl
  | some v =>
      obtain ⟨items, rfl, hitems⟩ := h.attrs k v hk hv
      rw [items_of, hv]
      exact (if_neg hitems.ne_nil).symm

theorem instances_of_formed (h : Formed doc) (hk : k ∉ META) :
    (∀ i ∈ items_of doc k, IsInstance i) ∧ ((items_of doc k).map dataset_id).Nodup := by
  cases hv : doc.lookup k with
  | none =>
      rw [items_of, hv]
      exact ⟨List.forall_mem_nil _, List.nodup_nil⟩
  | some v =>
      obtain ⟨items, rfl, hitems⟩ := h.attrs k v hk hv
      rw [items_of, hv]
      exact ⟨hitems.object, hitems.nodup⟩

theorem items_of_arr {items : List Value} (h : doc.lookup k = arr items) : items_of doc k = items := by
  rw [items_of, h, arr]
  split_ifs with hnil
  · exact hnil.symm
  · rfl

theorem arr_inj {xs ys : List Value} (h : arr xs = arr ys) : xs = ys := by
  have hx : items_of [("", .array xs)] "" = xs := rfl
  rw [arr, arr] at h
  split_ifs at h with hxs hys hys
  · exact hxs.trans hys.symm
  · cases h
    rfl

theorem Same.overwrite {ci ni : Value} (h : Same ci ni) (hci : IsInstance ci) (hni : IsInstance ni) :
    overwrite ci ni = ci := by
  obtain ⟨c, rfl, hc⟩ := hci
  obtain ⟨n, rfl, hn⟩ := hni
  obtain ⟨t, ht⟩ := Option.isSome_iff_exists.mp h.1
  have hover : Patch.overwrite (.object c) (.object n) = .object (insert "createdAt" t n) := by
    rw [Patch.overwrite.eq_def, ht]
  rw [hover, Value.object.injEq]
  refine SortedMap.ext (sorted_insert _ _ hn) hc fun k => ?_
  rw [lookup_insert]
  split_ifs with hk
  · rw [hk]
    exact ht.symm
  · exact (h.2 k hk).symm

theorem same_of_overwrite {ci ni : Value} (hcreated : (ni.get "createdAt").isSome = true) (h : overwrite ci ni = ci) :
    Same ci ni := by
  constructor
  · by_contra hnone
    rw [Option.not_isSome_iff_eq_none] at hnone
    have hni : overwrite ci ni = ni := by
      rw [overwrite.eq_def, hnone]
      split
      · rename_i hc
        cases hc
      · rfl
    rw [hni] at h
    rw [h, hnone] at hcreated
    cases hcreated
  · intro k hk
    have hget : (overwrite ci ni).get k = ni.get k := get_overwrite hk
    rw [← hget, h]

theorem created_stamped {i : Value} (h : IsInstance i) : ((stamp_instance ts i).get "createdAt").isSome = true := by
  obtain ⟨o, rfl, -⟩ := h
  rw [stamp_instance, Value.get, stamp, lookup_insert, if_neg (by decide), lookup_insert, if_pos rfl]
  rfl

/-- The instances stay as they are exactly where every incoming one changes nothing. -/
theorem written_eq_self (hinc : ∀ i ∈ inc, IsInstance i) (hnodup : (inc.map dataset_id).Nodup)
    (hcur : ∀ i ∈ cur, IsInstance i) (hcurs : (cur.map dataset_id).Nodup) :
    written no_overwrite ts inc cur = cur ↔ ∀ ni ∈ inc, Settled no_overwrite ts cur ni := by
  constructor
  · intro h ni hni
    have hkeys : ((stamp_items ts inc).map dataset_id).Nodup := (keys_stamped ts inc).symm ▸ hnodup
    have hmem : stamp_instance ts ni ∈ stamp_items ts inc := by
      rw [stamp_items_eq]
      exact List.mem_map_of_mem hni
    have hat := @at_key_written no_overwrite ts inc cur hnodup hcurs (dataset_id (stamp_instance ts ni))
    rw [h, at_key_mem hkeys hmem, Option.elim_some, dataset_id_stamped] at hat
    rw [settle.eq_def, live_stamped] at hat
    rw [Settled]
    cases hdel : is_deletion_instance ni with
    | true =>
        rw [hdel] at hat
        exact hat
    | false =>
        rw [hdel, if_neg Bool.false_ne_true] at hat
        cases hci : at_key dataset_id (dataset_id ni) cur with
        | none =>
            rw [hci] at hat
            cases hat
        | some ci =>
            refine ⟨ci, rfl, ?_⟩
            rw [hci] at hat
            cases no_overwrite with
            | true => exact .inl rfl
            | false =>
                dsimp only at hat
                rw [if_neg Bool.false_ne_true, Option.some.injEq] at hat
                exact .inr (same_of_overwrite (created_stamped (hinc ni hni)) hat.symm)
  · intro h
    apply alter_all_eq_self
    rw [stamp_items_eq]
    intro b hb
    obtain ⟨ni, hni, rfl⟩ := List.mem_map.mp hb
    have hsettled := h ni hni
    rw [dataset_id_stamped, settle.eq_def, live_stamped]
    rw [Settled] at hsettled
    cases hdel : is_deletion_instance ni with
    | true =>
        rw [hdel, if_pos rfl] at hsettled
        exact hsettled.symm
    | false =>
        rw [hdel, if_neg Bool.false_ne_true] at hsettled
        obtain ⟨ci, hci, hkeep⟩ := hsettled
        rw [hci, if_neg Bool.false_ne_true]
        cases no_overwrite with
        | true => rfl
        | false =>
            have hsame := hkeep.resolve_left Bool.false_ne_true
            have hinst := isInstance_stamped ts (hinc ni hni)
            exact congrArg some (hsame.overwrite (hcur ci (at_key_some hci).1) hinst)

/-- The incoming instances as an expansion gives them, an attribute that has none aside. -/
theorem incoming {opts : ExpandOpts} (h : Fragment opts frag) (hk : k ∉ META) :
    (∀ i ∈ items_of frag k, Expansion opts i) ∧ ((items_of frag k).map dataset_id).Nodup := by
  cases hv : frag.lookup k with
  | none =>
      rw [items_of, hv]
      exact ⟨List.forall_mem_nil _, List.nodup_nil⟩
  | some v =>
      have hent : k ∉ ENTITY_MEMBERS := by
        have hsub : ∀ k ∈ ENTITY_MEMBERS, k ∈ META := by decide
        exact fun hmem => hk (hsub k hmem)
      obtain ⟨-, items, rfl, hitems, hall⟩ := h.attrs k v hent hv
      rw [items_of, hv]
      exact ⟨hall, hitems.nodup⟩

/-- Every attribute of an entity with the instances of a fragment in it. -/
structure Merged (no_overwrite : Bool) (ts : String) (frag doc doc' : Map) : Prop where
  sorted : Sorted doc'
  expires : ∀ v, doc'.lookup "expiresAt" = some v → v.is_string = true
  attrs : ∀ k, k ∉ META → doc'.lookup k = arr (written no_overwrite ts (items_of frag k) (items_of doc k))

variable {opts : ExpandOpts}

theorem Merged.items (h : Merged no_overwrite ts frag doc doc') (hk : k ∉ META) :
    items_of doc' k = written no_overwrite ts (items_of frag k) (items_of doc k) := items_of_arr (h.attrs k hk)

theorem Merged.formed (h : Merged no_overwrite ts frag doc doc') (hf : Fragment opts frag) (hd : Formed doc) : Formed doc' := by
  refine ⟨h.sorted, h.expires, fun k v hk hv => ?_⟩
  obtain ⟨hinc, -⟩ := incoming hf hk
  obtain ⟨hcur, hnodup⟩ := instances_of_formed hd hk
  rw [h.attrs k hk, arr] at hv
  split_ifs at hv with hne
  cases hv
  exact ⟨_, rfl, hne, isInstance_written (fun i hi => (hinc i hi).object) hcur, nodup_written hnodup⟩

theorem Merged.item (h : Merged no_overwrite ts frag doc doc') (hf : Fragment opts frag) (hd : Formed doc) (hk : k ∉ META)
    (ds : Option String) : item doc' k ds = (at_key dataset_id ds (stamp_items ts (items_of frag k))).elim
      (item doc k ds) (fun ni => settle no_overwrite ni (item doc k ds)) := by
  rw [Attrs.item, h.items hk, at_key_written (incoming hf hk).2 (instances_of_formed hd hk).2]
  rfl

theorem Merged.frame (h : Merged no_overwrite ts frag doc doc') (hf : Fragment opts frag) (hd : Formed doc) (hk : k ∉ META)
    {ds : Option String} (hds : ds ∉ (items_of frag k).map dataset_id) : Attrs.item doc' k ds = Attrs.item doc k ds := by
  rw [h.item hf hd hk, at_key_stamped_none hds]
  rfl

/-- What replaces an instance, or leaves it. -/
theorem Merged.replaced (h : Merged no_overwrite ts frag doc doc') (hf : Fragment opts frag) (hd : Formed doc) (hk : k ∉ META)
    {ds : Option String} {ci ci' : Value} (hci : Attrs.item doc k ds = some ci) (hci' : Attrs.item doc' k ds = some ci') :
    ci' = ci ∨ no_overwrite = false ∧ ∃ ni, IsInstance ni ∧ ci' = overwrite ci ni := by
  rw [h.item hf hd hk, hci] at hci'
  cases hni : at_key dataset_id ds (stamp_items ts (items_of frag k)) with
  | none =>
      rw [hni] at hci'
      cases hci'
      exact .inl rfl
  | some ni =>
      rw [hni, Option.elim_some, settle.eq_def] at hci'
      cases hdel : is_deletion_instance ni with
      | true =>
          rw [hdel] at hci'
          cases hci'
      | false =>
          rw [hdel, if_neg Bool.false_ne_true] at hci'
          cases no_overwrite with
          | true =>
              cases hci'
              exact .inl rfl
          | false =>
              cases hci'
              have hmem := (at_key_some hni).1
              rw [stamp_items_eq] at hmem
              obtain ⟨i, hi, rfl⟩ := List.mem_map.mp hmem
              exact .inr ⟨rfl, _, isInstance_stamped ts ((incoming hf hk).1 i hi).object, rfl⟩

theorem Merged.created (h : Merged no_overwrite ts frag doc doc') (hf : Fragment opts frag) (hd : Formed doc) (hk : k ∉ META)
    {ds : Option String} {ci ci' c : Value} (hci : Attrs.item doc k ds = some ci) (hci' : Attrs.item doc' k ds = some ci')
    (hc : ci.get "createdAt" = some c) : ci'.get "createdAt" = some c := by
  rcases h.replaced hf hd hk hci hci' with rfl | ⟨-, ni, ⟨o, rfl, -⟩, rfl⟩
  · exact hc
  · rw [overwrite.eq_def, hc, Value.get, lookup_insert, if_pos rfl]

/-- Where no instance deletes and none is to be overwritten, what exists stays. -/
theorem Merged.kept (h : Merged true ts frag doc doc') (hf : Fragment opts frag) (hallow : opts.allow_null = false)
    (hd : Formed doc) (hk : k ∉ META) {ds : Option String} {ci : Value} (hci : Attrs.item doc k ds = some ci) :
    Attrs.item doc' k ds = some ci := by
  rw [h.item hf hd hk, hci]
  cases hni : at_key dataset_id ds (stamp_items ts (items_of frag k)) with
  | none => rfl
  | some ni =>
      have hmem := (at_key_some hni).1
      rw [stamp_items_eq] at hmem
      obtain ⟨i, hi, rfl⟩ := List.mem_map.mp hmem
      rw [Option.elim_some, settle.eq_def, live_stamped, ((incoming hf hk).1 i hi).live hallow]
      rfl

/-- The attributes are the same exactly where nothing in the fragment changes one. -/
theorem Merged.unchanged (h : Merged no_overwrite ts frag doc doc') (hf : Fragment opts frag) (hd : Formed doc) :
    (∀ k, k ∉ META → doc'.lookup k = doc.lookup k) ↔ AttrsSettled no_overwrite ts frag doc := by
  have hone {k : String} (hk : k ∉ META) :
      doc'.lookup k = doc.lookup k ↔ ∀ ni ∈ items_of frag k, Settled no_overwrite ts (items_of doc k) ni := by
    obtain ⟨hinc, hnodup⟩ := incoming hf hk
    obtain ⟨hcur, hcurs⟩ := instances_of_formed hd hk
    rw [← written_eq_self (fun i hi => (hinc i hi).object) hnodup hcur hcurs, h.attrs k hk, lookup_of_formed hd hk]
    exact ⟨arr_inj, congrArg arr⟩
  exact ⟨fun hall k hk => (hone hk).mp (hall k hk), fun hall k hk => (hone hk).mpr (hall k hk)⟩

end Merged

end AntaresBroker.Attrs
