import AntaresBroker.AttrWrites

namespace AntaresBroker.Attrs

open Fallible Json JsonLd JsonLd.Instance Patch SortedMap Federation Merge KeyedList

section Single

variable {ts iri : String} {ds : Option String} {f : Option Value → Option Value} {doc : Map} {ci : Value} {e : Edit}

/-- One attribute of an entity with these instances, the entity stamped. -/
def single (ts iri : String) (cur : List Value) (doc : Map) : Map := insert "modifiedAt" (.string ts) (set iri (arr cur) doc)

theorem lookup_single {cur : List Value} {k : String} (hk : k ≠ "modifiedAt") :
    (single ts iri cur doc).lookup k = if k = iri then arr cur else doc.lookup k := by
  rw [single, lookup_insert, if_neg hk, lookup_set]

theorem items_of_single {cur : List Value} {k : String} (hk : k ≠ "modifiedAt") :
    items_of (single ts iri cur doc) k = if k = iri then cur else items_of doc k := by
  split_ifs with heq
  · exact items_of_arr (by rw [lookup_single hk, if_pos heq])
  · rw [items_of, lookup_single hk, if_neg heq]
    rfl

theorem Formed.single (hd : Formed doc) (hiri : iri ∉ META) {cur : List Value} (hcur : ∀ i ∈ cur, IsInstance i)
    (hnodup : (cur.map dataset_id).Nodup) : Formed (single ts iri cur doc) := by
  refine ⟨sorted_insert _ _ (sorted_set _ _ hd.sorted), fun v hv => ?_, fun k v hk hv => ?_⟩
  · rw [lookup_single (by decide), if_neg (not_meta_ne hiri (by decide)).symm] at hv
    exact hd.expires v hv
  · rw [lookup_single (not_meta_ne hk (by decide))] at hv
    split_ifs at hv with heq
    · rw [arr] at hv
      split_ifs at hv with hnil
      cases hv
      exact ⟨cur, rfl, hnil, hcur, hnodup⟩
    · exact hd.attrs k v hk hv

theorem item_single (hd : Formed doc) (hiri : iri ∉ META) (hf : Keyed dataset_id ds f) (hci : item doc iri ds = some ci)
    {k : String} (hk : k ∉ META) (ds' : Option String) :
    item (single ts iri (alter dataset_id ds f (items_of doc iri)) doc) k ds' =
      if k = iri ∧ ds' = ds then f (some ci) else item doc k ds' := by
  rw [item, items_of_single (not_meta_ne hk (by decide))]
  by_cases heq : k = iri
  · rw [if_pos heq, at_key_alter hf (instances_of_formed hd hiri).2, ← item, hci, heq]
    by_cases hds : ds' = ds
    · rw [if_pos hds, if_pos ⟨rfl, hds⟩]
    · rw [if_neg hds, if_neg (fun h => hds h.2), ← item]
  · rw [if_neg heq, if_neg (fun h => heq h.1), ← item]

theorem single_sound (hd : Formed doc) (hiri : iri ∉ META) (hf : Keyed dataset_id ds f)
    (hinst : ∀ o r, (∀ i ∈ o, IsInstance i) → f o = some r → IsInstance r) (hci : item doc iri ds = some ci)
    (hcreated : ∀ ci', f (some ci) = some ci' → ∀ c, ci.get "createdAt" = some c → ci'.get "createdAt" = some c)
    (haddr : ∀ k ds', e.addresses k ds' ↔ k = iri ∧ ds' = ds) (hkeeps : ¬ e.keeps) :
    Sound e doc (single ts iri (alter dataset_id ds f (items_of doc iri)) doc) := by
  obtain ⟨hcur, hnodup⟩ := instances_of_formed hd hiri
  refine ⟨hd.single hiri (alter_elements hinst hcur) (nodup_alter hf hnodup), fun k hk ds' hds => ?_,
    fun k hk ds' c₁ c₂ h₁ h₂ c hc => ?_, fun hk => absurd hk hkeeps⟩
  · rw [item_single hd hiri hf hci hk, if_neg (fun h => hds ((haddr k ds').mpr h))]
  · rw [item_single hd hiri hf hci hk] at h₂
    split_ifs at h₂ with heq
    · rw [heq.1, heq.2, hci] at h₁
      cases h₁
      exact hcreated c₂ h₂ c hc
    · rw [h₁] at h₂
      cases h₂
      exact hc

/-- An edit of one instance leaves the entity unless it changes nothing and stamps the entity. -/
theorem single_still (hd : Formed doc) (hiri : iri ∉ META) (hf : Keyed dataset_id ds f) (hci : item doc iri ds = some ci) :
    (Unchanged doc (single ts iri (alter dataset_id ds f (items_of doc iri)) doc) →
        single ts iri (alter dataset_id ds f (items_of doc iri)) doc = doc) ↔
      ¬ (f (some ci) = some ci ∧ Unstamped ts doc) := by
  have hlookup (hsame : f (some ci) = some ci) {k : String} (hk : k ≠ "modifiedAt") :
      (single ts iri (alter dataset_id ds f (items_of doc iri)) doc).lookup k = doc.lookup k := by
    have halter : alter dataset_id ds f (items_of doc iri) = items_of doc iri := by
      apply alter_eq_self
      rw [← item, hci]
      exact hsame
    rw [lookup_single hk, halter]
    split_ifs with heq
    · rw [heq, lookup_of_formed hd hiri]
    · rfl
  have hunchanged : Unchanged doc (single ts iri (alter dataset_id ds f (items_of doc iri)) doc) ↔ f (some ci) = some ci := by
    constructor
    · intro hu
      have hitem := @item_single ts iri ds f doc ci hd hiri hf hci iri hiri ds
      rw [if_pos ⟨rfl, rfl⟩, item, items_of, hu.attrs iri hiri, ← items_of, ← item, hci] at hitem
      exact hitem.symm
    · exact fun hsame => ⟨fun k hk => hlookup hsame (not_meta_ne hk (by decide)), hlookup hsame (by decide),
        hlookup hsame (by decide)⟩
  rw [hunchanged]
  constructor
  · rintro hstill ⟨hsame, hun⟩
    apply hun
    conv_lhs => rw [← hstill hsame]
    rw [single, lookup_insert, if_pos rfl]
  · intro hnot hsame
    have hstamped : doc.lookup "modifiedAt" = some (.string ts) := by
      by_contra hun
      exact hnot ⟨hsame, hun⟩
    refine SortedMap.ext (sorted_insert _ _ (sorted_set _ _ hd.sorted)) hd.sorted fun k => ?_
    by_cases hk : k = "modifiedAt"
    · rw [single, lookup_insert, if_pos hk, hk, hstamped]
    · exact hlookup hsame hk

theorem edit_eq (ni : Value) (g : Value → Value) (cur : List Value) :
    edit (same_dataset ni) g cur = alter dataset_id (dataset_id ni) (Option.map g) cur := by
  induction cur with
  | nil => rfl
  | cons ci cur ih =>
      rw [edit, alter, same_dataset, ih]
      by_cases h : dataset_id ci = dataset_id ni
      · rw [if_pos h, decide_eq_true h]
        rfl
      · rw [if_neg h, decide_eq_false h]
        rfl

theorem edit_ne_nil {here : Value → Bool} {g : Value → Value} {cur : List Value} (h : cur ≠ []) : edit here g cur ≠ [] := by
  cases cur with
  | nil => exact absurd rfl h
  | cons ci cur =>
      rw [edit]
      split_ifs <;> exact List.cons_ne_nil _ _

theorem put_instances_eq (cur : List Value) : put_instances iri cur doc = set iri (arr cur) doc := by
  rw [put_instances, arr]
  simp only [List.isEmpty_iff]

theorem insert_edit_eq {here : Value → Bool} {g : Value → Value} {cur : List Value} (h : cur ≠ []) :
    insert iri (.array (edit here g cur)) doc = set iri (arr (edit here g cur)) doc := by
  rw [arr, if_neg (edit_ne_nil h)]
  rfl

theorem at_key_ne_nil {cur : List Value} (h : at_key dataset_id ds cur = some ci) : cur ≠ [] :=
  List.ne_nil_of_mem (at_key_some h).1

/-- One instance taken out. -/
theorem erase_lawful (hd : Formed doc) (hiri : iri ∉ META) (hci : item doc iri ds = some ci)
    (haddr : ∀ k ds', e.addresses k ds' ↔ k = iri ∧ ds' = ds) (hkeeps : ¬ e.keeps) :
    Lawful e doc (insert "modifiedAt" (.string ts)
      (put_instances iri ((items_of doc iri).eraseP (fun ci => dataset_id ci = ds)) doc)) := by
  have hkeyed : Keyed dataset_id ds (fun _ : Option Value => none) := fun _ _ _ h => by cases h
  rw [put_instances_eq, eraseP_eq]
  refine ⟨single_sound hd hiri hkeyed (fun _ _ _ h => by cases h) hci (fun _ h => by cases h) haddr hkeeps, ?_⟩
  apply (single_still hd hiri hkeyed hci).mpr
  rintro ⟨h, -⟩
  cases h

/-- One instance rewritten: an edit that keeps its dataset and its creation. -/
structure Rewrite (g : Value → Value) (ni ci : Value) : Prop where
  key : ∀ ci, dataset_id ci = dataset_id ni → dataset_id (g ci) = dataset_id ni
  object : ∀ ci, IsInstance ci → IsInstance (g ci)
  created : ∀ c, ci.get "createdAt" = some c → (g ci).get "createdAt" = some c

variable {ni : Value} {g : Value → Value}

theorem Rewrite.keyed (h : Rewrite g ni ci) : Keyed dataset_id (dataset_id ni) (Option.map g) := by
  intro o r ho hr
  obtain ⟨i, rfl, rfl⟩ := Option.map_eq_some_iff.mp hr
  exact h.key i (ho i rfl)

theorem rewrite_sound (h : Rewrite g ni ci) (hd : Formed doc) (hiri : iri ∉ META) (hci : item doc iri (dataset_id ni) = some ci)
    (haddr : ∀ k ds, e.addresses k ds ↔ k = iri ∧ ds = dataset_id ni) (hkeeps : ¬ e.keeps) :
    Sound e doc (insert "modifiedAt" (.string ts)
      (insert iri (.array (edit (same_dataset ni) g (items_of doc iri))) doc)) := by
  rw [insert_edit_eq (at_key_ne_nil hci), edit_eq]
  refine single_sound hd hiri h.keyed ?_ hci ?_ haddr hkeeps
  · intro o r ho hr
    obtain ⟨i, rfl, rfl⟩ := Option.map_eq_some_iff.mp hr
    exact h.object i (ho i rfl)
  · rintro _ ⟨⟩
    exact h.created

theorem rewrite_lawful (h : Rewrite g ni ci) (hd : Formed doc) (hiri : iri ∉ META)
    (hci : item doc iri (dataset_id ni) = some ci) (haddr : ∀ k ds, e.addresses k ds ↔ k = iri ∧ ds = dataset_id ni)
    (hkeeps : ¬ e.keeps) : Lawful e doc (insert "modifiedAt" (.string ts)
      (insert iri (.array (edit (same_dataset ni) g (items_of doc iri))) doc)) ↔ ¬ (g ci = ci ∧ Unstamped ts doc) := by
  have hsound := @rewrite_sound ts iri doc ci e ni g h hd hiri hci haddr hkeeps
  rw [insert_edit_eq (at_key_ne_nil hci), edit_eq] at hsound ⊢
  rw [← Option.some_inj]
  have hstill := @single_still ts iri (dataset_id ni) (Option.map g) doc ci hd hiri h.keyed hci
  exact ⟨fun h => hstill.mp h.still, fun h => ⟨hsound, hstill.mpr h⟩⟩

end Single

section Patched

variable {ts iri : String} {frag t doc : Map}

def patched_member (k : String) (cur : Option Value) (v : Value) : Option Value :=
  if k = "createdAt" ∨ k = "modifiedAt" then cur else if is_null v then none else some v

theorem lookup_patch_member (m : Map) (p : String × Value) (k : String) :
    (patch_member m p).lookup k = if k = p.1 then patched_member k (m.lookup k) p.2 else m.lookup k := by
  rw [patch_member]
  by_cases hk : k = p.1
  · rw [if_pos hk, hk, patched_member]
    split_ifs
    · rfl
    · rw [lookup_erase, if_pos rfl]
    · rw [lookup_insert, if_pos rfl]
  · rw [if_neg hk]
    split_ifs
    · rfl
    · rw [lookup_erase, if_neg hk]
    · rw [lookup_insert, if_neg hk]

theorem lookup_patched (hs : Sorted frag) (k : String) : (patched ts frag t).lookup k =
    if k = "modifiedAt" then some (.string ts)
    else if k = "createdAt" then t.lookup k
    else (frag.lookup k).elim (t.lookup k) (fun v => if is_null v then none else some v) := by
  have hfold := lookup_foldl lookup_patch_member hs t k
  rw [patched, lookup_insert]
  split_ifs with hm hc
  · rfl
  · rw [hfold]
    cases frag.lookup k with
    | none => rfl
    | some v => exact if_pos (.inl hc)
  · rw [hfold]
    cases frag.lookup k with
    | none => rfl
    | some v => exact if_neg (not_or.mpr ⟨hc, hm⟩)

theorem sorted_patched (ts : String) (frag : Map) (ht : Sorted t) : Sorted (patched ts frag t) := by
  refine sorted_insert _ _ ?_
  induction frag generalizing t with
  | nil => exact ht
  | cons p frag ih =>
      refine ih ?_
      rw [patch_member]
      split_ifs
      · exact ht
      · exact sorted_erase _ ht
      · exact sorted_insert _ _ ht

/-- A patch changes nothing where the members are there, stamped with this instant. -/
theorem patched_eq_self (hs : Sorted frag) (ht : Sorted t) : patched ts frag t = t ↔
    t.lookup "modifiedAt" = some (.string ts) ∧ ∀ k v, k ≠ "createdAt" → k ≠ "modifiedAt" → frag.lookup k = some v →
      t.lookup k = if is_null v then none else some v := by
  constructor
  · intro h
    refine ⟨?_, fun k v hc hm hv => ?_⟩
    · rw [← h, lookup_patched hs, if_pos rfl]
    · have hlookup := @lookup_patched ts frag t hs k
      rw [h, if_neg hm, if_neg hc, hv] at hlookup
      exact hlookup
  · rintro ⟨hstamp, hmembers⟩
    refine SortedMap.ext (sorted_patched ts frag ht) ht fun k => ?_
    rw [lookup_patched hs]
    split_ifs with hm hc
    · rw [hm, hstamp]
    · rfl
    · cases hv : frag.lookup k with
      | none => rfl
      | some v => exact (hmembers k v hc hm hv).symm

theorem dataset_id_patched (hs : Sorted frag) (hnull : ∀ v, frag.lookup "datasetId" = some v → is_null v = false)
    (h : dataset_id (.object t) = dataset_id (.object frag)) :
    dataset_id (.object (patched ts frag t)) = dataset_id (.object frag) := by
  have hlookup : (patched ts frag t).lookup "datasetId" =
      (frag.lookup "datasetId").elim (t.lookup "datasetId") (fun v => if is_null v then none else some v) := by
    rw [lookup_patched hs, if_neg (by decide), if_neg (by decide)]
  rw [dataset_id, Value.get, hlookup]
  cases hv : frag.lookup "datasetId" with
  | none =>
      rw [← h]
      rfl
  | some v =>
      rw [Option.elim_some, hnull v hv, dataset_id, Value.get, hv]
      rfl

end Patched

section Targets

variable {ts iri : String} {frag doc : Map} {ni : Value}

theorem find_item (doc : Map) (iri : String) (ni : Value) :
    (items_of doc iri).find? (same_dataset ni) = item doc iri (dataset_id ni) := rfl

theorem item_instance (hd : Formed doc) (hiri : iri ∉ META) {ds : Option String} {ci : Value}
    (h : item doc iri ds = some ci) : IsInstance ci := (instances_of_formed hd hiri).1 ci (at_key_some h).1

/-- The type of a fragment is that of the instance it patches, where both have one. -/
def TypeFits (frag t : Map) : Prop :=
  ∀ ft et, type_of (.object frag) = some ft → type_of (.object t) = some et → ft = et

/-- What a partial update does where it is accepted. -/
theorem partial_update_ok (hd : Formed doc) (hiri : iri ∉ META) {doc' : Map} : partial_update ts iri frag doc = .ok doc' ↔
    ∃ t, item doc iri (dataset_id (.object frag)) = some (.object t) ∧
      if is_deletion_instance (.object frag) then
        doc' = insert "modifiedAt" (.string ts) (put_instances iri
          ((items_of doc iri).eraseP (fun ci => dataset_id ci = dataset_id (.object frag))) doc)
      else TypeFits frag t ∧ doc' = insert "modifiedAt" (.string ts) (insert iri
        (.array (edit (same_dataset (.object frag)) (fun _ => .object (patched ts frag t)) (items_of doc iri))) doc) := by
  rw [partial_update, find_item]
  cases hci : item doc iri (dataset_id (.object frag)) with
  | none =>
      constructor
      · intro h
        cases h
      · rintro ⟨t, ht, -⟩
        cases ht
  | some ci =>
      obtain ⟨t, rfl, -⟩ := item_instance hd hiri hci
      have hmatch {P : Map → Prop} : (∃ t', some (Value.object t) = some (.object t') ∧ P t') ↔ P t := by
        constructor
        · rintro ⟨t', heq, h⟩
          cases heq
          exact h
        · exact fun h => ⟨t, rfl, h⟩
      rw [hmatch]
      dsimp only
      split_ifs with hdel
      · rw [Except.ok.injEq]
        exact eq_comm
      · cases hft : type_of (.object frag) with
        | none =>
            have hfits : TypeFits frag t := fun ft et hft' => by rw [hft] at hft'; cases hft'
            simp [hfits, eq_comm]
        | some ft =>
            cases het : type_of (.object t) with
            | none =>
                have hfits : TypeFits frag t := fun ft et _ het' => by rw [het] at het'; cases het'
                simp [hfits, eq_comm]
            | some et =>
                have hfits : TypeFits frag t ↔ ft = et := by
                  rw [TypeFits, hft, het]
                  exact ⟨fun h => h ft et rfl rfl, fun h ft' et' hft' het' => by cases hft'; cases het'; exact h⟩
                dsimp only
                rw [hfits]
                split_ifs with heq <;> simp [heq, eq_comm]

variable (hd : Formed doc) (hiri : iri ∉ META)

include hd hiri in
theorem patched_rewrite (hs : Sorted frag) (hnull : ∀ v, frag.lookup "datasetId" = some v → is_null v = false) {t : Map}
    (hci : item doc iri (dataset_id (.object frag)) = some (.object t)) :
    Sorted t ∧ Rewrite (fun _ => .object (patched ts frag t)) (.object frag) (.object t) := by
  obtain ⟨t', heq, ht⟩ := item_instance hd hiri hci
  cases heq
  refine ⟨ht, fun _ _ => dataset_id_patched hs hnull (at_key_some hci).2, fun _ _ => ⟨_, rfl, sorted_patched ts frag ht⟩, ?_⟩
  intro c hc
  rw [Value.get, lookup_patched hs, if_neg (by decide), if_pos rfl]
  exact hc

include hd hiri in
theorem partial_update_sound (hs : Sorted frag) (hnull : ∀ v, frag.lookup "datasetId" = some v → is_null v = false)
    {doc' : Map} (h : partial_update ts iri frag doc = .ok doc') : Sound (.PartialUpdate iri frag) doc doc' := by
  obtain ⟨t, hci, h⟩ := (partial_update_ok hd hiri).mp h
  split_ifs at h with hdel
  · rw [h]
    exact (erase_lawful hd hiri hci (fun _ _ => Iff.rfl) id).toSound
  · rw [h.2]
    exact rewrite_sound (patched_rewrite hd hiri hs hnull hci).2 hd hiri hci (fun _ _ => Iff.rfl) id

include hd hiri in
/-- A partial update is lawful exactly where it is not needless. -/
theorem partial_update_lawful (hs : Sorted frag) (hnull : ∀ v, frag.lookup "datasetId" = some v → is_null v = false) :
    (∀ doc', partial_update ts iri frag doc = .ok doc' → Lawful (.PartialUpdate iri frag) doc doc') ↔
      ¬ Edit.Needless ts doc (.PartialUpdate iri frag) := by
  have hrewrite {t : Map} (hci : item doc iri (dataset_id (.object frag)) = some (.object t)) :
      Lawful (.PartialUpdate iri frag) doc (insert "modifiedAt" (.string ts) (insert iri
        (.array (edit (same_dataset (.object frag)) (fun _ => .object (patched ts frag t)) (items_of doc iri))) doc)) ↔
      ¬ ((t.lookup "modifiedAt" = some (.string ts) ∧ ∀ k v, k ≠ "createdAt" → k ≠ "modifiedAt" →
        frag.lookup k = some v → t.lookup k = if is_null v then none else some v) ∧ Unstamped ts doc) := by
    obtain ⟨ht, hrewrite⟩ := @patched_rewrite ts iri frag doc hd hiri hs hnull t hci
    rw [← patched_eq_self hs ht, ← Value.object.injEq]
    exact rewrite_lawful hrewrite hd hiri hci (fun _ _ => Iff.rfl) id
  constructor
  · rintro hall ⟨hdel, hun, t, hci, hfits, hheld⟩
    refine (hrewrite hci).mp (hall _ ((partial_update_ok hd hiri).mpr ⟨t, hci, ?_⟩)) ⟨hheld, hun⟩
    rw [hdel, if_neg Bool.false_ne_true]
    exact ⟨hfits, rfl⟩
  · intro hnot doc' h
    obtain ⟨t, hci, h⟩ := (partial_update_ok hd hiri).mp h
    split_ifs at h with hdel
    · rw [h]
      exact erase_lawful hd hiri hci (fun _ _ => Iff.rfl) id
    · rw [h.2]
      apply (hrewrite hci).mpr
      rintro ⟨hheld, hun⟩
      exact hnot ⟨Bool.not_eq_true _ ▸ hdel, hun, t, hci, h.1, hheld⟩

theorem get_renewed {ci : Value} {o : Map} (k : String) : (renewed ts (.object o) ci).get k =
    if k = "modifiedAt" then some (.string ts)
    else if k = "createdAt" then some ((ci.get "createdAt").getD (.string ts))
    else o.lookup k := by
  rw [renewed, Value.get, lookup_insert, lookup_insert]

theorem replace_attr_ok {doc' : Map} : replace_attr ts iri ni doc = .ok doc' ↔ ∃ ci, item doc iri (dataset_id ni) = some ci ∧
    doc' = insert "modifiedAt" (.string ts)
      (insert iri (.array (edit (same_dataset ni) (renewed ts ni) (items_of doc iri))) doc) := by
  rw [replace_attr, any_same_dataset, ← item]
  cases item doc iri (dataset_id ni) with
  | none => simp
  | some ci => simp [eq_comm]

theorem renewed_rewrite (ts : String) {o : Map} (ho : Sorted o) (ci : Value) : Rewrite (renewed ts (.object o)) (.object o) ci := by
  refine ⟨fun ci _ => ?_, fun ci _ => ⟨_, rfl, sorted_insert _ _ (sorted_insert _ _ ho)⟩, fun v hv => ?_⟩
  · rw [dataset_id, get_renewed, if_neg (by decide), if_neg (by decide)]
    rfl
  · rw [get_renewed, if_neg (by decide), if_pos rfl, hv]
    rfl

/-- A replacement changes nothing where the members are there, stamped with this instant. -/
theorem renewed_eq_self {o c : Map} (ho : Sorted o) (hc : Sorted c) : renewed ts (.object o) (.object c) = .object c ↔
    c.lookup "modifiedAt" = some (.string ts) ∧ (c.lookup "createdAt").isSome = true ∧
      ∀ k, k ≠ "createdAt" → k ≠ "modifiedAt" → c.lookup k = o.lookup k := by
  constructor
  · intro h
    have hget (k : String) : c.lookup k = _ := (congrArg (fun v => Value.get v k) h).symm.trans (get_renewed k)
    refine ⟨?_, ?_, fun k hk hm => ?_⟩
    · rw [hget, if_pos rfl]
    · rw [hget, if_neg (by decide), if_pos rfl]
      rfl
    · rw [hget, if_neg hm, if_neg hk]
  · rintro ⟨hstamp, hcreated, hmembers⟩
    obtain ⟨v, hv⟩ := Option.isSome_iff_exists.mp hcreated
    have hget : ∀ k, (renewed ts (.object o) (.object c)).get k = c.lookup k := by
      intro k
      rw [get_renewed]
      split_ifs with hm hk
      · rw [hm, hstamp]
      · rw [hk, Value.get, hv]
        rfl
      · exact (hmembers k hk hm).symm
    rw [renewed, Value.object.injEq]
    exact SortedMap.ext (sorted_insert _ _ (sorted_insert _ _ ho)) hc hget

include hd hiri in
theorem replace_attr_sound (hni : IsInstance ni) {doc' : Map} (h : replace_attr ts iri ni doc = .ok doc') :
    Sound (.Replace iri ni) doc doc' := by
  obtain ⟨o, rfl, ho⟩ := hni
  obtain ⟨ci, hci, rfl⟩ := replace_attr_ok.mp h
  exact rewrite_sound (renewed_rewrite ts ho ci) hd hiri hci (fun _ _ => Iff.rfl) id

include hd hiri in
/-- A replacement is lawful exactly where it is not needless. -/
theorem replace_attr_lawful (hni : IsInstance ni) :
    (∀ doc', replace_attr ts iri ni doc = .ok doc' → Lawful (.Replace iri ni) doc doc') ↔
      ¬ Edit.Needless ts doc (.Replace iri ni) := by
  obtain ⟨o, rfl, ho⟩ := hni
  have hrewrite {c : Map} (hci : item doc iri (dataset_id (.object o)) = some (.object c)) (hc : Sorted c) :
      Lawful (.Replace iri (.object o)) doc (insert "modifiedAt" (.string ts) (insert iri
        (.array (edit (same_dataset (.object o)) (renewed ts (.object o)) (items_of doc iri))) doc)) ↔
      ¬ ((c.lookup "modifiedAt" = some (.string ts) ∧ (c.lookup "createdAt").isSome = true ∧
        ∀ k, k ≠ "createdAt" → k ≠ "modifiedAt" → c.lookup k = o.lookup k) ∧ Unstamped ts doc) := by
    rw [← renewed_eq_self ho hc]
    exact rewrite_lawful (renewed_rewrite ts ho _) hd hiri hci (fun _ _ => Iff.rfl) id
  constructor
  · rintro hall ⟨hun, ci, hci, hheld⟩
    obtain ⟨c, rfl, hc⟩ := item_instance hd hiri hci
    exact (hrewrite hci hc).mp (hall _ (replace_attr_ok.mpr ⟨_, hci, rfl⟩)) ⟨hheld, hun⟩
  · intro hnot doc' h
    obtain ⟨ci, hci, rfl⟩ := replace_attr_ok.mp h
    obtain ⟨c, rfl, hc⟩ := item_instance hd hiri hci
    apply (hrewrite hci hc).mpr
    rintro ⟨hheld, hun⟩
    exact hnot ⟨hun, _, hci, hheld⟩

theorem delete_attr_lawful {dataset : Option String} {delete_all : Bool} (hd : Formed doc) (hiri : iri = "scope" ∨ iri ∉ META)
    {doc' : Map} (h : delete_attr ts iri dataset delete_all doc = .ok doc') : Lawful (.Delete iri dataset delete_all) doc doc' := by
  rw [delete_attr] at h
  by_cases hscope : iri = "scope"
  · rw [if_pos hscope] at h
    obtain ⟨hsome, heq⟩ := ite_error.mp h
    cases heq
    have hlookup {k : String} (hk : k ∉ META) :
        (insert "modifiedAt" (.string ts) (erase "scope" doc)).lookup k = doc.lookup k := by
      rw [lookup_insert, if_neg (not_meta_ne hk (by decide)), lookup_erase, if_neg (not_meta_ne hk (by decide))]
    have hitem {k : String} (hk : k ∉ META) (ds : Option String) :
        item (insert "modifiedAt" (.string ts) (erase "scope" doc)) k ds = item doc k ds := by
      rw [item, item, items_of, items_of, hlookup hk]
    refine ⟨⟨⟨sorted_insert _ _ (sorted_erase _ hd.sorted), fun v hv => ?_, fun k v hk hv => ?_⟩, fun k hk ds _ => hitem hk ds,
      fun k hk ds ci ci' hci hci' c hc => ?_, False.elim⟩, fun hu => ?_⟩
    · rw [lookup_insert, if_neg (by decide), lookup_erase, if_neg (by decide)] at hv
      exact hd.expires v hv
    · exact hd.attrs k v hk (hlookup hk ▸ hv)
    · rw [hitem hk, hci] at hci'
      cases hci'
      exact hc
    · have hgone := hu.scope
      rw [lookup_insert, if_neg (by decide), lookup_erase, if_pos rfl] at hgone
      rw [← hgone] at hsome
      cases hsome
  · have hiri := hiri.resolve_left hscope
    rw [if_neg hscope] at h
    dsimp only at h
    cases hall : delete_all with
    | true =>
        rw [hall, if_pos rfl] at h
        obtain ⟨hne, heq⟩ := ite_ok.mp h
        cases heq
        have hsingle : insert "modifiedAt" (.string ts) (erase iri doc) = single ts iri [] doc := rfl
        have hne : items_of doc iri ≠ [] := fun hnil => hne (by rw [hnil]; rfl)
        have hitem {k : String} (hk : k ∉ META) (ds : Option String) :
            item (single ts iri [] doc) k ds = if k = iri then none else item doc k ds := by
          rw [item, items_of_single (not_meta_ne hk (by decide))]
          split_ifs <;> rfl
        rw [hsingle]
        refine ⟨⟨hd.single hiri (List.forall_mem_nil _) List.nodup_nil, fun k hk ds hds => ?_,
          fun k hk ds ci ci' hci hci' c hc => ?_, False.elim⟩, fun hu => ?_⟩
        · rw [hitem hk, if_neg (fun heq => hds ⟨heq, .inl rfl⟩)]
        · rw [hitem hk] at hci'
          split_ifs at hci'
          rw [hci] at hci'
          cases hci'
          exact hc
        · have hgone := hu.attrs iri hiri
          rw [lookup_single (not_meta_ne hiri (by decide)), if_pos rfl, lookup_of_formed hd hiri] at hgone
          exact absurd (arr_inj hgone).symm hne
    | false =>
        rw [hall, if_neg Bool.false_ne_true] at h
        obtain ⟨hany, heq⟩ := ite_error.mp h
        cases heq
        obtain ⟨ci, hci, hds⟩ := List.any_eq_true.mp hany
        have hat : item doc iri dataset = some ci := by
          rw [item, ← of_decide_eq_true hds]
          exact at_key_mem (instances_of_formed hd hiri).2 hci
        refine erase_lawful hd hiri hat (fun k ds => ?_) id
        exact and_congr_right fun _ => ⟨fun h => h.resolve_left Bool.false_ne_true, .inr⟩

end Targets

section Requests

variable {Instant : Type} [LinearOrder Instant] (x : Expander Instant) (texts : Texts)

/-- The IRIs a request is matched on against registrations, and what it writes here. -/
def planned (r : Request) : Except AttrsError (List String × Edit) :=
  match r.operation with
  | .Update body =>
      (((expander x texts).expand_entity body { fragment := true, allow_null := true }).mapError .Expand).map fun frag =>
        (attr_iris_of frag, .Update (strip_covered_expanded frag r.regs))
  | .Append no_overwrite body =>
      (((expander x texts).expand_entity body { fragment := true }).mapError .Expand).map fun frag =>
        (attr_iris_of frag, .Append no_overwrite (strip_covered_expanded frag r.regs))
  | .PartialUpdate attr body =>
      ((expand_attr_fragment x texts body).mapError .Expand).bind fun frag =>
      (target_iri x attr).map fun iri => ([iri], .PartialUpdate iri frag)
  | .Replace attr body =>
      (target_iri x attr).bind fun iri =>
      (((expander x texts).expand_entity [(attr, .object (erase "@context" body))] { fragment := true }).mapError .Expand).bind fun frag =>
      match (items_of frag iri).head? with
      | none => .error .InvalidFragment
      | some ni => .ok ([iri], .Replace iri ni)
  | .Delete attr dataset delete_all =>
      (if attr = "scope" then .ok "scope"
        else ((x.expand_attr_name attr).mapError .Expand).map (fun iri => if iri = SCOPE_IRI then "scope" else iri)).map fun iri =>
      ([iri], .Delete iri dataset delete_all)

variable {x texts}

theorem map_bind {α β γ ε : Type} (e : Except ε α) (f : α → β) (g : β → Except ε γ) :
    (e.map f).bind g = e.bind fun a => g (f a) := by cases e <;> rfl

theorem bind_assoc {α β γ ε : Type} (e : Except ε α) (f : α → Except ε β) (g : β → Except ε γ) :
    (e.bind f).bind g = e.bind fun a => (f a).bind g := by cases e <;> rfl

theorem perform_eq (r : Request) (doc : Map) : perform x texts r doc =
    (planned x texts r).bind fun p => locally r p.1 doc (fun doc => p.2.run r.ts doc) := by
  rw [perform, planned]
  cases r.operation with
  | Update body =>
      dsimp only
      rw [map_bind]
      rfl
  | Append no_overwrite body =>
      dsimp only
      rw [map_bind]
      rfl
  | PartialUpdate attr body =>
      dsimp only
      rw [bind_assoc]
      congr 1
      funext frag
      rw [map_bind]
      rfl
  | Replace attr body =>
      dsimp only
      rw [bind_assoc]
      congr 1
      funext iri
      rw [bind_assoc]
      congr 1
      funext frag
      cases (items_of frag iri).head? <;> rfl
  | Delete attr dataset delete_all =>
      dsimp only
      rw [map_bind]
      rfl

/-- An edit as a request brings it. -/
def Edit.Fits : Edit → Prop
  | .Update frag => ∃ opts, Fragment opts frag
  | .Append _ frag => ∃ opts : ExpandOpts, opts.allow_null = false ∧ Fragment opts frag
  | .PartialUpdate iri frag => iri ∉ META ∧ Sorted frag ∧ ∀ v, frag.lookup "datasetId" = some v → is_null v = false
  | .Replace iri ni => iri ∉ META ∧ IsInstance ni
  | .Delete iri _ _ => iri = "scope" ∨ iri ∉ META

theorem fragment_member_ok {out out' : Map} {p : String × Value} (h : fragment_member x texts out p = .ok out')
    (hout : Sorted out ∧ ∀ v, out.lookup "datasetId" = some v → is_null v = false) :
    Sorted out' ∧ ∀ v, out'.lookup "datasetId" = some v → is_null v = false := by
  rw [fragment_member] at h
  split_ifs at h with hres
  · obtain ⟨v, hv, rfl⟩ := map_eq_ok.mp h
    refine ⟨sorted_put hout.1, fun w hw => ?_⟩
    rw [Expander.lookup_put] at hw
    split_ifs at hw with hds
    · cases v with
      | none => exact hout.2 w hw
      | some v =>
          cases hw
          rw [fragment_reserved, ← hds] at hv
          rw [if_neg (by decide), if_neg (by decide), if_neg (by decide), if_neg (by decide), if_pos rfl] at hv
          cases hd : dataset_id_member p.2 with
          | error e =>
              rw [hd] at hv
              cases hv
          | ok u =>
              rw [hd] at hv
              cases hv
              rw [dataset_id_member.eq_def] at hd
              split at hd
              · obtain ⟨hnull, hd⟩ := ite_ok.mp hd
                split_ifs at hd
                · cases hd
                · cases hd
                  simp [is_null, is_ngsi_null, Value.as_str, hnull]
              · cases hd
    · exact hout.2 w hw
  · obtain ⟨iri, hiri, h⟩ := bind_eq_ok.mp h
    obtain ⟨instances, -, h⟩ := bind_eq_ok.mp h
    obtain ⟨-, h⟩ := ite_ok.mp h
    cases h
    refine ⟨sorted_insert _ _ hout.1, fun w hw => ?_⟩
    have hne : "datasetId" ≠ iri := by
      rintro rfl
      have hnot := (expand_attr_name_ok hiri).2
      rw [show RESERVED_MEMBERS.contains "datasetId" = true by decide] at hnot
      cases hnot
    rw [lookup_insert, if_neg hne] at hw
    exact hout.2 w hw

theorem expand_attr_fragment_ok {body frag : Map} (h : expand_attr_fragment x texts body = .ok frag) :
    Sorted frag ∧ ∀ v, frag.lookup "datasetId" = some v → is_null v = false := by
  have hfold {body out : Map} (h : body.foldlM (fragment_member x texts) out = .ok frag)
      (hout : Sorted out ∧ ∀ v, out.lookup "datasetId" = some v → is_null v = false) :
      Sorted frag ∧ ∀ v, frag.lookup "datasetId" = some v → is_null v = false := by
    induction body generalizing out with
    | nil =>
        cases h
        exact hout
    | cons p body ih =>
        rw [List.foldlM_cons] at h
        obtain ⟨next, hnext, h⟩ := bind_eq_ok.mp h
        exact ih h (fragment_member_ok hnext hout)
  exact hfold h ⟨sorted_nil, fun v hv => by cases hv⟩

theorem mapError_ok {α ε ε' : Type} {f : ε → ε'} {e : Except ε α} {a : α} (h : e.mapError f = .ok a) : e = .ok a := by
  cases e with
  | error e => cases h
  | ok a' =>
      cases h
      rfl

theorem expand_attr_name_absolute {attr iri : String} (h : x.expand_attr_name attr = .ok iri) : iri ∉ META := by
  obtain ⟨habs, heq⟩ := ite_error.mp h
  cases heq
  exact (absolute_not_meta habs).1

theorem target_iri_ok {attr iri : String} (h : target_iri x attr = .ok iri) : iri ∉ META := by
  obtain ⟨iri', hiri, h⟩ := bind_eq_ok.mp h
  obtain ⟨-, h⟩ := ite_ok.mp h
  cases h
  exact expand_attr_name_absolute (mapError_ok hiri)

theorem planned_fits {r : Request} {iris : List String} {e : Edit} (h : planned x texts r = .ok (iris, e)) : e.Fits := by
  rw [planned.eq_def] at h
  cases hop : r.operation with
  | Update body =>
      rw [hop] at h
      obtain ⟨frag, hfrag, heq⟩ := map_eq_ok.mp h
      cases heq
      exact ⟨_, (expand_entity_fragment rfl rfl (mapError_ok hfrag)).strip r.regs⟩
  | Append no_overwrite body =>
      rw [hop] at h
      obtain ⟨frag, hfrag, heq⟩ := map_eq_ok.mp h
      cases heq
      exact ⟨_, rfl, (expand_entity_fragment rfl rfl (mapError_ok hfrag)).strip r.regs⟩
  | PartialUpdate attr body =>
      rw [hop] at h
      obtain ⟨frag, hfrag, h⟩ := bind_eq_ok.mp h
      obtain ⟨iri, hiri, heq⟩ := map_eq_ok.mp h
      cases heq
      exact ⟨target_iri_ok hiri, expand_attr_fragment_ok (mapError_ok hfrag)⟩
  | Replace attr body =>
      rw [hop] at h
      obtain ⟨iri, hiri, h⟩ := bind_eq_ok.mp h
      obtain ⟨frag, hfrag, h⟩ := bind_eq_ok.mp h
      have hmeta := target_iri_ok hiri
      have hfit := expand_entity_fragment rfl rfl (mapError_ok hfrag)
      cases hhead : (items_of frag iri).head? with
      | none =>
          rw [hhead] at h
          cases h
      | some ni =>
          rw [hhead] at h
          cases h
          exact ⟨hmeta, ((incoming hfit hmeta).1 ni (List.mem_of_head? hhead)).object⟩
  | Delete attr dataset delete_all =>
      rw [hop] at h
      obtain ⟨iri, hiri, heq⟩ := map_eq_ok.mp h
      cases heq
      split_ifs at hiri with hattr
      · cases hiri
        exact .inl rfl
      · obtain ⟨iri', hname, heq⟩ := map_eq_ok.mp hiri
        split_ifs at heq with hscope
        · exact .inl heq.symm
        · exact .inr (heq ▸ expand_attr_name_absolute (mapError_ok hname))

theorem Edit.sound {e : Edit} {ts : String} {doc doc' : Map} (he : e.Fits) (hd : Formed doc) (h : e.run ts doc = .ok doc') :
    Sound e doc doc' := by
  cases e with
  | Update frag =>
      obtain ⟨opts, hf⟩ := he
      cases h
      exact update_sound ts hf hd
  | Append no_overwrite frag =>
      obtain ⟨opts, hallow, hf⟩ := he
      cases h
      exact append_sound ts hf hallow hd
  | PartialUpdate iri frag => exact partial_update_sound hd he.1 he.2.1 he.2.2 h
  | Replace iri ni => exact replace_attr_sound hd he.1 he.2 h
  | Delete iri dataset delete_all => exact (delete_attr_lawful hd he h).toSound

/-- An edit is lawful exactly where it is not needless. -/
theorem Edit.lawful {e : Edit} {ts : String} {doc : Map} (he : e.Fits) (hd : Formed doc) :
    (∀ doc', e.run ts doc = .ok doc' → Lawful e doc doc') ↔ ¬ e.Needless ts doc := by
  have hdone {e : Edit} {doc₁ : Map} (hrun : e.run ts doc = .ok doc₁) :
      (∀ doc', e.run ts doc = .ok doc' → Lawful e doc doc') ↔ Lawful e doc doc₁ := by
    constructor
    · exact fun h => h doc₁ hrun
    · intro h doc' h'
      rw [hrun] at h'
      cases h'
      exact h
  cases e with
  | Update frag =>
      obtain ⟨opts, hf⟩ := he
      rw [hdone rfl]
      exact update_lawful hf hd
  | Append no_overwrite frag =>
      obtain ⟨opts, hallow, hf⟩ := he
      rw [hdone rfl]
      exact append_lawful hf hallow hd
  | PartialUpdate iri frag => exact partial_update_lawful hd he.1 he.2.1 he.2.2
  | Replace iri ni => exact replace_attr_lawful hd he.1 he.2
  | Delete iri dataset delete_all => exact ⟨fun _ h => h, fun _ doc' h => delete_attr_lawful hd he h⟩

/-- The entity reaches the local store, and is the one meant. -/
def Reached (r : Request) (iris : List String) (doc : Map) : Prop :=
  proxies_cover_all r.regs iris = false ∧ r.selected doc = true

theorem lawful_refl {e : Edit} {doc : Map} (hd : Formed doc) : Lawful e doc doc := by
  refine ⟨⟨hd, fun _ _ _ _ => rfl, fun k _ ds ci ci' h h' c hc => ?_, fun _ _ _ _ _ h => h⟩, fun _ => rfl⟩
  rw [h] at h'
  cases h'
  exact hc

theorem perform_planned {r : Request} {iris : List String} {e : Edit} {doc : Map} (h : planned x texts r = .ok (iris, e)) :
    perform x texts r doc = locally r iris doc (fun doc => e.run r.ts doc) := by
  rw [perform_eq, h]
  rfl

/-- What an accepted request leaves is its edit's, or the entity as it was. -/
theorem perform_ok {r : Request} {doc doc' : Map} (h : perform x texts r doc = .ok doc') :
    ∃ iris e, planned x texts r = .ok (iris, e) ∧ (doc' = doc ∨ Reached r iris doc ∧ e.run r.ts doc = .ok doc') := by
  rw [perform_eq] at h
  obtain ⟨⟨iris, e⟩, hplan, h⟩ := bind_eq_ok.mp h
  refine ⟨iris, e, hplan, ?_⟩
  dsimp only at h
  rw [locally] at h
  split_ifs at h with hcover hselected
  · cases h
    exact .inl rfl
  · exact .inr ⟨⟨Bool.not_eq_true _ ▸ hcover, hselected⟩, h⟩

variable (x texts)

theorem formed_perform {r : Request} {doc doc' : Map} (hd : Formed doc) (h : perform x texts r doc = .ok doc') : Formed doc' := by
  obtain ⟨iris, e, hplan, rfl | ⟨-, hrun⟩⟩ := perform_ok h
  · exact hd
  · exact (Edit.sound (planned_fits hplan) hd hrun).formed

/-- The entity after a request; one that is refused leaves it. -/
def after (doc : Map) (r : Request) : Map := (perform x texts r doc).toOption.getD doc

/-- Any sequence of requests leaves arrays of instances of different datasets. -/
theorem formed_run (rs : List Request) {doc : Map} (hd : Formed doc) : Formed (rs.foldl (after x texts) doc) := by
  induction rs generalizing doc with
  | nil => exact hd
  | cons r rs ih =>
      apply ih
      rw [after]
      cases h : perform x texts r doc with
      | error e => exact hd
      | ok doc' => exact formed_perform x texts hd h

/-- Whatever a request leaves stored is lawful. -/
def AllLawful (r : Request) (doc : Map) : Prop :=
  ∀ iris e doc', planned x texts r = .ok (iris, e) → perform x texts r doc = .ok doc' → Lawful e doc doc'

/-- A request is lawful exactly where it does not reach an entity that it stamps and otherwise leaves. -/
theorem attribute_write_lawful_iff (r : Request) {doc : Map} (hd : Formed doc) : AllLawful x texts r doc ↔
    ¬ ∃ iris e, planned x texts r = .ok (iris, e) ∧ Reached r iris doc ∧ e.Needless r.ts doc := by
  constructor
  · rintro h ⟨iris, e, hplan, hreach, hneedless⟩
    refine (Edit.lawful (planned_fits hplan) hd).mp (fun doc' hrun => h iris e doc' hplan ?_) hneedless
    rw [perform_planned hplan, locally, hreach.1, if_neg Bool.false_ne_true, if_pos hreach.2, hrun]
  · intro h iris e doc' hplan hperform
    obtain ⟨iris', e', hplan', hleft⟩ := perform_ok hperform
    rw [hplan', Except.ok.injEq, Prod.mk.injEq] at hplan
    obtain ⟨rfl, rfl⟩ := hplan
    rcases hleft with rfl | ⟨hreach, hrun⟩
    · exact lawful_refl hd
    · have hnot : ¬ e'.Needless r.ts doc := fun hneedless => h ⟨iris', e', hplan', hreach, hneedless⟩
      exact (Edit.lawful (planned_fits hplan') hd).mpr hnot doc' hrun

/-- No geometry is text, and numbers are not printed. -/
def no_texts : Texts := ⟨fun _ => none, fun _ => "", id⟩

/-- A truck at rest, last written in the morning. -/
def resting : Map := [
  ("id", .string "urn:t"), ("modifiedAt", .string "2026-01-01T06:00:00.000Z"), ("type", .array [.string "urn:Truck"]),
  ("urn:speed", .array [property "slow"])]

/-- An update that is to take out a load the truck does not have. -/
def unload : Request where
  operation := .Update [("urn:load", .string NGSI_NULL)]
  regs := []
  selected _ := true
  ts := "2026-01-01T12:00:00.000Z"

def stop_counting : Request := { unload with operation := .Delete "urn:speed" none false }

theorem formed_resting : Formed resting := by
  have hattr : ∀ p ∈ resting, p.1 ∈ META ∨ p = ("urn:speed", .array [property "slow"]) := by decide
  have hsorted : resting.Pairwise (fun p q => p.1 < q.1) := by decide
  have hexpires : resting.lookup "expiresAt" = none := by decide
  refine ⟨hsorted, fun v hv => ?_, fun k v hk hv => ?_⟩
  · rw [hexpires] at hv
    cases hv
  rcases hattr _ (mem_of_lookup hv) with hmeta | heq
  · exact absurd hmeta hk
  · cases heq
    refine ⟨_, rfl, by decide, ?_, List.nodup_singleton _⟩
    exact List.forall_mem_singleton.mpr ⟨_, rfl, sorted_valued _ _⟩

theorem resting_stays_formed : Formed ([unload, stop_counting].foldl (after plain_attributes no_texts) resting) :=
  formed_run plain_attributes no_texts [unload, stop_counting] formed_resting

theorem deletion_lawful : AllLawful plain_attributes no_texts stop_counting resting := by
  apply (attribute_write_lawful_iff plain_attributes no_texts stop_counting formed_resting).mpr
  rintro ⟨iris, e, hplan, -, hneedless⟩
  rw [planned.eq_def] at hplan
  obtain ⟨iri, -, heq⟩ := map_eq_ok.mp hplan
  cases heq
  exact hneedless

/-- The update changes nothing of the truck, and stamps it. -/
theorem needless_update_stamps : Formed resting ∧ ¬ AllLawful plain_attributes no_texts unload resting ∧
    perform plain_attributes no_texts unload resting =
      .ok (insert "modifiedAt" (.string "2026-01-01T12:00:00.000Z") resting) := by
  have hperform : perform plain_attributes no_texts unload resting =
      .ok (insert "modifiedAt" (.string "2026-01-01T12:00:00.000Z") resting) := by decide
  refine ⟨formed_resting, fun h => ?_, hperform⟩
  obtain ⟨iris, e, hplan, -⟩ := perform_ok hperform
  have hsame : Unchanged resting (insert "modifiedAt" (.string "2026-01-01T12:00:00.000Z") resting) :=
    ⟨fun k hk => by rw [lookup_insert, if_neg (not_meta_ne hk (by decide))], by decide, by decide⟩
  have hstill := (h iris e _ hplan hperform).still hsame
  have hmoved : insert "modifiedAt" (.string "2026-01-01T12:00:00.000Z") resting ≠ resting := by decide
  exact hmoved hstill

end Requests

end AntaresBroker.Attrs
