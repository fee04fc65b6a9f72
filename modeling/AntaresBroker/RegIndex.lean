import AntaresBroker.Buckets
import AntaresBroker.Registry

namespace AntaresBroker.Registry

open Json Buckets Ql Ql.Eval Expiry

/-- The entities of a RegistrationInfo that restricts some. -/
def entities_of (info : Value) : Option (List Value) :=
  match (info.get "entities").bind Value.as_array with
  | none | some [] => none
  | some es => some es

/-- The one id of an EntityInfo that no pattern widens. -/
def id_key (ei : Value) : Option String :=
  if (ei.get "idPattern").isSome then none else (ei.get "id").bind Value.as_str

/-- The type and id keys of a registration; `none` for a dimension that
cannot decide it. -/
def reg_keys (doc : Value) : Option (List String) × Option (List String) :=
  match (doc.get "information").bind Value.as_array with
  | none | some [] => (none, none)
  | some infos =>
      match infos.mapM entities_of with
      | none => (none, none)
      | some entities =>
          (if entities.flatten.any (fun ei => ei_types ei = []) then none else some (entities.flatten.flatMap ei_types),
            if entities.flatten.any (fun ei => id_key ei = none) then none
            else some (entities.flatten.filterMap id_key))

def type_keys (doc : Value) : Option (List String) := (reg_keys doc).1

def id_keys (doc : Value) : Option (List String) := (reg_keys doc).2

/-- The registrations of one tenant, with the keys of both dimensions. -/
structure RegIndex where
  docs : BTreeMap String Value
  by_type : Buckets String String
  by_id : Buckets String String

namespace RegIndex

def empty : RegIndex := ⟨BTreeMap.empty, Buckets.empty, Buckets.empty⟩

def remove (r : RegIndex) (id : String) : RegIndex :=
  match r.docs.get id with
  | none => r
  | some old =>
      { docs := r.docs.remove id
        by_type := unfile id (reg_keys old).1 r.by_type
        by_id := unfile id (reg_keys old).2 r.by_id }

def insert (r : RegIndex) (id : String) (doc : Value) : RegIndex :=
  let r := r.remove id
  { docs := r.docs.insert id doc
    by_type := file id (reg_keys doc).1 r.by_type
    by_id := file id (reg_keys doc).2 r.by_id }

end RegIndex

abbrev DocMirror := BTreeMap String RegIndex

/-- One delta of the registration feed; without a document the id is gone. -/
structure Delta where
  tenant : String
  id : String
  doc : Option Value

def apply (m : DocMirror) (d : Delta) : DocMirror :=
  match d.doc with
  | some doc => m.insert d.tenant (((m.get d.tenant).getD RegIndex.empty).insert d.id doc)
  | none =>
      match m.get d.tenant with
      | none => m
      | some t => if (t.remove d.id).docs.is_empty then m.remove d.tenant else m.insert d.tenant (t.remove d.id)

/-- The registrations that both dimensions let through. -/
def picked (m : DocMirror) (tenant : String) (ids types : Option (List String)) : List (String × Value) :=
  match m.get tenant with
  | none => []
  | some t =>
      let by_type := bucketed types t.by_type
      let by_id := bucketed ids t.by_id
      t.docs.entries.filter (fun p => by_type.all (fun s => p.1 ∈ s) && by_id.all (fun s => p.1 ∈ s))

def matching (m : DocMirror) (tenant : String) (ids types : Option (List String)) : List Value :=
  (picked m tenant ids types).map Prod.snd

/-- The characters of an Entity Type Selection that names more than one type. -/
def is_selection (t : String) : Bool := t.toList.any [',', ';', '|', '(', ')', '*'].contains

/-- The types a read narrows on: none when one of them is a selection. -/
def narrow_types (expand : String → String) (types : Option (List String)) : Option (List String) :=
  (types.filter (fun ts => !ts.any is_selection)).map (fun ts => ts.map expand)

def narrow_ids (spec : CsrSpec) : Option (List String) := if spec.id_pattern = none then spec.ids else none

/-- The registrations a distributed operation looks at, from the mirror. -/
def reg_docs (expand : String → String) (m : DocMirror) (tenant : String) (spec : CsrSpec) : List (String × Value) :=
  picked m tenant (narrow_ids spec) (narrow_types expand spec.types)

section Invariant

/-- Both dimensions file exactly the documents of the index. -/
structure Indexed (r : RegIndex) : Prop where
  by_type : Indexes type_keys r.docs.get r.by_type
  by_id : Indexes id_keys r.docs.get r.by_id

theorem indexed_empty : Indexed RegIndex.empty where
  by_type := indexes_empty _ (fun _ => rfl)
  by_id := indexes_empty _ (fun _ => rfl)

theorem remove_docs (r : RegIndex) (id j : String) : (r.remove id).docs.get j = if j = id then none else r.docs.get j := by
  unfold RegIndex.remove
  cases h : r.docs.get id with
  | none =>
      by_cases hj : j = id
      · rw [if_pos hj, hj, h]
      · rw [if_neg hj]
  | some old => exact BTreeMap.get_remove _ _ _

theorem insert_docs (r : RegIndex) (id : String) (doc : Value) (j : String) :
    (r.insert id doc).docs.get j = if j = id then some doc else r.docs.get j := by
  unfold RegIndex.insert
  rw [BTreeMap.get_insert, remove_docs]
  by_cases hj : j = id
  · rw [if_pos hj, if_pos hj]
  · rw [if_neg hj, if_neg hj, if_neg hj]

theorem Indexed.remove {r : RegIndex} (h : Indexed r) (id : String) : Indexed (r.remove id) := by
  have hdocs := remove_docs r id
  unfold RegIndex.remove at hdocs ⊢
  cases hold : r.docs.get id with
  | none => exact h
  | some old =>
      simp only [hold] at hdocs
      exact ⟨h.by_type.unfile hold (by simp) (fun j hj => by simp [hj]),
        h.by_id.unfile hold (by simp) (fun j hj => by simp [hj])⟩

theorem Indexed.insert {r : RegIndex} (h : Indexed r) (id : String) (doc : Value) : Indexed (r.insert id doc) := by
  have hr := h.remove id
  have hnone : (r.remove id).docs.get id = none := by rw [remove_docs, if_pos rfl]
  exact ⟨hr.by_type.file hnone (by simp [RegIndex.insert]) (fun j hj => by simp [RegIndex.insert, hj]),
    hr.by_id.file hnone (by simp [RegIndex.insert]) (fun j hj => by simp [RegIndex.insert, hj])⟩

def IndexedAll (m : DocMirror) : Prop := ∀ tenant r, m.get tenant = some r → Indexed r

theorem apply_indexed {m : DocMirror} (h : IndexedAll m) (d : Delta) : IndexedAll (apply m d) := by
  intro tenant r hr
  unfold apply at hr
  cases hd : d.doc with
  | some doc =>
      rw [hd] at hr
      simp only [BTreeMap.get_insert] at hr
      split_ifs at hr with ht
      · obtain rfl := Option.some.inj hr
        cases hm : m.get d.tenant with
        | none => exact indexed_empty.insert d.id doc
        | some t => exact (h _ t hm).insert d.id doc
      · exact h tenant r hr
  | none =>
      rw [hd] at hr
      cases hm : m.get d.tenant with
      | none => rw [hm] at hr; exact h tenant r hr
      | some t =>
          simp only [hm] at hr
          split_ifs at hr with he
          · rw [BTreeMap.get_remove] at hr
            split_ifs at hr
            exact h tenant r hr
          · rw [BTreeMap.get_insert] at hr
            split_ifs at hr with ht
            · obtain rfl := Option.some.inj hr
              exact (h _ t hm).remove d.id
            · exact h tenant r hr

/-- The document of a registration in the mirror. -/
def doc_of (m : DocMirror) (tenant id : String) : Option Value := (m.get tenant).bind (fun r => r.docs.get id)

theorem doc_of_apply (m : DocMirror) (d : Delta) (tenant id : String) :
    doc_of (apply m d) tenant id = if tenant = d.tenant ∧ id = d.id then d.doc else doc_of m tenant id := by
  unfold doc_of apply
  cases hd : d.doc with
  | some doc =>
      simp only [BTreeMap.get_insert]
      by_cases ht : tenant = d.tenant
      · subst ht
        rw [if_pos rfl, Option.bind_some, insert_docs]
        by_cases hi : id = d.id
        · simp [hi]
        · rw [if_neg hi, if_neg (fun h => hi h.2)]
          cases m.get d.tenant <;> rfl
      · rw [if_neg ht, if_neg (fun h => ht h.1)]
  | none =>
      cases hm : m.get d.tenant with
      | none =>
          by_cases ht : tenant = d.tenant
          · subst ht; simp [hm]
          · rw [if_neg (fun h => ht h.1)]
      | some t =>
          simp only
          by_cases ht : tenant = d.tenant
          · subst ht
            by_cases he : (t.remove d.id).docs.is_empty = true
            · have hnone : (t.remove d.id).docs.get id = none := by
                rw [BTreeMap.is_empty_iff.mp he]; rfl
              rw [remove_docs] at hnone
              rw [if_pos he, BTreeMap.get_remove, if_pos rfl, Option.bind_none, hm, Option.bind_some]
              by_cases hi : id = d.id
              · simp [hi]
              · rw [if_neg (fun h => hi h.2)]
                rw [if_neg hi] at hnone
                exact hnone.symm
            · rw [if_neg he, BTreeMap.get_insert, if_pos rfl, Option.bind_some, remove_docs, hm, Option.bind_some]
              by_cases hi : id = d.id
              · simp [hi]
              · rw [if_neg hi, if_neg (fun h => hi h.2)]
          · have hne : ¬ (tenant = d.tenant ∧ id = d.id) := fun h => ht h.1
            by_cases he : (t.remove d.id).docs.is_empty = true
            · rw [if_pos he, BTreeMap.get_remove, if_neg ht, if_neg hne]
            · rw [if_neg he, BTreeMap.get_insert, if_neg ht, if_neg hne]

/-- The mirror after a list of deltas. -/
def replay (deltas : List Delta) : DocMirror := deltas.foldl apply BTreeMap.empty

/-- The document of the last delta that names a registration. -/
def last_applied (deltas : List Delta) (tenant id : String) : Option Value :=
  (deltas.reverse.find? (fun d => tenant = d.tenant && id = d.id)).bind Delta.doc

theorem replay_append (deltas : List Delta) (d : Delta) : replay (deltas ++ [d]) = apply (replay deltas) d := by
  simp [replay]

theorem replay_indexed (deltas : List Delta) : IndexedAll (replay deltas) := by
  induction deltas using List.reverseRecOn with
  | nil => exact fun _ _ h => by cases h
  | append_singleton deltas d ih => rw [replay_append]; exact apply_indexed ih d

theorem doc_of_replay (deltas : List Delta) (tenant id : String) :
    doc_of (replay deltas) tenant id = last_applied deltas tenant id := by
  induction deltas using List.reverseRecOn with
  | nil => rfl
  | append_singleton deltas d ih =>
      rw [replay_append, doc_of_apply, ih]
      simp only [last_applied, List.reverse_append, List.reverse_cons, List.reverse_nil, List.nil_append,
        List.singleton_append, List.find?_cons]
      by_cases h : tenant = d.tenant ∧ id = d.id
      · simp [h]
      · have hf : (decide (tenant = d.tenant) && decide (id = d.id)) = false := by
          rw [Bool.eq_false_iff]
          simpa using h
        rw [if_neg h, hf]

end Invariant

section Selection

/-- A document passes a dimension when nothing is asked of it, no key can
exclude the document, or it has one of the keys. -/
def Passes (keys : Value → Option (List String)) (asked : Option (List String)) (doc : Value) : Prop :=
  ∀ ks, asked = some ks → keys doc = none ∨ ∃ k ∈ ks, Keyed (keys doc) k

theorem passes_iff {keys : Value → Option (List String)} {docs : String → Option Value} {b : Buckets String String}
    (h : Indexes keys docs b) {asked : Option (List String)} {id : String} {doc : Value} (hd : docs id = some doc) :
    (bucketed asked b).all (fun s => id ∈ s) = true ↔ Passes keys asked doc := by
  cases asked with
  | none => simp [bucketed, Passes]
  | some ks =>
      have hmem := h.mem_bucketed (show bucketed (some ks) b = some _ from rfl) hd
      simp only [Passes, Option.some.injEq, forall_eq', ← hmem, bucketed, Option.map_some, Option.all_some,
        decide_eq_true_eq]

theorem mem_picked {deltas : List Delta} {tenant : String} {ids types : Option (List String)} {id : String}
    {doc : Value} : (id, doc) ∈ picked (replay deltas) tenant ids types ↔
      last_applied deltas tenant id = some doc ∧ Passes type_keys types doc ∧ Passes id_keys ids doc := by
  rw [← doc_of_replay, picked, doc_of]
  cases hm : (replay deltas).get tenant with
  | none => simp
  | some r =>
      have hr := replay_indexed deltas tenant r hm
      simp only [List.mem_filter, Option.bind_some, BTreeMap.mem_entries, Bool.and_eq_true]
      refine and_congr_right fun hd => ?_
      rw [passes_iff hr.by_type hd, passes_iff hr.by_id hd]

/-- The narrowing on types reaches a registration: nothing is asked, a selection is
asked, a type-less entry of the registration takes any, or one of the types asked
expands to a declared one as it stands. -/
def TypeReached (expand : String → String) (types : Option (List String)) (doc : Value) : Prop :=
  types = none ∨ (∃ ts, types = some ts ∧ ∃ t ∈ ts, is_selection t) ∨ type_keys doc = none ∨
    ∃ ts, types = some ts ∧ ∃ t ∈ ts, Keyed (type_keys doc) (expand t)

theorem passes_types_iff {expand : String → String} {types : Option (List String)} {doc : Value} :
    Passes type_keys (narrow_types expand types) doc ↔ TypeReached expand types doc := by
  cases types with
  | none => simp [Passes, narrow_types, TypeReached]
  | some ts =>
      by_cases hs : ts.any is_selection = true
      · have hsel : ∃ t ∈ ts, is_selection t := List.any_eq_true.mp hs
        simp [Passes, narrow_types, TypeReached, hsel]
      · have hsel : ¬ ∃ t ∈ ts, is_selection t := fun h => hs (List.any_eq_true.mpr h)
        have hnarrow : narrow_types expand (some ts) = some (ts.map expand) := by
          rw [narrow_types, Option.filter_some, if_pos (by simp [hs])]
          rfl
        have hmap : (∃ k ∈ ts.map expand, Keyed (type_keys doc) k) ↔ ∃ t ∈ ts, Keyed (type_keys doc) (expand t) := by
          simp
        simp only [hnarrow, Passes, TypeReached, Option.some.injEq, forall_eq', exists_eq_left', reduceCtorEq,
          false_or, hsel, hmap]

theorem id_keys_eq_some {doc : Value} {keys : List String} (h : id_keys doc = some keys) :
    ∃ infos entities, (doc.get "information").bind Value.as_array = some infos ∧ infos.mapM entities_of = some entities ∧
      (∀ ei ∈ entities.flatten, id_key ei ≠ none) ∧ keys = entities.flatten.filterMap id_key := by
  unfold id_keys reg_keys at h
  split at h
  · cases h
  · cases h
  · next infos _ hinfos =>
      cases he : infos.mapM entities_of with
      | none => simp [he] at h
      | some entities =>
          simp only [he] at h
          split_ifs at h with hall
          refine ⟨infos, entities, hinfos, he, ?_, (Option.some.inj h).symm⟩
          intro ei hei hnone
          exact hall (List.any_eq_true.mpr ⟨ei, hei, decide_eq_true hnone⟩)

theorem mem_flatten_of_mapM {infos : List Value} {entities : List (List Value)}
    (h : infos.mapM entities_of = some entities) {info : Value} (hinfo : info ∈ infos) :
    ∃ es, entities_of info = some es ∧ ∀ ei ∈ es, ei ∈ entities.flatten := by
  induction infos generalizing entities with
  | nil => cases hinfo
  | cons i infos ih =>
      rw [List.mapM_cons] at h
      obtain ⟨es, hes, h⟩ := Option.bind_eq_some_iff.mp h
      obtain ⟨rest, hrest, h⟩ := Option.bind_eq_some_iff.mp h
      obtain rfl := Option.some.inj h
      rcases List.mem_cons.mp hinfo with rfl | hinfo
      · exact ⟨es, hes, fun ei hei => List.mem_flatten.mpr ⟨es, List.mem_cons_self, hei⟩⟩
      · obtain ⟨es', hes', hmem⟩ := ih hrest hinfo
        exact ⟨es', hes', fun ei hei => by rw [List.flatten_cons]; exact List.mem_append_right _ (hmem ei hei)⟩

theorem entities_of_eq_some {info : Value} {es : List Value} (h : entities_of info = some es) :
    (info.get "entities").bind Value.as_array = some es := by
  unfold entities_of at h
  split at h
  · cases h
  · cases h
  · next es' _ hes' =>
      rw [← h]
      exact hes'

variable (env : Env) {Instant : Type} [LinearOrder Instant] (chrono : Chrono Instant)

/-- An EntityInfo that names one id and matches ids names one of them. -/
theorem entity_info_matches_id {spec : CsrSpec} {ei : Value} {ids : List String} (hids : spec.ids = some ids)
    (hpat : spec.id_pattern = none) (hkey : id_key ei ≠ none) (h : entity_info_matches env spec ei = true) :
    ∃ rid ∈ ids, id_key ei = some rid := by
  unfold id_key at hkey ⊢
  split_ifs at hkey ⊢ with hp
  · exact absurd rfl hkey
  have hnone : ei.get "idPattern" = none := Option.not_isSome_iff_eq_none.mp hp
  obtain ⟨rid, hrid⟩ := Option.ne_none_iff_exists'.mp hkey
  unfold entity_info_matches at h
  simp only [hrid, hnone, hids, hpat, Option.bind_none, Option.any_some] at h
  refine ⟨rid, ?_, hrid⟩
  split_ifs at h with h1 h2 h3 <;> simp_all

/-- The ids never exclude a registration the full match takes. -/
theorem passes_ids {now : String} {spec : CsrSpec} {seen : List String} {doc : Value} {infos : List Value}
    (h : reg_candidate env chrono now spec seen doc = some infos) : Passes id_keys (narrow_ids spec) doc := by
  intro ids hids
  obtain ⟨hpat, hids⟩ : spec.id_pattern = none ∧ spec.ids = some ids := by
    unfold narrow_ids at hids
    split_ifs at hids with hp
    exact ⟨hp, hids⟩
  refine or_iff_not_imp_left.mpr fun hkeys => ?_
  obtain ⟨keys, hkeys⟩ := Option.ne_none_iff_exists'.mp hkeys
  obtain ⟨all, entities, hall, hentities, hids_only, rfl⟩ := id_keys_eq_some hkeys
  obtain ⟨hinfos, hne, -⟩ := reg_candidate_infos env chrono h
  obtain ⟨info, hinfo⟩ := List.exists_mem_of_ne_nil infos hne
  rw [hinfos, matching_infos, hall, Option.getD_some, List.mem_filter] at hinfo
  obtain ⟨es, hes, hsub⟩ := mem_flatten_of_mapM hentities hinfo.1
  have hmatch := hinfo.2
  rw [info_matches, entities_of_eq_some hes, Bool.and_eq_true] at hmatch
  obtain ⟨ei, hei, hmatch⟩ := List.any_eq_true.mp hmatch.1
  obtain ⟨rid, hrid, hkey⟩ := entity_info_matches_id env hids hpat (hids_only ei (hsub ei hei)) hmatch
  exact ⟨rid, hrid, _, hkeys, List.mem_filterMap.mpr ⟨ei, hsub ei hei, hkey⟩⟩

/-- Over any feed the index hands out documents last applied only, and it hands out a
registration the full match takes just when the narrowing on types reaches it. -/
theorem reg_docs_exact (deltas : List Delta) (tenant now : String) (seen : List String) (spec : CsrSpec) :
    (∀ p ∈ reg_docs env.expand (replay deltas) tenant spec, last_applied deltas tenant p.1 = some p.2) ∧
      ∀ id doc infos, last_applied deltas tenant id = some doc → reg_candidate env chrono now spec seen doc = some infos →
        ((id, doc) ∈ reg_docs env.expand (replay deltas) tenant spec ↔ TypeReached env.expand spec.types doc) := by
  constructor
  · rintro ⟨id, doc⟩ hp
    exact (mem_picked.mp hp).1
  · intro id doc infos hlast hmatch
    rw [reg_docs, mem_picked, passes_types_iff]
    have hids := passes_ids env chrono hmatch
    exact ⟨fun h => h.2.1, fun h => ⟨hlast, h, hids⟩⟩

/-- A registration of vehicles at one source. -/
def vehicles : Value := .object [
  ("endpoint", .string "http://peer"),
  ("id", .string "urn:ngsi-ld:ContextSourceRegistration:1"),
  ("information", .array [.object [("entities", .array [.object [("type", .string "https://example.org/Vehicle")]])]])]

def typed (t : String) : CsrSpec := ⟨some [t], none, none, none, none, none, none, none⟩

def registered : List Delta := [⟨"default", "urn:ngsi-ld:ContextSourceRegistration:1", some vehicles⟩]

theorem reg_docs_exact_vehicles :
    ("urn:ngsi-ld:ContextSourceRegistration:1", vehicles) ∈
      reg_docs one_vocabulary.expand (replay registered) "default" (typed "Vehicle") := by
  obtain ⟨infos, hinfos⟩ := Option.isSome_iff_exists.mp (by decide :
    (reg_candidate one_vocabulary fixed_width "2024-01-01T00:00:00Z" (typed "Vehicle") [] vehicles).isSome)
  refine ((reg_docs_exact one_vocabulary fixed_width registered "default" "2024-01-01T00:00:00Z" [] (typed "Vehicle")).2 _ _ infos
    (by decide) hinfos).mpr (.inr (.inr (.inr ⟨_, rfl, "Vehicle", List.mem_singleton.mpr rfl, _, rfl, ?_⟩)))
  decide

/-- A blank before the type: the full match trims it, the index asks for the type with the blank. -/
theorem reg_docs_misses_blank :
    last_applied registered "default" "urn:ngsi-ld:ContextSourceRegistration:1" = some vehicles ∧
      (reg_candidate one_vocabulary fixed_width "2024-01-01T00:00:00Z" (typed " Vehicle") [] vehicles).isSome ∧
        reg_docs one_vocabulary.expand (replay registered) "default" (typed " Vehicle") = [] := by
  refine ⟨by decide, by decide, ?_⟩
  decide

end Selection

end AntaresBroker.Registry
