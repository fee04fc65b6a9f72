import AntaresBroker.Registry
import Mathlib.Data.Fintype.EquivFin

namespace AntaresBroker.Registry.Union

open Json Ql Ql.Eval Registry

def text (key : String) (v : Value) : Option String := (v.get key).bind Value.as_str

def selectors (sub : Value) : List Value := ((sub.get "entities").bind Value.as_array).getD []

/-- What is watched, and what is notified about. -/
def watched (sub : Value) : List String :=
  (names_of sub "watchedAttributes").getD [] ++ ((sub.get "notification").bind (names_of · "attributes")).getD []

/-- An empty list restricts nothing. -/
def nonempty (l : List String) : Option (List String) := if l = [] then none else some l

/-- One specification of a list of selectors: all types, all ids, the first pattern. -/
def spec_of (entities : List Value) (attrs : List String) : CsrSpec where
  types := nonempty (entities.filterMap (text "type"))
  ids := nonempty (entities.filterMap (text "id"))
  id_pattern := entities.findSome? (text "idPattern")
  attrs := nonempty attrs
  dataset_ids := none
  csf := none
  geo := none
  temporal := none

def spec_for_subscription (sub : Value) : CsrSpec := spec_of (selectors sub) (watched sub)

variable (env : Env)

def csr_matches (spec : CsrSpec) (doc : Value) : Bool := !(matching_infos env spec doc).isEmpty

section Parts

/-- The types of a specification against those an EntityInfo names. -/
def types_match (types : Option (List String)) (its : List String) : Bool :=
  !types.any (fun types => its ≠ [] && !types.any (names_type env its))

/-- The ids and the pattern of a specification against those of an EntityInfo. -/
def ids_match (ids : Option (List String)) (id_pattern rid rpat : Option String) : Bool :=
  (rid = none && rpat = none) || ids.any (fun ids => rid.any (fun rid => ids.contains rid) ||
      rpat.any (fun p => ids.any (finds env p))) ||
    id_pattern.any (fun qp => rid.any (finds env qp) || rpat.isSome) || (ids = none && id_pattern = none)

theorem entity_info_matches_eq (spec : CsrSpec) (ei : Value) :
    entity_info_matches env spec ei =
      (types_match env spec.types (ei_types ei) && ids_match env spec.ids spec.id_pattern (text "id" ei) (text "idPattern" ei)) := by
  have hchain (a b c d e : Bool) :
      (if a then false else if b then true else if c then true else if d then true else e) = (!a && (b || c || d || e)) := by
    cases a <;> cases b <;> cases c <;> cases d <;> rfl
  exact hchain _ _ _ _ _

/-- An EntityInfo of types, or of an id and a pattern. -/
def typed_info (its : List String) : Value := .object [("type", .array (its.map Value.string))]

def named_info (rid rpat : Option String) : Value :=
  .object ((rid.map (fun i => ("id", Value.string i))).toList ++ (rpat.map (fun p => ("idPattern", Value.string p))).toList)

@[simp] theorem typed_info_types (its : List String) : ei_types (typed_info its) = its := by
  have h : ei_types (typed_info its) = (its.map Value.string).filterMap Value.as_str := rfl
  rw [h, List.filterMap_map]
  exact List.filterMap_some

@[simp] theorem named_info_types (rid rpat : Option String) : ei_types (named_info rid rpat) = [] := by
  cases rid <;> cases rpat <;> rfl

@[simp] theorem named_info_id (rid rpat : Option String) : text "id" (named_info rid rpat) = rid := by
  cases rid <;> cases rpat <;> rfl

@[simp] theorem named_info_pattern (rid rpat : Option String) : text "idPattern" (named_info rid rpat) = rpat := by
  cases rid <;> cases rpat <;> rfl

/-- An EntityInfo without a type is not restricted by types. -/
theorem types_match_nil (types : Option (List String)) : types_match env types [] = true := by
  cases types <;> rfl

/-- A registration that offers one EntityInfo and all its attributes. -/
def offering (ei : Value) : Value := .object [("information", .array [.object [("entities", .array [ei])]])]

theorem csr_matches_offering (spec : CsrSpec) (ei : Value) :
    csr_matches env spec (offering ei) = entity_info_matches env spec ei := by
  have hattrs : attrs_match_info spec.attrs (.object [("entities", .array [ei])]) = true := by
    have hprops : names_of (.object [("entities", .array [ei])]) "propertyNames" = none := rfl
    have hrels : names_of (.object [("entities", .array [ei])]) "relationshipNames" = none := rfl
    cases spec.attrs <;> simp [attrs_match_info, hprops, hrels]
  have hinfo : info_matches env spec (.object [("entities", .array [ei])]) = entity_info_matches env spec ei := by
    rw [info_matches, hattrs, Bool.and_true]
    exact List.any_cons.trans (Bool.or_false _)
  have hinfos : matching_infos env spec (offering ei) =
      [Value.object [("entities", .array [ei])]].filter (info_matches env spec) := rfl
  rw [csr_matches, hinfos, List.filter_singleton, hinfo]
  cases entity_info_matches env spec ei <;> rfl

/-- One specification matches all that another does exactly where its types do and its ids and pattern do. -/
theorem csr_matches_kept {s u : CsrSpec} (hattrs : s.attrs = u.attrs) :
    (∀ doc, csr_matches env s doc = true → csr_matches env u doc = true) ↔
      (∀ its, types_match env s.types its = true → types_match env u.types its = true) ∧
      ∀ rid rpat, ids_match env s.ids s.id_pattern rid rpat = true → ids_match env u.ids u.id_pattern rid rpat = true := by
  constructor
  · intro h
    have hei (ei : Value) (hs : entity_info_matches env s ei = true) : entity_info_matches env u ei = true := by
      rw [← csr_matches_offering] at hs ⊢
      exact h _ hs
    constructor
    · intro its hits
      have hfree (spec : CsrSpec) : entity_info_matches env spec (typed_info its) = types_match env spec.types its := by
        rw [entity_info_matches_eq, typed_info_types]
        exact Bool.and_true _
      rw [← hfree] at hits ⊢
      exact hei _ hits
    · intro rid rpat hids
      have hfree (spec : CsrSpec) :
          entity_info_matches env spec (named_info rid rpat) = ids_match env spec.ids spec.id_pattern rid rpat := by
        rw [entity_info_matches_eq, named_info_types, named_info_id, named_info_pattern, types_match_nil, Bool.true_and]
      rw [← hfree] at hids ⊢
      exact hei _ hids
  · rintro ⟨htypes, hids⟩ doc hdoc
    have hei (ei : Value) (hs : entity_info_matches env s ei = true) : entity_info_matches env u ei = true := by
      rw [entity_info_matches_eq, Bool.and_eq_true] at hs ⊢
      exact ⟨htypes _ hs.1, hids _ _ hs.2⟩
    have hinfo (info : Value) (hs : info_matches env s info = true) : info_matches env u info = true := by
      unfold info_matches at hs ⊢
      rw [Bool.and_eq_true] at hs ⊢
      refine ⟨?_, hattrs ▸ hs.2⟩
      cases hes : (info.get "entities").bind Value.as_array with
      | none => rfl
      | some es =>
          rw [hes] at hs
          obtain ⟨ei, hmem, hmatch⟩ := List.any_eq_true.mp hs.1
          exact List.any_eq_true.mpr ⟨ei, hmem, hei ei hmatch⟩
    have hnonempty (spec : CsrSpec) :
        csr_matches env spec doc = true ↔ ∃ info ∈ ((doc.get "information").bind Value.as_array).getD [],
          info_matches env spec info = true := by
      simp [csr_matches, matching_infos, List.filter_eq_nil_iff]
    rw [hnonempty] at hdoc ⊢
    obtain ⟨info, hmem, hmatch⟩ := hdoc
    exact ⟨info, hmem, hinfo info hmatch⟩

end Parts

section Selectors

/-- A text that is in no list of finitely many. -/
theorem exists_fresh (l : List String) : ∃ s, s ∉ l := by
  obtain ⟨s, hs⟩ := Infinite.exists_notMem_finset l.toFinset
  exact ⟨s, by simpa using hs⟩

/-- Finitely many type selections do not select every type. -/
theorem exists_unnamed (ts : List String) : ∃ t, ts.any (names_type env [t]) = false := by
  let terms := fun sel : String => (sel.toList.splitOnP (fun c => c = ',' || c = '|')).flatMap (fun alt =>
    ((strip_parens (trim alt)).splitOn ';').map (fun t => env.expand (String.ofList (trim t))))
  obtain ⟨t, ht⟩ := exists_fresh (ts ++ ts.flatMap terms)
  rw [List.mem_append, not_or] at ht
  refine ⟨t, List.any_eq_false.mpr ?_⟩
  intro sel hsel hnamed
  rw [names_type, Bool.or_eq_true] at hnamed
  rcases hnamed with hnamed | hnamed
  · rw [List.contains_iff_mem, List.mem_singleton] at hnamed
    exact ht.1 (hnamed ▸ hsel)
  · obtain ⟨alt, halt, hall⟩ := List.any_eq_true.mp hnamed
    obtain ⟨first, rest, hfirst⟩ := List.exists_cons_of_ne_nil (List.splitOn_ne_nil ';' (strip_parens (trim alt)))
    rw [hfirst, List.all_cons, Bool.and_eq_true, List.contains_iff_mem, List.mem_singleton] at hall
    refine ht.2 (List.mem_flatMap.mpr ⟨sel, hsel, List.mem_flatMap.mpr ⟨alt, halt, ?_⟩⟩)
    rw [hfirst, List.map_cons, hall.1]
    exact List.mem_cons_self

/-- Restricted types stay matched by more types, and unrestricted ones only without any. -/
theorem types_match_kept {ts us : List String} (h : ∀ t ∈ ts, t ∈ us) :
    (∀ its, types_match env (nonempty ts) its = true → types_match env (nonempty us) its = true) ↔ (ts = [] → us = []) := by
  constructor
  · intro hkept hts
    by_contra hus
    obtain ⟨t, ht⟩ := exists_unnamed env us
    have hmatch := hkept [t] (by simp [types_match, nonempty, hts])
    simp [types_match, nonempty, hus, ht] at hmatch
  · intro himp its hits
    by_cases hus : us = []
    · simp [types_match, nonempty, hus]
    · have hts : ts ≠ [] := fun hts => hus (himp hts)
      simp only [types_match, nonempty, hts, hus, if_false, Option.any_some, Bool.not_eq_true', Bool.and_eq_false_iff,
        decide_eq_false_iff_not, not_not, Bool.not_eq_false'] at hits ⊢
      rcases hits with hnil | hnamed
      · exact .inl hnil
      · obtain ⟨t, ht, hnamed⟩ := List.any_eq_true.mp hnamed
        exact .inr (List.any_eq_true.mpr ⟨t, h t ht, hnamed⟩)

theorem ids_match_iff {ids : List String} {id_pattern rid rpat : Option String} :
    ids_match env (nonempty ids) id_pattern rid rpat = true ↔
      (rid = none ∧ rpat = none) ∨ (∃ r, rid = some r ∧ r ∈ ids) ∨
        (∃ p, rpat = some p ∧ ∃ i ∈ ids, finds env p i = true) ∨
        (∃ q, id_pattern = some q ∧ ((∃ r, rid = some r ∧ finds env q r = true) ∨ rpat ≠ none)) ∨
        (ids = [] ∧ id_pattern = none) := by
  by_cases hids : ids = [] <;> cases id_pattern <;> cases rid <;> cases rpat <;>
    simp [ids_match, nonempty, hids, List.any_eq_true]

/-- What is matched by ids and a pattern stays matched by more of them: for an
unrestricted specification only if the new one is, or its pattern takes all
other ids, and for a pattern if what it finds is named or found by the new one. -/
theorem ids_match_kept {is us : List String} {p q : Option String} (hsub : ∀ i ∈ is, i ∈ us)
    (hpat : p ≠ none → q ≠ none) :
    (∀ rid rpat, ids_match env (nonempty is) p rid rpat = true → ids_match env (nonempty us) q rid rpat = true) ↔
      (is = [] ∧ p = none → (us = [] ∧ q = none) ∨ ∃ w, q = some w ∧ ∀ r, r ∈ us ∨ finds env w r = true) ∧
      ∀ w, p = some w → ∀ r, finds env w r = true → r ∈ us ∨ ∃ v, q = some v ∧ finds env v r = true := by
  simp only [ids_match_iff]
  constructor
  · intro h
    constructor
    · rintro ⟨rfl, rfl⟩
      have hall (r : String) : r ∈ us ∨ (∃ w, q = some w ∧ finds env w r = true) ∨ us = [] ∧ q = none := by
        simpa using h (some r) none
      cases q with
      | none =>
          obtain ⟨r, hr⟩ := exists_fresh us
          exact .inl (by simpa [hr] using hall r)
      | some w => exact .inr ⟨w, rfl, fun r => by simpa using hall r⟩
    · rintro w rfl r hr
      obtain ⟨v, rfl⟩ := Option.ne_none_iff_exists'.mp (hpat (by simp))
      simpa [hr] using h (some r) none
  · rintro ⟨hfree, hfound⟩ rid rpat (hnone | ⟨r, rfl, hr⟩ | ⟨w, rfl, i, hi, hw⟩ | ⟨w, rfl, hw⟩ | hs)
    · exact .inl hnone
    · exact .inr (.inl ⟨r, rfl, hsub r hr⟩)
    · exact .inr (.inr (.inl ⟨w, rfl, i, hsub i hi, hw⟩))
    · obtain ⟨v, rfl⟩ := Option.ne_none_iff_exists'.mp (hpat (by simp))
      rcases hw with ⟨r, rfl, hr⟩ | hrpat
      · rcases hfound w rfl r hr with hmem | ⟨v', hv, hr⟩
        · exact .inr (.inl ⟨r, rfl, hmem⟩)
        · exact .inr (.inr (.inr (.inl ⟨v', hv, .inl ⟨r, rfl, hr⟩⟩)))
      · exact .inr (.inr (.inr (.inl ⟨v, rfl, .inr hrpat⟩)))
    · rcases hfree hs with hu | ⟨w, rfl, hall⟩
      · exact .inr (.inr (.inr (.inr hu)))
      · cases rid with
        | none =>
            cases rpat with
            | none => exact .inl ⟨rfl, rfl⟩
            | some p => exact .inr (.inr (.inr (.inl ⟨w, rfl, .inr (by simp)⟩)))
        | some r =>
            rcases hall r with hmem | hr
            · exact .inr (.inl ⟨r, rfl, hmem⟩)
            · exact .inr (.inr (.inr (.inl ⟨w, rfl, .inl ⟨r, rfl, hr⟩⟩)))

variable {entities : List Value}

def Unrestricted (e : Value) : Prop := text "id" e = none ∧ text "idPattern" e = none

/-- The selectors that lose nothing by being put together. -/
structure Lossless (entities : List Value) : Prop where
  types : (∃ e ∈ entities, text "type" e = none) → ∀ e ∈ entities, text "type" e = none
  ids : (∃ e ∈ entities, Unrestricted e) → (∀ e ∈ entities, Unrestricted e) ∨
    ∃ p, entities.findSome? (text "idPattern") = some p ∧
      ∀ r, r ∈ entities.filterMap (text "id") ∨ finds env p r = true
  patterns : ∀ e ∈ entities, ∀ w, text "idPattern" e = some w → ∀ r, finds env w r = true →
    r ∈ entities.filterMap (text "id") ∨
      ∃ p, entities.findSome? (text "idPattern") = some p ∧ finds env p r = true

/-- A selector that takes nothing away from those before it. -/
structure Widens (entities : List Value) (e : Value) : Prop where
  types : (∀ e' ∈ entities, text "type" e' = none) → text "type" e = none
  ids : (∀ e' ∈ entities, Unrestricted e') → Unrestricted e ∨
    ∃ p, text "idPattern" e = some p ∧ ∀ r, text "id" e = some r ∨ finds env p r = true

theorem alone_kept {e : Value} (he : e ∈ entities) (attrs : List String) :
    (∀ doc, csr_matches env (spec_of [e] attrs) doc = true → csr_matches env (spec_of entities attrs) doc = true) ↔
      (text "type" e = none → ∀ e' ∈ entities, text "type" e' = none) ∧
      (Unrestricted e → (∀ e' ∈ entities, Unrestricted e') ∨ ∃ p, entities.findSome? (text "idPattern") = some p ∧
        ∀ r, r ∈ entities.filterMap (text "id") ∨ finds env p r = true) ∧
      ∀ w, text "idPattern" e = some w → ∀ r, finds env w r = true → r ∈ entities.filterMap (text "id") ∨
        ∃ p, entities.findSome? (text "idPattern") = some p ∧ finds env p r = true := by
  have hmem (k : String) : ∀ t ∈ [e].filterMap (text k), t ∈ entities.filterMap (text k) := by
    intro t ht
    obtain ⟨e', he', ht⟩ := List.mem_filterMap.mp ht
    rw [List.mem_singleton.mp he'] at ht
    exact List.mem_filterMap.mpr ⟨e, he, ht⟩
  have hnil (k : String) : [e].filterMap (text k) = [] ↔ text k e = none := by simp [List.filterMap_eq_nil_iff]
  have hfirst : [e].findSome? (text "idPattern") = text "idPattern" e := by simp
  have hpat : [e].findSome? (text "idPattern") ≠ none → entities.findSome? (text "idPattern") ≠ none := by
    rw [hfirst]
    intro h hnone
    exact h (List.findSome?_eq_none_iff.mp hnone e he)
  rw [csr_matches_kept env (by rfl)]
  apply and_congr
  · apply (types_match_kept env (hmem "type")).trans
    rw [hnil, List.filterMap_eq_nil_iff]
  · apply (ids_match_kept env (hmem "id") hpat).trans
    rw [hnil, hfirst, List.filterMap_eq_nil_iff, List.findSome?_eq_none_iff]
    simp only [Unrestricted, forall_and]

theorem lossless_iff (attrs : List String) :
    (∀ e ∈ entities, ∀ doc, csr_matches env (spec_of [e] attrs) doc = true →
      csr_matches env (spec_of entities attrs) doc = true) ↔ Lossless env entities := by
  constructor
  · intro h
    refine ⟨?_, ?_, ?_⟩
    · rintro ⟨e, he, htype⟩
      exact ((alone_kept env he attrs).mp (h e he)).1 htype
    · rintro ⟨e, he, hfree⟩
      exact ((alone_kept env he attrs).mp (h e he)).2.1 hfree
    · intro e he
      exact ((alone_kept env he attrs).mp (h e he)).2.2
  · rintro ⟨htypes, hids, hpatterns⟩ e he
    exact (alone_kept env he attrs).mpr ⟨fun h => htypes ⟨e, he, h⟩, fun h => hids ⟨e, he, h⟩, hpatterns e he⟩

theorem widens_iff (e : Value) (attrs : List String) :
    (∀ doc, csr_matches env (spec_of entities attrs) doc = true →
      csr_matches env (spec_of (entities ++ [e]) attrs) doc = true) ↔ Widens env entities e := by
  have hmem (k : String) : ∀ t ∈ entities.filterMap (text k), t ∈ (entities ++ [e]).filterMap (text k) := by
    intro t ht
    rw [List.filterMap_append]
    exact List.mem_append_left _ ht
  have hnil (k : String) : (entities ++ [e]).filterMap (text k) = [] ↔
      (∀ e' ∈ entities, text k e' = none) ∧ text k e = none := by
    simp [List.filterMap_eq_nil_iff]
  have hfirst : (entities ++ [e]).findSome? (text "idPattern") =
      (entities.findSome? (text "idPattern")).or (text "idPattern" e) := by
    simp [List.findSome?_append]
  have hpat : entities.findSome? (text "idPattern") ≠ none → (entities ++ [e]).findSome? (text "idPattern") ≠ none := by
    rw [hfirst]
    cases entities.findSome? (text "idPattern") <;> simp
  apply (csr_matches_kept env (by rfl)).trans
  apply (and_congr (types_match_kept env (hmem "type")) (ids_match_kept env (hmem "id") hpat)).trans
  constructor
  · rintro ⟨htypes, hids, -⟩
    refine ⟨fun h => ((hnil "type").mp (htypes (List.filterMap_eq_nil_iff.mpr h))).2, ?_⟩
    intro hfree
    have hfree_ids := List.filterMap_eq_nil_iff.mpr (fun e' he' => (hfree e' he').1)
    have hfree_pattern := List.findSome?_eq_none_iff.mpr (fun e' he' => (hfree e' he').2)
    rcases hids ⟨hfree_ids, hfree_pattern⟩ with ⟨hids, hpattern⟩ | ⟨w, hw, hall⟩
    · rw [hfirst, hfree_pattern, Option.none_or] at hpattern
      exact .inl ⟨((hnil "id").mp hids).2, hpattern⟩
    · rw [hfirst, hfree_pattern, Option.none_or] at hw
      refine .inr ⟨w, hw, fun r => ?_⟩
      simpa [hfree_ids] using hall r
  · rintro ⟨htypes, hids⟩
    refine ⟨?_, ?_, ?_⟩
    · intro h
      have hnone := List.filterMap_eq_nil_iff.mp h
      exact (hnil "type").mpr ⟨hnone, htypes hnone⟩
    · rintro ⟨hfree_ids, hfree_pattern⟩
      have hfree : ∀ e' ∈ entities, Unrestricted e' := fun e' he' =>
        ⟨List.filterMap_eq_nil_iff.mp hfree_ids e' he', List.findSome?_eq_none_iff.mp hfree_pattern e' he'⟩
      rw [hfirst, hfree_pattern, Option.none_or]
      rcases hids hfree with ⟨hid, hpattern⟩ | ⟨w, hw, hall⟩
      · exact .inl ⟨(hnil "id").mpr ⟨fun e' he' => (hfree e' he').1, hid⟩, hpattern⟩
      · refine .inr ⟨w, hw, fun r => ?_⟩
        simpa [hfree_ids] using hall r
    · intro w hw r hr
      exact .inr ⟨w, by rw [hfirst, hw, Option.some_or], hr⟩

/-- The selectors of a subscription lose no registration that one of them
reaches alone exactly where they are lossless, and a further selector loses
none exactly where it widens them. -/
theorem spec_for_subscription_keeps (sub : Value) :
    ((∀ e ∈ selectors sub, ∀ reg, csr_matches env (spec_of [e] (watched sub)) reg = true →
        csr_matches env (spec_for_subscription sub) reg = true) ↔ Lossless env (selectors sub)) ∧
      ∀ e, (∀ reg, csr_matches env (spec_for_subscription sub) reg = true →
        csr_matches env (spec_of (selectors sub ++ [e]) (watched sub)) reg = true) ↔ Widens env (selectors sub) e :=
  ⟨lossless_iff env (watched sub), fun e => widens_iff env e (watched sub)⟩

def room : Value := .object [("type", .string "https://example.org/Room")]

def one_device : Value :=
  .object [("id", .string "urn:ngsi-ld:Device:1"), ("type", .string "https://example.org/Device")]

def one_room : Value :=
  .object [("id", .string "urn:ngsi-ld:Room:7"), ("type", .string "https://example.org/Room")]

/-- All rooms and one device: a source of one room has another id than the device. -/
def rooms_and_device : Value := .object [("entities", .array [room, one_device])]

theorem room_source_lost :
    ¬ ∀ e ∈ selectors rooms_and_device, ∀ reg,
      csr_matches one_vocabulary (spec_of [e] (watched rooms_and_device)) reg = true →
        csr_matches one_vocabulary (spec_for_subscription rooms_and_device) reg = true := by
  intro h
  have hmatch : csr_matches one_vocabulary (spec_of [room] (watched rooms_and_device)) (offering one_room) = true := by
    decide
  have hlost : csr_matches one_vocabulary (spec_for_subscription rooms_and_device) (offering one_room) = false := by
    decide
  rw [h room (List.mem_cons_self) _ hmatch] at hlost
  cases hlost

end Selectors

end AntaresBroker.Registry.Union
