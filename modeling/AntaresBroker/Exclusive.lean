import AntaresBroker.Proxied

namespace AntaresBroker.Proxied

open Model Expiry Json Ql.Eval Registry

section Covering

variable (regex : String → Option (String → Bool))

/-- The id and the pattern of an EntityInfo, each when given, agree with an id. -/
def Names (x : Value) (id : String) : Prop :=
  (∀ i, id_of x = some i → i = id) ∧ ∀ p, pattern_of x = some p → (regex p).any (fun is_match => is_match id) = true

def Agrees (x : Value) (id : String) (types : List String) : Prop :=
  Names regex x id ∧ (ei_types x = [] ∨ ∃ t ∈ ei_types x, t ∈ types)

/-- A RegistrationInfo that names no attributes speaks of all. -/
def Speaks (info : Value) (attr : String) : Prop := attr_names info = [] ∨ attr ∈ attr_names info

def Covers (doc : Value) (id : String) (types : List String) (attr : String) : Prop :=
  ∃ info ∈ information doc, (∃ x ∈ entities info, Agrees regex x id types) ∧ Speaks info attr

/-- No entity and attribute is covered by both. -/
def Apart (doc other : Value) : Prop := ∀ id types attr, Covers regex doc id types attr → ¬Covers regex other id types attr

/-- At most the one exclusive registration, and no redirect beside it. -/
def Exclusive (s : State) : Prop :=
  ∀ i j doc other, s.docs.get i = some doc → s.docs.get j = some other → i ≠ j → reg_expired s.now doc = false →
    reg_expired s.now other = false → mode_of doc = some "exclusive" → proxied other = true → Apart regex doc other

/-- An exclusive registration names concrete ids and attributes throughout. -/
def Concrete (doc : Value) : Prop :=
  mode_of doc = some "exclusive" → ∀ info ∈ information doc, attr_names info ≠ [] ∧ entities info ≠ [] ∧
    ∀ x ∈ entities info, (id_of x).isSome ∧ x.get "idPattern" = none

/-- The EntityInfos of an entry are typed alike, and stand by their ids, by the
one pattern of the entry, or by their types alone. -/
structure PlainInfo (info : Value) : Prop where
  typed : (∀ x ∈ entities info, ei_types x = []) ∨ ∀ x ∈ entities info, ei_types x ≠ []
  named : ∀ x ∈ entities info, id_of x = none →
    (∃ p, pattern_of x = some p ∧ (entities info).findSome? pattern_of = some p) ∨
      ∀ y ∈ entities info, id_of y = none ∧ pattern_of y = none

/-- EntityInfos that meet in an entity and an attribute share a type, unless one
has none. -/
def Kindred (doc other : Value) : Prop :=
  ∀ info ∈ information doc, ∀ x ∈ entities info, ∀ info' ∈ information other, ∀ y ∈ entities info',
    (∃ id, Names regex x id ∧ Names regex y id) → (∃ attr, Speaks info attr ∧ Speaks info' attr) →
      ei_types x = [] ∨ ei_types y = [] ∨ ∃ t ∈ ei_types x, t ∈ ei_types y

end Covering

section Normal

structure NormalInfo (info : Value) : Prop where
  names : ∀ k, k = "propertyNames" ∨ k = "relationshipNames" → ∀ l, (info.get k).bind Value.as_array = some l →
    l ≠ [] ∧ ∀ n ∈ l, n.as_str.isSome
  entities : ∀ es, (info.get "entities").bind Value.as_array = some es → es ≠ []

def NormalValue (v : Value) : Prop := ∀ infos, v.as_array = some infos → ∀ info ∈ infos, NormalInfo info

theorem foldlM_keeps {α β : Type} {f : β → α → Option β} {P : β → Prop} (h : ∀ b a b', f b a = some b' → P b → P b')
    (l : List α) {b b' : β} (hl : l.foldlM f b = some b') (hb : P b) : P b' := by
  induction l generalizing b with
  | nil =>
      rw [List.foldlM_nil, Option.pure_def, Option.some.injEq] at hl
      exact hl ▸ hb
  | cons a l ih =>
      rw [List.foldlM_cons] at hl
      obtain ⟨c, hc, hl⟩ := Option.bind_eq_some_iff.mp hl
      exact ih hl (h b a c hc hb)

theorem mapM_mem {α β : Type} {f : α → Option β} {P : β → Prop} (h : ∀ a b, f a = some b → P b) {l : List α}
    {r : List β} (hl : l.mapM f = some r) : (l ≠ [] → r ≠ []) ∧ ∀ b ∈ r, P b := by
  induction l generalizing r with
  | nil =>
      rw [List.mapM_nil, Option.pure_def, Option.some.injEq] at hl
      exact ⟨fun hne => absurd rfl hne, fun b hb => absurd (hl ▸ hb) List.not_mem_nil⟩
  | cons a l ih =>
      rw [List.mapM_cons] at hl
      obtain ⟨b, hb, hl⟩ := Option.bind_eq_some_iff.mp hl
      obtain ⟨rest, hrest, hl⟩ := Option.bind_eq_some_iff.mp hl
      rw [Option.pure_def, Option.some.injEq] at hl
      subst hl
      refine ⟨fun _ => List.cons_ne_nil _ _, fun c hc => ?_⟩
      rcases List.mem_cons.mp hc with rfl | hc
      · exact h a _ hb
      · exact (ih hrest).2 c hc

variable {Instant : Type} [LinearOrder Instant] {chrono : Chrono Instant} {env : Env}
  {accepts : String → Value → Bool}

theorem normal_info_member {ni ni' : Map} {p : String × Value} (h : norm_info_member env ni p = some ni')
    (hni : NormalInfo (.object ni)) : NormalInfo (.object ni') := by
  have hother : ∀ {k : String} {v : Value} {out : Map}, (SortedMap.insert k v ni) = out →
      (∀ l, k = "propertyNames" ∨ k = "relationshipNames" → v.as_array = some l → l ≠ [] ∧ ∀ n ∈ l, n.as_str.isSome) →
      (∀ es, k = "entities" → v.as_array = some es → es ≠ []) → NormalInfo (.object out) := by
    rintro k v out rfl hnames hentities
    refine ⟨fun key hkey l hl => ?_, fun es hes => ?_⟩
    · rw [Value.get, SortedMap.lookup_insert] at hl
      split_ifs at hl with he
      · exact hnames l (he ▸ hkey) hl
      · exact hni.names key hkey l hl
    · rw [Value.get, SortedMap.lookup_insert] at hes
      split_ifs at hes with he
      · exact hentities es he.symm hes
      · exact hni.entities es hes
  unfold norm_info_member at h
  split_ifs at h with he hn
  · obtain ⟨nes, hnes, hout⟩ := Option.map_eq_some_iff.mp h
    obtain ⟨es, hes, hmap⟩ := Option.bind_eq_some_iff.mp hnes
    have hne := (Option.filter_eq_some_iff.mp hes).2
    refine hother hout (fun l hk => ?_) (fun l _ hl => ?_)
    · rcases hk with hk | hk <;> exact absurd hk (by decide)
    · cases hl
      exact (mapM_mem (P := fun _ => True) (fun _ _ _ => trivial) hmap).1 (by simpa using hne)
  · obtain ⟨nn, hnn, hout⟩ := Option.map_eq_some_iff.mp h
    obtain ⟨ns, hns, hmap⟩ := Option.bind_eq_some_iff.mp hnn
    have hne := (Option.filter_eq_some_iff.mp hns).2
    have hstr : ∀ a b, norm_name env a = some b → b.as_str.isSome := by
      intro a b hab
      obtain ⟨s, -, rfl⟩ := Option.map_eq_some_iff.mp hab
      rfl
    refine hother hout (fun l _ hl => ?_) (fun l hk _ => absurd hk he)
    cases hl
    exact ⟨(mapM_mem hstr hmap).1 (by simpa using hne), (mapM_mem hstr hmap).2⟩
  · refine hother (Option.some.inj h) (fun l hk => absurd hk hn) (fun l hk _ => absurd hk he)

theorem normal_info {info v : Value} (h : norm_info env info = some v) : NormalInfo v := by
  obtain ⟨io, -, h⟩ := Option.bind_eq_some_iff.mp h
  split_ifs at h
  obtain ⟨ni, hni, rfl⟩ := Option.map_eq_some_iff.mp h
  refine foldlM_keeps (P := fun ni => NormalInfo (.object ni)) (fun _ _ _ => normal_info_member) io hni ?_
  constructor
  · intro k _ l hl
    cases hl
  · intro es hes
    cases hes

theorem normal_registration_info {v w : Value} (h : norm_registration_info env v = some w) : NormalValue w := by
  obtain ⟨arr, -, h⟩ := Option.bind_eq_some_iff.mp h
  split_ifs at h
  obtain ⟨infos, hinfos, rfl⟩ := Option.map_eq_some_iff.mp h
  rintro _ ⟨⟩
  exact (mapM_mem (fun _ _ => normal_info) hinfos).2

/-- What stands as the information of a map is in the normal form. -/
def NormalMap (m : Map) : Prop := ∀ p ∈ m, p.1 = "information" → NormalValue p.2

theorem normal_insert {m : Map} (hm : NormalMap m) {k : String} {v : Value} (h : k = "information" → NormalValue v) :
    NormalMap (SortedMap.insert k v m) := by
  intro p hp hk
  rcases SortedMap.mem_insert hp with rfl | hp
  · exact h hk
  · exact hm p hp hk

theorem normal_reg_member {now : String} {out out' : Map} {p : String × Value}
    (h : norm_reg_member chrono env accepts now out p = some out') (hout : NormalMap out) : NormalMap out' := by
  have hkept : ∀ {k : String} {v : Value}, k ≠ "information" → some (SortedMap.insert k v out) = some out' →
      NormalMap out' := by
    intro k v hk heq
    obtain rfl := Option.some.inj heq
    exact normal_insert hout fun he => absurd he hk
  unfold norm_reg_member at h
  split_ifs at h with hread hid _ htype _ hinfo hmode _ hexpires
  · exact Option.some.inj h ▸ hout
  · exact hkept (by decide) h
  · exact hkept (by decide) h
  · obtain ⟨v, hv, rfl⟩ := Option.map_eq_some_iff.mp h
    exact normal_insert hout fun _ => normal_registration_info hv
  · exact hkept (by decide) h
  · exact hkept (by decide) h
  · exact hkept hinfo h

theorem normal_registration {now : String} {doc out : Map} {is_patch : Bool}
    (h : normalize_registration chrono accepts env now doc is_patch = some out) : NormalMap out := by
  unfold normalize_registration at h
  split at h
  · cases h
  obtain ⟨res, hres, h⟩ := Option.bind_eq_some_iff.mp h
  have hnormal : NormalMap res := by
    refine foldlM_keeps (P := NormalMap) ?_ doc hres (fun p hp => absurd hp List.not_mem_nil)
    intro m p m' hm hnm
    unfold norm_member at hm
    split_ifs at hm
    · obtain rfl := Option.some.inj hm
      exact normal_insert hnm fun _ infos hinfos => by cases hinfos
    · exact normal_reg_member hm hnm
  split_ifs at h <;> exact Option.some.inj h ▸ hnormal

theorem normal_information {m : Map} (h : NormalMap m) : ∀ info ∈ information (.object m), NormalInfo info := by
  intro info hinfo
  rw [information, Value.get] at hinfo
  cases hv : m.lookup "information" with
  | none => simp [hv] at hinfo
  | some v =>
      rw [hv, Option.bind_some] at hinfo
      cases hl : v.as_array with
      | none => simp [hl] at hinfo
      | some infos =>
          rw [hl] at hinfo
          exact h _ (SortedMap.mem_of_lookup hv) rfl infos hl info hinfo

theorem lookup_merge_id (m fragment : Map) : (merge_fragment m fragment).lookup "id" = m.lookup "id" := by
  induction fragment generalizing m with
  | nil => rfl
  | cons p fragment ih =>
      rw [merge_fragment, List.foldl_cons, ← merge_fragment, ih]
      split_ifs with hid
      · rfl
      · rw [SortedMap.lookup_erase, if_neg (Ne.symm hid)]
      · rw [SortedMap.lookup_insert, if_neg (Ne.symm hid)]

theorem normal_merge {m fragment : Map} (hm : NormalMap m) (hf : NormalMap fragment) :
    NormalMap (merge_fragment m fragment) := by
  induction fragment generalizing m with
  | nil => exact hm
  | cons p fragment ih =>
      rw [merge_fragment, List.foldl_cons, ← merge_fragment]
      refine ih ?_ (fun q hq => hf q (List.mem_cons_of_mem _ hq))
      split_ifs
      · exact hm
      · exact fun q hq => hm q (List.mem_of_mem_filter hq)
      · exact normal_insert hm (hf p List.mem_cons_self)

theorem names_of_eq {info : Value} {k : String} {l : List Value} (h : (info.get k).bind Value.as_array = some l) :
    names_of info k = some (l.filterMap Value.as_str) := by
  rw [names_of, h, Option.map_some]

theorem mem_attr_names {info : Value} {k : String} (hk : k = "propertyNames" ∨ k = "relationshipNames") {attr : String} :
    (∃ l, names_of info k = some l ∧ attr ∈ l) → attr ∈ attr_names info := by
  rintro ⟨l, hl, hattr⟩
  rw [attr_names, List.mem_flatMap]
  exact ⟨k, by simpa using hk, by rw [hl]; exact hattr⟩

theorem concrete_of_valid {doc : Value} (h : validate_exclusive doc = true)
    (hn : ∀ info ∈ information doc, NormalInfo info) : Concrete doc := by
  intro hmode info hinfo
  rw [validate_exclusive, if_neg (fun hne => hne hmode), List.all_eq_true] at h
  obtain ⟨hattrs, hes⟩ := Bool.and_eq_true_iff.mp (h info hinfo)
  refine ⟨?_, ?_⟩
  · obtain ⟨k, hk, hany⟩ := List.any_eq_true.mp hattrs
    have hk : k = "propertyNames" ∨ k = "relationshipNames" := by simpa using hk
    obtain ⟨l, hl, hne⟩ := (Option.any_eq_true _ _).mp hany
    have hnormal := (hn info hinfo).names k hk l hl
    obtain ⟨n, rest, rfl⟩ := List.exists_cons_of_ne_nil hnormal.1
    obtain ⟨attr, hattr⟩ := Option.isSome_iff_exists.mp (hnormal.2 n List.mem_cons_self)
    have hmem : attr ∈ attr_names info := by
      refine mem_attr_names hk ⟨_, names_of_eq hl, ?_⟩
      exact List.mem_filterMap.mpr ⟨n, List.mem_cons_self, hattr⟩
    exact List.ne_nil_of_mem hmem
  · obtain ⟨es, hget, hall⟩ := (Option.any_eq_true _ _).mp hes
    have hentities : entities info = es := by rw [entities, hget, Option.getD_some]
    rw [hentities]
    refine ⟨(hn info hinfo).entities es hget, fun x hx => ?_⟩
    obtain ⟨hid, hpattern⟩ := Bool.and_eq_true_iff.mp (List.all_eq_true.mp hall x hx)
    exact ⟨hid, Option.isNone_iff_eq_none.mp hpattern⟩

end Normal

section Completeness

variable {regex : String → Option (String → Bool)} {expand : String → String}

theorem non_empty_eq_none {l : List String} : non_empty l = none ↔ l = [] := by
  unfold non_empty
  split_ifs with h <;> simp [h]

theorem non_empty_of_mem {l : List String} {a : String} (h : a ∈ l) : non_empty l = some l := by
  rw [non_empty, if_neg (List.ne_nil_of_mem h)]

/-- The one query of a plain entry finds what the entry names. -/
theorem overlap_entity {info x y : Value} {id : String} (hplain : PlainInfo info) (hx : x ∈ entities info)
    (hnx : Names regex x id) (hny : Names regex y id)
    (hkin : ei_types x = [] ∨ ei_types y = [] ∨ ∃ t ∈ ei_types x, t ∈ ei_types y) :
    entity_info_matches (context regex expand) (overlap_spec info) y = true := by
  have htypes : (overlap_spec info).types.any (fun types =>
      ei_types y ≠ [] && !types.any (names_type (context regex expand) (ei_types y))) = false := by
    have hspec : (overlap_spec info).types = non_empty ((entities info).flatMap ei_types) := rfl
    rw [hspec, Bool.eq_false_iff, Ne, Option.any_eq_true]
    rintro ⟨types, htypes, hmiss⟩
    rw [Bool.and_eq_true_iff, decide_eq_true_iff, Bool.not_eq_true', List.any_eq_false] at hmiss
    unfold non_empty at htypes
    split_ifs at htypes with hnil
    obtain rfl := Option.some.inj htypes
    rcases hkin with hkx | hky | ⟨t, htx, hty⟩
    · rcases hplain.typed with hall | hall
      · exact hnil (List.flatMap_eq_nil_iff.mpr hall)
      · exact hall x hx hkx
    · exact hmiss.1 hky
    · refine hmiss.2 t (List.mem_flatMap.mpr ⟨x, hx, htx⟩) ?_
      rw [names_type, List.contains_iff_mem.mpr hty, Bool.true_or]
  unfold entity_info_matches
  dsimp only
  rw [htypes, if_neg Bool.false_ne_true]
  split_ifs with hfree hids hpat
  · rfl
  · rfl
  · rfl
  have hy : (∃ i, id_of y = some i ∧ i = id) ∨ ∃ p, pattern_of y = some p ∧ finds (context regex expand) p id = true := by
    cases hi : id_of y with
    | some i => exact .inl ⟨i, rfl, hny.1 i hi⟩
    | none =>
        cases hp : pattern_of y with
        | some p => exact .inr ⟨p, rfl, hny.2 p hp⟩
        | none => exact absurd (by rw [Bool.and_eq_true_iff, decide_eq_true_iff, decide_eq_true_iff]; exact ⟨hi, hp⟩) hfree
  cases hix : id_of x with
  | some i =>
      obtain rfl := hnx.1 i hix
      have hmem : i ∈ (entities info).filterMap id_of := List.mem_filterMap.mpr ⟨x, hx, hix⟩
      refine absurd ?_ hids
      rw [overlap_spec, non_empty_of_mem hmem, Option.any_some, Bool.or_eq_true_iff]
      rcases hy with ⟨j, hj, rfl⟩ | ⟨p, hp, hfinds⟩
      · exact .inl ((Option.any_eq_true _ _).mpr ⟨j, hj, List.contains_iff_mem.mpr hmem⟩)
      · exact .inr ((Option.any_eq_true _ _).mpr ⟨p, hp, List.any_eq_true.mpr ⟨i, hmem, hfinds⟩⟩)
  | none =>
      rcases hplain.named x hx hix with ⟨p, hpx, hfirst⟩ | hnone
      · refine absurd ?_ hpat
        rw [overlap_spec, hfirst, Option.any_some, Bool.or_eq_true_iff]
        rcases hy with ⟨j, hj, rfl⟩ | ⟨q, hq, -⟩
        · exact .inl ((Option.any_eq_true _ _).mpr ⟨j, hj, hnx.2 p hpx⟩)
        · exact .inr (Option.isSome_of_eq_some hq)
      · have hids : (entities info).filterMap id_of = [] := List.filterMap_eq_nil_iff.mpr fun z hz => (hnone z hz).1
        have hpats : (entities info).findSome? pattern_of = none := List.findSome?_eq_none_iff.mpr fun z hz => (hnone z hz).2
        rw [overlap_spec, hids, hpats]
        rfl

theorem names_of_none {info : Value} (hn : NormalInfo info) (h : attr_names info = []) {k : String}
    (hk : k = "propertyNames" ∨ k = "relationshipNames") : names_of info k = none := by
  rw [names_of, Option.map_eq_none_iff]
  cases hl : (info.get k).bind Value.as_array with
  | none => rfl
  | some l =>
      obtain ⟨n, rest, rfl⟩ := List.exists_cons_of_ne_nil (hn.names k hk l hl).1
      obtain ⟨attr, hattr⟩ := Option.isSome_iff_exists.mp ((hn.names k hk _ hl).2 n List.mem_cons_self)
      have hmem : attr ∈ attr_names info := by
        refine mem_attr_names hk ⟨_, names_of_eq hl, ?_⟩
        exact List.mem_filterMap.mpr ⟨n, List.mem_cons_self, hattr⟩
      rw [h] at hmem
      exact absurd hmem List.not_mem_nil

theorem overlap_attrs {info info' : Value} (hn : NormalInfo info') {attr : String} (h : Speaks info attr)
    (h' : Speaks info' attr) : attrs_match_info (overlap_spec info).attrs info' = true := by
  have hspec : (overlap_spec info).attrs = non_empty (attr_names info) := rfl
  rw [hspec]
  rcases h with hnil | hmem
  · rw [hnil]
    rfl
  rw [non_empty_of_mem hmem, attrs_match_info]
  dsimp only
  rcases h' with hnil | hmem'
  · rw [names_of_none hn hnil (.inl rfl), names_of_none hn hnil (.inr rfl)]
    simp
  · obtain ⟨k, hk, hattr⟩ := List.mem_flatMap.mp hmem'
    cases hl : names_of info' k with
    | none => simp [hl] at hattr
    | some l =>
        rw [hl, Option.getD_some] at hattr
        have hhas : l.any (fun n => (attr_names info).contains n) = true :=
          List.any_eq_true.mpr ⟨attr, hattr, List.contains_iff_mem.mpr hmem⟩
        have hk : k = "propertyNames" ∨ k = "relationshipNames" := by simpa using hk
        rcases hk with rfl | rfl
        · rw [hl, Option.any_some, hhas, Bool.or_true, Bool.true_or]
        · rw [hl, Option.any_some, hhas, Bool.or_true]

/-- A walk that does not refuse a plain registration at another has found that
they are apart. -/
theorem apart_of_not_overlaps {now : String} {self_id : Option String} {doc other : Value}
    (h : overlaps (context regex expand) now self_id doc other = false) (hself : id_of other ≠ self_id)
    (hlive : reg_expired now other = false) (hguarded : guarded doc other = true)
    (hnormal : ∀ info ∈ information other, NormalInfo info) (hplain : ∀ info ∈ information doc, PlainInfo info)
    (hkin : Kindred regex doc other) : Apart regex doc other := by
  rintro id types attr ⟨info, hinfo, ⟨x, hx, hnx, htx⟩, hspeaks⟩ ⟨info', hinfo', ⟨y, hy, hny, hty⟩, hspeaks'⟩
  have hshare := hkin info hinfo x hx info' hinfo' y hy ⟨id, hnx, hny⟩ ⟨attr, hspeaks, hspeaks'⟩
  have hentity : entity_info_matches (context regex expand) (overlap_spec info) y = true :=
    overlap_entity (hplain info hinfo) hx hnx hny hshare
  have hmatches : info_matches (context regex expand) (overlap_spec info) info' = true := by
    rw [info_matches, Bool.and_eq_true_iff]
    refine ⟨?_, overlap_attrs (hnormal info' hinfo') hspeaks hspeaks'⟩
    unfold entities at hy
    cases hes : (info'.get "entities").bind Value.as_array with
    | none => rfl
    | some es =>
        rw [hes] at hy
        exact List.any_eq_true.mpr ⟨y, hy, hentity⟩
  have hfound : matching_infos (context regex expand) (overlap_spec info) other ≠ [] :=
    List.ne_nil_of_mem (List.mem_filter.mpr ⟨hinfo', hmatches⟩)
  rw [overlaps, if_neg hself, hlive, if_neg Bool.false_ne_true, hguarded, if_neg (by decide), List.any_eq_false] at h
  exact h info hinfo (decide_eq_true hfound)

end Completeness

end AntaresBroker.Proxied
