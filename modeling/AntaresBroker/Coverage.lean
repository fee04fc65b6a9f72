import AntaresBroker.FedReg

namespace AntaresBroker.Federation

open Json Ql Ql.Eval Expiry Registry

variable (env : Env)

/-- Does an EntityInfo take an id: it restricts none, or names it or a pattern of it. -/
def ei_takes_id (ei : Value) (id : String) : Bool :=
  ((ei.get "id").isNone && (ei.get "idPattern").isNone) || (ei.get "id").bind Value.as_str = some id ||
    ((ei.get "idPattern").bind Value.as_str).any (fun p => finds env p id)

/-- An item without a type cannot be disproven. -/
def ei_takes_type (ei : Value) (types : List String) : Bool :=
  ei_types ei = [] || types = [] || types.any (ei_types ei).contains

def info_takes_attr (info : Value) (iri : String) : Bool :=
  (names_of info "propertyNames" = none && names_of info "relationshipNames" = none) ||
    ((names_of info "propertyNames").getD [] ++ (names_of info "relationshipNames").getD []).contains iri

/-- What one RegistrationInfo covers: an attribute, of an entity one of its
EntityInfos takes by id and type alike. -/
def info_covers (info : Value) (id : String) (types : List String) (iri : String) : Bool :=
  info_takes_attr info iri &&
    ((info.get "entities").bind Value.as_array).all (fun es => es.any (fun ei => ei_takes_id env ei id && ei_takes_type ei types))

/-- The types a RegistrationInfo names over all its entities. -/
def named_types (info : Value) : List String :=
  (((info.get "entities").bind Value.as_array).getD []).flatMap ei_types

section Scopes

variable {env}

theorem mem_absorbed {x : String} (a b : List String) :
    x ∈ b.foldl (fun a x => if a.contains x then a else a ++ [x]) a ↔ x ∈ a ∨ x ∈ b := by
  have hstep : ∀ (a : List String) (y : String), x ∈ (if a.contains y then a else a ++ [y]) ↔ x ∈ a ∨ x = y := by
    intro a y
    split_ifs with h
    · exact ⟨Or.inl, fun hx => hx.elim id (fun hx => hx ▸ List.contains_iff_mem.mp h)⟩
    · rw [List.mem_append, List.mem_singleton]
  exact (foldl_iff (P := fun a => x ∈ a) hstep b a).trans (by simp)

theorem union_covers_attr (o r : Scope) (iri : String) :
    (o.union r).covers_attr iri = true ↔ o.covers_attr iri = true ∨ r.covers_attr iri = true := by
  unfold Scope.covers_attr Scope.union
  cases ho : o.attrs with
  | none => simp
  | some a =>
      cases hr : r.attrs with
      | none => simp
      | some b =>
          change List.contains _ iri = true ↔ a.contains iri = true ∨ b.contains iri = true
          rw [List.contains_iff_mem, List.contains_iff_mem, List.contains_iff_mem]
          exact mem_absorbed a b

theorem union_unscoped (o r : Scope) : (o.union r).attrs = none ↔ o.attrs = none ∨ r.attrs = none := by
  unfold Scope.union
  cases o.attrs <;> cases r.attrs <;> simp

theorem union_can_match_id (o r : Scope) (id : String) :
    (o.union r).can_match_id env id = true ↔ o.can_match_id env id = true ∨ r.can_match_id env id = true := by
  simp only [Scope.union, Scope.can_match_id, Bool.or_eq_true, List.any_append, List.contains_iff_mem, List.mem_append]
  tauto

theorem add_entity_can_match_id (s : Scope) (e : Value) (id : String) :
    (s.add_entity e).can_match_id env id = true ↔ s.can_match_id env id = true ∨ ei_takes_id env e id = true := by
  have hid : ((e.get "id").bind Value.as_str).toList.contains id = true ↔ (e.get "id").bind Value.as_str = some id := by
    cases (e.get "id").bind Value.as_str <;> simp [eq_comm]
  have hpat : ((e.get "idPattern").bind Value.as_str).toList.any (fun p => finds env p id) =
      ((e.get "idPattern").bind Value.as_str).any (fun p => finds env p id) := by
    cases (e.get "idPattern").bind Value.as_str <;> simp
  simp only [Scope.add_entity, Scope.can_match_id, ei_takes_id, List.any_append, Bool.or_eq_true, List.contains_append,
    decide_eq_true_eq, hid, hpat]
  tauto

theorem add_attrs_covers_attr (s : Scope) (info : Value) (iri : String) :
    (s.add_attrs info).covers_attr iri = true ↔ s.covers_attr iri = true ∨ info_takes_attr info iri = true := by
  unfold Scope.add_attrs Scope.covers_attr info_takes_attr
  split
  · next hp hr => simp [hp, hr]
  · next hp hr h =>
      have hne : ¬ (names_of info "propertyNames" = none ∧ names_of info "relationshipNames" = none) :=
        fun hn => h hn.1 hn.2
      cases s.attrs with
      | none => simp
      | some a =>
          simp only [Option.map_some, Option.all_some, Bool.or_eq_true, Bool.and_eq_true, decide_eq_true_eq, hne,
            false_or, List.contains_iff_mem, List.mem_append, or_assoc]

theorem add_attrs_eq (s : Scope) (info : Value) :
    (s.add_attrs info).ent_ids = s.ent_ids ∧ (s.add_attrs info).ent_types = s.ent_types ∧
      (s.add_attrs info).ent_patterns = s.ent_patterns ∧ (s.add_attrs info).ent_unrestricted = s.ent_unrestricted := by
  unfold Scope.add_attrs
  split <;> exact ⟨rfl, rfl, rfl, rfl⟩

theorem add_entities_attrs (es : List Value) (s : Scope) : (es.foldl Scope.add_entity s).attrs = s.attrs := by
  induction es generalizing s with
  | nil => rfl
  | cons e es ih => exact ih (s.add_entity e)

theorem add_info_attrs (s : Scope) (info : Value) : (s.add_info info).attrs = (s.add_attrs info).attrs := by
  unfold Scope.add_info
  split
  · exact add_entities_attrs _ _
  · rfl

theorem add_info_covers_attr (s : Scope) (info : Value) (iri : String) :
    (s.add_info info).covers_attr iri = true ↔ s.covers_attr iri = true ∨ info_takes_attr info iri = true := by
  rw [← add_attrs_covers_attr, Scope.covers_attr, Scope.covers_attr, add_info_attrs]

/-- An info without entities restricts no id. -/
theorem add_info_can_match_id (s : Scope) (info : Value) (id : String) :
    (s.add_info info).can_match_id env id = true ↔ s.can_match_id env id = true ∨
      ((info.get "entities").bind Value.as_array).all (fun es => es.any (fun ei => ei_takes_id env ei id)) = true := by
  obtain ⟨h1, h2, h3, h4⟩ := add_attrs_eq s info
  have hsame : (s.add_attrs info).can_match_id env id = s.can_match_id env id := by
    rw [Scope.can_match_id, Scope.can_match_id, h1, h3, h4]
  unfold Scope.add_info
  cases (info.get "entities").bind Value.as_array with
  | none => simp [Scope.can_match_id]
  | some es =>
      simp only [Option.all_some, List.any_eq_true, ← hsame]
      exact foldl_iff (P := fun s => Scope.can_match_id env s id = true) (fun s e => add_entity_can_match_id s e id) es _

theorem mem_add_info_types (s : Scope) (info : Value) (t : String) :
    t ∈ (s.add_info info).ent_types ↔ t ∈ s.ent_types ∨ t ∈ named_types info := by
  rw [← (add_attrs_eq s info).2.1]
  unfold Scope.add_info named_types
  cases (info.get "entities").bind Value.as_array with
  | none => simp
  | some es =>
      rw [foldl_iff (P := fun s : Scope => t ∈ s.ent_types) (Q := fun e => t ∈ ei_types e) (fun s e => by
        rw [Scope.add_entity, List.mem_append])]
      simp [List.mem_flatMap]

end Scopes

section Merging

theorem source_absorb (o r : FedReg × List String) (_ : source o = source r) : source (absorb o r) = source o := rfl

theorem grouped_op_set (regs : List FedReg) :
    ∀ p ∈ Grouping.group source absorb (regs.map (fun r => (r, op_set r))), p.2 = op_set p.1 := by
  refine Grouping.group_all source absorb (Q := fun p : FedReg × List String => p.2 = op_set p.1) (fun o r h => h) fun p hp => ?_
  obtain ⟨r, -, rfl⟩ := List.mem_map.mp hp
  rfl

theorem mem_merge_same_source {regs : List FedReg} {F : FedReg} : F ∈ merge_same_source regs ↔
    (F, op_set F) ∈ Grouping.group source absorb (regs.map (fun r => (r, op_set r))) := by
  constructor
  · intro h
    obtain ⟨p, hp, rfl⟩ := List.mem_map.mp h
    have hops := grouped_op_set regs p hp
    rw [← hops]
    exact hp
  · exact fun h => List.mem_map.mpr ⟨_, h, rfl⟩

theorem sources_merge (regs : List FedReg) : (merge_same_source regs).map source_of =
    (Grouping.group source absorb (regs.map (fun r => (r, op_set r)))).map source := by
  rw [merge_same_source, List.map_map]
  apply List.map_congr_left
  intro p hp
  have hops := grouped_op_set regs p hp
  rw [Function.comp_apply, source_of, ← hops]

/-- One registration to forward to is left of each source. -/
theorem merge_existsUnique {regs : List FedReg} {r : FedReg} (hr : r ∈ regs) :
    ∃! F, F ∈ merge_same_source regs ∧ source_of F = source_of r := by
  have hmem : (r, op_set r) ∈ regs.map (fun r => (r, op_set r)) := List.mem_map.mpr ⟨r, hr, rfl⟩
  obtain ⟨p, ⟨hp, hsource⟩, huniq⟩ := Grouping.group_existsUnique source_absorb hmem
  have hops := grouped_op_set regs p hp
  have hpair : (p.1, op_set p.1) = p := by rw [← hops]
  refine ⟨p.1, ⟨List.mem_map.mpr ⟨p, hp, rfl⟩, ?_⟩, fun F hF => ?_⟩
  · rw [source_of, hpair]
    exact hsource
  · have h := huniq (F, op_set F) ⟨mem_merge_same_source.mp hF.1, hF.2⟩
    rw [← h]

/-- What the joined scope takes, the scope of a registration of the source takes. -/
theorem merge_iff {P : Scope → Prop} (hP : ∀ o r, P (Scope.union o r) ↔ P o ∨ P r) {regs : List FedReg} {F : FedReg}
    (hF : F ∈ merge_same_source regs) :
    P F.toScope ↔ ∃ r ∈ regs, source_of r = source_of F ∧ P r.toScope := by
  have hjoins : Grouping.Joins source absorb (fun p => P p.1.toScope) := fun o r _ => hP o.1.toScope r.1.toScope
  have h := Grouping.group_iff source_absorb hjoins (mem_merge_same_source.mp hF)
  refine h.trans ?_
  constructor
  · rintro ⟨p, hp, hsource, hp'⟩
    obtain ⟨r, hr, rfl⟩ := List.mem_map.mp hp
    exact ⟨r, hr, hsource, hp'⟩
  · rintro ⟨r, hr, hsource, hp⟩
    exact ⟨_, List.mem_map.mpr ⟨r, hr, rfl⟩, hsource, hp⟩

theorem supports_of_source {F r : FedReg} (h : source_of r = source_of F) {op : String} (hop : op ∈ OPERATION_NAMES) :
    F.supports op = r.supports op := by
  have hops : op_set r = op_set F := congrArg Source.ops h
  have hmem : ∀ x : FedReg, x.supports op = true ↔ op ∈ op_set x := by
    intro x
    rw [op_set, List.mem_filter, and_iff_right hop]
  rw [Bool.eq_iff_iff, hmem, hmem, hops]

/-- Two lists of registrations differ at most in the ids and timings they keep. -/
def Alike (regs regs' : List FedReg) : Prop :=
  (regs.map source_of).Perm (regs'.map source_of) ∧
    ∀ F ∈ regs, ∀ F' ∈ regs', source_of F = source_of F' →
      (F.attrs = none ↔ F'.attrs = none) ∧ (∀ iri, F.covers_attr iri = F'.covers_attr iri) ∧
        (∀ id, id ∈ F.ent_ids ↔ id ∈ F'.ent_ids) ∧ (∀ t, t ∈ F.ent_types ↔ t ∈ F'.ent_types) ∧
          (∀ p, p ∈ F.ent_patterns ↔ p ∈ F'.ent_patterns) ∧ F.ent_unrestricted = F'.ent_unrestricted

theorem merge_same_source_perm {regs regs' : List FedReg} (h : regs.Perm regs') :
    Alike (merge_same_source regs) (merge_same_source regs') := by
  constructor
  · rw [sources_merge, sources_merge]
    exact Grouping.keys_group_perm source_absorb (h.map _)
  · intro F hF F' hF' hsource
    have transfer : ∀ {P : Scope → Prop}, (∀ o r, P (Scope.union o r) ↔ P o ∨ P r) → (P F.toScope ↔ P F'.toScope) := by
      intro P hP
      rw [merge_iff hP hF, merge_iff hP hF', hsource]
      exact exists_congr fun r => and_congr_left fun _ => h.mem_iff
    refine ⟨transfer (P := fun s => s.attrs = none) union_unscoped, fun iri => Bool.eq_iff_iff.mpr ?_, fun id => ?_, fun t => ?_, fun p => ?_,
      Bool.eq_iff_iff.mpr ?_⟩
    · exact transfer (P := fun s => s.covers_attr iri = true) (fun o r => union_covers_attr o r iri)
    · exact transfer (P := fun s => id ∈ s.ent_ids) (fun _ _ => List.mem_append)
    · exact transfer (P := fun s => t ∈ s.ent_types) (fun _ _ => List.mem_append)
    · exact transfer (P := fun s => p ∈ s.ent_patterns) (fun _ _ => List.mem_append)
    · exact transfer (P := fun s => s.ent_unrestricted = true) (fun _ _ => Bool.or_eq_true_iff)

end Merging

section Sources

variable {Instant : Type} [LinearOrder Instant] (chrono : Chrono Instant)

/-- The registrations an operation forwards to, of the stored ones it looks at. -/
def compiled (now : String) (spec : CsrSpec) (seen : List String) (docs : List Value) : List FedReg :=
  docs.filterMap (compile env chrono now spec seen)

/-- A matched RegistrationInfo of a stored registration that names a source. -/
def Contributes (now : String) (spec : CsrSpec) (seen : List String) (docs : List Value) (src : Source)
    (info : Value) : Prop :=
  ∃ doc ∈ docs, ∃ r, compile env chrono now spec seen doc = some r ∧ source_of r = src ∧
    info ∈ matching_infos env spec doc

/-- The joined types of a source do not stand against an item: it has none, none are
named, or one of its types is named. -/
def TypesKept (now : String) (spec : CsrSpec) (seen : List String) (docs : List Value) (src : Source)
    (types : List String) : Prop :=
  types = [] ∨ (∀ info, Contributes env chrono now spec seen docs src info → named_types info = []) ∨
    ∃ t ∈ types, ∃ info, Contributes env chrono now spec seen docs src info ∧ t ∈ named_types info

variable {env chrono} {now : String} {spec : CsrSpec} {seen : List String}

theorem compile_scope {doc : Value} {r : FedReg} (h : compile env chrono now spec seen doc = some r) :
    r.toScope = (matching_infos env spec doc).foldl Scope.add_info Scope.empty := by
  obtain ⟨infos, hinfos, h⟩ := Option.bind_eq_some_iff.mp h
  obtain ⟨endpoint, -, rfl⟩ := Option.map_eq_some_iff.mp h
  rw [← (reg_candidate_infos env chrono hinfos).1]

/-- A scope of a source takes what one of its matched RegistrationInfos takes. -/
theorem scope_iff {P : Scope → Prop} {Q : Value → Prop} (hunion : ∀ o r, P (Scope.union o r) ↔ P o ∨ P r)
    (hinfo : ∀ s info, P (Scope.add_info s info) ↔ P s ∨ Q info) (hempty : ¬ P Scope.empty) {docs : List Value}
    {F : FedReg} (hF : F ∈ merge_same_source (compiled env chrono now spec seen docs)) :
    P F.toScope ↔ ∃ info, Contributes env chrono now spec seen docs (source_of F) info ∧ Q info := by
  have hone : ∀ {doc r}, compile env chrono now spec seen doc = some r →
      (P r.toScope ↔ ∃ info ∈ matching_infos env spec doc, Q info) := by
    intro doc r h
    rw [compile_scope h, foldl_iff hinfo, or_iff_right hempty]
  rw [merge_iff hunion hF]
  constructor
  · rintro ⟨r, hr, hsource, hp⟩
    obtain ⟨doc, hdoc, hr⟩ := List.mem_filterMap.mp hr
    obtain ⟨info, hmem, hq⟩ := (hone hr).mp hp
    exact ⟨info, ⟨doc, hdoc, r, hr, hsource, hmem⟩, hq⟩
  · rintro ⟨info, ⟨doc, hdoc, r, hr, hsource, hmem⟩, hq⟩
    exact ⟨r, List.mem_filterMap.mpr ⟨doc, hdoc, hr⟩, hsource, (hone hr).mpr ⟨info, hmem, hq⟩⟩

theorem covers_attr_of_info {docs : List Value} {F : FedReg}
    (hF : F ∈ merge_same_source (compiled env chrono now spec seen docs)) {info : Value}
    (hinfo : Contributes env chrono now spec seen docs (source_of F) info) {iri : String}
    (h : info_takes_attr info iri = true) : F.covers_attr iri = true :=
  (scope_iff (P := fun s => s.covers_attr iri = true) (fun o r => union_covers_attr o r iri)
    (fun s info => add_info_covers_attr s info iri) (by simp [Scope.empty, Scope.covers_attr]) hF).mpr ⟨info, hinfo, h⟩

theorem can_match_id_of_info {docs : List Value} {F : FedReg}
    (hF : F ∈ merge_same_source (compiled env chrono now spec seen docs)) {info : Value}
    (hinfo : Contributes env chrono now spec seen docs (source_of F) info) {id : String}
    (h : ((info.get "entities").bind Value.as_array).all (fun es => es.any (fun ei => ei_takes_id env ei id)) = true) :
    F.can_match_id env id = true :=
  (scope_iff (P := fun s => s.can_match_id env id = true) (fun o r => union_can_match_id o r id)
    (fun s info => add_info_can_match_id s info id) (by simp [Scope.empty, Scope.can_match_id]) hF).mpr ⟨info, hinfo, h⟩

theorem mem_ent_types {docs : List Value} {F : FedReg}
    (hF : F ∈ merge_same_source (compiled env chrono now spec seen docs)) (t : String) :
    t ∈ F.ent_types ↔ ∃ info, Contributes env chrono now spec seen docs (source_of F) info ∧ t ∈ named_types info :=
  scope_iff (P := fun s => t ∈ s.ent_types) (fun _ _ => List.mem_append) (fun s info => mem_add_info_types s info t)
    List.not_mem_nil hF

theorem ent_types_eq_nil {docs : List Value} {F : FedReg}
    (hF : F ∈ merge_same_source (compiled env chrono now spec seen docs)) : F.ent_types = [] ↔
      ∀ info, Contributes env chrono now spec seen docs (source_of F) info → named_types info = [] := by
  simp only [List.eq_nil_iff_forall_not_mem, mem_ent_types hF, not_exists, not_and]
  exact ⟨fun h info hinfo t => h t info hinfo, fun h t info hinfo => h info hinfo t⟩

/-- An item of an id the source takes is covered when the joined types do not stand against it. -/
theorem covers_item_iff {docs : List Value} {F : FedReg}
    (hF : F ∈ merge_same_source (compiled env chrono now spec seen docs)) {obj : Map} {id : String}
    (hid : (obj.lookup "id").bind Value.as_str = some id) (hmatch : F.can_match_id env id = true) :
    F.covers_item env obj = true ↔
      TypesKept env chrono now spec seen docs (source_of F) (item_types env.expand obj) := by
  have htypes : (∃ t ∈ item_types env.expand obj, t ∈ F.ent_types) ↔ ∃ t ∈ item_types env.expand obj,
      ∃ info, Contributes env chrono now spec seen docs (source_of F) info ∧ t ∈ named_types info :=
    exists_congr fun t => and_congr_right fun _ => mem_ent_types hF t
  rw [TypesKept, ← ent_types_eq_nil hF, ← htypes]
  simp only [Scope.covers_item, hid, Option.all_some, hmatch, Bool.or_true, Bool.true_and, Bool.or_eq_true,
    decide_eq_true_eq, List.any_eq_true, List.contains_iff_mem]
  exact ⟨fun h => h.elim (fun h => h.elim (.inr ∘ .inl) .inl) (.inr ∘ .inr),
    fun h => h.elim (.inl ∘ .inr) fun h => h.elim (.inl ∘ .inl) .inr⟩

theorem info_takes_of_covers {info : Value} {id iri : String} {types : List String}
    (h : info_covers env info id types iri = true) : info_takes_attr info iri = true ∧
      ((info.get "entities").bind Value.as_array).all (fun es => es.any (fun ei => ei_takes_id env ei id)) = true := by
  rw [info_covers, Bool.and_eq_true] at h
  refine ⟨h.1, ?_⟩
  cases he : (info.get "entities").bind Value.as_array with
  | none => rfl
  | some es =>
      have hany := h.2
      rw [he, Option.all_some] at hany
      obtain ⟨ei, hei, hboth⟩ := List.any_eq_true.mp hany
      exact List.any_eq_true.mpr ⟨ei, hei, (Bool.and_eq_true_iff.mp hboth).1⟩

variable (env chrono now spec seen)

/-- Compiling and folding keeps one registration of each source, which supports just the
operations its registrations do; what a matched RegistrationInfo covers the fold covers when
the joined types do not stand against the item; the order matters for kept ids and timings only. -/
theorem matching_regs_cover (docs : List Value) :
    (∀ r ∈ compiled env chrono now spec seen docs,
      ∃! F, F ∈ merge_same_source (compiled env chrono now spec seen docs) ∧ source_of F = source_of r) ∧
    (∀ F ∈ merge_same_source (compiled env chrono now spec seen docs),
      (∃ r ∈ compiled env chrono now spec seen docs, source_of r = source_of F) ∧
      (∀ r ∈ compiled env chrono now spec seen docs, source_of r = source_of F →
        ∀ op ∈ OPERATION_NAMES, F.supports op = r.supports op) ∧
      ∀ info, Contributes env chrono now spec seen docs (source_of F) info → ∀ obj id iri,
        (obj.lookup "id").bind Value.as_str = some id → info_covers env info id (item_types env.expand obj) iri →
          ((F.can_match_id env id && F.covers_item env obj && F.covers_attr iri) = true ↔
            TypesKept env chrono now spec seen docs (source_of F) (item_types env.expand obj))) ∧
    ∀ docs', docs.Perm docs' → Alike (merge_same_source (compiled env chrono now spec seen docs))
      (merge_same_source (compiled env chrono now spec seen docs')) := by
  refine ⟨fun r hr => merge_existsUnique hr, fun F hF => ⟨?_, fun r _ h op hop => supports_of_source h hop, ?_⟩,
    fun docs' h => merge_same_source_perm (h.filterMap _)⟩
  · obtain ⟨r, hr, hsource, -⟩ := (merge_iff (P := fun _ => True) (fun _ _ => by simp) hF).mp trivial
    exact ⟨r, hr, hsource⟩
  intro info hinfo obj id iri hid hcovers
  obtain ⟨hattr, hent⟩ := info_takes_of_covers hcovers
  have hmatch := can_match_id_of_info hF hinfo hent
  rw [hmatch, covers_attr_of_info hF hinfo hattr, Bool.true_and, Bool.and_true]
  exact covers_item_iff hF hid hmatch

/-- One entity by its id alone, next to the vehicles. -/
def mixed_info : Value := .object [("entities", .array [
  .object [("id", .string "urn:ngsi-ld:Building:1")],
  .object [("type", .string "https://example.org/Vehicle")]])]

def mixed : Value := .object [
  ("endpoint", .string "http://peer"),
  ("id", .string "urn:ngsi-ld:ContextSourceRegistration:1"),
  ("information", .array [mixed_info])]

def mixed_regs : List FedReg := compiled one_vocabulary fixed_width "2024-01-01T00:00:00Z" any_spec [] [mixed]

def building (type : Value) : Map := [("id", .string "urn:ngsi-ld:Building:1"), ("type", type)]

theorem matching_regs_cover_both :
    ∃ F, merge_same_source mixed_regs = [F] ∧
      (F.can_match_id one_vocabulary "urn:ngsi-ld:Building:1" &&
        F.covers_item one_vocabulary (building (.array [.string "Building", .string "Vehicle"])) &&
          F.covers_attr "https://example.org/height") = true := by
  refine ⟨_, rfl, ?_⟩
  have hinfo : Contributes one_vocabulary fixed_width "2024-01-01T00:00:00Z" any_spec [] [mixed]
      (source_of (mixed_regs.head (by decide))) mixed_info :=
    ⟨mixed, List.mem_singleton.mpr rfl, _, rfl, rfl, by decide⟩
  refine (((matching_regs_cover one_vocabulary fixed_width "2024-01-01T00:00:00Z" any_spec [] [mixed]).2.1 _
    List.mem_cons_self).2.2 mixed_info hinfo _ _ _ rfl (by decide)).mpr
      (.inr (.inr ⟨"https://example.org/Vehicle", by decide, mixed_info, hinfo, by decide⟩))

/-- The type of the one EntityInfo stands against the entity the other names by its id. -/
theorem matching_regs_lose_untyped :
    mixed_info ∈ matching_infos one_vocabulary any_spec mixed ∧
      info_covers one_vocabulary mixed_info "urn:ngsi-ld:Building:1"
        (item_types one_vocabulary.expand (building (.string "Building"))) "https://example.org/height" = true ∧
        ∃ F, merge_same_source mixed_regs = [F] ∧ F.covers_item one_vocabulary (building (.string "Building")) = false := by
  refine ⟨by decide, by decide, _, rfl, ?_⟩
  decide

end Sources

end AntaresBroker.Federation
