import AntaresBroker.BatchAgreement

namespace AntaresBroker.BatchStore

open Expiry Json Mem KeyedLoop

section Lookups

variable {α β γ : Type}

theorem isSome_rows_of {cast : Value → Option γ} {items : List (String × Value)} :
    (rows_of cast items).isSome ↔ ∀ p ∈ items, (cast p.2).isSome := by
  induction items with
  | nil => simp [rows_of]
  | cons p items ih =>
      rw [List.forall_mem_cons, ← ih, rows_of, List.mapM_cons, ← rows_of]
      cases cast p.2 with
      | none => simp
      | some c => cases rows_of cast items <;> simp

theorem rows_of_some {cast : Value → Option γ} {items : List (String × Value)} {rows : List (String × γ)}
    (h : rows_of cast items = some rows) :
    rows.map Prod.fst = items.map Prod.fst ∧ ∀ id, rows.lookup id = (items.lookup id).bind cast := by
  induction items generalizing rows with
  | nil =>
      cases h
      exact ⟨rfl, fun id => rfl⟩
  | cons p items ih =>
      rw [rows_of, List.mapM_cons, ← rows_of] at h
      cases hc : cast p.2 with
      | none => simp [hc] at h
      | some c =>
          cases hr : rows_of cast items with
          | none => simp [hc, hr] at h
          | some rest =>
              simp only [hc, hr, Option.map_some, Option.bind_eq_bind, Option.bind_some, Option.pure_def,
                Option.some.injEq] at h
              subst h
              obtain ⟨hkeys, hlook⟩ := ih hr
              refine ⟨by rw [List.map_cons, List.map_cons, hkeys], fun id => ?_⟩
              rw [List.lookup_cons, List.lookup_cons, hlook]
              cases id == p.1 with
              | true => exact hc.symm
              | false => rfl

theorem lookup_filter_key (f : String → Bool) (rows : List (String × γ)) (id : String) :
    (rows.filter (fun p => f p.1)).lookup id = if f id then rows.lookup id else none := by
  induction rows with
  | nil => split_ifs <;> rfl
  | cons p rows ih =>
      rw [List.filter_cons, List.lookup_cons]
      by_cases hid : id = p.1
      · subst hid
        by_cases hf : f p.1
        · rw [if_pos hf, if_pos hf, List.lookup_cons, beq_self_eq_true]
        · rw [if_neg hf, if_neg hf, ih, if_neg hf]
      · rw [beq_eq_false_iff_ne.mpr hid]
        split_ifs
        · rw [List.lookup_cons, beq_eq_false_iff_ne.mpr hid, ih, if_pos ‹_›]
        · rw [List.lookup_cons, beq_eq_false_iff_ne.mpr hid, ih, if_neg ‹_›]
        · rw [ih, if_pos ‹_›]
        · rw [ih, if_neg ‹_›]

theorem lookup_none_of_not_mem {rows : List (String × γ)} {id : String} (h : id ∉ rows.map Prod.fst) :
    rows.lookup id = none := by
  rw [List.lookup_eq_none_iff]
  intro p hp
  rw [bne_iff_ne]
  rintro rfl
  exact h (List.mem_map_of_mem hp)

theorem lookup_filterMap (g : String → β → Option γ) {rows : List (String × β)} (h : (rows.map Prod.fst).Nodup)
    (id : String) :
    (rows.filterMap (fun p => (g p.1 p.2).map (p.1, ·))).lookup id = (rows.lookup id).bind (g id) := by
  induction rows with
  | nil => rfl
  | cons p rows ih =>
      rw [List.map_cons, List.nodup_cons] at h
      rw [List.filterMap_cons, List.lookup_cons]
      by_cases hid : id = p.1
      · subst hid
        rw [beq_self_eq_true]
        cases hg : g p.1 p.2 with
        | none =>
            rw [Option.map_none]
            dsimp only
            rw [ih h.2, lookup_none_of_not_mem h.1, Option.bind_none, Option.bind_some, hg]
        | some c =>
            rw [Option.map_some]
            dsimp only
            rw [List.lookup_cons, beq_self_eq_true, Option.bind_some, hg]
      · rw [beq_eq_false_iff_ne.mpr hid, ← ih h.2]
        cases g p.1 p.2 with
        | none => rfl
        | some c => rw [Option.map_some, List.lookup_cons, beq_eq_false_iff_ne.mpr hid]

theorem lookup_filterMap_ids (g : String → Option γ) (ids : List String) (id : String) :
    (ids.filterMap (fun i => (g i).map (i, ·))).lookup id = if id ∈ ids then g id else none := by
  induction ids with
  | nil => rfl
  | cons a ids ih =>
      rw [List.filterMap_cons]
      by_cases hid : id = a
      · subst hid
        rw [if_pos List.mem_cons_self]
        cases hg : g id with
        | none =>
            rw [Option.map_none]
            dsimp only
            rw [ih, hg, ite_self]
        | some c => rw [Option.map_some, List.lookup_cons, beq_self_eq_true]
      · have hmem : id ∈ a :: ids ↔ id ∈ ids := by simp [hid]
        rw [if_congr hmem rfl rfl, ← ih]
        cases g a with
        | none => rfl
        | some c => rw [Option.map_some, List.lookup_cons, beq_eq_false_iff_ne.mpr hid]

theorem put_rows_apply {Instant : Type} (table : Table Instant) {rows : List (String × Row Instant)}
    (h : (rows.map Prod.fst).Nodup) (id : String) : put_rows table rows id = (rows.lookup id).or (table id) := by
  induction rows generalizing table with
  | nil => rfl
  | cons p rows ih =>
      rw [List.map_cons, List.nodup_cons] at h
      rw [put_rows, List.foldl_cons, ← put_rows, ih _ h.2, List.lookup_cons]
      by_cases hid : id = p.1
      · subst hid
        rw [beq_self_eq_true, lookup_none_of_not_mem h.1, Function.update_self]
        rfl
      · rw [beq_eq_false_iff_ne.mpr hid, Function.update_of_ne hid]

end Lookups

section Edits

variable {Instant E : Type} [LinearOrder Instant]

/-- What a closure makes of a document, if it accepts it and changes it. -/
def edited (f : String → Value → Except E Value) (id : String) (cell : Option Value) : Option Value :=
  cell.bind (fun d => (f id d).toOption.filter (· ≠ d))

theorem apply_closure_fst (f : String → Value → Except E Value) (id : String) (cell : Option Value) (u : Unit) :
    (apply_closure f id cell u).1 = (edited f id cell).or cell := by
  unfold apply_closure edited
  cases cell with
  | none => rfl
  | some d =>
      dsimp only
      rw [Option.bind_some]
      cases f id d with
      | error e => rfl
      | ok after =>
          rw [Except.toOption, Option.filter_some]
          by_cases hc : after = d
          · simp [hc]
          · simp [hc]

theorem apply_closure_answer (f : String → Value → Except E Value) (id : String) (cell : Option Value) (u : Unit) :
    (apply_closure f id cell u).2.1 = cell.map (fun d => (f id d).map (fun _ => ())) := by
  unfold apply_closure
  cases cell with
  | none => rfl
  | some d =>
      dsimp only
      rw [Option.map_some]
      cases f id d <;> rfl

theorem apply_closure_change (f : String → Value → Except E Value) (id : String) (cell : Option Value) (u : Unit) :
    (apply_closure f id cell u).2.2 = (edited f id cell).map (fun after => emit id cell (some after)) := by
  unfold apply_closure edited
  cases cell with
  | none => rfl
  | some d =>
      dsimp only
      rw [Option.bind_some]
      cases f id d with
      | error e => rfl
      | ok after =>
          rw [Except.toOption, Option.filter_some]
          by_cases hc : after = d
          · simp [hc]
          · simp [hc]

theorem mutate_cell_eq (chrono : Chrono Instant) (now : String) (f : String → Value → Except E Value) (id : String)
    (cell : Option Value) (u : Unit) :
    (mutate_cell chrono now f id cell u).1 = (edited f id (alive chrono now cell)).or cell ∧
      (mutate_cell chrono now f id cell u).2 = (apply_closure f id (alive chrono now cell) u).2 := by
  unfold mutate_cell
  cases h : alive chrono now cell with
  | none => exact ⟨rfl, rfl⟩
  | some d =>
      have hcell : cell = some d := by
        rw [alive, Option.filter_eq_some_iff] at h
        exact h.1
      dsimp only
      rw [apply_closure_fst, hcell]
      exact ⟨rfl, rfl⟩

end Edits

section Parity

variable {Instant Bytes E : Type} [LinearOrder Instant]

/-- The drivers over the same documents. -/
structure Twin (Instant Bytes : Type) (tenant : TenantId) where
  store : Store Bytes
  table : Table Instant
  mirrors : Mirrors tenant table store

variable (chrono : Chrono Instant) (codec : Codec Bytes) (now : String) {tenant : TenantId} (db : Database Instant)
  (at_now : Instant)

def Call.ids : Call E → List String
  | .create items => items.map Prod.fst
  | .delete ids => ids
  | .upsert items _ => items.map Prod.fst
  | .mutate _ ids _ => ids

structure Agrees (tenant : TenantId) (e : Effect (Store Bytes) E) (e' : Effect (Table Instant) E) : Prop where
  answers : e'.answers = e.answers
  documents : Mirrors tenant e'.store e.store
  hook : ∀ id, e'.hook.filter (fun c => c.id = id) = e.hook.filter (fun c => c.id = id)
  outbox : ∀ id, e'.outbox.filter (fun c => c.id = id) = e.outbox.filter (fun c => c.id = id)

/-- Every item of a mutation has the answer and the document its own closure
makes, and a closure that fails leaves its document. -/
structure Separate (f : String → Value → Except E Value) (ids : List String) (table : Table Instant)
    (e : Effect (Table Instant) E) : Prop where
  answers : e.answers = .results (ids.map (fun id => (live at_now table id).map (fun d => (f id d).map (fun _ => ()))))
  documents : ∀ id ∈ ids, ∀ d, live at_now table id = some d →
    (e.store id).map Row.entity = some ((f id d).toOption.getD d)

/-- The batch succeeds on Postgres as it does in memory, with the same outcome. -/
def Agree (t : Twin Instant Bytes tenant) (call : Call E) : Prop :=
  ∃ e, pg_run db at_now t.table call = some e ∧ Agrees tenant (mem_run chrono codec now tenant t.store call) e ∧
    ∀ f ids distinct, call = .mutate f ids distinct → Separate at_now f ids t.table e

/-- The row and its document expire together. -/
def Alike (table : Table Instant) (id : String) : Prop :=
  ∀ row, table id = some row → row.expired at_now = expired_at chrono row.entity now

/-- The statement takes every document it is to write. -/
def Accepts (table : Table Instant) : Call E → Prop
  | .create items => ∀ p ∈ firsts [] items, (new_row db p.2).isSome
  | .delete _ => True
  | .upsert items _ => ∀ p ∈ items, (new_row db p.2).isSome
  | .mutate f ids _ => ∀ id ∈ ids, ∀ after, edited f id (live at_now table id) = some after → (columns db after).isSome

structure Meets (table : Table Instant) (call : Call E) : Prop where
  accepts : Accepts db at_now table call
  alike : ∀ id ∈ call.ids, Alike chrono now at_now table id
  /-- No document that is already expired has its id twice in a creation that
  takes it. -/
  lasting : ∀ items, call = .create items → ∀ id, fresh at_now table id → 1 < (items.map Prod.fst).count id →
    ∀ d, items.lookup id = some d → expired_at chrono d now = false

variable {chrono codec now db at_now}

theorem fresh_eq (table : Table Instant) (id : String) : fresh at_now table id = (live at_now table id).isNone := by
  unfold fresh live
  cases table id with
  | none => rfl
  | some row =>
      rw [Option.all_some, Option.filter_some]
      cases row.expired at_now <;> rfl

theorem alike_iff (t : Twin Instant Bytes tenant) (id : String) :
    Alike chrono now at_now t.table id ↔ live at_now t.table id = alive chrono now (docs tenant t.store id) := by
  unfold Alike live alive
  rw [← t.mirrors id]
  cases t.table id with
  | none => exact ⟨fun _ => rfl, fun _ row hrow => by cases hrow⟩
  | some row =>
      rw [Option.map_some, Option.filter_some, Option.filter_some]
      constructor
      · intro h
        rw [h row rfl]
        split_ifs <;> rfl
      · rintro h row' ⟨⟩
        revert h
        cases row.expired at_now <;> cases expired_at chrono row.entity now <;> simp

theorem alike_of_isNone {t : Twin Instant Bytes tenant} {id : String}
    (h : (live at_now t.table id).isNone = (alive chrono now (docs tenant t.store id)).isNone) :
    Alike chrono now at_now t.table id := by
  rw [alike_iff]
  unfold live alive at *
  rw [← t.mirrors id] at *
  cases htable : t.table id with
  | none => rfl
  | some row =>
      rw [htable] at h
      rw [Option.map_some, Option.filter_some, Option.filter_some] at *
      revert h
      cases row.expired at_now <;> cases expired_at chrono row.entity now <;> simp

theorem mem_filter_keys {γ : Type} {f : String → Bool} {rows : List (String × γ)} {id : String} :
    id ∈ (rows.filter (fun p => f p.1)).map Prod.fst ↔ id ∈ rows.map Prod.fst ∧ f id := by
  constructor
  · intro h
    obtain ⟨p, hp, rfl⟩ := List.mem_map.mp h
    exact ⟨List.mem_map_of_mem (List.mem_of_mem_filter hp), (List.mem_filter.mp hp).2⟩
  · rintro ⟨h, hf⟩
    obtain ⟨p, hp, rfl⟩ := List.mem_map.mp h
    exact List.mem_map_of_mem (List.mem_filter.mpr ⟨hp, hf⟩)

theorem new_row_entity {doc : Value} {row : Row Instant} (h : new_row db doc = some row) : row.entity = doc := by
  unfold new_row at h
  obtain ⟨expires, -, h⟩ := Option.bind_eq_some_iff.mp h
  obtain ⟨created, -, rfl⟩ := Option.map_eq_some_iff.mp h
  rfl

theorem lookup_entity {items : List (String × Value)} {payload : List (String × Row Instant)}
    (h : rows_of (new_row db) (firsts [] items) = some payload) (id : String) :
    (payload.lookup id).map Row.entity = items.lookup id := by
  have hlook := (rows_of_some h).2 id
  rw [lookup_firsts items List.not_mem_nil] at hlook
  cases hd : items.lookup id with
  | none => rw [hlook, hd]; rfl
  | some d =>
      have hmem : (id, d) ∈ firsts [] items := by
        rw [← lookup_firsts items (List.not_mem_nil : id ∉ []), List.lookup_eq_some_iff] at hd
        obtain ⟨l₁, l₂, hl, -⟩ := hd
        rw [hl]
        simp
      have hsome := isSome_rows_of.mp (Option.isSome_of_eq_some h) _ hmem
      obtain ⟨row, hrow⟩ := Option.isSome_iff_exists.mp hsome
      rw [hlook, hd, Option.bind_some, hrow, Option.map_some, new_row_entity hrow]

theorem once_iff (t : Twin Instant Bytes tenant) {items : List (String × Value)} {ids : List String}
    (h : ∀ id, id ∈ ids ↔ id ∈ items.map Prod.fst ∧ fresh at_now t.table id) :
    Once chrono now (docs tenant t.store) ids items ↔
      (∀ id ∈ items.map Prod.fst, Alike chrono now at_now t.table id) ∧
      ∀ id, fresh at_now t.table id → 1 < (items.map Prod.fst).count id → ∀ d, items.lookup id = some d →
        expired_at chrono d now = false := by
  have hkey : ∀ id ∈ items.map Prod.fst,
      ((id ∈ ids ↔ alive chrono now (docs tenant t.store id) = none) ↔ Alike chrono now at_now t.table id) := by
    intro id hid
    rw [h, and_iff_right hid, fresh_eq, Option.isNone_iff_eq_none]
    constructor
    · intro heq
      refine alike_of_isNone (Bool.eq_iff_iff.mpr ?_)
      rw [Option.isNone_iff_eq_none, Option.isNone_iff_eq_none, heq]
    · intro halike
      rw [(alike_iff t id).mp halike]
  constructor
  · intro ho
    refine ⟨fun id hid => (hkey id hid).mp (ho id hid).1, fun id hfresh hcount => ?_⟩
    have hid : id ∈ items.map Prod.fst := List.count_pos_iff.mp (by omega)
    exact (ho id hid).2 ((ho id hid).1.mp ((h id).mpr ⟨hid, hfresh⟩)) hcount
  · rintro ⟨halike, hlast⟩ id hid
    refine ⟨(hkey id hid).mpr (halike id hid), fun hnone => hlast id ?_⟩
    rw [fresh_eq, (alike_iff t id).mp (halike id hid), hnone]
    rfl

theorem create_parity (t : Twin Instant Bytes tenant) (items : List (String × Value)) :
    Agree chrono codec now db at_now t (.create items : Call E) ↔
      Meets chrono now db at_now t.table (.create items : Call E) := by
  obtain ⟨hdocs, hres⟩ : docs tenant (each (create_item chrono codec now tenant) t.store items).1 =
      (run (create_cell chrono now) (docs tenant t.store) items).1 ∧
      (each (create_item chrono codec now tenant) t.store items).2 =
        (run (create_cell chrono now) (docs tenant t.store) items).2 := each_run (create_view codec tenant) items t.store
  have hmem : ∀ {payload : List (String × Row Instant)}, rows_of (new_row db) (firsts [] items) = some payload →
      ∀ id, id ∈ (payload.filter (fun p => fresh at_now t.table p.1)).map Prod.fst ↔
        id ∈ items.map Prod.fst ∧ fresh at_now t.table id := by
    intro payload hp id
    rw [mem_filter_keys, (rows_of_some hp).1, mem_keys_firsts]
    simp
  constructor
  · rintro ⟨e, hrun, hagree, -⟩
    rw [pg_run, batch_create, Option.map_map] at hrun
    obtain ⟨payload, hp, rfl⟩ := Option.map_eq_some_iff.mp hrun
    have hflags := Answers.flags.inj hagree.answers
    rw [hres] at hflags
    have hboth := (once_iff t (hmem hp)).mp ((create_flags _ _ _).mp hflags.symm)
    refine ⟨isSome_rows_of.mp (Option.isSome_of_eq_some hp), hboth.1, ?_⟩
    rintro _ ⟨⟩
    exact hboth.2
  · intro hmeets
    obtain ⟨payload, hp⟩ := Option.isSome_iff_exists.mp (isSome_rows_of.mpr hmeets.accepts)
    have honce := (once_iff t (hmem hp)).mpr ⟨hmeets.alike, hmeets.lasting items rfl⟩
    have hflags := (create_flags _ _ _).mpr honce
    refine ⟨_, by rw [pg_run, batch_create, hp]; rfl, ⟨?_, fun id => ?_, fun id => ?_, fun id => ?_⟩, by rintro _ _ _ ⟨⟩⟩
    · rw [mem_run]
      dsimp only
      rw [hres, hflags]
    · have hnodup : ((payload.filter (fun p => fresh at_now t.table p.1)).map Prod.fst).Nodup := by
        refine List.Nodup.sublist (List.filter_sublist.map Prod.fst) ?_
        rw [(rows_of_some hp).1]
        exact nodup_firsts [] items
      rw [mem_run]
      dsimp only
      rw [put_rows_apply _ hnodup, lookup_filter_key, hdocs, create_docs honce, Option.map_or, t.mirrors id]
      congr 1
      by_cases hf : fresh at_now t.table id
      · rw [if_pos hf, lookup_entity hp]
        by_cases hid : id ∈ items.map Prod.fst
        · rw [if_pos ((hmem hp id).mpr ⟨hid, hf⟩)]
        · rw [lookup_none_of_not_mem hid, ite_self]
      · rw [if_neg hf, if_neg fun hin => hf ((hmem hp id).mp hin).2, Option.map_none]
    · rw [mem_run]
      dsimp only
      rw [hres, create_changes, hflags]
    · rw [mem_run]
      dsimp only
      rw [hres, create_changes, hflags, consume_firsts (fun p => emit p.1 none (some p.2)) items
        (fun _ _ => List.not_mem_nil)]
      rfl

theorem consume_ids {γ : Type} (g : String → γ) (f : String → Bool) (asked : List String) :
    (asked.zip (consume (((firsts [] (asked.map (·, ()))).map Prod.fst).filter f) asked)).filterMap (fun p =>
      if p.2 then some (g p.1) else none) = (((firsts [] (asked.map (·, ()))).map Prod.fst).filter f).map g := by
  have hkeys : (asked.map (·, ())).map Prod.fst = asked := by rw [List.map_map]; exact List.map_id' asked
  have hnil : ∀ id ∈ ((firsts [] (asked.map (·, ()))).map Prod.fst).filter f, id ∉ ([] : List String) :=
    fun _ _ => List.not_mem_nil
  have h := consume_firsts (fun p => g p.1) (asked.map (·, ())) hnil
  rw [hkeys, List.zip_map_left, List.filterMap_map] at h
  refine h.trans ?_
  rw [List.filter_map, List.map_map]
  refine congrArg _ (List.filter_congr fun p hp => ?_)
  rw [Bool.eq_iff_iff, List.contains_iff_mem, List.mem_map]
  constructor
  · rintro ⟨q, hq, heq⟩
    have hf := (List.mem_filter.mp hq).2
    rw [Function.comp_apply, heq] at hf
    exact hf
  · intro hf
    exact ⟨p, List.mem_filter.mpr ⟨hp, hf⟩, rfl⟩

theorem delete_parity (t : Twin Instant Bytes tenant) (asked : List String) :
    Agree chrono codec now db at_now t (.delete asked : Call E) ↔
      Meets chrono now db at_now t.table (.delete asked : Call E) := by
  obtain ⟨hdocs, hres⟩ : docs tenant (each (delete_item chrono codec now tenant) t.store (asked.map (·, ()))).1 =
      (run (delete_cell chrono now) (docs tenant t.store) (asked.map (·, ()))).1 ∧
      (each (delete_item chrono codec now tenant) t.store (asked.map (·, ()))).2 =
        (run (delete_cell chrono now) (docs tenant t.store) (asked.map (·, ()))).2 :=
    each_run (delete_view codec tenant) (asked.map (·, ())) t.store
  have hmem : ∀ id, id ∈ ((firsts [] (asked.map (·, ()))).map Prod.fst).filter (fun id => (live at_now t.table id).isSome) ↔
      id ∈ asked ∧ (live at_now t.table id).isSome := by
    intro id
    rw [List.mem_filter, mem_keys_firsts, List.map_map]
    simp
  have hkey : (∀ id ∈ asked, (id ∈ ((firsts [] (asked.map (·, ()))).map Prod.fst).filter
      (fun id => (live at_now t.table id).isSome) ↔ (alive chrono now (docs tenant t.store id)).isSome)) ↔
      ∀ id ∈ asked, Alike chrono now at_now t.table id := by
    refine forall₂_congr fun id hid => ?_
    rw [hmem, and_iff_right hid]
    constructor
    · intro heq
      refine alike_of_isNone ?_
      rw [← Option.not_isSome, ← Option.not_isSome, Bool.eq_iff_iff.mpr heq]
    · intro halike
      rw [(alike_iff t id).mp halike]
  constructor
  · rintro ⟨e, hrun, hagree, -⟩
    obtain rfl := Option.some.inj hrun
    have hflags := Answers.flags.inj hagree.answers
    rw [hres] at hflags
    exact ⟨trivial, hkey.mp ((delete_flags _ _ _).mp hflags.symm), by rintro _ ⟨⟩⟩
  · intro hmeets
    have hsome := hkey.mpr hmeets.alike
    have hflags := (delete_flags _ _ _).mpr hsome
    have hemit : ∀ id ∈ ((firsts [] (asked.map (·, ()))).map Prod.fst).filter (fun id => (live at_now t.table id).isSome),
        emit id (alive chrono now (docs tenant t.store id)) none = emit id (live at_now t.table id) none := by
      intro id hid
      rw [(alike_iff t id).mp (hmeets.alike id ((hmem id).mp hid).1)]
    have hhook := delete_changes (fun id => emit id (live at_now t.table id) none) hsome hemit
    refine ⟨_, rfl, ⟨?_, fun id => ?_, fun id => ?_, fun id => ?_⟩, by rintro _ _ _ ⟨⟩⟩
    · rw [mem_run, batch_delete]
      dsimp only
      rw [hres, hflags]
    · rw [mem_run, batch_delete]
      dsimp only
      rw [hdocs, delete_docs hsome, ← t.mirrors id]
      by_cases hid : id ∈ ((firsts [] (asked.map (·, ()))).map Prod.fst).filter (fun id => (live at_now t.table id).isSome)
      · rw [if_pos (List.contains_iff_mem.mpr hid), if_pos ⟨hid, ((hmem id).mp hid).1⟩, Option.map_none]
      · rw [if_neg (fun h => hid (List.contains_iff_mem.mp h)), if_neg (fun h => hid h.1)]
    · rw [mem_run, batch_delete]
      dsimp only
      rw [hres, hhook]
    · rw [mem_run, batch_delete]
      dsimp only
      rw [hres, hhook, consume_ids (fun id => emit id (live at_now t.table id) none)]
      refine congrArg _ (List.map_congr_left fun a ha => ?_)
      obtain ⟨old, hold⟩ := Option.isSome_iff_exists.mp ((hmem a).mp ha).2
      rw [hold]
      rfl

theorem lookup_map {β γ : Type} (g : String → β → γ) (rows : List (String × β)) (id : String) :
    (rows.map (fun p => (p.1, g p.1 p.2))).lookup id = (rows.lookup id).map (g id) := by
  induction rows with
  | nil => rfl
  | cons p rows ih =>
      rw [List.map_cons, List.lookup_cons, List.lookup_cons, ih]
      by_cases hid : id = p.1
      · subst hid
        rw [beq_self_eq_true]
        rfl
      · rw [beq_eq_false_iff_ne.mpr hid]

theorem lookup_of_mem {β : Type} {rows : List (String × β)} (h : (rows.map Prod.fst).Nodup) {p : String × β}
    (hp : p ∈ rows) : rows.lookup p.1 = some p.2 := by
  induction rows with
  | nil => exact absurd hp List.not_mem_nil
  | cons q rows ih =>
      rw [List.map_cons, List.nodup_cons] at h
      rw [List.lookup_cons]
      rcases List.mem_cons.mp hp with rfl | hp
      · rw [beq_self_eq_true]
      · have hne : p.1 ≠ q.1 := fun he => h.1 (he ▸ List.mem_map_of_mem hp)
        rw [beq_eq_false_iff_ne.mpr hne, ih h.2 hp]

theorem new_row_version {doc : Value} {row : Row Instant} (h : new_row db doc = some row) : row.version = 1 := by
  unfold new_row at h
  obtain ⟨expires, -, h⟩ := Option.bind_eq_some_iff.mp h
  obtain ⟨created, -, rfl⟩ := Option.map_eq_some_iff.mp h
  rfl

theorem replaced_entity (old : Option (Row Instant)) (row : Row Instant) :
    (replaced at_now old row).entity = row.entity := by
  unfold replaced
  split
  · rfl
  · split_ifs <;> rfl

theorem version_replaced (old row : Row Instant) :
    (replaced at_now (some old) row).version = if old.expired at_now then row.version else old.version + 1 := by
  unfold replaced
  dsimp only
  split_ifs <;> rfl

/-- The version tells a creation: what replaces a live row counts on. -/
theorem replaced_version {db : Database Instant} {table : Table Instant} {id : String} {doc : Value} {row : Row Instant}
    (h : new_row db doc = some row) :
    ((table id).isNone || decide ((replaced at_now (table id) row).version = 1)) = (live at_now table id).isNone := by
  unfold live
  cases table id with
  | none => rfl
  | some old =>
      have hcounted := old.counted
      rw [Option.isNone_some, Bool.false_or, Option.filter_some, Bool.eq_iff_iff, decide_eq_true_iff, version_replaced,
        new_row_version h]
      cases old.expired at_now with
      | true => simp
      | false => simpa using Nat.pos_iff_ne_zero.mp hcounted

theorem map_keys {β γ δ : Type} (g : String → δ) {rows : List (String × β)} {items : List (String × γ)}
    (h : rows.map Prod.fst = items.map Prod.fst) : rows.map (fun p => g p.1) = items.map (fun p => g p.1) := by
  have hg := congrArg (List.map g) h
  rw [List.map_map, List.map_map] at hg
  exact hg

theorem upsert_docs (m : String → Option Value) {items : List (String × Value)} (h : (items.map Prod.fst).Nodup)
    (id : String) : (run (upsert_cell chrono now) m items).1 id = (items.lookup id).or (m id) := by
  by_cases hid : id ∈ items.map Prod.fst
  · obtain ⟨p, hp, rfl⟩ := List.mem_map.mp hid
    rw [run_cell items m h hp, lookup_of_mem h hp]
    rfl
  · rw [run_other items m hid, lookup_none_of_not_mem hid, Option.none_or]

theorem upsert_parity (t : Twin Instant Bytes tenant) {items : List (String × Value)} (h : (items.map Prod.fst).Nodup) :
    Agree chrono codec now db at_now t (.upsert items h : Call E) ↔
      Meets chrono now db at_now t.table (.upsert items h : Call E) := by
  obtain ⟨hdocs, hres⟩ : docs tenant (each (upsert_item chrono codec now tenant) t.store items).1 =
      (run (upsert_cell chrono now) (docs tenant t.store) items).1 ∧
      (each (upsert_item chrono codec now tenant) t.store items).2 =
        (run (upsert_cell chrono now) (docs tenant t.store) items).2 := each_run (upsert_view codec tenant) items t.store
  rw [run_results items _ h] at hres
  have hfirst : firsts [] items = items := firsts_of_nodup items h (fun _ _ => List.not_mem_nil)
  have hinserted : ∀ {payload : List (String × Row Instant)}, rows_of (new_row db) (firsts [] items) = some payload →
      ∀ p ∈ items, ((t.table p.1).isNone || ((payload.map (fun q => (q.1, replaced at_now (t.table q.1) q.2))).lookup p.1).any
        (fun r => r.version = 1)) = (live at_now t.table p.1).isNone := by
    intro payload hp p hmem
    have hlook := (rows_of_some hp).2 p.1
    rw [hfirst, lookup_of_mem h hmem, Option.bind_some] at hlook
    have hsome := isSome_rows_of.mp (Option.isSome_of_eq_some hp) p (hfirst.symm ▸ hmem)
    obtain ⟨row, hrow⟩ := Option.isSome_iff_exists.mp hsome
    rw [lookup_map (fun id => replaced at_now (t.table id)), hlook, hrow, Option.map_some, Option.any_some,
      replaced_version hrow]
  have hanswers : ∀ {payload : List (String × Row Instant)}, rows_of (new_row db) (firsts [] items) = some payload →
      (items.map (fun p => (t.table p.1).isNone ||
        ((payload.map (fun q => (q.1, replaced at_now (t.table q.1) q.2))).lookup p.1).any (fun r => r.version = 1)) =
        ((each (upsert_item chrono codec now tenant) t.store items).2.map Prod.fst) ↔
      ∀ id ∈ items.map Prod.fst, Alike chrono now at_now t.table id) := by
    intro payload hp
    rw [hres, List.map_map, List.map_inj_left, List.forall_mem_map]
    refine forall₂_congr fun p hmem => ?_
    rw [hinserted hp p hmem]
    constructor
    · exact alike_of_isNone
    · intro halike
      rw [(alike_iff t p.1).mp halike]
      rfl
  constructor
  · rintro ⟨e, hrun, hagree, -⟩
    rw [pg_run, batch_upsert, Option.map_map] at hrun
    obtain ⟨payload, hp, rfl⟩ := Option.map_eq_some_iff.mp hrun
    refine ⟨?_, (hanswers hp).mp (Answers.flags.inj hagree.answers), by rintro _ ⟨⟩⟩
    rw [Accepts, ← isSome_rows_of, ← hfirst, hp]
    rfl
  · intro hmeets
    have haccepts := hmeets.accepts
    rw [Accepts, ← isSome_rows_of, ← hfirst] at haccepts
    obtain ⟨payload, hp⟩ := Option.isSome_iff_exists.mp haccepts
    have hlive : ∀ p ∈ items, live at_now t.table p.1 = alive chrono now (docs tenant t.store p.1) := by
      intro p hmem
      exact (alike_iff t p.1).mp (hmeets.alike p.1 (List.mem_map_of_mem hmem))
    have hhook : (each (upsert_item chrono codec now tenant) t.store items).2.filterMap Prod.snd =
        items.map (fun p => emit p.1 (live at_now t.table p.1) (some p.2)) := by
      rw [hres, List.filterMap_map, ← List.filterMap_eq_map]
      refine List.filterMap_congr fun p hmem => ?_
      rw [Function.comp_apply, Function.comp_apply, hlive p hmem]
      rfl
    have hkeys : (payload.map (fun q => (q.1, replaced at_now (t.table q.1) q.2))).map Prod.fst = items.map Prod.fst := by
      rw [List.map_map, ← hfirst, ← (rows_of_some hp).1]
      rfl
    refine ⟨_, by rw [pg_run, batch_upsert, hp]; rfl, ⟨?_, fun id => ?_, fun id => ?_, fun id => ?_⟩, by rintro _ _ _ ⟨⟩⟩
    · rw [mem_run]
      dsimp only
      rw [(hanswers hp).mpr hmeets.alike]
    · rw [mem_run]
      dsimp only
      rw [put_rows_apply _ (hkeys ▸ h), lookup_map (fun id => replaced at_now (t.table id)), hdocs, upsert_docs _ h,
        Option.map_or, t.mirrors id, Option.map_map, ← lookup_entity hp]
      congr 2
      funext row
      exact replaced_entity _ _
    · rw [mem_run]
      dsimp only
      rw [hhook]
    · rw [mem_run]
      dsimp only
      rw [hhook]
      refine congrArg _ ((map_keys (fun id => (⟨if (t.table id).isNone || ((payload.map (fun q =>
        (q.1, replaced at_now (t.table q.1) q.2))).lookup id).any (fun r => r.version = 1) then .create else .update, id,
        live at_now t.table id, items.lookup id⟩ : Change)) hkeys).trans (List.map_congr_left fun p hmem => ?_))
      rw [hinserted hp p hmem, lookup_of_mem h hmem]
      cases live at_now t.table p.1 <;> rfl

theorem keys_filterMap {α γ : Type} (k : α → String) (g : α → Option γ) (l : List α) :
    ((l.filterMap (fun a => (g a).map (k a, ·))).map Prod.fst).Sublist (l.map k) := by
  induction l with
  | nil => exact List.Sublist.slnil
  | cons a l ih =>
      rw [List.filterMap_cons, List.map_cons]
      cases g a with
      | none => exact ih.cons _
      | some c => exact ih.cons_cons _

theorem live_table {table : Table Instant} {id : String} {d : Value} (h : live at_now table id = some d) :
    ∃ row, table id = some row ∧ row.entity = d := by
  obtain ⟨row, hrow, hd⟩ := Option.map_eq_some_iff.mp h
  exact ⟨row, (Option.filter_eq_some_iff.mp hrow).1, hd⟩

theorem edited_some {f : String → Value → Except E Value} {id : String} {cell : Option Value} {after : Value}
    (h : edited f id cell = some after) : ∃ d, cell = some d :=
  (Option.bind_eq_some_iff.mp h).imp fun _ hd => hd.1

theorem edited_or (f : String → Value → Except E Value) (id : String) (d : Value) :
    (edited f id (some d)).or (some d) = some ((f id d).toOption.getD d) := by
  rw [edited, Option.bind_some]
  cases f id d with
  | error e => rfl
  | ok after =>
      rw [Except.toOption, Option.filter_some]
      by_cases hc : after = d
      · simp [hc]
      · simp [hc]

section Mutation

variable (f : String → Value → Except E Value) (cells : String → Option Value) {ids : List String}

theorem mutation_changes (h : ids.Nodup) :
    (run (apply_closure f) cells (ids.map (·, ()))).2.filterMap Prod.snd =
      ids.filterMap (fun id => (edited f id (cells id)).map (fun after => emit id (cells id) (some after))) := by
  have hkeys : (ids.map (·, ())).map Prod.fst = ids := by rw [List.map_map]; exact List.map_id' ids
  rw [run_results _ _ (hkeys.symm ▸ h), List.map_map, List.filterMap_map]
  refine List.filterMap_congr fun id _ => ?_
  exact apply_closure_change f id (cells id) ()

theorem mutation_payload (h : ids.Nodup) :
    (((run (apply_closure f) cells (ids.map (·, ()))).2.filterMap Prod.snd).map Change.id).dedup.filterMap (fun id =>
      ((run (apply_closure f) cells (ids.map (·, ()))).1 id).map (id, ·)) =
      ids.filterMap (fun id => (edited f id (cells id)).map (id, ·)) := by
  have hkeys : (ids.map (·, ())).map Prod.fst = ids := by rw [List.map_map]; exact List.map_id' ids
  have hids : ((run (apply_closure f) cells (ids.map (·, ()))).2.filterMap Prod.snd).map Change.id =
      ids.filter (fun id => (edited f id (cells id)).isSome) := by
    rw [mutation_changes f cells h, List.map_filterMap, ← List.filterMap_eq_filter]
    refine List.filterMap_congr fun id _ => ?_
    rw [Option.guard]
    cases edited f id (cells id) <;> rfl
  rw [hids, (h.filter _).dedup, ← List.filterMap_eq_filter, List.filterMap_filterMap]
  refine List.filterMap_congr fun id hid => ?_
  have hcell : (run (apply_closure f) cells (ids.map (·, ()))).1 id = (edited f id (cells id)).or (cells id) := by
    have hmem : (id, ()) ∈ ids.map (·, ()) := List.mem_map_of_mem hid
    have hrun : (run (apply_closure f) cells (ids.map (·, ()))).1 id = (apply_closure f id (cells id) ()).1 :=
      run_cell _ cells (hkeys.symm ▸ h) hmem
    rw [hrun, apply_closure_fst]
  rw [Option.guard]
  cases hedit : edited f id (cells id) with
  | none => rfl
  | some after =>
      rw [Option.isSome_some, if_pos rfl, Option.bind_some, hcell, hedit]
      rfl

end Mutation

theorem mutate_parity (t : Twin Instant Bytes tenant) (f : String → Value → Except E Value) {ids : List String}
    (h : ids.Nodup) :
    Agree chrono codec now db at_now t (.mutate f ids h) ↔ Meets chrono now db at_now t.table (.mutate f ids h) := by
  obtain ⟨hdocs, hres⟩ : docs tenant (each (mutate_item chrono codec now tenant f) t.store (ids.map (·, ()))).1 =
      (run (mutate_cell chrono now f) (docs tenant t.store) (ids.map (·, ()))).1 ∧
      (each (mutate_item chrono codec now tenant f) t.store (ids.map (·, ()))).2 =
        (run (mutate_cell chrono now f) (docs tenant t.store) (ids.map (·, ()))).2 :=
    each_run (mutate_view codec tenant f) (ids.map (·, ())) t.store
  have hkeys : (ids.map (·, ())).map Prod.fst = ids := by rw [List.map_map]; exact List.map_id' ids
  have hmem_answers : (each (mutate_item chrono codec now tenant f) t.store (ids.map (·, ()))).2.map Prod.fst =
      ids.map (fun id => (alive chrono now (docs tenant t.store id)).map (fun d => (f id d).map (fun _ => ()))) := by
    rw [hres, run_results _ _ (hkeys.symm ▸ h), List.map_map, List.map_map]
    refine List.map_congr_left fun id _ => ?_
    rw [Function.comp_apply, Function.comp_apply, (mutate_cell_eq chrono now f id _ ()).2, apply_closure_answer]
  have hpg_answers : (run (apply_closure f) (live at_now t.table) (ids.map (·, ()))).2.map Prod.fst =
      ids.map (fun id => (live at_now t.table id).map (fun d => (f id d).map (fun _ => ()))) := by
    rw [run_results _ _ (hkeys.symm ▸ h), List.map_map, List.map_map]
    refine List.map_congr_left fun id _ => ?_
    rw [Function.comp_apply, Function.comp_apply, apply_closure_answer]
  have haccepts : (∀ p ∈ ids.filterMap (fun id => (edited f id (live at_now t.table id)).map (id, ·)),
      ((columns db p.2).map (p.2, ·)).isSome) ↔ Accepts db at_now t.table (.mutate f ids h) := by
    rw [Accepts]
    constructor
    · intro hall id hid after hedit
      have := hall (id, after) (List.mem_filterMap.mpr ⟨id, hid, by rw [hedit]; rfl⟩)
      rwa [Option.isSome_map] at this
    · intro hall p hp
      obtain ⟨id, hid, hp⟩ := List.mem_filterMap.mp hp
      obtain ⟨after, hedit, rfl⟩ := Option.map_eq_some_iff.mp hp
      rw [Option.isSome_map]
      exact hall id hid after hedit
  constructor
  · rintro ⟨e, hrun, hagree, -⟩
    rw [pg_run, batch_mutate, mutation_payload f _ h, Option.map_map] at hrun
    obtain ⟨rows, hrows, rfl⟩ := Option.map_eq_some_iff.mp hrun
    refine ⟨haccepts.mp (isSome_rows_of.mp (Option.isSome_of_eq_some hrows)), fun id hid => ?_, by rintro _ ⟨⟩⟩
    have hanswers := Answers.results.inj hagree.answers
    rw [hmem_answers, hpg_answers, List.map_inj_left] at hanswers
    refine alike_of_isNone ?_
    have := congrArg Option.isNone (hanswers id hid)
    rwa [Option.isNone_map, Option.isNone_map] at this
  · intro hmeets
    have hwritten : (rows_of (fun doc => (columns db doc).map (doc, ·))
        (ids.filterMap (fun id => (edited f id (live at_now t.table id)).map (id, ·)))).isSome :=
      isSome_rows_of.mpr (haccepts.mpr hmeets.accepts)
    obtain ⟨rows, hrows⟩ := Option.isSome_iff_exists.mp hwritten
    have hlive : ∀ id ∈ ids, live at_now t.table id = alive chrono now (docs tenant t.store id) := by
      intro id hid
      exact (alike_iff t id).mp (hmeets.alike id hid)
    have hnodup : (rows.map Prod.fst).Nodup := by
      rw [(rows_of_some hrows).1]
      have hsub := keys_filterMap id (fun id => edited f id (live at_now t.table id)) ids
      rw [List.map_id] at hsub
      exact h.sublist hsub
    have hupdated : ∀ id, ((rows.filterMap (fun p => (t.table p.1).map (fun row =>
        (p.1, rewritten row p.2.1 p.2.2)))).lookup id).map Row.entity =
        if id ∈ ids then edited f id (live at_now t.table id) else none := by
      intro id
      have hlook := lookup_filterMap (fun k (q : Value × Option Instant) =>
        (t.table k).map (fun row => rewritten row q.1 q.2)) hnodup id
      simp only [Option.map_map, Function.comp_def] at hlook
      rw [hlook, (rows_of_some hrows).2, lookup_filterMap_ids]
      split_ifs with hid
      · cases hedit : edited f id (live at_now t.table id) with
        | none => rfl
        | some after =>
            obtain ⟨d, hd⟩ := edited_some hedit
            obtain ⟨row, hrow, -⟩ := live_table hd
            obtain ⟨expires, hexpires⟩ := Option.isSome_iff_exists.mp (hmeets.accepts id hid after hedit)
            rw [Option.bind_some, hexpires, Option.map_some, Option.bind_some, hrow]
            rfl
      · rfl
    have hhook : (each (mutate_item chrono codec now tenant f) t.store (ids.map (·, ()))).2.filterMap Prod.snd =
        ids.filterMap (fun id => (edited f id (live at_now t.table id)).map (fun after =>
          emit id (live at_now t.table id) (some after))) := by
      rw [hres, run_results _ _ (hkeys.symm ▸ h), List.map_map, List.filterMap_map]
      refine List.filterMap_congr fun id hid => ?_
      rw [Function.comp_apply, Function.comp_apply, (mutate_cell_eq chrono now f id _ ()).2, apply_closure_change,
        hlive id hid]
    have hdocuments : ∀ id, (put_rows t.table (rows.filterMap (fun p => (t.table p.1).map (fun row =>
        (p.1, rewritten row p.2.1 p.2.2)))) id).map Row.entity =
        (if id ∈ ids then edited f id (live at_now t.table id) else none).or (docs tenant t.store id) := by
      intro id
      rw [put_rows_apply, Option.map_or, hupdated, t.mirrors id]
      have hsub := keys_filterMap Prod.fst (fun p : String × Value × Option Instant =>
        (t.table p.1).map (fun row => rewritten row p.2.1 p.2.2)) rows
      simp only [Option.map_map, Function.comp_def] at hsub
      exact hnodup.sublist hsub
    have hrun : pg_run db at_now t.table (.mutate f ids h) = some
        ⟨put_rows t.table (rows.filterMap (fun p => (t.table p.1).map (fun row => (p.1, rewritten row p.2.1 p.2.2)))),
          .results ((run (apply_closure f) (live at_now t.table) (ids.map (·, ()))).2.map Prod.fst),
          (run (apply_closure f) (live at_now t.table) (ids.map (·, ()))).2.filterMap Prod.snd,
          (((run (apply_closure f) (live at_now t.table) (ids.map (·, ()))).2.filterMap Prod.snd).filter (fun c =>
            ((rows.filterMap (fun p => (t.table p.1).map (fun row =>
              (p.1, rewritten row p.2.1 p.2.2)))).lookup c.id).isSome)).map (fun c => { c with op := .update })⟩ := by
      rw [pg_run, batch_mutate, mutation_payload f _ h, hrows]
      rfl
    refine ⟨_, hrun, ⟨?_, fun id => ?_, fun id => ?_, fun id => ?_⟩, ?_⟩
    · rw [mem_run]
      dsimp only
      rw [hmem_answers, hpg_answers]
      refine congrArg _ (List.map_congr_left fun id hid => ?_)
      rw [hlive id hid]
    · rw [mem_run]
      dsimp only
      rw [hdocuments, hdocs]
      by_cases hid : id ∈ ids
      · have hmem : (id, ()) ∈ ids.map (·, ()) := List.mem_map_of_mem hid
        have hcell : (run (mutate_cell chrono now f) (docs tenant t.store) (ids.map (·, ()))).1 id =
            (mutate_cell chrono now f id (docs tenant t.store id) ()).1 := run_cell _ _ (hkeys.symm ▸ h) hmem
        rw [if_pos hid, hcell, (mutate_cell_eq chrono now f id _ ()).1, hlive id hid]
      · rw [if_neg hid, run_other _ _ (hkeys.symm ▸ hid), Option.none_or]
    · rw [mem_run]
      dsimp only
      rw [hhook, mutation_changes f _ h]
    · rw [mem_run]
      dsimp only
      rw [hhook, mutation_changes f _ h]
      refine congrArg _ ?_
      have hkept : ∀ c ∈ ids.filterMap (fun id => (edited f id (live at_now t.table id)).map (fun after =>
          emit id (live at_now t.table id) (some after))), ((rows.filterMap (fun p => (t.table p.1).map (fun row =>
            (p.1, rewritten row p.2.1 p.2.2)))).lookup c.id).isSome ∧ { c with op := Op.update } = c := by
        intro c hc
        obtain ⟨k, hk, hc⟩ := List.mem_filterMap.mp hc
        obtain ⟨after, hedit, rfl⟩ := Option.map_eq_some_iff.mp hc
        obtain ⟨d, hd⟩ := edited_some hedit
        have hlook := congrArg Option.isSome (hupdated k)
        rw [Option.isSome_map, if_pos hk, hedit] at hlook
        exact ⟨hlook, by rw [hd]; rfl⟩
      rw [List.filter_eq_self.mpr fun c hc => (hkept c hc).1, List.map_congr_left fun c hc => (hkept c hc).2, List.map_id']
    · rintro f' ids' h' ⟨⟩
      refine ⟨by rw [hpg_answers], fun id hid d hd => ?_⟩
      dsimp only
      obtain ⟨row, hrow, hentity⟩ := live_table hd
      rw [hdocuments, if_pos hid, ← t.mirrors id, hrow, Option.map_some, hentity, hd, edited_or]

/-- Each batch has the same outcome on both drivers exactly if the database
takes its documents, no row expires apart from its document, and no creation
repeats the id of a document that is already past its expiry. -/
theorem batch_agrees (t : Twin Instant Bytes tenant) (call : Call E) :
    Agree chrono codec now db at_now t call ↔ Meets chrono now db at_now t.table call := by
  cases call with
  | create items => exact create_parity t items
  | delete ids => exact delete_parity t ids
  | upsert items distinct => exact upsert_parity t distinct
  | mutate f ids distinct => exact mutate_parity t f distinct

theorem expires_new_row {doc : Value} {row : Row Instant} (h : new_row db doc = some row) :
    (text_of doc "expiresAt" = none ∧ row.expires_at = none) ∨
      ∃ s i, text_of doc "expiresAt" = some s ∧ db.timestamptz s = some i ∧ row.expires_at = some i := by
  unfold new_row columns at h
  obtain ⟨expires, hexpires, h⟩ := Option.bind_eq_some_iff.mp h
  obtain ⟨created, -, rfl⟩ := Option.map_eq_some_iff.mp h
  split_ifs at hexpires
  obtain ⟨found, hfound, hexpires⟩ := Option.bind_eq_some_iff.mp hexpires
  obtain ⟨modified, -, rfl⟩ := Option.map_eq_some_iff.mp hexpires
  cases htext : text_of doc "expiresAt" with
  | none =>
      rw [htext] at hfound
      cases hfound
      exact .inl ⟨rfl, rfl⟩
  | some s =>
      rw [htext] at hfound
      obtain ⟨i, hi, rfl⟩ := Option.map_eq_some_iff.mp hfound
      exact .inr ⟨s, i, rfl, hi, rfl⟩

/-- Where the database reads a date as the broker does, a row and its document
part only at the very instant of the expiry. -/
theorem alike_new_row {doc : Value} {row : Row Instant} (h : new_row db doc = some row)
    (hreads : ∀ s i, db.timestamptz s = some i → chrono.parse_from_rfc3339 s = some i)
    (hnow : instant chrono now = some at_now) :
    row.expired at_now = expired_at chrono doc now ↔ row.expires_at ≠ some at_now := by
  rw [Row.expired, expired_at]
  rcases expires_new_row h with ⟨htext, hexpires⟩ | ⟨s, i, htext, hi, hexpires⟩
  · rw [text_of, Option.map_eq_none_iff] at htext
    rw [hexpires, htext]
    simp
  · obtain ⟨e, he, rfl⟩ := Option.map_eq_some_iff.mp htext
    have hinstant : instant chrono e = some i := hreads _ _ hi
    rw [hexpires, he, Option.any_some]
    dsimp only
    rw [hinstant, hnow]
    dsimp only
    rw [Bool.eq_iff_iff, decide_eq_true_iff, decide_eq_true_iff, Ne, Option.some.injEq]
    constructor
    · rintro hle rfl
      exact lt_irrefl _ (hle.mp le_rfl)
    · intro hne
      exact ⟨fun hle => lt_of_le_of_ne hle hne, le_of_lt⟩

end Parity

section Instants

def same_calendar : Database String where
  timestamptz := fixed_width.parse_from_rfc3339
  jsonb _ := true

def newYearText : String := "2026-01-01T00:00:00.000Z"

/-- A pass that ends with the year. -/
def pass : Value := .object [("id", .string "urn:p"), ("expiresAt", .string newYearText)]

def gate : TenantId := ⟨"gate", by decide⟩

theorem pass_row : (new_row same_calendar pass).map (fun r => (r.entity, r.expires_at)) = some (pass, some newYearText) := by
  decide

/-- Both drivers with the pass alone. -/
def one_pass : Twin String Value gate where
  store := ⟨Inner.insert ⟨fun _ => BTreeMap.empty, BTreeMap.empty⟩ .entity "gate" "urn:p" pass, none⟩
  table id := if id = "urn:p" then new_row same_calendar pass else none
  mirrors id := by
    rw [docs, Inner.get_insert]
    obtain ⟨row, hrow, hshape⟩ := Option.map_eq_some_iff.mp pass_row
    dsimp only
    by_cases hid : id = "urn:p"
    · rw [if_pos hid, if_pos ⟨rfl, rfl, hid⟩, hrow, Option.map_some, (Prod.mk.inj hshape).1]
    · rw [if_neg hid, if_neg fun h => hid h.2.2]
      rfl

/-- At the instant it expires memory deletes the pass and Postgres does not. -/
theorem delete_at_expiry :
    ¬Agree fixed_width plain newYearText same_calendar newYearText one_pass (.delete ["urn:p"] : Call Unit) := by
  rw [delete_parity]
  intro hmeets
  obtain ⟨row, hrow, hshape⟩ := Option.map_eq_some_iff.mp pass_row
  have halike := hmeets.alike "urn:p" List.mem_cons_self row hrow
  rw [Row.expired, (Prod.mk.inj hshape).1, (Prod.mk.inj hshape).2] at halike
  revert halike
  decide

end Instants

end AntaresBroker.BatchStore
