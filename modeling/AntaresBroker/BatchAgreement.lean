import AntaresBroker.BatchStore
import AntaresBroker.Shadow

namespace AntaresBroker.BatchStore

open Expiry Json Mem KeyedLoop

section Cells

variable {Instant Bytes E : Type} [LinearOrder Instant] (chrono : Chrono Instant) (now : String)

/-- The document of a cell, if it has not expired. -/
def alive (cell : Option Value) : Option Value := cell.filter (fun d => !expired_at chrono d now)

def create_cell (id : String) (cell : Option Value) (doc : Value) : Option Value × Bool × Option Change :=
  if (alive chrono now cell).isSome then (cell, false, none) else (some doc, true, some (emit id none (some doc)))

def delete_cell (id : String) (cell : Option Value) (_ : Unit) : Option Value × Bool × Option Change :=
  match alive chrono now cell with
  | none => (cell, false, none)
  | some old => (none, true, some (emit id (some old) none))

def upsert_cell (id : String) (cell : Option Value) (doc : Value) : Option Value × Bool × Option Change :=
  (some doc, (alive chrono now cell).isNone, some (emit id (alive chrono now cell) (some doc)))

def mutate_cell (f : String → Value → Except E Value) (id : String) (cell : Option Value) (u : Unit) :
    Option Value × Option (Except E Unit) × Option Change :=
  match alive chrono now cell with
  | none => (cell, none, none)
  | some d => apply_closure f id (some d) u

variable {chrono now} (codec : Codec Bytes) (tenant : TenantId)

theorem is_expired_entity (s : Store Bytes) (id : String) :
    is_expired chrono s.inner .entity tenant.name id now = (docs tenant s id).any (fun d => expired_at chrono d now) := by
  rw [is_expired, docs, decide_eq_true rfl, Bool.true_and]

theorem docs_insert (s : Store Bytes) (sh : Option (Shadow Bytes)) (id : String) (d : Value) :
    docs tenant ⟨s.inner.insert .entity tenant.name id d, sh⟩ = Function.update (docs tenant s) id (some d) := by
  funext j
  rw [docs, Inner.get_insert, Function.update_apply]
  simp [docs]

theorem docs_remove (s : Store Bytes) (sh : Option (Shadow Bytes)) (id : String) :
    docs tenant ⟨s.inner.remove .entity tenant.name id, sh⟩ = Function.update (docs tenant s) id none := by
  funext j
  rw [docs, Inner.get_remove, Function.update_apply]
  simp [docs]

theorem docs_persist (s : Store Bytes) (table : Mem.Table) (key : String) (d : Option Value) :
    docs tenant (persist codec s table key d) = docs tenant s := by
  funext j
  rw [docs, Shadow.persist_inner, docs]

theorem create_view (s : Store Bytes) (p : String × Value) :
    docs tenant (create_item chrono codec now tenant s p).1 =
      Function.update (docs tenant s) p.1 (create_cell chrono now p.1 (docs tenant s p.1) p.2).1 ∧
    (create_item chrono codec now tenant s p).2 = (create_cell chrono now p.1 (docs tenant s p.1) p.2).2 := by
  have hentry : docs tenant { s with inner := s.inner.entry .entity tenant.name } = docs tenant s := by
    funext j
    rw [docs, Inner.get_entry, docs]
  unfold create_item create create_cell alive
  dsimp only
  rw [is_expired_entity, Inner.get_entry, ← docs]
  cases hcell : docs tenant s p.1 with
  | none =>
      refine ⟨?_, rfl⟩
      simp only [Option.isSome_none, Bool.false_and, Bool.false_eq_true, if_false, Option.filter_none]
      rw [docs_persist, docs_insert tenant { s with inner := s.inner.entry .entity tenant.name }, hentry]
  | some d =>
      rw [Option.any_some, Option.isSome_some, Bool.true_and, Option.filter_some]
      cases hexp : expired_at chrono d now with
      | true =>
          refine ⟨?_, rfl⟩
          simp only [Bool.not_true, Bool.false_eq_true, if_false, Option.isSome_none]
          rw [docs_persist, docs_insert tenant { s with inner := s.inner.entry .entity tenant.name }, hentry]
      | false =>
          refine ⟨?_, rfl⟩
          simp only [Bool.not_false, if_true, Option.isSome_some]
          rw [hentry, ← hcell, Function.update_eq_self]

theorem delete_view (s : Store Bytes) (p : String × Unit) :
    docs tenant (delete_item chrono codec now tenant s p).1 =
      Function.update (docs tenant s) p.1 (delete_cell chrono now p.1 (docs tenant s p.1) p.2).1 ∧
    (delete_item chrono codec now tenant s p).2 = (delete_cell chrono now p.1 (docs tenant s p.1) p.2).2 := by
  unfold delete_item delete delete_cell alive
  dsimp only
  rw [is_expired_entity, ← docs]
  cases hcell : docs tenant s p.1 with
  | none =>
      refine ⟨?_, rfl⟩
      simp only [Option.any_none, Bool.false_eq_true, if_false, Option.isSome_none, Option.filter_none]
      rw [docs_remove]
  | some d =>
      rw [Option.any_some, Option.filter_some]
      cases hexp : expired_at chrono d now with
      | true =>
          refine ⟨?_, rfl⟩
          simp only [if_true, Bool.not_true, Bool.false_eq_true, if_false]
          rw [← hcell, Function.update_eq_self]
      | false =>
          refine ⟨?_, rfl⟩
          simp only [Bool.false_eq_true, if_false, Option.isSome_some, if_true, Bool.not_false]
          rw [docs_persist, docs_remove]

theorem upsert_view (s : Store Bytes) (p : String × Value) :
    docs tenant (upsert_item chrono codec now tenant s p).1 =
      Function.update (docs tenant s) p.1 (upsert_cell chrono now p.1 (docs tenant s p.1) p.2).1 ∧
    (upsert_item chrono codec now tenant s p).2 = (upsert_cell chrono now p.1 (docs tenant s p.1) p.2).2 := by
  unfold upsert_item upsert upsert_cell alive
  dsimp only
  rw [is_expired_entity, ← docs, docs_persist, docs_insert]
  refine ⟨rfl, ?_⟩
  cases hcell : docs tenant s p.1 with
  | none => rfl
  | some d =>
      rw [Option.any_some, Option.filter_some]
      cases hexp : expired_at chrono d now <;> rfl

theorem mutate_view (f : String → Value → Except E Value) (s : Store Bytes) (p : String × Unit) :
    docs tenant (mutate_item chrono codec now tenant f s p).1 =
      Function.update (docs tenant s) p.1 (mutate_cell chrono now f p.1 (docs tenant s p.1) p.2).1 ∧
    (mutate_item chrono codec now tenant f s p).2 = (mutate_cell chrono now f p.1 (docs tenant s p.1) p.2).2 := by
  unfold mutate_item mutate mutate_cell alive
  dsimp only
  rw [is_expired_entity, ← docs]
  have hsame := (Function.update_eq_self p.1 (docs tenant s)).symm
  cases hcell : docs tenant s p.1 with
  | none =>
      rw [hcell] at hsame
      exact ⟨hsame, rfl⟩
  | some d =>
      rw [hcell] at hsame
      rw [Option.any_some, Option.filter_some]
      cases hexp : expired_at chrono d now with
      | true => exact ⟨hsame, rfl⟩
      | false =>
          simp only [Bool.false_eq_true, if_false, Bool.not_false, if_true, apply_closure]
          cases f p.1 d with
          | error e => exact ⟨hsame, rfl⟩
          | ok after =>
              simp only [Except.map, true_and]
              by_cases hc : after ≠ d
              · refine ⟨?_, by rw [if_pos hc, if_pos hc]; rfl⟩
                rw [if_pos hc, Shadow.persist_with_inner, docs_persist, docs_insert]
              · refine ⟨?_, by rw [if_neg hc, if_neg hc]; rfl⟩
                rw [if_neg hc, docs_insert]

end Cells

section Firsts

variable {β γ : Type}

theorem of_mem_firsts {seen : List String} {items : List (String × β)} {q : String × β} (h : q ∈ firsts seen items) :
    q ∈ items ∧ q.1 ∉ seen := by
  induction items generalizing seen with
  | nil => exact absurd h List.not_mem_nil
  | cons p items ih =>
      rw [firsts] at h
      split_ifs at h with hp
      · exact ⟨List.mem_cons_of_mem _ (ih h).1, (ih h).2⟩
      · rcases List.mem_cons.mp h with rfl | h
        · exact ⟨List.mem_cons_self, by simpa using hp⟩
        · exact ⟨List.mem_cons_of_mem _ (ih h).1, fun hq => (ih h).2 (List.mem_cons_of_mem _ hq)⟩

theorem mem_keys_firsts {seen : List String} {items : List (String × β)} {id : String} :
    id ∈ (firsts seen items).map Prod.fst ↔ id ∈ items.map Prod.fst ∧ id ∉ seen := by
  constructor
  · intro h
    obtain ⟨q, hq, rfl⟩ := List.mem_map.mp h
    exact ⟨List.mem_map_of_mem (of_mem_firsts hq).1, (of_mem_firsts hq).2⟩
  · rintro ⟨h, hseen⟩
    induction items generalizing seen with
    | nil => exact absurd h List.not_mem_nil
    | cons p items ih =>
        rw [firsts]
        rw [List.map_cons, List.mem_cons] at h
        split_ifs with hp
        · refine ih (h.resolve_left ?_) hseen
          rintro rfl
          exact hseen (by simpa using hp)
        · rw [List.map_cons, List.mem_cons]
          by_cases hid : id = p.1
          · exact .inl hid
          · exact .inr (ih (h.resolve_left hid) (by simp [hid, hseen]))

theorem nodup_firsts (seen : List String) (items : List (String × β)) : ((firsts seen items).map Prod.fst).Nodup := by
  induction items generalizing seen with
  | nil => exact List.nodup_nil
  | cons p items ih =>
      rw [firsts]
      split_ifs
      · exact ih seen
      · rw [List.map_cons, List.nodup_cons]
        refine ⟨fun h => ?_, ih _⟩
        exact (mem_keys_firsts.mp h).2 List.mem_cons_self

theorem lookup_firsts {seen : List String} (items : List (String × β)) {id : String} (h : id ∉ seen) :
    (firsts seen items).lookup id = items.lookup id := by
  induction items generalizing seen with
  | nil => rfl
  | cons p items ih =>
      rw [firsts, List.lookup_cons]
      split_ifs with hp
      · have hne : id ≠ p.1 := by
          rintro rfl
          exact h (by simpa using hp)
        rw [ih h, beq_eq_false_iff_ne.mpr hne]
      · by_cases hid : id = p.1
        · subst hid
          rw [List.lookup_cons, beq_self_eq_true]
        · rw [List.lookup_cons, beq_eq_false_iff_ne.mpr hid]
          exact ih (by simp [hid, h])

theorem firsts_of_nodup {seen : List String} (items : List (String × β)) (h : (items.map Prod.fst).Nodup)
    (hseen : ∀ id ∈ items.map Prod.fst, id ∉ seen) : firsts seen items = items := by
  induction items generalizing seen with
  | nil => rfl
  | cons p items ih =>
      rw [List.map_cons, List.nodup_cons] at h
      have hp : p.1 ∉ seen := hseen p.1 (by simp)
      rw [firsts, if_neg (by simpa using hp), ih h.2]
      intro id hid
      refine List.not_mem_cons_of_ne_of_not_mem ?_ (hseen id (by simp [List.mem_map.mp hid]))
      rintro rfl
      exact h.1 hid

/-- What answers once is what is first. -/
theorem consume_firsts (g : String × β → γ) {seen ids : List String} (items : List (String × β))
    (h : ∀ id ∈ ids, id ∉ seen) :
    (items.zip (consume ids (items.map Prod.fst))).filterMap (fun p => if p.2 then some (g p.1) else none) =
      ((firsts seen items).filter (fun p => ids.contains p.1)).map g := by
  induction items generalizing seen ids with
  | nil => rfl
  | cons p items ih =>
      have hrest : ∀ id ∈ ids.filter (· ≠ p.1), id ∉ seen := fun id hid => h id (List.mem_of_mem_filter hid)
      rw [List.map_cons, consume, List.zip_cons_cons, List.filterMap_cons]
      by_cases hp : seen.contains p.1
      · have hnot : ids.contains p.1 = false := by
          have hp : p.1 ∈ seen := by simpa using hp
          simpa using fun hid => h p.1 hid hp
        have hsame : ids.filter (· ≠ p.1) = ids := by
          refine List.filter_eq_self.mpr fun id hid => decide_eq_true ?_
          rintro rfl
          simp [hid] at hnot
        rw [firsts, if_pos hp, hnot, ih hrest, hsame]
        rfl
      · have hnew : ∀ id ∈ ids.filter (· ≠ p.1), id ∉ p.1 :: seen := by
          intro id hid
          rw [List.mem_filter, decide_eq_true_eq] at hid
          exact List.not_mem_cons_of_ne_of_not_mem hid.2 (h id hid.1)
        have hsame : (firsts (p.1 :: seen) items).filter (fun q => (ids.filter (· ≠ p.1)).contains q.1) =
            (firsts (p.1 :: seen) items).filter (fun q => ids.contains q.1) := by
          refine List.filter_congr fun q hq => ?_
          have hne : q.1 ≠ p.1 := fun he => (of_mem_firsts hq).2 (he ▸ List.mem_cons_self)
          rw [Bool.eq_iff_iff]
          simp [hne]
        rw [firsts, if_neg hp, ih hnew, hsame, List.filter_cons]
        cases ids.contains p.1 <;> rfl

end Firsts

section Runs

variable {Instant Bytes E : Type} [LinearOrder Instant] {chrono : Chrono Instant} {now : String}

/-- The ids that take a document, each once: an id is among them if nothing
alive is under it, and its document does not make room for the next one. -/
def Once (chrono : Chrono Instant) (now : String) (m : String → Option Value) (ids : List String)
    (items : List (String × Value)) : Prop :=
  ∀ id ∈ items.map Prod.fst, (id ∈ ids ↔ alive chrono now (m id) = none) ∧
    (alive chrono now (m id) = none → 1 < (items.map Prod.fst).count id →
      ∀ d, items.lookup id = some d → expired_at chrono d now = false)

theorem alive_some {d : Value} : alive chrono now (some d) = none ↔ expired_at chrono d now = true := by
  rw [alive, Option.filter_some]
  cases expired_at chrono d now <;> simp

theorem create_cell_fst (id : String) (cell : Option Value) (d : Value) :
    (create_cell chrono now id cell d).1 = if alive chrono now cell = none then some d else cell := by
  rw [create_cell]
  cases alive chrono now cell <;> rfl

theorem create_cell_flag (id : String) (cell : Option Value) (d : Value) :
    (create_cell chrono now id cell d).2.1 = (alive chrono now cell).isNone := by
  rw [create_cell]
  cases alive chrono now cell <;> rfl

theorem create_cell_change (id : String) (cell : Option Value) (d : Value) :
    (create_cell chrono now id cell d).2.2 =
      if (create_cell chrono now id cell d).2.1 then some (emit id none (some d)) else none := by
  rw [create_cell]
  cases alive chrono now cell <;> rfl

theorem once_cons {m : String → Option Value} {ids : List String} {p : String × Value} {items : List (String × Value)} :
    Once chrono now m ids (p :: items) ↔ (p.1 ∈ ids ↔ alive chrono now (m p.1) = none) ∧
      Once chrono now (Function.update m p.1 (create_cell chrono now p.1 (m p.1) p.2).1) (ids.filter (· ≠ p.1)) items := by
  have hself : ∀ id, id ≠ p.1 → (id ∈ ids.filter (· ≠ p.1) ↔ id ∈ ids) := by
    intro id hid
    rw [List.mem_filter, decide_eq_true_eq, and_iff_left hid]
  have hgone : p.1 ∉ ids.filter (· ≠ p.1) := fun h => by simpa using (List.mem_filter.mp h).2
  have hlook : ∀ id, id ≠ p.1 → (p :: items).lookup id = items.lookup id := by
    intro id hid
    rw [List.lookup_cons, beq_eq_false_iff_ne.mpr hid]
  have hcount : ∀ id, id ≠ p.1 → ((p :: items).map Prod.fst).count id = (items.map Prod.fst).count id := by
    intro id hid
    rw [List.map_cons, List.count_cons_of_ne (Ne.symm hid)]
  have hfirst : (p :: items).lookup p.1 = some p.2 := List.lookup_cons_self
  have htwice : 1 < ((p :: items).map Prod.fst).count p.1 ↔ p.1 ∈ items.map Prod.fst := by
    rw [List.map_cons, List.count_cons_self, ← List.count_pos_iff]
    omega
  constructor
  · intro h
    refine ⟨(h p.1 (by simp)).1, fun id hid => ?_⟩
    by_cases hne : id = p.1
    · subst hne
      have hlive : alive chrono now (create_cell chrono now p.1 (m p.1) p.2).1 ≠ none := by
        rw [create_cell_fst]
        split_ifs with hm
        · rw [Ne, alive_some, (h p.1 (by simp)).2 hm (htwice.mpr hid) p.2 hfirst]
          exact Bool.false_ne_true
        · exact hm
      rw [Function.update_self]
      exact ⟨⟨fun hin => absurd hin hgone, fun hin => absurd hin hlive⟩, fun hin => absurd hin hlive⟩
    · have := h id (List.mem_cons_of_mem _ hid)
      rw [hlook id hne, hcount id hne] at this
      rw [Function.update_of_ne hne, hself id hne]
      exact this
  · rintro ⟨hp, h⟩ id hid
    by_cases hne : id = p.1
    · subst hne
      refine ⟨hp, fun hm hcnt d hd => ?_⟩
      have hrest := (h p.1 (htwice.mp hcnt)).1
      rw [Function.update_self, create_cell_fst, if_pos hm, alive_some] at hrest
      rw [hfirst] at hd
      cases hd
      exact Bool.eq_false_iff.mpr fun hexp => hgone (hrest.mpr hexp)
    · have := h id ((List.mem_cons.mp hid).resolve_left hne)
      rw [Function.update_of_ne hne, hself id hne] at this
      rw [hlook id hne, hcount id hne]
      exact this

theorem create_flags (m : String → Option Value) (ids : List String) (items : List (String × Value)) :
    (run (create_cell chrono now) m items).2.map Prod.fst = consume ids (items.map Prod.fst) ↔
      Once chrono now m ids items := by
  induction items generalizing m ids with
  | nil => exact ⟨fun _ id hid => absurd hid List.not_mem_nil, fun _ => rfl⟩
  | cons p items ih =>
      rw [once_cons, run, List.map_cons, List.map_cons, consume, List.cons.injEq, ih, create_cell_flag]
      refine and_congr ?_ Iff.rfl
      rw [Bool.eq_iff_iff, Option.isNone_iff_eq_none, List.contains_iff_mem]
      exact iff_comm

theorem create_changes (m : String → Option Value) (items : List (String × Value)) :
    (run (create_cell chrono now) m items).2.filterMap Prod.snd =
      (items.zip ((run (create_cell chrono now) m items).2.map Prod.fst)).filterMap (fun p =>
        if p.2 then some (emit p.1.1 none (some p.1.2)) else none) := by
  induction items generalizing m with
  | nil => rfl
  | cons p items ih =>
      rw [run, List.map_cons, List.zip_cons_cons, List.filterMap_cons, List.filterMap_cons, create_cell_change, ih]

theorem create_docs {m : String → Option Value} {ids : List String} {items : List (String × Value)}
    (h : Once chrono now m ids items) (id : String) :
    (run (create_cell chrono now) m items).1 id = (if id ∈ ids then items.lookup id else none).or (m id) := by
  induction items generalizing m ids with
  | nil => split_ifs <;> rfl
  | cons p items ih =>
      rw [once_cons] at h
      rw [run, ih h.2]
      by_cases hid : id = p.1
      · subst hid
        rw [if_neg fun hin => by simpa using (List.mem_filter.mp hin).2, Option.none_or, Function.update_self,
          create_cell_fst, List.lookup_cons_self]
        by_cases hin : p.1 ∈ ids
        · rw [if_pos hin, if_pos (h.1.mp hin), Option.some_or]
        · rw [if_neg hin, if_neg (fun hm => hin (h.1.mpr hm)), Option.none_or]
      · rw [Function.update_of_ne hid, List.lookup_cons, beq_eq_false_iff_ne.mpr hid]
        simp [hid]

theorem alive_delete (id : String) (cell : Option Value) (u : Unit) :
    alive chrono now (delete_cell chrono now id cell u).1 = none := by
  unfold delete_cell
  cases h : alive chrono now cell with
  | none => exact h
  | some old => rfl

theorem delete_flags (m : String → Option Value) (ids asked : List String) :
    (run (delete_cell chrono now) m (asked.map (·, ()))).2.map Prod.fst = consume ids asked ↔
      ∀ id ∈ asked, (id ∈ ids ↔ (alive chrono now (m id)).isSome) := by
  induction asked generalizing m ids with
  | nil => simp [run, consume]
  | cons a asked ih =>
      have hflag : (delete_cell chrono now a (m a) ()).2.1 = (alive chrono now (m a)).isSome := by
        unfold delete_cell
        cases alive chrono now (m a) <;> rfl
      have hhead : (alive chrono now (m a)).isSome = ids.contains a ↔ (a ∈ ids ↔ (alive chrono now (m a)).isSome) := by
        rw [Bool.eq_iff_iff, List.contains_iff_mem]
        exact iff_comm
      rw [List.map_cons, run, List.map_cons, consume, List.cons.injEq, ih, List.forall_mem_cons, hflag, hhead]
      refine and_congr_right fun ha => forall₂_congr fun id _ => ?_
      by_cases hid : id = a
      · subst hid
        have hgone : id ∉ ids.filter (· ≠ id) := fun h => by simpa using (List.mem_filter.mp h).2
        rw [Function.update_self, alive_delete]
        exact ⟨fun _ => ha, fun _ => ⟨fun h => absurd h hgone, fun h => absurd h Bool.false_ne_true⟩⟩
      · rw [Function.update_of_ne hid, List.mem_filter, decide_eq_true_eq, and_iff_left hid]

theorem delete_changes (g : String → Change) {m : String → Option Value} {ids asked : List String}
    (h : ∀ id ∈ asked, (id ∈ ids ↔ (alive chrono now (m id)).isSome))
    (hg : ∀ id ∈ ids, emit id (alive chrono now (m id)) none = g id) :
    (run (delete_cell chrono now) m (asked.map (·, ()))).2.filterMap Prod.snd =
      (asked.zip (consume ids asked)).filterMap (fun p => if p.2 then some (g p.1) else none) := by
  induction asked generalizing m ids with
  | nil => rfl
  | cons a asked ih =>
      have hflags := (delete_flags m ids (a :: asked)).mpr h
      rw [List.map_cons, run, List.map_cons, consume, List.cons.injEq, delete_flags] at hflags
      have hkept : ∀ id ∈ ids.filter (· ≠ a), emit id
          (alive chrono now (Function.update m a (delete_cell chrono now a (m a) ()).1 id)) none = g id := by
        intro id hid
        rw [List.mem_filter, decide_eq_true_eq] at hid
        rw [Function.update_of_ne hid.2, hg id hid.1]
      have hchange : (delete_cell chrono now a (m a) ()).2.2 = if ids.contains a then some (g a) else none := by
        have ha := h a List.mem_cons_self
        unfold delete_cell
        cases halive : alive chrono now (m a) with
        | none =>
            rw [halive] at ha
            rw [if_neg (by simpa using ha)]
        | some old =>
            rw [halive] at ha
            have hin : a ∈ ids := ha.mpr rfl
            rw [if_pos (List.contains_iff_mem.mpr hin), ← hg a hin, halive]
      rw [List.map_cons, run, consume, List.zip_cons_cons, List.filterMap_cons, List.filterMap_cons, ih hflags.2 hkept,
        hchange]

theorem delete_docs {m : String → Option Value} {ids asked : List String}
    (h : ∀ id ∈ asked, (id ∈ ids ↔ (alive chrono now (m id)).isSome)) (id : String) :
    (run (delete_cell chrono now) m (asked.map (·, ()))).1 id = if id ∈ ids ∧ id ∈ asked then none else m id := by
  induction asked generalizing m ids with
  | nil => rw [if_neg (fun hin => absurd hin.2 List.not_mem_nil)]; rfl
  | cons a asked ih =>
      have hflags := (delete_flags m ids (a :: asked)).mpr h
      rw [List.map_cons, run, List.map_cons, consume, List.cons.injEq, delete_flags] at hflags
      rw [List.map_cons, run, ih hflags.2]
      by_cases hid : id = a
      · subst hid
        have ha := h id List.mem_cons_self
        rw [if_neg fun hin => by simpa using (List.mem_filter.mp hin.1).2, Function.update_self, delete_cell]
        cases halive : alive chrono now (m id) with
        | none =>
            rw [halive] at ha
            rw [if_neg fun hin => absurd (ha.mp hin.1) Bool.false_ne_true]
        | some old =>
            rw [halive] at ha
            rw [if_pos ⟨ha.mpr rfl, List.mem_cons_self⟩]
      · rw [Function.update_of_ne hid]
        simp [hid]

end Runs

end AntaresBroker.BatchStore
