import AntaresBroker.Temporal
import Mathlib.Data.Finset.Card

namespace AntaresBroker.Temporal

open Json Ql Registry

section Windows

variable {tq : Option TemporalQ} {pr : Projection} {timeprop : String}

theorem latest_cons (t : String) (ts : List String) : ∃ u ∈ t :: ts, latest (t :: ts) = some u ∧
    ∀ v ∈ t :: ts, dt_key v ≤ dt_key u := by
  have hfold (ts : List String) (t : String) : ∃ u ∈ t :: ts,
      ts.foldl (fun m t => some (m.elim t (fun m => if dt_key m < dt_key t then t else m))) (some t) = some u ∧
        ∀ v ∈ t :: ts, dt_key v ≤ dt_key u := by
    induction ts generalizing t with
    | nil => exact ⟨t, List.mem_cons_self, rfl, by simp⟩
    | cons w ts ih =>
        rw [List.foldl_cons, Option.elim_some]
        by_cases h : dt_key t < dt_key w
        · obtain ⟨u, hu, hfold, hle⟩ := ih w
          rw [if_pos h]
          refine ⟨u, List.mem_cons_of_mem _ hu, hfold, fun v hv => ?_⟩
          rcases List.mem_cons.mp hv with rfl | hv
          · exact h.le.trans (hle w List.mem_cons_self)
          · exact hle v hv
        · obtain ⟨u, hu, hfold, hle⟩ := ih t
          rw [if_neg h]
          refine ⟨u, ?_, hfold, fun v hv => ?_⟩
          · exact (List.mem_cons.mp hu).elim (fun h => h ▸ List.mem_cons_self)
              (fun h => List.mem_cons_of_mem _ (List.mem_cons_of_mem _ h))
          · rcases List.mem_cons.mp hv with rfl | hv
            · exact hle v List.mem_cons_self
            · rcases List.mem_cons.mp hv with rfl | hv
              · exact (not_lt.mp h).trans (hle t List.mem_cons_self)
              · exact hle v (List.mem_cons_of_mem _ hv)
  exact hfold ts t

theorem latest_eq_some {ts : List String} {u : String} (h : latest ts = some u) : u ∈ ts ∧ ∀ v ∈ ts, dt_key v ≤ dt_key u := by
  cases ts with
  | nil => cases h
  | cons t ts =>
      obtain ⟨w, hw, hlatest, hle⟩ := latest_cons t ts
      obtain rfl := Option.some.inj (hlatest.symm.trans h)
      exact ⟨hw, hle⟩

theorem latest_eq_none {ts : List String} : latest ts = none ↔ ts = [] := by
  cases ts with
  | nil => exact ⟨fun _ => rfl, fun _ => rfl⟩
  | cons t ts =>
      obtain ⟨u, -, hlatest, -⟩ := latest_cons t ts
      rw [hlatest]
      simp

theorem earliest_eq_none {ts : List String} : earliest ts = none ↔ ts = [] := by
  have hfold (ts : List String) (t : String) : ∃ u,
      ts.foldl (fun m t => some (m.elim t (fun m => if dt_key t < dt_key m then t else m))) (some t) = some u := by
    induction ts generalizing t with
    | nil => exact ⟨t, rfl⟩
    | cons w ts ih => exact ih _
  cases ts with
  | nil => exact ⟨fun _ => rfl, fun _ => rfl⟩
  | cons t ts =>
      obtain ⟨u, hu⟩ := hfold ts t
      rw [earliest, List.foldl_cons, Option.elim_none, hu]
      simp

theorem mem_latest_parts {parts : List (List String)} {u : String} (h : latest (parts.filterMap latest) = some u) :
    (∃ p ∈ parts, u ∈ p) ∧ ∀ p ∈ parts, ∀ v ∈ p, dt_key v ≤ dt_key u := by
  obtain ⟨hu, hle⟩ := latest_eq_some h
  obtain ⟨p, hp, hlatest⟩ := List.mem_filterMap.mp hu
  refine ⟨⟨p, hp, (latest_eq_some hlatest).1⟩, fun q hq v hv => ?_⟩
  cases hq' : latest q with
  | none => exact absurd hv (latest_eq_none.mp hq' ▸ List.not_mem_nil)
  | some w => exact ((latest_eq_some hq').2 v hv).trans (hle w (List.mem_filterMap.mpr ⟨q, hq, hq'⟩))

theorem mem_window {doc : Value} {k : String} {insts : List Value} : (k, insts) ∈ window tq pr timeprop doc ↔
    ∃ v, (k, v) ∈ doc.as_object.getD [] ∧ pr.takes k v = true ∧ instances tq pr timeprop k v = insts ∧ insts ≠ [] := by
  rw [window, List.mem_filter, List.mem_filterMap]
  constructor
  · rintro ⟨⟨p, hp, htakes⟩, hne⟩
    obtain ⟨l, v⟩ := p
    split_ifs at htakes with h
    obtain ⟨rfl, rfl⟩ := Prod.ext_iff.mp (Option.some.inj htakes)
    exact ⟨v, hp, h, rfl, by simpa using hne⟩
  · rintro ⟨v, hv, htakes, rfl, hne⟩
    exact ⟨⟨(k, v), hv, by rw [if_pos htakes]⟩, by simpa using hne⟩

theorem instances_eq (hlast : pr.last_n = none) (k : String) (v : Value) : instances tq pr timeprop k v =
    (found tq pr k v).insertionSort (fun a b => order_key timeprop a ≤ order_key timeprop b) := by
  rw [instances, hlast]
  rfl

theorem mem_instances (hlast : pr.last_n = none) {k : String} {v inst : Value} :
    inst ∈ instances tq pr timeprop k v ↔ inst ∈ found tq pr k v := by
  rw [instances_eq hlast]
  exact List.mem_insertionSort _

theorem mem_found_of_matches {k : String} {v inst : Value} (hmem : inst ∈ items v)
    (htq : tq.all (fun tq => instance_matches tq inst) = true) (hds : pr.in_dataset inst = true) : inst ∈ found tq pr k v := by
  have hmem : inst ∈ (items v).filter (fun inst => tq.all (fun tq => instance_matches tq inst) && pr.in_dataset inst) :=
    List.mem_filter.mpr ⟨hmem, by rw [htq, hds]; rfl⟩
  rw [found]
  split_ifs
  · exact List.mem_append_left _ hmem
  · exact hmem

theorem max_by_key_mem {α : Type} {f : α → List Char} {l : List α} {a : α} (h : max_by_key f l = some a) : a ∈ l := by
  have hfold (l : List α) (m : Option α)
      (h : l.foldl (fun m a => some (m.elim a (fun m => if f m ≤ f a then a else m))) m = some a) : a ∈ l ∨ m = some a := by
    induction l generalizing m with
    | nil => exact Or.inr h
    | cons b l ih =>
        rw [List.foldl_cons] at h
        rcases ih _ h with h | h
        · exact Or.inl (List.mem_cons_of_mem _ h)
        · cases m with
          | none => exact Or.inl (Option.some.inj h ▸ List.mem_cons_self)
          | some c =>
              rw [Option.elim_some] at h
              split_ifs at h
              · exact Or.inl (Option.some.inj h ▸ List.mem_cons_self)
              · exact Or.inr h
  exact (hfold l none h).resolve_right (by simp)

theorem found_subset {k : String} {v inst : Value} (h : inst ∈ found tq pr k v) : inst ∈ items v := by
  have hcarried : ∀ c ∈ carried tq v, c ∈ items v := by
    intro c hc
    obtain ⟨start, -, hmax⟩ := Option.bind_eq_some_iff.mp hc
    exact (List.mem_filter.mp (max_by_key_mem hmax)).1
  rw [found] at h
  split_ifs at h
  · rcases List.mem_append.mp h with h | h
    · exact (List.mem_filter.mp h).1
    · exact hcarried _ (Option.mem_toList.mp (List.mem_filter.mp h).1)
  · exact (List.mem_filter.mp h).1

/-- At most one instance in a window has no stamp: the carried one. -/
theorem countP_unstamped_le (t : TemporalQ) (k : String) (v : Value) :
    (found (some t) pr k v).countP (fun inst => (key t.timeproperty inst).isNone) ≤ 1 := by
  have hzero : ((items v).filter (fun inst => (some t).all (fun tq => instance_matches tq inst) && pr.in_dataset inst)).countP
      (fun inst => (key t.timeproperty inst).isNone) = 0 := by
    rw [List.countP_eq_zero]
    intro inst hinst hnone
    obtain ⟨-, hmatch⟩ := List.mem_filter.mp hinst
    rw [Option.all_some, Bool.and_eq_true, instance_matches, Option.isNone_iff_eq_none.mp hnone] at hmatch
    exact absurd hmatch.1 (by simp)
  rw [found]
  split_ifs
  · rw [List.countP_append, hzero, Nat.zero_add]
    refine List.countP_le_length.trans ((List.length_filter_le _ _).trans ?_)
    exact Option.length_toList_le
  · rw [hzero]
    exact Nat.zero_le 1

theorem found_matches {t : TemporalQ} {k : String} {v inst : Value} (h : inst ∈ found (some t) pr k v) :
    instance_matches t inst = true ∨ carried (some t) v = some inst := by
  rw [found] at h
  have hmatch {l : List Value}
      (h : inst ∈ l.filter (fun inst => (some t).all (fun tq => instance_matches tq inst) && pr.in_dataset inst)) :
      instance_matches t inst = true := ((Bool.and_eq_true _ _).mp (List.mem_filter.mp h).2).1
  split_ifs at h
  · rcases List.mem_append.mp h with h | h
    · exact Or.inl (hmatch h)
    · exact Or.inr (Option.mem_toList.mp (List.mem_filter.mp h).1)
  · exact Or.inl (hmatch h)

theorem dt_key_ne_nil {s : String} (h : s ≠ "") : dt_key s ≠ [] := by
  have hlist : s.toList ≠ [] := fun hnil => h (String.toList_eq_nil_iff.mp hnil)
  rw [dt_key]
  split_ifs
  · cases Text.splitAtByte 19 s.toList.dropLast with
    | none => exact hlist
    | some p => simp
  · exact hlist

theorem eq_nil_of_le {s : List Char} (h : s ≤ []) : s = [] := by
  cases s with
  | nil => rfl
  | cons c s => exact absurd (List.nil_lt_cons c s) (not_lt.mpr h)

theorem instance_matches_start {t : TemporalQ} {start : String} (hstart : named_start t = some start) {inst : Value}
    (h : instance_matches t inst = true) : ∃ u, key t.timeproperty inst = some u ∧ dt_key start ≤ u := by
  obtain ⟨u, hu, h⟩ := (Option.any_eq_true _ _).mp h
  refine ⟨u, hu, ?_⟩
  unfold named_start at hstart
  split_ifs at hstart with hrel
  obtain rfl := Option.some.inj hstart
  rcases hrel with hrel | hrel
  · simp only [hrel] at h
    simpa using h
  · simp only [hrel] at h
    simp only [String.reduceEq, if_false, if_true, Bool.and_eq_true, decide_eq_true_eq] at h
    exact h.1

/-- The instance at the limit has a stamp: an unstamped one is the first. -/
theorem key_at_limit {t : TemporalQ} {start : String} (hstart : named_start t = some start) (hne : start ≠ "")
    (hlast : pr.last_n = none) {k : String} {v x : Value} {n : Nat} (hn : n ≠ 0)
    (hx : (instances (some t) pr t.timeproperty k v)[n]? = some x) : ∃ u, key t.timeproperty x = some u := by
  by_contra hnone
  have hnone : key t.timeproperty x = none := by
    rw [← Option.not_isSome_iff_eq_none, Option.isSome_iff_exists]
    exact hnone
  have hperm := List.perm_insertionSort (fun a b => order_key t.timeproperty a ≤ order_key t.timeproperty b)
    (found (some t) pr k v)
  have hsorted := List.pairwise_insertionSort (fun a b => order_key t.timeproperty a ≤ order_key t.timeproperty b)
    (found (some t) pr k v)
  rw [instances_eq hlast] at hx
  cases hl : (found (some t) pr k v).insertionSort (fun a b => order_key t.timeproperty a ≤ order_key t.timeproperty b) with
  | nil => rw [hl] at hx; cases hx
  | cons a rest =>
      rw [hl] at hx hperm hsorted
      obtain ⟨m, rfl⟩ := Nat.exists_eq_succ_of_ne_zero hn
      have hxr : x ∈ rest := List.mem_of_getElem? (by simpa using hx)
      have hle : order_key t.timeproperty a ≤ order_key t.timeproperty x := (List.pairwise_cons.mp hsorted).1 x hxr
      have hunstamped : order_key t.timeproperty x = [] := by
        rw [order_key, Option.map_eq_none_iff.mp hnone]
        rfl
      have hcount : (found (some t) pr k v).countP (fun inst => (key t.timeproperty inst).isNone) ≤ 1 :=
        countP_unstamped_le t k v
      rw [← hperm.countP_eq] at hcount
      have hrest : 0 < rest.countP (fun inst => (key t.timeproperty inst).isNone) :=
        List.countP_pos_iff.mpr ⟨x, hxr, by rw [hnone]; rfl⟩
      have hcarried : carried (some t) v = some x := by
        refine (found_matches (hperm.mem_iff.mp (List.mem_cons_of_mem a hxr))).resolve_left fun hmatch => ?_
        obtain ⟨u, hu, -⟩ := instance_matches_start hstart hmatch
        rw [hnone] at hu
        cases hu
      rcases found_matches (hperm.mem_iff.mp (List.mem_cons_self (a := a))) with hmatch | hsame
      · obtain ⟨u, hu, hle'⟩ := instance_matches_start hstart hmatch
        have hkey : order_key t.timeproperty a = u := by
          obtain ⟨w, hw, rfl⟩ := Option.map_eq_some_iff.mp hu
          rw [order_key, hw]
          rfl
        rw [hkey, hunstamped] at hle
        rw [eq_nil_of_le hle] at hle'
        exact dt_key_ne_nil hne (eq_nil_of_le hle')
      · rw [hcarried] at hsame
        rw [List.countP_cons, ← Option.some.inj hsame, hnone] at hcount
        simp only [Option.isNone_none, if_true] at hcount
        omega

end Windows

/-- A query, or the retrieval of one evolution. -/
inductive Request
  | query (Q : Query)
  | retrieve (id : String) (tq : TemporalQ) (projection : Projection)

namespace Request

def tq : Request → TemporalQ
  | query Q => Q.tq
  | retrieve _ tq _ => tq

def projection : Request → Projection
  | query Q => Q.projection
  | retrieve _ _ projection => projection

/-- The same request with another `timeAt`. -/
def asked_from (t : String) : Request → Request
  | query Q => query { Q with tq := { Q.tq with time_at := t } }
  | retrieve id tq projection => retrieve id { tq with time_at := t } projection

@[simp] theorem asked_from_tq (r : Request) (t : String) : (r.asked_from t).tq = { r.tq with time_at := t } := by
  cases r <;> rfl

@[simp] theorem asked_from_projection (r : Request) (t : String) : (r.asked_from t).projection = r.projection := by
  cases r <;> rfl

variable (r : Request)

def window_of (doc : Value) : List (String × List Value) := window (some r.tq) r.projection r.tq.timeproperty doc

/-- An attribute holds more instances in the window than are served at once. -/
def Cut (doc : Value) : Prop := overfull (r.window_of doc) ≠ []

/-- Not after the instant at which the evolution is cut. -/
def Within (doc inst : Value) : Prop :=
  r.Cut doc → (boundary r.tq.timeproperty false (r.window_of doc)).all (fun b => keeps r.tq.timeproperty false b inst) = true

instance (doc : Value) : Decidable (r.Cut doc) := inferInstanceAs (Decidable (_ ≠ _))

instance (doc inst : Value) : Decidable (r.Within doc inst) := inferInstanceAs (Decidable (_ → _))

/-- An instance the window admits. -/
def Admits (doc : Value) (k : String) (inst : Value) : Prop :=
  ∃ v, (k, v) ∈ doc.as_object.getD [] ∧ r.projection.takes k v = true ∧ inst ∈ items v ∧
    instance_matches r.tq inst = true ∧ r.projection.in_dataset inst = true

/-- A request of the kind that is continued: from a named instant on, with no number of instances. -/
structure Continuable : Prop where
  rel : r.tq.timerel = "after" ∨ r.tq.timerel = "between"
  named : r.tq.time_at ≠ ""
  all : r.projection.last_n = none

variable {r}

theorem Continuable.start (h : r.Continuable) : named_start r.tq = some r.tq.time_at := if_pos h.rel

theorem Admits.window (h : r.Continuable) {doc : Value} {k : String} {inst : Value} (ha : r.Admits doc k inst) :
    ∃ insts, (k, insts) ∈ r.window_of doc ∧ inst ∈ insts := by
  obtain ⟨v, hv, htakes, hmem, hmatch, hds⟩ := ha
  have hin : inst ∈ instances (some r.tq) r.projection r.tq.timeproperty k v :=
    (mem_instances h.all).mpr (mem_found_of_matches hmem hmatch hds)
  exact ⟨_, mem_window.mpr ⟨v, hv, htakes, rfl, List.ne_nil_of_mem hin⟩, hin⟩

theorem Admits.key (h : r.Continuable) {doc : Value} {k : String} {inst : Value} (ha : r.Admits doc k inst) :
    ∃ u, key r.tq.timeproperty inst = some u ∧ dt_key r.tq.time_at ≤ u := by
  obtain ⟨v, hv, htakes, hmem, hmatch, hds⟩ := ha
  exact instance_matches_start h.start hmatch

/-- The cut is at the instance with which some attribute reaches the limit. -/
theorem Cut.boundary (h : r.Continuable) {doc : Value} (hcut : r.Cut doc) :
    ∃ b, Temporal.boundary r.tq.timeproperty false (r.window_of doc) = some b ∧
      ∃ insts ∈ overfull (r.window_of doc),
        (insts[TEMPORAL_INSTANCE_LIMIT - 1]?).bind (Temporal.key r.tq.timeproperty) = some b := by
  have hmin (l : List (List Char)) (a : List Char) :
      l.foldl (fun a b => if decide (b < a) != false then b else a) a ∈ a :: l := by
    induction l generalizing a with
    | nil => exact List.mem_cons_self
    | cons b l ih =>
        rw [List.foldl_cons]
        refine (List.mem_cons.mp (ih _)).elim (fun h => ?_) (fun h => List.mem_cons_of_mem _ (List.mem_cons_of_mem _ h))
        rw [h]
        split_ifs
        · exact List.mem_cons_of_mem _ List.mem_cons_self
        · exact List.mem_cons_self
  rw [Temporal.boundary]
  cases hl : (overfull (r.window_of doc)).filterMap
      (fun insts => (insts[TEMPORAL_INSTANCE_LIMIT - 1]?).bind (Temporal.key r.tq.timeproperty)) with
  | cons a rest => exact ⟨_, rfl, List.mem_filterMap.mp (hl ▸ hmin rest a)⟩
  | nil =>
      obtain ⟨insts, hinsts⟩ := List.exists_mem_of_ne_nil _ hcut
      obtain ⟨hmapped, hlong⟩ := List.mem_filter.mp hinsts
      obtain ⟨⟨k, insts⟩, hp, rfl⟩ := List.mem_map.mp hmapped
      obtain ⟨v, hv, htakes, rfl, -⟩ := mem_window.mp hp
      have hlt : TEMPORAL_INSTANCE_LIMIT - 1 < (instances (some r.tq) r.projection r.tq.timeproperty k v).length :=
        lt_of_le_of_lt (Nat.sub_le _ _) (of_decide_eq_true hlong)
      obtain ⟨u, hu⟩ := key_at_limit h.start h.named h.all (by decide) (List.getElem?_eq_getElem hlt)
      have hnone := List.filterMap_eq_nil_iff.mp hl _ hinsts
      rw [List.getElem?_eq_getElem hlt, Option.bind_some, hu] at hnone
      cases hnone

theorem mem_of_overfull {doc : Value} {insts : List Value} (h : insts ∈ overfull (r.window_of doc)) :
    ∃ p ∈ r.window_of doc, p.2 = insts := List.mem_map.mp (List.mem_filter.mp h).1

/-- What is served of an evolution: the instances not after its cut. -/
theorem Continuable.served (h : r.Continuable) (doc : Value) :
    Temporal.served (some r.tq) r.projection r.tq.timeproperty doc =
      ⟨(r.window_of doc).map (fun p => (p.1, p.2.filter (fun inst => decide (r.Within doc inst)))), decide (r.Cut doc)⟩ := by
  rw [Temporal.served, h.all, Option.isSome_none, truncate, ← window_of]
  by_cases hcut : r.Cut doc
  · rw [if_neg hcut, decide_eq_true hcut]
    obtain ⟨b, hb, -⟩ := hcut.boundary h
    have hwithin (inst : Value) : decide (r.Within doc inst) = keeps r.tq.timeproperty false b inst := by
      rw [Bool.eq_iff_iff, decide_eq_true_eq, Within, hb, Option.all_some]
      exact ⟨fun hw => hw hcut, fun hw _ => hw⟩
    simp only [hb, hwithin]
  · rw [if_pos (not_not.mp hcut), decide_eq_false hcut]
    have hwithin (inst : Value) : decide (r.Within doc inst) = true := decide_eq_true fun hc => absurd hc hcut
    simp [hwithin]

end Request

section Continuing

variable {Instant : Type} [LinearOrder Instant] (env : Entities.Env Instant) (rows : List Value)

/-- The evolutions a request is answered with. -/
def page : Request → List Value
  | .query Q => query_page env Q rows
  | .retrieve id _ _ => (rows.find? (fun doc => Entities.id_of doc = id)).toList

/-- The range of the answer, if it is a partial one. -/
def answer_range (r : Request) : Option ContentRange :=
  range_of (some r.tq) r.projection r.tq.timeproperty (page env rows r)

def Serves (r : Request) (doc : Value) (k : String) (inst : Value) : Prop :=
  doc ∈ page env rows r ∧
    ∃ insts, (k, insts) ∈ (served (some r.tq) r.projection r.tq.timeproperty doc).attrs ∧ inst ∈ insts

/-- The latest instant of the page up to the cuts of its evolutions. -/
structure Latest (r : Request) (t : String) : Prop where
  reached : ∃ doc ∈ page env rows r, ∃ p ∈ r.window_of doc, ∃ inst ∈ p.2, r.Within doc inst ∧
    stamp r.tq.timeproperty inst = some t
  last : ∀ doc ∈ page env rows r, ∀ p ∈ r.window_of doc, ∀ inst ∈ p.2, r.Within doc inst →
    ∀ u, key r.tq.timeproperty inst = some u → u ≤ dt_key t

/-- Repeated from the end of the range of each partial answer. -/
inductive Continues : Request → Request → Prop
  | refl (r : Request) : Continues r r
  | step {r s : Request} {range : ContentRange} : answer_range env rows r = some range →
      Continues (r.asked_from range.stop) s → Continues r s

variable {env rows} {r s : Request}

theorem mem_stamps (h : r.Continuable) {doc : Value} {t : String} :
    t ∈ stamps r.tq.timeproperty (served (some r.tq) r.projection r.tq.timeproperty doc).attrs ↔
      ∃ p ∈ r.window_of doc, ∃ inst ∈ p.2, r.Within doc inst ∧ stamp r.tq.timeproperty inst = some t := by
  rw [h.served, stamps, List.mem_flatMap]
  constructor
  · rintro ⟨_, hmapped, ht⟩
    obtain ⟨p, hp, rfl⟩ := List.mem_map.mp hmapped
    obtain ⟨inst, hinst, ht⟩ := List.mem_filterMap.mp ht
    obtain ⟨hinst, hw⟩ := List.mem_filter.mp hinst
    exact ⟨p, hp, inst, hinst, of_decide_eq_true hw, ht⟩
  · rintro ⟨p, hp, inst, hinst, hw, ht⟩
    exact ⟨_, List.mem_map_of_mem hp, List.mem_filterMap.mpr
      ⟨inst, List.mem_filter.mpr ⟨hinst, decide_eq_true hw⟩, ht⟩⟩

theorem Serves.of_within (h : r.Continuable) {doc : Value} {k : String} {inst : Value} (hdoc : doc ∈ page env rows r)
    (ha : r.Admits doc k inst) (hw : r.Within doc inst) : Serves env rows r doc k inst := by
  obtain ⟨insts, hp, hinst⟩ := ha.window h
  refine ⟨hdoc, insts.filter (fun inst => decide (r.Within doc inst)), ?_, List.mem_filter.mpr ⟨hinst, decide_eq_true hw⟩⟩
  rw [h.served]
  exact List.mem_map.mpr ⟨(k, insts), hp, rfl⟩

theorem answer_range_some (h : r.Continuable) {range : ContentRange} (hrange : answer_range env rows r = some range) :
    Latest env rows r range.stop ∧ ∃ doc ∈ page env rows r, r.Cut doc := by
  rw [answer_range, range_of, content_range] at hrange
  split_ifs at hrange with hcut
  obtain ⟨data_min, -, hrange⟩ := Option.bind_eq_some_iff.mp hrange
  obtain ⟨data_max, hmax, hrange⟩ := Option.bind_eq_some_iff.mp hrange
  rw [h.all] at hrange
  obtain rfl := Option.some.inj hrange
  have hparts : (List.map (served (some r.tq) r.projection r.tq.timeproperty) (page env rows r)).filterMap
      (fun w => latest (stamps r.tq.timeproperty w.attrs)) =
      ((page env rows r).map (fun doc =>
        stamps r.tq.timeproperty (served (some r.tq) r.projection r.tq.timeproperty doc).attrs)).filterMap latest := by
    rw [List.filterMap_map, List.filterMap_map]
    rfl
  rw [hparts] at hmax
  obtain ⟨⟨p, hp, hmem⟩, hle⟩ := mem_latest_parts hmax
  obtain ⟨doc, hdoc, rfl⟩ := List.mem_map.mp hp
  refine ⟨⟨⟨doc, hdoc, (mem_stamps h).mp hmem⟩, fun doc hdoc p hp inst hinst hw u hu => ?_⟩, ?_⟩
  · obtain ⟨w, hw', rfl⟩ := Option.map_eq_some_iff.mp hu
    exact hle _ (List.mem_map_of_mem hdoc) w ((mem_stamps h).mpr ⟨p, hp, inst, hinst, hw, hw'⟩)
  · rw [Bool.not_eq_true, Bool.not_eq_false'] at hcut
    obtain ⟨w, hw, htrunc⟩ := List.any_eq_true.mp hcut
    obtain ⟨doc, hdoc, rfl⟩ := List.mem_map.mp hw
    rw [h.served] at htrunc
    exact ⟨doc, hdoc, of_decide_eq_true htrunc⟩

theorem answer_range_none (h : r.Continuable) (hrange : answer_range env rows r = none) :
    ∀ doc ∈ page env rows r, ¬ r.Cut doc := by
  intro doc hdoc hcut
  obtain ⟨b, hb, insts, hover, hat⟩ := hcut.boundary h
  obtain ⟨inst, hinst, hkey⟩ := Option.bind_eq_some_iff.mp hat
  obtain ⟨p, hp, rfl⟩ := Request.mem_of_overfull hover
  obtain ⟨t, ht, rfl⟩ := Option.map_eq_some_iff.mp hkey
  have hw : r.Within doc inst := by
    intro _
    rw [hb, Option.all_some, keeps, hkey]
    simp
  have hmem := (mem_stamps h).mpr ⟨p, hp, inst, List.mem_of_getElem? hinst, hw, ht⟩
  have htrunc : ((page env rows r).map (served (some r.tq) r.projection r.tq.timeproperty)).any Windowed.truncated = true := by
    refine List.any_eq_true.mpr ⟨_, List.mem_map_of_mem hdoc, ?_⟩
    rw [h.served]
    exact decide_eq_true hcut
  have hsome {f : List String → Option String} (hf : ∀ ts, f ts = none ↔ ts = []) :
      f (((page env rows r).map (served (some r.tq) r.projection r.tq.timeproperty)).filterMap
        (fun w => f (stamps r.tq.timeproperty w.attrs))) ≠ none := by
    rw [Ne, hf, List.filterMap_eq_nil_iff]
    intro hnil
    have := (hf _).mp (hnil _ (List.mem_map_of_mem hdoc))
    rw [this] at hmem
    exact List.not_mem_nil hmem
  rw [answer_range, range_of, content_range, htrunc, Bool.not_true, if_neg Bool.false_ne_true] at hrange
  obtain ⟨lo, hlo⟩ := Option.ne_none_iff_exists'.mp (hsome fun ts => earliest_eq_none)
  obtain ⟨hi, hhi⟩ := Option.ne_none_iff_exists'.mp (hsome fun ts => latest_eq_none)
  rw [hlo, hhi, Option.bind_some, Option.bind_some, h.all] at hrange
  cases hrange

theorem Continues.trans {a b c : Request} (h : Continues env rows a b) (h' : Continues env rows b c) :
    Continues env rows a c := by
  induction h with
  | refl => exact h'
  | step hrange _ ih => exact Continues.step hrange (ih h')

/-- The instants of all instances of all rows. -/
def instants (rows : List Value) (timeprop : String) : List (List Char) :=
  rows.flatMap (fun doc => (doc.as_object.getD []).flatMap (fun p => (items p.2).filterMap (key timeprop)))

theorem mem_instants_retain {doc : Value} {rows : List Value} {timeprop : String} {keep : Value → Bool} (hdoc : doc ∈ rows)
    {k : String} {v inst : Value} (hv : (k, v) ∈ (retain keep doc).as_object.getD []) (hinst : inst ∈ items v) {u : List Char}
    (hu : key timeprop inst = some u) : u ∈ instants rows timeprop := by
  cases doc with
  | object o =>
      obtain ⟨p, hp, heq⟩ := List.mem_map.mp hv
      obtain ⟨rfl, rfl⟩ := Prod.ext_iff.mp heq
      refine List.mem_flatMap.mpr ⟨_, hdoc, List.mem_flatMap.mpr ⟨p, hp, List.mem_filterMap.mpr ⟨inst, ?_, hu⟩⟩⟩
      obtain ⟨l, w⟩ := p
      cases w with
      | array insts =>
          dsimp only at hinst
          split_ifs at hinst
          · exact hinst
          · exact (List.mem_filter.mp hinst).1
      | _ => exact hinst
  | _ => exact absurd hv List.not_mem_nil

/-- What a page holds comes from the rows. -/
theorem mem_instants {doc : Value} (hdoc : doc ∈ page env rows r) {k : String} {v inst : Value}
    (hv : (k, v) ∈ doc.as_object.getD []) (hinst : inst ∈ items v) {timeprop : String} {u : List Char}
    (hu : key timeprop inst = some u) : u ∈ instants rows timeprop := by
  have hown {row : Value} (hrow : row ∈ rows) (hv : (k, v) ∈ row.as_object.getD []) : u ∈ instants rows timeprop :=
    List.mem_flatMap.mpr ⟨row, hrow, List.mem_flatMap.mpr ⟨(k, v), hv, List.mem_filterMap.mpr ⟨inst, hinst, hu⟩⟩⟩
  cases r with
  | retrieve id tq projection => exact hown (List.mem_of_find?_eq_some (Option.mem_toList.mp hdoc)) hv
  | query Q =>
      have hmatch := (Q.arranges _).mem_iff.mp (List.mem_of_mem_drop (List.mem_of_mem_take hdoc))
      obtain ⟨row, hrow, hq⟩ := List.mem_filterMap.mp hmatch
      rw [qualify] at hq
      split_ifs at hq
      obtain ⟨hq, -⟩ := Option.filter_eq_some_iff.mp hq
      cases hs : Q.scope_q with
      | none =>
          rw [hs] at hq
          exact hown hrow (Option.some.inj hq ▸ hv)
      | some sq =>
          rw [hs] at hq
          dsimp only [scope_window_retain] at hq
          split_ifs at hq
          rw [← Option.some.inj hq] at hv
          exact mem_instants_retain hrow hv hinst hu

/-- Repeating a request ends, and every instance its window admits is in one of the answers. -/
def Continued (env : Entities.Env Instant) (rows : List Value) (r : Request) : Prop :=
  ∃ e, Continues env rows r e ∧ answer_range env rows e = none ∧
    ∀ doc ∈ page env rows r, ∀ k inst, r.Admits doc k inst →
      ∃ m, Continues env rows r m ∧ Continues env rows m e ∧ Serves env rows m doc k inst

/-- A request after whose partial answer the next one takes up all that is left. -/
structure Unbroken (env : Entities.Env Instant) (rows : List Value) (r : Request) : Prop where
  forward : (∃ doc ∈ page env rows r, r.Cut doc) → ∀ t, Latest env rows r t → dt_key r.tq.time_at < dt_key t
  gapless : ∀ doc ∈ page env rows r, ∀ k inst, r.Admits doc k inst → ¬ r.Within doc inst →
    ∀ t, Latest env rows r t → ∀ u, key r.tq.timeproperty inst = some u → dt_key t ≤ u
  stays : (∃ doc ∈ page env rows r, r.Cut doc) → ∀ t, Latest env rows r t → ∀ doc ∈ page env rows r,
    (∃ k inst u, r.Admits doc k inst ∧ key r.tq.timeproperty inst = some u ∧ dt_key t ≤ u) →
      doc ∈ page env rows (r.asked_from t)

theorem admits_later (h : r.Continuable) {doc : Value} {k : String} {inst : Value} (ha : r.Admits doc k inst)
    {t : String} {u : List Char} (hu : key r.tq.timeproperty inst = some u) (ht : dt_key t ≤ u) :
    (r.asked_from t).Admits doc k inst := by
  obtain ⟨v, hv, htakes, hmem, hmatch, hds⟩ := ha
  refine ⟨v, hv, by rwa [Request.asked_from_projection], hmem, ?_, by rwa [Request.asked_from_projection]⟩
  rw [Request.asked_from_tq]
  unfold instance_matches at hmatch ⊢
  rw [hu, Option.any_some] at hmatch
  dsimp only
  rw [hu, Option.any_some]
  rcases h.rel with hrel | hrel
  · simp only [hrel, String.reduceEq, if_false, if_true, decide_eq_true_eq]
    exact ht
  · simp only [hrel, String.reduceEq, if_false, if_true, Bool.and_eq_true, decide_eq_true_eq] at hmatch ⊢
    exact ⟨ht, hmatch.2⟩

/-- The instants left after a request; one fewer, at least, after the next. -/
def ahead (rows : List Value) (r : Request) : Finset (List Char) :=
  (instants rows r.tq.timeproperty).toFinset.filter (fun u => dt_key r.tq.time_at < u)

theorem ahead_asked_from {t : String} (hlatest : Latest env rows r t) (hlt : dt_key r.tq.time_at < dt_key t) :
    (ahead rows (r.asked_from t)).card < (ahead rows r).card := by
  obtain ⟨doc, hdoc, ⟨k, insts⟩, hp, inst, hinst, -, hstamp⟩ := hlatest.reached
  obtain ⟨v, hv, -, rfl, -⟩ := mem_window.mp hp
  have hkey : key r.tq.timeproperty inst = some (dt_key t) := by rw [key, hstamp]; rfl
  have hmem : dt_key t ∈ instants rows r.tq.timeproperty := by
    refine mem_instants hdoc hv ?_ hkey
    have hsub := hinst
    rw [instances] at hsub
    cases hn : r.projection.last_n with
    | none =>
        rw [hn] at hsub
        exact found_subset ((List.mem_insertionSort _).mp hsub)
    | some n =>
        rw [hn] at hsub
        exact found_subset ((List.mem_insertionSort _).mp (List.mem_of_mem_drop (List.mem_reverse.mp hsub)))
  apply Finset.card_lt_card
  rw [Finset.ssubset_iff_of_subset]
  · refine ⟨dt_key t, ?_, ?_⟩
    · rw [ahead, Finset.mem_filter, List.mem_toFinset]
      exact ⟨hmem, hlt⟩
    · rw [ahead, Finset.mem_filter, Request.asked_from_tq]
      exact fun h => lt_irrefl _ h.2
  · intro u hu
    rw [ahead, Finset.mem_filter, Request.asked_from_tq] at hu
    rw [ahead, Finset.mem_filter]
    exact ⟨hu.1, hlt.trans hu.2⟩

/-- A request continued to its end, if every request on the way is unbroken. -/
theorem continuation_complete (env : Entities.Env Instant) (rows : List Value) {r : Request} (h : r.Continuable)
    (hrun : ∀ s, Continues env rows r s → Unbroken env rows s) : Continued env rows r := by
  induction hn : (ahead rows r).card using Nat.strong_induction_on generalizing r with
  | _ n ih =>
      cases hrange : answer_range env rows r with
      | none =>
          refine ⟨r, .refl r, hrange, fun doc hdoc k inst ha => ⟨r, .refl r, .refl r, ?_⟩⟩
          exact Serves.of_within h hdoc ha fun hcut => absurd hcut (answer_range_none h hrange doc hdoc)
      | some range =>
          obtain ⟨hlatest, hcut⟩ := answer_range_some h hrange
          have hunbroken := hrun r (.refl r)
          have hlt := hunbroken.forward hcut _ hlatest
          have hnext : (r.asked_from range.stop).Continuable := by
            refine ⟨by rw [Request.asked_from_tq]; exact h.rel, ?_, by rw [Request.asked_from_projection]; exact h.all⟩
            rw [Request.asked_from_tq]
            rintro hempty
            rw [show range.stop = "" from hempty] at hlt
            exact absurd hlt (List.not_lt_nil _)
          obtain ⟨e, he, hend, hall⟩ := ih _ (hn ▸ ahead_asked_from hlatest hlt) hnext
            (fun s hs => hrun s (.step hrange hs)) rfl
          refine ⟨e, .step hrange he, hend, fun doc hdoc k inst ha => ?_⟩
          by_cases hw : r.Within doc inst
          · exact ⟨r, .refl r, .step hrange he, Serves.of_within h hdoc ha hw⟩
          · -- cut off: the next request takes it up
            obtain ⟨u, hu, -⟩ := ha.key h
            have hle := hunbroken.gapless doc hdoc k inst ha hw _ hlatest u hu
            obtain ⟨m, hm, hme, hserves⟩ := hall doc (hunbroken.stays hcut _ hlatest doc hdoc ⟨k, inst, u, ha, hu, hle⟩) k inst
              (admits_later h ha hu hle)
            exact ⟨m, .step hrange hm, hme, hserves⟩

/-- The retrieval of one evolution is unbroken if no attribute reaches the
limit at the instant it is asked from. -/
theorem retrieve_unbroken {id : String} {tq : TemporalQ} {projection : Projection}
    (h : (Request.retrieve id tq projection).Continuable)
    (hsparse : ∀ doc ∈ page env rows (.retrieve id tq projection),
      ∀ insts ∈ overfull ((Request.retrieve id tq projection).window_of doc),
        ((insts[TEMPORAL_INSTANCE_LIMIT - 1]?).bind (key tq.timeproperty)).all (fun u => dt_key tq.time_at < u) = true) :
    Unbroken env rows (.retrieve id tq projection) := by
  have hsame {doc doc' : Value} (hdoc : doc ∈ page env rows (.retrieve id tq projection))
      (hdoc' : doc' ∈ page env rows (.retrieve id tq projection)) : doc = doc' :=
    Option.some.inj ((Option.mem_toList.mp hdoc).symm.trans (Option.mem_toList.mp hdoc'))
  refine ⟨?_, ?_, fun _ t _ doc hdoc _ => hdoc⟩
  · rintro ⟨doc, hdoc, hcut⟩ t hlatest
    obtain ⟨b, hb, insts, hover, hat⟩ := hcut.boundary h
    have hlt : dt_key tq.time_at < b := by
      have := hsparse doc hdoc insts hover
      rw [show (Request.retrieve id tq projection).tq = tq from rfl] at hat
      rw [hat, Option.all_some] at this
      exact of_decide_eq_true this
    obtain ⟨inst, hinst, hkey⟩ := Option.bind_eq_some_iff.mp hat
    obtain ⟨p, hp, rfl⟩ := Request.mem_of_overfull hover
    refine lt_of_lt_of_le hlt (hlatest.last doc hdoc p hp inst (List.mem_of_getElem? hinst) (fun _ => ?_) b hkey)
    rw [hb, Option.all_some, keeps, hkey]
    simp
  · intro doc hdoc k inst ha hout t hlatest u hu
    obtain ⟨doc', hdoc', p, -, inst', -, hw, hstamp⟩ := hlatest.reached
    obtain rfl := hsame hdoc hdoc'
    obtain ⟨hcut, hout⟩ := Classical.not_imp.mp hout
    obtain ⟨b, hb, -⟩ := hcut.boundary h
    have hin := hw hcut
    have hkey : key (Request.retrieve id tq projection).tq.timeproperty inst' = some (dt_key t) := by
      rw [key, hstamp]
      rfl
    rw [hb, Option.all_some, keeps, hu] at hout
    rw [hb, Option.all_some, keeps, hkey] at hin
    simp only [Option.all_some, Bool.false_eq_true, if_false, decide_eq_true_eq] at hin hout
    exact hin.trans (not_le.mp hout).le

theorem continues_iff : Continues env rows r s ↔
    s = r ∨ ∃ range, answer_range env rows r = some range ∧ Continues env rows (r.asked_from range.stop) s := by
  constructor
  · rintro (_ | ⟨hrange, h⟩)
    · exact Or.inl rfl
    · exact Or.inr ⟨_, hrange, h⟩
  · rintro (rfl | ⟨range, hrange, h⟩)
    · exact .refl s
    · exact .step hrange h

end Continuing

def everything : Projection := ⟨none, [], none, none⟩

def after (t : String) : TemporalQ := ⟨"after", t, none, "observedAt"⟩

def reading (n t : String) : Value := .object [("observedAt", .string t), ("value", .string n)]

/-- Ten readings, one a minute. -/
def paced : Value := .object [
  ("id", .string "urn:car:1"),
  ("urn:speed", .array (["00", "01", "02", "03", "04", "05", "06", "07", "08", "09"].map (fun m =>
    reading m ("2024-01-01T00:" ++ m ++ ":00Z"))))]

def ask (t : String) : Request := .retrieve "urn:car:1" (after t) everything

theorem ask_continuable {t : String} (h : t ≠ "") : (ask t).Continuable := ⟨Or.inl rfl, h, rfl⟩

theorem continuation_complete_paced :
    Continued Entities.plain_env [paced] (ask "2024-01-01T00:00:00Z") := by
  refine continuation_complete _ _ (ask_continuable (by decide)) fun s hs => ?_
  have hfirst : answer_range Entities.plain_env [paced] (ask "2024-01-01T00:00:00Z") =
      some ⟨"2024-01-01T00:00:00Z", "2024-01-01T00:08:00Z", none⟩ := by decide +kernel
  have hsecond : answer_range Entities.plain_env [paced] (ask "2024-01-01T00:08:00Z") = none := by decide +kernel
  rcases continues_iff.mp hs with rfl | ⟨range, hrange, hs⟩
  · exact retrieve_unbroken (ask_continuable (by decide)) (by decide +kernel)
  · obtain rfl := Option.some.inj (hfirst.symm.trans hrange)
    rcases continues_iff.mp hs with rfl | ⟨range, hrange, hs⟩
    · exact retrieve_unbroken (ask_continuable (by decide)) (by decide +kernel)
    · exact absurd (hsecond.symm.trans hrange) (by simp)

/-- Ten readings at one instant. -/
def burst : Value := .object [
  ("id", .string "urn:car:1"),
  ("urn:speed", .array (["0", "1", "2", "3", "4", "5", "6", "7", "8", "9"].map (fun n =>
    reading n "2024-01-01T00:00:00Z")))]

/-- All of them are served, each time, as a part of what there is. -/
theorem continuation_never_ends : ¬ Continued Entities.plain_env [burst] (ask "2024-01-01T00:00:00Z") := by
  have hrange : answer_range Entities.plain_env [burst] (ask "2024-01-01T00:00:00Z") =
      some ⟨"2024-01-01T00:00:00Z", "2024-01-01T00:00:00Z", none⟩ := by decide +kernel
  have hsame {r s : Request} (h : Continues Entities.plain_env [burst] r s) (hr : r = ask "2024-01-01T00:00:00Z") :
      s = ask "2024-01-01T00:00:00Z" := by
    induction h with
    | refl r => exact hr
    | step hstep _ ih =>
        subst hr
        obtain rfl := Option.some.inj (hrange.symm.trans hstep)
        exact ih rfl
  rintro ⟨e, he, hend, -⟩
  rw [hsame he rfl, hrange] at hend
  cases hend

end AntaresBroker.Temporal
