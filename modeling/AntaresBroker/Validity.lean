import Mathlib.Order.Basic
import Mathlib.Data.List.Sort
import Mathlib.Data.Option.Basic

namespace AntaresBroker.Validity

variable {T α : Type} [LinearOrder T]

/-- What a record of settings has in force at `x`: of the entries set at or before `x`
the latest, and of these the last. -/
def in_force : List (T × α) → T → Option (T × α)
  | [], _ => none
  | e :: h, x => if e.1 ≤ x then some ((in_force h x).elim e (fun m => if m.1 < e.1 then e else m)) else in_force h x

/-- Each entry of a record with the time of the next. -/
def spans {T : Type} : List (T × α) → List (α × T × Option T)
  | [] => []
  | e :: h => (e.2, e.1, h.head?.map Prod.fst) :: spans h

/-- From the first time on and before the second, where there are such. -/
def Within (lower upper : Option T) (x : T) : Prop := (∀ a ∈ lower, a ≤ x) ∧ ∀ b ∈ upper, x < b

section Sorting

variable (l : List (T × α))

theorem in_force_swap {a b : T × α} (h : ¬ a.1 ≤ b.1) (x : T) : in_force (a :: b :: l) x = in_force (b :: a :: l) x := by
  have hlt : b.1 < a.1 := not_le.mp h
  cases hrest : in_force l x with
  | none =>
      by_cases ha : a.1 ≤ x
      · have hb : b.1 ≤ x := hlt.le.trans ha
        simp [in_force, hrest, ha, hb, hlt, hlt.not_gt]
      · by_cases hb : b.1 ≤ x <;> simp [in_force, hrest, ha, hb]
  | some m =>
      by_cases ha : a.1 ≤ x
      · have hb : b.1 ≤ x := hlt.le.trans ha
        by_cases hma : m.1 < a.1
        · by_cases hmb : m.1 < b.1 <;> simp [in_force, hrest, ha, hb, hma, hmb, hlt, hlt.not_gt]
        · have hmb : ¬ m.1 < b.1 := fun hmb => hma (hmb.trans hlt)
          simp [in_force, hrest, ha, hb, hma, hmb]
      · by_cases hb : b.1 ≤ x <;> simp [in_force, hrest, ha, hb]

theorem in_force_congr (a : T × α) {h h' : List (T × α)} {x : T} (heq : in_force h x = in_force h' x) :
    in_force (a :: h) x = in_force (a :: h') x := by
  rw [in_force, in_force, heq]

/-- The order of arrival counts for entries of one time only, and a stable sort keeps it. -/
theorem in_force_orderedInsert (a : T × α) (h : List (T × α)) (x : T) :
    in_force (h.orderedInsert (fun e f => e.1 ≤ f.1) a) x = in_force (a :: h) x := by
  induction h with
  | nil => rfl
  | cons b h ih =>
      by_cases hab : a.1 ≤ b.1
      · rw [List.orderedInsert_cons, if_pos hab]
      · rw [List.orderedInsert_cons, if_neg hab, in_force_congr b ih, ← in_force_swap h hab]

theorem in_force_sorted (h : List (T × α)) (x : T) :
    in_force (h.insertionSort (fun e f => e.1 ≤ f.1)) x = in_force h x := by
  induction h with
  | nil => rfl
  | cons a h ih => rw [List.insertionSort_cons, in_force_orderedInsert, in_force_congr a ih]

end Sorting

theorem in_force_mem {h : List (T × α)} {x : T} {e : T × α} (he : in_force h x = some e) : e ∈ h := by
  induction h generalizing e with
  | nil => exact nomatch he
  | cons a h ih =>
      rw [in_force] at he
      split_ifs at he with ha
      · cases hrest : in_force h x with
        | none =>
            rw [hrest, Option.elim_none, Option.some.injEq] at he
            exact he ▸ List.mem_cons_self
        | some m =>
            rw [hrest, Option.elim_some, Option.some.injEq] at he
            split_ifs at he
            · exact he ▸ List.mem_cons_self
            · exact List.mem_cons_of_mem a (he ▸ ih hrest)
      · exact List.mem_cons_of_mem a (ih he)

theorem in_force_none {h : List (T × α)} {x : T} (hlate : ∀ e ∈ h, x < e.1) : in_force h x = none := by
  induction h with
  | nil => rfl
  | cons a h ih =>
      rw [in_force, if_neg (hlate a List.mem_cons_self).not_ge]
      exact ih fun e he => hlate e (List.mem_cons_of_mem a he)

/-- Over a sorted record an entry is in force from its time to that of the next. -/
theorem in_force_iff {P : α → Prop} {h : List (T × α)} (hs : h.Pairwise (fun e f => e.1 ≤ f.1)) (x : T) :
    (∃ e, in_force h x = some e ∧ P e.2) ↔ ∃ p ∈ spans h, P p.1 ∧ Within (some p.2.1) p.2.2 x := by
  induction h with
  | nil => simp [in_force, spans]
  | cons a h ih =>
      obtain ⟨hfirst, hsorted⟩ := List.pairwise_cons.mp hs
      have hrest := ih hsorted
      cases h with
      | nil =>
          by_cases ha : a.1 ≤ x <;> simp [in_force, spans, Within, ha]
      | cons b h =>
          have hab : a.1 ≤ b.1 := hfirst b List.mem_cons_self
          rw [spans, List.exists_mem_cons_iff, ← hrest]
          by_cases hb : b.1 ≤ x
          · -- the later entries decide, the first being over
            obtain ⟨m, hm⟩ : ∃ m, in_force (b :: h) x = some m := by
              rw [in_force, if_pos hb]
              exact ⟨_, rfl⟩
            have hle : ¬ m.1 < a.1 := by
              intro hlt
              have hmem : ∀ e ∈ b :: h, a.1 ≤ e.1 := hfirst
              obtain ⟨e, he, heq⟩ : ∃ e ∈ b :: h, e = m := ⟨m, in_force_mem hm, rfl⟩
              exact (hmem e he).not_gt (heq ▸ hlt)
            have ha : a.1 ≤ x := hab.trans hb
            have hover : ¬ Within (some a.1) (some b.1) x := fun hw => (hw.2 b.1 rfl).not_ge hb
            rw [in_force, if_pos ha, hm]
            simp [hle, hover]
          · have hlate : ∀ e ∈ b :: h, x < e.1 := by
              intro e he
              rcases List.mem_cons.mp he with rfl | he
              · exact not_le.mp hb
              · exact (not_le.mp hb).trans_le ((List.pairwise_cons.mp hsorted).1 e he)
            rw [in_force, in_force_none hlate]
            by_cases ha : a.1 ≤ x <;> simp [Within, ha, not_le.mp hb]

/-- Two spans of time have an instant in common when each starts before the other is over. -/
theorem exists_within_iff (start : T) (stop lower upper : Option T) :
    (∃ x, Within lower upper x ∧ Within (some start) stop x) ↔
      (∀ b ∈ stop, start < b) ∧ (∀ b ∈ upper, start < b) ∧ ∀ a ∈ lower, (∀ b ∈ stop, a < b) ∧ ∀ b ∈ upper, a < b := by
  constructor
  · rintro ⟨x, ⟨hlower, hupper⟩, hstart, hstop⟩
    have hs : start ≤ x := hstart start rfl
    exact ⟨fun b hb => hs.trans_lt (hstop b hb), fun b hb => hs.trans_lt (hupper b hb),
      fun a ha => ⟨fun b hb => (hlower a ha).trans_lt (hstop b hb), fun b hb => (hlower a ha).trans_lt (hupper b hb)⟩⟩
  · rintro ⟨hstop, hupper, hlower⟩
    refine ⟨lower.elim start (max start), ⟨fun a ha => ?_, fun b hb => ?_⟩, fun a ha => ?_, fun b hb => ?_⟩
    · obtain rfl := Option.mem_def.mp ha
      exact le_max_right start a
    · cases hl : lower with
      | none => exact hupper b hb
      | some a => exact max_lt (hupper b hb) ((hlower a hl).2 b hb)
    · obtain rfl := Option.some.inj ha
      cases lower with
      | none => exact le_rfl
      | some a => exact le_max_left _ a
    · cases hl : lower with
      | none => exact hstop b hb
      | some a => exact max_lt (hstop b hb) ((hlower a hl).1 b hb)

theorem of_mem_spans {T : Type} {R : T × α → T × α → Prop} {h : List (T × α)} (hs : h.Pairwise R) {p : α × T × Option T}
    (hp : p ∈ spans h) : (p.2.1, p.1) ∈ h ∧ ∀ t ∈ p.2.2, ∃ e ∈ h, e.1 = t ∧ R (p.2.1, p.1) e := by
  induction h with
  | nil => cases hp
  | cons a h ih =>
      obtain ⟨hfirst, hrest⟩ := List.pairwise_cons.mp hs
      rcases List.mem_cons.mp hp with rfl | hp
      · refine ⟨List.mem_cons_self, fun t ht => ?_⟩
        obtain ⟨e, he, rfl⟩ := Option.map_eq_some_iff.mp ht
        have hmem : e ∈ h := List.mem_of_mem_head? he
        exact ⟨e, List.mem_cons_of_mem a hmem, rfl, hfirst e hmem⟩
      · obtain ⟨hmem, hnext⟩ := ih hrest hp
        refine ⟨List.mem_cons_of_mem a hmem, fun t ht => ?_⟩
        obtain ⟨e, he, heq, hR⟩ := hnext t ht
        exact ⟨e, List.mem_cons_of_mem a he, heq, hR⟩

theorem spans_map {T U : Type} (f : T → U) (h : List (T × α)) :
    spans (h.map (fun e => (f e.1, e.2))) = (spans h).map (fun p => (p.1, f p.2.1, p.2.2.map f)) := by
  induction h with
  | nil => rfl
  | cons e h ih =>
      rw [List.map_cons, spans, ih, spans, List.map_cons, List.head?_map, Option.map_map, Option.map_map]
      rfl

theorem spans_eq_zip {T : Type} (h : List (T × α)) :
    h.zip ((h.drop 1).map (fun e => some e.1) ++ [none]) = (spans h).map (fun p => ((p.2.1, p.1), p.2.2)) := by
  induction h with
  | nil => rfl
  | cons e h ih =>
      rw [spans, List.map_cons, ← ih]
      cases h <;> rfl

end AntaresBroker.Validity
