import Mathlib.Data.List.Perm.Basic
import Mathlib.Order.Lattice
import Mathlib.Data.List.Induction

namespace AntaresBroker.Latest

variable {α κ : Type} [LinearOrder κ] (dead : α → Bool) (rank : α → κ)

/-- What is alive takes the place of something dead or older. -/
def newer (c a : α) : α := if dead c || rank c < rank a then a else c

def keep (cell : Option α) (a : α) : Option α :=
  if dead a then cell
  else match cell with
    | none => some a
    | some c => some (newer dead rank c a)

/-- The latest of what is alive, and nothing if nothing is. -/
def Best (l : List α) : Option α → Prop
  | none => ∀ a ∈ l, dead a = true
  | some i => i ∈ l ∧ dead i = false ∧ ∀ a ∈ l, dead a = false → rank a ≤ rank i

variable {dead rank}

theorem keep_dead {a : α} (h : dead a = true) (cell : Option α) : keep dead rank cell a = cell := if_pos h

theorem keep_none {a : α} (h : dead a = false) : keep dead rank none a = some a := if_neg (by rw [h]; exact Bool.false_ne_true)

theorem keep_some {a : α} (h : dead a = false) (c : α) : keep dead rank (some c) a = some (newer dead rank c a) :=
  if_neg (by rw [h]; exact Bool.false_ne_true)

theorem Best.congr {l l' : List α} (h : ∀ a, dead a = false → (a ∈ l ↔ a ∈ l')) {o : Option α} (ho : Best dead rank l o) :
    Best dead rank l' o := by
  cases o with
  | none =>
      intro a ha
      by_contra hd
      rw [Bool.not_eq_true] at hd
      exact absurd (ho a ((h a hd).mpr ha)) (by rw [hd]; exact Bool.false_ne_true)
  | some i => exact ⟨(h i ho.2.1).mp ho.1, ho.2.1, fun a ha hd => ho.2.2 a ((h a hd).mpr ha) hd⟩

/-- Of things of different ranks one is the latest. -/
theorem Best.unique {l : List α} (hl : ∀ a ∈ l, ∀ b ∈ l, rank a = rank b → a = b) {o o' : Option α}
    (h : Best dead rank l o) (h' : Best dead rank l o') : o = o' := by
  cases o with
  | none =>
      cases o' with
      | none => rfl
      | some j => exact absurd (h j h'.1) (by rw [h'.2.1]; exact Bool.false_ne_true)
  | some i =>
      cases o' with
      | none => exact absurd (h' i h.1) (by rw [h.2.1]; exact Bool.false_ne_true)
      | some j =>
          have hrank := le_antisymm (h'.2.2 i h.1 h.2.1) (h.2.2 j h'.1 h'.2.1)
          rw [hl i h.1 j h'.1 hrank]

theorem best_keep {l : List α} {cell : Option α} (h : Best dead rank l cell) (a : α) :
    Best dead rank (l ++ [a]) (keep dead rank cell a) := by
  have hmem : a ∈ l ++ [a] := List.mem_append_right _ (List.mem_singleton.mpr rfl)
  cases ha : dead a with
  | true =>
      rw [keep_dead ha]
      refine h.congr fun b hb => ?_
      rw [List.mem_append, List.mem_singleton]
      refine ⟨.inl, fun hmem => hmem.resolve_right fun hba => ?_⟩
      rw [hba, ha] at hb
      cases hb
  | false =>
      cases cell with
      | none =>
          rw [keep_none ha]
          refine ⟨hmem, ha, fun b hb hd => ?_⟩
          rcases List.mem_append.mp hb with hb | hb
          · exact absurd (h b hb) (by rw [hd]; exact Bool.false_ne_true)
          · exact (List.mem_singleton.mp hb) ▸ le_refl _
      | some c =>
          obtain ⟨hc, hdead, hle⟩ := h
          rw [keep_some ha, newer, hdead, Bool.false_or]
          split_ifs with hlt
          · rw [decide_eq_true_eq] at hlt
            refine ⟨hmem, ha, fun b hb hd => ?_⟩
            rcases List.mem_append.mp hb with hb | hb
            · exact (hle b hb hd).trans hlt.le
            · exact (List.mem_singleton.mp hb) ▸ le_refl _
          · rw [decide_eq_true_eq, not_lt] at hlt
            refine ⟨List.mem_append_left _ hc, hdead, fun b hb hd => ?_⟩
            rcases List.mem_append.mp hb with hb | hb
            · exact hle b hb hd
            · exact (List.mem_singleton.mp hb) ▸ hlt

theorem foldl_keep_dead {l : List α} (h : ∀ a ∈ l, dead a = true) (cell : Option α) : l.foldl (keep dead rank) cell = cell := by
  induction l with
  | nil => rfl
  | cons a l ih =>
      rw [List.forall_mem_cons] at h
      rw [List.foldl_cons, keep_dead h.1, ih h.2]

theorem foldl_keep_best {l l₀ : List α} {cell : Option α} (h : Best dead rank l₀ cell) :
    Best dead rank (l₀ ++ l) (l.foldl (keep dead rank) cell) := by
  induction l using List.reverseRecOn with
  | nil => rwa [List.append_nil]
  | append_singleton l a ih =>
      rw [List.foldl_concat, ← List.append_assoc]
      exact best_keep ih a

/-- A dead thing in the cell gives way to the latest that is alive. -/
theorem foldl_keep_of_dead {l : List α} (h : ∃ a ∈ l, dead a = false) {c : α} (hc : dead c = true) :
    Best dead rank l (l.foldl (keep dead rank) (some c)) := by
  have hsame : l.foldl (keep dead rank) (some c) = l.foldl (keep dead rank) none := by
    obtain ⟨a, ha, hd⟩ := h
    induction l with
    | nil => cases ha
    | cons b l ih =>
        rw [List.foldl_cons, List.foldl_cons]
        cases hb : dead b with
        | true =>
            rw [keep_dead hb, keep_dead hb]
            rcases List.mem_cons.mp ha with rfl | ha
            · rw [hd] at hb
              cases hb
            · exact ih ha
        | false =>
            rw [keep_none hb, keep_some hb, newer, hc, Bool.true_or, if_pos rfl]
  rw [hsame]
  have hbest := foldl_keep_best (l := l) (show Best dead rank ([] : List α) none from fun _ h => by cases h)
  rwa [List.nil_append] at hbest

end AntaresBroker.Latest
