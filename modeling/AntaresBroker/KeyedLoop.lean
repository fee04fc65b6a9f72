import Mathlib.Data.List.Nodup
import Mathlib.Logic.Function.Basic

namespace AntaresBroker.KeyedLoop

variable {κ α β ρ σ : Type} [DecidableEq κ]

/-- One item after the other, each at the cell of its key. -/
def run (step : κ → Option α → β → Option α × ρ) (m : κ → Option α) : List (κ × β) → (κ → Option α) × List ρ
  | [] => (m, [])
  | p :: items =>
      let r := step p.1 (m p.1) p.2
      let rest := run step (Function.update m p.1 r.1) items
      (rest.1, r.2 :: rest.2)

/-- The items one after the other on a whole state. -/
def each (op : σ → β → σ × ρ) (s : σ) : List β → σ × List ρ
  | [] => (s, [])
  | b :: items =>
      let r := op s b
      let rest := each op r.1 items
      (rest.1, r.2 :: rest.2)

variable {step : κ → Option α → β → Option α × ρ}

theorem run_other (items : List (κ × β)) (m : κ → Option α) {k : κ} (hk : k ∉ items.map Prod.fst) :
    (run step m items).1 k = m k := by
  induction items generalizing m with
  | nil => rfl
  | cons p items ih =>
      rw [List.map_cons, List.mem_cons, not_or] at hk
      rw [run, ih _ hk.2, Function.update_of_ne hk.1]

/-- With distinct keys each item finds the cell as it was at the start. -/
theorem run_results (items : List (κ × β)) (m : κ → Option α) (h : (items.map Prod.fst).Nodup) :
    (run step m items).2 = items.map (fun p => (step p.1 (m p.1) p.2).2) := by
  induction items generalizing m with
  | nil => rfl
  | cons p items ih =>
      rw [List.map_cons, List.nodup_cons] at h
      rw [run, ih _ h.2, List.map_cons]
      refine congrArg (List.cons _) (List.map_congr_left fun q hq => ?_)
      rw [Function.update_of_ne]
      rintro heq
      exact h.1 (heq ▸ List.mem_map_of_mem hq)

theorem run_cell (items : List (κ × β)) (m : κ → Option α) (h : (items.map Prod.fst).Nodup) {p : κ × β} (hp : p ∈ items) :
    (run step m items).1 p.1 = (step p.1 (m p.1) p.2).1 := by
  induction items generalizing m with
  | nil => exact absurd hp List.not_mem_nil
  | cons q items ih =>
      rw [List.map_cons, List.nodup_cons] at h
      rw [run]
      rcases List.mem_cons.mp hp with rfl | hp
      · rw [run_other _ _ h.1, Function.update_self]
      · rw [ih _ h.2 hp, Function.update_of_ne]
        rintro heq
        exact h.1 (heq ▸ List.mem_map_of_mem hp)

/-- A loop over a whole state, seen through its cells. -/
theorem each_run {op : σ → κ × β → σ × ρ} {view : σ → κ → Option α}
    (h : ∀ s p, view (op s p).1 = Function.update (view s) p.1 (step p.1 (view s p.1) p.2).1 ∧
      (op s p).2 = (step p.1 (view s p.1) p.2).2) (items : List (κ × β)) (s : σ) :
    view (each op s items).1 = (run step (view s) items).1 ∧ (each op s items).2 = (run step (view s) items).2 := by
  induction items generalizing s with
  | nil => exact ⟨rfl, rfl⟩
  | cons p items ih =>
      obtain ⟨hview, hres⟩ := h s p
      obtain ⟨ihview, ihres⟩ := ih (op s p).1
      rw [each, run, ← hview, hres]
      exact ⟨ihview, congrArg _ ihres⟩

end AntaresBroker.KeyedLoop
