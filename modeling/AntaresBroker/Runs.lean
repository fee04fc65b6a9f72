import Mathlib.Logic.Basic
import Mathlib.Data.Option.Basic

namespace AntaresBroker.Runs

variable {State Move : Type} (step : State → Move → Option State) (guard : State → Move → Prop)

/-- The states a run reaches by moves that are open and meet the guard. -/
inductive Run : State → State → Prop
  | refl (s : State) : Run s s
  | next {s t u : State} (m : Move) (h : Run s t) (hg : guard t m) (hs : step t m = some u) : Run s u

/-- The runs no guard restricts. -/
abbrev Free : State → State → Prop := Run step (fun _ _ => True)

/-- A list of moves from a state, `none` where one is not open or not guarded. -/
def exec [∀ s m, Decidable (guard s m)] : State → List Move → Option State
  | s, [] => some s
  | s, m :: ms => if guard s m then (step s m).bind (fun t => exec t ms) else none

variable {step guard} {s t u : State}

theorem Run.trans (h : Run step guard s t) (h' : Run step guard t u) : Run step guard s u := by
  induction h' with
  | refl => exact h
  | next m _ hg hs ih => exact .next m ih hg hs

/-- What holds at the start and is kept by every guarded move holds at the end. -/
theorem Run.keeps {P : State → Prop} (hstep : ∀ s m t, P s → guard s m → step s m = some t → P t)
    (h : Run step guard s t) (hs : P s) : P t := by
  induction h with
  | refl => exact hs
  | next m _ hg hm ih => exact hstep _ m _ ih hg hm

theorem Run.free (h : Run step guard s t) : Free step s t := by
  induction h with
  | refl => exact .refl _
  | next m _ _ hs ih => exact .next m ih trivial hs

theorem exec_cons [∀ s m, Decidable (guard s m)] {m : Move} {ms : List Move} (h : exec step guard s (m :: ms) = some t) :
    guard s m ∧ ∃ u, step s m = some u ∧ exec step guard u ms = some t := by
  rw [exec] at h
  by_cases hg : guard s m
  · rw [if_pos hg] at h
    exact ⟨hg, Option.bind_eq_some_iff.mp h⟩
  · rw [if_neg hg] at h
    cases h

theorem Run.of_exec [∀ s m, Decidable (guard s m)] {ms : List Move} (h : exec step guard s ms = some t) :
    Run step guard s t := by
  induction ms generalizing s with
  | nil =>
      cases h
      exact .refl _
  | cons m ms ih =>
      obtain ⟨hg, v, hv, hr⟩ := exec_cons h
      exact Run.trans (.next m (.refl s) hg hv) (ih hr)

/-- A part of the state that the moves of a run do not touch. -/
theorem exec_untouched [∀ s m, Decidable (guard s m)] {Part : Type} (part : State → Part)
    {ms : List Move}
    (hstep : ∀ m ∈ ms, ∀ s t, step s m = some t → part t = part s) (h : exec step guard s ms = some t) :
    part t = part s := by
  induction ms generalizing s with
  | nil =>
      cases h
      rfl
  | cons m ms ih =>
      obtain ⟨-, v, hv, hr⟩ := exec_cons h
      rw [ih (fun m' hm' => hstep m' (List.mem_cons_of_mem _ hm')) hr, hstep m List.mem_cons_self s v hv]

/-- Where one of several tasks has moved on, the others are still there. -/
theorem mem_of_eraseIdx {Task : Type} {f g : Task} {fs : List Task} {i : Nat} (hi : fs[i]? = some f) (hg : g ∈ fs)
    (hne : g ≠ f) : g ∈ fs.eraseIdx i := by
  obtain ⟨j, hj⟩ := List.mem_iff_getElem?.mp hg
  have hij : j ≠ i := fun hij => hne (Option.some_inj.mp (hj.symm.trans (hij ▸ hi)))
  exact List.mem_eraseIdx_iff_getElem?.mpr ⟨j, hij, hj⟩

end AntaresBroker.Runs
