import Mathlib.Data.List.Basic

namespace AntaresBroker.Scanner

variable {σ α : Type} (advance : σ → α → Option σ)

/-- The pieces of a text between the elements that a machine does not pass; it
goes on behind one as it stood before it. -/
def split : σ → List α → List (List α)
  | _, [] => [[]]
  | q, a :: s =>
      match advance q a with
      | none => [] :: split q s
      | some q' => (split q' s).modifyHead (a :: ·)

/-- Where the machine stands behind a text all of which it passes. -/
def run (q : σ) (s : List α) : Option σ := s.foldlM advance q

variable {advance} {q q' q'' : σ} {s t : List α}

theorem run_nil : run advance q [] = some q := rfl

theorem run_cons (a : α) : run advance q (a :: s) = (advance q a).bind (fun q' => run advance q' s) := rfl

theorem run_append (hs : run advance q s = some q') (ht : run advance q' t = some q'') :
    run advance q (s ++ t) = some q'' := by
  rw [run, List.foldlM_append]
  exact (congrArg (· >>= fun q => t.foldlM advance q) hs).trans ht

theorem run_singleton {a : α} (h : advance q a = some q') : run advance q [a] = some q' := by
  rw [run_cons, h]
  rfl

/-- A text that leaves the machine where it stands. -/
theorem run_still (h : ∀ a ∈ s, advance q a = some q) : run advance q s = some q := by
  induction s with
  | nil => rfl
  | cons a s ih =>
      rw [run_cons, h a List.mem_cons_self]
      exact ih fun b hb => h b (List.mem_cons_of_mem a hb)

/-- A text of pieces that leave the machine where it stands, joined by an
element that does too. -/
theorem run_intercalate {sep : α} (hsep : advance q sep = some q) {pieces : List (List α)}
    (h : ∀ p ∈ pieces, run advance q p = some q) : run advance q ([sep].intercalate pieces) = some q := by
  induction pieces with
  | nil => rfl
  | cons p pieces ih =>
      have hp := h p List.mem_cons_self
      cases pieces with
      | nil =>
          rw [List.intercalate_singleton]
          exact hp
      | cons r rest =>
          rw [List.intercalate_cons_cons]
          exact run_append (run_append hp (run_singleton hsep)) (ih fun t ht => h t (List.mem_cons_of_mem p ht))

theorem split_append (h : run advance q s = some q') (t : List α) :
    split advance q (s ++ t) = (split advance q' t).modifyHead (s ++ ·) := by
  induction s generalizing q with
  | nil =>
      cases h
      exact (congrFun List.modifyHead_id _).symm
  | cons a s ih =>
      rw [run_cons] at h
      obtain ⟨p, hp, hs⟩ := Option.bind_eq_some_iff.mp h
      rw [List.cons_append, split, hp]
      dsimp only
      rw [ih hs, List.modifyHead_modifyHead]
      rfl

theorem split_passed (h : run advance q s = some q') : split advance q s = [s] := by
  have hsplit := split_append h []
  rw [List.append_nil] at hsplit
  rw [hsplit, split, List.modifyHead_cons, List.append_nil]

/-- Pieces that the machine passes, each back to where it stood, are told apart. -/
theorem split_intercalate {sep : α} (hsep : advance q sep = none) {pieces : List (List α)} (hne : pieces ≠ [])
    (h : ∀ p ∈ pieces, run advance q p = some q) : split advance q ([sep].intercalate pieces) = pieces := by
  induction pieces with
  | nil => exact absurd rfl hne
  | cons p pieces ih =>
      have hp := h p List.mem_cons_self
      cases pieces with
      | nil =>
          rw [List.intercalate_singleton]
          exact split_passed hp
      | cons r rest =>
          have hrest := ih (List.cons_ne_nil _ _) fun t ht => h t (List.mem_cons_of_mem p ht)
          rw [List.intercalate_cons_cons, List.append_assoc, split_append hp, List.singleton_append, split, hsep]
          dsimp only
          rw [hrest, List.modifyHead_cons, List.append_nil]

end AntaresBroker.Scanner
