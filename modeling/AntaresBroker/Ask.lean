import Mathlib.Data.List.Basic

namespace AntaresBroker

/-- A computation that puts questions to its surroundings and goes on with the answers. -/
inductive Ask (Q R α : Type) where
  | done (a : α)
  | ask (q : Q) (k : R → Ask Q R α)

namespace Ask

variable {Q R α β : Type}

def bind : Ask Q R α → (α → Ask Q R β) → Ask Q R β
  | .done a, f => f a
  | .ask q k, f => .ask q (fun r => (k r).bind f)

instance : Monad (Ask Q R) where
  pure := done
  bind := bind

/-- The result when every question is answered at once. -/
def run (answer : Q → R) : Ask Q R α → α
  | .done a => a
  | .ask q k => (k (answer q)).run answer

/-- The questions put on the way, in order and with repetitions. -/
def asked (answer : Q → R) : Ask Q R α → List Q
  | .done _ => []
  | .ask q k => q :: (k (answer q)).asked answer

section Runs

variable (answer : Q → R)

@[simp] theorem run_pure (a : α) : (pure a : Ask Q R α).run answer = a := rfl

@[simp] theorem asked_pure (a : α) : (pure a : Ask Q R α).asked answer = [] := rfl

@[simp] theorem run_bind (x : Ask Q R α) (f : α → Ask Q R β) :
    (x >>= f).run answer = (f (x.run answer)).run answer := by
  induction x with
  | done a => rfl
  | ask q k ih => exact ih (answer q)

@[simp] theorem asked_bind (x : Ask Q R α) (f : α → Ask Q R β) :
    (x >>= f).asked answer = x.asked answer ++ (f (x.run answer)).asked answer := by
  induction x with
  | done a => rfl
  | ask q k ih => exact congrArg (q :: ·) (ih (answer q))

theorem run_foldlM (f : β → α → Ask Q R β) (items : List α) (b : β) :
    (items.foldlM f b).run answer = items.foldl (fun acc a => (f acc a).run answer) b := by
  induction items generalizing b with
  | nil => rfl
  | cons a items ih =>
      rw [List.foldlM_cons, run_bind]
      exact ih _

end Runs

/-- Whatever the answers are, each question is paid from a budget of `n` and
the rest of it is handed on. -/
def Paid (n : Nat) (x : Ask Q R (α × Nat)) : Prop :=
  ∀ answer : Q → R, (x.asked answer).length + (x.run answer).2 = n

namespace Paid

theorem done (a : α) (n : Nat) : Paid n (.done (a, n) : Ask Q R (α × Nat)) := by
  intro answer
  exact Nat.zero_add n

theorem ask {n : Nat} {q : Q} {k : R → Ask Q R (α × Nat)} (h : ∀ r, Paid n (k r)) :
    Paid (n + 1) (.ask q k) := by
  intro answer
  have hk := h (answer q) answer
  simp only [asked, run, List.length_cons]
  omega

theorem bind {n : Nat} {x : Ask Q R (α × Nat)} {f : α × Nat → Ask Q R (β × Nat)} (hx : Paid n x)
    (hf : ∀ a left, Paid left (f (a, left))) : Paid n (x >>= f) := by
  intro answer
  have h := hx answer
  have h' := hf (x.run answer).1 (x.run answer).2 answer
  simp only [asked_bind, run_bind, List.length_append, Prod.eta] at h' ⊢
  omega

theorem foldlM {f : β × Nat → α → Ask Q R (β × Nat)} (hf : ∀ b left a, Paid left (f (b, left) a)) (items : List α)
    (b : β) (n : Nat) : Paid n (items.foldlM f (b, n)) := by
  induction items generalizing b n with
  | nil => exact done b n
  | cons a items ih =>
      rw [List.foldlM_cons]
      exact (hf b n a).bind ih

end Paid

theorem Paid.asked_le {n : Nat} {x : Ask Q R (α × Nat)} (h : Paid n x) (answer : Q → R) :
    (x.asked answer).length ≤ n := by
  have := h answer
  omega

/-- Some answers, not the same each time a question is put, lead through the
questions to the result. -/
inductive Leads : Ask Q R α → List Q → α → Prop
  | done (a : α) : Leads (.done a) [] a
  | ask {q : Q} {k : R → Ask Q R α} {qs : List Q} {a : α} (r : R) (h : Leads (k r) qs a) : Leads (.ask q k) (q :: qs) a

theorem Leads.bind_inv {x : Ask Q R α} {f : α → Ask Q R β} {qs : List Q} {b : β} (h : Leads (x.bind f) qs b) :
    ∃ qs₁ a qs₂, Leads x qs₁ a ∧ Leads (f a) qs₂ b ∧ qs = qs₁ ++ qs₂ := by
  induction x generalizing qs with
  | done a => exact ⟨[], a, qs, .done a, h, rfl⟩
  | ask q k ih =>
      cases h with
      | ask r h =>
          obtain ⟨qs₁, a, qs₂, h₁, h₂, rfl⟩ := ih r h
          exact ⟨q :: qs₁, a, qs₂, .ask r h₁, h₂, rfl⟩

/-- The question that a computation stands at. -/
def question : Ask Q R α → Option Q
  | .done _ => none
  | .ask q _ => some q

section Feeding

variable [DecidableEq Q]

/-- What is left after some questions have been answered, each as it was put. -/
def fed : Ask Q R α → List (Q × R) → Option (Ask Q R α)
  | x, [] => some x
  | .done _, _ :: _ => none
  | .ask q k, p :: answers => if p.1 = q then (k p.2).fed answers else none

/-- Where the answers were those of the surroundings, the run ends in the same result. -/
theorem run_of_fed {answer : Q → R} {x : Ask Q R α} {l : List (Q × R)} {a : α} (h : x.fed l = some (.done a))
    (hl : ∀ p ∈ l, answer p.1 = p.2) : x.run answer = a := by
  induction l generalizing x with
  | nil =>
      cases x with
      | done b =>
          cases h
          rfl
      | ask q k => cases h
  | cons p l ih =>
      rw [List.forall_mem_cons] at hl
      cases x with
      | done b => cases h
      | ask q k =>
          rw [fed] at h
          split_ifs at h with hp
          rw [run, ← hp, hl.1]
          exact ih h hl.2

end Feeding

section Passes

variable [DecidableEq Q]

/-- One run against what is known: a question whose answer is not known yet
is noted and answered `absent`. -/
def pass (absent : R) (known : List (Q × R)) : Ask Q R α → α × List Q
  | .done a => (a, [])
  | .ask q k =>
      match known.lookup q with
      | some r => (k r).pass absent known
      | none => (((k absent).pass absent known).1, q :: ((k absent).pass absent known).2)

/-- Every noted question put for real, the later answer in front. -/
def fetch (answer : Q → R) (known : List (Q × R)) (missed : List Q) : List (Q × R) :=
  missed.foldl (fun known q => (q, answer q) :: known) known

/-- At most `n` passes until one notes nothing, and a last run on what is
known then; with it the questions put for real. -/
def passes (answer : Q → R) (absent : R) (x : Ask Q R α) : Nat → List (Q × R) → α × List Q
  | 0, known => (x.run (fun q => (known.lookup q).getD absent), [])
  | n + 1, known =>
      match x.pass absent known with
      | (a, []) => (a, [])
      | (_, q :: missed) =>
          let found := passes answer absent x n (fetch answer known (q :: missed))
          (found.1, q :: missed ++ found.2)

variable (answer : Q → R)

/-- What is known is what the surroundings answer. -/
def Sound (known : List (Q × R)) : Prop := ∀ q r, known.lookup q = some r → r = answer q

/-- The questions of the real run that are still open. -/
def pending (known : List (Q × R)) (x : Ask Q R α) : List Q :=
  (x.asked answer).filter (fun q => (known.lookup q).isNone)

theorem pass_eq (absent : R) (known : List (Q × R)) (x : Ask Q R α) :
    x.pass absent known = (x.run (fun q => (known.lookup q).getD absent),
      (x.asked (fun q => (known.lookup q).getD absent)).filter (fun q => (known.lookup q).isNone)) := by
  induction x with
  | done a => rfl
  | ask q k ih =>
      cases h : known.lookup q with
      | none => simp [pass, run, asked, h, ih]
      | some r => simp [pass, run, asked, h, ih]

variable {answer} {known : List (Q × R)}

theorem pass_of_pending (absent : R) (x : Ask Q R α) (hs : Sound answer known) (h : pending answer known x = []) :
    x.pass absent known = (x.run answer, []) := by
  induction x with
  | done a => rfl
  | ask q k ih =>
      cases hq : known.lookup q with
      | none => simp [pending, asked, hq] at h
      | some r =>
          obtain rfl := hs q r hq
          have hk : pending answer known (k (answer q)) = [] := by
            simpa [pending, asked, hq] using h
          simpa [pass, run, hq] using ih (answer q) hk

/-- Up to its first open question a pass follows the real run, so it notes that question. -/
theorem pending_missed (absent : R) (x : Ask Q R α) (hs : Sound answer known) (h : pending answer known x ≠ []) :
    ∃ q ∈ (x.pass absent known).2, q ∈ pending answer known x := by
  induction x with
  | done a => exact absurd rfl h
  | ask q k ih =>
      cases hq : known.lookup q with
      | none => exact ⟨q, by simp [pass, hq], by simp [pending, asked, hq]⟩
      | some r =>
          obtain rfl := hs q r hq
          have hp : pending answer known (.ask q k) = pending answer known (k (answer q)) := by
            simp [pending, asked, hq]
          rw [hp] at h ⊢
          simpa [pass, hq] using ih (answer q) h

theorem fetch_lookup (missed : List Q) (q : Q) :
    (fetch answer known missed).lookup q = if q ∈ missed then some (answer q) else known.lookup q := by
  unfold fetch
  induction missed generalizing known with
  | nil => simp
  | cons p missed ih =>
      rw [List.foldl_cons, ih]
      by_cases hp : q = p
      · subst hp
        simp
      · have hb : (q == p) = false := beq_eq_false_iff_ne.mpr hp
        simp [List.lookup_cons, hp, hb]

theorem Sound.fetch (hs : Sound answer known) (missed : List Q) : Sound answer (fetch answer known missed) := by
  intro q r h
  rw [fetch_lookup] at h
  split at h
  · exact (Option.some.inj h).symm
  · exact hs q r h

/-- One real answer among them and there are fewer open questions. -/
theorem pending_fetch (x : Ask Q R α) {missed : List Q} {q : Q} (hq : q ∈ missed)
    (hp : q ∈ pending answer known x) :
    (pending answer (fetch answer known missed) x).length < (pending answer known x).length := by
  have hsub : pending answer (fetch answer known missed) x =
      (pending answer known x).filter (fun p => p ∉ missed) := by
    unfold pending
    rw [List.filter_filter]
    apply List.filter_congr
    intro p _
    rw [fetch_lookup]
    by_cases h : p ∈ missed <;> simp [h]
  rw [hsub]
  apply List.length_filter_lt_length_iff_exists.mpr
  exact ⟨q, hp, by simpa using hq⟩

/-- Passes enough for the open questions of the real run give its result. -/
theorem passes_run (absent : R) (x : Ask Q R α) {n : Nat} (hs : Sound answer known)
    (hn : (pending answer known x).length ≤ n) : (passes answer absent x n known).1 = x.run answer := by
  induction n generalizing known with
  | zero =>
      have hp := pass_of_pending absent x hs (List.eq_nil_of_length_eq_zero (Nat.le_zero.mp hn))
      rw [pass_eq] at hp
      exact congrArg Prod.fst hp
  | succ n ih =>
      rcases List.eq_nil_or_concat (pending answer known x) with hp | ⟨l, q, hp⟩
      · simp [passes, pass_of_pending absent x hs hp]
      · have hne : pending answer known x ≠ [] := by simp [hp]
        obtain ⟨p, hp, hp'⟩ := pending_missed absent x hs hne
        unfold passes
        split
        · rename_i heq
          simp [heq] at hp
        · rename_i heq
          rw [heq] at hp
          have hlt := pending_fetch x hp hp'
          exact ih (hs.fetch _) (by dsimp only at hlt; omega)

/-- Where no run puts more than `b` questions, every pass puts at most `b` for real. -/
theorem passes_reads (absent : R) (x : Ask Q R α) {b : Nat} (hb : ∀ answer, (x.asked answer).length ≤ b) (n : Nat) :
    (passes answer absent x n known).2.length ≤ n * b := by
  induction n generalizing known with
  | zero => simp [passes]
  | succ n ih =>
      unfold passes
      split
      · simp
      · rename_i q missed heq
        have hm := congrArg (fun p => p.2.length) (pass_eq absent known x)
        simp only [heq] at hm
        have hf := List.length_filter_le (fun q => (known.lookup q).isNone)
          (x.asked (fun q => (known.lookup q).getD absent))
        have hx := hb (fun q => (known.lookup q).getD absent)
        have := @ih (fetch answer known (q :: missed))
        simp only [List.cons_append, List.length_cons, List.length_append, Nat.succ_mul] at *
        omega

end Passes

end Ask

end AntaresBroker
