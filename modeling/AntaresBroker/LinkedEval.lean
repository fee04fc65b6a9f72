import AntaresBroker.Ask
import AntaresBroker.Eval

namespace AntaresBroker.Ql.Linked

open Json Expiry Eval

/-- An evaluation that looks its linked entities up as it goes. -/
abbrev Looking (α : Type) := Ask String (Option Value) α

variable (expand : String → String)

/-- One URI of a link: a lookup where the budget still holds one, and the rest of the links from there. -/
def follow (link : Link) (rest : Value → Nat → Looking (List Target × Nat)) (acc : List Target × Nat) (uri : String) :
    Looking (List Target × Nat) :=
  match acc.2 with
  | 0 => pure acc
  | left + 1 => .ask uri (fun doc =>
      match doc.filter (hinted expand link) with
      | none => pure (acc.1, left)
      | some linked => do
          let found ← rest linked left
          pure (acc.1 ++ found.1, found.2))

def resolve_qpath (path : List String) (bracket : Option (List String)) :
    List Link → Value → Nat → Looking (List Target × Nat)
  | [], entity, budget => pure (resolve_targets expand path bracket entity, budget)
  | link :: rest, entity, budget =>
      match (entity.get (expand link.attr)).bind Value.as_array with
      | none => pure ([], budget)
      | some instances =>
          (instances.flatMap link_uris).foldlM (follow expand link (resolve_qpath path bracket rest)) ([], budget)

variable {expand}

theorem follow_paid (link : Link) {rest : Value → Nat → Looking (List Target × Nat)}
    (hrest : ∀ entity budget, Ask.Paid budget (rest entity budget)) (acc : List Target) (left : Nat) (uri : String) :
    Ask.Paid left (follow expand link rest (acc, left) uri) := by
  cases left with
  | zero => exact .done acc 0
  | succ left =>
      apply Ask.Paid.ask
      intro doc
      cases doc.filter (hinted expand link) with
      | none => exact .done acc left
      | some linked => exact (hrest linked left).bind (fun found left => .done (acc ++ found) left)

/-- Every lookup of a chain of links is paid from its budget. -/
theorem resolve_qpath_paid (path : List String) (bracket : Option (List String)) (links : List Link) (entity : Value)
    (budget : Nat) : Ask.Paid budget (resolve_qpath expand path bracket links entity budget) := by
  induction links generalizing entity budget with
  | nil => exact .done _ budget
  | cons link rest ih =>
      unfold resolve_qpath
      cases (entity.get (expand link.attr)).bind Value.as_array with
      | none => exact .done [] budget
      | some instances => exact .foldlM (follow_paid link ih) _ [] budget

theorem run_resolve_qpath (lookup : String → Option Value) (path : List String) (bracket : Option (List String))
    (links : List Link) (entity : Value) (budget : Nat) :
    (resolve_qpath expand path bracket links entity budget).run lookup =
      Eval.resolve_qpath expand lookup path bracket links entity budget := by
  induction links generalizing entity budget with
  | nil => rfl
  | cons link rest ih =>
      unfold resolve_qpath Eval.resolve_qpath
      cases (entity.get (expand link.attr)).bind Value.as_array with
      | none => rfl
      | some instances =>
          apply (Ask.run_foldlM lookup _ _ _).trans
          congr 1
          funext acc uri
          unfold follow
          cases acc.2 with
          | zero => rfl
          | succ left =>
              simp only [Ask.run]
              cases (lookup uri).filter (hinted expand link) with
              | none => rfl
              | some linked => simp [ih]

section Evaluation

variable {Instant : Type} [LinearOrder Instant] (chrono : Chrono Instant) (env : Env)

mutual
def eval_node (entity : Value) : QNode → Nat → Looking (Bool × Nat)
  | .And items, budget => eval_all entity items budget
  | .Or items, budget => eval_any entity items budget
  | .Exists path negated, budget => do
      let found ← resolve_qpath env.expand path.path path.bracket path.links entity budget
      pure ((!found.1.isEmpty) != negated, found.2)
  | .Cmp path op value, budget => do
      let found ← resolve_qpath env.expand path.path path.bracket path.links entity budget
      pure (found.1.any (term_matches chrono env op value), found.2)
termination_by structural n => n
def eval_all (entity : Value) : List QNode → Nat → Looking (Bool × Nat)
  | [], budget => pure (true, budget)
  | n :: items, budget => do
      let out ← eval_node entity n budget
      if out.1 then eval_all entity items out.2 else pure (false, out.2)
termination_by structural items => items
def eval_any (entity : Value) : List QNode → Nat → Looking (Bool × Nat)
  | [], budget => pure (false, budget)
  | n :: items, budget => do
      let out ← eval_node entity n budget
      if out.1 then pure (true, out.2) else eval_any entity items out.2
termination_by structural items => items
end

def eval_q (node : QNode) (entity : Value) : Looking Bool := do
  let out ← eval_node chrono env entity node MAX_Q_LINK_LOOKUPS
  pure out.1

section Items

variable {chrono env} {entity : Value} {items : List QNode}

theorem eval_all_paid (h : ∀ n ∈ items, ∀ budget, Ask.Paid budget (eval_node chrono env entity n budget))
    (budget : Nat) : Ask.Paid budget (eval_all chrono env entity items budget) := by
  induction items generalizing budget with
  | nil => exact .done true budget
  | cons n items ih =>
      obtain ⟨hn, hitems⟩ := List.forall_mem_cons.mp h
      apply (hn budget).bind
      intro out left
      cases out with
      | false => exact .done false left
      | true => exact ih hitems left

theorem eval_any_paid (h : ∀ n ∈ items, ∀ budget, Ask.Paid budget (eval_node chrono env entity n budget))
    (budget : Nat) : Ask.Paid budget (eval_any chrono env entity items budget) := by
  induction items generalizing budget with
  | nil => exact .done false budget
  | cons n items ih =>
      obtain ⟨hn, hitems⟩ := List.forall_mem_cons.mp h
      apply (hn budget).bind
      intro out left
      cases out with
      | true => exact .done true left
      | false => exact ih hitems left

variable {lookup : String → Option Value}

theorem run_eval_all
    (h : ∀ n ∈ items, ∀ budget, (eval_node chrono env entity n budget).run lookup =
      Eval.eval_node chrono { env with lookup := lookup } entity n budget) (budget : Nat) :
    (eval_all chrono env entity items budget).run lookup =
      Eval.eval_all chrono { env with lookup := lookup } entity items budget := by
  induction items generalizing budget with
  | nil => rfl
  | cons n items ih =>
      obtain ⟨hn, hitems⟩ := List.forall_mem_cons.mp h
      unfold eval_all Eval.eval_all
      rw [Ask.run_bind, hn]
      rcases Eval.eval_node chrono { env with lookup := lookup } entity n budget with ⟨_ | _, left⟩
      · rfl
      · exact ih hitems left

theorem run_eval_any
    (h : ∀ n ∈ items, ∀ budget, (eval_node chrono env entity n budget).run lookup =
      Eval.eval_node chrono { env with lookup := lookup } entity n budget) (budget : Nat) :
    (eval_any chrono env entity items budget).run lookup =
      Eval.eval_any chrono { env with lookup := lookup } entity items budget := by
  induction items generalizing budget with
  | nil => rfl
  | cons n items ih =>
      obtain ⟨hn, hitems⟩ := List.forall_mem_cons.mp h
      unfold eval_any Eval.eval_any
      rw [Ask.run_bind, hn]
      rcases Eval.eval_node chrono { env with lookup := lookup } entity n budget with ⟨_ | _, left⟩
      · exact ih hitems left
      · rfl

end Items

/-- One budget pays the lookups of the whole expression. -/
theorem eval_node_paid (entity : Value) (node : QNode) (budget : Nat) :
    Ask.Paid budget (eval_node chrono env entity node budget) := by
  induction node using QNode.induction generalizing budget with
  | and items ih => exact eval_all_paid ih budget
  | or items ih => exact eval_any_paid ih budget
  | cmp path op value => exact (resolve_qpath_paid _ _ _ _ budget).bind (fun _ left => .done _ left)
  | exist path negated => exact (resolve_qpath_paid _ _ _ _ budget).bind (fun _ left => .done _ left)

/-- Answered at once, the lookups give the evaluator's own truth and its own budget. -/
theorem run_eval_node (lookup : String → Option Value) (entity : Value) (node : QNode) (budget : Nat) :
    (eval_node chrono env entity node budget).run lookup =
      Eval.eval_node chrono { env with lookup := lookup } entity node budget := by
  induction node using QNode.induction generalizing budget with
  | and items ih => exact run_eval_all ih budget
  | or items ih => exact run_eval_any ih budget
  | cmp path op value =>
      unfold eval_node Eval.eval_node
      rw [Ask.run_bind, run_resolve_qpath]
      rfl
  | exist path negated =>
      unfold eval_node Eval.eval_node
      rw [Ask.run_bind, run_resolve_qpath]
      rfl

theorem run_eval_q (lookup : String → Option Value) (node : QNode) (entity : Value) :
    (eval_q chrono env node entity).run lookup =
      Eval.eval_q chrono { env with lookup := lookup } node entity := by
  unfold eval_q Eval.eval_q
  rw [Ask.run_bind, run_eval_node]
  rfl

theorem eval_q_asked (node : QNode) (entity : Value) (lookup : String → Option Value) :
    ((eval_q chrono env node entity).asked lookup).length ≤ MAX_Q_LINK_LOOKUPS := by
  simpa [eval_q] using (eval_node_paid chrono env entity node MAX_Q_LINK_LOOKUPS).asked_le lookup

end Evaluation

section Store

variable {E : Type}

/-- A read that fails gives no entity, as one of an unknown URI does. -/
def stored (get : String → Except E (Option Value)) (uri : String) : Option Value :=
  match get uri with
  | .ok doc => doc
  | .error _ => none

/-- The evaluation run against a cache of the entities read so far, which the
store fills with what a pass has missed before the next one. The result comes
with the URIs read, in order. -/
def linked_eval (get : String → Except E (Option Value)) (eval : Looking Bool) : Bool × List String :=
  Ask.passes (stored get) none eval MAX_Q_LINK_LOOKUPS []

variable {Instant : Type} [LinearOrder Instant]

/-- Evaluation against the cache is evaluation against the store, after a bounded number of reads. -/
theorem linked_eval_direct (chrono : Chrono Instant) (env : Env) (get : String → Except E (Option Value))
    (node : QNode) (entity : Value) :
    (linked_eval get (eval_q chrono env node entity)).1 =
        Eval.eval_q chrono { env with lookup := stored get } node entity ∧
      (linked_eval get (eval_q chrono env node entity)).2.length ≤ MAX_Q_LINK_LOOKUPS * MAX_Q_LINK_LOOKUPS := by
  have hsound : Ask.Sound (stored get) [] := by
    intro q r h
    cases h
  have hpending : (Ask.pending (stored get) [] (eval_q chrono env node entity)).length ≤ MAX_Q_LINK_LOOKUPS :=
    (List.length_filter_le _ _).trans (eval_q_asked chrono env node entity (stored get))
  constructor
  · rw [← run_eval_q]
    exact Ask.passes_run none _ hsound hpending
  · exact Ask.passes_reads none _ (eval_q_asked chrono env node entity) MAX_Q_LINK_LOOKUPS

end Store

end AntaresBroker.Ql.Linked
