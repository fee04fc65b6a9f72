import AntaresBroker.Composed
import AntaresBroker.Eval

namespace AntaresBroker.Ql.Eval

open Fallible Json Text

/-- The top-level attribute the path filters on. -/
def top (path : QPath) : Option String := (path.links.head?.map Link.attr).or path.path.head?

/-- A comma-separated list of names. -/
def names (list : String) : List String := (list.toList.splitOn ',').map (fun n => String.ofList (trim n))

/-- What is left to expand once `jsonKeys` has taken its names out. -/
def expansion_list (expand_values json_keys : Option String) : Option String :=
  match expand_values, json_keys with
  | none, _ => none
  | some list, none => some list
  | some list, some raw =>
      let kept := (names list).filter (fun n => !(names raw).contains n)
      if kept = [] then none else some (String.ofList (join ',' kept))

section Expanding

variable (expand : String → String)

def expand_scalar : Scalar → Scalar
  | .Str s => .Str (expand s)
  | v => v

def expand_val : QValue → QValue
  | .scalar v => .scalar (expand_scalar expand v)
  | .List items => .List (items.map (expand_scalar expand))
  | .Range lo hi => .Range lo hi

mutual
def walk (picked : QPath → Bool) : QNode → QNode
  | .And items => .And (walk_items picked items)
  | .Or items => .Or (walk_items picked items)
  | .Cmp path op v => .Cmp path op (if picked path then expand_val expand v else v)
  | .Exists path negated => .Exists path negated
termination_by structural n => n
def walk_items (picked : QPath → Bool) : List QNode → List QNode
  | [] => []
  | n :: items => walk picked n :: walk_items picked items
termination_by structural items => items
end

/-- The strings compared with the named attributes, expanded. -/
def apply_expand_values (node : QNode) (expand_values : Option String) : QNode :=
  match expand_values with
  | none => node
  | some list => walk expand (fun path => (top path).any (names list).contains) node

variable {expand}

theorem walk_items_eq (picked : QPath → Bool) (items : List QNode) :
    walk_items expand picked items = items.map (walk expand picked) := by
  induction items with
  | nil => rfl
  | cons n items ih => rw [walk_items, ih, List.map_cons]

theorem terms_walk (picked : QPath → Bool) (n : QNode) : terms (walk expand picked n) = (terms n).map (walk expand picked) := by
  cases n with
  | And items => rw [walk, terms, terms, walk_items_eq]
  | Or items => rfl
  | Cmp path op v => rfl
  | Exists path negated => rfl

/-- Expanding and splicing concern different parts of the tree. -/
theorem walk_flatten (picked : QPath → Bool) (n : QNode) : walk expand picked (flatten n) = flatten (walk expand picked n) := by
  induction n using QNode.induction with
  | and items ih =>
      rw [flatten, walk, walk, flatten, walk_items_eq, walk_items_eq, flatten_terms_eq, flatten_terms_eq, List.map_flatMap,
        List.flatMap_map]
      refine congrArg QNode.And (List.flatMap_congr fun n hn => ?_)
      rw [← terms_walk, ih n hn]
  | or items ih =>
      rw [flatten, walk, walk, flatten, walk_items_eq, walk_items_eq, flatten_items_eq, flatten_items_eq, List.map_map,
        List.map_map]
      refine congrArg QNode.Or (List.map_congr_left fun n hn => ih n hn)
  | cmp path op v => rfl
  | exist path negated => rfl

theorem apply_flatten (list : Option String) (n : QNode) :
    apply_expand_values expand (flatten n) list = flatten (apply_expand_values expand n list) := by
  cases list with
  | none => rfl
  | some list => exact walk_flatten _ n

theorem apply_and (list : Option String) (items : List QNode) :
    apply_expand_values expand (.And items) list = .And (items.map (apply_expand_values expand · list)) := by
  cases list with
  | none => simp [apply_expand_values]
  | some list => rw [apply_expand_values, walk, walk_items_eq]; rfl

end Expanding

section Rereading

/-- The tree without its texts, except those in ranges. -/
def erase (n : QNode) : QNode := walk (fun _ => "") (fun _ => true) n

theorem expand_scalar_const (expand : String → String) (v : Scalar) :
    expand_scalar (fun _ => "") (expand_scalar expand v) = expand_scalar (fun _ => "") v := by
  cases v <;> rfl

theorem erase_walk (expand : String → String) (picked : QPath → Bool) (n : QNode) : erase (walk expand picked n) = erase n := by
  induction n using QNode.induction with
  | and items ih =>
      rw [erase, erase, walk, walk, walk, walk_items_eq, walk_items_eq, walk_items_eq, List.map_map]
      exact congrArg QNode.And (List.map_congr_left ih)
  | or items ih =>
      rw [erase, erase, walk, walk, walk, walk_items_eq, walk_items_eq, walk_items_eq, List.map_map]
      exact congrArg QNode.Or (List.map_congr_left ih)
  | cmp path op v =>
      rw [erase, erase, walk, walk, walk, if_pos rfl, if_pos rfl]
      refine congrArg (QNode.Cmp path op) ?_
      cases picked path with
      | false => rfl
      | true =>
          cases v with
          | scalar v => exact congrArg QValue.scalar (expand_scalar_const expand v)
          | Range lo hi => rfl
          | List items =>
              rw [if_pos rfl, expand_val, expand_val, expand_val, List.map_map]
              exact congrArg QValue.List (List.map_congr_left fun v _ => expand_scalar_const expand v)
  | exist path negated => rfl

theorem erase_apply (expand : String → String) (list : Option String) (n : QNode) :
    erase (apply_expand_values expand n list) = erase n := by
  cases list with
  | none => rfl
  | some list => exact erase_walk _ _ _

theorem last_name_walk (expand : String → String) (picked : QPath → Bool) (n : QNode) :
    last_name (walk expand picked n) = last_name n := by
  have hitems {items : List QNode} (ih : ∀ n ∈ items, last_name (walk expand picked n) = last_name n) :
      last_item_name (items.map (walk expand picked)) = last_item_name items := by
    induction items with
    | nil => rfl
    | cons n items ihs =>
        have hor : is_or (walk expand picked n) = is_or n := by cases n <;> rfl
        rw [List.map_cons, last_item_name, last_item_name, List.isEmpty_map, hor, ih n List.mem_cons_self,
          ihs fun m hm => ih m (List.mem_cons_of_mem _ hm)]
  induction n using QNode.induction with
  | and items ih => rw [walk, walk_items_eq, last_name, last_name, hitems ih]
  | or items ih => rw [walk, walk_items_eq, last_name, last_name, hitems ih]
  | cmp path op v => rfl
  | exist path negated => rfl

/-- No literal is infinite. -/
def FiniteLiterals : QNode → Prop
  | .Cmp _ _ v => ∀ x, Scalar.Num x ∈ scalars v → Number.is_finite x
  | _ => True

theorem reread_finite {n m : QNode} (h : reread n = some m) (hfin : All FiniteLiterals n) : m = n := by
  have hscalar {v : Scalar} (h : ∀ x, Scalar.Num x = v → Number.is_finite x) : reread_scalar v = v := by
    cases v with
    | Num x => rw [reread_scalar, if_pos (h x rfl)]
    | Str s => rfl
    | Bool b => rfl
  have hitems {items ms : List QNode} (ih : ∀ n ∈ items, ∀ m, reread n = some m → All FiniteLiterals n → m = n)
      (h : reread_items items = some ms) (hfin : ∀ n ∈ items, All FiniteLiterals n) : ms = items := by
    induction items generalizing ms with
    | nil =>
        rw [reread_items, Option.some.injEq] at h
        exact h.symm
    | cons n items ihs =>
        obtain ⟨m, ms', rfl, hm, hms⟩ := reread_items_cons h
        rw [ih n List.mem_cons_self m hm (hfin n List.mem_cons_self),
          ihs (fun n hn => ih n (List.mem_cons_of_mem _ hn)) hms fun n hn => hfin n (List.mem_cons_of_mem _ hn)]
  induction n using QNode.induction generalizing m with
  | and items ih =>
      obtain ⟨ms, hms, rfl⟩ := Option.map_eq_some_iff.mp h
      rw [hitems (fun n hn m => ih n hn) hms (all_and.mp hfin).2]
  | or items ih =>
      obtain ⟨ms, hms, rfl⟩ := Option.map_eq_some_iff.mp h
      rw [hitems (fun n hn m => ih n hn) hms (all_or.mp hfin).2]
  | cmp path op v =>
      rw [reread, reread_leaf] at h
      split_ifs at h
      obtain ⟨w, hw, rfl⟩ := Option.map_eq_some_iff.mp h
      refine congrArg (QNode.Cmp path op) ?_
      cases v with
      | scalar v =>
          rw [reread_value, Option.some.injEq] at hw
          rw [← hw, hscalar fun x hx => hfin x (List.mem_singleton.mpr hx)]
      | List items =>
          rw [reread_value, Option.some.injEq] at hw
          rw [← hw]
          exact congrArg QValue.List (map_eq_self.mpr fun v hv => hscalar fun x hx => hfin x (hx ▸ hv))
      | Range lo hi =>
          rw [reread_value, hscalar fun x hx => hfin x (by simp [scalars, hx]),
            hscalar fun x hx => hfin x (by simp [scalars, hx])] at hw
          split_ifs at hw
          rw [Option.some.injEq] at hw
          exact hw.symm
  | exist path negated =>
      rw [reread, reread_leaf] at h
      split_ifs at h
      rw [Option.some.injEq] at h
      exact h.symm

/-- An infinite literal comes back as a text, which is seen with the texts erased. -/
theorem finite_of_erase {n m : QNode} (h : reread n = some m) (he : erase m = erase n) : All FiniteLiterals n := by
  have hscalar {v : Scalar} (h : expand_scalar (fun _ => "") (reread_scalar v) = expand_scalar (fun _ => "") v) :
      ∀ x, Scalar.Num x = v → Number.is_finite x := by
    rintro x rfl
    by_contra hx
    rw [reread_scalar, if_neg hx] at h
    cases h
  have hitems {items ms : List QNode}
      (ih : ∀ n ∈ items, ∀ m, reread n = some m → erase m = erase n → All FiniteLiterals n)
      (h : reread_items items = some ms) (he : ms.map erase = items.map erase) : ∀ n ∈ items, All FiniteLiterals n := by
    induction items generalizing ms with
    | nil => exact fun _ hn => absurd hn List.not_mem_nil
    | cons n items ihs =>
        obtain ⟨m, ms', rfl, hm, hms⟩ := reread_items_cons h
        rw [List.map_cons, List.map_cons, List.cons.injEq] at he
        exact List.forall_mem_cons.mpr ⟨ih n List.mem_cons_self m hm he.1,
          ihs (fun n hn => ih n (List.mem_cons_of_mem _ hn)) hms he.2⟩
  induction n using QNode.induction generalizing m with
  | and items ih =>
      obtain ⟨ms, hms, rfl⟩ := Option.map_eq_some_iff.mp h
      rw [erase, erase, walk, walk, walk_items_eq, walk_items_eq, QNode.And.injEq] at he
      exact all_and.mpr ⟨trivial, hitems (fun n hn m => ih n hn) hms he⟩
  | or items ih =>
      obtain ⟨ms, hms, rfl⟩ := Option.map_eq_some_iff.mp h
      rw [erase, erase, walk, walk, walk_items_eq, walk_items_eq, QNode.Or.injEq] at he
      exact all_or.mpr ⟨trivial, hitems (fun n hn m => ih n hn) hms he⟩
  | cmp path op v =>
      rw [reread, reread_leaf] at h
      split_ifs at h
      obtain ⟨w, hw, rfl⟩ := Option.map_eq_some_iff.mp h
      rw [erase, erase, walk, walk, if_pos rfl, if_pos rfl, QNode.Cmp.injEq] at he
      have hv := he.2.2
      intro x hx
      cases v with
      | scalar v =>
          rw [reread_value, Option.some.injEq] at hw
          rw [← hw, expand_val, expand_val, QValue.scalar.injEq] at hv
          exact hscalar hv x (List.mem_singleton.mp hx)
      | List items =>
          rw [reread_value, Option.some.injEq] at hw
          rw [← hw, expand_val, expand_val, QValue.List.injEq, List.map_map] at hv
          exact hscalar (List.map_inj_left.mp hv _ hx) x rfl
      | Range lo hi =>
          rw [reread_value] at hw
          split_ifs at hw
          rw [Option.some.injEq] at hw
          rw [← hw, expand_val, expand_val, QValue.Range.injEq] at hv
          have hends : Scalar.Num x = lo ∨ Scalar.Num x = hi := by simpa [scalars] using hx
          rcases hends with hlo | hhi
          · exact hscalar (by rw [hv.1]) x hlo
          · exact hscalar (by rw [hv.2]) x hhi
  | exist path negated => trivial

theorem erase_flatten (n : QNode) : erase (flatten n) = flatten (erase n) := walk_flatten _ n

theorem last_name_erase (n : QNode) : last_name (erase n) = last_name n := last_name_walk _ _ n

/-- Nothing of the comparison is expanded. -/
def Untouched (expand : String → String) (picked : QPath → Bool) : QNode → Prop
  | .Cmp path _ v => (if picked path then expand_val expand v else v) = v
  | _ => True

theorem walk_eq_self_iff {expand : String → String} {picked : QPath → Bool} {n : QNode} :
    walk expand picked n = n ↔ All (Untouched expand picked) n := by
  induction n using QNode.induction with
  | and items ih =>
      rw [walk, walk_items_eq, QNode.And.injEq, map_eq_self, all_and]
      exact ⟨fun h => ⟨trivial, fun n hn => (ih n hn).mp (h n hn)⟩, fun h n hn => (ih n hn).mpr (h.2 n hn)⟩
  | or items ih =>
      rw [walk, walk_items_eq, QNode.Or.injEq, map_eq_self, all_or]
      exact ⟨fun h => ⟨trivial, fun n hn => (ih n hn).mp (h n hn)⟩, fun h n hn => (ih n hn).mpr (h.2 n hn)⟩
  | cmp path op v => simp [walk, All, Untouched]
  | exist path negated => simp [walk, All, Untouched]

theorem apply_of_terms {expand : String → String} {list : Option String} {n : QNode}
    (h : (terms (flatten n)).map (apply_expand_values expand · list) = terms (flatten n)) :
    apply_expand_values expand n list = n := by
  cases list with
  | none => rfl
  | some list =>
      refine walk_eq_self_iff.mpr (all_of_flatten (fun _ => trivial) (fun _ => trivial)
        (all_of_terms (fun _ => trivial) fun m hm => walk_eq_self_iff.mp ?_))
      exact map_eq_self.mp h m hm

theorem terms_apply (expand : String → String) (list : Option String) (n : QNode) :
    terms (apply_expand_values expand n list) = (terms n).map (apply_expand_values expand · list) := by
  cases list with
  | none => exact (List.map_id _).symm
  | some list => exact terms_walk _ n

/-- The conjunction of the request's expression, if it has one, and another. -/
def conjoined (own : Option QNode) (extra : QNode) : QNode :=
  match own with
  | some own => .And [own, extra]
  | none => extra

theorem formed_conjoined {own : Option QNode} {extra : QNode} {depth : Nat} (hown : ∀ n ∈ own, Formed depth n)
    (hextra : Formed depth extra) : Formed (depth + 1) (conjoined own extra) := by
  cases own with
  | none => exact hextra.mono (Nat.le_succ depth)
  | some own =>
      have hboth : ∀ n ∈ [own, extra], Formed depth n := by simpa using ⟨hown own rfl, hextra⟩
      refine .and le_rfl (fun _ _ _ => Nat.succ_pos depth) fun n hn => (hboth n hn).mono ?_
      rw [item_depth]
      split_ifs <;> omega

theorem all_conjoined {P : QNode → Prop} (hand : ∀ items, P (.And items)) {own : Option QNode} {extra : QNode}
    (hown : ∀ n ∈ own, All P n) (hextra : All P extra) : All P (conjoined own extra) := by
  cases own with
  | none => exact hextra
  | some own => exact all_and.mpr ⟨hand _, by simpa using ⟨hown own rfl, hextra⟩⟩

theorem apply_conjoined (expand : String → String) (list : Option String) (own : Option QNode) (extra : QNode) :
    apply_expand_values expand (conjoined own extra) list =
      conjoined (own.map (apply_expand_values expand · list)) (apply_expand_values expand extra list) := by
  cases own with
  | none => rfl
  | some own => exact apply_and list _

theorem flatten_conjoined_inj {own : Option QNode} {extra extra' : QNode}
    (h : flatten (conjoined own extra) = flatten (conjoined own extra')) : terms (flatten extra) = terms (flatten extra') := by
  cases own with
  | none => exact congrArg terms h
  | some own =>
      simp only [conjoined, flatten, flatten_terms, QNode.And.injEq, List.append_nil] at h
      exact List.append_cancel_left h

theorem parse_q_operand {s : String} {n : QNode} (h : parse_q s = .ok n) : All Operand n := by
  unfold parse_q at h
  split_ifs at h
  obtain ⟨⟨m, rest⟩, hm, h⟩ := bind_eq_ok.mp h
  dsimp only at h
  split_ifs at h
  · exact absurd h bad_ne_ok
  · rw [Except.ok.injEq] at h
    exact h ▸ or_expr_all (fun _ => trivial) (fun _ => trivial) leaf_operand hm

/-- The tree that runs of a composed text is the conjunction of the request's expanded tree and the other one as it
is, exactly when no literal is infinite, no blank ends the text, and the request expands nothing of the other. -/
theorem runs_as_conjoined {expand : String → String} {own : Option QNode} {extra m : QNode} {list : Option String}
    (hown : ∀ n ∈ own, ∃ s, parse_q s = .ok n) (hextra : ∃ s, parse_q s = .ok extra)
    (hm : parse_q (to_string (conjoined own extra)) = .ok m) :
    apply_expand_values expand m list = flatten (conjoined (own.map (apply_expand_values expand · list)) extra) ↔
      All FiniteLiterals (conjoined own extra) ∧ EndKept (conjoined own extra) ∧
        apply_expand_values expand extra list = extra := by
  have hformed : Formed (MAX_Q_DEPTH + 1) (conjoined own extra) :=
    formed_conjoined (fun n hn => (parse_q_formed (hown n hn).choose_spec).1) (parse_q_formed hextra.choose_spec).1
  have hop : All Operand (conjoined own extra) :=
    all_conjoined (fun _ => trivial) (fun n hn => parse_q_operand (hown n hn).choose_spec) (parse_q_operand hextra.choose_spec)
  obtain ⟨-, hread⟩ := parse_q_rendered hformed hop hm
  have herase (extra' : QNode) (he : erase extra' = erase extra) :
      erase (conjoined (own.map (apply_expand_values expand · list)) extra') = erase (conjoined own extra) := by
    cases own with
    | none => exact he
    | some own =>
        have hpair (n n' : QNode) : erase (.And [n, n']) = .And [erase n, erase n'] := rfl
        rw [Option.map_some, conjoined, conjoined, hpair, hpair, erase_apply, he]
  constructor
  · intro h
    have hm_erase : erase m = flatten (erase (conjoined own extra)) := by
      rw [← erase_apply expand list, h, erase_flatten, herase extra rfl]
    have hend : EndKept (conjoined own extra) := by
      intro name hname
      have hlast : last_name m = last_name (conjoined own extra) := by
        rw [← last_name_erase, hm_erase, ← erase_flatten, last_name_erase, last_name_flatten hformed]
      rw [(reread_shape hread).1, last_name_flatten (formed_trim_last hformed), last_name_trim_last hformed, hname,
        Option.map_some, Option.some.injEq] at hlast
      exact trim_name_eq_iff.mp hlast
    rw [trim_last_of_end_kept hformed hend] at hread
    have hfin : All FiniteLiterals (flatten (conjoined own extra)) :=
      finite_of_erase hread (by rw [hm_erase, erase_flatten])
    refine ⟨all_of_flatten (fun _ => trivial) (fun _ => trivial) hfin, hend, apply_of_terms ?_⟩
    rw [reread_finite hread hfin, apply_flatten, apply_conjoined] at h
    rw [← terms_apply, apply_flatten]
    exact flatten_conjoined_inj h
  · rintro ⟨hfin, hend, hexpand⟩
    rw [trim_last_of_end_kept hformed hend] at hread
    rw [reread_finite hread (all_flatten (fun _ => trivial) (fun _ => trivial) hfin), apply_flatten, apply_conjoined, hexpand]

end Rereading

section Evaluation

variable {Instant : Type} [LinearOrder Instant] (chrono : Expiry.Chrono Instant) (env : Env) (entity : Value)

theorem eval_all_append (xs ys : List QNode) (budget : Nat) :
    eval_all chrono env entity (xs ++ ys) budget =
      if (eval_all chrono env entity xs budget).1 then eval_all chrono env entity ys (eval_all chrono env entity xs budget).2
      else eval_all chrono env entity xs budget := by
  induction xs generalizing budget with
  | nil => rfl
  | cons n xs ih =>
      rw [List.cons_append, eval_all, eval_all]
      cases hn : eval_node chrono env entity n budget with
      | mk b left =>
          cases b with
          | true => exact ih left
          | false => rfl

theorem eval_single (n : QNode) (budget : Nat) :
    eval_all chrono env entity [n] budget = eval_node chrono env entity n budget := by
  rw [eval_all]
  cases eval_node chrono env entity n budget with
  | mk b left => cases b <;> rfl

theorem eval_terms (n : QNode) (budget : Nat) :
    eval_all chrono env entity (terms n) budget = eval_node chrono env entity n budget := by
  cases n with
  | And items => rw [terms, eval_node]
  | Or items => exact eval_single chrono env entity _ _
  | Cmp path op v => exact eval_single chrono env entity _ _
  | Exists path negated => exact eval_single chrono env entity _ _

/-- An `And` spliced into the one around it is evaluated in the same order, with the same lookups. -/
theorem eval_flatten (n : QNode) (budget : Nat) :
    eval_node chrono env entity (flatten n) budget = eval_node chrono env entity n budget := by
  induction n using QNode.induction generalizing budget with
  | and items ih =>
      rw [flatten, flatten_terms_eq, eval_node, eval_node]
      induction items generalizing budget with
      | nil => rfl
      | cons n items ihs =>
          rw [List.flatMap_cons, eval_all_append, eval_terms, ih n List.mem_cons_self, eval_all]
          cases hn : eval_node chrono env entity n budget with
          | mk b left =>
              cases b with
              | true => exact ihs (fun m hm => ih m (List.mem_cons_of_mem _ hm)) left
              | false => rfl
  | or items ih =>
      rw [flatten, flatten_items_eq, eval_node, eval_node]
      induction items generalizing budget with
      | nil => rfl
      | cons n items ihs =>
          rw [List.map_cons, eval_any, eval_any, ih n List.mem_cons_self]
          cases hn : eval_node chrono env entity n budget with
          | mk b left =>
              cases b with
              | true => rfl
              | false => exact ihs (fun m hm => ih m (List.mem_cons_of_mem _ hm)) left
  | cmp path op v => rfl
  | exist path negated => rfl

end Evaluation

section Lookups

/-- What was not needed of the budget might as well have been missing. -/
structure Frugal {α : Type} (f : Nat → α × Nat) : Prop where
  le : ∀ budget, (f budget).2 ≤ budget
  spare : ∀ budget left s x, f (budget + s) = (x, left + s) → f budget = (x, left)

theorem Frugal.pure {α : Type} (x : α) : Frugal (fun budget => (x, budget)) := by
  refine ⟨fun _ => le_rfl, fun budget left s y h => ?_⟩
  simp only [Prod.mk.injEq, Nat.add_right_cancel_iff] at h ⊢
  exact h

theorem Frugal.seq {α β : Type} {f : Nat → α × Nat} {g : α → Nat → β × Nat} (hf : Frugal f) (hg : ∀ x, Frugal (g x)) :
    Frugal (fun budget => g (f budget).1 (f budget).2) := by
  refine ⟨fun budget => ((hg _).le _).trans (hf.le budget), fun budget left s y h => ?_⟩
  have hle := (hg (f (budget + s)).1).le (f (budget + s)).2
  rw [h] at hle
  obtain ⟨mid, hmid⟩ := Nat.exists_eq_add_of_le hle
  have hf' : f (budget + s) = ((f (budget + s)).1, (left + mid) + s) := Prod.ext rfl (by rw [hmid]; omega)
  have hfirst := hf.spare _ _ _ _ hf'
  rw [hmid, Nat.add_right_comm] at h
  rw [hfirst]
  exact (hg _).spare _ _ _ _ h

theorem Frugal.congr {α : Type} {f g : Nat → α × Nat} (hf : Frugal f) (h : ∀ budget, f budget = g budget) : Frugal g :=
  funext h ▸ hf

/-- One lookup paid from the budget, if there is one left. -/
theorem Frugal.pay {α : Type} {x : α} {f : Nat → α × Nat} (hf : Frugal f) :
    Frugal (fun budget => match budget with
      | 0 => (x, 0)
      | left + 1 => f left) := by
  constructor
  · intro budget
    cases budget with
    | zero => exact le_rfl
    | succ left => exact (hf.le left).trans (Nat.le_succ left)
  · intro budget left s y h
    cases budget with
    | succ b =>
        rw [Nat.add_right_comm] at h
        exact hf.spare _ _ _ _ h
    | zero =>
        cases s with
        | zero => exact h
        | succ s =>
            rw [Nat.zero_add] at h
            have hle := hf.le s
            dsimp only at h
            rw [h] at hle
            omega

variable (expand : String → String) (lookup : String → Option Value) (path : List String)
  (bracket : Option (List String))

theorem frugal_resolve_qpath (links : List Link) (entity : Value) :
    Frugal (resolve_qpath expand lookup path bracket links entity) := by
  induction links generalizing entity with
  | nil => exact (Frugal.pure _).congr fun _ => by rw [resolve_qpath]
  | cons link rest ih =>
      cases hinst : (entity.get (expand link.attr)).bind Value.as_array with
      | none => exact (Frugal.pure _).congr fun _ => by rw [resolve_qpath, hinst]
      | some instances =>
          have hfold (uris : List String) (targets : List Target) :
              Frugal (fun budget => uris.foldl (fun acc uri =>
                match acc.2 with
                | 0 => acc
                | left + 1 =>
                    ((lookup uri).filter (hinted expand link)).elim (acc.1, left) (fun linked =>
                      let found := resolve_qpath expand lookup path bracket rest linked left
                      (acc.1 ++ found.1, found.2))) (targets, budget)) := by
            induction uris generalizing targets with
            | nil => exact Frugal.pure targets
            | cons uri uris ihu =>
                have hstep : Frugal (fun budget => match budget with
                    | 0 => (targets, 0)
                    | left + 1 =>
                        ((lookup uri).filter (hinted expand link)).elim (targets, left) (fun linked =>
                          let found := resolve_qpath expand lookup path bracket rest linked left
                          (targets ++ found.1, found.2))) := by
                  apply Frugal.pay
                  cases (lookup uri).filter (hinted expand link) with
                  | none => exact Frugal.pure targets
                  | some linked => exact (ih linked).seq fun found => Frugal.pure (targets ++ found)
                refine (hstep.seq fun targets => ihu targets).congr fun budget => ?_
                cases budget <;> rfl
          refine (hfold (instances.flatMap link_uris) []).congr fun _ => ?_
          rw [resolve_qpath, hinst]
          dsimp only
          congr 1
          funext acc uri
          cases acc.2 with
          | zero => rfl
          | succ left => cases (lookup uri).filter (hinted expand link) <;> rfl

variable {Instant : Type} [LinearOrder Instant] (chrono : Expiry.Chrono Instant) (env : Env)

theorem frugal_eval_node (entity : Value) (n : QNode) : Frugal (eval_node chrono env entity n) := by
  induction n using QNode.induction with
  | and items ih =>
      have hall : Frugal (eval_all chrono env entity items) := by
        induction items with
        | nil => exact Frugal.pure true
        | cons n items ihs =>
            have hrest := ihs fun m hm => ih m (List.mem_cons_of_mem _ hm)
            refine ((ih n List.mem_cons_self).seq (g := fun b left => if b then eval_all chrono env entity items left
              else (false, left)) fun b => ?_).congr fun budget => ?_
            · cases b with
              | true => exact hrest
              | false => exact Frugal.pure false
            · rw [eval_all]
              cases eval_node chrono env entity n budget with
              | mk b left => cases b <;> rfl
      exact hall.congr fun _ => by rw [eval_node]
  | or items ih =>
      have hany : Frugal (eval_any chrono env entity items) := by
        induction items with
        | nil => exact Frugal.pure false
        | cons n items ihs =>
            have hrest := ihs fun m hm => ih m (List.mem_cons_of_mem _ hm)
            refine ((ih n List.mem_cons_self).seq (g := fun b left => if b then (true, left)
              else eval_any chrono env entity items left) fun b => ?_).congr fun budget => ?_
            · cases b with
              | true => exact Frugal.pure true
              | false => exact hrest
            · rw [eval_any]
              cases eval_node chrono env entity n budget with
              | mk b left => cases b <;> rfl
      exact hany.congr fun _ => by rw [eval_node]
  | cmp path op value =>
      exact ((frugal_resolve_qpath env.expand env.lookup path.path path.bracket path.links entity).seq
        fun targets => Frugal.pure (targets.any (term_matches chrono env op value))).congr fun _ => by rw [eval_node]
  | exist path negated =>
      exact ((frugal_resolve_qpath env.expand env.lookup path.path path.bracket path.links entity).seq
        fun targets => Frugal.pure ((!targets.isEmpty) != negated)).congr fun _ => by rw [eval_node]

/-- The lookups one evaluation buys. -/
def lookups_bought (n : QNode) (entity : Value) : Nat :=
  MAX_Q_LINK_LOOKUPS - (eval_node chrono env entity n MAX_Q_LINK_LOOKUPS).2

/-- Two expressions within one budget together are evaluated as each would be alone. -/
theorem eval_q_both {own extra : QNode} {entity : Value}
    (h : lookups_bought chrono env own entity + lookups_bought chrono env extra entity ≤ MAX_Q_LINK_LOOKUPS) :
    eval_q chrono env (.And [own, extra]) entity = (eval_q chrono env own entity && eval_q chrono env extra entity) := by
  rw [lookups_bought, lookups_bought] at h
  have hown := (frugal_eval_node chrono env entity own).le MAX_Q_LINK_LOOKUPS
  have hextra := (frugal_eval_node chrono env entity extra).le MAX_Q_LINK_LOOKUPS
  rw [eval_q, eval_q, eval_q, eval_node, ← List.singleton_append, eval_all_append]
  rw [eval_single, eval_single]
  cases ho : eval_node chrono env entity own MAX_Q_LINK_LOOKUPS with
  | mk b left =>
      cases he : eval_node chrono env entity extra MAX_Q_LINK_LOOKUPS with
      | mk b' left' =>
          rw [ho] at h hown
          rw [he] at h hextra
          dsimp only at h hown hextra ⊢
          cases b with
          | false => rfl
          | true =>
              obtain ⟨s, hs⟩ := Nat.exists_eq_add_of_le hown
              obtain ⟨r, hr⟩ := Nat.exists_eq_add_of_le (show s ≤ left' by omega)
              have hspare := (frugal_eval_node chrono env entity extra).spare left r s b' (by rw [← hs, he, hr, Nat.add_comm s r])
              rw [if_pos rfl, hspare]
              rfl

end Lookups

end AntaresBroker.Ql.Eval
