import AntaresBroker.Exact

namespace AntaresBroker.Ql.Exact

open Json Jsonpath Eval Sql Expiry

variable {Instant : Type} [LinearOrder Instant]

section Document

variable {chrono : Chrono Instant} {env : Env} {op : CmpOp} {v : QValue}

theorem attr_path_cases {path : QPath} {p : Path} (h : attr_path env.expand path = some p) :
    ∃ name, path = ⟨[], [name], none⟩ ∧ p = [.member (env.expand name), .anyElement] := by
  obtain ⟨links, names, bracket⟩ := path
  unfold attr_path at h
  split_ifs at h with hplain
  simp only [ne_eq, not_or, not_not] at hplain
  obtain ⟨rfl, rfl⟩ := hplain
  cases names with
  | nil => cases h
  | cons name more =>
      cases more with
      | cons => cases h
      | nil =>
          change (if '\x00' ∈ (env.expand name).toList then none
            else some [Step.member (env.expand name), Step.anyElement]) = some p at h
          split_ifs at h
          exact ⟨name, rfl, (Option.some.inj h).symm⟩

theorem instances_eq {name : String} {doc : Value} : instances env ⟨[], [name], none⟩ doc =
    ((doc.get (env.expand name)).bind Value.as_array).getD [] := rfl

theorem instance_not_array {doc : Value} (hdoc : Stored doc) {path : QPath} {i : Value}
    (hi : i ∈ instances env path doc) : i.is_array = false := by
  obtain ⟨m, rfl, hm⟩ := hdoc
  unfold instances at hi
  cases hg : (path.path.head?.bind (fun name => (Value.object m).get (env.expand name))) with
  | none => rw [hg] at hi; cases hi
  | some w =>
      rw [hg, Option.bind_some] at hi
      obtain ⟨name, -, hname⟩ := Option.bind_eq_some_iff.mp hg
      obtain ⟨l₁, l₂, rfl, -⟩ := List.lookup_eq_some_iff.mp hname
      cases w with
      | array vs => exact (hm (env.expand name, .array vs) (by simp)).2 vs rfl i hi
      | _ => cases hi

/-- The path of an attribute hands the arms its instances, and nothing of a
member that is no array. -/
theorem arms_found_doc {doc : Value} (hdoc : Stored doc) {name : String} {suffix : Path} :
    arms_found [.member (env.expand name), .anyElement] suffix doc = true ↔
      ∃ i ∈ instances env ⟨[], [name], none⟩ doc, arms_found [] suffix i = true := by
  have harm {arm : Path} (ha : arm ∈ arms) : ∃ key rest, arm = .member key :: rest := by
    rcases List.mem_append.mp ha with ha | ha
    · obtain ⟨key, -, rfl⟩ := List.mem_map.mp ha
      exact ⟨key, [], rfl⟩
    · obtain ⟨key, -, rfl⟩ := List.mem_map.mp ha
      exact ⟨key, _, rfl⟩
  have hitems {arm : Path} (ha : arm ∈ arms) :
      found ([.member (env.expand name), .anyElement] ++ arm ++ suffix) doc = true ↔
        ∃ i ∈ instances env ⟨[], [name], none⟩ doc, found (arm ++ suffix) i = true := by
    obtain ⟨key, rest, rfl⟩ := harm ha
    obtain ⟨m, rfl, hm⟩ := hdoc
    rw [instances_eq, List.append_assoc, List.cons_append, found_member_object]
    cases hg : m.lookup (env.expand name) with
    | none => simp [Value.get, hg]
    | some w =>
        obtain ⟨l₁, l₂, rfl, -⟩ := List.lookup_eq_some_iff.mp hg
        have hobj := (hm (env.expand name, w) (by simp)).1
        simp only [Option.some.injEq, exists_eq_left', List.cons_append, List.nil_append, found_cons (s := .anyElement),
          Step.run, Value.get, hg, Option.bind_some]
        cases w with
        | array vs => rfl
        | object m' => cases hobj
        | _ => simp [items, found_member_iff, Value.get, Value.as_array]
  simp only [arms_found, List.any_eq_true]
  constructor
  · rintro ⟨arm, ha, h⟩
    obtain ⟨i, hi, h⟩ := (hitems ha).mp h
    exact ⟨i, hi, arm, ha, h⟩
  · rintro ⟨i, hi, arm, ha, h⟩
    exact ⟨arm, ha, (hitems ha).mpr ⟨i, hi, h⟩⟩

theorem resolve_one {name : String} {doc : Value} : resolve_targets env.expand [name] none doc =
    (instances env ⟨[], [name], none⟩ doc).flatMap (terminal env.expand none) := by
  rw [instances_eq, resolve_targets]
  cases (doc.get (env.expand name)).bind Value.as_array with
  | none => rfl
  | some is => exact congrArg (is.flatMap ·) (funext fun i => by rw [collect])

theorem eval_leaf {name : String} {doc : Value} {budget : Nat} :
    eval_node chrono env doc (.Cmp ⟨[], [name], none⟩ op v) budget =
      ((instances env ⟨[], [name], none⟩ doc).any (fun i => (terminal env.expand none i).any (term_matches chrono env op v)),
        budget) := by
  simp only [eval_node, resolve_qpath, resolve_one, List.any_flatMap]

theorem eval_exists {name : String} {negated : Bool} {doc : Value} {budget : Nat} :
    eval_node chrono env doc (.Exists ⟨[], [name], none⟩ negated) budget =
      ((instances env ⟨[], [name], none⟩ doc).any (fun i => (comparable_value i).isSome) != negated, budget) := by
  have hterm (i : Value) : terminal env.expand none i ≠ [] ↔ (comparable_value i).isSome = true := by
    unfold terminal
    cases comparable_value i <;> simp
  have hfound (is : List Value) : (!(is.flatMap (terminal env.expand none)).isEmpty) =
      is.any (fun i => (comparable_value i).isSome) := by
    rw [Bool.eq_iff_iff, Bool.not_eq_true', ← Bool.not_eq_true, List.isEmpty_iff, List.flatMap_eq_nil_iff,
      List.any_eq_true]
    simp only [not_forall, ← hterm, exists_prop, ne_eq]
  simp only [eval_node, resolve_qpath, resolve_one, hfound]

/-- Existence is answered alike: each arm is met by the instance's own member. -/
theorem exists_exact {doc : Value} (hdoc : Stored doc) {path : QPath} {p : Path}
    (hp : attr_path env.expand path = some p) (negated : Bool) (budget : Nat) :
    eval_node chrono env doc (.Exists path negated) budget =
      (lowered env.expand doc (.Exists path negated), budget) := by
  obtain ⟨name, rfl, rfl⟩ := attr_path_cases hp
  have harms : arms_found [.member (env.expand name), .anyElement] [] doc =
      (instances env ⟨[], [name], none⟩ doc).any (fun i => (comparable_value i).isSome) := by
    rw [Bool.eq_iff_iff, arms_found_doc hdoc, List.any_eq_true]
    refine exists_congr fun i => and_congr_right fun hi => ?_
    rw [arms_found_iff (instance_not_array hdoc hi)]
    constructor
    · rintro ⟨key, kind, w, hkey, hw, -⟩
      rw [comparable_value, List.findSome?_isSome_iff]
      exact ⟨_, hkey, by simp [hw]⟩
    · intro h
      obtain ⟨⟨kind, w⟩, hc⟩ := Option.isSome_iff_exists.mp h
      obtain ⟨key, hkey, hw⟩ := first_member hc
      exact ⟨key, kind, w, hkey, hw, Or.inl rfl⟩
  rw [eval_exists, lowered, leaf_found, hp]
  simp only [filter_of, harms]

theorem or_iff_or_left {a b c : Prop} : (a ∨ b ↔ a ∨ c) ↔ a ∨ (b ↔ c) := by
  by_cases h : a <;> simp [h]

/-- A comparison is answered alike exactly under `Agreement`. -/
theorem leaf_exact {doc : Value} (hdoc : Stored doc) {path : QPath} {p : Path} {f : Cond}
    (hp : attr_path env.expand path = some p) (hf : cmp_filter op v = some f) (hv : ValueFormed op v) (budget : Nat) :
    (eval_node chrono env doc (.Cmp path op v) budget).1 = lowered env.expand doc (.Cmp path op v) ↔
      Agreement chrono env op v doc path := by
  obtain ⟨name, rfl, rfl⟩ := attr_path_cases hp
  have hread : (eval_node chrono env doc (.Cmp ⟨[], [name], none⟩ op v) budget).1 = true ↔
      ∃ i ∈ instances env ⟨[], [name], none⟩ doc, Common chrono env op v i ∨ Hidden chrono env op v i := by
    rw [eval_leaf, List.any_eq_true]
    refine exists_congr fun i => and_congr_right fun _ => ?_
    rw [← read_iff (compiled_universal hf), List.any_eq_true]
    rfl
  have hreached : lowered env.expand doc (.Cmp ⟨[], [name], none⟩ op v) = true ↔
      ∃ i ∈ instances env ⟨[], [name], none⟩ doc, Common chrono env op v i ∨ Stray chrono env op v i := by
    rw [lowered, leaf_found, hp]
    simp only [filter_of, hf, Option.map_some]
    rw [arms_found_doc hdoc]
    exact exists_congr fun i => and_congr_right fun hi => reached_iff hf hv (instance_not_array hdoc hi)
  rw [Bool.eq_iff_iff, hread, hreached, Agreement]
  simp only [and_or_left, exists_or]
  exact or_iff_or_left

theorem leaf_budget {path : QPath} {p : Path} (hp : attr_path env.expand path = some p) (doc : Value) (budget : Nat) :
    (eval_node chrono env doc (.Cmp path op v) budget).2 = budget := by
  obtain ⟨name, rfl, rfl⟩ := attr_path_cases hp
  rw [eval_leaf]

end Document

section Tree

variable (chrono : Chrono Instant) (env : Env)

/-- The condition on one node: comparisons agree, other nodes ask for nothing. -/
def LeafAgrees (doc : Value) : QNode → Prop
  | .Cmp path op v => Agreement chrono env op v doc path
  | _ => True

variable {chrono env}

theorem eval_all_lowered {doc : Value} {items : List QNode}
    (h : ∀ n ∈ items, ∀ budget, eval_node chrono env doc n budget = (lowered env.expand doc n, budget)) (budget : Nat) :
    eval_all chrono env doc items budget = (lowered_all env.expand doc items, budget) := by
  induction items with
  | nil => rfl
  | cons n items ih =>
      rw [eval_all, h n List.mem_cons_self budget, lowered_all]
      cases lowered env.expand doc n with
      | true => exact ih (fun m hm => h m (List.mem_cons_of_mem _ hm))
      | false => rfl

theorem eval_any_lowered {doc : Value} {items : List QNode}
    (h : ∀ n ∈ items, ∀ budget, eval_node chrono env doc n budget = (lowered env.expand doc n, budget)) (budget : Nat) :
    eval_any chrono env doc items budget = (lowered_any env.expand doc items, budget) := by
  induction items with
  | nil => rfl
  | cons n items ih =>
      rw [eval_any, h n List.mem_cons_self budget, lowered_any]
      cases lowered env.expand doc n with
      | true => rfl
      | false => exact ih (fun m hm => h m (List.mem_cons_of_mem _ hm))

theorem emit_items_mem {expand : String → String} {first : Nat} {items : List QNode} {binds : List Bind}
    {r : List Predicate × List Bind} (h : emit_items expand first items binds = some r) :
    ∀ n ∈ items, ∃ binds q, emit expand first n binds = some q := by
  induction items generalizing binds r with
  | nil => simp
  | cons n items ih =>
      rw [emit_items] at h
      cases hn : emit expand first n binds with
      | none => simp [hn] at h
      | some q =>
          rw [hn] at h
          obtain ⟨t, ht, -⟩ := Option.map_eq_some_iff.mp h
          exact List.forall_mem_cons.mpr ⟨⟨binds, q, hn⟩, ih ht⟩

theorem emit_cmp_cases {expand : String → String} {first : Nat} {path : QPath} {op : CmpOp} {v : QValue}
    {binds : List Bind} {r : Predicate × List Bind} (h : emit expand first (.Cmp path op v) binds = some r) :
    (∃ p, attr_path expand path = some p) ∧ ∃ f, cmp_filter op v = some f := by
  rw [emit] at h
  cases hp : attr_path expand path with
  | none => simp [hp] at h
  | some p =>
      refine ⟨⟨p, rfl⟩, ?_⟩
      rw [hp] at h
      obtain ⟨suffix, hs, -⟩ := Option.map_eq_some_iff.mp h
      obtain ⟨f, hf, -⟩ := Option.map_eq_some_iff.mp hs
      exact ⟨f, hf⟩

/-- When every comparison agrees the evaluator says what the expression is lowered to. -/
theorem eval_lowered {doc : Value} (hdoc : Stored doc) {depth first : Nat} {n : QNode} (hn : Formed depth n)
    {binds : List Bind} {r : Predicate × List Bind} (h : emit env.expand first n binds = some r)
    (hagree : All (LeafAgrees chrono env doc) n) (budget : Nat) :
    eval_node chrono env doc n budget = (lowered env.expand doc n, budget) := by
  induction n using QNode.induction generalizing depth binds r budget with
  | and items ih =>
      rw [emit] at h
      split_ifs at h
      obtain ⟨t, ht, -⟩ := Option.map_eq_some_iff.mp h
      cases hn with
      | and _ _ formed =>
          rw [eval_node, lowered]
          refine eval_all_lowered (fun n hmem budget => ?_) budget
          obtain ⟨binds', q, hq⟩ := emit_items_mem ht n hmem
          exact ih n hmem (formed n hmem) hq ((all_and.mp hagree).2 n hmem) budget
  | or items ih =>
      rw [emit] at h
      split_ifs at h
      obtain ⟨t, ht, -⟩ := Option.map_eq_some_iff.mp h
      cases hn with
      | or _ _ formed =>
          rw [eval_node, lowered]
          refine eval_any_lowered (fun n hmem budget => ?_) budget
          obtain ⟨binds', q, hq⟩ := emit_items_mem ht n hmem
          exact ih n hmem (formed n hmem) hq ((all_or.mp hagree).2 n hmem) budget
  | cmp path op v =>
      cases hn with
      | cmp _ hv =>
          obtain ⟨⟨p, hp⟩, f, hf⟩ := emit_cmp_cases h
          exact Prod.ext ((leaf_exact hdoc hp hf hv budget).mpr hagree) (leaf_budget hp doc budget)
  | exist path negated =>
      rw [emit] at h
      cases hp : attr_path env.expand path with
      | none => simp [hp] at h
      | some p => exact exists_exact hdoc hp negated budget

/-- A compiled expression is answered as the evaluator answers it when its
comparisons agree on the document, and a single comparison only then. -/
theorem compile_q_exact {s : String} {n : QNode} (hs : parse_q s = .ok n) {first : Nat} {c : CompiledSql}
    (hc : compile_q env.expand n first = some c) {doc : Value} (hdoc : Stored doc) :
    (All (LeafAgrees chrono env doc) n → holds first c.binds doc c.sql = eval_q chrono env n doc) ∧
      ∀ path op v, n = .Cmp path op v →
        (holds first c.binds doc c.sql = eval_q chrono env n doc ↔ Agreement chrono env op v doc path) := by
  obtain ⟨hn, -⟩ := parse_q_formed hs
  obtain ⟨r, hr, rfl⟩ := Option.map_eq_some_iff.mp hc
  have hholds : holds first r.2 doc r.1 = lowered env.expand doc n := by
    simpa using (emit_spec env.expand doc hr).2 []
  constructor
  · intro hagree
    rw [hholds, eval_q, eval_lowered hdoc hn hr hagree]
  · rintro path op v rfl
    obtain ⟨⟨p, hp⟩, f, hf⟩ := emit_cmp_cases hr
    cases hn with
    | cmp _ hv =>
        rw [hholds, eval_q, eq_comm]
        exact leaf_exact hdoc hp hf hv _

/-- A context that puts one base before every term. -/
def lamps : Env where
  expand term := "https://example.org/" ++ term
  lookup _ := none
  regex _ := none

def is_red : QNode := .Cmp ⟨[], ["colour"], none⟩ .Eq (.scalar (.Str "red"))

def lamp (colour : Value) : Value := .object [
  ("id", .string "urn:ngsi-ld:Lamp:1"),
  ("https://example.org/colour", .array [.object [("type", .string "Property"), ("value", colour)]])]

theorem stored_lamp (colour : Value) : Stored (lamp colour) := by
  refine ⟨_, rfl, ?_⟩
  simp [Value.is_object, Value.as_object, Value.is_array, Value.as_array]

theorem compile_q_exact_lamp :
    ∃ n c, parse_q "colour==\"red\"" = .ok n ∧ compile_q lamps.expand n 1 = some c ∧
      All (LeafAgrees fixed_width lamps (lamp (.string "red"))) n ∧
        holds 1 c.binds (lamp (.string "red")) c.sql = eval_q fixed_width lamps n (lamp (.string "red")) := by
  have hparse : parse_q "colour==\"red\"" = .ok is_red := by decide +kernel
  have hagree : All (LeafAgrees fixed_width lamps (lamp (.string "red"))) is_red :=
    Or.inl ⟨.object [("type", .string "Property"), ("value", .string "red")], List.mem_singleton.mpr rfl,
      .Value, .string "red", rfl, rfl, nofun, .string "red", List.mem_cons_self, rfl, by unfold hit; decide +kernel⟩
  exact ⟨is_red, _, hparse, rfl, hagree, (compile_q_exact hparse rfl (stored_lamp _)).1 hagree⟩

/-- A value under three arrays: the evaluator finds it, the paths stop one array short. -/
theorem compile_q_misses_nested :
    ∃ n c, parse_q "colour==\"red\"" = .ok n ∧ compile_q lamps.expand n 1 = some c ∧
      Stored (lamp (.array [.array [.array [.string "red"]]])) ∧
        eval_q fixed_width lamps n (lamp (.array [.array [.array [.string "red"]]])) = true ∧
          holds 1 c.binds (lamp (.array [.array [.array [.string "red"]]])) c.sql = false := by
  refine ⟨is_red, _, by decide +kernel, rfl, stored_lamp _, ?_, ?_⟩
  · decide +kernel
  · decide +kernel

end Tree


end AntaresBroker.Ql.Exact
