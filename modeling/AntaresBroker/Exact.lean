import AntaresBroker.Eval
import AntaresBroker.Sql
import AntaresBroker.RoundTrip

namespace AntaresBroker.Ql.Exact

open Json Number Jsonpath Eval Sql Expiry

/-- A JSON number and a literal below 2^53 compare exactly as their binary64 readings do. -/
theorem decimal_le_iff {n : F64} (hn : n.mag < two53.mag) (t : JsonNumber) :
    (toRat t.decimal ≤ toRat (shortest n) ↔ key t.as_f64 ≤ key n) ∧
      (toRat (shortest n) ≤ toRat t.decimal ↔ key n ≤ key t.as_f64) := by
  cases t with
  | posInt z => exact integer_le_iff hn false z.toNat
  | negInt z => exact integer_le_iff hn true (z + 1)
  | float x => exact ⟨(key_le_iff x n).symm, (key_le_iff n x).symm⟩

theorem rel_holds_decimal {n : F64} (hn : n.mag < two53.mag) (t : JsonNumber) {op : CmpOp} {rel : Rel}
    (hr : relation op = some rel) :
    rel.holds (toRat t.decimal) (toRat (shortest n)) = num_cmp t.as_f64 op n := by
  obtain ⟨hle, hge⟩ := decimal_le_iff hn t
  rw [Bool.eq_iff_iff]
  cases op with
  | Eq =>
      obtain rfl := Option.some.inj hr
      simp only [Rel.holds, num_cmp, decide_eq_true_eq]
      exact ⟨fun h => le_antisymm (hle.mp h.le) (hge.mp h.ge), fun h => le_antisymm (hle.mpr h.le) (hge.mpr h.ge)⟩
  | Gt =>
      obtain rfl := Option.some.inj hr
      simp only [Rel.holds, num_cmp, decide_eq_true_eq, ← not_le, hle]
  | Ge =>
      obtain rfl := Option.some.inj hr
      simp only [Rel.holds, num_cmp, decide_eq_true_eq, hge]
  | Lt =>
      obtain rfl := Option.some.inj hr
      simp only [Rel.holds, num_cmp, decide_eq_true_eq, ← not_le, hge]
  | Le =>
      obtain rfl := Option.some.inj hr
      simp only [Rel.holds, num_cmp, decide_eq_true_eq, hle]
  | Ne => cases hr
  | Pattern => cases hr
  | NotPattern => cases hr

theorem literal_num {n : F64} {lit : Literal} (h : literal (.Num n) = some lit) :
    n.mag < two53.mag ∧ lit = .number (shortest n) := by
  rw [literal] at h
  split_ifs at h with hfin hbig hexp
  exact ⟨not_le.mp hbig, (Option.some.inj h).symm⟩

theorem literal_str {s : String} {lit : Literal} (h : literal (.Str s) = some lit) : lit = .text s := by
  rw [literal] at h
  split_ifs at h
  exact (Option.some.inj h).symm

variable {Instant : Type} [LinearOrder Instant] (chrono : Chrono Instant) (env : Env)

/-- A literal and its operator say of one value what the evaluator says. -/
theorem literal_holds {op : CmpOp} {rel : Rel} {v : Scalar} {lit : Literal} (hv : literal v = some lit)
    (hr : relation op = some rel) (hstr : is_str v = true → op.ordering = false)
    (hbool : op.ordering = true → is_bool v = false) (re : Option (String → Bool)) (x : Value) :
    lit.holds rel x = compare_scalar chrono re op x v := by
  cases v with
  | Num n =>
      obtain ⟨hn, rfl⟩ := literal_num hv
      cases x with
      | number t => exact rel_holds_decimal hn t hr
      | _ => rfl
  | Str s =>
      obtain rfl := literal_str hv
      cases op with
      | Eq =>
          obtain rfl := Option.some.inj hr
          cases x <;> rfl
      | Gt | Ge | Lt | Le => cases hstr rfl
      | Ne | Pattern | NotPattern => cases hr
  | Bool b =>
      obtain rfl := Option.some.inj hv
      cases op with
      | Eq =>
          obtain rfl := Option.some.inj hr
          cases x with
          | bool c => cases b <;> cases c <;> rfl
          | _ => rfl
      | Gt | Ge | Lt | Le => cases hbool rfl
      | Ne | Pattern | NotPattern => cases hr

section Compare

variable {re : Option (String → Bool)} {op : CmpOp}

theorem compare_some_iff {want : QValue} {vs : List Value} :
    compare_some chrono re op want vs = true ↔ ∃ x ∈ vs, compare_target chrono re op want x = true := by
  induction vs with
  | nil => simp [compare_some]
  | cons v vs ih => simp [compare_some, ih]

/-- An existential operator finds a match in a target exactly at one of its leaves. -/
theorem compare_target_iff (hop : universal op = false) {want : QValue} {w : Value} :
    compare_target chrono re op want w = true ↔ ∃ x ∈ leaves w, compare_target chrono re op want x = true := by
  induction w using Value.induction with
  | array vs ih =>
      rw [compare_target, hop, if_neg Bool.false_ne_true, compare_some_iff, leaves_array]
      constructor
      · rintro ⟨v, hv, h⟩
        obtain ⟨x, hx, hm⟩ := (ih v hv).mp h
        exact ⟨x, List.mem_flatMap.mpr ⟨v, hv, hx⟩, hm⟩
      · rintro ⟨x, hx, hm⟩
        obtain ⟨v, hv, hx⟩ := List.mem_flatMap.mp hx
        exact ⟨v, hv, (ih v hv).mpr ⟨x, hx, hm⟩⟩
  | _ => simp [leaves]

theorem compare_iff (hop : universal op = false) {want : QValue} {w : Value} :
    compare chrono re op want w = true ↔ ∃ x ∈ leaves w, compare chrono re op want x = true := by
  cases want with
  | List vals =>
      cases op with
      | Eq =>
          simp only [Eval.compare, List.any_eq_true]
          constructor
          · rintro ⟨v, hv, h⟩
            obtain ⟨x, hx, hm⟩ := (compare_target_iff chrono hop).mp h
            exact ⟨x, hx, v, hv, hm⟩
          · rintro ⟨x, hx, v, hv, hm⟩
            exact ⟨v, hv, (compare_target_iff chrono hop).mpr ⟨x, hx, hm⟩⟩
      | Ne | NotPattern => cases hop
      | Gt | Ge | Lt | Le | Pattern => simp [Eval.compare]
  | scalar v => exact compare_target_iff chrono hop
  | Range lo hi => exact compare_target_iff chrono hop

theorem compare_target_item {want : QValue} {x : Value} (hx : x.is_array = false) :
    compare_target chrono re op want x = compare_item chrono re op want x := by
  cases x with
  | array vs => cases hx
  | _ => rfl

theorem compare_scalar_item (hop : universal op = false) {v : Scalar} {x : Value} :
    compare_item chrono re op (.scalar v) x = compare_scalar chrono re op x v := by
  have hne : op ≠ .Ne := fun h => by subst h; cases hop
  simp [compare_item, hne]

/-- An existential operator matches no object. -/
theorem compare_object (hop : universal op = false) {want : QValue} {m : Map} :
    compare chrono re op want (.object m) = false := by
  have hne : op ≠ .Ne := fun h => by subst h; cases hop
  have hscalar (v : Scalar) : compare_scalar chrono re op (.object m) v = false := by
    cases v with
    | Bool b => cases op <;> rfl
    | _ => rfl
  have hitem (v : Scalar) : compare_target chrono re op (.scalar v) (.object m) = false := by
    rw [compare_target_item chrono rfl, compare_scalar_item chrono hop, hscalar]
  have hrange (lo hi : Scalar) : in_range chrono (.object m) lo hi = false := by cases lo <;> cases hi <;> rfl
  cases want with
  | List vals => cases op <;> simp_all [Eval.compare]
  | scalar v => exact hitem v
  | Range lo hi =>
      change compare_target chrono re op (.Range lo hi) (.object m) = false
      rw [compare_target_item chrono rfl]
      cases op <;> simp_all [compare_item]

end Compare

section Filter

variable {re : Option (String → Bool)} {op : CmpOp} {v : QValue}

/-- A range is met by two different values of one array: one from the lower end
up, one up to the upper end. -/
def Straddles (v : QValue) (u : Value) : Prop :=
  ∃ lo hi, v = .Range lo hi ∧ (∃ a ∈ items u, compare_scalar chrono none .Ge a lo = true) ∧
    ∃ b ∈ items u, compare_scalar chrono none .Le b hi = true

/-- A range compiles under `==` and between two numbers only. -/
theorem range_cases {lo hi : Scalar} {f : Cond} (hf : cmp_filter op (.Range lo hi) = some f) :
    op = .Eq ∧ ∃ a b la lb, lo = .Num a ∧ hi = .Num b ∧ literal (.Num a) = some la ∧
      literal (.Num b) = some lb ∧ f = .and (.cmp .ge la) (.cmp .le lb) := by
  have hop : op = .Eq := by
    by_contra hop
    cases lo <;> cases hi <;> simp [cmp_filter, hop] at hf
  subst hop
  refine ⟨rfl, ?_⟩
  cases lo with
  | Num a =>
      cases hi with
      | Num b =>
          simp only [cmp_filter, ne_eq, not_true_eq_false, if_false] at hf
          cases ha : literal (.Num a) with
          | none => simp [ha] at hf
          | some la =>
              cases hb : literal (.Num b) with
              | none => simp [ha, hb] at hf
              | some lb =>
                  simp only [ha, hb, Option.some.injEq] at hf
                  exact ⟨a, b, la, lb, rfl, rfl, ha, hb, hf.symm⟩
      | _ => simp [cmp_filter] at hf
  | _ => simp [cmp_filter] at hf

theorem compiled_universal {f : Cond} (hf : cmp_filter op v = some f) : universal op = false := by
  cases v with
  | List vals =>
      rw [cmp_filter] at hf
      by_cases hop : op = .Eq
      · rw [hop]; rfl
      · rw [if_pos hop] at hf; cases hf
  | Range lo hi => rw [(range_cases hf).1]; rfl
  | scalar w =>
      rw [cmp_filter] at hf
      split_ifs at hf
      cases op with
      | Ne | NotPattern => cases hl : literal w <;> simp [hl, relation] at hf
      | _ => rfl

theorem or_holds {lits : List Literal} {u : Value} {c : Cond} :
    (lits.foldl (fun c l => .or c (.cmp .eq l)) c).holds u = true ↔
      c.holds u = true ∨ ∃ l ∈ lits, (Cond.cmp .eq l).holds u = true := by
  induction lits generalizing c with
  | nil => simp
  | cons l lits ih => simp [ih, Cond.holds, or_assoc]

theorem compare_scalar_eq (hop : universal op = false) {w : Scalar} {x : Value} (hx : x.is_array = false) :
    compare chrono re op (.scalar w) x = compare_scalar chrono re op x w := by
  change compare_target chrono re op (.scalar w) x = _
  rw [compare_target_item chrono hx, compare_scalar_item chrono hop]

theorem compare_list_item {vals : List Scalar} {x : Value} (hx : x.is_array = false) :
    compare chrono re .Eq (.List vals) x = true ↔ ∃ w ∈ vals, compare_scalar chrono re .Eq x w = true := by
  have hop : universal .Eq = false := rfl
  simp only [Eval.compare, List.any_eq_true, compare_target_item chrono hx, compare_scalar_item chrono hop]

theorem mapM_literal {vals : List Scalar} {lits : List Literal} (h : vals.mapM literal = some lits) :
    (∀ l ∈ lits, ∃ w ∈ vals, literal w = some l) ∧ ∀ w ∈ vals, ∃ l ∈ lits, literal w = some l := by
  induction vals generalizing lits with
  | nil =>
      obtain rfl := Option.some.inj h
      simp
  | cons w vals ih =>
      rw [List.mapM_cons] at h
      obtain ⟨l, hl, h⟩ := Option.bind_eq_some_iff.mp h
      obtain ⟨ls, hls, h⟩ := Option.bind_eq_some_iff.mp h
      obtain rfl := Option.some.inj h
      obtain ⟨hto, hfrom⟩ := ih hls
      constructor
      · intro k hk
        rcases List.mem_cons.mp hk with rfl | hk
        · exact ⟨w, List.mem_cons_self, hl⟩
        · obtain ⟨u, hu, he⟩ := hto k hk
          exact ⟨u, List.mem_cons_of_mem _ hu, he⟩
      · intro u hu
        rcases List.mem_cons.mp hu with rfl | hu
        · exact ⟨l, List.mem_cons_self, hl⟩
        · obtain ⟨k, hk, he⟩ := hfrom u hu
          exact ⟨k, List.mem_cons_of_mem _ hk, he⟩

theorem scalar_filter {w : Scalar} {f : Cond} (hf : cmp_filter op (.scalar w) = some f)
    (hv : ValueFormed op (.scalar w)) {u : Value} :
    f.holds u = true ↔ ∃ x ∈ items u, x.is_array = false ∧ compare chrono re op (.scalar w) x = true := by
  have huniv := compiled_universal hf
  rw [cmp_filter] at hf
  split_ifs at hf with hstr
  simp only [Bool.and_eq_true, not_and, Bool.not_eq_true] at hstr
  cases hl : literal w with
  | none => simp [hl] at hf
  | some lit =>
      cases hr : relation op with
      | none => simp [hl, hr] at hf
      | some rel =>
          rw [hl, hr] at hf
          obtain rfl := Option.some.inj hf
          have hlit (x : Value) := literal_holds chrono hl hr hstr hv re x
          rw [cmp_holds_iff]
          refine exists_congr fun x => and_congr_right fun _ => ?_
          constructor
          · intro h
            have hx := Literal.not_array h
            exact ⟨hx, by rw [compare_scalar_eq chrono huniv hx, ← hlit]; exact h⟩
          · rintro ⟨hx, h⟩
            rwa [compare_scalar_eq chrono huniv hx, ← hlit] at h

theorem list_filter {vals : List Scalar} {f : Cond} (hf : cmp_filter op (.List vals) = some f) {u : Value} :
    f.holds u = true ↔ ∃ x ∈ items u, x.is_array = false ∧ compare chrono re op (.List vals) x = true := by
  rw [cmp_filter] at hf
  split_ifs at hf with hop
  obtain rfl := not_not.mp hop
  cases hl : vals.mapM literal with
  | none => simp [hl] at hf
  | some lits =>
      cases lits with
      | nil => simp [hl] at hf
      | cons lit lits =>
          rw [hl] at hf
          obtain rfl := Option.some.inj hf
          obtain ⟨hto, hfrom⟩ := mapM_literal hl
          have hlit {w : Scalar} {l : Literal} (h : literal w = some l) (x : Value) :
              l.holds .eq x = compare_scalar chrono re .Eq x w :=
            literal_holds chrono h rfl (fun _ => rfl) (fun h => by cases h) re x
          have hcond : ((Cond.cmp .eq lit).holds u = true ∨ ∃ l ∈ lits, (Cond.cmp .eq l).holds u = true) ↔
              ∃ l ∈ lit :: lits, ∃ x ∈ items u, l.holds .eq x = true := by
            simp only [cmp_holds_iff, List.exists_mem_cons_iff]
          rw [or_holds, hcond]
          constructor
          · rintro ⟨l, hl, x, hx, h⟩
            have harr := Literal.not_array h
            obtain ⟨w, hw, he⟩ := hto l hl
            exact ⟨x, hx, harr, (compare_list_item chrono harr).mpr ⟨w, hw, by rw [← hlit he]; exact h⟩⟩
          · rintro ⟨x, hx, harr, h⟩
            obtain ⟨w, hw, h⟩ := (compare_list_item chrono harr).mp h
            obtain ⟨l, hl, he⟩ := hfrom w hw
            exact ⟨l, hl, x, hx, by rw [hlit he]; exact h⟩

/-- Each end of a range is sought on its own, also in two different elements. -/
theorem range_filter {lo hi : Scalar} {f : Cond} (hf : cmp_filter op (.Range lo hi) = some f) {u : Value} :
    f.holds u = true ↔ Straddles chrono (.Range lo hi) u := by
  obtain ⟨-, a, b, la, lb, rfl, rfl, ha, hb, rfl⟩ := range_cases hf
  have hge (x : Value) : la.holds .ge x = compare_scalar chrono none .Ge x (.Num a) :=
    literal_holds chrono ha rfl nofun (fun _ => rfl) none x
  have hle (x : Value) : lb.holds .le x = compare_scalar chrono none .Le x (.Num b) :=
    literal_holds chrono hb rfl nofun (fun _ => rfl) none x
  rw [Cond.holds, Bool.and_eq_true, cmp_holds_iff, cmp_holds_iff]
  simp only [hge, hle]
  constructor
  · rintro ⟨h1, h2⟩
    exact ⟨_, _, rfl, h1, h2⟩
  · rintro ⟨_, _, h, h1, h2⟩
    cases h
    exact ⟨h1, h2⟩

theorem straddles_of_compare {lo hi : Scalar} {f : Cond} (hf : cmp_filter op (.Range lo hi) = some f) {u x : Value}
    (hx : x ∈ items u) (harr : x.is_array = false) (h : compare chrono re op (.Range lo hi) x = true) :
    Straddles chrono (.Range lo hi) u := by
  obtain ⟨rfl, a, b, -, -, rfl, rfl, -⟩ := range_cases hf
  change compare_target chrono re .Eq (.Range (.Num a) (.Num b)) x = true at h
  rw [compare_target_item chrono harr] at h
  cases x with
  | number t =>
      have hin : num_cmp t.as_f64 .Ge a = true ∧ num_cmp t.as_f64 .Le b = true := by
        simpa [compare_item, in_range, Value.as_f64] using h
      exact ⟨_, _, rfl, ⟨_, hx, hin.1⟩, ⟨_, hx, hin.2⟩⟩
  | _ => cases h

/-- A filter holds where the evaluator has a match in the array opened once, or
where a range is straddled. -/
theorem filter_holds {f : Cond} (hf : cmp_filter op v = some f) (hv : ValueFormed op v) {u : Value} :
    f.holds u = true ↔ (∃ x ∈ items u, x.is_array = false ∧ compare chrono re op v x = true) ∨
      Straddles chrono v u := by
  cases v with
  | scalar w =>
      have hstraddle : ¬ Straddles chrono (.scalar w) u := fun ⟨_, _, h, _⟩ => by cases h
      rw [or_iff_left hstraddle, scalar_filter chrono hf hv]
  | List vals =>
      have hstraddle : ¬ Straddles chrono (.List vals) u := fun ⟨_, _, h, _⟩ => by cases h
      rw [or_iff_left hstraddle, list_filter chrono hf]
  | Range lo hi =>
      rw [range_filter chrono hf]
      exact (or_iff_right_of_imp fun ⟨_, hx, harr, h⟩ => straddles_of_compare chrono hf hx harr h).symm

end Filter

section Places

/-- The members whose value may be typed. -/
def typed (kind : TargetKind) : Bool := kind = .Value ∨ kind = .ValueList

/-- The `@value` members one array down at most. -/
def typed_values (w : Value) : List Value := (items w).filterMap (·.get "@value")

/-- The values of a member at which the arms evaluate their filter. -/
def cells (kind : TargetKind) (w : Value) : List Value :=
  items w ++ if typed kind then (typed_values w).flatMap items else []

/-- The values of a member that the comparisons of the filter look at. -/
def compared (kind : TargetKind) (w : Value) : List Value := (cells kind w).flatMap items

/-- What the evaluator says of one value that is no array. -/
def hit (op : CmpOp) (v : QValue) (x : Value) : Prop := compare chrono (pattern env op v) op v x = true

variable (op : CmpOp) (v : QValue)

/-- A member the arms find: a matching value in their reach, or a straddled range. -/
def Matched (kind : TargetKind) (w : Value) : Prop :=
  (∃ x ∈ compared kind w, x.is_array = false ∧ hit chrono env op v x) ∨ ∃ u ∈ cells kind w, Straddles chrono v u

/-- A matching value where both sides look: in the instance's first value
member, not a vocabulary term, of a kind the operator is allowed on. -/
def Common (inst : Value) : Prop :=
  ∃ kind w, comparable_value inst = some (kind, w) ∧ kind_allows kind op = true ∧ kind ≠ .Vocab ∧
    ∃ x ∈ compared kind w, x.is_array = false ∧ hit chrono env op v x

/-- A matching value that only the evaluator finds. -/
inductive Hidden (inst : Value) : Prop
  /-- in an array where the arms expect a value, so under three arrays or more -/
  | deep {kind : TargetKind} {w x y : Value} (hfirst : comparable_value inst = some (kind, w))
      (hallows : kind_allows kind op = true) (hvocab : kind ≠ .Vocab) (hx : x ∈ compared kind w)
      (harr : x.is_array = true) (hy : y ∈ leaves x) (hhit : hit chrono env op v y)
  /-- in a typed value that stands under two arrays or more -/
  | typed {kind : TargetKind} {w u l x y : Value} (hfirst : comparable_value inst = some (kind, w))
      (hkind : typed kind = true) (hu : u ∈ items w) (harr : u.is_array = true) (hl : l ∈ leaves u)
      (hx : l.get "@value" = some x) (hy : y ∈ leaves x) (hhit : hit chrono env op v y)
  /-- in a vocabulary term, once it is expanded -/
  | vocab {w y : Value} (hfirst : comparable_value inst = some (.Vocab, w))
      (hy : y ∈ leaves (expand_vocab env.expand w)) (hhit : hit chrono env op v y)

/-- A match that only the arms find. -/
inductive Stray (inst : Value) : Prop
  /-- in a value member after the first -/
  | second {key : String} {kind : TargetKind} {w : Value} (hkey : (key, kind) ∈ VALUE_MEMBERS)
      (hget : inst.get key = some w) (hfirst : comparable_value inst ≠ some (kind, w))
      (hmatch : Matched chrono env op v kind w)
  /-- in a Relationship, by an operator that does not apply to one -/
  | relationship {kind : TargetKind} {w : Value} (hfirst : comparable_value inst = some (kind, w))
      (hallows : kind_allows kind op = false) (hmatch : Matched chrono env op v kind w)
  /-- in a vocabulary term as it is stored -/
  | vocab {w : Value} (hfirst : comparable_value inst = some (.Vocab, w))
      (hmatch : Matched chrono env op v .Vocab w)
  /-- in a range that two values of one array straddle -/
  | straddle {kind : TargetKind} {w u : Value} (hfirst : comparable_value inst = some (kind, w))
      (hallows : kind_allows kind op = true) (hvocab : kind ≠ .Vocab) (hu : u ∈ cells kind w)
      (hs : Straddles chrono v u)

/-- The instances of the attribute a path of one name leads to. -/
def instances (path : QPath) (doc : Value) : List Value :=
  ((path.path.head?.bind (fun name => doc.get (env.expand name))).bind Value.as_array).getD []

/-- Where a comparison is answered alike: a match stands where both sides look,
or both sides or neither find one elsewhere. -/
def Agreement (doc : Value) (path : QPath) : Prop :=
  (∃ i ∈ instances env path doc, Common chrono env op v i) ∨
    ((∃ i ∈ instances env path doc, Hidden chrono env op v i) ↔ ∃ i ∈ instances env path doc, Stray chrono env op v i)

end Places

/-- A stored entity: attributes are arrays of instances, the other members are
scalars or arrays of scalars. -/
def Stored (doc : Value) : Prop :=
  ∃ m, doc = .object m ∧ ∀ p ∈ m, p.2.is_object = false ∧ ∀ vs, p.2 = .array vs → ∀ w ∈ vs, w.is_array = false

section Leaf

variable {chrono env} {op : CmpOp} {v : QValue}

theorem leaves_array_iff {x y : Value} (h : x.is_array = false) : y ∈ leaves x ↔ y = x := by
  rw [leaves_of_not_array h, List.mem_singleton]

theorem hit_not_object {x : Value} (hop : universal op = false) (h : hit chrono env op v x) (k : String) :
    x.get k = none := by
  cases x with
  | object m => rw [hit, compare_object chrono hop] at h; cases h
  | _ => rfl

/-- The leaves of an untyped value: every leaf, a typed one replaced by the leaves of its value. -/
theorem leaves_untyped (w : Value) :
    leaves (untyped w) = (leaves w).flatMap (fun l => leaves ((l.get "@value").getD l)) := by
  induction w using Value.induction with
  | array vs ih =>
      have hitems (us : List Value) (hus : ∀ u ∈ us, u ∈ vs) : leavesAll (untyped_items us) =
          us.flatMap (fun u => (leaves u).flatMap (fun l => leaves ((l.get "@value").getD l))) := by
        induction us with
        | nil => rfl
        | cons u us ihus =>
            rw [untyped_items, leavesAll, List.flatMap_cons, ih u (hus u List.mem_cons_self),
              ihus (fun t ht => hus t (List.mem_cons_of_mem _ ht))]
      rw [untyped, leaves, hitems vs (fun _ h => h), leaves_array, List.flatMap_assoc]
  | object m => simp [untyped, leaves, Value.get]
  | _ => simp [untyped, leaves, Value.get]

theorem mem_typed_values {w x : Value} :
    x ∈ typed_values w ↔ ∃ u ∈ items w, u.get "@value" = some x := List.mem_filterMap

theorem mem_cells_items {kind : TargetKind} {w u : Value} (h : u ∈ items w) : u ∈ cells kind w :=
  List.mem_append_left _ h

theorem mem_cells_typed {kind : TargetKind} {w u x : Value} (hk : typed kind = true) (hx : x ∈ typed_values w)
    (hu : u ∈ items x) : u ∈ cells kind w := by
  rw [cells, hk, if_pos rfl]
  exact List.mem_append_right _ (List.mem_flatMap.mpr ⟨x, hx, hu⟩)

theorem mem_compared {kind : TargetKind} {w u x : Value} (hu : u ∈ cells kind w) (hx : x ∈ items u) :
    x ∈ compared kind w := List.mem_flatMap.mpr ⟨u, hu, hx⟩

theorem mem_leaves_of_items {w u l : Value} (hu : u ∈ items w) (hl : l ∈ leaves u) : l ∈ leaves w := by
  rw [leaves_items, List.mem_flatMap]
  exact ⟨u, hu, hl⟩

theorem mem_leaves_of_cell {w u x l : Value} (hu : u ∈ items w) (hx : x ∈ items u) (hl : l ∈ leaves x) :
    l ∈ leaves w := mem_leaves_of_items hu (mem_leaves_of_items hx hl)

theorem not_array_of_get {u x : Value} {k : String} (h : u.get k = some x) : u.is_array = false := by
  cases u with
  | array vs => cases h
  | _ => rfl

/-- The leaves an evaluator reads under a member it does not expand. -/
def read_leaves (kind : TargetKind) (w : Value) : List Value :=
  if typed kind then (leaves w).flatMap (fun l => leaves ((l.get "@value").getD l)) else leaves w

theorem leaves_push_target (kind : TargetKind) (w : Value) :
    leaves (push_target kind w).2 = read_leaves kind w := by
  unfold push_target read_leaves typed
  by_cases h : kind = .Value ∨ kind = .ValueList
  · rw [decide_eq_true h, if_pos rfl]
    exact (congrArg leaves (if_pos h)).trans (leaves_untyped w)
  · rw [decide_eq_false h, if_neg Bool.false_ne_true]
    exact congrArg leaves (if_neg h)

/-- Under a typed value too far down for the arms. -/
def Buried (kind : TargetKind) (w y : Value) : Prop :=
  typed kind = true ∧ ∃ u ∈ items w, u.is_array = true ∧ ∃ l ∈ leaves u, ∃ x, l.get "@value" = some x ∧ y ∈ leaves x

/-- What the evaluator reads is compared by the arms, lies in an array where
they expect a value, or is buried. -/
theorem read_leaves_cases {kind : TargetKind} {w y : Value} (hy : y ∈ read_leaves kind w) :
    (∃ x ∈ compared kind w, y ∈ leaves x) ∨ Buried kind w y := by
  have hplain {u : Value} (hu : u ∈ items w) (h : y ∈ leaves u) : ∃ x ∈ compared kind w, y ∈ leaves x := by
    rw [leaves_items, List.mem_flatMap] at h
    obtain ⟨x, hx, hy⟩ := h
    exact ⟨x, mem_compared (mem_cells_items hu) hx, hy⟩
  unfold read_leaves at hy
  split_ifs at hy with hk
  · obtain ⟨l, hl, hy⟩ := List.mem_flatMap.mp hy
    rw [leaves_items, List.mem_flatMap] at hl
    obtain ⟨u, hu, hl⟩ := hl
    cases hg : l.get "@value" with
    | none =>
        rw [hg, Option.getD_none, leaves_of_not_array (leaf_not_array hl), List.mem_singleton] at hy
        exact Or.inl (hplain hu (hy ▸ hl))
    | some x =>
        rw [hg, Option.getD_some] at hy
        by_cases harr : u.is_array = true
        · exact Or.inr ⟨hk, u, hu, harr, l, hl, x, hg, hy⟩
        · rw [leaves_array_iff (Bool.eq_false_of_not_eq_true harr)] at hl
          subst hl
          rw [leaves_items, List.mem_flatMap] at hy
          obtain ⟨t, ht, hy⟩ := hy
          rw [leaves_items, List.mem_flatMap] at hy
          obtain ⟨z, hz, hy⟩ := hy
          exact Or.inl ⟨z, mem_compared (mem_cells_typed hk (mem_typed_values.mpr ⟨l, hu, hg⟩) ht) hz, hy⟩
  · rw [leaves_items, List.mem_flatMap] at hy
    obtain ⟨u, hu, hy⟩ := hy
    exact Or.inl (hplain hu hy)

theorem read_leaves_plain {kind : TargetKind} {w y : Value} (hy : y ∈ leaves w) (hget : y.get "@value" = none) :
    y ∈ read_leaves kind w := by
  unfold read_leaves
  split_ifs
  · refine List.mem_flatMap.mpr ⟨y, hy, ?_⟩
    rw [hget, Option.getD_none, leaves_array_iff (leaf_not_array hy)]
  · exact hy

theorem read_leaves_typed {kind : TargetKind} {w l x y : Value} (hk : typed kind = true) (hl : l ∈ leaves w)
    (hget : l.get "@value" = some x) (hy : y ∈ leaves x) : y ∈ read_leaves kind w := by
  rw [read_leaves, hk, if_pos rfl]
  exact List.mem_flatMap.mpr ⟨l, hl, by rwa [hget]⟩

/-- A scalar the arms compare, or that stands under an array they compare, is read. -/
theorem read_of_compared {kind : TargetKind} {w x y : Value} (hx : x ∈ compared kind w) (hy : y ∈ leaves x)
    (hget : y.get "@value" = none) : y ∈ read_leaves kind w := by
  obtain ⟨u, hu, hx⟩ := List.mem_flatMap.mp hx
  rcases List.mem_append.mp hu with hu | hu
  · exact read_leaves_plain (mem_leaves_of_cell hu hx hy) hget
  · split_ifs at hu with hk
    · obtain ⟨z, hz, hu⟩ := List.mem_flatMap.mp hu
      obtain ⟨l, hl, hlz⟩ := mem_typed_values.mp hz
      have hleaf : l ∈ leaves w :=
        mem_leaves_of_items hl ((leaves_array_iff (not_array_of_get hlz)).mpr rfl)
      exact read_leaves_typed hk hleaf hlz (mem_leaves_of_cell hu hx hy)
    · cases hu

theorem read_of_buried {kind : TargetKind} {w y : Value} (h : Buried kind w y) : y ∈ read_leaves kind w := by
  obtain ⟨hk, u, hu, -, l, hl, x, hget, hy⟩ := h
  exact read_leaves_typed hk (mem_leaves_of_items hu hl) hget hy

theorem typed_allows {kind : TargetKind} (h : typed kind = true) : kind_allows kind op = true ∧ kind ≠ .Vocab := by
  cases kind with
  | Value | ValueList => exact ⟨rfl, nofun⟩
  | _ => cases h

/-- What the evaluator makes of one instance. -/
def Read (chrono : Chrono Instant) (env : Env) (op : CmpOp) (v : QValue) (inst : Value) : Prop :=
  ∃ t ∈ terminal env.expand none inst, term_matches chrono env op v t = true

theorem read_iff_target {inst : Value} : Read chrono env op v inst ↔
    ∃ kind w, comparable_value inst = some (kind, w) ∧ kind_allows kind op = true ∧
      hit chrono env op v (if kind = .Vocab then expand_vocab env.expand w else (push_target kind w).2) := by
  unfold Read terminal
  cases hc : comparable_value inst with
  | none => simp
  | some p =>
      obtain ⟨kind, w⟩ := p
      by_cases hk : kind = .Vocab
      · subst hk
        simp [term_matches, hit]
      · simp [hk, term_matches, hit, push_target]

theorem read_iff (hop : universal op = false) {inst : Value} :
    Read chrono env op v inst ↔ Common chrono env op v inst ∨ Hidden chrono env op v inst := by
  rw [read_iff_target]
  constructor
  · rintro ⟨kind, w, hfirst, hallows, h⟩
    by_cases hk : kind = .Vocab
    · subst hk
      rw [if_pos rfl, hit, compare_iff chrono hop] at h
      obtain ⟨y, hy, h⟩ := h
      exact Or.inr (.vocab hfirst hy h)
    · rw [if_neg hk, hit, compare_iff chrono hop, leaves_push_target] at h
      obtain ⟨y, hy, h⟩ := h
      rcases read_leaves_cases hy with ⟨x, hx, hy⟩ | ⟨hkind, u, hu, harr, l, hl, x, hx, hy⟩
      · by_cases harr : x.is_array = true
        · exact Or.inr (.deep hfirst hallows hk hx harr hy h)
        · have hx' := Bool.eq_false_of_not_eq_true harr
          obtain rfl := (leaves_array_iff hx').mp hy
          exact Or.inl ⟨kind, w, hfirst, hallows, hk, y, hx, hx', h⟩
      · exact Or.inr (.typed hfirst hkind hu harr hl hx hy h)
  · have hread {kind : TargetKind} {w y : Value} (hk : kind ≠ .Vocab) (hy : y ∈ read_leaves kind w)
        (h : hit chrono env op v y) :
        hit chrono env op v (if kind = .Vocab then expand_vocab env.expand w else (push_target kind w).2) := by
      rw [if_neg hk, hit, compare_iff chrono hop, leaves_push_target]
      exact ⟨y, hy, h⟩
    rintro (⟨kind, w, hfirst, hallows, hk, x, hx, harr, h⟩ | h)
    · exact ⟨kind, w, hfirst, hallows, hread hk
        (read_of_compared hx ((leaves_array_iff harr).mpr rfl) (hit_not_object hop h _)) h⟩
    · cases h with
      | deep hfirst hallows hk hx harr hy h =>
          exact ⟨_, _, hfirst, hallows, hread hk (read_of_compared hx hy (hit_not_object hop h _)) h⟩
      | typed hfirst hkind hu harr hl hx hy h =>
          have hallows : kind_allows _ op = true ∧ _ ≠ TargetKind.Vocab := typed_allows hkind
          exact ⟨_, _, hfirst, hallows.1, hread hallows.2 (read_of_buried ⟨hkind, _, hu, harr, _, hl, _, hx, hy⟩) h⟩
      | vocab hfirst hy h =>
          refine ⟨_, _, hfirst, rfl, ?_⟩
          rw [if_pos rfl, hit, compare_iff chrono hop]
          exact ⟨_, hy, h⟩

theorem first_member {inst w : Value} {kind : TargetKind} (h : comparable_value inst = some (kind, w)) :
    ∃ key, (key, kind) ∈ VALUE_MEMBERS ∧ inst.get key = some w := by
  obtain ⟨p, hp, h⟩ := List.exists_of_findSome?_eq_some h
  obtain ⟨x, hx, he⟩ := Option.map_eq_some_iff.mp h
  cases he
  exact ⟨p.1, hp, hx⟩

theorem mem_value_keys {key : String} : key ∈ VALUE_KEYS ↔ ∃ kind, (key, kind) ∈ VALUE_MEMBERS := by
  have hkeys : VALUE_KEYS = VALUE_MEMBERS.map Prod.fst := rfl
  rw [hkeys, List.mem_map]
  exact ⟨fun ⟨p, hp, he⟩ => ⟨p.2, he ▸ hp⟩, fun ⟨kind, h⟩ => ⟨_, h, rfl⟩⟩

theorem mem_typed_keys {key : String} : key ∈ TYPED_KEYS ↔ ∃ kind, (key, kind) ∈ VALUE_MEMBERS ∧ typed kind = true := by
  constructor
  · intro h
    simp only [TYPED_KEYS, List.mem_cons, List.not_mem_nil, or_false] at h
    rcases h with rfl | rfl
    · exact ⟨.Value, by simp [VALUE_MEMBERS], rfl⟩
    · exact ⟨.ValueList, by simp [VALUE_MEMBERS], rfl⟩
  · rintro ⟨kind, hmem, hk⟩
    simp only [VALUE_MEMBERS, List.mem_cons, Prod.mk.injEq, List.not_mem_nil, or_false] at hmem
    rcases hmem with ⟨rfl, rfl⟩ | ⟨rfl, rfl⟩ | ⟨rfl, rfl⟩ | ⟨rfl, rfl⟩ | ⟨rfl, rfl⟩ | ⟨rfl, rfl⟩ | ⟨rfl, rfl⟩ <;>
      first
        | exact List.mem_cons_self
        | exact List.mem_cons_of_mem _ List.mem_cons_self
        | cases hk

/-- A member step on an instance, which is no array, is a lookup. -/
theorem found_member {inst : Value} (hinst : inst.is_array = false) {key : String} {p : Path} :
    found (.member key :: p) inst = true ↔ ∃ w, inst.get key = some w ∧ found p w = true := by
  simp [found_member_iff, items_of_not_array hinst]

/-- The arms of an instance: some value member, or the typed values under one
that may hold them. -/
theorem arms_found_iff {inst : Value} (hinst : inst.is_array = false) {suffix : Path} :
    arms_found [] suffix inst = true ↔ ∃ key kind w, (key, kind) ∈ VALUE_MEMBERS ∧ inst.get key = some w ∧
      (found suffix w = true ∨ typed kind = true ∧ ∃ x ∈ typed_values w, found suffix x = true) := by
  have htyped {key : String} : found ([.member key, .member "@value"] ++ suffix) inst = true ↔
      ∃ w, inst.get key = some w ∧ ∃ x ∈ typed_values w, found suffix x = true := by
    rw [List.cons_append, List.cons_append, List.nil_append, found_member hinst]
    simp only [found_member_iff, mem_typed_values]
    exact exists_congr fun w => and_congr_right fun _ =>
      ⟨fun ⟨u, hu, x, hx, h⟩ => ⟨x, ⟨u, hu, hx⟩, h⟩, fun ⟨x, ⟨u, hu, hx⟩, h⟩ => ⟨u, hu, x, hx, h⟩⟩
  rw [arms_found, List.any_eq_true]
  constructor
  · rintro ⟨arm, harm, h⟩
    rcases List.mem_append.mp harm with harm | harm
    · obtain ⟨key, hkey, rfl⟩ := List.mem_map.mp harm
      obtain ⟨kind, hkind⟩ := mem_value_keys.mp hkey
      obtain ⟨w, hw, h⟩ := (found_member hinst).mp h
      exact ⟨key, kind, w, hkind, hw, Or.inl h⟩
    · obtain ⟨key, hkey, rfl⟩ := List.mem_map.mp harm
      obtain ⟨kind, hkind, ht⟩ := mem_typed_keys.mp hkey
      obtain ⟨w, hw, h⟩ := htyped.mp h
      exact ⟨key, kind, w, hkind, hw, Or.inr ⟨ht, h⟩⟩
  · rintro ⟨key, kind, w, hkind, hw, h | ⟨ht, h⟩⟩
    · refine ⟨[.member key], List.mem_append_left _ (List.mem_map.mpr ⟨key, mem_value_keys.mpr ⟨kind, hkind⟩, rfl⟩), ?_⟩
      exact (found_member hinst).mpr ⟨w, hw, h⟩
    · refine ⟨[.member key, .member "@value"],
        List.mem_append_right _ (List.mem_map.mpr ⟨key, mem_typed_keys.mpr ⟨kind, hkind, ht⟩, rfl⟩), ?_⟩
      exact htyped.mpr ⟨w, hw, h⟩

theorem arms_filter_iff {inst : Value} (hinst : inst.is_array = false) {f : Cond} :
    arms_found [] [.filter f] inst = true ↔ ∃ key kind w, (key, kind) ∈ VALUE_MEMBERS ∧ inst.get key = some w ∧
      ∃ u ∈ cells kind w, f.holds u = true := by
  rw [arms_found_iff hinst]
  refine exists_congr fun key => exists_congr fun kind => exists_congr fun w => and_congr_right fun _ =>
    and_congr_right fun _ => ?_
  simp only [found_filter_iff]
  constructor
  · rintro (⟨u, hu, h⟩ | ⟨hk, x, hx, u, hu, h⟩)
    · exact ⟨u, mem_cells_items hu, h⟩
    · exact ⟨u, mem_cells_typed hk hx hu, h⟩
  · rintro ⟨u, hu, h⟩
    rcases List.mem_append.mp hu with hu | hu
    · exact Or.inl ⟨u, hu, h⟩
    · split_ifs at hu with hk
      · obtain ⟨x, hx, hu⟩ := List.mem_flatMap.mp hu
        exact Or.inr ⟨hk, x, hx, u, hu, h⟩
      · cases hu

theorem matched_iff {f : Cond} (hf : cmp_filter op v = some f) (hv : ValueFormed op v) {kind : TargetKind}
    {w : Value} : (∃ u ∈ cells kind w, f.holds u = true) ↔ Matched chrono env op v kind w := by
  have hholds : ∀ u : Value, f.holds u = true ↔
      (∃ x ∈ items u, x.is_array = false ∧ compare chrono (pattern env op v) op v x = true) ∨ Straddles chrono v u :=
    fun _ => filter_holds chrono hf hv
  simp only [hholds]
  constructor
  · rintro ⟨u, hu, ⟨x, hx, harr, h⟩ | h⟩
    · exact Or.inl ⟨x, mem_compared hu hx, harr, h⟩
    · exact Or.inr ⟨u, hu, h⟩
  · rintro (⟨x, hx, harr, h⟩ | ⟨u, hu, h⟩)
    · obtain ⟨u, hu, hx⟩ := List.mem_flatMap.mp hx
      exact ⟨u, hu, Or.inl ⟨x, hx, harr, h⟩⟩
    · exact ⟨u, hu, Or.inr h⟩

theorem reached_iff {f : Cond} (hf : cmp_filter op v = some f) (hv : ValueFormed op v) {inst : Value}
    (hinst : inst.is_array = false) :
    arms_found [] [.filter f] inst = true ↔ Common chrono env op v inst ∨ Stray chrono env op v inst := by
  rw [arms_filter_iff hinst]
  constructor
  · rintro ⟨key, kind, w, hkey, hw, h⟩
    have hmatch : Matched chrono env op v kind w := (matched_iff hf hv).mp h
    by_cases hfirst : comparable_value inst = some (kind, w)
    · by_cases hallows : kind_allows kind op = true
      · by_cases hk : kind = .Vocab
        · subst hk
          exact Or.inr (.vocab hfirst hmatch)
        · rcases hmatch with ⟨x, hx, harr, h⟩ | ⟨u, hu, h⟩
          · exact Or.inl ⟨kind, w, hfirst, hallows, hk, x, hx, harr, h⟩
          · exact Or.inr (.straddle hfirst hallows hk hu h)
      · exact Or.inr (.relationship hfirst (Bool.eq_false_of_not_eq_true hallows) hmatch)
    · exact Or.inr (.second hkey hw hfirst hmatch)
  · have hmember {kind : TargetKind} {w : Value} (hfirst : comparable_value inst = some (kind, w))
        (h : Matched chrono env op v kind w) : ∃ key kind w, (key, kind) ∈ VALUE_MEMBERS ∧
          inst.get key = some w ∧ ∃ u ∈ cells kind w, f.holds u = true := by
      obtain ⟨key, hkey, hw⟩ := first_member hfirst
      exact ⟨key, kind, w, hkey, hw, (matched_iff hf hv).mpr h⟩
    rintro (⟨kind, w, hfirst, -, -, h⟩ | h)
    · exact hmember hfirst (Or.inl h)
    · cases h with
      | second hkey hget hfirst hmatch => exact ⟨_, _, _, hkey, hget, (matched_iff hf hv).mpr hmatch⟩
      | relationship hfirst hallows hmatch => exact hmember hfirst hmatch
      | vocab hfirst hmatch => exact hmember hfirst hmatch
      | straddle hfirst hallows hk hu hs => exact hmember hfirst (Or.inr ⟨_, hu, hs⟩)

end Leaf

end AntaresBroker.Ql.Exact
