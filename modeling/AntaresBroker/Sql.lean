import AntaresBroker.Jsonpath
import AntaresBroker.Ql

namespace AntaresBroker.Ql.Sql

open Json Number Text Jsonpath

/-- The comparable-value members, in the evaluator's order. -/
def VALUE_KEYS : List String := ["value", "object", "languageMap", "vocab", "json", "valueList", "objectList"]

/-- The members whose value may be written as a typed value. -/
def TYPED_KEYS : List String := ["value", "valueList"]

/-- What a placeholder is bound to. -/
inductive Bind
  | text (s : String)
  | jsonpath (p : Path)
deriving DecidableEq

/-- A predicate over one jsonb column; the numbers are placeholders. -/
inductive Predicate
  /-- `col @? $n::jsonpath` -/
  | exist (n : Nat)
  /-- `jsonb_typeof(col->'key') = 'kind'` -/
  | typeof (key kind : String)
  /-- `(col->>'key') COLLATE "C" rel $n::text`, of a text -/
  | bytes (key : String) (rel : Rel) (n : Nat)
  | not (s : Predicate)
  | all (items : List Predicate)
  | any (items : List Predicate)

section Meaning

variable (first : Nat) (binds : List Bind) (col : Value)

def placeholder (n : Nat) : Option Bind := if first ≤ n then binds[n - first]? else none

def jsonb_typeof : Value → String
  | .null => "null"
  | .bool _ => "boolean"
  | .number _ => "number"
  | .string _ => "string"
  | .array _ => "array"
  | .object _ => "object"

mutual
/-- The truth of a predicate whose placeholders count up from `first`. -/
def holds : Predicate → Bool
  | .exist n =>
      match placeholder first binds n with
      | some (.jsonpath p) => found p col
      | _ => false
  | .typeof key kind => (col.get key).any (fun v => jsonb_typeof v = kind)
  | .bytes key rel n =>
      match col.get key, placeholder first binds n with
      | some (.string t), some (.text s) => rel.holds t.toList s.toList
      | _, _ => false
  | .not s => !holds s
  | .all items => holds_all items
  | .any items => holds_any items
termination_by structural s => s
def holds_all : List Predicate → Bool
  | [] => true
  | s :: items => holds s && holds_all items
termination_by structural items => items
def holds_any : List Predicate → Bool
  | [] => false
  | s :: items => holds s || holds_any items
termination_by structural items => items
end

end Meaning

/-- A literal of the path language; `none` for what it cannot write exactly. -/
def literal : Scalar → Option Literal
  | .Str s => if '\x00' ∈ s.toList then none else some (.text s)
  | .Bool b => some (.bool b)
  | .Num n =>
      if ¬ is_finite n then none
      else if two53.mag ≤ n.mag then none
      else if (NumberText.display n).any NumberText.isExp then none
      else some (.number (shortest n))

def relation : CmpOp → Option Rel
  | .Eq => some .eq
  | .Gt => some .gt
  | .Ge => some .ge
  | .Lt => some .lt
  | .Le => some .le
  | .Ne | .Pattern | .NotPattern => none

def is_str : Scalar → Bool
  | .Str _ => true
  | _ => false

def cmp_filter (op : CmpOp) : QValue → Option Cond
  | .List vals =>
      if op ≠ .Eq then none
      else
        match vals.mapM literal with
        | some (lit :: lits) => some (lits.foldl (fun c l => .or c (.cmp .eq l)) (.cmp .eq lit))
        | _ => none
  | .Range lo hi =>
      if op ≠ .Eq then none
      else
        match lo, hi with
        | .Num a, .Num b =>
            match literal (.Num a), literal (.Num b) with
            | some la, some lb => some (.and (.cmp .ge la) (.cmp .le lb))
            | _, _ => none
        | _, _ => none
  | .scalar v =>
      if is_str v && op.ordering then none
      else
        match literal v, relation op with
        | some lit, some rel => some (.cmp rel lit)
        | _, _ => none

/-- One step for every value member, and a second for those that may be typed. -/
def arms : List Path :=
  VALUE_KEYS.map (fun k => [.member k]) ++ TYPED_KEYS.map (fun k => [.member k, .member "@value"])

/-- The paths of all arms, each bound to the next free placeholder, joined by OR. -/
def value_or_filter (pfx suffix : Path) (first : Nat) (binds : List Bind) : Predicate × List Bind :=
  (.any ((List.range arms.length).map (fun i => .exist (first + (binds.length + i)))),
    binds ++ arms.map (fun arm => .jsonpath (pfx ++ arm ++ suffix)))

def filter_of (cmp : Option (CmpOp × QValue)) : Option Path :=
  match cmp with
  | some (op, v) => (cmp_filter op v).map (fun f => [.filter f])
  | none => some []

def value_or (pfx : Path) (cmp : Option (CmpOp × QValue)) (first : Nat) (binds : List Bind) :
    Option (Predicate × List Bind) :=
  (filter_of cmp).map (fun suffix => value_or_filter pfx suffix first binds)

section Compile

variable (expand : String → String)

/-- The instances of an attribute; longer paths are ambiguous and stay with the evaluator. -/
def path_expr (path : List String) : Option Path :=
  match path with
  | [name] => if '\x00' ∈ (expand name).toList then none else some [.member (expand name), .anyElement]
  | _ => none

def attr_path (path : QPath) : Option Path :=
  if path.links ≠ [] ∨ path.bracket ≠ none then none else path_expr expand path.path

mutual
def emit (first : Nat) : QNode → List Bind → Option (Predicate × List Bind)
  | .And items, binds => if items = [] then none else (emit_items first items binds).map (fun r => (.all r.1, r.2))
  | .Or items, binds => if items = [] then none else (emit_items first items binds).map (fun r => (.any r.1, r.2))
  | .Exists path negated, binds =>
      match attr_path expand path with
      | none => none
      | some p => (value_or p none first binds).map (fun r => (if negated then .not r.1 else r.1, r.2))
  | .Cmp path op value, binds =>
      match attr_path expand path with
      | none => none
      | some p => value_or p (some (op, value)) first binds
termination_by structural n => n
def emit_items (first : Nat) : List QNode → List Bind → Option (List Predicate × List Bind)
  | [], binds => some ([], binds)
  | n :: items, binds =>
      match emit first n binds with
      | none => none
      | some (sql, binds) => (emit_items first items binds).map (fun r => (sql :: r.1, r.2))
termination_by structural items => items
end

structure CompiledSql where
  sql : Predicate
  binds : List Bind

def compile_q (node : QNode) (first_bind : Nat) : Option CompiledSql :=
  (emit expand first_bind node []).map (fun r => ⟨r.1, r.2⟩)

/-- One leaf over a single stored instance instead of an entity document. -/
def compile_instance_leaf (cmp : Option (CmpOp × QValue)) (first : Nat) : Option CompiledSql :=
  (value_or [] cmp first []).map (fun r => ⟨r.1, r.2⟩)

end Compile

theorem holds_all_iff {first : Nat} {binds : List Bind} {col : Value} {items : List Predicate} :
    holds_all first binds col items = true ↔ ∀ s ∈ items, holds first binds col s = true := by
  induction items with
  | nil => simp [holds_all]
  | cons s items ih => simp [holds_all, ih]

theorem holds_any_iff {first : Nat} {binds : List Bind} {col : Value} {items : List Predicate} :
    holds_any first binds col items = true ↔ ∃ s ∈ items, holds first binds col s = true := by
  induction items with
  | nil => simp [holds_any]
  | cons s items ih => simp [holds_any, ih]

/-- A placeholder numbered after the binds before it names the bind itself. -/
theorem placeholder_append (first : Nat) (binds news more : List Bind) {i : Nat} (hi : i < news.length) :
    placeholder first (binds ++ news ++ more) (first + (binds.length + i)) = news[i]? := by
  rw [placeholder, if_pos (Nat.le_add_right _ _), Nat.add_sub_cancel_left, List.append_assoc,
    List.getElem?_append_right (Nat.le_add_right _ _), Nat.add_sub_cancel_left, List.getElem?_append_left hi]

def arms_found (pfx suffix : Path) (col : Value) : Bool := arms.any (fun arm => found (pfx ++ arm ++ suffix) col)

theorem value_or_filter_spec (pfx suffix : Path) (first : Nat) (binds more : List Bind) (col : Value) :
    holds first ((value_or_filter pfx suffix first binds).2 ++ more) col (value_or_filter pfx suffix first binds).1 =
      arms_found pfx suffix col := by
  rw [Bool.eq_iff_iff, value_or_filter, holds, holds_any_iff, arms_found, List.any_eq_true]
  have hexist {i : Nat} (hi : i < arms.length) :
      holds first (binds ++ arms.map (fun arm => .jsonpath (pfx ++ arm ++ suffix)) ++ more) col
        (.exist (first + (binds.length + i))) = found (pfx ++ arms[i] ++ suffix) col := by
    rw [holds, placeholder_append _ _ _ _ (by rwa [List.length_map]), List.getElem?_map,
      List.getElem?_eq_getElem hi]
    rfl
  constructor
  · rintro ⟨s, hs, h⟩
    obtain ⟨i, hi, rfl⟩ := List.mem_map.mp hs
    rw [hexist (List.mem_range.mp hi)] at h
    exact ⟨_, List.getElem_mem _, h⟩
  · rintro ⟨arm, ha, h⟩
    obtain ⟨i, hi, rfl⟩ := List.getElem_of_mem ha
    refine ⟨_, List.mem_map.mpr ⟨i, List.mem_range.mpr hi, rfl⟩, ?_⟩
    rw [hexist hi]
    exact h

section Lowered

variable (expand : String → String) (col : Value)

def leaf_found (path : QPath) (cmp : Option (CmpOp × QValue)) : Bool :=
  match attr_path expand path, filter_of cmp with
  | some p, some suffix => arms_found p suffix col
  | _, _ => false

mutual
/-- What the predicate of an expression says about a document. -/
def lowered : QNode → Bool
  | .And items => lowered_all items
  | .Or items => lowered_any items
  | .Exists path negated => leaf_found expand col path none != negated
  | .Cmp path op value => leaf_found expand col path (some (op, value))
termination_by structural n => n
def lowered_all : List QNode → Bool
  | [] => true
  | n :: items => lowered n && lowered_all items
termination_by structural items => items
def lowered_any : List QNode → Bool
  | [] => false
  | n :: items => lowered n || lowered_any items
termination_by structural items => items
end

theorem value_or_spec {pfx : Path} {cmp : Option (CmpOp × QValue)} {first : Nat} {binds : List Bind}
    {r : Predicate × List Bind} (h : value_or pfx cmp first binds = some r) :
    ∃ suffix, filter_of cmp = some suffix ∧ (∃ new, r.2 = binds ++ new) ∧
      ∀ more, holds first (r.2 ++ more) col r.1 = arms_found pfx suffix col := by
  obtain ⟨suffix, hf, rfl⟩ := Option.map_eq_some_iff.mp h
  exact ⟨suffix, hf, ⟨_, rfl⟩, fun more => value_or_filter_spec pfx suffix first binds more col⟩

theorem emit_items_spec {first : Nat} {items : List QNode}
    (ih : ∀ n ∈ items, ∀ {binds : List Bind} {r : Predicate × List Bind}, emit expand first n binds = some r →
      (∃ new, r.2 = binds ++ new) ∧ ∀ more, holds first (r.2 ++ more) col r.1 = lowered expand col n)
    {binds : List Bind} {r : List Predicate × List Bind} (h : emit_items expand first items binds = some r) :
    (∃ new, r.2 = binds ++ new) ∧ ∀ more,
      holds_all first (r.2 ++ more) col r.1 = lowered_all expand col items ∧
      holds_any first (r.2 ++ more) col r.1 = lowered_any expand col items := by
  induction items generalizing binds r with
  | nil =>
      obtain rfl := Option.some.inj h
      exact ⟨⟨[], by simp⟩, fun more => ⟨rfl, rfl⟩⟩
  | cons n items ihs =>
      rw [emit_items] at h
      cases hn : emit expand first n binds with
      | none => simp [hn] at h
      | some q =>
          rw [hn] at h
          obtain ⟨t, ht, rfl⟩ := Option.map_eq_some_iff.mp h
          obtain ⟨⟨new, hnew⟩, hq⟩ := ih n List.mem_cons_self hn
          obtain ⟨⟨rest, hrest⟩, hts⟩ := ihs (fun m hm => ih m (List.mem_cons_of_mem _ hm)) ht
          refine ⟨⟨new ++ rest, by rw [hrest, hnew, List.append_assoc]⟩, fun more => ?_⟩
          have hhead : holds first (t.2 ++ more) col q.1 = lowered expand col n := by
            rw [hrest, List.append_assoc]
            exact hq _
          obtain ⟨hall, hany⟩ := hts more
          rw [holds_all, holds_any, lowered_all, lowered_any, hhead, hall, hany]
          exact ⟨rfl, rfl⟩

/-- The compiled predicate, under its own binds and any that follow, says what
the expression is lowered to. -/
theorem emit_spec {first : Nat} {n : QNode} {binds : List Bind} {r : Predicate × List Bind}
    (h : emit expand first n binds = some r) :
    (∃ new, r.2 = binds ++ new) ∧ ∀ more, holds first (r.2 ++ more) col r.1 = lowered expand col n := by
  induction n using QNode.induction generalizing binds r with
  | and items ih =>
      rw [emit] at h
      split_ifs at h
      obtain ⟨t, ht, rfl⟩ := Option.map_eq_some_iff.mp h
      obtain ⟨hnew, hts⟩ := emit_items_spec expand col (fun n hn _ _ => ih n hn) ht
      exact ⟨hnew, fun more => by rw [holds, lowered, (hts more).1]⟩
  | or items ih =>
      rw [emit] at h
      split_ifs at h
      obtain ⟨t, ht, rfl⟩ := Option.map_eq_some_iff.mp h
      obtain ⟨hnew, hts⟩ := emit_items_spec expand col (fun n hn _ _ => ih n hn) ht
      exact ⟨hnew, fun more => by rw [holds, lowered, (hts more).2]⟩
  | cmp path op value =>
      rw [emit] at h
      cases hp : attr_path expand path with
      | none => simp [hp] at h
      | some p =>
          rw [hp] at h
          obtain ⟨suffix, hf, hnew, hr⟩ := value_or_spec col h
          exact ⟨hnew, fun more => by rw [hr, lowered, leaf_found, hp, hf]⟩
  | exist path negated =>
      rw [emit] at h
      cases hp : attr_path expand path with
      | none => simp [hp] at h
      | some p =>
          rw [hp] at h
          obtain ⟨t, ht, rfl⟩ := Option.map_eq_some_iff.mp h
          obtain ⟨suffix, hf, hnew, hr⟩ := value_or_spec col ht
          refine ⟨hnew, fun more => ?_⟩
          rw [lowered, leaf_found, hp, hf]
          cases negated
          · simp [hr]
          · simp [holds, hr]

end Lowered

end AntaresBroker.Ql.Sql
