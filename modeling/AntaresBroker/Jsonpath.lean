import AntaresBroker.Json

namespace AntaresBroker.Jsonpath

open Json Number

inductive Literal
  | text (s : String)
  | number (d : Decimal)
  | bool (b : Bool)
deriving DecidableEq

inductive Rel
  | eq | gt | ge | lt | le
deriving DecidableEq

def Rel.holds {α : Type} [LinearOrder α] (rel : Rel) (a b : α) : Bool :=
  match rel with
  | .eq => a = b
  | .gt => b < a
  | .ge => b ≤ a
  | .lt => a < b
  | .le => a ≤ b

/-- A filter condition on the current item, always compared with a literal. -/
inductive Cond
  | cmp (rel : Rel) (lit : Literal)
  | and (a b : Cond)
  | or (a b : Cond)
deriving DecidableEq

inductive Step
  | member (name : String)
  | anyMember
  | anyElement
  | filter (cond : Cond)
deriving DecidableEq

abbrev Path := List Step

/-- An array opened by one level; any other value stands for itself. -/
def items : Value → List Value
  | .array vs => vs
  | v => [v]

def members : Value → List Value
  | .object m => m.map Prod.snd
  | _ => []

/-- A comparison across types is unknown, which a filter reads as false. -/
def Literal.holds (rel : Rel) : Literal → Value → Bool
  | .text t, .string s => rel.holds s t
  | .number d, .number n => rel.holds (toRat n.decimal) (toRat d)
  | .bool c, .bool b => rel.holds b c
  | _, _ => false

/-- Comparison opens one array; each side of a connective does so on its own. -/
def Cond.holds : Cond → Value → Bool
  | .cmp rel lit, v => (items v).any (lit.holds rel)
  | .and a b, v => a.holds v && b.holds v
  | .or a b, v => a.holds v || b.holds v

/-- One step in lax mode: every step opens one array first. -/
def Step.run : Step → Value → List Value
  | .member name, v => (items v).filterMap (fun w => w.get name)
  | .anyMember, v => (items v).flatMap members
  | .anyElement, v => items v
  | .filter cond, v => (items v).filter cond.holds

def run : Path → Value → List Value
  | [], v => [v]
  | s :: p, v => (s.run v).flatMap (run p)

/-- Whether a path selects anything, the operator `@?`. -/
def found (p : Path) (v : Value) : Bool := !(run p v).isEmpty

@[simp] theorem found_nil (v : Value) : found [] v = true := rfl

theorem found_eq_true {p : Path} {v : Value} : found p v = true ↔ run p v ≠ [] := by
  simp [found]

theorem found_cons {s : Step} {p : Path} {v : Value} :
    found (s :: p) v = true ↔ ∃ w ∈ s.run v, found p w = true := by
  simp only [found_eq_true, run, ne_eq, List.flatMap_eq_nil_iff, not_forall, exists_prop]

/-- An existing member of the value itself starts the rest of a path. -/
theorem found_member_object {name : String} {p : Path} {m : Map} :
    found (.member name :: p) (.object m) = true ↔ ∃ w, m.lookup name = some w ∧ found p w = true := by
  simp [found_cons, Step.run, items, Value.get]

theorem found_member_iff {name : String} {p : Path} {v : Value} :
    found (.member name :: p) v = true ↔ ∃ u ∈ items v, ∃ w, u.get name = some w ∧ found p w = true := by
  simp only [found_cons, Step.run, List.mem_filterMap]
  exact ⟨fun ⟨w, ⟨u, hu, hw⟩, hp⟩ => ⟨u, hu, w, hw, hp⟩, fun ⟨u, hu, w, hw, hp⟩ => ⟨w, ⟨u, hu, hw⟩, hp⟩⟩

theorem found_filter_iff {cond : Cond} {v : Value} :
    found [.filter cond] v = true ↔ ∃ u ∈ items v, cond.holds u = true := by
  simp [found_cons, Step.run]

theorem cmp_holds_iff {rel : Rel} {lit : Literal} {v : Value} :
    (Cond.cmp rel lit).holds v = true ↔ ∃ x ∈ items v, lit.holds rel x = true := by
  rw [Cond.holds, List.any_eq_true]

/-- What a comparison in a filter looks at: values under two arrays at most. -/
def reach (v : Value) : List Value := (items v).flatMap items

theorem found_cmp_iff {rel : Rel} {lit : Literal} {v : Value} :
    found [.filter (.cmp rel lit)] v = true ↔ ∃ x ∈ reach v, lit.holds rel x = true := by
  simp only [found_filter_iff, cmp_holds_iff, reach, List.mem_flatMap]
  exact ⟨fun ⟨u, hu, x, hx, h⟩ => ⟨x, ⟨u, hu, hx⟩, h⟩, fun ⟨x, ⟨u, hu, hx⟩, h⟩ => ⟨u, hu, x, hx, h⟩⟩

mutual
/-- The values under arrays of any depth. -/
def leaves : Value → List Value
  | .array vs => leavesAll vs
  | v => [v]
termination_by structural v => v
def leavesAll : List Value → List Value
  | [] => []
  | v :: vs => leaves v ++ leavesAll vs
termination_by structural vs => vs
end

theorem leavesAll_eq (vs : List Value) : leavesAll vs = vs.flatMap leaves := by
  induction vs with
  | nil => rfl
  | cons v vs ih => rw [leavesAll, ih, List.flatMap_cons]

theorem leaves_array (vs : List Value) : leaves (.array vs) = vs.flatMap leaves := by
  rw [leaves, leavesAll_eq]

theorem leaves_of_not_array {v : Value} (h : v.is_array = false) : leaves v = [v] := by
  cases v with
  | array vs => exact absurd h (by simp [Value.is_array, Value.as_array])
  | _ => rfl

theorem items_of_not_array {v : Value} (h : v.is_array = false) : items v = [v] := by
  cases v with
  | array vs => exact absurd h (by simp [Value.is_array, Value.as_array])
  | _ => rfl

theorem leaves_items (v : Value) : leaves v = (items v).flatMap leaves := by
  cases v with
  | array vs => exact leaves_array vs
  | _ => rfl

theorem leaves_reach (v : Value) : leaves v = (reach v).flatMap leaves := by
  rw [leaves_items, reach, List.flatMap_assoc]
  exact congrArg₂ _ (funext leaves_items) rfl

theorem leaf_not_array {v x : Value} (h : x ∈ leaves v) : x.is_array = false := by
  induction v using Value.induction with
  | array vs ih =>
      rw [leaves_array, List.mem_flatMap] at h
      obtain ⟨w, hw, hx⟩ := h
      exact ih w hw hx
  | _ => simp [leaves] at h; subst h; rfl

/-- A literal holds of no array, so a comparison only ever finds a leaf. -/
theorem Literal.not_array {rel : Rel} {lit : Literal} {v : Value} (h : lit.holds rel v = true) :
    v.is_array = false := by
  cases v with
  | array vs => cases lit <;> simp [Literal.holds] at h
  | _ => rfl

end AntaresBroker.Jsonpath
