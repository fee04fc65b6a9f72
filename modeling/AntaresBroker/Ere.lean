import AntaresBroker.Regex

namespace AntaresBroker.Ere

open Regex

/-- The characters that stand for themselves behind a backslash only. -/
def SPECIAL : List Char := "\\^$.[]|()*+?\x7b\x7d".toList

/-- Where the reader stands: in an expression, behind a backslash, behind the
bracket that opens a list of characters, or in such a list. -/
inductive Mode
  | plain
  | escaped
  | opened
  | bracket (negated : Bool) (members : List Char)

structure State where
  mode : Mode
  groups : Groups

def item (g : Groups) (r : Re) : State := ⟨.plain, g.push (.expr r)⟩

/-- A bracket closes a list that has a member. Ranges and classes are not read. -/
def bracketed (g : Groups) (negated : Bool) (members : List Char) (c : Char) : Option State :=
  if c = ']' ∧ members ≠ [] then some (item g (.one (fun d => negated ^^ members.contains d)))
  else if c = '[' ∨ c = '-' then none
  else some ⟨.bracket negated (c :: members), g⟩

/-- One character of an extended regular expression. Bounded repetition is not read. -/
def read_char (s : State) (c : Char) : Option State :=
  match s.mode with
  | .escaped => if SPECIAL.contains c then some (item s.groups (.char c)) else none
  | .opened => if c = '^' then some ⟨.bracket true [], s.groups⟩ else bracketed s.groups false [] c
  | .bracket negated members => bracketed s.groups negated members c
  | .plain =>
      match c with
      | '\\' => some ⟨.escaped, s.groups⟩
      | '[' => some ⟨.opened, s.groups⟩
      | '(' => some ⟨.plain, s.groups.opening⟩
      | ')' => s.groups.closing.map (State.mk .plain)
      | '|' => some ⟨.plain, s.groups.bar⟩
      | '*' => (s.groups.modify Re.star).map (State.mk .plain)
      | '+' => (s.groups.modify Re.plus).map (State.mk .plain)
      | '?' => (s.groups.modify Re.opt).map (State.mk .plain)
      | '\x7b' => none
      | '^' => some (item s.groups .bol)
      | '$' => some (item s.groups .eol)
      | '.' => some (item s.groups .any)
      | c => some (item s.groups (.char c))

def parse (s : List Char) : Option Re :=
  (s.foldlM read_char ⟨.plain, Groups.start⟩).bind (fun st =>
    match st.mode with
    | .plain => st.groups.finish
    | _ => none)

/-- The operator `~`. -/
def matches_ere (s re : String) : Prop := ∃ r, parse re.toList = some r ∧ Finds r s.toList

/-- A piece of an expression that reads as items of the branch it stands in. -/
def Reads (s : List Char) (rs : List Re) : Prop :=
  ∀ g, s.foldlM read_char ⟨.plain, g⟩ = some ⟨.plain, rs.foldl (fun g r => g.push (.expr r)) g⟩

namespace Reads

variable {s t : List Char} {rs ts : List Re}

theorem nil : Reads [] [] := fun _ => rfl

theorem append (hs : Reads s rs) (ht : Reads t ts) : Reads (s ++ t) (rs ++ ts) := by
  intro g
  rw [List.foldlM_append, hs g, List.foldl_append]
  exact ht _

theorem top_foldl (rs : List Re) (g : Groups) :
    rs.foldl (fun g r => g.push (.expr r)) g =
      ⟨{ g.top with items := (rs.map Item.expr).reverse ++ g.top.items }, g.below⟩ := by
  induction rs generalizing g with
  | nil => rfl
  | cons r rs ih =>
      rw [List.foldl_cons, ih, List.map_cons, List.reverse_cons, List.append_assoc]
      rfl

theorem parse (h : Reads s rs) : Ere.parse s = some (Re.seq rs) := by
  have hitems : ((rs.map Item.expr).reverse ++ []).reverse.map Item.re = rs := by
    rw [List.append_nil, List.reverse_reverse, List.map_map]
    exact List.map_id rs
  rw [Ere.parse, h Groups.start, Option.bind_some, top_foldl]
  exact congrArg (fun rs => some (Re.seq rs)) hitems

end Reads

def escape (s : List Char) : List Char := s.flatMap (fun c => if SPECIAL.contains c then ['\\', c] else [c])

theorem read_special {c : Char} (h : SPECIAL.contains c = true) : Reads ['\\', c] [.char c] := by
  intro g
  have hread : read_char ⟨.escaped, g⟩ c = some (item g (.char c)) := if_pos h
  exact congrArg (fun st => st.bind pure) hread

theorem read_plain {c : Char} (h : SPECIAL.contains c = false) : Reads [c] [.char c] := by
  intro g
  have hread : read_char ⟨.plain, g⟩ c = some (item g (.char c)) := by
    unfold read_char
    dsimp only
    split <;> first | rfl | exact absurd h (by decide)
  exact congrArg (fun st => st.bind pure) hread

/-- An escaped text reads as its characters. -/
theorem reads_escape (s : List Char) : Reads (escape s) (s.map Re.char) := by
  induction s with
  | nil => exact .nil
  | cons c s ih =>
      rw [escape, List.flatMap_cons, List.map_cons]
      by_cases hc : SPECIAL.contains c = true
      · rw [if_pos hc]
        exact (read_special hc).append ih
      · rw [if_neg hc]
        exact (read_plain (Bool.not_eq_true _ ▸ hc)).append ih

end AntaresBroker.Ere
