import AntaresBroker.Regex
import Mathlib.Data.List.DropRight

namespace AntaresBroker.RegexSyntax

open Regex

/-- The flags that are set, by their letters. -/
abbrev Flags := Char → Bool

/-- Unicode is on unless it is switched off. -/
def Flags.default : Flags := fun c => c = 'u'

def Flags.put (flags : Flags) (c : Char) (on : Bool) : Flags := fun d => if d = c then on else flags d

/-- What the engine looks up: classes of characters under the flags in force, and
the set that the text between two brackets writes down. -/
structure Tables where
  white_space : Char → Bool
  alphabetic : Char → Bool
  alphanumeric : Char → Bool
  /-- the sets of `\d`, `\s`, `\w` and of their negations -/
  perl : Flags → Char → Option (Char → Bool)
  property : Flags → List Char → Option (Char → Bool)
  /-- the characters that a character stands for when case is ignored -/
  folds : Flags → Char → Char → Bool
  class_set : Flags → List Char → Option (Char → Bool)

inductive Phase
  | fresh (negated : Bool)
  | inside
  | escaped
  | remark

/-- Where the reader stands. `boundary` is behind `\b`, whose kind a brace may still
name; texts are kept last character first. -/
inductive Mode
  | plain
  | repeated (counted : Bool)
  | boundary
  | counted (text : List Char) (boundary : Bool)
  | comment
  | escaped
  | hex (width : Nat)
  | digits (text : List Char) (left : Nat)
  | braced (text : List Char)
  | property (negated : Bool)
  | named_property (negated : Bool) (text : List Char)
  | set (depth : Nat) (phase : Phase) (text : List Char)
  | group (remark : Bool)
  | mark
  | mark_p
  | name (first : Bool)
  | flags (flags : Flags) (on : Bool) (any : Bool)

structure State where
  mode : Mode
  flags : Flags
  saved : List Flags
  groups : Groups

namespace State

def start : State := ⟨.plain, Flags.default, [], Groups.start⟩

def go (s : State) (mode : Mode) : State := { s with mode }

def item (s : State) (r : Re) : State := { s with mode := .plain, groups := s.groups.push (.expr r) }

def verbose (s : State) : Bool := s.flags 'x'

/-- The last item under a repetition. -/
def repeat_last (s : State) (counted : Bool) (f : Re → Re) : Option State :=
  (s.groups.modify f).map (fun groups => { s with mode := .repeated counted, groups })

def open_group (s : State) (flags : Flags) : State :=
  { s with mode := .plain, flags, saved := s.flags :: s.saved, groups := s.groups.opening }

/-- The flags set inside a group end with it. -/
def close_group (s : State) : Option State :=
  match s.saved with
  | [] => none
  | flags :: saved => s.groups.closing.map (fun groups => { mode := .plain, flags, saved, groups })

end State

section Reading

variable (t : Tables)

def literal (s : State) (c : Char) : State := s.item (if s.flags 'i' then .one (t.folds s.flags c) else .char c)

def ends_line (s : State) (c : Char) : Bool := c = '\n' || (s.flags 'R' && c = '\r')

def dot (s : State) : Re := .one (fun c => s.flags 's' || !ends_line s c)

def line_start (s : State) : Re :=
  if s.flags 'm' then .look (fun before _ => before.getLast?.all (ends_line s)) else .bol

def line_end (s : State) : Re :=
  if s.flags 'm' then .look (fun _ after => after.head?.all (ends_line s)) else .eol

def word (s : State) (c : Option Char) : Bool := c.any (fun c => ((t.perl s.flags 'w').getD (fun _ => false)) c)

/-- An assertion about the kind of character on either side. -/
def edge (s : State) (p : Bool → Bool → Bool) : Re :=
  .look (fun before after => p (word t s before.getLast?) (word t s after.head?))

def boundary_kinds : List (List Char × (Bool → Bool → Bool)) := [
  ("start".toList, fun l r => !l && r),
  ("end".toList, fun l r => l && !r),
  ("start-half".toList, fun l _ => !l),
  ("end-half".toList, fun _ r => !r)]

def read_plain (s : State) (c : Char) : Option State :=
  if s.verbose && t.white_space c then some (s.go .plain)
  else if s.verbose && c = '#' then some (s.go .comment)
  else match c with
    | '\\' => some (s.go .escaped)
    | '[' => some (s.go (.set 1 (.fresh false) []))
    | '(' => some (s.go (.group false))
    | ')' => s.close_group
    | '|' => some { s with mode := .plain, groups := s.groups.bar }
    | '*' => s.repeat_last false Re.star
    | '+' => s.repeat_last false Re.plus
    | '?' => s.repeat_last false Re.opt
    | '\x7b' => some (s.go (.counted [] false))
    | '^' => some (s.item (line_start s))
    | '$' => some (s.item (line_end s))
    | '.' => some (s.item (dot s))
    | c => some (literal t s c)

def decimal (text : List Char) : Option Nat :=
  let digits := (text.dropWhile t.white_space).rdropWhile t.white_space
  if digits ≠ [] ∧ digits.all Char.isDigit then some (digits.foldl (fun n c => 10 * n + (c.toNat - '0'.toNat)) 0)
  else none

/-- The bounds between the braces of a repetition. -/
def bounds (text : List Char) : Option (Nat × Option Nat) :=
  match text.splitOn ',' with
  | [n] => (decimal t n).map (fun n => (n, some n))
  | [lo, hi] =>
      (decimal t lo).bind fun lo =>
        if hi.all t.white_space then some (lo, none)
        else (decimal t hi).bind fun hi => if lo ≤ hi then some (lo, some hi) else none
  | _ => none

def read_counted (s : State) (text : List Char) (boundary : Bool) (c : Char) : Option State :=
  if c = '\x7d' then
    match (if boundary then boundary_kinds.lookup text.reverse else none) with
    | some p => (s.repeat_last false (fun _ => edge t s p)).map (fun s => s.go .plain)
    | none => (bounds t text.reverse).bind fun (lo, hi) => s.repeat_last true (fun r => .rep r lo hi)
  else some (s.go (.counted (c :: text) boundary))

def escapable (c : Char) : Bool := c.toNat < 128 && !c.isAlphanum

def read_escaped (s : State) (c : Char) : Option State :=
  match c with
  | 'x' => some (s.go (.hex 2))
  | 'u' => some (s.go (.hex 4))
  | 'U' => some (s.go (.hex 8))
  | 'p' => some (s.go (.property false))
  | 'P' => some (s.go (.property true))
  | 'A' => some (s.item .bol)
  | 'z' => some (s.item .eol)
  | 'b' => some ((s.item (edge t s (· != ·))).go .boundary)
  | 'B' => some (s.item (edge t s (· == ·)))
  | '<' => some (s.item (edge t s (fun l r => !l && r)))
  | '>' => some (s.item (edge t s (fun l r => l && !r)))
  | 'a' => some (literal t s '\x07')
  | 'f' => some (literal t s '\x0c')
  | 't' => some (literal t s '\t')
  | 'n' => some (literal t s '\n')
  | 'r' => some (literal t s '\r')
  | 'v' => some (literal t s '\x0b')
  | c =>
      match t.perl s.flags c with
      | some set => some (s.item (.one set))
      | none => if escapable c then some (literal t s c) else none

def hex_digit (c : Char) : Option Nat :=
  if c.isDigit then some (c.toNat - '0'.toNat)
  else if 'a' ≤ c ∧ c ≤ 'f' then some (c.toNat - 'a'.toNat + 10)
  else if 'A' ≤ c ∧ c ≤ 'F' then some (c.toNat - 'A'.toNat + 10)
  else none

/-- The character with a number in hexadecimal, if there is one. -/
def hex_char (text : List Char) : Option Char :=
  (text.mapM hex_digit).bind fun ds =>
    let n := ds.foldl (fun n d => 16 * n + d) 0
    if ds ≠ [] ∧ n.isValidChar then some (Char.ofNat n) else none

def read_digits (s : State) (text : List Char) (left : Nat) : Option State :=
  match left with
  | 0 => (hex_char text.reverse).map (literal t s)
  | left + 1 => some (s.go (.digits text (left + 1)))

/-- What stands between brackets, up to the bracket that closes the first. -/
def read_set (s : State) (depth : Nat) (phase : Phase) (text : List Char) (c : Char) : Option State :=
  match phase with
  | .escaped => some (s.go (.set depth .inside (c :: text)))
  | .remark => some (s.go (.set depth (if c = '\n' then .inside else .remark) (c :: text)))
  | .fresh negated =>
      if !negated && c = '^' then some (s.go (.set depth (.fresh true) (c :: text)))
      else if s.verbose && t.white_space c then some (s.go (.set depth (.fresh negated) (c :: text)))
      else if c = '\\' then some (s.go (.set depth .escaped (c :: text)))
      else if c = '[' then some (s.go (.set (depth + 1) (.fresh false) (c :: text)))
      else some (s.go (.set depth .inside (c :: text)))
  | .inside =>
      if s.verbose && c = '#' then some (s.go (.set depth .remark (c :: text)))
      else if c = '\\' then some (s.go (.set depth .escaped (c :: text)))
      else if c = '[' then some (s.go (.set (depth + 1) (.fresh false) (c :: text)))
      else if c = ']' then
        (if depth ≤ 1 then (t.class_set s.flags text.reverse).map (fun set => s.item (.one set))
        else some (s.go (.set (depth - 1) .inside (c :: text))))
      else some (s.go (.set depth .inside (c :: text)))

def FLAGS : List Char := ['i', 'm', 's', 'U', 'u', 'R', 'x']

/-- The flags of a group, or those in force from here on. -/
def read_flags (s : State) (flags : Flags) (on any : Bool) (c : Char) : Option State :=
  if c = ':' then (if any || on then some (s.open_group flags) else none)
  else if c = ')' then
    (if any then some { s with mode := .plain, flags, groups := s.groups.push .flags } else none)
  else if c = '-' then (if on then some (s.go (.flags flags false false)) else none)
  else if FLAGS.contains c then some (s.go (.flags (flags.put c on) on true))
  else none

def read_char (s : State) (c : Char) : Option State :=
  match s.mode with
  | .plain => read_plain t s c
  | .repeated counted =>
      if c = '?' then some (s.go .plain)
      else if counted && s.verbose && t.white_space c then some s
      else read_plain t s c
  | .boundary => if c = '\x7b' then some (s.go (.counted [] true)) else read_plain t s c
  | .counted text boundary => read_counted t s text boundary c
  | .comment => some (s.go (if c = '\n' then .plain else .comment))
  | .escaped => read_escaped t s c
  | .hex width => if c = '\x7b' then some (s.go (.braced [])) else read_digits t s [c] (width - 1)
  | .digits text left => read_digits t s (c :: text) (left - 1)
  | .braced text => if c = '\x7d' then (hex_char text.reverse).map (literal t s) else some (s.go (.braced (c :: text)))
  | .property negated =>
      if c = '\x7b' then some (s.go (.named_property negated []))
      else (t.property s.flags [c]).map (fun set => s.item (.one (fun c => negated ^^ set c)))
  | .named_property negated text =>
      if c = '\x7d' then (t.property s.flags text.reverse).map (fun set => s.item (.one (fun c => negated ^^ set c)))
      else some (s.go (.named_property negated (c :: text)))
  | .set depth phase text => read_set t s depth phase text c
  | .group true => some (s.go (.group (c ≠ '\n')))
  | .group false =>
      if c = '?' then some (s.go .mark)
      else if s.verbose && t.white_space c then some s
      else if s.verbose && c = '#' then some (s.go (.group true))
      else read_plain t (s.open_group s.flags) c
  | .mark =>
      if c = 'P' then some (s.go .mark_p)
      else if c = '<' then some (s.go (.name true))
      else read_flags s s.flags true false c
  | .mark_p => if c = '<' then some (s.go (.name true)) else none
  | .name true => if c = '_' || t.alphabetic c then some (s.go (.name false)) else none
  | .name false =>
      if c = '>' then some (s.open_group s.flags)
      else if ['_', '.', '[', ']'].contains c || t.alphanumeric c then some s
      else none
  | .flags flags on any => read_flags s flags on any c

/-- The expression that a pattern writes down, if it is one. -/
def parse (pattern : List Char) : Option Re :=
  (pattern.foldlM (read_char t) State.start).bind (fun s =>
    match s.mode with
    | .plain | .repeated _ | .boundary | .comment => s.groups.finish
    | _ => none)

end Reading

end AntaresBroker.RegexSyntax
