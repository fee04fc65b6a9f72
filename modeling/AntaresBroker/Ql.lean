import AntaresBroker.JsonString
import AntaresBroker.NumberText
import AntaresBroker.Text
import Mathlib.Data.List.DropRight

namespace AntaresBroker.Ql

open JsonString Number Text

/-- One `attr{…}` hop with its EntityType hints. -/
structure Link where
  attr : String
  types : List String
deriving DecidableEq

structure QPath where
  links : List Link
  path : List String
  bracket : Option (List String)
deriving DecidableEq

inductive CmpOp
  | Eq | Ne | Gt | Ge | Lt | Le | Pattern | NotPattern
deriving DecidableEq

inductive Scalar
  | Str (s : String)
  | Num (n : F64)
  | Bool (b : Bool)
deriving DecidableEq

def is_bool : Scalar → Bool
  | .Bool _ => true
  | _ => false

/-- A literal. Lists and ranges are of scalars only. -/
inductive QValue
  | scalar (v : Scalar)
  | List (items : List Scalar)
  | Range (lo hi : Scalar)
deriving DecidableEq

inductive QNode
  | And (items : List QNode)
  | Or (items : List QNode)
  | Cmp (path : QPath) (op : CmpOp) (value : QValue)
  | Exists (path : QPath) (negated : Bool)

theorem QNode.induction {P : QNode → Prop} (and : ∀ items, (∀ n ∈ items, P n) → P (.And items))
    (or : ∀ items, (∀ n ∈ items, P n) → P (.Or items)) (cmp : ∀ path op value, P (.Cmp path op value))
    (exist : ∀ path negated, P (.Exists path negated)) (n : QNode) : P n :=
  @QNode.rec P (fun items => ∀ n ∈ items, P n) and or cmp exist (by simp)
    (fun _ _ hn hns => List.forall_mem_cons.mpr ⟨hn, hns⟩) n

mutual
def QNode.decEq : (n m : QNode) → Decidable (n = m)
  | .And xs, .And ys => @decidable_of_iff _ (xs = ys) (by simp) (decEqItems xs ys)
  | .Or xs, .Or ys => @decidable_of_iff _ (xs = ys) (by simp) (decEqItems xs ys)
  | .Cmp p o v, .Cmp q o' w => decidable_of_iff (p = q ∧ o = o' ∧ v = w) (by simp)
  | .Exists p b, .Exists q c => decidable_of_iff (p = q ∧ b = c) (by simp)
  | .And _, .Or _ => isFalse nofun
  | .And _, .Cmp _ _ _ => isFalse nofun
  | .And _, .Exists _ _ => isFalse nofun
  | .Or _, .And _ => isFalse nofun
  | .Or _, .Cmp _ _ _ => isFalse nofun
  | .Or _, .Exists _ _ => isFalse nofun
  | .Cmp _ _ _, .And _ => isFalse nofun
  | .Cmp _ _ _, .Or _ => isFalse nofun
  | .Cmp _ _ _, .Exists _ _ => isFalse nofun
  | .Exists _ _, .And _ => isFalse nofun
  | .Exists _ _, .Or _ => isFalse nofun
  | .Exists _ _, .Cmp _ _ _ => isFalse nofun
termination_by structural n => n
def QNode.decEqItems : (xs ys : List QNode) → Decidable (xs = ys)
  | [], [] => isTrue rfl
  | [], _ :: _ => isFalse nofun
  | _ :: _, [] => isFalse nofun
  | x :: xs, y :: ys =>
      @decidable_of_iff _ (x = y ∧ xs = ys) (by simp) (@instDecidableAnd _ _ (QNode.decEq x y) (decEqItems xs ys))
termination_by structural xs => xs
end

instance : DecidableEq QNode := QNode.decEq

def MAX_Q_BYTES : Nat := 4096

def MAX_Q_DEPTH : Nat := 64

def MAX_Q_NODES : Nat := 512

def MAX_Q_LINKS : Nat := 8

/-- Errors with what the parser was looking at and why it stopped. -/
inductive NgsiError
  | BadRequestData (input : String) (why : String)
  | TooComplexQuery (text : String)
deriving DecidableEq

abbrev Parser (α : Type) := List Char → Except NgsiError (α × List Char)

def bad {α : Type} (input : List Char) (why : String) : Except NgsiError α :=
  .error (.BadRequestData (String.ofList input) why)

def is_whitespace (c : Char) : Bool :=
  let n := c.toNat
  (9 ≤ n ∧ n ≤ 13) ∨ n = 0x20 ∨ n = 0x85 ∨ n = 0xA0 ∨ n = 0x1680 ∨ (0x2000 ≤ n ∧ n ≤ 0x200A) ∨
    n = 0x2028 ∨ n = 0x2029 ∨ n = 0x202F ∨ n = 0x205F ∨ n = 0x3000

def trim_start (s : List Char) : List Char := s.dropWhile is_whitespace

def trim_end (s : List Char) : List Char := s.rdropWhile is_whitespace

def trim (s : List Char) : List Char := trim_end (trim_start s)

def eat (c : Char) : List Char → Option (List Char)
  | d :: s => if d = c then some s else none
  | [] => none

/-- A separator and an item, as often as the separator comes next. -/
def while_eat {α : Type} (c : Char) (item : Parser α) : Nat → Parser (List α)
  | fuel + 1, s =>
      match eat c s with
      | some r => do
          let (x, r) ← item r
          let (xs, r) ← while_eat c item fuel r
          .ok (x :: xs, r)
      | none => .ok ([], s)
  | 0, s => .ok ([], s)

def sep_by {α : Type} (c : Char) (item : Parser α) : Parser (List α) := fun s => do
  let (x, r) ← item s
  let (xs, r) ← while_eat c item r.length r
  .ok (x :: xs, r)

def delimiter (c : Char) : Bool := "=!<>~;|(),.\x7b\x7d[]: ".toList.contains c

def name_token : Parser String := fun s =>
  let s := trim_start s
  let raw := s.takeWhile (fun c => !delimiter c)
  let rest := s.dropWhile (fun c => !delimiter c)
  if raw = [] then bad rest "expected attribute name" else .ok (String.ofList raw, trim_start rest)

/-- The hints `T,T:` of a hop, where the name just read is the first of them. -/
def hints (inner : String) : Parser (List String × String) := fun s =>
  if s.head? = some ',' ∨ s.head? = some ':' then do
    let (more, s) ← while_eat ',' name_token s.length s
    match eat ':' s with
    | none => bad s "expected ':' after EntityType hints"
    | some s =>
        let (name, s) ← name_token s
        .ok ((inner :: more, name), s)
  else .ok (([], inner), s)

def hops (name : String) : Nat → Parser (List Link × String)
  | left, s =>
      match eat '{' s with
      | none => .ok (([], name), s)
      | some s =>
          match left with
          | 0 => .error (.TooComplexQuery "q linked-entity path nests deeper than 8")
          | left + 1 => do
              let (inner, s) ← name_token s
              let ((types, inner), s) ← hints inner s
              let ((links, last), s) ← hops inner left s
              .ok ((⟨name, types⟩ :: links, last), s)

/-- Inside a bracket: a star that follows the bracket at once, or names. -/
def members : Parser (List String) := fun s =>
  match eat '*' s with
  | some s => .ok (["*"], s)
  | none => sep_by '.' name_token s

def bracket : Parser (Option (List String)) := fun s =>
  match eat '[' s with
  | none => .ok (none, s)
  | some s => do
      let (b, s) ← members s
      match eat ']' s with
      | none => bad s "expected ']'"
      | some s => .ok (some b, s)

def close_braces : Nat → List Char → Except NgsiError (List Char)
  | 0, s => .ok s
  | braces + 1, s =>
      match eat '}' s with
      | none => bad s "expected '\x7d'"
      | some s => close_braces braces s

def qpath : Parser QPath := fun s => do
  let (name, s) ← name_token s
  let ((links, name), s) ← hops name MAX_Q_LINKS s
  let (more, s) ← while_eat '.' name_token s.length s
  let (b, s) ← bracket s
  let s ← close_braces links.length s
  .ok (⟨links, name :: more, b⟩, s)

/-- The longer of two operators with one beginning comes first. -/
def operators : List (String × CmpOp) :=
  [("==", .Eq), ("!~=", .NotPattern), ("!=", .Ne), ("~=", .Pattern), (">=", .Ge), ("<=", .Le), (">", .Gt),
    ("<", .Lt)]

def strip (token s : List Char) : Option (List Char) :=
  if token.isPrefixOf s then some (s.drop token.length) else none

def cmp_op (s : List Char) : Option (CmpOp × List Char) :=
  operators.findSome? (fun p => (strip p.1.toList s).map (fun rest => (p.2, rest)))

def strip_minus (s : List Char) : List Char := (eat '-' s).getD s

def strip_sign (s : List Char) : List Char := ((eat '+' s).or (eat '-' s)).getD s

/-- The rest after the fraction, if there is one; `none` for a point without digits. -/
def fraction (s : List Char) : Option (List Char) :=
  match eat '.' s with
  | none => some s
  | some frac => if frac.takeWhile Char.isDigit = [] then none else some (frac.dropWhile Char.isDigit)

def exponent (s : List Char) : Bool :=
  match (eat 'e' s).or (eat 'E' s) with
  | none => s.isEmpty
  | some exp => !(strip_sign exp).isEmpty && (strip_sign exp).all Char.isDigit

def is_json_number (s : List Char) : Bool :=
  let s := strip_minus s
  let int := s.takeWhile Char.isDigit
  if int = [] || (1 < int.length && s.head? = some '0') then false
  else (fraction (s.dropWhile Char.isDigit)).any exponent

def stops (c : Char) : Bool := ";|(),".toList.contains c

/-- What stands before the next delimiter or `..`, and from there on. -/
def unquoted : List Char → List Char × List Char
  | [] => ([], [])
  | c :: s =>
      if stops c || (c = '.' && s.head? = some '.') then ([], c :: s)
      else (c :: (unquoted s).1, (unquoted s).2)

def word (raw : List Char) : Except NgsiError Scalar :=
  if raw = "true".toList then .ok (.Bool true)
  else if raw = "false".toList then .ok (.Bool false)
  else if is_json_number raw then
    match NumberText.parse raw with
    | some n => .ok (.Num n)
    | none => .ok (.Str (String.ofList raw))
  else if raw = [] then bad raw "expected value"
  else .ok (.Str (String.ofList raw))

def scalar (regexp : Bool) : Parser Scalar := fun s =>
  let s := trim_start s
  match eat '"' s with
  | some rest =>
      if regexp then
        match splitOnce '"' rest with
        | none => bad rest "unterminated string"
        | some (text, rest) => .ok (.Str (String.ofList text), rest)
      else
        match json_string_end rest with
        | none => bad s "unterminated string"
        | some (lit, rest) =>
            match unescape lit with
            | none => bad ('"' :: lit ++ ['"']) "value is not an RFC 8259 String (4.9 quotedStr)"
            | some text => .ok (.Str (String.ofList text), rest)
  | none =>
      let raw := trim (unquoted s).1
      if !regexp && raw.contains '"' then bad raw "unquoted value must not contain a quote (4.9)"
      else (word raw).map (fun v => (v, (unquoted s).2))

def CmpOp.equality : CmpOp → Bool
  | .Eq | .Ne => true
  | _ => false

def CmpOp.regexp : CmpOp → Bool
  | .Pattern | .NotPattern => true
  | _ => false

def CmpOp.ordering : CmpOp → Bool
  | .Gt | .Ge | .Lt | .Le => true
  | _ => false

/-- Two texts or two numbers. -/
def comparable : Scalar → Scalar → Bool
  | .Str _, .Str _ => true
  | .Num _, .Num _ => true
  | _, _ => false

def value (op : CmpOp) : Parser QValue := fun s => do
  let (first, s) ← scalar op.regexp s
  let s := trim_start s
  match strip "..".toList s with
  | some rest =>
      if !op.equality then bad s "a Range is only valid with == or != (4.9 CompEqualityValue)"
      else
        let (hi, s) ← scalar false (trim_start rest)
        if comparable first hi then .ok (.Range first hi, s)
        else bad s "Range endpoints must be two comparable values of the same type"
  | none =>
      if s.head? = some ',' then
        if !op.equality then bad s "a ValueList is only valid with == or != (4.9 CompEqualityValue)"
        else
          let (items, s) ← while_eat ',' list_item s.length s
          .ok (.List (first :: items), s)
      else if op.ordering && is_bool first then
        bad s "true/false are only valid with == or != (4.9 OtherValue)"
      else .ok (.scalar first, s)
where
  list_item : Parser Scalar := fun s => (scalar false (trim_start s)).map (fun p => (p.1, trim_start p.2))

/-- A comparison or an existence check. -/
def leaf : Parser QNode := fun s => do
  let negated := (eat '!' s).isSome
  let (path, s) ← qpath ((eat '!' s).getD s)
  match cmp_op s with
  | some (op, rest) =>
      if negated then bad rest "'!' only prefixes an existence check"
      else
        let (v, s) ← value op rest
        .ok (.Cmp path op v, s)
  | none => .ok (.Exists path negated, s)

def term (inner : Parser QNode) : Parser QNode := fun s =>
  match eat '(' s with
  | none => leaf s
  | some s => do
      let (n, s) ← inner s
      match eat ')' s with
      | none => bad s "expected ')'"
      | some s => .ok (n, s)

def group (mk : List QNode → QNode) : List QNode → QNode
  | [n] => n
  | items => mk items

def grouped (mk : List QNode → QNode) (c : Char) (item : Parser QNode) : Parser QNode := fun s =>
  (sep_by c item s).map (fun p => (group mk p.1, p.2))

def and_expr (inner : Parser QNode) : Parser QNode := grouped .And ';' (term inner)

/-- The expression grammar with so many parentheses still allowed to open. -/
def or_expr : Nat → Parser QNode
  | 0 => grouped .Or '|' (and_expr (fun _ => .error (.TooComplexQuery "q expression nests deeper than 64")))
  | depth + 1 => grouped .Or '|' (and_expr (or_expr depth))

mutual
def q_nodes : QNode → Nat
  | .And items => 1 + q_nodes_all items
  | .Or items => 1 + q_nodes_all items
  | .Cmp _ _ _ => 1
  | .Exists _ _ => 1
def q_nodes_all : List QNode → Nat
  | [] => 0
  | n :: items => q_nodes n + q_nodes_all items
end

def parse_q (input : String) : Except NgsiError QNode :=
  if MAX_Q_BYTES < len input then .error (.TooComplexQuery "q expression exceeds 4096 bytes")
  else do
    let (node, rest) ← or_expr MAX_Q_DEPTH (trim input.toList)
    if rest ≠ [] then bad input.toList "trailing input"
    else if MAX_Q_NODES < q_nodes node then .error (.TooComplexQuery "q expression exceeds 512 nodes")
    else .ok node

end AntaresBroker.Ql
