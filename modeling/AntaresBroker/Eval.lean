import AntaresBroker.Expiry
import AntaresBroker.Ql

namespace AntaresBroker.Ql.Eval

open Json Number Text Expiry

/-- Entity lookups one expression may buy for its linked-entity terms. -/
def MAX_Q_LINK_LOOKUPS : Nat := 512

/-- The value-defining member a target was found under. -/
inductive TargetKind
  | Value | Object | LanguageMap | Vocab | Json | ValueList | ObjectList
deriving DecidableEq

abbrev Target := TargetKind × Value

def kind_allows (kind : TargetKind) (op : CmpOp) : Bool :=
  match kind with
  | .Object | .ObjectList => op = .Eq ∨ op = .Ne
  | _ => true

def VALUE_MEMBERS : List (String × TargetKind) :=
  [("value", .Value), ("object", .Object), ("languageMap", .LanguageMap), ("vocab", .Vocab), ("json", .Json),
    ("valueList", .ValueList), ("objectList", .ObjectList)]

/-- The first value member an instance carries. -/
def comparable_value (inst : Value) : Option Target :=
  VALUE_MEMBERS.findSome? (fun p => (inst.get p.1).map (p.2, ·))

def navigate : List String → Value → Option Value
  | [], v => some v
  | seg :: path, v => (v.get seg).bind (navigate path)

mutual
/-- A typed value stands for its `@value` member, in a list one by one. -/
def untyped : Value → Value
  | .object m => (m.lookup "@value").getD (.object m)
  | .array vs => .array (untyped_items vs)
  | v => v
termination_by structural v => v
def untyped_items : List Value → List Value
  | [] => []
  | v :: vs => untyped v :: untyped_items vs
termination_by structural vs => vs
end

def push_target (kind : TargetKind) (v : Value) : Target :=
  (kind, if kind = .Value ∨ kind = .ValueList then untyped v else v)

section Paths

variable (expand : String → String)

mutual
def expand_vocab : Value → Value
  | .string s => .string (expand s)
  | .array vs => .array (expand_vocab_items vs)
  | v => v
termination_by structural v => v
def expand_vocab_items : List Value → List Value
  | [] => []
  | v :: vs => expand_vocab v :: expand_vocab_items vs
termination_by structural vs => vs
end

/-- A bracket on a language map: one language, or all of them as one array. -/
def languages (v : Value) (b : List String) : Option Value :=
  match v, b with
  | .object map, [lang] =>
      if lang = "*" then
        some (.array (map.flatMap (fun p => match p.2 with
          | .array a => a
          | other => [other])))
      else map.lookup lang
  | _, _ => none

def terminal (bracket : Option (List String)) (inst : Value) : List Target :=
  match comparable_value inst with
  | none => []
  | some (kind, v) =>
      match bracket with
      | none => [if kind = .Vocab then (kind, expand_vocab expand v) else push_target kind v]
      | some b =>
          if kind = .LanguageMap then ((languages v b).map (kind, ·)).toList
          else ((navigate b v).map (push_target kind)).toList

/-- A step goes to the sub-attribute when the instance has one, else into the value. -/
def collect (bracket : Option (List String)) : List String → Value → List Target
  | [], inst => terminal expand bracket inst
  | seg :: rest, inst =>
      match (inst.get (expand seg)).bind Value.as_array with
      | some subs => subs.flatMap (collect bracket rest)
      | none =>
          match comparable_value inst with
          | none => []
          | some (kind, v) =>
              (((navigate (seg :: rest) v).bind (navigate (bracket.getD []))).map (push_target kind)).toList

def resolve_targets (path : List String) (bracket : Option (List String)) (entity : Value) : List Target :=
  match path with
  | [] => []
  | first :: rest =>
      match (entity.get (expand first)).bind Value.as_array with
      | none => []
      | some instances => instances.flatMap (collect expand bracket rest)

def strings (v : Value) : List String := (v.as_array.getD []).filterMap Value.as_str

def link_uris (inst : Value) : List String :=
  (match inst.get "object" with
    | some (.string s) => [s]
    | some v => strings v
    | none => []) ++ (inst.get "objectList").toList.flatMap strings

/-- Without hints every entity is one the link may lead to. -/
def hinted (link : Link) (linked : Value) : Bool :=
  link.types.isEmpty ||
    ((linked.get "type").toList.flatMap strings).any (fun t => link.types.any (fun hint => expand hint = t))

/-- The links from the left, each lookup paid from the budget all branches share. -/
def resolve_qpath (lookup : String → Option Value) (path : List String) (bracket : Option (List String)) :
    List Link → Value → Nat → List Target × Nat
  | [], entity, budget => (resolve_targets expand path bracket entity, budget)
  | link :: rest, entity, budget =>
      match (entity.get (expand link.attr)).bind Value.as_array with
      | none => ([], budget)
      | some instances =>
          (instances.flatMap link_uris).foldl (fun acc uri =>
            match acc.2 with
            | 0 => acc
            | left + 1 =>
                match (lookup uri).filter (hinted expand link) with
                | none => (acc.1, left)
                | some linked =>
                    let found := resolve_qpath lookup path bracket rest linked left
                    (acc.1 ++ found.1, found.2)) ([], budget)

end Paths

def same_scalar_datatype (target : Value) : Scalar → Bool
  | .Num _ => target.is_number
  | .Str _ => target.is_string
  | .Bool _ => target.is_bool

def same_datatype (target : Value) : QValue → Bool
  | .scalar v => same_scalar_datatype target v
  | .Range lo _ => same_scalar_datatype target lo
  | .List _ => true

section Times

variable {Instant : Type} [LinearOrder Instant] (chrono : Chrono Instant)

/-- Digits where the shape has a zero, and the shape's own characters elsewhere. -/
def shaped (shape s : List Char) : Bool :=
  s.length = shape.length ∧ ∀ p ∈ shape.zip s, if p.1 = '0' then p.2.isDigit = true else p.2 = p.1

def is_fraction (s : List Char) : Bool :=
  match s with
  | [] => true
  | c :: digits =>
      (c = '.' ∨ c = ',') ∧ digits ≠ [] ∧ digits.length ≤ 6 ∧ ∀ d ∈ digits, d.isDigit = true

/-- The shape of a UTC date and time, and then a real calendar date. -/
def parse_datetime (s : List Char) : Bool :=
  let base := s.take 19
  let rest := s.drop 19
  rest.getLast? = some 'Z' ∧ shaped "0000-00-00T00:00:00".toList base = true ∧ is_fraction rest.dropLast = true ∧
    (chrono.parse_from_rfc3339 (String.ofList (base ++ ['Z']))).isSome

/-- The instant of a date and time or of a time of day, so that the order of
bytes is the order of time; `none` for any other text. -/
def temporal_key (text : String) : Option (List Char) :=
  let s := text.toList
  if s.getLast? = some 'Z' then
    let point := fun c : Char => c = '.' || c = ','
    let base := s.dropLast.takeWhile (fun c => !point c)
    let frac := (s.dropLast.dropWhile (fun c => !point c)).drop 1
    let is_time := if byteSize base = 19 then parse_datetime chrono s
      else byteSize base = 8 && shaped "00:00:00".toList base
    if is_time && frac.length ≤ 6 && frac.all Char.isDigit then
      some (base ++ '.' :: frac ++ List.replicate (6 - frac.length) '0')
    else none
  else none

def num_cmp (t : F64) (op : CmpOp) (n : F64) : Bool :=
  match op with
  | .Eq => key t = key n
  | .Ne => key t ≠ key n
  | .Gt => key n < key t
  | .Ge => key n ≤ key t
  | .Lt => key t < key n
  | .Le => key t ≤ key n
  | .Pattern | .NotPattern => false

/-- `re` is the pattern of the term, `none` when it does not compile. -/
def str_cmp (re : Option (String → Bool)) (t : String) (op : CmpOp) (s : String) : Bool :=
  match op with
  | .Eq => t = s
  | .Ne => t ≠ s
  | .Pattern => re.any (fun is_match => is_match t)
  | .NotPattern => re.any (fun is_match => !is_match t)
  | .Gt => order (fun a b => b < a)
  | .Ge => order (fun a b => b ≤ a)
  | .Lt => order (fun a b => a < b)
  | .Le => order (fun a b => a ≤ b)
where
  order (rel : List Char → List Char → Bool) : Bool :=
    match temporal_key chrono t, temporal_key chrono s with
    | some tk, some sk => if tk.length = sk.length then rel tk sk else rel t.toList s.toList
    | _, _ => rel t.toList s.toList

/-- Both ends included; dates and times as instants, other texts byte by byte. -/
def in_range (target : Value) (lo hi : Scalar) : Bool :=
  match lo, hi with
  | .Num a, .Num b => target.as_f64.any (fun t => num_cmp t .Ge a && num_cmp t .Le b)
  | .Str a, .Str b =>
      target.as_str.any (fun t =>
        match temporal_key chrono t, temporal_key chrono a, temporal_key chrono b with
        | some tk, some ak, some bk =>
            if tk.length = ak.length && ak.length = bk.length then ak ≤ tk && tk ≤ bk
            else a.toList ≤ t.toList && t.toList ≤ b.toList
        | _, _, _ => a.toList ≤ t.toList && t.toList ≤ b.toList)
  | _, _ => false

def compare_scalar (re : Option (String → Bool)) (op : CmpOp) (target : Value) : Scalar → Bool
  | .Num n => target.as_f64.any (fun t => num_cmp t op n)
  | .Bool b =>
      match op with
      | .Eq => target.as_bool = some b
      | .Ne => target.as_bool.any (fun t => t ≠ b)
      | _ => false
  | .Str s => target.as_str.any (fun t => str_cmp chrono re t op s)

/-- One target that is no array against a literal that is no list. -/
def compare_item (re : Option (String → Bool)) (op : CmpOp) (want : QValue) (target : Value) : Bool :=
  if op = .Ne && !same_datatype target want then true
  else
    match want with
    | .Range lo hi =>
        match op with
        | .Eq => in_range chrono target lo hi
        | .Ne => !in_range chrono target lo hi
        | _ => false
    | .scalar v => compare_scalar chrono re op target v
    | .List _ => false

def universal (op : CmpOp) : Bool := op = .Ne ∨ op = .NotPattern

mutual
/-- In an array `!=` and `!~=` ask every element, the other operators any. -/
def compare_target (re : Option (String → Bool)) (op : CmpOp) (want : QValue) : Value → Bool
  | .array items => if universal op then compare_every re op want items else compare_some re op want items
  | target => compare_item chrono re op want target
termination_by structural target => target
def compare_every (re : Option (String → Bool)) (op : CmpOp) (want : QValue) : List Value → Bool
  | [] => true
  | i :: items => compare_target re op want i && compare_every re op want items
termination_by structural items => items
def compare_some (re : Option (String → Bool)) (op : CmpOp) (want : QValue) : List Value → Bool
  | [] => false
  | i :: items => compare_target re op want i || compare_some re op want items
termination_by structural items => items
end

def compare (re : Option (String → Bool)) (op : CmpOp) (want : QValue) (target : Value) : Bool :=
  match want with
  | .List vals =>
      match op with
      | .Eq => vals.any (fun v => compare_target chrono re op (.scalar v) target)
      | .Ne => vals.all (fun v => compare_target chrono re op (.scalar v) target)
      | _ => false
  | want => compare_target chrono re op want target

/-- What evaluation is handed: the expander of the context, the entities of
the store, and the compiler of patterns. -/
structure Env where
  expand : String → String
  lookup : String → Option Value
  regex : String → Option (String → Bool)

variable (env : Env)

/-- The pattern of a term, compiled once for all targets. -/
def pattern (op : CmpOp) (value : QValue) : Option (String → Bool) :=
  match op, value with
  | .Pattern, .scalar (.Str s) => env.regex s
  | .NotPattern, .scalar (.Str s) => env.regex s
  | _, _ => none

def term_matches (op : CmpOp) (value : QValue) (t : Target) : Bool :=
  kind_allows t.1 op && compare chrono (pattern env op value) op value t.2

mutual
/-- The truth of an expression and the lookups that are left. -/
def eval_node (entity : Value) : QNode → Nat → Bool × Nat
  | .And items, budget => eval_all entity items budget
  | .Or items, budget => eval_any entity items budget
  | .Exists path negated, budget =>
      let found := resolve_qpath env.expand env.lookup path.path path.bracket path.links entity budget
      ((!found.1.isEmpty) != negated, found.2)
  | .Cmp path op value, budget =>
      let found := resolve_qpath env.expand env.lookup path.path path.bracket path.links entity budget
      (found.1.any (term_matches chrono env op value), found.2)
termination_by structural n => n
def eval_all (entity : Value) : List QNode → Nat → Bool × Nat
  | [], budget => (true, budget)
  | n :: items, budget =>
      match eval_node entity n budget with
      | (true, budget) => eval_all entity items budget
      | (false, budget) => (false, budget)
termination_by structural items => items
def eval_any (entity : Value) : List QNode → Nat → Bool × Nat
  | [], budget => (false, budget)
  | n :: items, budget =>
      match eval_node entity n budget with
      | (true, budget) => (true, budget)
      | (false, budget) => eval_any entity items budget
termination_by structural items => items
end

def eval_q (node : QNode) (entity : Value) : Bool :=
  (eval_node chrono env entity node MAX_Q_LINK_LOOKUPS).1

end Times

end AntaresBroker.Ql.Eval
