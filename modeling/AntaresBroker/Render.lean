import AntaresBroker.Ql

namespace AntaresBroker.Ql

open JsonString Number

def render_op : CmpOp → List Char
  | .Eq => "==".toList
  | .Ne => "!=".toList
  | .Gt => ">".toList
  | .Ge => ">=".toList
  | .Lt => "<".toList
  | .Le => "<=".toList
  | .Pattern => "~=".toList
  | .NotPattern => "!~=".toList

def render_scalar : Scalar → List Char
  | .Str s => '"' :: (escape s.toList ++ ['"'])
  | .Num n => NumberText.display n
  | .Bool b => if b then "true".toList else "false".toList

/-- The names with the separator between any two. -/
def join (sep : Char) : List String → List Char
  | [] => []
  | [name] => name.toList
  | name :: names => name.toList ++ sep :: join sep names

def render_scalars : List Scalar → List Char
  | [] => []
  | [v] => render_scalar v
  | v :: items => render_scalar v ++ ',' :: render_scalars items

def render_value : QValue → List Char
  | .scalar v => render_scalar v
  | .List items => render_scalars items
  | .Range lo hi => render_scalar lo ++ "..".toList ++ render_scalar hi

def render_link (l : Link) : List Char :=
  l.attr.toList ++ '{' :: (if l.types = [] then [] else join ',' l.types ++ [':'])

def render_bracket : Option (List String) → List Char
  | some b => '[' :: (join '.' b ++ [']'])
  | none => []

def render_path (p : QPath) : List Char :=
  p.links.flatMap render_link ++ join '.' p.path ++ render_bracket p.bracket ++ List.replicate p.links.length '}'

/-- A pattern is written back as it is, every other text escaped. -/
def render_operand (op : CmpOp) : QValue → List Char
  | .scalar (.Str s) => if op.regexp then '"' :: (s.toList ++ ['"']) else render_scalar (.Str s)
  | v => render_value v

def is_or : QNode → Bool
  | .Or _ => true
  | _ => false

def parenthesize (parens : Bool) (s : List Char) : List Char := if parens then '(' :: (s ++ [')']) else s

mutual
def render : QNode → List Char
  | .And items => render_items ';' items
  | .Or items => render_items '|' items
  | .Cmp path op v => render_path path ++ render_op op ++ render_operand op v
  | .Exists path negated => (if negated then ['!'] else []) ++ render_path path
def render_items (sep : Char) : List QNode → List Char
  | [] => []
  | n :: items =>
      parenthesize (is_or n) (render n) ++ (if items.isEmpty then [] else sep :: render_items sep items)
end

def to_string (n : QNode) : String := String.ofList (render n)

end AntaresBroker.Ql
