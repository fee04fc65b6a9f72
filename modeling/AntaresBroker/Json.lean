import AntaresBroker.SortedMap
import AntaresBroker.Number

namespace AntaresBroker.Json

open Number

/-- A JSON number: a 64-bit integer, `negInt n` standing for `-(n + 1)`, or a
finite float. The two zeros compare equal and are one number here. -/
inductive JsonNumber
  | posInt (n : UInt64)
  | negInt (n : Fin (2 ^ 63))
  | float (x : F64) (finite : is_finite x) (one_zero : x.mag = 0 → x.neg = false)
deriving DecidableEq

def JsonNumber.as_f64 : JsonNumber → F64
  | .posInt n => ofDecimal (integer false n.toNat)
  | .negInt n => ofDecimal (integer true (n + 1))
  | .float x _ _ => x

/-- The decimal the number is written as. -/
def JsonNumber.decimal : JsonNumber → Decimal
  | .posInt n => integer false n.toNat
  | .negInt n => integer true (n + 1)
  | .float x _ _ => shortest x

inductive Value
  | null
  | bool (b : Bool)
  | number (n : JsonNumber)
  | string (s : String)
  | array (items : List Value)
  | object (members : List (String × Value))

theorem Value.induction {P : Value → Prop} (null : P .null) (bool : ∀ b, P (.bool b))
    (number : ∀ n, P (.number n)) (string : ∀ s, P (.string s))
    (array : ∀ items, (∀ v ∈ items, P v) → P (.array items))
    (object : ∀ members, (∀ p ∈ members, P p.2) → P (.object members)) (v : Value) : P v :=
  @Value.rec P (fun items => ∀ v ∈ items, P v) (fun members => ∀ p ∈ members, P p.2) (fun p => P p.2)
    null bool number string array object
    (by simp)
    (fun _ _ hv hvs => List.forall_mem_cons.mpr ⟨hv, hvs⟩)
    (by simp)
    (fun _ _ hp hps => List.forall_mem_cons.mpr ⟨hp, hps⟩)
    (fun _ _ h => h) v

mutual
def Value.decEq : (v w : Value) → Decidable (v = w)
  | .null, .null => isTrue rfl
  | .bool b, .bool c => decidable_of_iff (b = c) (by simp)
  | .number m, .number n => decidable_of_iff (m = n) (by simp)
  | .string s, .string t => decidable_of_iff (s = t) (by simp)
  | .array xs, .array ys => @decidable_of_iff _ (xs = ys) (by simp) (decEqItems xs ys)
  | .object m, .object n => @decidable_of_iff _ (m = n) (by simp) (decEqMembers m n)
  | .null, .bool _ => isFalse nofun
  | .null, .number _ => isFalse nofun
  | .null, .string _ => isFalse nofun
  | .null, .array _ => isFalse nofun
  | .null, .object _ => isFalse nofun
  | .bool _, .null => isFalse nofun
  | .bool _, .number _ => isFalse nofun
  | .bool _, .string _ => isFalse nofun
  | .bool _, .array _ => isFalse nofun
  | .bool _, .object _ => isFalse nofun
  | .number _, .null => isFalse nofun
  | .number _, .bool _ => isFalse nofun
  | .number _, .string _ => isFalse nofun
  | .number _, .array _ => isFalse nofun
  | .number _, .object _ => isFalse nofun
  | .string _, .null => isFalse nofun
  | .string _, .bool _ => isFalse nofun
  | .string _, .number _ => isFalse nofun
  | .string _, .array _ => isFalse nofun
  | .string _, .object _ => isFalse nofun
  | .array _, .null => isFalse nofun
  | .array _, .bool _ => isFalse nofun
  | .array _, .number _ => isFalse nofun
  | .array _, .string _ => isFalse nofun
  | .array _, .object _ => isFalse nofun
  | .object _, .null => isFalse nofun
  | .object _, .bool _ => isFalse nofun
  | .object _, .number _ => isFalse nofun
  | .object _, .string _ => isFalse nofun
  | .object _, .array _ => isFalse nofun
termination_by structural v => v
def decEqItems : (xs ys : List Value) → Decidable (xs = ys)
  | [], [] => isTrue rfl
  | [], _ :: _ => isFalse nofun
  | _ :: _, [] => isFalse nofun
  | x :: xs, y :: ys =>
      @decidable_of_iff _ (x = y ∧ xs = ys) (by simp) (@instDecidableAnd _ _ (Value.decEq x y) (decEqItems xs ys))
termination_by structural xs => xs
def decEqMembers : (m n : List (String × Value)) → Decidable (m = n)
  | [], [] => isTrue rfl
  | [], _ :: _ => isFalse nofun
  | _ :: _, [] => isFalse nofun
  | p :: m, q :: n =>
      @decidable_of_iff _ (p = q ∧ m = n) (by simp) (@instDecidableAnd _ _ (decEqMember p q) (decEqMembers m n))
termination_by structural m => m
def decEqMember : (p q : String × Value) → Decidable (p = q)
  | (k, v), (l, w) =>
      @decidable_of_iff _ (k = l ∧ v = w) (by simp) (@instDecidableAnd _ _ inferInstance (Value.decEq v w))
termination_by structural p => p
end

instance : DecidableEq Value := Value.decEq

abbrev Map := List (String × Value)

namespace Value

def get (v : Value) (k : String) : Option Value :=
  match v with
  | .object m => m.lookup k
  | _ => none

def as_array : Value → Option (List Value)
  | .array items => some items
  | _ => none

def as_object : Value → Option Map
  | .object m => some m
  | _ => none

def as_str : Value → Option String
  | .string s => some s
  | _ => none

def as_bool : Value → Option Bool
  | .bool b => some b
  | _ => none

def as_f64 : Value → Option F64
  | .number n => some n.as_f64
  | _ => none

def is_string (v : Value) : Bool := v.as_str.isSome

def is_bool (v : Value) : Bool := v.as_bool.isSome

def is_number (v : Value) : Bool := v.as_f64.isSome

def is_array (v : Value) : Bool := v.as_array.isSome

def is_object (v : Value) : Bool := v.as_object.isSome

end Value

end AntaresBroker.Json
