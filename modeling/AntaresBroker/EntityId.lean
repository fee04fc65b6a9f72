import AntaresBroker.Context
import AntaresBroker.Ql

namespace AntaresBroker.Model

open Text Ql JsonLd

def URI_ASCII : String := "-._~:/?#[]@!$&'()*+,;=%"

/-- The ranges an IRI adds to the characters of a URI. -/
def iri_non_ascii (code : Nat) : Bool :=
  (0xA0 ≤ code ∧ code ≤ 0xD7FF) ∨ (0xE000 ≤ code ∧ code ≤ 0xFDCF) ∨ (0xFDF0 ≤ code ∧ code ≤ 0xFFEF) ∨
    (0x10000 ≤ code ∧ code % 0x10000 ≤ 0xFFFD ∧ ¬ (0xE0000 ≤ code ∧ code ≤ 0xE0FFF))

/-- What paints no glyph or reorders the text around it. -/
def invisible (code : Nat) : Bool :=
  code = 0x00AD ∨ code = 0x061C ∨ code = 0x115F ∨ code = 0x1160 ∨ code = 0x3164 ∨ code = 0xFFA0 ∨ code = 0x180E ∨
    (0x200B ≤ code ∧ code ≤ 0x200F) ∨ code = 0x2800 ∨ (0x2028 ≤ code ∧ code ≤ 0x202E) ∨
    (0x2060 ≤ code ∧ code ≤ 0x206F) ∨ (0xFE00 ≤ code ∧ code ≤ 0xFE0F) ∨ code = 0xFEFF ∨
    (0xFFF9 ≤ code ∧ code ≤ 0xFFFB)

def is_id_char (c : Char) : Bool :=
  (is_ascii_alphanumeric c || URI_ASCII.toList.contains c || iri_non_ascii c.toNat) && !is_whitespace c &&
    !invisible c.toNat

def to_ascii_lowercase (c : Char) : Char := if 'A' ≤ c ∧ c ≤ 'Z' then Char.ofNat (c.toNat + 32) else c

/-- Every `%2x` of a text as the character it stands for. -/
def decode_triplet (x decoded : Char) : List Char → List Char
  | '%' :: '2' :: d :: s =>
      if d = x then decoded :: decode_triplet x decoded s else '%' :: decode_triplet x decoded ('2' :: d :: s)
  | c :: s => c :: decode_triplet x decoded s
  | [] => []

/-- No `.` or `..` as a whole segment, in the percent-encoded spellings either. -/
def no_dot_segment (raw : List Char) : Bool :=
  !((decode_triplet 'f' '/' (decode_triplet 'e' '.' (raw.map to_ascii_lowercase))).splitOn '/').any
    (fun seg => seg == ['.'] || seg == ['.', '.'])

/-- A scheme, a colon and something after it. -/
def has_scheme (raw : List Char) : Bool :=
  match splitOnce ':' raw with
  | some (scheme, rest) =>
      !scheme.isEmpty && !rest.isEmpty && scheme.all (fun c => is_ascii_alphanumeric c || "+-.".toList.contains c)
  | none => false

/-- What `EntityId::new` admits. -/
def valid_id (raw : String) : Bool :=
  raw.toList.all is_id_char && no_dot_segment raw.toList && has_scheme raw.toList

structure EntityId where
  raw : String
  valid : valid_id raw = true
deriving DecidableEq

def EntityId.new (raw : String) : Option EntityId :=
  if h : valid_id raw = true then some ⟨raw, h⟩ else none

example : valid_id "urn:ngsi-ld:Ciudad:París" = true ∧ valid_id "http://a/%2E%2e/b" = false := by decide

end AntaresBroker.Model
