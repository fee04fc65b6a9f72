import Mathlib.Data.List.Basic
import Mathlib.Tactic.IntervalCases

namespace AntaresBroker.JsonString

def hex_digit (n : Nat) : Char := "0123456789abcdef".toList.getD n '0'

/-- A character inside a JSON string: seven short escapes, `\u` for the other
control characters, and everything else as it is. -/
def escape_char (c : Char) : List Char :=
  if c = '"' then ['\\', '"']
  else if c = '\\' then ['\\', '\\']
  else if c = '\x08' then ['\\', 'b']
  else if c = '\x0c' then ['\\', 'f']
  else if c = '\n' then ['\\', 'n']
  else if c = '\r' then ['\\', 'r']
  else if c = '\t' then ['\\', 't']
  else if c.toNat < 32 then ['\\', 'u', '0', '0', hex_digit (c.toNat / 16), hex_digit (c.toNat % 16)]
  else [c]

def escape (s : List Char) : List Char := s.flatMap escape_char

/-- Where a reader of a JSON string stands: in plain text, after a backslash,
among the hex digits of a `\u` (with the high surrogate read before them, the
digits still to come and the number so far), or before the low surrogate. -/
inductive Reading
  | text
  | backslash
  | hex (high : Option Nat) (left value : Nat)
  | low (high : Nat)
  | low_u (high : Nat)

def hex_value (c : Char) : Option Nat :=
  if '0' ≤ c ∧ c ≤ '9' then some (c.toNat - '0'.toNat)
  else if 'a' ≤ c ∧ c ≤ 'f' then some (c.toNat - 'a'.toNat + 10)
  else if 'A' ≤ c ∧ c ≤ 'F' then some (c.toNat - 'A'.toNat + 10)
  else none

/-- A finished `\u` escape: a character, a high surrogate to be completed, or neither. -/
def unicode (high : Option Nat) (n : Nat) : Option (Option Char × Reading) :=
  match high with
  | none =>
      if 0xD800 ≤ n ∧ n ≤ 0xDBFF then some (none, .low n)
      else if 0xDC00 ≤ n ∧ n ≤ 0xDFFF then none
      else some (some (Char.ofNat n), .text)
  | some h =>
      if 0xDC00 ≤ n ∧ n ≤ 0xDFFF then
        some (some (Char.ofNat (0x10000 + (h - 0xD800) * 0x400 + (n - 0xDC00))), .text)
      else none

def short_escape (c : Char) : Option Char :=
  match c with
  | '"' => some '"'
  | '\\' => some '\\'
  | '/' => some '/'
  | 'b' => some '\x08'
  | 'f' => some '\x0c'
  | 'n' => some '\n'
  | 'r' => some '\r'
  | 't' => some '\t'
  | _ => none

def read : Reading → Char → Option (Option Char × Reading)
  | .text, c =>
      if c = '\\' then some (none, .backslash)
      else if c = '"' ∨ c.toNat < 32 then none
      else some (some c, .text)
  | .backslash, c =>
      if c = 'u' then some (none, .hex none 4 0) else (short_escape c).map (fun d => (some d, .text))
  | .hex high left value, c =>
      (hex_value c).bind (fun d =>
        if 1 < left then some (none, .hex high (left - 1) (16 * value + d)) else unicode high (16 * value + d))
  | .low high, c => if c = '\\' then some (none, .low_u high) else none
  | .low_u high, c => if c = 'u' then some (none, .hex (some high) 4 0) else none

def emit : Option Char → Option (List Char) → Option (List Char)
  | none, t => t
  | some c, t => t.map (c :: ·)

/-- The text between the quotes of a JSON string, decoded. -/
def decode : Reading → List Char → Option (List Char)
  | .text, [] => some []
  | _, [] => none
  | state, c :: s => (read state c).bind (fun p => emit p.1 (decode p.2 s))

def unescape (s : List Char) : Option (List Char) := decode .text s

/-- What stands before the closing quote, escapes still in place, and after it. -/
def json_string_end : List Char → Option (List Char × List Char)
  | [] => none
  | '"' :: s => some ([], s)
  | ['\\'] => none
  | '\\' :: c :: s => (json_string_end s).map (fun p => ('\\' :: c :: p.1, p.2))
  | c :: s => (json_string_end s).map (fun p => (c :: p.1, p.2))

theorem decode_control (n : Nat) (h : n < 32) (t : List Char) :
    decode .text (escape_char (Char.ofNat n) ++ t) = (decode .text t).map (Char.ofNat n :: ·) := by
  interval_cases n <;> rfl

theorem escape_char_cases (c : Char) :
    (∃ n, n < 32 ∧ c = Char.ofNat n) ∨ c = '"' ∨ c = '\\' ∨
      (escape_char c = [c] ∧ c ≠ '"' ∧ c ≠ '\\' ∧ ¬ c.toNat < 32) := by
  by_cases hlt : c.toNat < 32
  · exact Or.inl ⟨c.toNat, hlt, (Char.ofNat_toNat c).symm⟩
  · by_cases hq : c = '"'
    · exact Or.inr (Or.inl hq)
    · by_cases hb : c = '\\'
      · exact Or.inr (Or.inr (Or.inl hb))
      · refine Or.inr (Or.inr (Or.inr ⟨?_, hq, hb, hlt⟩))
        have hne (d : Char) (hd : d.toNat < 32) : c ≠ d := fun h => hlt (h ▸ hd)
        rw [escape_char, if_neg hq, if_neg hb, if_neg (hne _ (by decide)), if_neg (hne _ (by decide)),
          if_neg (hne _ (by decide)), if_neg (hne _ (by decide)), if_neg (hne _ (by decide)), if_neg hlt]

theorem decode_escape_char (c : Char) (t : List Char) :
    decode .text (escape_char c ++ t) = (decode .text t).map (c :: ·) := by
  rcases escape_char_cases c with ⟨n, hn, rfl⟩ | rfl | rfl | ⟨he, hq, hb, hlt⟩
  · exact decode_control n hn t
  · rfl
  · rfl
  · rw [he, List.singleton_append, decode, read, if_neg hb, if_neg (by simp [hq, hlt])]
    rfl

/-- Reading an escaped text gives the text. -/
theorem unescape_escape (s : List Char) : unescape (escape s) = some s := by
  induction s with
  | nil => rfl
  | cons c s ih =>
      rw [unescape] at ih ⊢
      rw [escape, List.flatMap_cons, decode_escape_char, ← escape, ih, Option.map_some]

/-- A piece of text in which no quote closes the string and no backslash is left open. -/
def Enclosed (s : List Char) : Prop :=
  ∀ t, json_string_end (s ++ t) = (json_string_end t).map (fun p => (s ++ p.1, p.2))

theorem Enclosed.append {s t : List Char} (hs : Enclosed s) (ht : Enclosed t) : Enclosed (s ++ t) := by
  intro u
  rw [List.append_assoc, hs, ht, Option.map_map]
  simp [Function.comp_def]

theorem enclosed_nil : Enclosed [] := fun t => by simp

theorem enclosed_plain {c : Char} (hq : c ≠ '"') (hb : c ≠ '\\') : Enclosed [c] := by
  intro t
  rw [List.singleton_append, json_string_end]
  · rfl
  · exact hq
  · rintro rfl; exact absurd rfl hb
  · rintro _ _ rfl; exact absurd rfl hb

theorem enclosed_escape (c : Char) : Enclosed ['\\', c] := fun _ => rfl

theorem hex_digit_plain {n : Nat} (h : n < 16) : hex_digit n ≠ '"' ∧ hex_digit n ≠ '\\' := by
  interval_cases n <;> decide

theorem enclosed_escape_char (c : Char) : Enclosed (escape_char c) := by
  unfold escape_char
  split_ifs with hq hb _ _ _ _ _ hlt
  any_goals exact enclosed_escape _
  · obtain ⟨hq₁, hb₁⟩ := hex_digit_plain (show c.toNat / 16 < 16 by omega)
    obtain ⟨hq₂, hb₂⟩ := hex_digit_plain (show c.toNat % 16 < 16 by omega)
    have hzero : Enclosed ['0'] := enclosed_plain (by decide) (by decide)
    exact (enclosed_escape 'u').append
      (hzero.append (hzero.append ((enclosed_plain hq₁ hb₁).append (enclosed_plain hq₂ hb₂))))
  · exact enclosed_plain hq hb

theorem enclosed_escape_text (s : List Char) : Enclosed (escape s) := by
  induction s with
  | nil => exact enclosed_nil
  | cons c s ih => exact (enclosed_escape_char c).append ih

/-- The first quote after an escaped text is the one that closes it. -/
theorem string_end_escape (s t : List Char) :
    json_string_end (escape s ++ '"' :: t) = some (escape s, t) := by
  rw [enclosed_escape_text, json_string_end, Option.map_some, List.append_nil]

end AntaresBroker.JsonString
