import AntaresBroker.Number
import Mathlib.Data.List.TakeWhile
import Mathlib.Tactic.IntervalCases

namespace AntaresBroker.NumberText

open Number

def pad (n : Nat) (ds : List Char) : List Char := List.replicate (n - ds.length) '0' ++ ds

def digits (n : Nat) : List Char := Nat.toDigits 10 n

def sign (neg : Bool) : List Char := if neg then ['-'] else []

def body (d : Decimal) : List Char :=
  let n := (-d.exp).toNat
  if 0 ≤ d.exp then digits (d.digits * 10 ^ d.exp.toNat)
  else digits (d.digits / 10 ^ n) ++ '.' :: pad n (digits (d.digits % 10 ^ n))

/-- Positional notation: an exponent is never written. -/
def text (d : Decimal) : List Char := sign d.neg ++ body d

/-- The positional notation of the shortest decimal that reads back. -/
def display (x : F64) : List Char :=
  if is_finite x then text (shortest x) else sign x.neg ++ ['i', 'n', 'f']

def value (ds : List Char) : Nat := Nat.ofDigitChars 10 ds 0

def isExp (c : Char) : Bool := c = 'e' ∨ c = 'E'

def exponent : List Char → Option Int
  | '-' :: ds => if ds ≠ [] ∧ ds.all Char.isDigit then some (-(value ds : Int)) else none
  | '+' :: ds => if ds ≠ [] ∧ ds.all Char.isDigit then some (value ds) else none
  | ds => if ds ≠ [] ∧ ds.all Char.isDigit then some (value ds) else none

/-- Digits, an optional fraction and an optional exponent, all of the text. -/
def unsigned (neg : Bool) (s : List Char) : Option Decimal :=
  let int := s.takeWhile Char.isDigit
  let rest := s.dropWhile Char.isDigit
  let frac := if rest.head? = some '.' then rest.tail.takeWhile Char.isDigit else []
  let rest := if rest.head? = some '.' then rest.tail.dropWhile Char.isDigit else rest
  if int ++ frac = [] then none
  else match rest with
    | [] => some ⟨neg, value (int ++ frac), -(frac.length : Int)⟩
    | c :: rest =>
        if isExp c then (exponent rest).map (fun e => ⟨neg, value (int ++ frac), e - frac.length⟩)
        else none

/-- The number grammar of text to binary64; the words for infinity and NaN are not in it. -/
def parse : List Char → Option F64
  | '-' :: s => (unsigned true s).map ofDecimal
  | '+' :: s => (unsigned false s).map ofDecimal
  | s => (unsigned false s).map ofDecimal

theorem isDigit_of_mem_digits {n : Nat} {c : Char} (h : c ∈ digits n) : c.isDigit = true :=
  Nat.isDigit_of_mem_toDigits (by norm_num) (by norm_num) h

theorem value_digits (n : Nat) : value (digits n) = n := Nat.ofDigitChars_ten_toDigits

theorem digits_ne_nil (n : Nat) : digits n ≠ [] := Nat.toDigits_ne_nil

theorem isDigit_of_mem_pad {n : Nat} {ds : List Char} (h : ∀ c ∈ ds, c.isDigit = true) :
    ∀ c ∈ pad n ds, c.isDigit = true := by
  intro c hc
  rcases List.mem_append.mp hc with hc | hc
  · rw [List.eq_of_mem_replicate hc]; decide
  · exact h c hc

theorem value_pad (n : Nat) (ds : List Char) : value (pad n ds) = value ds := by
  rw [value, pad, Nat.ofDigitChars_append, Nat.ofDigitChars_replicate_zero]
  simp [value]

theorem length_pad_digits {n m : Nat} (hm : m < 10 ^ n) (hn : 0 < n) : (pad n (digits m)).length = n := by
  have := (Nat.length_toDigits_le_iff (b := 10) (by norm_num) hn).mpr hm
  simp only [pad, List.length_append, List.length_replicate, digits]
  omega

theorem value_append (xs ys : List Char) : value (xs ++ ys) = value xs * 10 ^ ys.length + value ys := by
  rw [value, Nat.ofDigitChars_append, Nat.ofDigitChars_eq_ofDigitChars_zero, ← value, ← value, Nat.mul_comm]

theorem takeWhile_isDigit {ds r : List Char} (hd : ∀ c ∈ ds, c.isDigit = true)
    (hr : ∀ c ∈ r.head?, c.isDigit = false) :
    (ds ++ r).takeWhile Char.isDigit = ds ∧ (ds ++ r).dropWhile Char.isDigit = r := by
  rw [List.takeWhile_append_of_pos hd, List.dropWhile_append_of_pos hd]
  cases r with
  | nil => simp
  | cons c r =>
      have hc := hr c rfl
      simp [hc]

theorem exp_cases (d : Decimal) : 0 ≤ d.exp ∨ ∃ n, 0 < n ∧ (-d.exp).toNat = n ∧ d.exp = -(n : Int) := by
  by_cases h : 0 ≤ d.exp
  · exact Or.inl h
  · exact Or.inr ⟨(-d.exp).toNat, by omega, rfl, by omega⟩

/-- Positional notation is an integer part, and a point and digits if the
decimal has a negative exponent. -/
theorem body_eq (d : Decimal) :
    ∃ m fs, (∀ c ∈ fs, c.isDigit = true) ∧
      (body d = digits m ∧ fs = [] ∨ fs ≠ [] ∧ body d = digits m ++ '.' :: fs) ∧
        magnitude ⟨d.neg, value (digits m ++ fs), -(fs.length : Int)⟩ = magnitude d := by
  rcases exp_cases d with h | ⟨n, hn, hnat, hexp⟩
  · refine ⟨d.digits * 10 ^ d.exp.toNat, [], by simp, Or.inl ⟨?_, rfl⟩, ?_⟩
    · rw [body, if_pos h]
    · rw [List.append_nil, value_digits, magnitude_eq, magnitude_eq]
      simp [num, den, Int.toNat_of_nonpos (show -d.exp ≤ 0 by omega)]
  · have hlt : d.digits % 10 ^ n < 10 ^ n := Nat.mod_lt _ (Nat.pow_pos (by norm_num))
    have hlen := length_pad_digits hlt hn
    refine ⟨d.digits / 10 ^ n, pad n (digits (d.digits % 10 ^ n)),
      isDigit_of_mem_pad (fun c hc => isDigit_of_mem_digits hc), Or.inr ⟨?_, ?_⟩, ?_⟩
    · intro h
      rw [h] at hlen
      simp at hlen
      omega
    · rw [body, if_neg (by omega), hnat]
    · rw [value_append, hlen, value_pad, value_digits, value_digits, Nat.mul_comm, Nat.div_add_mod, magnitude,
        magnitude, hexp]

theorem unsigned_body (neg : Bool) (d : Decimal) :
    ∃ e, unsigned neg (body d) = some e ∧ e.neg = neg ∧ magnitude e = magnitude d := by
  obtain ⟨m, fs, hfs, hbody, hmag⟩ := body_eq d
  refine ⟨⟨neg, value (digits m ++ fs), -(fs.length : Int)⟩, ?_, rfl, hmag⟩
  have hm : ∀ c ∈ digits m, c.isDigit = true := fun c hc => isDigit_of_mem_digits hc
  have hne := digits_ne_nil m
  rcases hbody with ⟨hb, rfl⟩ | ⟨hfne, hb⟩
  · obtain ⟨ht, hd⟩ := takeWhile_isDigit (r := []) hm (by simp)
    rw [List.append_nil] at ht hd
    simp [hb, unsigned, ht, hd, hne]
  · obtain ⟨ht, hd⟩ := takeWhile_isDigit (r := '.' :: fs) hm (by simp)
    obtain ⟨ht', hd'⟩ := takeWhile_isDigit (r := []) hfs (by simp)
    rw [List.append_nil] at ht' hd'
    simp [hb, unsigned, ht, hd, ht', hd', hne]

theorem body_head (d : Decimal) : ∃ c s, body d = c :: s ∧ c.isDigit = true := by
  obtain ⟨m, fs, -, hbody, -⟩ := body_eq d
  obtain ⟨c, ds, hc⟩ := List.exists_cons_of_ne_nil (digits_ne_nil m)
  have hd : c.isDigit = true := isDigit_of_mem_digits (n := m) (by simp [hc])
  rcases hbody with ⟨hb, -⟩ | ⟨-, hb⟩
  · exact ⟨c, ds, by rw [hb, hc], hd⟩
  · exact ⟨c, _, by rw [hb, hc]; rfl, hd⟩

theorem parse_of_isDigit {c : Char} {s : List Char} (hc : c.isDigit = true) :
    parse (c :: s) = (unsigned false (c :: s)).map ofDecimal := by
  rw [parse]
  · rintro s' h; injection h with h _; subst h; exact absurd hc (by decide)
  · rintro s' h; injection h with h _; subst h; exact absurd hc (by decide)

/-- A finite number read from its own display is the number. -/
theorem parse_display {x : F64} (hx : is_finite x) : parse (display x) = some x := by
  obtain ⟨e, he, hneg, hmag⟩ := unsigned_body x.neg (shortest x)
  have hround : ofDecimal e = x := by
    rw [← ofDecimal_shortest x]
    exact F64.ext_mag (by rw [ofDecimal_neg, ofDecimal_neg, hneg, shortest_neg]) (mag_congr hmag)
  rw [display, if_pos hx, text, shortest_neg]
  cases hn : x.neg with
  | true =>
      rw [hn] at he
      simp [sign, parse, he, hround]
  | false =>
      rw [hn] at he
      obtain ⟨c, s, hb, hc⟩ := body_head (shortest x)
      rw [sign, if_neg Bool.false_ne_true, List.nil_append, hb, parse_of_isDigit hc, ← hb, he, Option.map_some,
        hround]

theorem digits_of_lt {n : Nat} (h : n < 10) : digits n = [n.digitChar] := Nat.toDigits_of_lt_base h

theorem digits_of_le {n : Nat} (h : 10 ≤ n) : digits n = digits (n / 10) ++ [(n % 10).digitChar] :=
  Nat.toDigits_of_base_le (by norm_num) h

/-- Only the number 0 begins with the digit 0. -/
theorem digits_head {n : Nat} (h : 0 < n) : (digits n).head? ≠ some '0' := by
  induction n using Nat.strong_induction_on with
  | _ n ih =>
      rcases Nat.lt_or_ge n 10 with hlt | hge
      · rw [digits_of_lt hlt]
        interval_cases n <;> decide
      · rw [digits_of_le hge, List.head?_append_of_ne_nil _ (digits_ne_nil _)]
        exact ih (n / 10) (by omega) (by omega)

theorem display_eq {x : F64} (hx : is_finite x) :
    ∃ m fs, (∀ c ∈ fs, c.isDigit = true) ∧
      display x = sign x.neg ++ (digits m ++ (if fs = [] then [] else '.' :: fs)) := by
  obtain ⟨m, fs, hfs, hbody, -⟩ := body_eq (shortest x)
  refine ⟨m, fs, hfs, ?_⟩
  rw [display, if_pos hx, text, shortest_neg]
  rcases hbody with ⟨hb, rfl⟩ | ⟨hne, hb⟩
  · rw [hb, if_pos rfl, List.append_nil]
  · rw [hb, if_neg hne]

end AntaresBroker.NumberText
