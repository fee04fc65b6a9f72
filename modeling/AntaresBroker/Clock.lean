import Mathlib.Data.String.Basic
import Mathlib.Data.List.Lex
import Mathlib.Tactic.Ring
import Mathlib.Tactic.IntervalCases

namespace AntaresBroker.Clock

/-- A number in exactly `w` decimal digits, the leading ones dropped if it has more. -/
def block : Nat → Nat → List Char
  | 0, _ => []
  | w + 1, n => (n / 10 ^ w % 10).digitChar :: block w (n % 10 ^ w)

def leap (year : Nat) : Bool := year % 4 = 0 ∧ (year % 100 ≠ 0 ∨ year % 400 = 0)

def daysInMonth (year month : Nat) : Nat :=
  if month = 2 then (if leap year then 29 else 28)
  else if month ∈ [4, 6, 9, 11] then 30 else 31

/-- An instant of the calendar in UTC, to `p` digits of a second; the broker
stamps with three. -/
structure Stamp (p : Nat) where
  year : Nat
  month : Nat
  day : Nat
  hour : Nat
  minute : Nat
  second : Nat
  fraction : Nat
  year_lt : year < 10000
  month_pos : 0 < month
  month_le : month ≤ 12
  day_pos : 0 < day
  day_le : day ≤ daysInMonth year month
  hour_lt : hour < 24
  minute_lt : minute < 60
  second_lt : second < 60
  fraction_lt : fraction < 10 ^ p

variable {p : Nat}

/-- The fields of a stamp from the year down. -/
def fields (t : Stamp p) : List Nat := [t.year, t.month, t.day, t.hour, t.minute, t.second, t.fraction]

/-- Stamps in the order of time. -/
instance : LE (Stamp p) := ⟨fun s t => fields s ≤ fields t⟩

instance (s t : Stamp p) : Decidable (s ≤ t) := inferInstanceAs (Decidable (fields s ≤ fields t))

/-- What stands between the seconds and `Z`. -/
def point (p : Nat) : Char := if p = 0 then 'Z' else '.'

/-- The RFC 3339 form in UTC; without digits of a second there is no point either. -/
def chars (t : Stamp p) : List Char :=
  block 4 t.year ++ '-' :: (block 2 t.month ++ '-' :: (block 2 t.day ++ 'T' :: (block 2 t.hour ++ ':' ::
    (block 2 t.minute ++ ':' :: (block 2 t.second ++ point p :: if p = 0 then [] else block p t.fraction ++ ['Z'])))))

def render (t : Stamp p) : String := String.ofList (chars t)

theorem digitChar_lt : ∀ a < 10, ∀ b < 10, a < b → a.digitChar < b.digitChar := by decide

theorem block_append_lt {w a b : Nat} (ha : a < 10 ^ w) (hb : b < 10 ^ w) (h : a < b) (x y : List Char) :
    block w a ++ x < block w b ++ y := by
  induction w generalizing a b with
  | zero => simp at ha hb; omega
  | succ w ih =>
      have hpos : 0 < 10 ^ w := Nat.pow_pos (by norm_num)
      have hqa : a / 10 ^ w < 10 := Nat.div_lt_of_lt_mul (by rwa [pow_succ] at ha)
      have hqb : b / 10 ^ w < 10 := Nat.div_lt_of_lt_mul (by rwa [pow_succ] at hb)
      have hle : a / 10 ^ w ≤ b / 10 ^ w := Nat.div_le_div_right h.le
      rw [block, block, Nat.mod_eq_of_lt hqa, Nat.mod_eq_of_lt hqb, List.cons_append, List.cons_append,
        List.cons_lt_cons_iff]
      rcases hle.lt_or_eq with hlt | heq
      · exact Or.inl (digitChar_lt _ hqa _ hqb hlt)
      · have ha' := Nat.div_add_mod a (10 ^ w)
        have hb' := Nat.div_add_mod b (10 ^ w)
        rw [heq] at ha'
        refine Or.inr ⟨by rw [heq], ih (Nat.mod_lt _ hpos) (Nat.mod_lt _ hpos) (by omega)⟩

theorem lt_of_append_lt (p : List Char) {x y : List Char} (h : p ++ x < p ++ y) : x < y := by
  induction p with
  | nil => exact h
  | cons c p ih =>
      rcases List.cons_lt_cons_iff.mp h with h | ⟨-, h⟩
      · exact absurd h (lt_irrefl c)
      · exact ih h

theorem lt_of_block_append_lt {w a b : Nat} {x y : List Char} (ha : a < 10 ^ w) (hb : b < 10 ^ w)
    (h : block w a ++ x < block w b ++ y) : a < b ∨ a = b ∧ x < y := by
  rcases lt_trichotomy a b with hlt | rfl | hgt
  · exact Or.inl hlt
  · exact Or.inr ⟨rfl, lt_of_append_lt _ h⟩
  · exact absurd h (block_append_lt hb ha hgt y x).asymm

/-- One field of a stamp: the digits compare as the number does, and the
separator after them does not count. -/
theorem fields_cons_lt {w a b : Nat} {c : Char} {x y : List Char} {m n : List Nat} (ha : a < 10 ^ w)
    (hb : b < 10 ^ w) (ih : x < y → m < n) (h : block w a ++ c :: x < block w b ++ c :: y) :
    a :: m < b :: n := by
  rw [List.cons_lt_cons_iff]
  rcases lt_of_block_append_lt ha hb h with hlt | ⟨heq, htail⟩
  · exact Or.inl hlt
  · rcases List.cons_lt_cons_iff.mp htail with hc | ⟨-, hc⟩
    · exact absurd hc (lt_irrefl c)
    · exact Or.inr ⟨heq, ih hc⟩

theorem day_lt (t : Stamp p) : t.day < 10 ^ 2 := by
  have h := t.day_le
  unfold daysInMonth at h
  split_ifs at h <;> omega

theorem fields_lt {s t : Stamp p} (h : chars s < chars t) : fields s < fields t := by
  have hs := day_lt s
  have ht := day_lt t
  refine fields_cons_lt s.year_lt t.year_lt (fun h => ?_) h
  refine fields_cons_lt (by have := s.month_le; omega) (by have := t.month_le; omega) (fun h => ?_) h
  refine fields_cons_lt hs ht (fun h => ?_) h
  refine fields_cons_lt (by have := s.hour_lt; omega) (by have := t.hour_lt; omega) (fun h => ?_) h
  refine fields_cons_lt (by have := s.minute_lt; omega) (by have := t.minute_lt; omega) (fun h => ?_) h
  refine fields_cons_lt (by have := s.second_lt; omega) (by have := t.second_lt; omega) (fun h => ?_) h
  by_cases hp : p = 0
  · simp [hp] at h
  · rw [if_neg hp, if_neg hp] at h
    exact fields_cons_lt s.fraction_lt t.fraction_lt (fun h => absurd h (lt_irrefl _)) h

/-- The bytes of rendered stamps are in the order of time. -/
theorem render_mono {s t : Stamp p} (h : s ≤ t) : render s ≤ render t := by
  have h' : fields s ≤ fields t := h
  rw [String.le_iff_toList_le, render, render, String.toList_ofList, String.toList_ofList]
  exact not_lt.mp (fun hlt => (not_lt.mpr h') (fields_lt hlt))

theorem isDigit_of_mem_block {w n : Nat} {c : Char} (h : c ∈ block w n) : c.isDigit = true := by
  induction w generalizing n with
  | zero => simp [block] at h
  | succ w ih =>
      rw [block] at h
      rcases List.mem_cons.mp h with rfl | h
      · simpa using Nat.mod_lt _ (by norm_num)
      · exact ih h

theorem comma_not_mem_chars (t : Stamp p) : ',' ∉ chars t := by
  have hblock (w n : Nat) : ',' ∉ block w n := fun h => absurd (isDigit_of_mem_block h) (by decide)
  by_cases hp : p = 0 <;> simp [chars, point, hblock, hp]

theorem getLast?_chars (t : Stamp p) : (chars t).getLast? = some 'Z' := by
  by_cases hp : p = 0 <;> simp [chars, point, hp, List.getLast?_cons, List.getLast?_append]

end AntaresBroker.Clock
