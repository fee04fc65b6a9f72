import Mathlib

namespace AntaresBroker.Calendar

/-- The leap days before the March of a year. -/
def leaps (y : ℤ) : ℤ := y / 4 - y / 4 / 25 + y / 4 / 25 / 4

/-- The first day of a month, months and days counted from March of the year 0. -/
def start (k : ℤ) : ℤ := 365 * (k / 12) + leaps (k / 12) + (153 * (k % 12) + 2) / 5

/-- The month of a day: the mean length of a month is wrong by one at most. -/
def month_of (d : ℤ) : ℤ :=
  let guess := 4800 * d / 146097
  if d < start guess then guess - 1 else if start (guess + 1) ≤ d then guess + 1 else guess

/-- The same day of a later or earlier month, the last one of a shorter month. -/
def shift (d n : ℤ) : ℤ :=
  let k := month_of d
  start (k + n) + min (d - start k) (start (k + n + 1) - start (k + n) - 1)

theorem leaps_succ (y : ℤ) : leaps y ≤ leaps (y + 1) ∧ leaps (y + 1) ≤ leaps y + 1 := by
  have hfour : (y + 1) / 4 = y / 4 ∨ (y + 1) / 4 = y / 4 + 1 := by omega
  have hcentury : (y / 4 + 1) / 25 = y / 4 / 25 ∨ (y / 4 + 1) / 25 = y / 4 / 25 + 1 := by omega
  unfold leaps
  rcases hfour with hfour | hfour <;> rw [hfour]
  · omega
  · rcases hcentury with hcentury | hcentury <;> rw [hcentury] <;> omega

/-- Months have between 28 and 31 days. -/
theorem start_succ (k : ℤ) : start k + 28 ≤ start (k + 1) ∧ start (k + 1) ≤ start k + 31 := by
  unfold start
  by_cases hlast : k % 12 = 11
  · have hyear : (k + 1) / 12 = k / 12 + 1 := by omega
    have hfirst : (k + 1) % 12 = 0 := by omega
    have hleap := leaps_succ (k / 12)
    rw [hyear, hfirst, hlast]
    omega
  · have hyear : (k + 1) / 12 = k / 12 := by omega
    have hnext : (k + 1) % 12 = k % 12 + 1 := by omega
    rw [hyear, hnext]
    omega

theorem start_strictMono : StrictMono start := strictMono_int_of_lt_succ fun k => by
  have hsucc := start_succ k
  omega

/-- Four hundred years have 4800 months and 146097 days. -/
theorem start_bounds (k : ℤ) : 146097 * k - 4 * 4800 ≤ 4800 * start k ∧ 4800 * start k ≤ 146097 * k + 4 * 4800 := by
  unfold start leaps
  omega

theorem month_of_spec (d : ℤ) : start (month_of d) ≤ d ∧ d < start (month_of d + 1) := by
  have hbelow := start_bounds (4800 * d / 146097 - 1)
  have habove := start_bounds (4800 * d / 146097 + 2)
  have hsum : 4800 * d / 146097 + 1 + 1 = 4800 * d / 146097 + 2 := by omega
  unfold month_of
  dsimp only
  split_ifs with hlow hhigh
  · rw [sub_add_cancel]
    omega
  · rw [hsum]
    omega
  · omega

theorem month_of_eq {d k : ℤ} (h : start k ≤ d) (h' : d < start (k + 1)) : month_of d = k := by
  obtain ⟨hlow, hhigh⟩ := month_of_spec d
  have hle : month_of d < k + 1 := start_strictMono.lt_iff_lt.mp (hlow.trans_lt h')
  have hge : k < month_of d + 1 := start_strictMono.lt_iff_lt.mp (h.trans_lt hhigh)
  omega

theorem month_of_mono : Monotone month_of := fun d e h => by
  have hlow := (month_of_spec d).1
  have hhigh := (month_of_spec e).2
  have hlt : month_of d < month_of e + 1 := start_strictMono.lt_iff_lt.mp (hlow.trans_lt (h.trans_lt hhigh))
  omega

theorem month_of_shift (d n : ℤ) : month_of (shift d n) = month_of d + n := by
  have hday := month_of_spec d
  have hlength := start_succ (month_of d + n)
  apply month_of_eq <;> unfold shift <;> dsimp only <;> omega

/-- Days apart, by the months apart. -/
theorem start_diff {j k : ℤ} (h : j ≤ k) : (k - j) * 28 ≤ start k - start j ∧ start k - start j ≤ (k - j) * 31 := by
  induction k, h using Int.leInduction with
  | base => omega
  | succ k _ ih =>
      have hsucc := start_succ k
      omega

theorem days_apart {d e : ℤ} (h : d ≤ e) :
    (month_of e - month_of d - 1) * 28 ≤ e - d ∧ e - d + 1 ≤ (month_of e - month_of d + 1) * 31 := by
  have hd := month_of_spec d
  have he := month_of_spec e
  have hmono := month_of_mono h
  constructor
  · by_cases hsame : month_of d = month_of e
    · rw [hsame]
      omega
    · have hdiff := (start_diff (j := month_of d + 1) (k := month_of e) (by omega)).1
      have hrw : month_of e - (month_of d + 1) = month_of e - month_of d - 1 := by omega
      rw [hrw] at hdiff
      omega
  · have hdiff := (start_diff (j := month_of d) (k := month_of e + 1) (by omega)).2
    have hrw : month_of e + 1 - month_of d = month_of e - month_of d + 1 := by omega
    rw [hrw] at hdiff
    omega

end AntaresBroker.Calendar
