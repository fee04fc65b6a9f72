import Mathlib
import AntaresBroker.Aggregation

namespace AntaresBroker.Aggregation

open Calendar

section Gregorian

def FIRST : ℤ := -262143 * 12 - 2

def LAST : ℤ := 262143 * 12 - 2

/-- Nanoseconds from March of the year 0, within the years that the library can represent. -/
abbrev Instant := { n : ℤ // start FIRST * DAY ≤ n ∧ n < start LAST * DAY }

def instant (n : ℤ) : Option Instant := if h : start FIRST * DAY ≤ n ∧ n < start LAST * DAY then some ⟨n, h⟩ else none

theorem instant_eq_some {n : ℤ} {a : Instant} : instant n = some a ↔ a.val = n := by
  unfold instant
  split_ifs with h
  · rw [Option.some_inj, Subtype.ext_iff, eq_comm]
  · constructor
    · intro hnone
      cases hnone
    · rintro rfl
      exact absurd a.property h

theorem instant_isSome {n : ℤ} : (instant n).isSome = true ↔ start FIRST * DAY ≤ n ∧ n < start LAST * DAY := by
  unfold instant
  split_ifs with h
  · simp only [Option.isSome_some, true_iff]
    exact h
  · simp only [Option.isSome_none, Bool.false_eq_true, false_iff]
    exact h

/-- The month that holds an instant, counted from the January of the year 0. -/
def month_at (n : ℤ) : ℤ := month_of (n / DAY) + 2

/-- The same day and time of another month. -/
def months_later (n k : ℤ) : ℤ := shift (n / DAY) k * DAY + n % DAY

theorem month_at_spec (n : ℤ) : start (month_at n - 2) * DAY ≤ n ∧ n < start (month_at n - 1) * DAY := by
  obtain ⟨hlow, hhigh⟩ := month_of_spec (n / DAY)
  have hprev : month_at n - 2 = month_of (n / DAY) := by unfold month_at; omega
  have hnext : month_at n - 1 = month_of (n / DAY) + 1 := by unfold month_at; omega
  rw [hprev, hnext]
  rw [DAY, SECOND] at *
  omega

theorem month_at_eq {n k : ℤ} (h : start (k - 2) * DAY ≤ n) (h' : n < start (k - 1) * DAY) : month_at n = k := by
  have hmonth : month_of (n / DAY) = k - 2 := by
    have hnext : k - 2 + 1 = k - 1 := by omega
    apply month_of_eq
    · rw [DAY, SECOND] at *
      omega
    · rw [hnext]
      rw [DAY, SECOND] at *
      omega
  rw [month_at, hmonth, sub_add_cancel]

theorem month_at_mono {m n : ℤ} (h : m ≤ n) : month_at m ≤ month_at n :=
  Int.add_le_add_right (month_of_mono (Int.ediv_le_ediv (by decide) h)) 2

theorem month_at_months_later (n k : ℤ) : month_at (months_later n k) = month_at n + k := by
  have hday : months_later n k / DAY = shift (n / DAY) k := by
    unfold months_later
    rw [DAY, SECOND]
    omega
  rw [month_at, hday, month_of_shift, month_at]
  omega

theorem month_at_apart {m n : ℤ} (h : m ≤ n) : (month_at n - month_at m - 1) * (28 * DAY) ≤ n - m ∧
    n - m ≤ (month_at n - month_at m + 1) * (31 * DAY) := by
  have hm := month_at_spec m
  have hn := month_at_spec n
  have hmono := month_at_mono h
  constructor
  · by_cases hsame : month_at m = month_at n
    · rw [hsame, DAY, SECOND]
      omega
    · have hdiff := (start_diff (j := month_at m - 1) (k := month_at n - 2) (by omega)).1
      rw [DAY, SECOND] at *
      omega
  · have hdiff := (start_diff (j := month_at m - 2) (k := month_at n - 1) (by omega)).2
    rw [DAY, SECOND] at *
    omega

/-- The months of the representable years are those between the first and the last of them. -/
theorem within_iff {n : ℤ} : (start FIRST * DAY ≤ n ∧ n < start LAST * DAY) ↔ FIRST + 2 ≤ month_at n ∧ month_at n < LAST + 2 := by
  obtain ⟨hlow, hhigh⟩ := month_at_spec n
  constructor
  · rintro ⟨hfirst, hlast⟩
    have hafter : start FIRST < start (month_at n - 1) := by
      rw [DAY, SECOND] at *
      omega
    have hbefore : start (month_at n - 2) < start LAST := by
      rw [DAY, SECOND] at *
      omega
    have hfirst' := start_strictMono.lt_iff_lt.mp hafter
    have hlast' := start_strictMono.lt_iff_lt.mp hbefore
    omega
  · rintro ⟨hfirst, hlast⟩
    have hafter := start_strictMono.monotone (by omega : FIRST ≤ month_at n - 2)
    have hbefore := start_strictMono.monotone (by omega : month_at n - 1 ≤ LAST)
    rw [DAY, SECOND] at *
    omega

theorem month_at_start (k : ℤ) : month_at (start k * DAY) = k + 2 := by
  have hnext := start_strictMono (lt_add_one k)
  have hsum : k + 2 - 1 = k + 1 := by omega
  apply month_at_eq
  · rw [add_sub_cancel_right]
  · rw [hsum]
    rw [DAY, SECOND] at *
    omega

theorem month_at_end (k : ℤ) : month_at (start k * DAY - 1) = k + 1 := by
  have hprev := start_strictMono (sub_one_lt k)
  have hdiff : k + 1 - 2 = k - 1 := by omega
  apply month_at_eq
  · rw [hdiff]
    rw [DAY, SECOND] at *
    omega
  · rw [add_sub_cancel_right]
    omega

/-- The calendar without leap seconds, for what a parser reads as dates of four-digit years. -/
def gregorian (parse : String → Option Instant) (hparse : ∀ {s a}, parse s = some a → 0 ≤ month_at a.val ∧ month_at a.val < 120000) :
    Chrono Instant where
  parse_from_rfc3339 := parse
  leap _ := False
  nanos a := a.val
  month a := month_at a.val
  MIN_UTC := ⟨start FIRST * DAY, by rw [within_iff, month_at_start]; decide⟩
  MAX_UTC := ⟨start LAST * DAY - 1, by rw [within_iff, month_at_end]; decide⟩
  checked_add_seconds a s := instant (a.val + s * SECOND)
  checked_add_months a k := instant (months_later a.val k)
  le_iff _ _ := Iff.rfl
  min_le a := a.property.1
  le_max a := Int.le_sub_one_of_lt a.property.2
  month_mono := month_at_mono
  apart _ _ := month_at_apart
  wide := by
    rw [month_at_start, month_at_end]
    decide
  proper := ⟨not_false, not_false⟩
  add_seconds _ h := ⟨not_false, instant_eq_some.mp h⟩
  add_seconds_isSome {a s} _ := by
    rw [instant_isSome]
    dsimp only
    omega
  add_months {a b n} _ h := ⟨not_false, by rw [instant_eq_some.mp h, month_at_months_later]⟩
  add_months_isSome {a n} _ hlow hhigh := by
    rw [month_at_start] at hlow
    rw [month_at_end] at hhigh
    rw [instant_isSome, within_iff, month_at_months_later]
    omega
  four_digits := hparse

end Gregorian

end AntaresBroker.Aggregation
