import AntaresBroker.Binary64
import Mathlib.Tactic.FieldSimp
import Mathlib.Tactic.Positivity

namespace AntaresBroker.Number

open Binary64

/-- A signed decimal, `digits · 10 ^ exp`. -/
structure Decimal where
  neg : Bool
  digits : Nat
  exp : Int
deriving DecidableEq

def num (d : Decimal) : Nat := d.digits * 10 ^ d.exp.toNat

def den (d : Decimal) : Nat := 10 ^ (-d.exp).toNat

def magnitude (d : Decimal) : ℚ := d.digits * (10 : ℚ) ^ d.exp

def toRat (d : Decimal) : ℚ := if d.neg then -magnitude d else magnitude d

/-- A binary64 number other than NaN: a sign and a magnitude pattern. -/
structure F64 where
  neg : Bool
  mag : Nat
  bounded : mag ≤ infBits
deriving DecidableEq

def is_finite (x : F64) : Prop := x.mag < infBits

instance (x : F64) : Decidable (is_finite x) := inferInstanceAs (Decidable (_ < _))

/-- The position of a number on the line; both zeros stand at 0. -/
def key (x : F64) : Int := if x.neg then -(x.mag : Int) else x.mag

def ofDecimal (d : Decimal) : F64 := ⟨d.neg, round (num d) (den d), round_le_infBits _ _⟩

theorem den_pos (d : Decimal) : 0 < den d := Nat.pow_pos (by norm_num)

theorem magnitude_eq (d : Decimal) : magnitude d = (num d : ℚ) / den d := by
  unfold magnitude num den
  rcases le_total 0 d.exp with h | h
  · obtain ⟨n, hn⟩ := Int.eq_ofNat_of_zero_le h
    rw [hn]; simp
  · obtain ⟨n, hn⟩ := Int.eq_ofNat_of_zero_le (Int.neg_nonneg_of_nonpos h)
    rw [show d.exp = -(n : Int) by omega]
    simp [div_eq_mul_inv]

theorem magnitude_nonneg (d : Decimal) : 0 ≤ magnitude d := by unfold magnitude; positivity

theorem num_mul_den_le {d e : Decimal} (h : magnitude d ≤ magnitude e) : num d * den e ≤ num e * den d := by
  have hd : (0 : ℚ) < den d := by exact_mod_cast den_pos d
  have he : (0 : ℚ) < den e := by exact_mod_cast den_pos e
  rw [magnitude_eq, magnitude_eq, div_le_div_iff₀ hd he] at h
  exact_mod_cast h

@[simp] theorem ofDecimal_neg (d : Decimal) : (ofDecimal d).neg = d.neg := rfl

@[simp] theorem ofDecimal_mag (d : Decimal) : (ofDecimal d).mag = round (num d) (den d) := by rw [ofDecimal]

theorem mag_mono {d e : Decimal} (h : magnitude d ≤ magnitude e) :
    (ofDecimal d).mag ≤ (ofDecimal e).mag := by
  rw [ofDecimal_mag, ofDecimal_mag]
  exact round_mono (den_pos d) (den_pos e) (num_mul_den_le h)

theorem mag_congr {d e : Decimal} (h : magnitude d = magnitude e) : (ofDecimal d).mag = (ofDecimal e).mag :=
  le_antisymm (mag_mono h.le) (mag_mono h.ge)

theorem mag_eq_zero {d : Decimal} (h : magnitude d = 0) : (ofDecimal d).mag = 0 := by
  have hz : magnitude d = magnitude ⟨false, 0, 0⟩ := by rw [h]; simp [magnitude]
  rw [mag_congr hz, ofDecimal_mag]
  have hs : scaled 0 = 0 := by simp [scaled]
  calc round (num ⟨false, 0, 0⟩) (den ⟨false, 0, 0⟩)
      = round (scaled 0) unit := round_congr (den_pos _) unit_pos (by simp [num, hs])
    _ = 0 := round_exact (Nat.zero_le infBits)

/-- Reading a decimal into binary64 preserves its order. -/
theorem key_mono {d e : Decimal} (h : toRat d ≤ toRat e) : key (ofDecimal d) ≤ key (ofDecimal e) := by
  have hd := magnitude_nonneg d
  have he := magnitude_nonneg e
  unfold toRat at h
  rw [key, key, ofDecimal_neg, ofDecimal_neg]
  by_cases nd : d.neg
  · by_cases ne : e.neg
    · rw [if_pos nd, if_pos ne] at h ⊢
      have := mag_mono (neg_le_neg_iff.mp h)
      omega
    · rw [if_pos nd, if_neg ne]; omega
  · by_cases ne : e.neg
    · rw [if_neg nd, if_pos ne] at h ⊢
      have hd0 : magnitude d = 0 := by linarith
      have he0 : magnitude e = 0 := by linarith
      rw [mag_eq_zero hd0, mag_eq_zero he0]
      omega
    · rw [if_neg nd, if_neg ne] at h ⊢
      have := mag_mono h
      omega

theorem F64.ext_mag {x y : F64} (hn : x.neg = y.neg) (hm : x.mag = y.mag) : x = y := by
  cases x; cases y; simp_all

/-- The multiples of `10 ^ p` on both sides of a magnitude, the nearer first. -/
def neighbours (b : Nat) (p : Int) : List Nat :=
  let n := scaled b * 10 ^ (-p).toNat
  let d := unit * 10 ^ p.toNat
  if 2 * (n % d) < d then [n / d, n / d + 1] else [n / d + 1, n / d]

def reads_back (b : Nat) (d : Decimal) : Bool := round (num d) (den d) = b

def at_exp (neg : Bool) (b : Nat) (i : Nat) : Option Decimal :=
  ((neighbours b (308 - i)).map (fun m => ⟨neg, m, 308 - i⟩)).find? (reads_back b)

def exact (neg : Bool) (b : Nat) : Decimal := ⟨neg, scaled b * 5 ^ unitExp, -unitExp⟩

/-- The coarsest multiple of a power of ten that reads back as the magnitude,
and the exact value of the magnitude if none of those tried does. -/
def coarsest (neg : Bool) (b : Nat) : Decimal :=
  ((List.range 640).findSome? (at_exp neg b)).getD (exact neg b)

/-- The shortest decimal that reads back as a number; an integer below 2^53 is
its own digits. -/
def shortest (x : F64) : Decimal :=
  if scaled x.mag % unit = 0 ∧ scaled x.mag / unit < 2 ^ 53 then ⟨x.neg, scaled x.mag / unit, 0⟩
  else coarsest x.neg x.mag

theorem round_exact_decimal (neg : Bool) {b : Nat} (hb : b ≤ infBits) :
    round (num (exact neg b)) (den (exact neg b)) = b := by
  refine Eq.trans (round_congr (den_pos _) unit_pos ?_) (round_exact hb)
  have hu : (10 : Nat) ^ unitExp = 5 ^ unitExp * unit := by
    rw [unit, ← mul_pow, show 5 * 2 = 10 from rfl]
  simp only [num, den, exact, neg_neg, Int.toNat_natCast, Int.toNat_neg_natCast, pow_zero, mul_one]
  rw [hu]
  ring

theorem coarsest_spec (neg : Bool) {b : Nat} (hb : b ≤ infBits) :
    (coarsest neg b).neg = neg ∧ round (num (coarsest neg b)) (den (coarsest neg b)) = b := by
  unfold coarsest
  cases h : (List.range 640).findSome? (at_exp neg b) with
  | none => exact ⟨rfl, round_exact_decimal neg hb⟩
  | some d =>
      obtain ⟨i, -, hi⟩ := List.exists_of_findSome?_eq_some h
      obtain ⟨m, -, hm⟩ := List.mem_map.mp (List.mem_of_find?_eq_some hi)
      refine ⟨hm ▸ rfl, ?_⟩
      simpa [reads_back] using List.find?_some hi

theorem shortest_neg (x : F64) : (shortest x).neg = x.neg := by
  unfold shortest
  split_ifs
  · rfl
  · exact (coarsest_spec _ x.bounded).1

/-- The shortest decimal of a number reads back as the number. -/
theorem ofDecimal_shortest (x : F64) : ofDecimal (shortest x) = x := by
  refine F64.ext_mag ?_ ?_
  · rw [ofDecimal_neg, shortest_neg]
  · rw [ofDecimal_mag]
    unfold shortest
    split_ifs with h
    · refine Eq.trans (round_congr (den_pos _) unit_pos ?_) (round_exact x.bounded)
      have hdiv := Nat.div_add_mod (scaled x.mag) unit
      simp only [num, den, Int.neg_zero, Int.toNat_zero, pow_zero, mul_one]
      rw [h.1] at hdiv
      linarith
    · exact (coarsest_spec x.neg x.bounded).2

theorem shortest_of_mag_eq_zero {x : F64} (h : x.mag = 0) : shortest x = ⟨x.neg, 0, 0⟩ := by
  have hs : scaled 0 = 0 := by simp [scaled]
  simp [shortest, h, hs]

/-- Numbers compare as their shortest decimals do. -/
theorem key_le_iff (x y : F64) : key x ≤ key y ↔ toRat (shortest x) ≤ toRat (shortest y) := by
  constructor
  · intro h
    by_contra hn
    have hle := key_mono (not_le.mp hn).le
    rw [ofDecimal_shortest, ofDecimal_shortest] at hle
    have heq : key x = key y := le_antisymm h hle
    have hcase : x = y ∨ (x.mag = 0 ∧ y.mag = 0) := by
      unfold key at heq
      by_cases hx : x.neg <;> by_cases hy : y.neg <;> simp only [hx, hy] at heq
      · exact Or.inl (F64.ext_mag (by rw [hx, hy]) (by simp at heq; exact heq))
      · right; simp at heq; omega
      · right; simp at heq; omega
      · exact Or.inl (F64.ext_mag (by simp [hx, hy]) (by simp at heq; exact heq))
    rcases hcase with rfl | ⟨hx, hy⟩
    · exact hn le_rfl
    · rw [shortest_of_mag_eq_zero hx, shortest_of_mag_eq_zero hy] at hn
      simp [toRat, magnitude] at hn
  · intro h
    have hle := key_mono h
    rwa [ofDecimal_shortest, ofDecimal_shortest] at hle

def integer (neg : Bool) (z : Nat) : Decimal := ⟨neg, z, 0⟩

@[simp] theorem integer_neg (neg : Bool) (z : Nat) : (integer neg z).neg = neg := rfl

theorem magnitude_integer (neg : Bool) (z : Nat) : magnitude (integer neg z) = z := by
  simp [magnitude, integer]

/-- The first integer past which binary64 has gaps. -/
def two53 : F64 := ofDecimal (integer false (2 ^ 53))

theorem shortest_integer {neg : Bool} {z : Nat} (hz : z < 2 ^ 53) :
    shortest (ofDecimal (integer neg z)) = integer neg z := by
  obtain ⟨b, hb, hs⟩ := exists_scaled_eq hz
  have hmag : (ofDecimal (integer neg z)).mag = b := by
    rw [ofDecimal_mag]
    refine Eq.trans (round_congr (den_pos _) unit_pos ?_) (round_exact hb.le)
    simp [num, den, integer, hs]
  have hpos := unit_pos
  rw [shortest, hmag, hs, if_pos ⟨Nat.mul_mod_left _ _, by rwa [Nat.mul_div_cancel _ hpos]⟩,
    Nat.mul_div_cancel _ hpos]
  rfl

theorem magnitude_shortest_lt {n : F64} (hn : n.mag < two53.mag) : magnitude (shortest n) < 2 ^ 53 := by
  by_contra h
  have hle : magnitude (integer false (2 ^ 53)) ≤ magnitude (shortest n) := by
    rw [magnitude_integer]
    exact_mod_cast not_lt.mp h
  have := mag_mono hle
  rw [ofDecimal_shortest] at this
  exact absurd hn (not_lt.mpr this)

theorem two53_mag_le {neg : Bool} {z : Nat} (hz : 2 ^ 53 ≤ z) :
    two53.mag ≤ (ofDecimal (integer neg z)).mag := by
  refine mag_mono ?_
  rw [magnitude_integer, magnitude_integer]
  exact_mod_cast hz

/-- An exact integer compares with a number below 2^53 as its binary64 reading does. -/
theorem integer_le_iff {n : F64} (hn : n.mag < two53.mag) (neg : Bool) (z : Nat) :
    (toRat (integer neg z) ≤ toRat (shortest n) ↔ key (ofDecimal (integer neg z)) ≤ key n) ∧
      (toRat (shortest n) ≤ toRat (integer neg z) ↔ key n ≤ key (ofDecimal (integer neg z))) := by
  by_cases hz : z < 2 ^ 53
  · rw [key_le_iff, key_le_iff, shortest_integer hz]
    exact ⟨Iff.rfl, Iff.rfl⟩
  · have hmag : two53.mag ≤ (ofDecimal (integer neg z)).mag := two53_mag_le (not_lt.mp hz)
    have hsmall := magnitude_shortest_lt hn
    have hnonneg := magnitude_nonneg (shortest n)
    have hbig : (2 ^ 53 : ℚ) ≤ z := by exact_mod_cast not_lt.mp hz
    have hm := magnitude_integer neg z
    generalize hr : magnitude (shortest n) = r at hsmall hnonneg
    have hrat : toRat (shortest n) = if n.neg then -r else r := by
      rw [toRat, shortest_neg, hr]
    have hkey : key n = if n.neg then -(n.mag : Int) else n.mag := rfl
    cases neg with
    | true =>
        have hz' : toRat (integer true z) = -(z : ℚ) := by
          rw [toRat, hm, integer_neg]; rfl
        have hk : key (ofDecimal (integer true z)) = -((ofDecimal (integer true z)).mag : Int) := by
          rw [key, ofDecimal_neg, integer_neg, if_pos rfl]
        rw [hz', hk, hrat, hkey]
        constructor
        · refine iff_of_true ?_ ?_
          · split_ifs <;> linarith
          · split_ifs <;> omega
        · refine iff_of_false ?_ ?_
          · split_ifs <;> linarith
          · split_ifs <;> omega
    | false =>
        have hz' : toRat (integer false z) = (z : ℚ) := by
          rw [toRat, hm, integer_neg]; rfl
        have hk : key (ofDecimal (integer false z)) = ((ofDecimal (integer false z)).mag : Int) := by
          rw [key, ofDecimal_neg, integer_neg, if_neg Bool.false_ne_true]
        rw [hz', hk, hrat, hkey]
        constructor
        · refine iff_of_false ?_ ?_
          · split_ifs <;> linarith
          · split_ifs <;> omega
        · refine iff_of_true ?_ ?_
          · split_ifs <;> linarith
          · split_ifs <;> omega

end AntaresBroker.Number
