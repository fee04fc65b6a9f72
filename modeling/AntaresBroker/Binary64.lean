import Mathlib.Tactic.Ring
import Mathlib.Tactic.NormNum
import Mathlib.Tactic.Linarith
import Mathlib.Algebra.Order.Field.Basic
import Mathlib.Algebra.Order.Field.Power
import Mathlib.Data.Rat.Cast.Order

namespace AntaresBroker.Binary64

/-- The finite binary64 magnitudes in increasing order are the bit patterns
below infinity: `scaled b` is the magnitude of pattern `b` in units of `2 ^ -unitExp`. -/
def scaled (b : Nat) : Nat :=
  if b / 2 ^ 52 = 0 then b % 2 ^ 52 else (2 ^ 52 + b % 2 ^ 52) * 2 ^ (b / 2 ^ 52 - 1)

def infBits : Nat := 2047 * 2 ^ 52

def unitExp : Nat := 1074

def unit : Nat := 2 ^ unitExp

theorem unit_pos : 0 < unit := Nat.two_pow_pos _

theorem scaled_lt_succ (b : Nat) : scaled b < scaled (b + 1) := by
  have hm := Nat.mod_lt b (show 0 < 2 ^ 52 by norm_num)
  have hb := Nat.div_add_mod b (2 ^ 52)
  by_cases hc : b % 2 ^ 52 + 1 = 2 ^ 52
  · have hd : (b + 1) / 2 ^ 52 = b / 2 ^ 52 + 1 := by omega
    have hr : (b + 1) % 2 ^ 52 = 0 := by omega
    rw [scaled, scaled, hd, hr, if_neg (Nat.succ_ne_zero _), Nat.add_sub_cancel]
    split_ifs with h
    · rw [h, pow_zero]; omega
    · obtain ⟨e, he⟩ := Nat.exists_eq_succ_of_ne_zero h
      rw [he, Nat.succ_sub_one, pow_succ]
      have hpos := Nat.two_pow_pos e
      have hlt : (2 ^ 52 + b % 2 ^ 52) * 2 ^ e < (2 ^ 52 + 0) * 2 * 2 ^ e :=
        Nat.mul_lt_mul_of_pos_right (by omega) hpos
      calc (2 ^ 52 + b % 2 ^ 52) * 2 ^ e < (2 ^ 52 + 0) * 2 * 2 ^ e := hlt
        _ = (2 ^ 52 + 0) * (2 ^ e * 2) := by ring
  · have hd : (b + 1) / 2 ^ 52 = b / 2 ^ 52 := by omega
    have hr : (b + 1) % 2 ^ 52 = b % 2 ^ 52 + 1 := by omega
    rw [scaled, scaled, hd, hr]
    split_ifs with h
    · omega
    · exact Nat.mul_lt_mul_of_pos_right (by omega) (Nat.two_pow_pos _)

theorem scaled_strictMono : StrictMono scaled := strictMono_nat_of_lt_succ scaled_lt_succ

theorem scaled_le_iff {b c : Nat} : scaled b ≤ scaled c ↔ b ≤ c := scaled_strictMono.le_iff_le

/-- Bitwise search for the largest number a downward closed test accepts. -/
def greatest (p : Nat → Bool) : Nat → Nat → Nat
  | 0, acc => acc
  | i + 1, acc => if p (acc + 2 ^ i) then greatest p i (acc + 2 ^ i) else greatest p i acc

theorem greatest_spec {p : Nat → Bool} (hp : ∀ b c, b ≤ c → p c = true → p b = true)
    (i acc : Nat) (ha : p acc = true) (hi : ∀ b, acc + 2 ^ i ≤ b → p b = false) :
    p (greatest p i acc) = true ∧ ∀ b, p b = true → b ≤ greatest p i acc := by
  induction i generalizing acc with
  | zero =>
      refine ⟨ha, fun b hb => ?_⟩
      by_contra h
      have := hi b (by rw [pow_zero]; exact Nat.lt_of_not_le h)
      simp [hb] at this
  | succ i ih =>
      rw [greatest]
      split_ifs with h
      · exact ih _ h (fun b hb => hi b (by rw [pow_succ]; omega))
      · refine ih _ ha (fun b hb => ?_)
        by_contra hb'
        exact h (hp _ _ hb (by simpa using hb'))

/-- The largest pattern, infinity included, whose magnitude is at most `num / den`. -/
def below (num den : Nat) : Nat :=
  greatest (fun b => decide (b ≤ infBits ∧ scaled b * den ≤ num * unit)) 63 0

theorem below_spec (num den : Nat) :
    (below num den ≤ infBits ∧ scaled (below num den) * den ≤ num * unit) ∧
      ∀ b, b ≤ infBits → scaled b * den ≤ num * unit → b ≤ below num den := by
  have h := greatest_spec
    (p := fun b => decide (b ≤ infBits ∧ scaled b * den ≤ num * unit))
    (fun b c hbc hc => by
      obtain ⟨hi, hs⟩ := of_decide_eq_true hc
      exact decide_eq_true ⟨hbc.trans hi, (Nat.mul_le_mul_right den (scaled_le_iff.mpr hbc)).trans hs⟩)
    63 0 (by simp [scaled]) (fun b hb => by
      have : ¬ b ≤ infBits := by unfold infBits; omega
      simp [this])
  exact ⟨of_decide_eq_true h.1, fun b hi hs => h.2 b (decide_eq_true ⟨hi, hs⟩)⟩

/-- The nearer of pattern `f` and its successor to twice the fraction
`twice / den` in units, ties to the even pattern. -/
def nearer (f twice den : Nat) : Nat :=
  if f = infBits then infBits
  else if twice < (scaled f + scaled (f + 1)) * den then f
  else if (scaled f + scaled (f + 1)) * den < twice then f + 1
  else if f % 2 = 0 then f else f + 1

/-- Round to nearest; the pattern past the largest finite one is infinity. -/
def round (num den : Nat) : Nat := nearer (below num den) (2 * num * unit) den

theorem below_le_round (num den : Nat) : below num den ≤ round num den := by
  unfold round nearer
  split_ifs <;> omega

theorem round_le_succ_below (num den : Nat) : round num den ≤ below num den + 1 := by
  unfold round nearer
  split_ifs <;> omega

theorem round_le_infBits (num den : Nat) : round num den ≤ infBits := by
  have h := (below_spec num den).1.1
  unfold round nearer
  split_ifs <;> omega

theorem below_mono {n d n' d' : Nat} (hd : 0 < d) (h : n * d' ≤ n' * d) :
    below n d ≤ below n' d' := by
  obtain ⟨⟨hi, hs⟩, _⟩ := below_spec n d
  refine (below_spec n' d').2 _ hi ?_
  refine Nat.le_of_mul_le_mul_right ?_ hd
  calc scaled (below n d) * d' * d = scaled (below n d) * d * d' := by ring
    _ ≤ n * unit * d' := Nat.mul_le_mul_right _ hs
    _ = n * d' * unit := by ring
    _ ≤ n' * d * unit := Nat.mul_le_mul_right _ h
    _ = n' * unit * d := by ring

/-- Rounding preserves the order of fractions. -/
theorem round_mono {n d n' d' : Nat} (hd : 0 < d) (hd' : 0 < d') (h : n * d' ≤ n' * d) :
    round n d ≤ round n' d' := by
  rcases (below_mono hd h).lt_or_eq with hlt | heq
  · exact (round_le_succ_below n d).trans (hlt.trans_le (below_le_round n' d'))
  · rw [round, round, heq, nearer, nearer]
    generalize scaled (below n' d') + scaled (below n' d' + 1) = s
    have hcross : 2 * n * unit * d' ≤ 2 * n' * unit * d := by
      calc 2 * n * unit * d' = n * d' * (2 * unit) := by ring
        _ ≤ n' * d * (2 * unit) := Nat.mul_le_mul_right _ h
        _ = 2 * n' * unit * d := by ring
    by_cases hf : below n' d' = infBits
    · rw [if_pos hf, if_pos hf]
    · rw [if_neg hf, if_neg hf]
      have hlow : 2 * n' * unit < s * d' → 2 * n * unit < s * d := fun hl => by
        refine Nat.lt_of_mul_lt_mul_right (a := d') ?_
        calc 2 * n * unit * d' ≤ 2 * n' * unit * d := hcross
          _ < s * d' * d := Nat.mul_lt_mul_of_pos_right hl hd
          _ = s * d * d' := by ring
      have hhigh : s * d < 2 * n * unit → s * d' < 2 * n' * unit := fun hg => by
        refine Nat.lt_of_mul_lt_mul_right (a := d) ?_
        calc s * d' * d = s * d * d' := by ring
          _ < 2 * n * unit * d' := Nat.mul_lt_mul_of_pos_right hg hd'
          _ ≤ 2 * n' * unit * d := hcross
      split_ifs <;> omega

theorem below_exact {b : Nat} (hb : b ≤ infBits) : below (scaled b) (unit) = b := by
  obtain ⟨⟨_, hs⟩, hmax⟩ := below_spec (scaled b) (unit)
  refine le_antisymm ?_ (hmax b hb le_rfl)
  exact scaled_le_iff.mp (Nat.le_of_mul_le_mul_right hs unit_pos)

/-- A magnitude the format has is its own rounding. -/
theorem round_exact {b : Nat} (hb : b ≤ infBits) : round (scaled b) (unit) = b := by
  unfold round nearer
  rw [below_exact hb]
  have h := scaled_lt_succ b
  split_ifs with hi h1 h2 h3
  · exact hi.symm
  · rfl
  · exfalso
    have := Nat.lt_of_mul_lt_mul_right (a := unit) h2
    omega
  · rfl
  · exfalso
    have := Nat.le_of_mul_le_mul_right (Nat.not_lt.mp h1) unit_pos
    omega

theorem round_congr {n d n' d' : Nat} (hd : 0 < d) (hd' : 0 < d') (h : n * d' = n' * d) :
    round n d = round n' d' :=
  le_antisymm (round_mono hd hd' h.le) (round_mono hd' hd h.ge)

/-- Every integer below 2^53 is a magnitude of the format. -/
theorem exists_scaled_eq {z : Nat} (hz : z < 2 ^ 53) : ∃ b, b < infBits ∧ scaled b = z * unit := by
  by_cases h0 : z = 0
  · exact ⟨0, by norm_num [infBits], by simp [scaled, h0]⟩
  · obtain ⟨k, hk⟩ : ∃ k, k = Nat.log2 z := ⟨_, rfl⟩
    have hlo : 2 ^ k ≤ z := hk ▸ Nat.log2_self_le h0
    have hhi : z < 2 ^ (k + 1) := hk ▸ Nat.lt_log2_self
    have hk52 : k ≤ 52 := by
      have : 2 ^ k < 2 ^ 53 := hlo.trans_lt hz
      have := (Nat.pow_lt_pow_iff_right (by norm_num)).mp this
      omega
    have hm1 : 2 ^ 52 ≤ z * 2 ^ (52 - k) := by
      calc 2 ^ 52 = 2 ^ k * 2 ^ (52 - k) := by rw [← pow_add]; congr 1; omega
        _ ≤ z * 2 ^ (52 - k) := Nat.mul_le_mul_right _ hlo
    have hm2 : z * 2 ^ (52 - k) < 2 ^ 53 := by
      calc z * 2 ^ (52 - k) < 2 ^ (k + 1) * 2 ^ (52 - k) := Nat.mul_lt_mul_of_pos_right hhi (Nat.two_pow_pos _)
        _ = 2 ^ 53 := by rw [← pow_add]; congr 1; omega
    generalize hm : z * 2 ^ (52 - k) = m at hm1 hm2
    refine ⟨(k + 1023) * 2 ^ 52 + (m - 2 ^ 52), by unfold infBits; omega, ?_⟩
    have hd : ((k + 1023) * 2 ^ 52 + (m - 2 ^ 52)) / 2 ^ 52 = k + 1023 := by omega
    have hr : ((k + 1023) * 2 ^ 52 + (m - 2 ^ 52)) % 2 ^ 52 = m - 2 ^ 52 := by omega
    rw [scaled, hd, hr, if_neg (Nat.succ_ne_zero _), Nat.add_sub_cancel' hm1, ← hm, mul_assoc, ← pow_add,
      unit, show 52 - k + (k + 1023 - 1) = unitExp by unfold unitExp; omega]

end AntaresBroker.Binary64
