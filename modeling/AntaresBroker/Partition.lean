import AntaresBroker.Gregorian

namespace AntaresBroker.Aggregation

open Json Ql.Eval Registry Temporal

section Rows

variable {DateTime : Type} [LinearOrder DateTime]

/-- What the loop over the instants has made of those it has seen. -/
structure Grouped (bucket : DateTime → Bucket DateTime) (l : List (DateTime × Value))
    (rows : List (Bucket DateTime × List (DateTime × Value))) : Prop where
  flat : rows.flatMap Prod.snd = l
  rows_of : ∀ row ∈ rows, row.2 ≠ [] ∧ (∃ p ∈ row.2, row.1 = bucket p.1) ∧ ∀ p ∈ row.2, (bucket p.1).1 = row.1.1

variable {bucket : DateTime → Bucket DateTime} {l : List (DateTime × Value)} {rows : List (Bucket DateTime × List (DateTime × Value))}

theorem Grouped.push (h : Grouped bucket l rows) (p : DateTime × Value) :
    Grouped bucket (l ++ [p]) (push rows (bucket p.1, p)) := by
  have hnew : Grouped bucket (l ++ [p]) (rows ++ [(bucket p.1, [p])]) := by
    refine ⟨by rw [List.flatMap_append, h.flat]; rfl, fun row hrow => ?_⟩
    rcases List.mem_append.mp hrow with hrow | hrow
    · exact h.rows_of row hrow
    · rw [List.mem_singleton.mp hrow]
      refine ⟨List.cons_ne_nil _ _, ⟨p, List.mem_singleton.mpr rfl, rfl⟩, fun q hq => ?_⟩
      rw [List.mem_singleton.mp hq]
  rw [Aggregation.push]
  cases hlast : rows.getLast? with
  | none => exact hnew
  | some last =>
      obtain ⟨bb, vals⟩ := last
      dsimp only
      split_ifs with hsame
      · obtain ⟨init, rfl⟩ := List.getLast?_eq_some_iff.mp hlast
        obtain ⟨hne, ⟨q, hq, hbb⟩, hall⟩ := h.rows_of (bb, vals) (List.mem_append_right _ (List.mem_singleton.mpr rfl))
        rw [List.dropLast_concat]
        constructor
        · have hflat := h.flat
          rw [List.flatMap_append, List.flatMap_singleton] at hflat ⊢
          rw [← hflat, List.append_assoc]
        · intro row hrow
          rcases List.mem_append.mp hrow with hrow | hrow
          · exact h.rows_of row (List.mem_append_left _ hrow)
          · rw [List.mem_singleton.mp hrow]
            refine ⟨by simp, ⟨q, List.mem_append_left _ hq, hbb⟩, fun r hr => ?_⟩
            rcases List.mem_append.mp hr with hr | hr
            · exact hall r hr
            · rw [List.mem_singleton.mp hr]
              exact hsame.symm
      · exact hnew

variable (bucket) in
theorem grouped_foldl (l : List (DateTime × Value)) :
    Grouped bucket l ((l.map (fun p => (bucket p.1, p))).foldl Aggregation.push []) := by
  induction l using List.reverseRecOn with
  | nil => exact ⟨rfl, List.forall_mem_nil _⟩
  | append_singleton l p ih =>
      rw [List.map_append, List.foldl_append]
      exact ih.push p

omit [LinearOrder DateTime] in
theorem Grouped.mem (h : Grouped bucket l rows) {row : Bucket DateTime × List (DateTime × Value)} (hrow : row ∈ rows)
    {p : DateTime × Value} (hp : p ∈ row.2) : p ∈ l :=
  h.flat ▸ List.mem_flatMap.mpr ⟨row, hrow, hp⟩

/-- Where no later instant is in an earlier bucket, no bucket comes twice. -/
theorem starts_foldl (hl : l.Pairwise (fun p q => (bucket p.1).1 ≤ (bucket q.1).1)) :
    ((l.map (fun p => (bucket p.1, p))).foldl Aggregation.push []).Pairwise (fun r s => r.1.1 < s.1.1) := by
  induction l using List.reverseRecOn with
  | nil => exact List.Pairwise.nil
  | append_singleton l p ih =>
      obtain ⟨hinit, -, hlater⟩ := List.pairwise_append.mp hl
      have hrows := ih hinit
      have hgroup := grouped_foldl bucket l
      rw [List.map_append, List.foldl_append]
      generalize (l.map (fun p => (bucket p.1, p))).foldl Aggregation.push [] = rows at hrows hgroup
      have hle : ∀ row ∈ rows, row.1.1 ≤ (bucket p.1).1 := by
        intro row hrow
        obtain ⟨-, ⟨q, hq, heq⟩, -⟩ := hgroup.rows_of row hrow
        rw [heq]
        exact hlater q (hgroup.mem hrow hq) p (List.mem_singleton.mpr rfl)
      rw [List.map_singleton, List.foldl_cons, List.foldl_nil, Aggregation.push]
      cases hlast : rows.getLast? with
      | none =>
          rw [List.getLast?_eq_none_iff.mp hlast]
          exact List.pairwise_singleton _ _
      | some last =>
          obtain ⟨init, rfl⟩ := List.getLast?_eq_some_iff.mp hlast
          obtain ⟨bb, vals⟩ := last
          obtain ⟨hpre, -, hto⟩ := List.pairwise_append.mp hrows
          dsimp only
          split_ifs with hsame
          · rw [List.dropLast_concat]
            refine List.pairwise_append.mpr ⟨hpre, List.pairwise_singleton _ _, fun r hr s hs => ?_⟩
            rw [List.mem_singleton.mp hs]
            exact hto r hr (bb, vals) (List.mem_singleton.mpr rfl)
          · refine List.pairwise_append.mpr ⟨hrows, List.pairwise_singleton _ _, fun r hr s hs => ?_⟩
            have hlt : bb.1 < (bucket p.1).1 :=
              lt_of_le_of_ne (hle (bb, vals) (List.mem_append_right _ (List.mem_singleton.mpr rfl))) hsame
            rw [List.mem_singleton.mp hs]
            rcases List.mem_append.mp hr with hr | hr
            · exact (hto r hr (bb, vals) (List.mem_singleton.mpr rfl)).trans hlt
            · rw [List.mem_singleton.mp hr]
              exact hlt

/-- Instants in buckets of their own that do not overlap. -/
structure Fitting (bucket : DateTime → Bucket DateTime) (l : List (DateTime × Value)) : Prop where
  within : ∀ p ∈ l, (bucket p.1).1 ≤ p.1 ∧ p.1 < (bucket p.1).2
  apart : ∀ p ∈ l, ∀ q ∈ l, (bucket p.1).1 < (bucket q.1).1 → (bucket p.1).2 ≤ (bucket q.1).1
  same : ∀ p ∈ l, ∀ q ∈ l, (bucket p.1).1 = (bucket q.1).1 → bucket p.1 = bucket q.1

theorem Fitting.mono (h : Fitting bucket l) {p q : DateTime × Value} (hp : p ∈ l) (hq : q ∈ l) (hle : p.1 ≤ q.1) :
    (bucket p.1).1 ≤ (bucket q.1).1 := by
  by_contra hlt
  have hover := h.apart q hq p hp (not_le.mp hlt)
  exact absurd ((h.within q hq).2.trans_le (hover.trans (h.within p hp).1)) hle.not_gt

theorem Fitting.partition (h : Fitting bucket l) (hl : l.Pairwise (fun p q => p.1 ≤ q.1)) :
    (∀ row ∈ (l.map (fun p => (bucket p.1, p))).foldl Aggregation.push [],
        row.2 ≠ [] ∧ ∀ p ∈ row.2, row.1.1 ≤ p.1 ∧ p.1 < row.1.2) ∧
      ((l.map (fun p => (bucket p.1, p))).foldl Aggregation.push []).Pairwise (fun r s => r.1.2 ≤ s.1.1) := by
  have hgroup := grouped_foldl bucket l
  have hstarts := starts_foldl (List.Pairwise.imp_of_mem (fun hp hq hle => h.mono hp hq hle) hl)
  generalize (l.map (fun p => (bucket p.1, p))).foldl Aggregation.push [] = rows at hgroup hstarts
  have hrow {row : Bucket DateTime × List (DateTime × Value)} (hr : row ∈ rows) {p : DateTime × Value} (hp : p ∈ row.2) :
      row.1 = bucket p.1 := by
    obtain ⟨-, ⟨q, hq, heq⟩, hall⟩ := hgroup.rows_of row hr
    rw [heq]
    exact h.same q (hgroup.mem hr hq) p (hgroup.mem hr hp) (by rw [← heq, hall p hp])
  constructor
  · intro row hr
    refine ⟨(hgroup.rows_of row hr).1, fun p hp => ?_⟩
    rw [hrow hr hp]
    exact h.within p (hgroup.mem hr hp)
  · refine hstarts.imp_of_mem fun {r s} hr hs hlt => ?_
    obtain ⟨-, ⟨p, hp, hpr⟩, -⟩ := hgroup.rows_of r hr
    obtain ⟨-, ⟨q, hq, hqs⟩, -⟩ := hgroup.rows_of s hs
    rw [hpr, hqs] at hlt ⊢
    exact h.apart p (hgroup.mem hr hp) q (hgroup.mem hs hq) hlt

end Rows

section TimeLine

variable {DateTime : Type} [LinearOrder DateTime] {chrono : Chrono DateTime}

theorem SECOND_eq : SECOND = 1000000000 := rfl

theorem DAY_eq : DAY = 86400000000000 := rfl

theorem lt_iff {a b : DateTime} (ha : ¬ chrono.leap a) (hb : ¬ chrono.leap b) : a < b ↔ chrono.nanos a < chrono.nanos b := by
  rw [← not_le, chrono.le_iff hb ha, not_le]

theorem nanos_inj {a b : DateTime} (ha : ¬ chrono.leap a) (hb : ¬ chrono.leap b) (h : chrono.nanos a = chrono.nanos b) : a = b :=
  le_antisymm ((chrono.le_iff ha hb).mpr h.le) ((chrono.le_iff hb ha).mpr h.ge)

/-- Around the years of four digits the calendar has room. -/
theorem room {b : DateTime} (hb : ¬ chrono.leap b) (hlow : -200000 ≤ chrono.month b) (hhigh : chrono.month b ≤ 200000) :
    chrono.nanos chrono.MIN_UTC + 80000 * DAY ≤ chrono.nanos b ∧ chrono.nanos b + 80000 * DAY ≤ chrono.nanos chrono.MAX_UTC := by
  have hwide := chrono.wide
  have hmin := (chrono.apart chrono.proper.1 hb (chrono.min_le b)).1
  have hmax := (chrono.apart hb chrono.proper.2 (chrono.le_max b)).1
  rw [DAY_eq] at *
  omega

/-- An instant of a year of four digits. -/
structure Dated (chrono : Chrono DateTime) (a : DateTime) : Prop where
  proper : ¬ chrono.leap a
  low : 0 ≤ chrono.month a
  high : chrono.month a < 120000

theorem Dated.room {a : DateTime} (h : Dated chrono a) :
    chrono.nanos chrono.MIN_UTC + 80000 * DAY ≤ chrono.nanos a ∧ chrono.nanos a + 80000 * DAY ≤ chrono.nanos chrono.MAX_UTC :=
  Aggregation.room h.proper (by have := h.low; omega) (by have := h.high; omega)

theorem Dated.apart {a b : DateTime} (ha : Dated chrono a) (hb : Dated chrono b) :
    chrono.nanos b - chrono.nanos a ≤ 120000 * (31 * DAY) := by
  have hlow := ha.low
  have hhigh := hb.high
  rcases le_total a b with h | h
  · have hdiff := (chrono.apart ha.proper hb.proper h).2
    rw [DAY_eq] at *
    omega
  · have hle := (chrono.le_iff hb.proper ha.proper).mp h
    rw [DAY_eq]
    omega

theorem add_seconds_of_range {a : DateTime} {s : ℤ} (ha : ¬ chrono.leap a)
    (hlow : chrono.nanos chrono.MIN_UTC ≤ chrono.nanos a + s * SECOND)
    (hhigh : chrono.nanos a + s * SECOND ≤ chrono.nanos chrono.MAX_UTC) :
    ∃ b, chrono.checked_add_seconds a s = some b ∧ ¬ chrono.leap b ∧ chrono.nanos b = chrono.nanos a + s * SECOND := by
  obtain ⟨b, hb⟩ := Option.isSome_iff_exists.mp ((chrono.add_seconds_isSome ha).mpr ⟨hlow, hhigh⟩)
  exact ⟨b, hb, chrono.add_seconds ha hb⟩

section Seconds

variable {anchor t : DateTime} {sc : ℕ}

/-- The whole seconds from the anchor, rounded toward it, in periods. -/
def idx (chrono : Chrono DateTime) (anchor t : DateTime) (sc : ℕ) : ℤ :=
  (chrono.nanos t - chrono.nanos anchor).tdiv SECOND / sc

theorem tdiv_bounds (n : ℤ) : (0 ≤ n → n.tdiv SECOND * SECOND ≤ n ∧ n < n.tdiv SECOND * SECOND + SECOND) ∧
    (n ≤ 0 → n ≤ n.tdiv SECOND * SECOND ∧ n.tdiv SECOND * SECOND < n + SECOND) := by
  rw [SECOND_eq]
  constructor
  · intro hn
    rw [Int.tdiv_eq_ediv_of_nonneg hn]
    omega
  · intro hn
    have hneg : n.tdiv 1000000000 = -(-n / 1000000000) := by
      rw [← Int.tdiv_eq_ediv_of_nonneg (by omega), Int.neg_tdiv, neg_neg]
    rw [hneg]
    omega

variable (chrono anchor t) in
theorem idx_bounds (hpos : 0 < sc) : idx chrono anchor t sc * sc ≤ (chrono.nanos t - chrono.nanos anchor).tdiv SECOND ∧
    (chrono.nanos t - chrono.nanos anchor).tdiv SECOND < idx chrono anchor t sc * sc + sc := by
  have hsc : (0 : ℤ) < sc := by exact_mod_cast hpos
  have hdiv := Int.mul_ediv_add_emod ((chrono.nanos t - chrono.nanos anchor).tdiv SECOND) sc
  have hmod := Int.emod_nonneg ((chrono.nanos t - chrono.nanos anchor).tdiv SECOND) hsc.ne'
  have hlt := Int.emod_lt_of_pos ((chrono.nanos t - chrono.nanos anchor).tdiv SECOND) hsc
  rw [idx, mul_comm]
  constructor <;> linarith

/-- The buckets of seconds are in the calendar. -/
theorem seconds_bucket_eq (ha : Dated chrono anchor) (ht : Dated chrono t) (hpos : 0 < sc) (hsc : sc ≤ 86400 * 366 * 100) :
    ∃ start stop, seconds_bucket chrono anchor sc t = (start, stop) ∧ ¬ chrono.leap start ∧ ¬ chrono.leap stop ∧
      chrono.nanos start = chrono.nanos anchor + idx chrono anchor t sc * sc * SECOND ∧
      chrono.nanos stop = chrono.nanos anchor + (idx chrono anchor t sc + 1) * sc * SECOND := by
  have hidx := idx_bounds chrono anchor t hpos
  have htdiv := tdiv_bounds (chrono.nanos t - chrono.nanos anchor)
  have hroom := ht.room
  have hfar := ha.apart ht
  have hnear := ht.apart ha
  have hsc' : (sc : ℤ) ≤ 86400 * 366 * 100 := by exact_mod_cast hsc
  have hnext : (idx chrono anchor t sc + 1) * sc = idx chrono anchor t sc * sc + sc := by rw [add_mul, one_mul]
  rw [DAY_eq] at hroom hfar hnear
  rw [hnext, seconds_bucket, ← idx]
  generalize idx chrono anchor t sc * sc = x at hidx
  generalize (chrono.nanos t - chrono.nanos anchor).tdiv SECOND = q at hidx htdiv
  rw [SECOND_eq] at htdiv
  have hword : -2 ^ 63 ≤ x ∧ x < 2 ^ 63 := by omega
  obtain ⟨start, hstart, hproper, hnanos⟩ := add_seconds_of_range (s := x) ha.proper (by rw [SECOND_eq]; omega) (by rw [SECOND_eq]; omega)
  have hplace : chrono.nanos start = chrono.nanos anchor + x * 1000000000 := hnanos
  obtain ⟨stop, hstop, hproper', hnanos'⟩ := add_seconds_of_range (s := sc) hproper (by rw [SECOND_eq]; omega)
    (by rw [SECOND_eq]; omega)
  refine ⟨start, stop, ?_, hproper, hproper', hnanos, by rw [hnanos', hnanos, add_mul, add_assoc]⟩
  rw [if_pos hword, hstart, Option.bind_some, hstop]
  rfl

theorem add_seconds_eq {a b : DateTime} {s : ℤ} (ha : ¬ chrono.leap a) (hb : ¬ chrono.leap b)
    (h : chrono.nanos b = chrono.nanos a + s * SECOND) : chrono.checked_add_seconds a s = some b := by
  have hlow := (chrono.le_iff chrono.proper.1 hb).mp (chrono.min_le b)
  have hhigh := (chrono.le_iff hb chrono.proper.2).mp (chrono.le_max b)
  obtain ⟨c, hc, hproper, hnanos⟩ := add_seconds_of_range (s := s) ha (h ▸ hlow) (h ▸ hhigh)
  rw [hc, nanos_inj hproper hb (hnanos.trans h.symm)]

/-- The bucket of an instant is some period counted from the anchor. -/
theorem seconds_bucket_period (ha : Dated chrono anchor) (ht : Dated chrono t) (hpos : 0 < sc) (hsc : sc ≤ 86400 * 366 * 100) :
    period_start chrono (.Seconds sc) anchor (idx chrono anchor t sc) = some (seconds_bucket chrono anchor sc t).1 ∧
      period_start chrono (.Seconds sc) anchor (idx chrono anchor t sc + 1) = some (seconds_bucket chrono anchor sc t).2 := by
  obtain ⟨start, stop, heq, hstart, hstop, hnanos, hnanos'⟩ := seconds_bucket_eq ha ht hpos hsc
  rw [heq]
  exact ⟨add_seconds_eq ha.proper hstart hnanos, add_seconds_eq ha.proper hstop hnanos'⟩

/-- Rounding toward the anchor puts an instant into the next period when it is a fraction
of a second before its start. -/
theorem seconds_bucket_within (ha : Dated chrono anchor) (ht : Dated chrono t) (hpos : 0 < sc) (hsc : sc ≤ 86400 * 366 * 100) :
    ((seconds_bucket chrono anchor sc t).1 ≤ t ↔ Placed chrono (.Seconds sc) anchor t) ∧ t < (seconds_bucket chrono anchor sc t).2 := by
  obtain ⟨start, stop, heq, hstart, hstop, hnanos, hnanos'⟩ := seconds_bucket_eq ha ht hpos hsc
  have hidx := idx_bounds chrono anchor t hpos
  have htdiv := tdiv_bounds (chrono.nanos t - chrono.nanos anchor)
  have hnext : (idx chrono anchor t sc + 1) * sc = idx chrono anchor t sc * sc + sc := by rw [add_mul, one_mul]
  have hdvd : (sc : ℤ) ∣ (chrono.nanos t - chrono.nanos anchor).tdiv SECOND ↔
      idx chrono anchor t sc * sc = (chrono.nanos t - chrono.nanos anchor).tdiv SECOND := by
    rw [idx]
    exact ⟨Int.ediv_mul_cancel, fun h => h ▸ Int.dvd_mul_left _ _⟩
  have hmod : (chrono.nanos t - chrono.nanos anchor) % SECOND = 0 ↔
      (chrono.nanos t - chrono.nanos anchor).tdiv SECOND * SECOND = chrono.nanos t - chrono.nanos anchor :=
    ⟨fun h => Int.tdiv_mul_cancel (Int.dvd_of_emod_eq_zero h), fun h => Int.emod_eq_zero_of_dvd (Dvd.intro_left _ h)⟩
  rw [heq, chrono.le_iff hstart ht.proper, lt_iff ht.proper hstop, hnanos, hnanos', hnext, Placed, lt_iff ht.proper ha.proper, hdvd, hmod]
  generalize idx chrono anchor t sc * sc = x at hidx
  generalize (chrono.nanos t - chrono.nanos anchor).tdiv SECOND = q at hidx htdiv
  rw [SECOND_eq] at *
  omega

end Seconds

section Months

variable {anchor t : DateTime} {m sc : ℕ}

/-- The first day of a period without its seconds. -/
def Base (chrono : Chrono DateTime) (anchor : DateTime) (m : ℕ) (k : ℤ) (base : DateTime) : Prop :=
  chrono.checked_add_months anchor (k * m) = some base ∧ ¬ chrono.leap base ∧ chrono.month base = chrono.month anchor + k * m

/-- The periods that are looked at: within the years of four digits, and one more on either side. -/
def Near (m : ℕ) (k : ℤ) : Prop := -125000 ≤ k * m ∧ k * m ≤ 125000

theorem Near.between {i j k : ℤ} (hi : Near m i) (hk : Near m k) (hij : i ≤ j) (hjk : j ≤ k) : Near m j :=
  ⟨hi.1.trans (mul_le_mul_of_nonneg_right hij (Int.natCast_nonneg m)),
    (mul_le_mul_of_nonneg_right hjk (Int.natCast_nonneg m)).trans hk.2⟩

theorem exists_base (ha : Dated chrono anchor) {k : ℤ} (hk : Near m k) : ∃ base, Base chrono anchor m k base := by
  have hwide := chrono.wide
  have hlow := ha.low
  have hhigh := ha.high
  obtain ⟨hk₁, hk₂⟩ := hk
  have hmonths := chrono.add_months_isSome (n := k * m) ha.proper (by omega) (by omega)
  obtain ⟨base, hbase⟩ := Option.isSome_iff_exists.mp hmonths
  exact ⟨base, hbase, chrono.add_months ha.proper hbase⟩

theorem abs_le_of_near (hm : 0 < m) {k : ℤ} (hk : Near m k) : -125000 ≤ k ∧ k ≤ 125000 := by
  have hm' : (1 : ℤ) ≤ m := by exact_mod_cast hm
  obtain ⟨hk₁, hk₂⟩ := hk
  constructor
  · by_contra hlt
    have hneg : k ≤ -125001 := by omega
    have := mul_le_mul_of_nonneg_right hneg (Int.natCast_nonneg m)
    nlinarith
  · by_contra hlt
    have hbig : 125001 ≤ k := by omega
    have := mul_le_mul_of_nonneg_right hbig (Int.natCast_nonneg m)
    nlinarith

theorem step_eq (hm : 0 < m) (hsc : sc ≤ 86400 * 366 * 100) {k : ℤ} (hk : Near m k) {base : DateTime}
    (hbase : Base chrono anchor m k base) :
    step chrono anchor m sc k = chrono.checked_add_seconds base (k * sc) := by
  have habs := abs_le_of_near hm hk
  have hsc' : (sc : ℤ) ≤ 86400 * 366 * 100 := by exact_mod_cast hsc
  have hsc₀ := Int.natCast_nonneg sc
  obtain ⟨hk₁, hk₂⟩ := hk
  have hcount : k.natAbs * m < 2 ^ 32 := by
    have hcast : ((k.natAbs * m : ℕ) : ℤ) = |k * m| := by
      rw [abs_mul, Nat.abs_cast, Nat.cast_mul, Int.natCast_natAbs]
    have hle : |k * (m : ℤ)| ≤ 125000 := abs_le.mpr ⟨hk₁, hk₂⟩
    omega
  have hword : -2 ^ 63 ≤ k * sc ∧ k * sc < 2 ^ 63 := by
    constructor <;> nlinarith
  rw [step, if_pos hcount, hbase.1, Option.bind_some, if_pos hword]

theorem step_nanos (hm : 0 < m) (hsc : sc ≤ 86400 * 366 * 100) {k : ℤ} (hk : Near m k) {base s : DateTime}
    (hbase : Base chrono anchor m k base) (hs : step chrono anchor m sc k = some s) :
    ¬ chrono.leap s ∧ chrono.nanos s = chrono.nanos base + k * sc * SECOND := by
  rw [step_eq hm hsc hk hbase] at hs
  exact chrono.add_seconds hbase.2.1 hs

theorem Base.lt (hm : 0 < m) {j k : ℤ} (hjk : j < k) {b c : DateTime} (hb : Base chrono anchor m j b)
    (hc : Base chrono anchor m k c) : chrono.nanos b < chrono.nanos c := by
  rw [← lt_iff hb.2.1 hc.2.1]
  by_contra hle
  have hmonth := chrono.month_mono (not_lt.mp hle)
  rw [hb.2.2, hc.2.2] at hmonth
  have hm' : (0 : ℤ) < m := by exact_mod_cast hm
  have := mul_lt_mul_of_pos_right hjk hm'
  omega

/-- Months and seconds of a later period are both later. -/
theorem step_lt (ha : Dated chrono anchor) (hm : 0 < m) (hsc : sc ≤ 86400 * 366 * 100) {j k : ℤ} (hj : Near m j) (hk : Near m k)
    (hjk : j < k) {s u : DateTime} (hs : step chrono anchor m sc j = some s) (hu : step chrono anchor m sc k = some u) : s < u := by
  obtain ⟨b, hb⟩ := exists_base ha hj
  obtain ⟨c, hc⟩ := exists_base ha hk
  obtain ⟨hproper, hnanos⟩ := step_nanos hm hsc hj hb hs
  obtain ⟨hproper', hnanos'⟩ := step_nanos hm hsc hk hc hu
  have hbase := hb.lt hm hjk hc
  have hsecs : j * (sc : ℤ) ≤ k * sc := mul_le_mul_of_nonneg_right hjk.le (Int.natCast_nonneg sc)
  rw [lt_iff hproper hproper', hnanos, hnanos', SECOND_eq]
  omega

section Search

variable (ha : Dated chrono anchor) (ht : Dated chrono t) (hm : 0 < m) (hm' : m ≤ 1200) (hsc : sc ≤ 86400 * 366 * 100)

variable (chrono anchor t) in
include hm in
theorem approx_bounds : approx chrono anchor t m * m ≤ chrono.month t - chrono.month anchor ∧
    chrono.month t - chrono.month anchor < approx chrono anchor t m * m + m := by
  have hpos : (0 : ℤ) < m := by exact_mod_cast hm
  have hdiv := Int.mul_ediv_add_emod (chrono.month t - chrono.month anchor) m
  have hmod := Int.emod_nonneg (chrono.month t - chrono.month anchor) hpos.ne'
  have hlt := Int.emod_lt_of_pos (chrono.month t - chrono.month anchor) hpos
  rw [approx, mul_comm]
  constructor <;> linarith

include ha ht hm hm' in
theorem near_bracket : Near m (min (approx chrono anchor t m) 0 - 1) ∧ Near m (max (approx chrono anchor t m) 0 + 1) := by
  obtain ⟨hlow, hhigh⟩ := approx_bounds chrono anchor t hm
  have ha₁ := ha.low
  have ha₂ := ha.high
  have ht₁ := ht.low
  have ht₂ := ht.high
  have hm₂ : (m : ℤ) ≤ 1200 := by exact_mod_cast hm'
  have hm₁ := Int.natCast_nonneg m
  rcases le_total (approx chrono anchor t m) 0 with h | h
  · rw [min_eq_left h, max_eq_right h, Near, Near, sub_mul]
    omega
  · rw [min_eq_right h, max_eq_left h, Near, Near, add_mul]
    omega

include hm in
theorem base_after {k : ℤ} (hk : approx chrono anchor t m + 1 ≤ k) {b : DateTime} (hb : Base chrono anchor m k b) : t < b := by
  by_contra hle
  have hmonth := chrono.month_mono (not_lt.mp hle)
  have hbounds := approx_bounds chrono anchor t hm
  have hmul := mul_le_mul_of_nonneg_right hk (Int.natCast_nonneg m)
  rw [add_mul] at hmul
  rw [hb.2.2] at hmonth
  omega

include hm in
theorem base_before {k : ℤ} (hk : k ≤ approx chrono anchor t m - 1) {b : DateTime} (hb : Base chrono anchor m k b) : b < t := by
  by_contra hle
  have hmonth := chrono.month_mono (not_lt.mp hle)
  have hbounds := approx_bounds chrono anchor t hm
  have hmul := mul_le_mul_of_nonneg_right hk (Int.natCast_nonneg m)
  rw [sub_mul] at hmul
  rw [hb.2.2] at hmonth
  have hpos : (0 : ℤ) < m := by exact_mod_cast hm
  omega

include ha ht hm hsc in
theorem step_after {k : ℤ} (hnear : Near m k) (hk : approx chrono anchor t m + 1 ≤ k) (hk₀ : 0 ≤ k) {s : DateTime}
    (hs : step chrono anchor m sc k = some s) : t < s := by
  obtain ⟨b, hb⟩ := exists_base ha hnear
  obtain ⟨hproper, hnanos⟩ := step_nanos hm hsc hnear hb hs
  have hlt := (lt_iff ht.proper hb.2.1).mp (base_after hm hk hb)
  have hsecs : 0 ≤ k * (sc : ℤ) := mul_nonneg hk₀ (Int.natCast_nonneg sc)
  rw [lt_iff ht.proper hproper, hnanos, SECOND_eq]
  omega

include ha ht hm hsc in
theorem step_before {k : ℤ} (hnear : Near m k) (hk : k ≤ approx chrono anchor t m - 1) (hk₀ : k ≤ 0) {s : DateTime}
    (hs : step chrono anchor m sc k = some s) : s < t := by
  obtain ⟨b, hb⟩ := exists_base ha hnear
  obtain ⟨hproper, hnanos⟩ := step_nanos hm hsc hnear hb hs
  have hlt := (lt_iff hb.2.1 ht.proper).mp (base_before hm hk hb)
  have hsecs : k * (sc : ℤ) ≤ 0 := mul_nonpos_of_nonpos_of_nonneg hk₀ (Int.natCast_nonneg sc)
  rw [lt_iff hproper ht.proper, hnanos, SECOND_eq]
  omega

include hm hm' in
theorem base_gap {k : ℤ} {b c : DateTime} (hb : Base chrono anchor m k b) (hc : Base chrono anchor m (k + 1) c) :
    chrono.nanos b < chrono.nanos c ∧ chrono.nanos c - chrono.nanos b ≤ 1201 * (31 * DAY) := by
  have hlt := hb.lt hm (lt_add_one k) hc
  have hgap := (chrono.apart hb.2.1 hc.2.1 ((chrono.le_iff hb.2.1 hc.2.1).mpr hlt.le)).2
  have hm₂ : (m : ℤ) ≤ 1200 := by exact_mod_cast hm'
  have hnext : (k + 1) * (m : ℤ) = k * m + m := by rw [add_mul, one_mul]
  rw [hb.2.2, hc.2.2, hnext, DAY_eq] at hgap
  rw [DAY_eq]
  exact ⟨hlt, by omega⟩

include ha ht hm hm' hsc in
/-- The period after one that has begun by an instant is in the calendar. -/
theorem step_up {k : ℤ} (hk : Near m k) (hk₁ : Near m (k + 1)) {s : DateTime} (hs : step chrono anchor m sc k = some s)
    (hle : s ≤ t) : ∃ u, step chrono anchor m sc (k + 1) = some u := by
  obtain ⟨b, hb⟩ := exists_base ha hk
  obtain ⟨c, hc⟩ := exists_base ha hk₁
  obtain ⟨hproper, hnanos⟩ := step_nanos hm hsc hk hb hs
  have hgap := base_gap hm hm' hb hc
  have hroom := ht.room
  have hst := (chrono.le_iff hproper ht.proper).mp hle
  have hmin := (chrono.le_iff chrono.proper.1 hproper).mp (chrono.min_le s)
  have hsc' : (sc : ℤ) ≤ 86400 * 366 * 100 := by exact_mod_cast hsc
  have hsc₀ := Int.natCast_nonneg sc
  have hnext : (k + 1) * (sc : ℤ) = k * sc + sc := by rw [add_mul, one_mul]
  rw [DAY_eq] at hgap hroom
  rw [SECOND_eq] at hnanos
  obtain ⟨u, hu, -⟩ := add_seconds_of_range (s := (k + 1) * sc) hc.2.1 (by rw [hnext, SECOND_eq]; omega) (by rw [hnext, SECOND_eq]; omega)
  exact ⟨u, by rw [step_eq hm hsc hk₁ hc, hu]⟩

include ha ht hm hm' hsc in
/-- So is the one before a period that has not. -/
theorem step_down {k : ℤ} (hk : Near m k) (hk₁ : Near m (k + 1)) {u : DateTime} (hu : step chrono anchor m sc (k + 1) = some u)
    (hlt : t < u) : ∃ s, step chrono anchor m sc k = some s := by
  obtain ⟨b, hb⟩ := exists_base ha hk
  obtain ⟨c, hc⟩ := exists_base ha hk₁
  obtain ⟨hproper, hnanos⟩ := step_nanos hm hsc hk₁ hc hu
  have hgap := base_gap hm hm' hb hc
  have hroom := ht.room
  have htu := (lt_iff ht.proper hproper).mp hlt
  have hmax := (chrono.le_iff hproper chrono.proper.2).mp (chrono.le_max u)
  have hsc' : (sc : ℤ) ≤ 86400 * 366 * 100 := by exact_mod_cast hsc
  have hsc₀ := Int.natCast_nonneg sc
  have hnext : (k + 1) * (sc : ℤ) = k * sc + sc := by rw [add_mul, one_mul]
  rw [DAY_eq] at hgap hroom
  rw [hnext, SECOND_eq] at hnanos
  obtain ⟨s, hs, -⟩ := add_seconds_of_range (s := k * sc) hb.2.1 (by rw [SECOND_eq]; omega) (by rw [SECOND_eq]; omega)
  exact ⟨s, by rw [step_eq hm hsc hk hb, hs]⟩

include ha hm hsc in
/-- Between a period in the calendar and the anchor all are. -/
theorem step_between {j k : ℤ} (hj : Near m j) (hk : Near m k) (hjk : j ≤ k) (hk₀ : k ≤ 0) {s : DateTime}
    (hs : step chrono anchor m sc j = some s) : ∃ u, step chrono anchor m sc k = some u := by
  rcases hjk.eq_or_lt with rfl | hjk
  · exact ⟨s, hs⟩
  · obtain ⟨b, hb⟩ := exists_base ha hj
    obtain ⟨c, hc⟩ := exists_base ha hk
    obtain ⟨hproper, hnanos⟩ := step_nanos hm hsc hj hb hs
    have hbase := hb.lt hm hjk hc
    have hsecs : j * (sc : ℤ) ≤ k * sc := mul_le_mul_of_nonneg_right hjk.le (Int.natCast_nonneg sc)
    have hsecs₀ : k * (sc : ℤ) ≤ 0 := mul_nonpos_of_nonpos_of_nonneg hk₀ (Int.natCast_nonneg sc)
    have hmin := (chrono.le_iff chrono.proper.1 hproper).mp (chrono.min_le s)
    have hmax := (chrono.le_iff hc.2.1 chrono.proper.2).mp (chrono.le_max c)
    rw [SECOND_eq] at hnanos
    obtain ⟨u, hu, -⟩ := add_seconds_of_range (s := k * sc) hc.2.1 (by rw [SECOND_eq]; omega) (by rw [SECOND_eq]; omega)
    exact ⟨u, by rw [step_eq hm hsc hk hc, hu]⟩

include ha hm hm' hsc in
theorem step_first : ∃ s, step chrono anchor m sc (-1) = some s := by
  have hm₂ : (m : ℤ) ≤ 1200 := by exact_mod_cast hm'
  have hm₁ := Int.natCast_nonneg m
  have hnear : Near m (-1) := by rw [Near]; omega
  obtain ⟨b, hb⟩ := exists_base ha hnear
  have hmonth := hb.2.2
  have hlow := ha.low
  have hhigh := ha.high
  have hroom := room hb.2.1 (by omega) (by omega)
  have hsc' : (sc : ℤ) ≤ 86400 * 366 * 100 := by exact_mod_cast hsc
  have hsc₀ := Int.natCast_nonneg sc
  rw [DAY_eq] at hroom
  obtain ⟨s, hs, -⟩ := add_seconds_of_range (s := -1 * sc) hb.2.1 (by rw [SECOND_eq]; omega) (by rw [SECOND_eq]; omega)
  exact ⟨s, by rw [step_eq hm hsc hnear hb, hs]⟩

/-- Wherever the search decides for a side, it ends between a period of the one and
the next of the other. -/
theorem bisect_spec (start_of : ℤ → Option DateTime) (t : DateTime) (P Q : ℤ → Prop) (fuel : ℕ) (lo hi : ℤ)
    (hsides : ∀ k, lo < k → k < hi → if (start_of k).any (fun s => s ≤ t) then P k else Q k) (hlo : P lo) (hhi : Q hi) (hlt : lo < hi)
    (hfuel : hi - lo ≤ fuel) :
    P (bisect start_of t fuel lo hi).1 ∧ Q (bisect start_of t fuel lo hi).2 ∧
      (bisect start_of t fuel lo hi).2 = (bisect start_of t fuel lo hi).1 + 1 ∧
      lo ≤ (bisect start_of t fuel lo hi).1 ∧ (bisect start_of t fuel lo hi).2 ≤ hi := by
  induction fuel generalizing lo hi with
  | zero => omega
  | succ fuel ih =>
      rw [bisect]
      by_cases hgap : 1 < hi - lo
      · rw [if_pos hgap]
        dsimp only
        have hmid := hsides (lo + (hi - lo) / 2) (by omega) (by omega)
        split_ifs at hmid ⊢
        · obtain ⟨hp, hq, hnext, hle, hge⟩ := ih _ _ (fun k hk hk' => hsides k (by omega) hk') hmid hhi (by omega) (by omega)
          exact ⟨hp, hq, hnext, by omega, hge⟩
        · obtain ⟨hp, hq, hnext, hle, hge⟩ := ih _ _ (fun k hk hk' => hsides k hk (by omega)) hlo hmid (by omega) (by omega)
          exact ⟨hp, hq, hnext, hle, by omega⟩
      · rw [if_neg hgap]
        exact ⟨hlo, hhi, by omega, le_refl lo, le_refl hi⟩

/-- Begun by the instant, and not begun by then. -/
def Below (start_of : ℤ → Option DateTime) (t : DateTime) (k : ℤ) : Prop := ∃ s, start_of k = some s ∧ s ≤ t

def Above (start_of : ℤ → Option DateTime) (t : DateTime) (k : ℤ) : Prop := ∃ s, start_of k = some s ∧ t < s

theorem below_iff {start_of : ℤ → Option DateTime} {k : ℤ} : (start_of k).any (fun s => s ≤ t) = true ↔ Below start_of t k := by
  rw [Option.any_eq_true]
  exact exists_congr fun s => and_congr_right fun _ => decide_eq_true_iff

/-- The search has found the period. -/
def Found (start_of : ℤ → Option DateTime) (t : DateTime) (found : ℤ × ℤ) : Prop :=
  Below start_of t found.1 ∧ Above start_of t found.2 ∧ found.2 = found.1 + 1

include ha ht hm hm' hsc in
theorem search_after (happrox : 0 ≤ approx chrono anchor t m) :
    Found (step chrono anchor m sc) t
      (bisect (step chrono anchor m sc) t (approx chrono anchor t m + 1 - -1).toNat (-1) (approx chrono anchor t m + 1)) := by
  have hnear := near_bracket ha ht hm hm'
  rw [min_eq_right happrox, max_eq_left happrox] at hnear
  obtain ⟨first, hfirst⟩ := step_first ha hm hm' hsc
  have hbefore := step_before ha ht hm hsc hnear.1 (by omega) (by omega) hfirst
  obtain ⟨hbelow, hover, hnext, hle, hge⟩ := bisect_spec (step chrono anchor m sc) t (Below (step chrono anchor m sc) t)
    (fun k => ∀ s, step chrono anchor m sc k = some s → t < s) (approx chrono anchor t m + 1 - -1).toNat (-1)
    (approx chrono anchor t m + 1)
    (fun k _ _ => by
      split_ifs with h
      · exact below_iff.mp h
      · exact fun s hs => not_le.mp fun hst => h (below_iff.mpr ⟨s, hs, hst⟩))
    ⟨first, hfirst, hbefore.le⟩ (fun s hs => step_after ha ht hm hsc hnear.2 (le_refl _) (by omega) hs) (by omega) (by omega)
  refine ⟨hbelow, ?_, hnext⟩
  obtain ⟨s, hs, hst⟩ := hbelow
  rw [hnext] at hover hge ⊢
  obtain ⟨u, hu⟩ := step_up ha ht hm hm' hsc (hnear.1.between hnear.2 hle (by omega)) (hnear.1.between hnear.2 (by omega) hge) hs hst
  exact ⟨u, hu, hover u hu⟩

include ha ht hm hsc in
/-- Once a period before the anchor has begun by the instant, the calendar holds every later one. -/
theorem search_between {fuel : ℕ} {lo hi : ℤ} (happrox : approx chrono anchor t m < 0) (hlo : Near m lo) (hhi : Near m hi)
    (hbelow : Below (step chrono anchor m sc) t lo) (hlt : lo < hi) (hhi₁ : hi ≤ 1)
    (hover : hi = 1 ∨ Above (step chrono anchor m sc) t hi) (hfuel : hi - lo ≤ fuel) :
    Found (step chrono anchor m sc) t (bisect (step chrono anchor m sc) t fuel lo hi) := by
  obtain ⟨s, hs, hst⟩ := hbelow
  obtain ⟨hfound, hfar, hnext, hle, hge⟩ := bisect_spec (step chrono anchor m sc) t (Below (step chrono anchor m sc) t)
    (fun k => k = 1 ∨ Above (step chrono anchor m sc) t k) fuel lo hi
    (fun k hk hk' => by
      split_ifs with h
      · exact below_iff.mp h
      · obtain ⟨u, hu⟩ := step_between ha hm hsc hlo (hlo.between hhi hk.le hk'.le) hk.le (by omega) hs
        exact Or.inr ⟨u, hu, not_le.mp fun hut => h (below_iff.mpr ⟨u, hu, hut⟩)⟩)
    ⟨s, hs, hst⟩ hover hlt hfuel
  refine ⟨hfound, hfar.resolve_left fun hone => ?_, hnext⟩
  obtain ⟨u, hu, hut⟩ := hfound
  exact hut.not_gt (step_after ha ht hm hsc (hlo.between hhi hle (by omega)) (by omega) (by omega) hu)

include ha ht hm hm' hsc in
theorem search_before {fuel : ℕ} {hi : ℤ} (happrox : approx chrono anchor t m < 0) (hlo : Near m (approx chrono anchor t m - 1))
    (hhi : Near m hi) (hlt : approx chrono anchor t m - 1 < hi) (hhi₁ : hi ≤ 1)
    (hover : hi = 1 ∨ Above (step chrono anchor m sc) t hi) (hfuel : hi - (approx chrono anchor t m - 1) ≤ fuel)
    (h : Halves (step chrono anchor m sc) t fuel (approx chrono anchor t m - 1) hi) :
    Found (step chrono anchor m sc) t (bisect (step chrono anchor m sc) t fuel (approx chrono anchor t m - 1) hi) := by
  induction fuel generalizing hi with
  | zero => omega
  | succ fuel ih =>
      rw [bisect]
      by_cases hgap : 1 < hi - (approx chrono anchor t m - 1)
      · rw [if_pos hgap]
        dsimp only
        obtain ⟨s, hs, hside⟩ := h hgap
        generalize hmid : approx chrono anchor t m - 1 + (hi - (approx chrono anchor t m - 1)) / 2 = mid at hs hside ⊢
        have hnear : Near m mid := hlo.between hhi (by omega) (by omega)
        by_cases hst : s ≤ t
        · rw [if_pos (below_iff.mpr ⟨s, hs, hst⟩)]
          exact search_between ha ht hm hsc happrox hnear hhi ⟨s, hs, hst⟩ (by omega) hhi₁ hover (by omega)
        · have hnot : ¬ ((step chrono anchor m sc mid).any fun s => decide (s ≤ t)) = true := by
            rw [below_iff]
            rintro ⟨u, hu, hut⟩
            exact hst (Option.some.inj (hs.symm.trans hu) ▸ hut)
          rw [if_neg hnot]
          exact ih hnear (by omega) (by omega) (Or.inr ⟨s, hs, not_le.mp hst⟩) (by omega) (hside.resolve_left hst)
      · rw [if_neg hgap]
        have hnext : hi = approx chrono anchor t m - 1 + 1 := by omega
        have habove := hover.resolve_left (by omega)
        obtain ⟨u, hu, htu⟩ := habove
        rw [hnext] at hu hhi
        obtain ⟨s, hs⟩ := step_down ha ht hm hm' hsc hlo hhi hu htu
        exact ⟨⟨s, hs, (step_before ha ht hm hsc hlo (le_refl _) (by omega) hs).le⟩, ⟨u, hnext ▸ hu, htu⟩, hnext⟩

include ha hm hsc in
/-- A search that leaves the calendar before it comes upon such a period ends at its far side. -/
theorem search_lost {fuel : ℕ} {lo hi : ℤ} (hlo : Near m lo) (hhi : Near m hi) (hlt : lo < hi) (hhi₁ : hi ≤ 1) (hfuel : hi - lo ≤ fuel)
    (h : ¬ Halves (step chrono anchor m sc) t fuel lo hi) :
    (bisect (step chrono anchor m sc) t fuel lo hi).1 = lo ∧ step chrono anchor m sc lo = none := by
  induction fuel generalizing hi with
  | zero => exact absurd trivial h
  | succ fuel ih =>
      rw [Halves, Classical.not_imp] at h
      obtain ⟨hgap, h⟩ := h
      rw [bisect, if_pos hgap]
      dsimp only
      generalize hmid : lo + (hi - lo) / 2 = mid at h ⊢
      have hnear : Near m mid := hlo.between hhi (by omega) (by omega)
      cases hstep : step chrono anchor m sc mid with
      | some s =>
          have hst : ¬ s ≤ t := fun hst => h ⟨s, hstep, Or.inl hst⟩
          rw [Option.any_some, if_neg (by simpa using hst)]
          exact ih hnear (by omega) (by omega) (by omega) fun hin => h ⟨s, hstep, Or.inr hin⟩
      | none =>
          have hout (k : ℤ) (hk : lo ≤ k) (hk' : k < mid) : step chrono anchor m sc k = none := by
            by_contra hsome
            obtain ⟨s, hs⟩ := Option.ne_none_iff_exists'.mp hsome
            obtain ⟨u, hu⟩ := step_between ha hm hsc (hlo.between hnear hk hk'.le) hnear hk'.le (by omega) hs
            rw [hstep] at hu
            cases hu
          rw [Option.any_none, if_neg Bool.false_ne_true]
          obtain ⟨hfirst, -⟩ := bisect_spec (step chrono anchor m sc) t (fun k => k = lo) (fun _ => True) fuel lo mid
            (fun k hk hk' => by
              rw [hout k hk.le hk', Option.any_none, if_neg Bool.false_ne_true]
              trivial)
            rfl trivial (by omega) (by omega)
          exact ⟨hfirst, hout lo (le_refl lo) (by omega)⟩

include ha ht hm hm' hsc in
theorem found_of_placed (h : Placed chrono (.Months m sc) anchor t) :
    Found (step chrono anchor m sc) t
      (bisect (step chrono anchor m sc) t (max (approx chrono anchor t m) 0 + 1 - (min (approx chrono anchor t m) 0 - 1)).toNat
        (min (approx chrono anchor t m) 0 - 1) (max (approx chrono anchor t m) 0 + 1)) := by
  have hnear := near_bracket ha ht hm hm'
  rcases lt_or_ge (approx chrono anchor t m) 0 with happrox | happrox
  · rw [min_eq_left happrox.le, max_eq_right happrox.le, zero_add] at *
    exact search_before ha ht hm hm' hsc happrox hnear.1 hnear.2 (by omega) (le_refl 1) (Or.inl rfl) (by omega) (h happrox)
  · rw [min_eq_right happrox, max_eq_left happrox, zero_sub]
    exact search_after ha ht hm hm' hsc happrox

theorem months_bucket_of_found
    (h : Found (step chrono anchor m sc) t
      (bisect (step chrono anchor m sc) t (max (approx chrono anchor t m) 0 + 1 - (min (approx chrono anchor t m) 0 - 1)).toNat
        (min (approx chrono anchor t m) 0 - 1) (max (approx chrono anchor t m) 0 + 1))) :
    ∃ k, step chrono anchor m sc k = some (months_bucket chrono anchor m sc t).1 ∧
      step chrono anchor m sc (k + 1) = some (months_bucket chrono anchor m sc t).2 ∧
      (months_bucket chrono anchor m sc t).1 ≤ t ∧ t < (months_bucket chrono anchor m sc t).2 := by
  obtain ⟨⟨s, hs, hst⟩, ⟨u, hu, htu⟩, hnext⟩ := h
  have hbucket : months_bucket chrono anchor m sc t = (s, u) := by
    rw [months_bucket, hs, hu]
    exact if_pos hst
  rw [hbucket]
  exact ⟨_, hs, hnext ▸ hu, hst, htu⟩

include ha ht hm hm' hsc in
theorem months_bucket_period (h : Placed chrono (.Months m sc) anchor t) :
    ∃ k, period_start chrono (.Months m sc) anchor k = some (months_bucket chrono anchor m sc t).1 ∧
      period_start chrono (.Months m sc) anchor (k + 1) = some (months_bucket chrono anchor m sc t).2 := by
  obtain ⟨k, hk, hk', -⟩ := months_bucket_of_found (found_of_placed ha ht hm hm' hsc h)
  exact ⟨k, hk, hk'⟩

include hm in
theorem before_anchor (happrox : approx chrono anchor t m < 0) : t < anchor := by
  by_contra hle
  have hmonth := chrono.month_mono (not_lt.mp hle)
  have hbounds := approx_bounds chrono anchor t hm
  have hm₁ : (0 : ℤ) < m := by exact_mod_cast hm
  have hmul := mul_le_mul_of_nonneg_right (show approx chrono anchor t m ≤ -1 by omega) hm₁.le
  omega

include ha ht hm hm' hsc in
/-- A search that leaves the calendar ends in a bucket after the instant. -/
theorem placed_of_start (h : (months_bucket chrono anchor m sc t).1 ≤ t) : Placed chrono (.Months m sc) anchor t := by
  intro happrox
  have hnear := near_bracket ha ht hm hm'
  rw [min_eq_left happrox.le, max_eq_right happrox.le, zero_add] at hnear
  by_contra hlost
  obtain ⟨hfirst, hnone⟩ := search_lost ha hm hsc hnear.1 hnear.2 (by omega) (le_refl 1) (by omega) hlost
  have hbucket : months_bucket chrono anchor m sc t = (anchor, chrono.MAX_UTC) := by
    rw [months_bucket, min_eq_left happrox.le, max_eq_right happrox.le, zero_add, hfirst, hnone]
  rw [hbucket] at h
  exact h.not_gt (before_anchor hm happrox)

end Search

end Months

section Steps

variable {anchor : DateTime}

/-- A step is some months and then some seconds from the anchor. -/
theorem step_some {m sc : ℕ} (ha : ¬ chrono.leap anchor) {k : ℤ} {s : DateTime} (hs : step chrono anchor m sc k = some s) :
    ∃ base, Base chrono anchor m k base ∧ ¬ chrono.leap s ∧ chrono.nanos s = chrono.nanos base + k * sc * SECOND := by
  rw [step] at hs
  by_cases hcount : k.natAbs * m < 2 ^ 32
  case neg =>
    rw [if_neg hcount] at hs
    cases hs
  rw [if_pos hcount] at hs
  obtain ⟨base, hbase, hs⟩ := Option.bind_eq_some_iff.mp hs
  split_ifs at hs
  obtain ⟨hproper, hmonth⟩ := chrono.add_months ha hbase
  exact ⟨base, ⟨hbase, hproper, hmonth⟩, chrono.add_seconds hproper hs⟩

/-- A period of some length. -/
def Accepted : AggrPeriod → Prop
  | .Whole => True
  | .Seconds sc => 0 < sc ∧ sc ≤ 86400 * 366 * 100
  | .Months m sc => 0 < m ∧ m ≤ 1200 ∧ sc ≤ 86400 * 366 * 100

theorem accepted_of_range {months secs : ℕ} (h : out_of_range (aggr_period months secs) = false) :
    Accepted (aggr_period months secs) := by
  match months, secs with
  | 0, 0 => trivial
  | 0, sc + 1 =>
      simp only [aggr_period, out_of_range, decide_eq_false_iff_not, not_lt] at h
      exact ⟨Nat.succ_pos sc, h⟩
  | m + 1, sc =>
      simp only [aggr_period, out_of_range, Bool.or_eq_false_iff, decide_eq_false_iff_not, not_lt] at h
      exact ⟨Nat.succ_pos m, h⟩

/-- Later periods start later. -/
theorem period_start_lt {period : AggrPeriod} (haccepted : Accepted period) (ha : ¬ chrono.leap anchor) {j k : ℤ} (hjk : j < k)
    {s u : DateTime} (hs : period_start chrono period anchor j = some s) (hu : period_start chrono period anchor k = some u) : s < u := by
  cases period with
  | Whole => cases hs
  | Seconds sc =>
      obtain ⟨hproper, hnanos⟩ := chrono.add_seconds ha hs
      obtain ⟨hproper', hnanos'⟩ := chrono.add_seconds ha hu
      have hpos : (0 : ℤ) < sc := by exact_mod_cast haccepted.1
      have hmul := mul_lt_mul_of_pos_right hjk hpos
      rw [lt_iff hproper hproper', hnanos, hnanos', SECOND_eq]
      omega
  | Months m sc =>
      obtain ⟨b, hb, hproper, hnanos⟩ := step_some ha hs
      obtain ⟨c, hc, hproper', hnanos'⟩ := step_some ha hu
      have hbase := hb.lt haccepted.1 hjk hc
      have hsecs : j * (sc : ℤ) ≤ k * sc := mul_le_mul_of_nonneg_right hjk.le (Int.natCast_nonneg sc)
      rw [lt_iff hproper hproper', hnanos, hnanos', SECOND_eq]
      omega

/-- Buckets that are periods do not overlap. -/
theorem fitting_of_periods {period : AggrPeriod} (haccepted : Accepted period) (ha : ¬ chrono.leap anchor)
    {bucket : DateTime → Bucket DateTime} {l : List (DateTime × Value)}
    (hwithin : ∀ p ∈ l, (bucket p.1).1 ≤ p.1 ∧ p.1 < (bucket p.1).2)
    (hperiods : ∀ p ∈ l, ∃ k, period_start chrono period anchor k = some (bucket p.1).1 ∧
      period_start chrono period anchor (k + 1) = some (bucket p.1).2) : Fitting bucket l where
  within := hwithin
  apart p hp q hq hlt := by
    obtain ⟨j, hj, hj'⟩ := hperiods p hp
    obtain ⟨k, hk, -⟩ := hperiods q hq
    have hjk : j < k := by
      by_contra hle
      rcases (not_lt.mp hle).eq_or_lt with rfl | hkj
      · exact hlt.ne (Option.some.inj (hj.symm.trans hk))
      · exact (period_start_lt haccepted ha hkj hk hj).not_gt hlt
    rcases (Int.add_one_le_of_lt hjk).eq_or_lt with rfl | hnext
    · exact (Option.some.inj (hj'.symm.trans hk)).le
    · exact (period_start_lt haccepted ha hnext hj' hk).le
  same p hp q hq heq := by
    obtain ⟨j, hj, hj'⟩ := hperiods p hp
    obtain ⟨k, hk, hk'⟩ := hperiods q hq
    have hjk : j = k := by
      rcases lt_trichotomy j k with hlt | hjk | hgt
      · exact absurd heq (period_start_lt haccepted ha hlt hj hk).ne
      · exact hjk
      · exact absurd heq (period_start_lt haccepted ha hgt hk hj).ne'
    subst hjk
    exact Prod.ext heq (Option.some.inj (hj'.symm.trans hk'))

end Steps

section Attributes

variable {tq : Option TemporalQ} {timeprop : String} {instances : List Value}

/-- The instances of an attribute within the window of a query, none of the times a leap second. -/
structure Windowed (chrono : Chrono DateTime) (tq : Option TemporalQ) (timeprop : String) (instances : List Value) : Prop where
  order : InOrder chrono
  passes : ∀ inst ∈ instances, ∃ s, stamp timeprop inst = some s ∧ parse_datetime chrono s = true
  window : ∀ q ∈ tq, q.timeproperty = timeprop ∧ ∀ inst ∈ instances, instance_matches q inst = true
  bounds : ∀ q ∈ tq, (q.timerel ≠ "any" → parse_datetime chrono q.time_at = true) ∧
    ∀ e ∈ q.end_time_at, parse_datetime chrono e = true
  proper : ∀ inst ∈ instances, ∀ t, time chrono timeprop inst = some t → ¬ chrono.leap t
  proper_bounds : ∀ q ∈ tq, (∀ a, chrono.parse_from_rfc3339 q.time_at = some a → ¬ chrono.leap a) ∧
    ∀ a, q.end_time_at.bind chrono.parse_from_rfc3339 = some a → ¬ chrono.leap a

theorem mem_times {p : DateTime × Value} :
    p ∈ times chrono timeprop instances ↔ ∃ inst ∈ instances, time chrono timeprop inst = some p.1 ∧ raw_of inst = some p.2 := by
  rw [times, List.mem_insertionSort, List.mem_filterMap]
  refine exists_congr fun inst => and_congr_right fun _ => ?_
  constructor
  · intro h
    obtain ⟨t, ht, h⟩ := Option.bind_eq_some_iff.mp h
    obtain ⟨raw, hraw, rfl⟩ := Option.map_eq_some_iff.mp h
    exact ⟨ht, hraw⟩
  · rintro ⟨ht, hraw⟩
    rw [ht, Option.bind_some, hraw]
    rfl

theorem Windowed.dated (h : Windowed chrono tq timeprop instances) {inst : Value} (hinst : inst ∈ instances) {t : DateTime}
    (ht : time chrono timeprop inst = some t) : Dated chrono t := by
  obtain ⟨s, -, hs⟩ := Option.bind_eq_some_iff.mp ht
  exact ⟨h.proper inst hinst t ht, (chrono.four_digits hs).1, (chrono.four_digits hs).2⟩

theorem Windowed.dated_mem (h : Windowed chrono tq timeprop instances) {p : DateTime × Value}
    (hp : p ∈ times chrono timeprop instances) : Dated chrono p.1 := by
  obtain ⟨inst, hinst, ht, -⟩ := mem_times.mp hp
  exact h.dated hinst ht

theorem Windowed.dated_anchor (h : Windowed chrono tq timeprop instances) {first : DateTime} (hfirst : Dated chrono first) :
    Dated chrono (anchor_of chrono tq first) := by
  rw [anchor_of]
  cases hat : tq.bind (fun q => chrono.parse_from_rfc3339 q.time_at) with
  | none => exact hfirst
  | some a =>
      obtain ⟨q, hq, ha⟩ := Option.bind_eq_some_iff.mp hat
      exact ⟨(h.proper_bounds q hq).1 a ha, (chrono.four_digits ha).1, (chrono.four_digits ha).2⟩

/-- The bucket of an instant where nothing panics. -/
def bucket_at (chrono : Chrono DateTime) (period : AggrPeriod) (whole : Bucket DateTime) (anchor t : DateTime) : Bucket DateTime :=
  (bucket_of chrono period whole anchor t).getD whole

theorem bucket_of_accepted {period : AggrPeriod} (haccepted : Accepted period) (whole : Bucket DateTime) (anchor t : DateTime) :
    bucket_of chrono period whole anchor t = some (bucket_at chrono period whole anchor t) := by
  rw [bucket_at]
  cases period with
  | Whole => rfl
  | Seconds sc =>
      rw [bucket_of, if_neg haccepted.1.ne']
      rfl
  | Months m sc =>
      rw [bucket_of, if_neg haccepted.1.ne']
      rfl

/-- An instant of the window is within the range of the query. -/
theorem Windowed.within_whole (h : Windowed chrono tq timeprop instances) {first last : DateTime} {whole : Bucket DateTime}
    (hwhole : whole_of chrono tq first last = some whole) (hlast : ¬ chrono.leap last) {inst : Value} (hinst : inst ∈ instances) {t : DateTime}
    (ht : time chrono timeprop inst = some t) (hfirst : first ≤ t) (hle : t ≤ last) : whole.1 ≤ t ∧ t < whole.2 := by
  obtain ⟨past, hpast, rfl⟩ := Option.map_eq_some_iff.mp hwhole
  obtain ⟨hproper, hnanos⟩ := chrono.add_seconds hlast hpast
  have hlater : t < past := by
    have hlt : last < past := by
      rw [lt_iff hlast hproper, hnanos, SECOND_eq]
      omega
    exact hle.trans_lt hlt
  cases hq : tq with
  | none => exact ⟨hfirst, hlater⟩
  | some q =>
      obtain ⟨s, hs, hpass⟩ := h.passes inst hinst
      obtain ⟨hprop, hmatch⟩ := h.window q hq
      have hparse : chrono.parse_from_rfc3339 s = some t := by
        rw [time, hs] at ht
        exact ht
      have hkey : key q.timeproperty inst = some (dt_key s) := by rw [key, hprop, hs]; rfl
      have hm := hmatch inst hinst
      rw [instance_matches, hkey, Option.any_some] at hm
      have hupper {e : String} {a : DateTime} (he : parse_datetime chrono e = true) (ha : chrono.parse_from_rfc3339 e = some a)
          (hlt : dt_key s < dt_key e) : t < a := (h.order s e t a hpass he hparse ha).mp hlt
      have hlower {e : String} {a : DateTime} (he : parse_datetime chrono e = true) (ha : chrono.parse_from_rfc3339 e = some a)
          (hle : dt_key e ≤ dt_key s) : a ≤ t :=
        not_lt.mp fun hlt => hle.not_gt ((h.order s e t a hpass he hparse ha).mpr hlt)
      dsimp only
      by_cases hbefore : q.timerel = "before"
      · rw [if_pos hbefore]
        refine ⟨hfirst, ?_⟩
        have hat := (h.bounds q hq).1 (by rw [hbefore]; decide)
        simp only [hbefore, String.reduceEq, if_false, if_true, decide_eq_true_eq] at hm
        cases ha : chrono.parse_from_rfc3339 q.time_at with
        | none => exact hlater
        | some a => exact hupper hat ha hm
      · rw [if_neg hbefore]
        by_cases hbetween : q.timerel = "between"
        · rw [if_pos hbetween]
          have hat := (h.bounds q hq).1 (by rw [hbetween]; decide)
          simp only [hbetween, String.reduceEq, if_false, if_true, Bool.and_eq_true, decide_eq_true_eq, Option.any_eq_true] at hm
          obtain ⟨hfrom, e, he, hto⟩ := hm
          constructor
          · cases ha : chrono.parse_from_rfc3339 q.time_at with
            | none => exact hfirst
            | some a => exact hlower hat ha hfrom
          · rw [he, Option.bind_some]
            cases ha : chrono.parse_from_rfc3339 e with
            | none => exact hlater
            | some a => exact hupper ((h.bounds q hq).2 e he) ha hto
        · rw [if_neg hbetween]
          by_cases hafter : q.timerel = "after"
          · rw [if_pos hafter]
            have hat := (h.bounds q hq).1 (by rw [hafter]; decide)
            simp only [hafter, String.reduceEq, if_false, if_true, decide_eq_true_eq] at hm
            refine ⟨?_, hlater⟩
            cases ha : chrono.parse_from_rfc3339 q.time_at with
            | none => exact hfirst
            | some a => exact hlower hat ha hm
          · rw [if_neg hafter]
            exact ⟨hfirst, hlater⟩

section Placing

variable {period : AggrPeriod} {whole : Bucket DateTime} {anchor t : DateTime}

theorem placed_of_bucket (haccepted : Accepted period) (ha : Dated chrono anchor) (ht : Dated chrono t)
    (h : (bucket_at chrono period whole anchor t).1 ≤ t) : Placed chrono period anchor t := by
  cases period with
  | Whole => trivial
  | Seconds sc =>
      rw [bucket_at, bucket_of, if_neg haccepted.1.ne', Option.getD_some] at h
      exact (seconds_bucket_within ha ht haccepted.1 haccepted.2).1.mp h
  | Months m sc =>
      rw [bucket_at, bucket_of, if_neg haccepted.1.ne', Option.getD_some] at h
      exact placed_of_start ha ht haccepted.1 haccepted.2.1 haccepted.2.2 h

theorem bucket_at_within (haccepted : Accepted period) (ha : Dated chrono anchor) (ht : Dated chrono t)
    (hwhole : whole.1 ≤ t ∧ t < whole.2) (h : Placed chrono period anchor t) :
    (bucket_at chrono period whole anchor t).1 ≤ t ∧ t < (bucket_at chrono period whole anchor t).2 := by
  cases period with
  | Whole => exact hwhole
  | Seconds sc =>
      rw [bucket_at, bucket_of, if_neg haccepted.1.ne', Option.getD_some]
      exact ⟨(seconds_bucket_within ha ht haccepted.1 haccepted.2).1.mpr h, (seconds_bucket_within ha ht haccepted.1 haccepted.2).2⟩
  | Months m sc =>
      rw [bucket_at, bucket_of, if_neg haccepted.1.ne', Option.getD_some]
      obtain ⟨k, -, -, hwithin⟩ := months_bucket_of_found (found_of_placed ha ht haccepted.1 haccepted.2.1 haccepted.2.2 h)
      exact hwithin

theorem bucket_at_period (hperiod : match period with | .Whole => False | _ => True) (haccepted : Accepted period)
    (ha : Dated chrono anchor) (ht : Dated chrono t) (h : Placed chrono period anchor t) :
    ∃ k, period_start chrono period anchor k = some (bucket_at chrono period whole anchor t).1 ∧
      period_start chrono period anchor (k + 1) = some (bucket_at chrono period whole anchor t).2 := by
  cases period with
  | Whole => exact hperiod.elim
  | Seconds sc =>
      rw [bucket_at, bucket_of, if_neg haccepted.1.ne', Option.getD_some]
      exact ⟨_, seconds_bucket_period ha ht haccepted.1 haccepted.2⟩
  | Months m sc =>
      rw [bucket_at, bucket_of, if_neg haccepted.1.ne', Option.getD_some]
      exact months_bucket_period ha ht haccepted.1 haccepted.2.1 haccepted.2.2 h

/-- Buckets within which all instants are, and which are periods unless the whole range is one, do not overlap. -/
theorem fitting_bucket_at (haccepted : Accepted period) (ha : Dated chrono anchor) {l : List (DateTime × Value)}
    (hdated : ∀ p ∈ l, Dated chrono p.1) (hwhole : ∀ p ∈ l, whole.1 ≤ p.1 ∧ p.1 < whole.2)
    (hplaced : ∀ p ∈ l, Placed chrono period anchor p.1) : Fitting (bucket_at chrono period whole anchor) l := by
  have hwithin : ∀ p ∈ l, (bucket_at chrono period whole anchor p.1).1 ≤ p.1 ∧ p.1 < (bucket_at chrono period whole anchor p.1).2 :=
    fun p hp => bucket_at_within haccepted ha (hdated p hp) (hwhole p hp) (hplaced p hp)
  cases period with
  | Whole => exact ⟨hwithin, fun p _ q _ hlt => absurd hlt (lt_irrefl _), fun p _ q _ _ => rfl⟩
  | Seconds sc =>
      exact fitting_of_periods haccepted ha.proper hwithin
        fun p hp => bucket_at_period trivial haccepted ha (hdated p hp) (hplaced p hp)
  | Months m sc =>
      exact fitting_of_periods haccepted ha.proper hwithin
        fun p hp => bucket_at_period trivial haccepted ha (hdated p hp) (hplaced p hp)

end Placing

theorem sorted_times : (times chrono timeprop instances).Pairwise (fun p q => p.1 ≤ q.1) :=
  List.pairwise_insertionSort _ _

/-- With all instances read, the times are those of all of them. -/
theorem times_perm (hread : ∀ inst ∈ instances, (time chrono timeprop inst).isSome = true ∧ (raw_of inst).isSome = true) :
    ((times chrono timeprop instances).map (fun p => (some p.1, some p.2))).Perm
      (instances.map (fun inst => (time chrono timeprop inst, raw_of inst))) := by
  refine ((List.perm_insertionSort _ _).map _).trans (List.Perm.of_eq ?_)
  rw [List.map_filterMap, ← List.filterMap_eq_map]
  refine List.filterMap_congr fun inst hinst => ?_
  obtain ⟨ht, hraw⟩ := hread inst hinst
  obtain ⟨t, ht⟩ := Option.isSome_iff_exists.mp ht
  obtain ⟨raw, hraw⟩ := Option.isSome_iff_exists.mp hraw
  simp only [Function.comp_apply, ht, hraw, Option.bind_some, Option.map_some]

variable (tq) in
theorem render_of_ne_nil (methods : List String) (period : AggrPeriod) (hne : times chrono timeprop instances ≠ []) :
    (∃ c method, methods.find? (fun method => !aggr_eligible c method) = some method ∧
        render_attribute chrono tq timeprop methods period instances = .refused method) ∨
      ∃ c, render_attribute chrono tq timeprop methods period instances =
        (buckets chrono tq period (times chrono timeprop instances)).elim .panicked (.rows c) := by
  obtain ⟨p, l, hl⟩ := List.exists_cons_of_ne_nil hne
  obtain ⟨inst, hinst, ht, -⟩ := mem_times.mp (hl ▸ List.mem_cons_self : p ∈ times chrono timeprop instances)
  have hmem : inst ∈ instances.filter (fun inst => (time chrono timeprop inst).isSome) :=
    List.mem_filter.mpr ⟨hinst, by rw [ht]; rfl⟩
  obtain ⟨first, rest, hfirst⟩ := List.exists_cons_of_ne_nil (List.ne_nil_of_mem hmem)
  rw [render_attribute, hl, hfirst]
  dsimp only [List.head?_cons]
  cases hfind : methods.find? (fun method => !aggr_eligible (classify_instance first) method) with
  | some method => exact Or.inl ⟨_, method, hfind, rfl⟩
  | none => exact Or.inr ⟨_, rfl⟩

theorem render_of_nil (methods : List String) (period : AggrPeriod) (hnil : times chrono timeprop instances = []) :
    render_attribute chrono tq timeprop methods period instances = .skipped := by
  rw [render_attribute, hnil]

/-- Over the range of the query the loop takes the bucket of each instant in turn. -/
theorem buckets_eq (h : Windowed chrono tq timeprop instances) {period : AggrPeriod} (haccepted : Accepted period)
    {first last : DateTime × Value} (hfirst : (times chrono timeprop instances).head? = some first)
    (hlast : (times chrono timeprop instances).getLast? = some last) :
    ∃ whole, whole_of chrono tq first.1 last.1 = some whole ∧
      buckets chrono tq period (times chrono timeprop instances) = some (((times chrono timeprop instances).map
        (fun p => (bucket_at chrono period whole (anchor_of chrono tq first.1) p.1, p))).foldl push []) := by
  have hdated := h.dated_mem (List.mem_of_getLast? hlast)
  have hroom := hdated.room
  obtain ⟨past, hpast, -⟩ := add_seconds_of_range (s := 1) hdated.proper (by rw [DAY_eq, SECOND_eq] at *; omega)
    (by rw [DAY_eq, SECOND_eq] at *; omega)
  have hwhole : ∃ whole, whole_of chrono tq first.1 last.1 = some whole := by
    rw [whole_of, hpast, Option.map_some]
    exact ⟨_, rfl⟩
  obtain ⟨whole, hwhole⟩ := hwhole
  refine ⟨whole, hwhole, ?_⟩
  have heach : (fun p : DateTime × Value => (bucket_of chrono period whole (anchor_of chrono tq first.1) p.1).map (fun b => (b, p))) =
      fun p => pure (bucket_at chrono period whole (anchor_of chrono tq first.1) p.1, p) := by
    funext p
    rw [bucket_of_accepted haccepted, Option.map_some]
    rfl
  rw [buckets, hfirst, hlast]
  dsimp only
  rw [hwhole, Option.bind_some, ← anchor_of, heach, List.mapM_pure]
  rfl

/-- The first of the times is the earliest of them, the last the latest. -/
theorem between_ends {l : List (DateTime × Value)} (hl : l.Pairwise (fun p q => p.1 ≤ q.1)) {first last : DateTime × Value}
    (hfirst : l.head? = some first) (hlast : l.getLast? = some last) {p : DateTime × Value} (hp : p ∈ l) :
    first.1 ≤ p.1 ∧ p.1 ≤ last.1 := by
  constructor
  · obtain ⟨rest, rfl⟩ := List.head?_eq_some_iff.mp hfirst
    rcases List.mem_cons.mp hp with rfl | hp
    · exact le_rfl
    · exact List.rel_of_pairwise_cons hl hp
  · obtain ⟨init, rfl⟩ := List.getLast?_eq_some_iff.mp hlast
    rcases List.mem_append.mp hp with hp | hp
    · exact (List.pairwise_append.mp hl).2.2 p hp last (List.mem_singleton.mpr rfl)
    · rw [List.mem_singleton.mp hp]

theorem Windowed.mem_within_whole (h : Windowed chrono tq timeprop instances) {first last : DateTime × Value} {whole : Bucket DateTime}
    (hfirst : (times chrono timeprop instances).head? = some first) (hlast : (times chrono timeprop instances).getLast? = some last)
    (hwhole : whole_of chrono tq first.1 last.1 = some whole) {p : DateTime × Value} (hp : p ∈ times chrono timeprop instances) :
    whole.1 ≤ p.1 ∧ p.1 < whole.2 := by
  obtain ⟨inst, hinst, ht, -⟩ := mem_times.mp hp
  obtain ⟨hle, hle'⟩ := between_ends sorted_times hfirst hlast hp
  exact h.within_whole hwhole (h.dated_mem (List.mem_of_getLast? hlast)).proper hinst ht hle hle'

/-- All instances are in the rows when they all are read and placed. -/
theorem Windowed.partitions (h : Windowed chrono tq timeprop instances) {period : AggrPeriod} (haccepted : Accepted period)
    (hplaceable : Placeable chrono tq timeprop period instances) {first last : DateTime × Value} {whole : Bucket DateTime}
    (hfirst : (times chrono timeprop instances).head? = some first) (hlast : (times chrono timeprop instances).getLast? = some last)
    (hwhole : whole_of chrono tq first.1 last.1 = some whole) :
    Partitions chrono tq timeprop period instances (((times chrono timeprop instances).map
      (fun p => (bucket_at chrono period whole (anchor_of chrono tq first.1) p.1, p))).foldl push []) := by
  have hanchor : Dated chrono (anchor_of chrono tq first.1) := h.dated_anchor (h.dated_mem (List.mem_of_head? hfirst))
  have hplaced : ∀ p ∈ times chrono timeprop instances, Placed chrono period (anchor_of chrono tq first.1) p.1 := by
    intro p hp
    obtain ⟨inst, hinst, ht, -⟩ := mem_times.mp hp
    exact hplaceable.placed first hfirst inst hinst p.1 ht
  have hgrouped := grouped_foldl (bucket_at chrono period whole (anchor_of chrono tq first.1)) (times chrono timeprop instances)
  have hfitting := (fitting_bucket_at haccepted hanchor (fun p hp => h.dated_mem hp)
    (fun p hp => h.mem_within_whole hfirst hlast hwhole hp) hplaced).partition sorted_times
  refine ⟨?_, hfitting.1, hfitting.2, ?_⟩
  · rw [← List.map_flatMap, hgrouped.flat]
    exact times_perm hplaceable.read
  · intro first' hfirst' hperiod row hrow
    obtain rfl := Option.some.inj (hfirst.symm.trans hfirst')
    obtain ⟨-, ⟨p, hp, hbucket⟩, -⟩ := hgrouped.rows_of row hrow
    rw [hbucket]
    have hmem := hgrouped.mem hrow hp
    exact bucket_at_period hperiod haccepted hanchor (h.dated_mem hmem) (hplaced p hmem)

/-- Rows that are a partition hold instances that are read and placed. -/
theorem Windowed.placeable (h : Windowed chrono tq timeprop instances) {period : AggrPeriod} (haccepted : Accepted period)
    {first : DateTime × Value} {whole : Bucket DateTime} (hfirst : (times chrono timeprop instances).head? = some first)
    (hpartition : Partitions chrono tq timeprop period instances (((times chrono timeprop instances).map
      (fun p => (bucket_at chrono period whole (anchor_of chrono tq first.1) p.1, p))).foldl push [])) :
    Placeable chrono tq timeprop period instances := by
  have hanchor : Dated chrono (anchor_of chrono tq first.1) := h.dated_anchor (h.dated_mem (List.mem_of_head? hfirst))
  have hgrouped := grouped_foldl (bucket_at chrono period whole (anchor_of chrono tq first.1)) (times chrono timeprop instances)
  have hread : ∀ inst ∈ instances, ∃ p ∈ times chrono timeprop instances, time chrono timeprop inst = some p.1 ∧ raw_of inst = some p.2 ∧
      (bucket_at chrono period whole (anchor_of chrono tq first.1) p.1).1 ≤ p.1 := by
    intro inst hinst
    have hmem := hpartition.counted.mem_iff.mpr (List.mem_map_of_mem hinst)
    obtain ⟨row, hrow, hmem⟩ := List.mem_flatMap.mp hmem
    obtain ⟨p, hp, heq⟩ := List.mem_map.mp hmem
    obtain ⟨ht, hraw⟩ := Prod.mk.inj heq
    refine ⟨p, hgrouped.mem hrow hp, ht.symm, hraw.symm, ?_⟩
    rw [(hgrouped.rows_of row hrow).2.2 p hp]
    exact ((hpartition.within row hrow).2 p hp).1
  constructor
  · intro inst hinst
    obtain ⟨p, -, ht, hraw, -⟩ := hread inst hinst
    exact ⟨Option.isSome_of_eq_some ht, Option.isSome_of_eq_some hraw⟩
  · intro first' hfirst' inst hinst t ht
    obtain rfl := Option.some.inj (hfirst.symm.trans hfirst')
    obtain ⟨p, hp, htime, -, hstart⟩ := hread inst hinst
    obtain rfl := Option.some.inj (htime.symm.trans ht)
    exact placed_of_bucket haccepted hanchor (h.dated_mem hp) hstart

/-- The counts of the rows sum to the number of instances. -/
theorem Partitions.total_count {period : AggrPeriod} {rows : List (Bucket DateTime × List (DateTime × Value))}
    (h : Partitions chrono tq timeprop period instances rows) : (total_count rows).sum = instances.length := by
  have hlength := h.counted.length_eq
  rw [List.length_flatMap, List.length_map] at hlength
  rw [← hlength, Aggregation.total_count]
  congr 1
  exact List.map_congr_left fun row _ => (List.length_map _).symm

/-- The rows are a partition of the instances if and only if each instance is read and
placed: fractions of a second before the anchor lead into the period after. -/
theorem aggregates_iff (h : Windowed chrono tq timeprop instances) (methods : List String) {months secs : ℕ}
    (hrange : out_of_range (aggr_period months secs) = false)
    (hsupported : ∀ method, render_attribute chrono tq timeprop methods (aggr_period months secs) instances ≠ .refused method) :
    Aggregates chrono tq timeprop methods (aggr_period months secs) instances ↔
      Placeable chrono tq timeprop (aggr_period months secs) instances := by
  have haccepted := accepted_of_range hrange
  generalize aggr_period months secs = period at *
  rw [Aggregates]
  by_cases hnil : times chrono timeprop instances = []
  · rw [render_of_nil methods period hnil]
    constructor
    · rintro rfl
      exact ⟨List.forall_mem_nil _, fun _ _ => List.forall_mem_nil _⟩
    · intro hplaceable
      have hlength := (times_perm hplaceable.read).length_eq
      rw [hnil, List.length_map, List.length_map] at hlength
      exact List.length_eq_zero_iff.mp hlength.symm
  · have hfirst := List.head?_eq_some_head hnil
    have hlast := List.getLast?_eq_some_getLast hnil
    obtain ⟨whole, hwhole, hbuckets⟩ := buckets_eq h haccepted hfirst hlast
    rcases render_of_ne_nil tq methods period hnil with ⟨-, method, -, hrefused⟩ | ⟨c, hrows⟩
    · exact absurd hrefused (hsupported method)
    · rw [hrows, hbuckets]
      exact ⟨fun hpartition => h.placeable haccepted hfirst hpartition,
        fun hplaceable => h.partitions haccepted hplaceable hfirst hlast hwhole⟩

end Attributes

end TimeLine

section Noon

open Calendar

/-- What is read of the first of March 2026: seconds from midnight, and milliseconds. -/
def march : List (String × ℤ × ℤ) :=
  [("2026-03-01T11:00:00Z", 39600, 0), ("2026-03-01T11:29:59Z", 41399, 0), ("2026-03-01T11:29:59.500Z", 41399, 500),
    ("2026-03-01T11:59:59Z", 43199, 0), ("2026-03-01T11:59:59.500Z", 43199, 500), ("2026-03-01T12:00:00Z", 43200, 0)]

def read_march (s : String) : Option Instant :=
  (march.find? (fun p => p.1 = s)).bind (fun p => instant (start (2026 * 12) * DAY + p.2.1 * SECOND + p.2.2 * 10 ^ 6))

theorem read_march_eq {s : String} {a : Instant} (h : read_march s = some a) :
    ∃ p ∈ march, p.1 = s ∧ a.val = start (2026 * 12) * DAY + p.2.1 * SECOND + p.2.2 * 10 ^ 6 := by
  obtain ⟨p, hp, ha⟩ := Option.bind_eq_some_iff.mp h
  exact ⟨p, List.mem_of_find?_eq_some hp, by simpa using List.find?_some hp, instant_eq_some.mp ha⟩

def marched : Chrono Instant := gregorian read_march fun {s a} h => by
  obtain ⟨p, hp, -, ha⟩ := read_march_eq h
  have hall : ∀ p ∈ march, 0 ≤ month_at (start (2026 * 12) * DAY + p.2.1 * SECOND + p.2.2 * 10 ^ 6) ∧
      month_at (start (2026 * 12) * DAY + p.2.1 * SECOND + p.2.2 * 10 ^ 6) < 120000 := by decide
  rw [ha]
  exact hall p hp

theorem marched_in_order : InOrder marched := by
  intro s t a b _ _ ha hb
  obtain ⟨p, hp, rfl, hpa⟩ := read_march_eq ha
  obtain ⟨q, hq, rfl, hqb⟩ := read_march_eq hb
  have hall : ∀ p ∈ march, ∀ q ∈ march, dt_key p.1 < dt_key q.1 ↔
      start (2026 * 12) * DAY + p.2.1 * SECOND + p.2.2 * 10 ^ 6 < start (2026 * 12) * DAY + q.2.1 * SECOND + q.2.2 * 10 ^ 6 := by
    decide
  rw [hall p hp q hq, ← hpa, ← hqb]
  exact Iff.rfl

def before_noon : Option TemporalQ := some ⟨"before", "2026-03-01T12:00:00Z", none, "observedAt"⟩

def measured (s : String) : Value :=
  .object [("type", .string "Property"), ("value", .string "open"), ("observedAt", .string s)]

def morning : List Value := ["2026-03-01T11:00:00Z", "2026-03-01T11:29:59.500Z", "2026-03-01T11:59:59Z"].map measured

theorem total_count_supported {DateTime : Type} [LinearOrder DateTime] (chrono : Chrono DateTime) (tq : Option TemporalQ) (timeprop : String)
    (period : AggrPeriod) (instances : List Value) (method : String) :
    render_attribute chrono tq timeprop ["totalCount"] period instances ≠ .refused method := by
  intro hrefused
  by_cases hnil : times chrono timeprop instances = []
  · rw [render_of_nil _ _ hnil] at hrefused
    cases hrefused
  · rcases render_of_ne_nil tq ["totalCount"] period hnil with ⟨c, method', hfind, -⟩ | ⟨c, hrows⟩
    · have hnone : ["totalCount"].find? (fun method => !aggr_eligible c method) = none := by cases c <;> rfl
      rw [hnone] at hfind
      cases hfind
    · rw [hrows] at hrefused
      cases hb : buckets chrono tq period (times chrono timeprop instances) <;> rw [hb] at hrefused <;> cases hrefused

theorem windowed_before_noon {instances : List Value}
    (h : ∀ inst ∈ instances, ∃ s, stamp "observedAt" inst = some s ∧ parse_datetime marched s = true ∧ dt_key s < dt_key "2026-03-01T12:00:00Z") :
    Windowed marched before_noon "observedAt" instances where
  order := marched_in_order
  passes inst hinst := by
    obtain ⟨s, hs, hpass, -⟩ := h inst hinst
    exact ⟨s, hs, hpass⟩
  window q hq := by
    obtain rfl := Option.some.inj hq
    refine ⟨rfl, fun inst hinst => ?_⟩
    obtain ⟨s, hs, -, hlt⟩ := h inst hinst
    rw [instance_matches, key, hs]
    simpa using hlt
  bounds q hq := by
    obtain rfl := Option.some.inj hq
    exact ⟨fun _ => by decide, fun e he => by cases he⟩
  proper _ _ _ _ := not_false
  proper_bounds _ _ := ⟨fun _ _ => not_false, fun _ _ => not_false⟩

theorem morning_passes : ∀ inst ∈ morning, ∃ s, stamp "observedAt" inst = some s ∧ parse_datetime marched s = true ∧
    dt_key s < dt_key "2026-03-01T12:00:00Z" := by
  intro inst hinst
  have hall : morning.all (fun inst => (stamp "observedAt" inst).any (fun s =>
    parse_datetime marched s && dt_key s < dt_key "2026-03-01T12:00:00Z")) = true := by decide
  obtain ⟨s, hs, h⟩ := (Option.any_eq_true _ _).mp (List.all_eq_true.mp hall inst hinst)
  rw [Bool.and_eq_true, decide_eq_true_eq] at h
  exact ⟨s, hs, h⟩

theorem morning_placeable : Placeable marched before_noon "observedAt" (aggr_period 0 3600) morning where
  read := by decide
  placed first _ inst hinst t ht hlt := by
    have hall : morning.all (fun inst => (time marched "observedAt" inst).all (fun t =>
      (marched.nanos t - (start (2026 * 12) * DAY + 43200 * SECOND)) % SECOND = 0 ∨
        ¬ (3600 : ℤ) ∣ (marched.nanos t - (start (2026 * 12) * DAY + 43200 * SECOND)).tdiv SECOND)) = true := by decide
    have hnoon : (read_march "2026-03-01T12:00:00Z").map Subtype.val = some (start (2026 * 12) * DAY + 43200 * SECOND) := by
      decide
    obtain ⟨noon, hread, hval⟩ := Option.map_eq_some_iff.mp hnoon
    have hanchor : anchor_of marched before_noon first.1 = noon := by
      rw [anchor_of, before_noon, Option.bind_some]
      exact Option.getD_eq_iff.mpr (Or.inl hread)
    have h := of_decide_eq_true ((Option.all_eq_true _ _).mp (List.all_eq_true.mp hall inst hinst) t ht)
    rw [hanchor]
    rw [← hval] at h
    exact h

/-- Three readings of the hour before noon. -/
theorem morning_aggregates : Aggregates marched before_noon "observedAt" ["totalCount"] (aggr_period 0 3600) morning :=
  (aggregates_iff (windowed_before_noon morning_passes) ["totalCount"] (by decide)
    (total_count_supported marched before_noon "observedAt" (aggr_period 0 3600) morning)).mpr morning_placeable

/-- Half a second before noon is counted in the hour from noon on. -/
theorem half_second_before_noon :
    ¬ Aggregates marched before_noon "observedAt" ["totalCount"] (aggr_period 0 3600) [measured "2026-03-01T11:59:59.500Z"] := by
  intro h
  have hne : times marched "observedAt" [measured "2026-03-01T11:59:59.500Z"] ≠ [] := by decide
  obtain ⟨c, hrows⟩ := (render_of_ne_nil before_noon ["totalCount"] (aggr_period 0 3600) hne).resolve_left
    fun ⟨_, _, _, hrefused⟩ => total_count_supported _ _ _ _ _ _ hrefused
  have hlate : (buckets marched before_noon (aggr_period 0 3600) (times marched "observedAt" [measured "2026-03-01T11:59:59.500Z"])).any
    (fun rows => rows.any (fun row => row.2.any (fun p => p.1 < row.1.1))) = true := by decide
  obtain ⟨rows, hbuckets, hlate⟩ := (Option.any_eq_true _ _).mp hlate
  rw [Aggregates, hrows, hbuckets] at h
  obtain ⟨row, hrow, hlate⟩ := List.any_eq_true.mp hlate
  obtain ⟨p, hp, hlate⟩ := List.any_eq_true.mp hlate
  exact absurd ((h.within row hrow).2 p hp).1 (not_le.mpr (of_decide_eq_true hlate))

end Noon

end AntaresBroker.Aggregation
