import AntaresBroker.Calendar
import AntaresBroker.NumberText
import AntaresBroker.Registry

namespace AntaresBroker.DateKey

open Calendar Clock Expiry NumberText Ql.Eval Registry Text

section Fields

/-- What a date and time says, the fraction of its seconds in millionths. -/
structure Fields where
  year : Nat
  month : Nat
  day : Nat
  hour : Nat
  minute : Nat
  second : Nat
  micro : Nat

/-- The number in so many digits from a position on. -/
def field (s : List Char) (i n : Nat) : Nat := value ((s.drop i).take n)

/-- Digits behind the point, as many as tell millionths. -/
def micros (digits : List Char) : Nat := value (digits ++ List.replicate (6 - digits.length) '0')

def read (s : List Char) : Fields where
  year := field s 0 4
  month := field s 5 2
  day := field s 8 2
  hour := field s 11 2
  minute := field s 14 2
  second := field s 17 2
  micro := micros (s.drop 20).dropLast

/-- A date of the calendar and a time of the day, a leap second allowed. -/
def Fields.real (f : Fields) : Bool :=
  1 ≤ f.month ∧ f.month ≤ 12 ∧ 1 ≤ f.day ∧ f.day ≤ daysInMonth f.year f.month ∧
    f.hour < 24 ∧ f.minute < 60 ∧ f.second ≤ 60

/-- The days before the date, counted from March of the year 0. -/
def Fields.days (f : Fields) : ℤ := start (12 * f.year + f.month - 3) + (f.day - 1)

/-- The instant as the date library counts: whole seconds, and the millionths
behind them, which go on through a leap second. -/
def Fields.instant (f : Fields) : ℤ × Nat :=
  (f.days * 86400 + f.hour * 3600 + f.minute * 60 + min f.second 59, f.micro + if f.second = 60 then 1000000 else 0)

/-- The instant that a text denotes. -/
def denoted (s : String) : ℤ × Nat := (read s.toList).instant

def before (i j : ℤ × Nat) : Prop := i.1 < j.1 ∨ i.1 = j.1 ∧ i.2 < j.2

variable {Instant : Type} [LinearOrder Instant]

/-- The date library reads no date and no time of day that there is not. -/
def Calendrical (chrono : Chrono Instant) : Prop :=
  ∀ base, shaped "0000-00-00T00:00:00".toList base → (chrono.parse_from_rfc3339 (String.ofList (base ++ ['Z']))).isSome →
    (read base).real

end Fields

section Blocks

theorem digit_of_isDigit {c : Char} (h : c.isDigit) : ∃ n < 10, c = n.digitChar := by
  obtain ⟨hlow, hhigh⟩ := Char.isDigit_iff_toNat.mp h
  change 48 ≤ c.toNat at hlow
  change c.toNat ≤ 57 at hhigh
  have hdigit : ∀ n < 10, Char.ofNat (48 + n) = n.digitChar := by decide
  refine ⟨c.toNat - 48, by omega, ?_⟩
  rw [← hdigit _ (by omega), Nat.add_sub_cancel' hlow, Char.ofNat_toNat]

theorem value_digitChar {n : Nat} (h : n < 10) : value [n.digitChar] = n := by
  rw [value, Nat.ofDigitChars_cons_digitChar_of_lt_ten h, Nat.ofDigitChars_nil, Nat.mul_zero, Nat.zero_add]

theorem length_block (w n : Nat) : (block w n).length = w := by
  induction w generalizing n with
  | zero => rfl
  | succ w ih => rw [block, List.length_cons, ih]

theorem value_cons {n : Nat} (h : n < 10) (ds : List Char) : value (n.digitChar :: ds) = n * 10 ^ ds.length + value ds := by
  rw [← List.singleton_append, value_append, value_digitChar h]

theorem value_block {w n : Nat} (h : n < 10 ^ w) : value (block w n) = n := by
  induction w generalizing n with
  | zero =>
      rw [Nat.pow_zero, Nat.lt_one_iff] at h
      rw [h]
      rfl
  | succ w ih =>
      have hquot : n / 10 ^ w < 10 := Nat.div_lt_of_lt_mul (by rwa [Nat.pow_succ] at h)
      rw [block, Nat.mod_eq_of_lt hquot, value_cons hquot, length_block, ih (Nat.mod_lt _ (Nat.pow_pos (by norm_num))),
        Nat.div_add_mod']

/-- So many digits are the block of the number they tell. -/
theorem block_value {w : Nat} {ds : List Char} (hlength : ds.length = w) (h : ∀ c ∈ ds, c.isDigit) :
    block w (value ds) = ds ∧ value ds < 10 ^ w := by
  subst hlength
  induction ds with
  | nil => exact ⟨rfl, Nat.one_pos⟩
  | cons c ds ih =>
      obtain ⟨hblock, hlt⟩ := ih fun d hd => h d (List.mem_cons_of_mem c hd)
      obtain ⟨n, hn, rfl⟩ := digit_of_isDigit (h c List.mem_cons_self)
      have hvalue := value_cons hn ds
      have hquot : (n * 10 ^ ds.length + value ds) / 10 ^ ds.length = n := by
        rw [Nat.mul_comm, Nat.mul_add_div (Nat.pow_pos (by norm_num)), Nat.div_eq_of_lt hlt, Nat.add_zero]
      have hrest : (n * 10 ^ ds.length + value ds) % 10 ^ ds.length = value ds := by
        rw [Nat.mul_add_mod_self_right, Nat.mod_eq_of_lt hlt]
      constructor
      · rw [hvalue, List.length_cons, block, hquot, hrest, hblock, Nat.mod_eq_of_lt hn]
      · rw [hvalue, List.length_cons, Nat.pow_succ]
        nlinarith

theorem block_lt_iff {w a b : Nat} (ha : a < 10 ^ w) (hb : b < 10 ^ w) (c : Char) (x y : List Char) :
    block w a ++ c :: x < block w b ++ c :: y ↔ a < b ∨ a = b ∧ x < y := by
  constructor
  · intro h
    refine (lt_of_block_append_lt ha hb h).imp_right fun h => ⟨h.1, ?_⟩
    rcases List.cons_lt_cons_iff.mp h.2 with hc | ⟨-, hlt⟩
    · exact absurd hc (lt_irrefl c)
    · exact hlt
  · rintro (h | ⟨rfl, h⟩)
    · exact block_append_lt ha hb h _ _
    · exact List.append_left_lt (List.cons_lt_cons_iff.mpr (.inr ⟨rfl, h⟩))

theorem block_last_iff {w a b : Nat} (ha : a < 10 ^ w) (hb : b < 10 ^ w) : block w a < block w b ↔ a < b := by
  constructor
  · intro h
    rw [← List.append_nil (block w a), ← List.append_nil (block w b)] at h
    rcases lt_of_block_append_lt ha hb h with hlt | ⟨-, hnil⟩
    · exact hlt
    · exact absurd hnil (lt_irrefl _)
  · intro h
    have hlt := block_append_lt ha hb h [] []
    rwa [List.append_nil, List.append_nil] at hlt

end Blocks

section Days

theorem leaps_year (year : Nat) : leaps (year - 1) + (if leap year then 1 else 0) = leaps year := by
  have hcentury : (year : ℤ) / 4 / 25 = year / 100 := by omega
  have hera : (year : ℤ) / 100 / 4 = year / 400 := by omega
  have hcentury' : ((year : ℤ) - 1) / 4 / 25 = (year - 1) / 100 := by omega
  have hera' : ((year : ℤ) - 1) / 100 / 4 = (year - 1) / 400 := by omega
  unfold leaps leap
  rw [hcentury, hcentury', hera, hera']
  split_ifs with h
  · have h := of_decide_eq_true h
    omega
  · have h := of_decide_eq_false (Bool.eq_false_iff.mpr h)
    omega

theorem start_month (year : Nat) {month : Nat} (hpos : 1 ≤ month) (hle : month ≤ 12) :
    start (12 * year + month - 3 + 1) = start (12 * year + month - 3) + daysInMonth year month := by
  have hyear := leaps_year year
  unfold start daysInMonth
  by_cases hmarch : 3 ≤ month
  · have hin : (12 * (year : ℤ) + month - 3) / 12 = year ∧ (12 * (year : ℤ) + month - 3) % 12 = month - 3 := by omega
    have hnext : (12 * (year : ℤ) + month - 3 + 1) / 12 = year ∧ (12 * (year : ℤ) + month - 3 + 1) % 12 = month - 2 := by omega
    rw [hin.1, hin.2, hnext.1, hnext.2]
    interval_cases month <;> simp <;> omega
  · interval_cases month
    · have hin : (12 * (year : ℤ) + 1 - 3) / 12 = year - 1 ∧ (12 * (year : ℤ) + 1 - 3) % 12 = 10 := by omega
      have hnext : (12 * (year : ℤ) + 1 - 3 + 1) / 12 = year - 1 ∧ (12 * (year : ℤ) + 1 - 3 + 1) % 12 = 11 := by omega
      push_cast
      rw [hin.1, hin.2, hnext.1, hnext.2]
      simp
      omega
    · have hin : (12 * (year : ℤ) + 2 - 3) / 12 = year - 1 ∧ (12 * (year : ℤ) + 2 - 3) % 12 = 11 := by omega
      have hnext : (12 * (year : ℤ) + 2 - 3 + 1) / 12 = year ∧ (12 * (year : ℤ) + 2 - 3 + 1) % 12 = 0 := by omega
      push_cast
      rw [hin.1, hin.2, hnext.1, hnext.2]
      split_ifs at hyear ⊢ <;> omega
variable {f g : Fields}

theorem Fields.real_iff : f.real ↔ 1 ≤ f.month ∧ f.month ≤ 12 ∧ 1 ≤ f.day ∧ f.day ≤ daysInMonth f.year f.month ∧
    f.hour < 24 ∧ f.minute < 60 ∧ f.second ≤ 60 := by
  rw [Fields.real, decide_eq_true_iff]

/-- A later month begins behind every day of an earlier one. -/
theorem days_lt_of_month (hf : f.real) (hg : g.real)
    (h : f.year < g.year ∨ f.year = g.year ∧ f.month < g.month) : f.days < g.days := by
  obtain ⟨hfpos, hfle, hfday, hflast, -⟩ := Fields.real_iff.mp hf
  obtain ⟨hgpos, hgle, hgday, hglast, -⟩ := Fields.real_iff.mp hg
  have hmonth := start_month f.year hfpos hfle
  have hstart : start (12 * f.year + f.month - 3 + 1) ≤ start (12 * g.year + g.month - 3) :=
    start_strictMono.monotone (by omega)
  unfold Fields.days
  omega

theorem days_lt_iff (hf : f.real) (hg : g.real) : f.days < g.days ↔
    f.year < g.year ∨ f.year = g.year ∧ (f.month < g.month ∨ f.month = g.month ∧ f.day < g.day) := by
  have hlt := @days_lt_of_month f g hf hg
  have hgt := @days_lt_of_month g f hg hf
  by_cases hsame : f.year = g.year ∧ f.month = g.month
  · have hdays : f.days - g.days = f.day - g.day := by
      unfold Fields.days
      rw [hsame.1, hsame.2]
      ring
    omega
  · omega

end Days

section Keys

variable {f g : Fields}

/-- The key of a date and time: a block of digits for each field. -/
def Fields.key (f : Fields) : List Char :=
  block 4 f.year ++ '-' :: (block 2 f.month ++ '-' :: (block 2 f.day ++ 'T' :: (block 2 f.hour ++ ':' ::
    (block 2 f.minute ++ ':' :: (block 2 f.second ++ '.' :: block 6 f.micro)))))

/-- Fields that the digits of a text can tell. -/
structure Fields.Sound (f : Fields) : Prop where
  real : f.real
  year_lt : f.year < 10 ^ 4
  micro_lt : f.micro < 10 ^ 6

theorem daysInMonth_le (year month : Nat) : daysInMonth year month ≤ 31 := by
  unfold daysInMonth
  split_ifs <;> omega

/-- Dates are in the order of their days, and what follows them in its own. -/
theorem date_lt_iff (hf : f.real) (hg : g.real) (P : Prop) :
    (f.year < g.year ∨ f.year = g.year ∧ (f.month < g.month ∨ f.month = g.month ∧ (f.day < g.day ∨ f.day = g.day ∧ P))) ↔
      f.days < g.days ∨ f.days = g.days ∧ P := by
  have hlt := days_lt_iff hf hg
  have hgt := days_lt_iff hg hf
  have heq : f.days = g.days ↔ f.year = g.year ∧ f.month = g.month ∧ f.day = g.day := by omega
  rw [hlt, heq]
  constructor
  · rintro (h | ⟨hy, h | ⟨hm, h | ⟨hd, h⟩⟩⟩)
    · exact .inl (.inl h)
    · exact .inl (.inr ⟨hy, .inl h⟩)
    · exact .inl (.inr ⟨hy, .inr ⟨hm, h⟩⟩)
    · exact .inr ⟨⟨hy, hm, hd⟩, h⟩
  · rintro ((h | ⟨hy, h | ⟨hm, h⟩⟩) | ⟨⟨hy, hm, hd⟩, h⟩)
    · exact .inl h
    · exact .inr ⟨hy, .inl h⟩
    · exact .inr ⟨hy, .inr ⟨hm, .inl h⟩⟩
    · exact .inr ⟨hy, .inr ⟨hm, .inr ⟨hd, h⟩⟩⟩

/-- Numbers of two digits in a base are in the order of the first, then of the second. -/
theorem digits_lt_iff {a b x y n : ℤ} (hx : 0 ≤ x ∧ x < n) (hy : 0 ≤ y ∧ y < n) (P : Prop) :
    (a < b ∨ a = b ∧ (x < y ∨ x = y ∧ P)) ↔ a * n + x < b * n + y ∨ a * n + x = b * n + y ∧ P := by
  rcases lt_trichotomy a b with hab | rfl | hab
  · have hmul : (a + 1) * n ≤ b * n := Int.mul_le_mul_of_nonneg_right hab (by omega)
    rw [Int.add_mul, Int.one_mul] at hmul
    exact iff_of_true (.inl hab) (.inl (by omega))
  · simp
  · have hmul : (b + 1) * n ≤ a * n := Int.mul_le_mul_of_nonneg_right hab (by omega)
    rw [Int.add_mul, Int.one_mul] at hmul
    refine iff_of_false ?_ ?_
    · rintro (h | ⟨h, -⟩) <;> omega
    · rintro (h | ⟨h, -⟩) <;> omega

/-- A leap second comes behind the second it prolongs. -/
theorem second_lt_iff {s s' m m' : Nat} (hs : s ≤ 60) (hs' : s' ≤ 60) (hm : m < 10 ^ 6) (hm' : m' < 10 ^ 6) :
    (s < s' ∨ s = s' ∧ m < m') ↔ min s 59 < min s' 59 ∨ min s 59 = min s' 59 ∧
      m + (if s = 60 then 1000000 else 0) < m' + if s' = 60 then 1000000 else 0 := by
  split_ifs <;> omega

/-- Keys are in the order of time. -/
theorem key_lt_iff (hf : f.Sound) (hg : g.Sound) : f.key < g.key ↔ before f.instant g.instant := by
  obtain ⟨-, hfmonth, -, hfday, hfhour, hfminute, hfsecond⟩ := Fields.real_iff.mp hf.real
  obtain ⟨-, hgmonth, -, hgday, hghour, hgminute, hgsecond⟩ := Fields.real_iff.mp hg.real
  have hflast := hfday.trans (daysInMonth_le _ _)
  have hglast := hgday.trans (daysInMonth_le _ _)
  rw [Fields.key, Fields.key, block_lt_iff hf.year_lt hg.year_lt, block_lt_iff (by omega) (by omega),
    block_lt_iff (by omega) (by omega), block_lt_iff (by omega) (by omega), block_lt_iff (by omega) (by omega),
    block_lt_iff (by omega) (by omega), block_last_iff hf.micro_lt hg.micro_lt, date_lt_iff hf.real hg.real,
    second_lt_iff hfsecond hgsecond hf.micro_lt hg.micro_lt, before, Fields.instant, Fields.instant]
  generalize f.micro + (if f.second = 60 then 1000000 else 0) = fsub
  generalize g.micro + (if g.second = 60 then 1000000 else 0) = gsub
  have hfclock := Nat.min_le_right f.second 59
  have hgclock := Nat.min_le_right g.second 59
  generalize min f.second 59 = fs at hfclock
  generalize min g.second 59 = gs at hgclock
  zify
  rw [@digits_lt_iff f.minute g.minute fs gs 60 (by omega) (by omega),
    @digits_lt_iff f.hour g.hour _ _ 3600 (by omega) (by omega),
    @digits_lt_iff f.days g.days _ _ 86400 (by omega) (by omega)]
  simp only [Int.add_assoc]

/-- Texts that begin with dates are in the order of their days, whatever follows. -/
theorem lt_of_days_lt (hf : f.Sound) (hg : g.Sound) (h : f.days < g.days) (x y : List Char) :
    block 4 f.year ++ '-' :: (block 2 f.month ++ '-' :: (block 2 f.day ++ x)) <
      block 4 g.year ++ '-' :: (block 2 g.month ++ '-' :: (block 2 g.day ++ y)) := by
  obtain ⟨-, hfmonth, -, hfday, -⟩ := Fields.real_iff.mp hf.real
  obtain ⟨-, hgmonth, -, hgday, -⟩ := Fields.real_iff.mp hg.real
  have hflast := hfday.trans (daysInMonth_le _ _)
  have hglast := hgday.trans (daysInMonth_le _ _)
  rw [block_lt_iff hf.year_lt hg.year_lt, block_lt_iff (by omega) (by omega)]
  refine ((days_lt_iff hf.real hg.real).mp h).imp_right (And.imp_right (Or.imp_right (And.imp_right fun hday => ?_)))
  exact block_append_lt (by omega) (by omega) hday x y

/-- The instant as the database counts it, in millionths of a second. -/
def Fields.linear (f : Fields) : ℤ := (f.days * 86400 + f.hour * 3600 + f.minute * 60 + f.second) * 1000000 + f.micro

/-- A leap second reaches into the next day. -/
theorem linear_bounds (hf : f.Sound) : f.days * 86400 * 1000000 ≤ f.linear ∧ f.linear < (f.days * 86400 + 86401) * 1000000 := by
  obtain ⟨-, -, -, -, hhour, hminute, hsecond⟩ := Fields.real_iff.mp hf.real
  have hmicro := hf.micro_lt
  unfold Fields.linear
  omega

theorem key_eq_iff (hf : f.Sound) (hg : g.Sound) : f.key = g.key ↔ f.instant = g.instant := by
  have hlt := not_congr (key_lt_iff hf hg)
  have hgt := not_congr (key_lt_iff hg hf)
  rw [not_lt] at hlt hgt
  rw [le_antisymm_iff, hgt, hlt, Prod.ext_iff, before, before]
  omega

end Keys

section Shape

theorem shaped_iff {shape s : List Char} : shaped shape s ↔
    s.length = shape.length ∧ ∀ p ∈ shape.zip s, if p.1 = '0' then p.2.isDigit = true else p.2 = p.1 := by
  rw [shaped, decide_eq_true_iff]

/-- Digits in the place of the zeros of a shape. -/
theorem shaped_digits {n : Nat} {s : List Char} (h : shaped (List.replicate n '0') s) :
    s.length = n ∧ ∀ c ∈ s, c.isDigit := by
  obtain ⟨hlength, hzip⟩ := shaped_iff.mp h
  rw [List.length_replicate] at hlength
  refine ⟨hlength, fun c hc => ?_⟩
  obtain ⟨i, hi, rfl⟩ := List.mem_iff_getElem.mp hc
  have hmem : ('0', s[i]) ∈ (List.replicate n '0').zip s := by
    refine List.mem_iff_getElem.mpr ⟨i, by rw [List.length_zip, List.length_replicate]; omega, ?_⟩
    rw [List.getElem_zip, List.getElem_replicate]
  have hdigit := hzip _ hmem
  rwa [if_pos rfl] at hdigit

theorem shaped_cut {n : Nat} {c : Char} (hc : c ≠ '0') {shape s : List Char}
    (h : shaped (List.replicate n '0' ++ c :: shape) s) :
    ∃ ds r, s = ds ++ c :: r ∧ ds.length = n ∧ (∀ d ∈ ds, d.isDigit) ∧ shaped shape r := by
  obtain ⟨hlength, hzip⟩ := shaped_iff.mp h
  rw [List.length_append, List.length_replicate, List.length_cons] at hlength
  cases hdrop : s.drop n with
  | nil =>
      rw [List.drop_eq_nil_iff] at hdrop
      omega
  | cons d r =>
      have hs : s = s.take n ++ d :: r := by rw [← hdrop, List.take_append_drop]
      have htake : (s.take n).length = n := List.length_take_of_le (by omega)
      rw [hs, List.zip_append (by rw [List.length_replicate, htake]), List.zip_cons_cons, List.forall_mem_append,
        List.forall_mem_cons, if_neg hc] at hzip
      obtain ⟨hdigits, hmark, hrest⟩ := hzip
      change d = c at hmark
      subst hmark
      have hfirst : shaped (List.replicate n '0') (s.take n) :=
        shaped_iff.mpr ⟨by rw [List.length_replicate, htake], hdigits⟩
      refine ⟨s.take n, r, hs, htake, (shaped_digits hfirst).2, shaped_iff.mpr ⟨?_, hrest⟩⟩
      have hcount := congrArg List.length hs
      rw [List.length_append, htake, List.length_cons] at hcount
      omega

theorem read_digits {y mo d hh mi s : List Char} (hy : y.length = 4) (hmo : mo.length = 2) (hd : d.length = 2)
    (hhh : hh.length = 2) (hmi : mi.length = 2) (hs : s.length = 2) (rest : List Char) :
    read (y ++ '-' :: (mo ++ '-' :: (d ++ 'T' :: (hh ++ ':' :: (mi ++ ':' :: s)))) ++ rest) =
      ⟨value y, value mo, value d, value hh, value mi, value s, micros (rest.drop 1).dropLast⟩ := by
  obtain ⟨y1, y2, y3, y4, rfl⟩ := List.length_eq_four.mp hy
  obtain ⟨m1, m2, rfl⟩ := List.length_eq_two.mp hmo
  obtain ⟨d1, d2, rfl⟩ := List.length_eq_two.mp hd
  obtain ⟨h1, h2, rfl⟩ := List.length_eq_two.mp hhh
  obtain ⟨n1, n2, rfl⟩ := List.length_eq_two.mp hmi
  obtain ⟨s1, s2, rfl⟩ := List.length_eq_two.mp hs
  rfl

/-- The fields of a text whose digits and marks are in their places. -/
theorem read_base {base : List Char} (h : shaped "0000-00-00T00:00:00".toList base) :
    ∃ f : Fields, (∀ rest, read (base ++ rest) = { f with micro := micros (rest.drop 1).dropLast }) ∧ f.year < 10 ^ 4 ∧
      base = block 4 f.year ++ '-' :: (block 2 f.month ++ '-' :: (block 2 f.day ++ 'T' :: (block 2 f.hour ++ ':' ::
        (block 2 f.minute ++ ':' :: block 2 f.second)))) := by
  have hdash : '-' ≠ '0' := by decide
  have hcolon : ':' ≠ '0' := by decide
  obtain ⟨y, s, rfl, hy, hydigit, h⟩ := @shaped_cut 4 '-' hdash "00-00T00:00:00".toList _ h
  obtain ⟨mo, s, rfl, hmo, hmodigit, h⟩ := @shaped_cut 2 '-' hdash "00T00:00:00".toList _ h
  obtain ⟨d, s, rfl, hd, hddigit, h⟩ := @shaped_cut 2 'T' (by decide) "00:00:00".toList _ h
  obtain ⟨hh, s, rfl, hhh, hhdigit, h⟩ := @shaped_cut 2 ':' hcolon "00:00".toList _ h
  obtain ⟨mi, s, rfl, hmi, hmidigit, h⟩ := @shaped_cut 2 ':' hcolon "00".toList _ h
  obtain ⟨hs, hsdigit⟩ := @shaped_digits 2 _ h
  refine ⟨⟨value y, value mo, value d, value hh, value mi, value s, 0⟩, fun rest => ?_, (block_value hy hydigit).2, ?_⟩
  · exact read_digits hy hmo hd hhh hmi hs rest
  · rw [(block_value hy hydigit).1, (block_value hmo hmodigit).1, (block_value hd hddigit).1, (block_value hhh hhdigit).1,
      (block_value hmi hmidigit).1, (block_value hs hsdigit).1]
end Shape

section Accepted

variable {Instant : Type} [LinearOrder Instant] {chrono : Chrono Instant} {s : String}

/-- A text that is accepted: its base, a fraction and `Z`. -/
theorem accepted_cut {s : List Char} (h : parse_datetime chrono s) : ∃ base frac, s = base ++ (frac ++ ['Z']) ∧
    shaped "0000-00-00T00:00:00".toList base ∧ is_fraction frac ∧
      (chrono.parse_from_rfc3339 (String.ofList (base ++ ['Z']))).isSome := by
  obtain ⟨hlast, hshape, hfrac, hsome⟩ := of_decide_eq_true h
  refine ⟨s.take 19, (s.drop 19).dropLast, ?_, hshape, hfrac, hsome⟩
  rw [List.dropLast_append_getLast? _ hlast, List.take_append_drop]

/-- A fraction is a mark and digits, or nothing. -/
theorem fraction_digits {frac : List Char} (h : is_fraction frac) :
    ((Ql.eat '.' frac).or (Ql.eat ',' frac)).getD [] = frac.drop 1 ∧ ((frac ++ ['Z']).drop 1).dropLast = frac.drop 1 ∧
      (frac.drop 1).length ≤ 6 ∧ ∀ d ∈ frac.drop 1, d.isDigit := by
  cases frac with
  | nil => exact ⟨rfl, rfl, Nat.zero_le _, fun d hd => absurd hd List.not_mem_nil⟩
  | cons c digits =>
      obtain ⟨hmark, -, hlength, hdigits⟩ := of_decide_eq_true h
      refine ⟨?_, List.dropLast_concat, hlength, hdigits⟩
      rcases hmark with rfl | rfl <;> rfl

theorem block_micros {digits : List Char} (hlength : digits.length ≤ 6) (h : ∀ d ∈ digits, d.isDigit) :
    block 6 (micros digits) = digits ++ List.replicate (6 - digits.length) '0' ∧ micros digits < 10 ^ 6 := by
  refine block_value ?_ fun c hc => ?_
  · rw [List.length_append, List.length_replicate]
    omega
  · rcases List.mem_append.mp hc with hc | hc
    · exact h c hc
    · rw [List.eq_of_mem_replicate hc]
      rfl

/-- Every character of the base is one byte. -/
theorem shaped_size {base : List Char} (h : shaped "0000-00-00T00:00:00".toList base) :
    byteSize base = 19 ∧ ∀ c ∈ base, c.utf8Size = 1 := by
  obtain ⟨hlength, hzip⟩ := shaped_iff.mp h
  have hmarks : ∀ c ∈ "0000-00-00T00:00:00".toList, c.utf8Size = 1 := by decide
  have hdigits : ∀ n < 10, (Nat.digitChar n).utf8Size = 1 := by decide
  have hsize : ∀ c ∈ base, c.utf8Size = 1 := by
    intro c hc
    obtain ⟨i, hi, rfl⟩ := List.mem_iff_getElem.mp hc
    have hmem : ("0000-00-00T00:00:00".toList[i], base[i]) ∈ "0000-00-00T00:00:00".toList.zip base :=
      List.mem_iff_getElem.mpr ⟨i, by rw [List.length_zip]; omega, List.getElem_zip⟩
    have hchar := hzip _ hmem
    split_ifs at hchar
    · change base[i].isDigit = true at hchar
      obtain ⟨n, hn, heq⟩ := digit_of_isDigit hchar
      rw [heq]
      exact hdigits n hn
    · change base[i] = _ at hchar
      rw [hchar]
      exact hmarks _ (List.getElem_mem _)
  exact ⟨(byteSize_ascii hsize).trans hlength, hsize⟩

theorem dt_key_spelled {base frac : List Char} (hs : s.toList = base ++ (frac ++ ['Z']))
    (hshape : shaped "0000-00-00T00:00:00".toList base) (hfrac : is_fraction frac) :
    dt_key s = base ++ '.' :: (frac.drop 1 ++ List.replicate (6 - (frac.drop 1).length) '0') := by
  have hsplit : splitAtByte 19 (base ++ frac) = some (base, frac) := splitAtByte_eq_some.mpr ⟨rfl, (shaped_size hshape).1⟩
  rw [dt_key, hs, ← List.append_assoc, List.getLast?_concat, if_pos rfl, List.dropLast_concat, hsplit]
  dsimp only
  rw [(fraction_digits hfrac).1, List.append_assoc, List.cons_append]

/-- The key of a text that is accepted is that of its fields. -/
theorem accepted_key (hchrono : Calendrical chrono) (h : parse_datetime chrono s.toList) :
    (read s.toList).Sound ∧ dt_key s = (read s.toList).key := by
  obtain ⟨base, frac, hs, hshape, hfrac, hsome⟩ := accepted_cut h
  obtain ⟨f, hread, hyear, hbase⟩ := read_base hshape
  have hreal : f.real := by
    have hreal := hchrono base hshape hsome
    rw [← List.append_nil base, hread] at hreal
    exact hreal
  obtain ⟨-, hdropped, hlength, hdigits⟩ := fraction_digits hfrac
  obtain ⟨hblock, hmicro⟩ := block_micros hlength hdigits
  rw [dt_key_spelled hs hshape hfrac, hs, hread, hdropped]
  refine ⟨⟨hreal, hyear, hmicro⟩, ?_⟩
  rw [Fields.key, hblock, hbase]
  simp only [List.append_assoc, List.cons_append]

theorem dt_key_lt_iff (hchrono : Calendrical chrono) {t : String} (hs : parse_datetime chrono s.toList)
    (ht : parse_datetime chrono t.toList) :
    (dt_key s < dt_key t ↔ before (denoted s) (denoted t)) ∧ (dt_key s = dt_key t ↔ denoted s = denoted t) := by
  obtain ⟨hssound, hskey⟩ := accepted_key hchrono hs
  obtain ⟨htsound, htkey⟩ := accepted_key hchrono ht
  rw [hskey, htkey]
  exact ⟨key_lt_iff hssound htsound, key_eq_iff hssound htsound⟩

end Accepted

section Library

theorem read_stamp {p : Nat} (t : Stamp p) : (read ((chars t).take 19)).real := by
  have hday := day_lt t
  have hbase : (chars t).take 19 = block 4 t.year ++ '-' :: (block 2 t.month ++ '-' :: (block 2 t.day ++ 'T' ::
      (block 2 t.hour ++ ':' :: (block 2 t.minute ++ ':' :: block 2 t.second)))) ++ [] := by
    have hchars : chars t = block 4 t.year ++ '-' :: (block 2 t.month ++ '-' :: (block 2 t.day ++ 'T' :: (block 2 t.hour ++
        ':' :: (block 2 t.minute ++ ':' :: block 2 t.second)))) ++ point p :: if p = 0 then [] else block p t.fraction ++ ['Z'] := by
      rw [chars]
      simp only [List.append_assoc, List.cons_append]
    rw [hchars, List.append_nil, List.take_left']
    simp only [List.length_append, List.length_cons, length_block]
  have hmonth := t.month_le
  have hhour := t.hour_lt
  have hminute := t.minute_lt
  have hsecond := t.second_lt
  rw [hbase, read_digits (length_block _ _) (length_block _ _) (length_block _ _) (length_block _ _) (length_block _ _)
    (length_block _ _), value_block t.year_lt, value_block (by omega), value_block hday, value_block (by omega),
    value_block (by omega), value_block (by omega)]
  exact Fields.real_iff.mpr ⟨t.month_pos, hmonth, t.day_pos, t.day_le, hhour, hminute, hsecond.le⟩

/-- A date library that knows the calendar, and orders texts as they are. -/
def calendar : Chrono String where
  parse_from_rfc3339 s := if s.toList.getLast? = some 'Z' ∧ (read (s.toList.take 19)).real then some s else none
  stamp_mono _ s t h := by
    refine ⟨render s, render t, ?_, ?_, render_mono h⟩
    · rw [render, String.toList_ofList, if_pos ⟨getLast?_chars s, read_stamp s⟩]
    · rw [render, String.toList_ofList, if_pos ⟨getLast?_chars t, read_stamp t⟩]

theorem calendar_calendrical : Calendrical calendar := by
  intro base hshape hsome
  have hlength : base.length = 19 := (shaped_iff.mp hshape).1
  change (if _ ∧ _ then _ else _ : Option String).isSome at hsome
  split_ifs at hsome with h
  · rw [String.toList_ofList, List.take_left' hlength] at h
    exact h.2
  · cases hsome

end Library

end AntaresBroker.DateKey
