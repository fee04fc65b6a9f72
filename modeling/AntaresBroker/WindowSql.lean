import AntaresBroker.DateKey
import AntaresBroker.Sql
import AntaresBroker.Temporal

namespace AntaresBroker.WindowSql

open DateKey Expiry Json Registry Temporal Text Ql.Eval
open Ql.Sql (jsonb_typeof)

/-- The value of the key expression over a text; positions count characters. -/
def dt_key_sql (e : List Char) : List Char :=
  let frac := if (e.drop 19).take 1 = ['.'] ∨ (e.drop 19).take 1 = [','] then (e.drop 20).take (e.length - 21) else []
  if e.getLast? = some 'Z' ∧ 20 ≤ e.length then e.take 19 ++ '.' :: (frac ++ List.replicate (6 - frac.length) '0') else e

/-- A condition on one jsonb instance; the numbers are placeholders, of which
the first names the member. -/
inductive Cond
  /-- `jsonb_typeof(el -> $tp) = 'string'` -/
  | present
  /-- the key of the member is less than that of `$n::text` -/
  | less (n : Nat)
  /-- the key of the member is no less than that of `$n::text` -/
  | at_least (n : Nat)
  | and (a b : Cond)

structure CompiledSql where
  sql : Cond
  binds : List String

def compile_instance_range (r : TemporalQ) (first_bind : Nat) : Option CompiledSql :=
  if r.timerel = "any" then some ⟨.present, [r.timeproperty]⟩
  else if r.timerel = "before" then
    some ⟨.and .present (.less (first_bind + 1)), [r.timeproperty, canonical_datetime r.time_at]⟩
  else if r.timerel = "after" then
    some ⟨.and .present (.at_least (first_bind + 1)), [r.timeproperty, canonical_datetime r.time_at]⟩
  else if r.timerel = "between" then
    r.end_time_at.map fun e => ⟨.and (.and .present (.at_least (first_bind + 1))) (.less (first_bind + 2)),
      [r.timeproperty, canonical_datetime r.time_at, canonical_datetime e]⟩
  else none

/-- A comparison of the parsed column with a widened bound. -/
inductive Bound
  /-- `col < $n::timestamptz + interval '48 hours'` -/
  | below (n : Nat)
  /-- `col >= $n::timestamptz - interval '48 hours'` -/
  | from_on (n : Nat)
  | within (n m : Nat)

structure ColumnBound where
  col : String
  nullable : Bool
  bound : Bound

/-- The parsed column of a time property, and whether it may be null. -/
def column : String → Option (String × Bool)
  | "observedAt" => some ("observed_at", false)
  | "createdAt" => some ("created_at", false)
  | "modifiedAt" => some ("modified_at", false)
  | "deletedAt" => some ("deleted_at", true)
  | _ => none

def column_range_bound (r : TemporalQ) (time_bind : Nat) : Option ColumnBound :=
  match column r.timeproperty with
  | none => none
  | some (col, nullable) =>
      if r.timerel = "before" then some ⟨col, nullable, .below time_bind⟩
      else if r.timerel = "after" then some ⟨col, nullable, .from_on time_bind⟩
      else if r.timerel = "between" then r.end_time_at.map fun _ => ⟨col, nullable, .within time_bind (time_bind + 1)⟩
      else none

section Meaning

/-- Conjunction of truths, of which one may be unknown. -/
def conj : Option Bool → Option Bool → Option Bool
  | some false, _ => some false
  | _, some false => some false
  | some true, b => b
  | none, _ => none

def placeholder (first : Nat) (binds : List String) (n : Nat) : Option String :=
  if first ≤ n then binds[n - first]? else none

/-- The text of a jsonb member, `none` where it is null or absent. -/
def arrow_text (json_text : Value → String) : Option Value → Option (List Char)
  | none => none
  | some .null => none
  | some (.string s) => some s.toList
  | some v => some (json_text v).toList

variable (json_text : Value → String) (first : Nat) (binds : List String) (el : Value)

def member : Option Value := (placeholder first binds first).bind el.get

def keys (n : Nat) : Option (List Char × List Char) :=
  match arrow_text json_text (member first binds el), placeholder first binds n with
  | some e, some b => some (dt_key_sql e, dt_key_sql b.toList)
  | _, _ => none

/-- The truth of a condition, unknown where it compares with null. -/
def truth : Cond → Option Bool
  | .present => (member first binds el).map fun v => jsonb_typeof v = "string"
  | .less n => (keys json_text first binds el n).map fun k => k.1 < k.2
  | .at_least n => (keys json_text first binds el n).map fun k => k.2 ≤ k.1
  | .and a b => conj (truth a) (truth b)

/-- A row is kept where the condition is known to be true. -/
def CompiledSql.keeps (c : CompiledSql) : Prop := truth json_text first c.binds el c.sql = some true

/-- The slack of a column bound, in millionths of a second. -/
def SLACK : ℤ := 48 * 3600 * 1000000

variable (timestamptz : String → Option ℤ) (col : Option ℤ)

/-- The truth of a bound over a column; the outer `none` is a bind that the cast
refuses, with which the statement fails. -/
def Bound.truth : Bound → Option (Option Bool)
  | .below n => ((placeholder first binds n).bind timestamptz).map fun t => col.map fun c => c < t + SLACK
  | .from_on n => ((placeholder first binds n).bind timestamptz).map fun t => col.map fun c => t - SLACK ≤ c
  | .within n m => ((placeholder first binds n).bind timestamptz).bind fun t =>
      ((placeholder first binds m).bind timestamptz).map fun u => col.map fun c => t - SLACK ≤ c ∧ c < u + SLACK

def ColumnBound.holds (b : ColumnBound) : Prop :=
  b.bound.truth first binds timestamptz col = some (some true) ∨
    (b.nullable = true ∧ col = none ∧ (b.bound.truth first binds timestamptz col).isSome)

end Meaning

section Keys

variable {s : String} {u more : List Char}

theorem byteSize_pos {x : List Char} (h : byteSize x = 0) : x = [] := by
  cases x with
  | nil => rfl
  | cons c x =>
      rw [byteSize_cons] at h
      have hpos := c.utf8Size_pos
      omega

/-- The key either is the text or begins with its first nineteen bytes. -/
theorem dt_key_cases (s : String) : dt_key s = s.toList ∨
    ∃ base frac, s.toList = base ++ (frac ++ ['Z']) ∧ byteSize base = 19 ∧
      dt_key s = base ++ '.' :: (((Ql.eat '.' frac).or (Ql.eat ',' frac)).getD [] ++
        List.replicate (6 - (((Ql.eat '.' frac).or (Ql.eat ',' frac)).getD []).length) '0') := by
  rw [dt_key]
  split_ifs with hlast
  · cases hsplit : splitAtByte 19 s.toList.dropLast with
    | none => exact .inl rfl
    | some p =>
        obtain ⟨hdrop, hsize⟩ := splitAtByte_eq_some.mp hsplit
        refine .inr ⟨p.1, p.2, ?_, hsize, ?_⟩
        · rw [← List.append_assoc, ← hdrop, List.dropLast_append_getLast? _ hlast]
        · dsimp only
          rw [List.append_assoc, List.cons_append]
  · exact .inl rfl

/-- What begins in the first nineteen bytes of a text stands at the head of its key. -/
theorem prefix_dt_key {c : Char} (h : s.toList = u ++ c :: more) (hu : byteSize u < 19) :
    u ++ [c] <+: dt_key s := by
  rcases dt_key_cases s with hkey | ⟨base, frac, hs, hsize, hkey⟩
  · rw [hkey, h]
    exact ⟨more, by rw [List.append_assoc, List.singleton_append]⟩
  · rw [hkey]
    have hcut := h.symm.trans hs
    rcases List.append_eq_append_iff.mp hcut with ⟨x, hbase, hrest⟩ | ⟨x, hu', hrest⟩
    · cases x with
      | nil =>
          rw [List.append_nil] at hbase
          rw [hbase] at hsize
          omega
      | cons d x =>
          rw [List.cons_append] at hrest
          obtain ⟨rfl, -⟩ := List.cons.inj hrest
          rw [hbase]
          exact (List.prefix_append_right_inj u |>.mpr (List.singleton_append ▸ List.prefix_append [c] x)).trans (List.prefix_append _ _)
    · rw [hu', byteSize_append] at hu
      omega

theorem prefix_dt_key_sql {e : List Char} {c : Char} (h : e = u ++ c :: more) (hu : u.length < 19)  :
    u ++ [c] <+: dt_key_sql e := by
  have hwhole : u ++ [c] <+: e := ⟨more, by rw [h, List.append_assoc, List.singleton_append]⟩
  rw [dt_key_sql]
  split_ifs
  · have htake : u ++ [c] <+: e.take 19 := List.prefix_take_iff.mpr ⟨hwhole, by rw [List.length_append, List.length_singleton]; omega⟩
    exact htake.trans (List.prefix_append _ _)
  · have htake : u ++ [c] <+: e.take 19 := List.prefix_take_iff.mpr ⟨hwhole, by rw [List.length_append, List.length_singleton]; omega⟩
    exact htake.trans (List.prefix_append _ _)
  · exact hwhole

theorem fraction_sql (frac : List Char) :
    (if (frac ++ ['Z']).take 1 = ['.'] ∨ (frac ++ ['Z']).take 1 = [','] then (frac ++ ['Z']).tail.take (frac.length - 1) else []) =
      ((Ql.eat '.' frac).or (Ql.eat ',' frac)).getD [] := by
  cases frac with
  | nil => rfl
  | cons c r =>
      have htake : (r ++ ['Z']).take r.length = r := List.take_left
      change (if [c] = ['.'] ∨ [c] = [','] then (r ++ ['Z']).take r.length else []) = _
      rw [htake]
      by_cases hpoint : c = '.'
      · subst hpoint
        rfl
      · by_cases hcomma : c = ','
        · subst hcomma
          rfl
        · rw [if_neg, Ql.eat, Ql.eat, if_neg hpoint, if_neg hcomma]
          · rfl
          · rintro (h | h)
            · exact hpoint (List.singleton_inj.mp h)
            · exact hcomma (List.singleton_inj.mp h)

/-- Where the first nineteen characters are bytes, both keys are one. -/
theorem dt_key_sql_eq (h : ∀ c ∈ s.toList.take 19, c.utf8Size = 1) : dt_key_sql s.toList = dt_key s := by
  rw [dt_key_sql, dt_key]
  generalize s.toList = e at h
  by_cases hlast : e.getLast? = some 'Z'
  · obtain ⟨body, rfl⟩ : ∃ body, e = body ++ ['Z'] := ⟨e.dropLast, (List.dropLast_append_getLast? 'Z' hlast).symm⟩
    rw [if_pos hlast, List.dropLast_concat]
    by_cases hlong : 19 ≤ body.length
    · obtain ⟨base, frac, rfl, hbase⟩ : ∃ base frac, body = base ++ frac ∧ base.length = 19 :=
        ⟨body.take 19, body.drop 19, (List.take_append_drop 19 body).symm, List.length_take_of_le hlong⟩
      have htake : (base ++ (frac ++ ['Z'])).take 19 = base := List.take_left' hbase
      have hdrop : (base ++ (frac ++ ['Z'])).drop 19 = frac ++ ['Z'] := List.drop_left' hbase
      have hnext : (base ++ (frac ++ ['Z'])).drop 20 = (frac ++ ['Z']).tail := by
        have hmore : List.drop 1 (List.drop 19 (base ++ (frac ++ ['Z']))) = List.drop 20 (base ++ (frac ++ ['Z'])) := List.drop_drop
        rw [← hmore, hdrop, List.drop_one]
      have hlength : (base ++ (frac ++ ['Z'])).length = frac.length + 20 := by
        rw [List.length_append, List.length_append, hbase, List.length_singleton]
        omega
      rw [List.append_assoc, htake] at h
      have hsplit : splitAtByte 19 (base ++ frac) = some (base, frac) :=
        splitAtByte_eq_some.mpr ⟨rfl, (byteSize_ascii h).trans hbase⟩
      have hcount : frac.length + 20 - 21 = frac.length - 1 := by omega
      rw [hsplit, List.append_assoc, htake, hdrop, hnext, hlength, hcount, fraction_sql, if_pos]
      · dsimp only
        rw [List.append_assoc, List.cons_append]
      · rw [← List.append_assoc, List.getLast?_concat]
        exact ⟨rfl, by omega⟩
    · have hlength : (body ++ ['Z']).length < 20 := by
        rw [List.length_append, List.length_singleton]
        omega
      have hnone : splitAtByte 19 body = none := by
        refine Option.eq_none_iff_forall_ne_some.mpr fun p hp => ?_
        obtain ⟨rfl, hsize⟩ := splitAtByte_eq_some.mp hp
        have hascii : byteSize p.1 = p.1.length := byteSize_ascii fun c hc => h c (by
          rw [List.take_of_length_le (by omega), List.append_assoc]
          exact List.mem_append_left _ hc)
        rw [List.length_append] at hlong
        omega
      rw [if_neg fun h => absurd h.2 (by omega), hnone]
  · rw [if_neg fun h => hlast h.1, if_neg hlast]

theorem lt_iff_of_ne {u x y b : List Char} {c d : Char} (hd : b[u.length]? = some d) (hne : c ≠ d) :
    u ++ c :: x < b ↔ u ++ c :: y < b := by
  induction u generalizing b with
  | nil =>
      cases b with
      | nil => cases hd
      | cons e b =>
          cases hd
          rw [List.nil_append, List.nil_append, List.cons_lt_cons_iff, List.cons_lt_cons_iff]
          exact or_congr_right (iff_of_false (fun h => hne h.1) (fun h => hne h.1))
  | cons a u ih =>
      cases b with
      | nil => cases hd
      | cons e b =>
          rw [List.cons_append, List.cons_append, List.cons_lt_cons_iff, List.cons_lt_cons_iff]
          exact or_congr_right (and_congr_right fun _ => ih hd)

theorem first_wide {l : List Char} (h : ¬ ∀ c ∈ l, c.utf8Size = 1) :
    ∃ u c v, l = u ++ c :: v ∧ (∀ d ∈ u, d.utf8Size = 1) ∧ c.utf8Size ≠ 1 := by
  induction l with
  | nil => exact absurd (fun c hc => absurd hc List.not_mem_nil) h
  | cons a l ih =>
      by_cases ha : a.utf8Size = 1
      · obtain ⟨u, c, v, rfl, hu, hc⟩ := ih fun hl => h (List.forall_mem_cons.mpr ⟨ha, hl⟩)
        exact ⟨a :: u, c, v, rfl, List.forall_mem_cons.mpr ⟨ha, hu⟩, hc⟩
      · exact ⟨[], a, l, rfl, fun d hd => absurd hd List.not_mem_nil, ha⟩

/-- A key whose first nineteen characters are bytes. -/
def Narrow (b : List Char) : Prop := ∀ i < 19, ∃ d, b[i]? = some d ∧ d.utf8Size = 1

/-- Both keys of a text compare alike with a narrow one: where they differ, a
wider character has already decided. -/
theorem dt_key_sql_lt_iff {b : List Char} (hb : Narrow b) : dt_key_sql s.toList < b ↔ dt_key s < b := by
  by_cases hascii : ∀ c ∈ s.toList.take 19, c.utf8Size = 1
  · rw [dt_key_sql_eq hascii]
  · obtain ⟨u, c, v, htake, hu, hc⟩ := first_wide hascii
    have hlength : u.length < 19 := by
      have hle := List.length_take_le 19 s.toList
      rw [htake, List.length_append, List.length_cons] at hle
      omega
    have hs : s.toList = u ++ c :: (v ++ s.toList.drop 19) := by
      rw [← List.cons_append, ← List.append_assoc, ← htake, List.take_append_drop]
    obtain ⟨x, hx⟩ := prefix_dt_key_sql hs hlength
    obtain ⟨y, hy⟩ := prefix_dt_key hs (by rw [byteSize_ascii hu]; exact hlength)
    obtain ⟨d, hd, hsize⟩ := hb u.length hlength
    rw [← hx, ← hy, List.append_assoc, List.append_assoc]
    exact lt_iff_of_ne hd fun heq => hc (heq ▸ hsize)

end Keys

section Bounds

variable {Instant : Type} [LinearOrder Instant] {chrono : Chrono Instant} {t : String}

theorem narrow_of_shaped {base more : List Char} (h : shaped "0000-00-00T00:00:00".toList base) : Narrow (base ++ more) := by
  intro i hi
  have hlength : base.length = 19 := (shaped_iff.mp h).1
  have hlt : i < base.length := by omega
  exact ⟨base[i], by rw [List.getElem?_append_left hlt, List.getElem?_eq_getElem hlt],
    (shaped_size h).2 _ (List.getElem_mem hlt)⟩

theorem comma_not_mem_base {base : List Char} (h : shaped "0000-00-00T00:00:00".toList base) : ',' ∉ base := by
  have hblock (w n : Nat) : ',' ∉ Clock.block w n := fun h => absurd (Clock.isDigit_of_mem_block h) (by decide)
  obtain ⟨f, -, -, hbase⟩ := read_base h
  rw [hbase]
  simp [hblock]

/-- A fraction spelled with a point. -/
theorem canonical_fraction {frac : List Char} (h : is_fraction frac) :
    ∃ frac', (frac ++ ['Z']).replace ',' '.' = frac' ++ ['Z'] ∧ is_fraction frac' ∧ frac'.drop 1 = frac.drop 1 := by
  cases frac with
  | nil => exact ⟨[], rfl, rfl, rfl⟩
  | cons c digits =>
      obtain ⟨hmark, hne, hlength, hdigits⟩ := of_decide_eq_true h
      have hpoint : is_fraction ('.' :: digits) := decide_eq_true ⟨.inl rfl, hne, hlength, hdigits⟩
      refine ⟨'.' :: digits, ?_, hpoint, rfl⟩
      rcases hmark with rfl | rfl
      · refine List.replace_of_not_mem fun hmem => ?_
        rcases List.mem_append.mp hmem with hmem | hmem
        · rcases List.mem_cons.mp hmem with heq | hmem
          · exact absurd heq (by decide)
          · exact absurd (hdigits _ hmem) (by decide)
        · exact absurd (List.mem_singleton.mp hmem) (by decide)
      · exact List.replace_cons_self

/-- A bound as it is asked for and as it is bound: one base, one fraction. -/
theorem canonical_cut (h : parse_datetime chrono t.toList) : ∃ base frac frac', t.toList = base ++ (frac ++ ['Z']) ∧
    (canonical_datetime t).toList = base ++ (frac' ++ ['Z']) ∧ shaped "0000-00-00T00:00:00".toList base ∧
      is_fraction frac ∧ is_fraction frac' ∧ frac'.drop 1 = frac.drop 1 := by
  obtain ⟨base, frac, ht, hshape, hfrac, -⟩ := accepted_cut h
  obtain ⟨frac', hpoint, hfrac', hdrop⟩ := canonical_fraction hfrac
  refine ⟨base, frac, frac', ht, ?_, hshape, hfrac, hfrac', hdrop⟩
  rw [canonical_datetime, String.toList_ofList, ht, List.replace_append_right (comma_not_mem_base hshape), hpoint]

/-- A bound keeps its key where it is spelled with a point. -/
theorem canonical_key (h : parse_datetime chrono t.toList) :
    dt_key_sql (canonical_datetime t).toList = dt_key t ∧ Narrow (dt_key t) := by
  obtain ⟨base, frac, frac', ht, hcanonical, hshape, hfrac, hfrac', hdrop⟩ := canonical_cut h
  have hkey := dt_key_spelled ht hshape hfrac
  constructor
  · have hlength : base.length = 19 := (shaped_iff.mp hshape).1
    rw [dt_key_sql_eq, dt_key_spelled hcanonical hshape hfrac', hdrop, hkey]
    rw [hcanonical, List.take_left' hlength]
    exact (shaped_size hshape).2
  · rw [hkey]
    exact narrow_of_shaped hshape

theorem canonical_read (h : parse_datetime chrono t.toList) : read (canonical_datetime t).toList = read t.toList := by
  obtain ⟨base, frac, frac', ht, hcanonical, hshape, hfrac, hfrac', hdrop⟩ := canonical_cut h
  obtain ⟨f, hread, -, -⟩ := read_base hshape
  rw [ht, hcanonical, hread, hread, (fraction_digits hfrac).2.1, (fraction_digits hfrac').2.1, hdrop]

end Bounds

section Text

variable {Instant : Type} [LinearOrder Instant] {chrono : Chrono Instant} {json_text : Value → String} {first : Nat}
  {binds : List String} {el : Value} {r : TemporalQ} {s t : String}

/-- The texts that a window compares with. -/
def bounds (r : TemporalQ) : List String :=
  if r.timerel = "before" ∨ r.timerel = "after" then [r.time_at]
  else if r.timerel = "between" then r.time_at :: r.end_time_at.toList
  else []

theorem conj_eq_true {a b : Option Bool} : conj a b = some true ↔ a = some true ∧ b = some true := by
  rcases a with _ | _ | _ <;> rcases b with _ | _ | _ <;> simp [conj]

theorem and_iff {a b : Cond} : truth json_text first binds el (.and a b) = some true ↔
    truth json_text first binds el a = some true ∧ truth json_text first binds el b = some true := by
  rw [truth, conj_eq_true]

theorem placeholder_eq (first : Nat) (binds : List String) (i : Nat) : placeholder first binds (first + i) = binds[i]? := by
  rw [placeholder, if_pos (Nat.le_add_right _ _), Nat.add_sub_cancel_left]

theorem member_eq (tp : String) : member first (tp :: binds) el = el.get tp := by
  have hfirst : placeholder first (tp :: binds) first = some tp := placeholder_eq first (tp :: binds) 0
  rw [member, hfirst, Option.bind_some]

theorem present_iff {tp : String} :
    truth json_text first (tp :: binds) el .present = some true ↔ ∃ s, stamp tp el = some s := by
  rw [truth, member_eq, stamp]
  cases hget : el.get tp with
  | none => simp
  | some v => cases v <;> simp [jsonb_typeof, Value.as_str]

theorem get_of_stamp {tp : String} (h : stamp tp el = some s) : el.get tp = some (.string s) := by
  rw [stamp] at h
  cases hget : el.get tp with
  | none =>
      rw [hget] at h
      cases h
  | some v =>
      rw [hget] at h
      cases v <;> cases h
      rfl

theorem keys_eq {tp : String} {n : Nat} (hs : stamp tp el = some s)
    (hn : placeholder first (tp :: binds) n = some (canonical_datetime t)) (ht : parse_datetime chrono t.toList) :
    keys json_text first (tp :: binds) el n = some (dt_key_sql s.toList, dt_key t) := by
  rw [keys, member_eq, get_of_stamp hs, hn, ← (canonical_key ht).1]
  rfl

theorem less_iff {tp : String} {n : Nat} (hs : stamp tp el = some s)
    (hn : placeholder first (tp :: binds) n = some (canonical_datetime t)) (ht : parse_datetime chrono t.toList) :
    truth json_text first (tp :: binds) el (.less n) = some true ↔ dt_key s < dt_key t := by
  rw [truth, keys_eq hs hn ht, Option.map_some, Option.some_inj, decide_eq_true_iff]
  exact dt_key_sql_lt_iff (canonical_key ht).2

theorem at_least_iff {tp : String} {n : Nat} (hs : stamp tp el = some s)
    (hn : placeholder first (tp :: binds) n = some (canonical_datetime t)) (ht : parse_datetime chrono t.toList) :
    truth json_text first (tp :: binds) el (.at_least n) = some true ↔ dt_key t ≤ dt_key s := by
  rw [truth, keys_eq hs hn ht, Option.map_some, Option.some_inj, decide_eq_true_iff]
  exact not_lt.symm.trans ((not_congr (dt_key_sql_lt_iff (canonical_key ht).2)).trans not_lt)

/-- Every condition asks for a text first. -/
theorem stamp_of_keeps {c : CompiledSql} (hc : compile_instance_range r first = some c) (h : c.keeps json_text first el) :
    ∃ s, stamp r.timeproperty el = some s := by
  rw [compile_instance_range] at hc
  split_ifs at hc
  · cases hc
    exact present_iff.mp h
  · cases hc
    exact present_iff.mp (and_iff.mp h).1
  · cases hc
    exact present_iff.mp (and_iff.mp h).1
  · obtain ⟨e, -, rfl⟩ := Option.map_eq_some_iff.mp hc
    exact present_iff.mp (and_iff.mp (and_iff.mp h).1).1

/-- The condition keeps what the window has in it. -/
theorem keeps_iff (hbounds : ∀ t ∈ bounds r, parse_datetime chrono t.toList) {c : CompiledSql}
    (hc : compile_instance_range r first = some c) : c.keeps json_text first el ↔ instance_matches r el = true := by
  have hbinds (a b : String) : placeholder first [r.timeproperty, a, b] (first + 1) = some a ∧
      placeholder first [r.timeproperty, a, b] (first + 2) = some b ∧ placeholder first [r.timeproperty, a] (first + 1) = some a :=
    ⟨placeholder_eq _ _ 1, placeholder_eq _ _ 2, placeholder_eq _ _ 1⟩
  rw [instance_matches, key]
  cases hstamp : stamp r.timeproperty el with
  | none =>
      refine iff_of_false (fun h => ?_) Bool.false_ne_true
      obtain ⟨s, hs⟩ := stamp_of_keeps hc h
      rw [hstamp] at hs
      cases hs
  | some s =>
      have hpresent (binds : List String) : truth json_text first (r.timeproperty :: binds) el .present = some true :=
        present_iff.mpr ⟨s, hstamp⟩
      rw [Option.map_some, Option.any_some]
      rw [compile_instance_range] at hc
      split_ifs at hc ⊢ with hany hbefore hafter hbetween
      · cases hc
        exact iff_of_true (hpresent _) rfl
      · cases hc
        have ht := hbounds r.time_at (by rw [bounds, if_pos (.inl hbefore)]; exact List.mem_cons_self)
        rw [CompiledSql.keeps, and_iff, less_iff hstamp (hbinds _ "").2.2 ht, decide_eq_true_iff,
          and_iff_right (hpresent _)]
      · cases hc
        have ht := hbounds r.time_at (by rw [bounds, if_pos (.inr hafter)]; exact List.mem_cons_self)
        rw [CompiledSql.keeps, and_iff, at_least_iff hstamp (hbinds _ "").2.2 ht, decide_eq_true_iff,
          and_iff_right (hpresent _)]
      · obtain ⟨e, he, rfl⟩ := Option.map_eq_some_iff.mp hc
        have hmem : bounds r = [r.time_at, e] := by
          rw [bounds, if_neg (not_or.mpr ⟨hbefore, hafter⟩), if_pos hbetween, he]
          rfl
        have ht := hbounds r.time_at (by rw [hmem]; exact List.mem_cons_self)
        have hte := hbounds e (by rw [hmem]; exact List.mem_cons_of_mem _ List.mem_cons_self)
        rw [CompiledSql.keeps, and_iff, and_iff, at_least_iff hstamp (hbinds _ _).1 ht,
          less_iff hstamp (hbinds _ _).2.1 hte, and_iff_right (hpresent _), he, Option.any_some, Bool.and_eq_true,
          decide_eq_true_iff, decide_eq_true_iff]

end Text

section Written

open Clock (block)

/-- The zone of a date and time, with the character or the sign that it is written with. -/
inductive Zone
  | utc (c : Char) (h : c = 'Z' ∨ c = 'z')
  | offset (east : Bool) (hour minute : Nat) (hhour : hour < 24) (hminute : minute < 60)

def Zone.text : Zone → List Char
  | .utc c _ => [c]
  | .offset east hour minute _ _ => (if east then '+' else '-') :: (block 2 hour ++ ':' :: block 2 minute)

/-- How far the zone is ahead, in seconds. -/
def Zone.seconds : Zone → ℤ
  | .utc _ _ => 0
  | .offset east hour minute _ _ => if east then hour * 3600 + minute * 60 else -(hour * 3600 + minute * 60)

/-- A date and time as RFC 3339 writes it: any separator, fraction and zone. -/
structure Rfc3339 where
  fields : Fields
  sound : fields.Sound
  separator : Char
  fraction : List Char
  zone : Zone
  separates : separator = 'T' ∨ separator = 't' ∨ separator = ' '
  digits : ∀ d ∈ fraction, d.isDigit
  told : fields.micro = micros (fraction.take 6)

def Rfc3339.time (w : Rfc3339) : List Char :=
  block 2 w.fields.hour ++ ':' :: (block 2 w.fields.minute ++ ':' :: (block 2 w.fields.second ++
    ((if w.fraction = [] then [] else '.' :: w.fraction) ++ w.zone.text)))

def Rfc3339.text (w : Rfc3339) : List Char :=
  block 4 w.fields.year ++ '-' :: (block 2 w.fields.month ++ '-' :: (block 2 w.fields.day ++ w.separator :: w.time))

/-- The instant, in whole millionths of a second. -/
def Rfc3339.linear (w : Rfc3339) : ℤ := w.fields.linear - w.zone.seconds * 1000000

variable {w : Rfc3339} {f : Fields}

theorem seconds_bounds (z : Zone) : -86340 ≤ z.seconds ∧ z.seconds ≤ 86340 := by
  cases z with
  | utc c h =>
      rw [Zone.seconds]
      omega
  | offset east hour minute hhour hminute =>
      rw [Zone.seconds]
      split_ifs <;> omega

theorem block_size (w n : Nat) : byteSize (block w n) = w := by
  induction w generalizing n with
  | zero => rfl
  | succ w ih =>
      have hdigit : ∀ n < 10, (Nat.digitChar n).utf8Size = 1 := by decide
      rw [block, byteSize_cons, hdigit _ (Nat.mod_lt _ (by norm_num)), ih, Nat.add_comm]

/-- The key of a date and time begins with its date. -/
theorem written_key (w : Rfc3339) : ∃ x, dt_key (String.ofList w.text) =
    block 4 w.fields.year ++ '-' :: (block 2 w.fields.month ++ '-' :: (block 2 w.fields.day ++ x)) := by
  have hsize : byteSize (block 4 w.fields.year ++ '-' :: (block 2 w.fields.month ++ '-' :: block 2 w.fields.day)) < 19 := by
    rw [byteSize_append, byteSize_cons, byteSize_append, byteSize_cons, block_size, block_size, block_size]
    decide
  have htext : (String.ofList w.text).toList =
      block 4 w.fields.year ++ '-' :: (block 2 w.fields.month ++ '-' :: block 2 w.fields.day) ++ w.separator :: w.time := by
    rw [String.toList_ofList, Rfc3339.text, List.append_assoc, List.cons_append, List.append_assoc, List.cons_append]
  obtain ⟨x, hx⟩ := prefix_dt_key htext hsize
  refine ⟨w.separator :: x, ?_⟩
  rw [← hx]
  simp only [List.append_assoc, List.cons_append, List.nil_append]

/-- Two days are the slack: what is before in text is before in time but for
the zones, each less than a day, and the day that a date leaves open. -/
theorem linear_of_lt (hf : f.Sound) (h : dt_key (String.ofList w.text) < f.key) :
    w.linear + 1 < f.linear + SLACK := by
  obtain ⟨x, hx⟩ := written_key w
  have hdays : w.fields.days ≤ f.days := by
    by_contra hlt
    rw [hx, Fields.key] at h
    exact h.asymm (lt_of_days_lt hf w.sound (not_le.mp hlt) _ x)
  have hw := linear_bounds w.sound
  have hbound := linear_bounds hf
  have hzone := seconds_bounds w.zone
  unfold Rfc3339.linear SLACK
  omega

theorem linear_of_le (hf : f.Sound) (h : f.key ≤ dt_key (String.ofList w.text)) : f.linear - SLACK ≤ w.linear := by
  obtain ⟨x, hx⟩ := written_key w
  have hdays : f.days ≤ w.fields.days := by
    by_contra hlt
    rw [hx, Fields.key] at h
    exact h.not_gt (lt_of_days_lt w.sound hf (not_le.mp hlt) x _)
  have hw := linear_bounds w.sound
  have hbound := linear_bounds hf
  have hzone := seconds_bounds w.zone
  unfold Rfc3339.linear SLACK
  omega

end Written

section Column

variable {Instant : Type} [LinearOrder Instant] {chrono : Chrono Instant} {json_text : Value → String}
  {timestamptz : String → Option ℤ} {first : Nat} {el : Value} {r : TemporalQ} {w : Rfc3339} {m : ℤ}

variable (chrono timestamptz) in
/-- Where the cast takes a date and time of a request, it reads the instant. -/
def Casts : Prop := ∀ t : String, parse_datetime chrono t.toList → ∀ c, timestamptz (canonical_datetime t) = some c →
  c = (read t.toList).linear

theorem before_column (hchrono : Calendrical chrono) (hcasts : Casts chrono timestamptz) {t : String} {c : ℤ}
    (ht : parse_datetime chrono t.toList) (hc : timestamptz (canonical_datetime t) = some c) (hm : m ≤ w.linear + 1)
    (h : dt_key (String.ofList w.text) < dt_key t) : m < c + SLACK := by
  obtain ⟨hsound, hkey⟩ := accepted_key hchrono ht
  rw [hkey] at h
  have hlt := linear_of_lt hsound h
  rw [hcasts t ht c hc]
  omega

theorem after_column (hchrono : Calendrical chrono) (hcasts : Casts chrono timestamptz) {t : String} {c : ℤ}
    (ht : parse_datetime chrono t.toList) (hc : timestamptz (canonical_datetime t) = some c) (hm : w.linear ≤ m)
    (h : dt_key t ≤ dt_key (String.ofList w.text)) : c - SLACK ≤ m := by
  obtain ⟨hsound, hkey⟩ := accepted_key hchrono ht
  rw [hkey] at h
  have hle := linear_of_le hsound h
  rw [hcasts t ht c hc]
  omega

theorem holds_iff {cb : ColumnBound} {binds : List String} :
    cb.holds first binds timestamptz (some m) ↔ cb.bound.truth first binds timestamptz (some m) = some (some true) := by
  rw [ColumnBound.holds, or_iff_left]
  rintro ⟨-, hnone, -⟩
  cases hnone

theorem below_iff {binds : List String} {n : Nat} :
    (Bound.below n).truth first binds timestamptz (some m) = some (some true) ↔
      ∃ c, (placeholder first binds n).bind timestamptz = some c ∧ m < c + SLACK := by
  rw [Bound.truth, Option.map_eq_some_iff]
  exact exists_congr fun c => and_congr_right fun _ => by rw [Option.map_some, Option.some_inj, decide_eq_true_iff]

theorem from_on_iff {binds : List String} {n : Nat} :
    (Bound.from_on n).truth first binds timestamptz (some m) = some (some true) ↔
      ∃ c, (placeholder first binds n).bind timestamptz = some c ∧ c - SLACK ≤ m := by
  rw [Bound.truth, Option.map_eq_some_iff]
  exact exists_congr fun c => and_congr_right fun _ => by rw [Option.map_some, Option.some_inj, decide_eq_true_iff]

theorem within_iff {binds : List String} {n k : Nat} :
    (Bound.within n k).truth first binds timestamptz (some m) = some (some true) ↔
      ∃ c, (placeholder first binds n).bind timestamptz = some c ∧
        ∃ d, (placeholder first binds k).bind timestamptz = some d ∧ c - SLACK ≤ m ∧ m < d + SLACK := by
  rw [Bound.truth, Option.bind_eq_some_iff]
  refine exists_congr fun c => and_congr_right fun _ => ?_
  rw [Option.map_eq_some_iff]
  exact exists_congr fun d => and_congr_right fun _ => by rw [Option.map_some, Option.some_inj, decide_eq_true_iff]

/-- For what the window has in it the column bound holds where the cast takes
the bounds of the window, and the statement fails elsewhere. -/
theorem column_iff (hchrono : Calendrical chrono) (hcasts : Casts chrono timestamptz)
    (hbounds : ∀ t ∈ bounds r, parse_datetime chrono t.toList) {c : CompiledSql} (hc : compile_instance_range r first = some c)
    {cb : ColumnBound} (hcb : column_range_bound r (first + 1) = some cb)
    (hstamp : stamp r.timeproperty el = some (String.ofList w.text)) (hm : w.linear ≤ m ∧ m ≤ w.linear + 1)
    (hmatch : instance_matches r el = true) :
    cb.holds first c.binds timestamptz (some m) ↔ ∀ t ∈ bounds r, (timestamptz (canonical_datetime t)).isSome := by
  rw [instance_matches, key, hstamp, Option.map_some, Option.any_some] at hmatch
  rw [compile_instance_range] at hc
  rw [column_range_bound] at hcb
  rw [bounds] at hbounds ⊢
  rw [holds_iff]
  cases hcolumn : column r.timeproperty with
  | none =>
      rw [hcolumn] at hcb
      cases hcb
  | some p =>
      obtain ⟨col, nullable⟩ := p
      rw [hcolumn] at hcb
      dsimp only at hcb
      by_cases hany : r.timerel = "any"
      · rw [hany] at hcb
        cases hcb
      · rw [if_neg hany] at hc hmatch
        by_cases hbefore : r.timerel = "before"
        · rw [if_pos hbefore] at hc hcb hmatch
          rw [if_pos (.inl hbefore)] at hbounds ⊢
          cases hc
          cases hcb
          rw [below_iff, placeholder_eq first _ 1, List.forall_mem_singleton, Option.isSome_iff_exists]
          have ht := hbounds _ List.mem_cons_self
          exact exists_congr fun d => and_iff_left_of_imp fun hd =>
            before_column hchrono hcasts ht hd hm.2 (of_decide_eq_true hmatch)
        · rw [if_neg hbefore] at hc hcb hmatch
          by_cases hafter : r.timerel = "after"
          · rw [if_pos hafter] at hc hcb hmatch
            rw [if_pos (.inr hafter)] at hbounds ⊢
            cases hc
            cases hcb
            rw [from_on_iff, placeholder_eq first _ 1, List.forall_mem_singleton, Option.isSome_iff_exists]
            have ht := hbounds _ List.mem_cons_self
            exact exists_congr fun d => and_iff_left_of_imp fun hd =>
              after_column hchrono hcasts ht hd hm.1 (of_decide_eq_true hmatch)
          · rw [if_neg hafter] at hc hcb hmatch
            rw [if_neg (not_or.mpr ⟨hbefore, hafter⟩)] at hbounds ⊢
            split_ifs at hc hcb hmatch hbounds ⊢ with hbetween
            obtain ⟨e, he, rfl⟩ := Option.map_eq_some_iff.mp hc
            obtain ⟨-, -, rfl⟩ := Option.map_eq_some_iff.mp hcb
            rw [he, Option.any_some, Bool.and_eq_true, decide_eq_true_iff, decide_eq_true_iff] at hmatch
            rw [he] at hbounds ⊢
            obtain ⟨ht, hte⟩ := List.forall_mem_cons.mp hbounds
            have hte := hte e List.mem_cons_self
            rw [within_iff, placeholder_eq first _ 1, placeholder_eq first _ 2, List.forall_mem_cons, Option.isSome_iff_exists]
            constructor
            · rintro ⟨c, hc, d, hd, -⟩
              exact ⟨⟨c, hc⟩, List.forall_mem_singleton.mpr (Option.isSome_iff_exists.mpr ⟨d, hd⟩)⟩
            · rintro ⟨⟨c, hc⟩, hrest⟩
              obtain ⟨d, hd⟩ := Option.isSome_iff_exists.mp (hrest e List.mem_cons_self)
              exact ⟨c, hc, d, hd, after_column hchrono hcasts ht hc hm.1 hmatch.1,
                before_column hchrono hcasts hte hd hm.2 hmatch.2⟩

/-- The condition in SQL is that of the window, keys are in the order of the
instants, and a row that is kept is within the column bound exactly where the
cast takes the bounds of the window. -/
theorem window_pruned (hchrono : Calendrical chrono) (hcasts : Casts chrono timestamptz) (json_text : Value → String) :
    (∀ r : TemporalQ, (∀ t ∈ bounds r, parse_datetime chrono t.toList) → ∀ first c el,
      compile_instance_range r first = some c → (c.keeps json_text first el ↔ instance_matches r el = true)) ∧
    (∀ s t : String, parse_datetime chrono s.toList → parse_datetime chrono t.toList →
      (dt_key s < dt_key t ↔ before (denoted s) (denoted t)) ∧ (dt_key s = dt_key t ↔ denoted s = denoted t)) ∧
    (∀ r : TemporalQ, (∀ t ∈ bounds r, parse_datetime chrono t.toList) → ∀ first c cb el,
      compile_instance_range r first = some c → column_range_bound r (first + 1) = some cb →
      ∀ (w : Rfc3339) (m : ℤ), stamp r.timeproperty el = some (String.ofList w.text) → w.linear ≤ m → m ≤ w.linear + 1 →
      ((c.keeps json_text first el → cb.holds first c.binds timestamptz (some m)) ↔
        (instance_matches r el = true → ∀ t ∈ bounds r, (timestamptz (canonical_datetime t)).isSome))) := by
  refine ⟨fun r hbounds first c el hc => keeps_iff hbounds hc, fun s t hs ht => dt_key_lt_iff hchrono hs ht, ?_⟩
  intro r hbounds first c cb el hc hcb w m hstamp hlow hhigh
  rw [keeps_iff hbounds hc]
  exact forall_congr' fun hmatch => column_iff hchrono hcasts hbounds hc hcb hstamp ⟨hlow, hhigh⟩ hmatch

/-- A cast that knows no year 0. -/
def since_year_one (s : String) : Option ℤ :=
  if (read s.toList).year = 0 then none else some (read s.toList).linear

theorem since_year_one_casts : Casts calendar since_year_one := by
  intro t ht c hc
  rw [since_year_one, canonical_read ht] at hc
  split_ifs at hc
  exact (Option.some.inj hc).symm

def after (t : String) : TemporalQ := ⟨"after", t, none, "observedAt"⟩

theorem real_new_year : (⟨2026, 1, 1, 0, 0, 0, 0⟩ : Fields).Sound := ⟨rfl, by decide, by decide⟩

def new_year : Rfc3339 where
  fields := ⟨2026, 1, 1, 0, 0, 0, 0⟩
  sound := real_new_year
  separator := 'T'
  fraction := []
  zone := .utc 'Z' (.inl rfl)
  separates := .inl rfl
  digits _ h := absurd h List.not_mem_nil
  told := rfl

def observed : Value := .object [("observedAt", .string "2026-01-01T00:00:00Z")]

/-- A bound with a comma, and one in the year 0. -/
def comma_bound : String := "2025-12-31T00:00:00,5Z"

def year_zero : String := "0000-01-01T00:00:00Z"

theorem accepted_bounds : parse_datetime calendar comma_bound.toList ∧ parse_datetime calendar year_zero.toList := by
  decide

theorem stamp_observed : stamp "observedAt" observed = some (String.ofList new_year.text) := by decide

theorem window_pruned_new_year : ∃ c cb, compile_instance_range (after comma_bound) 2 = some c ∧
    column_range_bound (after comma_bound) 3 = some cb ∧
    (c.keeps (fun _ => "") 2 observed ↔ instance_matches (after comma_bound) observed = true) ∧
    (dt_key year_zero < dt_key comma_bound ↔ before (denoted year_zero) (denoted comma_bound)) ∧
    ((c.keeps (fun _ => "") 2 observed → cb.holds 2 c.binds since_year_one (some new_year.linear)) ↔
      (instance_matches (after comma_bound) observed = true →
        ∀ t ∈ bounds (after comma_bound), (since_year_one (canonical_datetime t)).isSome)) := by
  have hbounds : ∀ t ∈ bounds (after comma_bound), parse_datetime calendar t.toList :=
    List.forall_mem_singleton.mpr accepted_bounds.1
  obtain ⟨htext, horder, hcolumn⟩ := window_pruned calendar_calendrical since_year_one_casts (fun _ => "")
  exact ⟨_, _, rfl, rfl, htext _ hbounds 2 _ _ rfl, (horder _ _ accepted_bounds.2 accepted_bounds.1).1,
    hcolumn _ hbounds 2 _ _ _ rfl rfl new_year _ stamp_observed le_rfl (Int.le_add_one le_rfl)⟩

/-- A window from the year 0 on has the reading in it, and its statement fails. -/
theorem year_zero_refused : parse_datetime calendar year_zero.toList = true ∧
    ∃ c cb, compile_instance_range (after year_zero) 2 = some c ∧ column_range_bound (after year_zero) 3 = some cb ∧
      c.keeps (fun _ => "") 2 observed ∧ ¬cb.holds 2 c.binds since_year_one (some new_year.linear) := by
  have hkept : truth (fun _ => "") 2 ["observedAt", canonical_datetime year_zero] observed
      (.and .present (.at_least 3)) = some true := by decide
  have hrefused : since_year_one (canonical_datetime year_zero) = none := by decide
  refine ⟨accepted_bounds.2, _, _, rfl, rfl, hkept, fun h => ?_⟩
  obtain ⟨m, hm, -⟩ := from_on_iff.mp (holds_iff.mp h)
  change since_year_one (canonical_datetime year_zero) = some m at hm
  rw [hrefused] at hm
  cases hm

end Column

end AntaresBroker.WindowSql
