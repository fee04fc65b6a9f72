import AntaresBroker.Calendar
import AntaresBroker.Temporal

namespace AntaresBroker.Aggregation

open Json Ql.Eval Registry Temporal

def SECOND : ℤ := 10 ^ 9

def DAY : ℤ := 86400 * SECOND

/-- What the aggregation uses of the date library: a time line of nanoseconds, its leap
seconds apart, with months counted from the year 0, and arithmetic within its first and last date. -/
structure Chrono (DateTime : Type) [LinearOrder DateTime] where
  parse_from_rfc3339 : String → Option DateTime
  leap : DateTime → Prop
  nanos : DateTime → ℤ
  month : DateTime → ℤ
  MIN_UTC : DateTime
  MAX_UTC : DateTime
  checked_add_seconds : DateTime → ℤ → Option DateTime
  checked_add_months : DateTime → ℤ → Option DateTime
  le_iff : ∀ {a b}, ¬ leap a → ¬ leap b → (a ≤ b ↔ nanos a ≤ nanos b)
  min_le : ∀ a, MIN_UTC ≤ a
  le_max : ∀ a, a ≤ MAX_UTC
  month_mono : ∀ {a b}, a ≤ b → month a ≤ month b
  apart : ∀ {a b}, ¬ leap a → ¬ leap b → a ≤ b →
    (month b - month a - 1) * (28 * DAY) ≤ nanos b - nanos a ∧ nanos b - nanos a ≤ (month b - month a + 1) * (31 * DAY)
  wide : month MIN_UTC ≤ -262142 * 12 ∧ 262142 * 12 ≤ month MAX_UTC
  proper : ¬ leap MIN_UTC ∧ ¬ leap MAX_UTC
  add_seconds : ∀ {a b s}, ¬ leap a → checked_add_seconds a s = some b → ¬ leap b ∧ nanos b = nanos a + s * SECOND
  add_seconds_isSome : ∀ {a s}, ¬ leap a →
    ((checked_add_seconds a s).isSome = true ↔ nanos MIN_UTC ≤ nanos a + s * SECOND ∧ nanos a + s * SECOND ≤ nanos MAX_UTC)
  add_months : ∀ {a b n}, ¬ leap a → checked_add_months a n = some b → ¬ leap b ∧ month b = month a + n
  add_months_isSome : ∀ {a n}, ¬ leap a → month MIN_UTC ≤ month a + n → month a + n ≤ month MAX_UTC →
    (checked_add_months a n).isSome = true
  four_digits : ∀ {s a}, parse_from_rfc3339 s = some a → 0 ≤ month a ∧ month a < 120000

section Datetimes

variable {DateTime : Type} [LinearOrder DateTime] (chrono : Chrono DateTime)

def parse_datetime (s : String) : Bool :=
  let base := s.toList.take 19
  let rest := s.toList.drop 19
  rest.getLast? = some 'Z' ∧ shaped "0000-00-00T00:00:00".toList base = true ∧ is_fraction rest.dropLast = true ∧
    (chrono.parse_from_rfc3339 (String.ofList (base ++ ['Z']))).isSome = true

/-- Texts that the library reads are in its order. -/
def InOrder : Prop := ∀ s t a b, parse_datetime chrono s = true → parse_datetime chrono t = true →
  chrono.parse_from_rfc3339 s = some a → chrono.parse_from_rfc3339 t = some b → (dt_key s < dt_key t ↔ a < b)

end Datetimes

section Periods

inductive AggrPeriod
  | Whole
  | Seconds (sc : ℕ)
  | Months (m sc : ℕ)

/-- The period of a duration of so many months and seconds. -/
def aggr_period (months secs : ℕ) : AggrPeriod :=
  match months, secs with
  | 0, 0 => .Whole
  | 0, sc => .Seconds sc
  | m, sc => .Months m sc

def out_of_range : AggrPeriod → Bool
  | .Whole => false
  | .Seconds sc => 86400 * 366 * 100 < sc
  | .Months m sc => 1200 < m || 86400 * 366 * 100 < sc

end Periods

section Classes

inductive AggrClass
  | Number | Text | Instant | TimeOfDay | List | Opaque | Relationship
deriving DecidableEq

def NGSI_LD_BASE : String := "https://uri.etsi.org/ngsi-ld/"

def term (s : String) : String :=
  if NGSI_LD_BASE.toList.isPrefixOf s.toList then String.ofList (s.toList.drop NGSI_LD_BASE.length) else s

/-- The datatype of a typed value, or of a string with a value type. -/
def value_datatype (inst : Value) : Option String :=
  match (inst.get "valueType").bind Value.as_str, (inst.get "value").any Value.is_string with
  | some vt, true => some (term vt)
  | _, _ => (((inst.get "value").bind (fun v => v.get "@type")).bind Value.as_str).map term

def classify_instance (inst : Value) : AggrClass :=
  if (inst.get "object").isSome then .Relationship
  else if (inst.get "valueList").isSome || (inst.get "objectList").isSome then .List
  else if (inst.get "vocab").isSome || (inst.get "languageMap").isSome || (inst.get "json").isSome then .Opaque
  else if value_datatype inst = some "DateTime" || value_datatype inst = some "Date" then .Instant
  else if value_datatype inst = some "Time" then .TimeOfDay
  else match inst.get "value" with
    | some (.number _) | some (.bool _) => .Number
    | some (.string _) => .Text
    | some (.array _) => .List
    | _ => .Opaque

def aggr_eligible (c : AggrClass) (method : String) : Bool :=
  if method = "totalCount" ∨ method = "distinctCount" then true
  else if method = "min" ∨ method = "max" then c ≠ .Opaque ∧ c ≠ .Relationship
  else if method = "avg" then c = .Number ∨ c = .List ∨ c = .TimeOfDay
  else if method = "sum" then c = .Number ∨ c = .List
  else if method = "stddev" ∨ method = "sumsq" then c = .Number
  else false

/-- The member an instance carries its data under. -/
def raw_of (inst : Value) : Option Value :=
  ["value", "object", "valueList", "objectList", "vocab", "languageMap", "json"].findSome? inst.get

end Classes

section Buckets

variable {DateTime : Type} [LinearOrder DateTime] (chrono : Chrono DateTime)

/-- The start of the k-th period from the anchor; periods before it have negative numbers. -/
def step (anchor : DateTime) (m sc : ℕ) (k : ℤ) : Option DateTime :=
  if k.natAbs * m < 2 ^ 32 then
    (chrono.checked_add_months anchor (k * m)).bind (fun base =>
      if -2 ^ 63 ≤ k * sc ∧ k * sc < 2 ^ 63 then chrono.checked_add_seconds base (k * sc) else none)
  else none

/-- The search between two periods for the one that holds an instant. -/
def bisect (start_of : ℤ → Option DateTime) (t : DateTime) : ℕ → ℤ → ℤ → ℤ × ℤ
  | 0, lo, hi => (lo, hi)
  | fuel + 1, lo, hi =>
      if 1 < hi - lo then
        let mid := lo + (hi - lo) / 2
        if (start_of mid).any (fun s => s ≤ t) then bisect start_of t fuel mid hi else bisect start_of t fuel lo mid
      else (lo, hi)

/-- The whole-month distance, in periods. -/
def approx (anchor t : DateTime) (m : ℕ) : ℤ := (chrono.month t - chrono.month anchor) / m

abbrev Bucket (DateTime : Type) := DateTime × DateTime

def seconds_bucket (anchor : DateTime) (sc : ℕ) (t : DateTime) : Bucket DateTime :=
  let idx := (chrono.nanos t - chrono.nanos anchor).tdiv SECOND / sc
  let bucket := (if -2 ^ 63 ≤ idx * sc ∧ idx * sc < 2 ^ 63 then chrono.checked_add_seconds anchor (idx * sc) else none).bind
    (fun start => (chrono.checked_add_seconds start sc).map (fun stop => (start, stop)))
  bucket.getD (anchor, chrono.MAX_UTC)

def months_bucket (anchor : DateTime) (m sc : ℕ) (t : DateTime) : Bucket DateTime :=
  let lo := min (approx chrono anchor t m) 0 - 1
  let hi := max (approx chrono anchor t m) 0 + 1
  let found := bisect (step chrono anchor m sc) t (hi - lo).toNat lo hi
  match step chrono anchor m sc found.1, step chrono anchor m sc found.2 with
  | some start, some stop => if start ≤ t then (start, stop) else (anchor, chrono.MAX_UTC)
  | some start, none => if start ≤ t then (start, chrono.MAX_UTC) else (anchor, chrono.MAX_UTC)
  | _, _ => (anchor, chrono.MAX_UTC)

/-- The bucket of an instant, `none` where the code divides by zero. -/
def bucket_of (period : AggrPeriod) (whole : Bucket DateTime) (anchor t : DateTime) : Option (Bucket DateTime) :=
  match period with
  | .Whole => some whole
  | .Seconds sc => if sc = 0 then none else some (seconds_bucket chrono anchor sc t)
  | .Months m sc => if m = 0 then none else some (months_bucket chrono anchor m sc t)

/-- The last bucket takes another instant that starts with it. -/
def push (buckets : List (Bucket DateTime × List (DateTime × Value))) (p : Bucket DateTime × (DateTime × Value)) :
    List (Bucket DateTime × List (DateTime × Value)) :=
  match buckets.getLast? with
  | some (bb, vals) => if bb.1 = p.1.1 then buckets.dropLast ++ [(bb, vals ++ [p.2])] else buckets ++ [(p.1, [p.2])]
  | none => buckets ++ [(p.1, [p.2])]

/-- The range of a query: the edge it names, and the other from the data; `none` where the
second after the last instant overflows. -/
def whole_of (tq : Option TemporalQ) (first last_at : DateTime) : Option (Bucket DateTime) :=
  (chrono.checked_add_seconds last_at 1).map (fun last =>
    match tq with
    | none => (first, last)
    | some q =>
        if q.timerel = "before" then (first, (chrono.parse_from_rfc3339 q.time_at).getD last)
        else if q.timerel = "between" then
          ((chrono.parse_from_rfc3339 q.time_at).getD first, (q.end_time_at.bind chrono.parse_from_rfc3339).getD last)
        else if q.timerel = "after" then ((chrono.parse_from_rfc3339 q.time_at).getD first, last)
        else (first, last))

end Buckets

section Rendering

variable {DateTime : Type} [LinearOrder DateTime] (chrono : Chrono DateTime) (tq : Option TemporalQ) (timeprop : String)

def time (inst : Value) : Option DateTime := (stamp timeprop inst).bind chrono.parse_from_rfc3339

/-- The instances with a time and a value, in the order of time. -/
def times (instances : List Value) : List (DateTime × Value) :=
  (instances.filterMap (fun inst => (time chrono timeprop inst).bind (fun t => (raw_of inst).map (fun raw => (t, raw))))).insertionSort
    (fun p q => p.1 ≤ q.1)

/-- The buckets of the instants, `none` on a panic. -/
def buckets (period : AggrPeriod) (times : List (DateTime × Value)) : Option (List (Bucket DateTime × List (DateTime × Value))) :=
  match times.head?, times.getLast? with
  | some first, some last =>
      let anchor := (tq.bind (fun q => chrono.parse_from_rfc3339 q.time_at)).getD first.1
      (whole_of chrono tq first.1 last.1).bind (fun whole =>
        (times.mapM (fun p => (bucket_of chrono period whole anchor p.1).map (fun b => (b, p)))).map (fun l => l.foldl push []))
  | _, _ => some []

/-- What an attribute comes to: nothing without a readable instance, the refusal of a
method, a panic, or the rows that each method is listed by. -/
inductive Rendered (DateTime : Type)
  | skipped
  | refused (method : String)
  | panicked
  | rows (c : AggrClass) (rows : List (Bucket DateTime × List (DateTime × Value)))

def render_attribute (methods : List String) (period : AggrPeriod) (instances : List Value) : Rendered DateTime :=
  match times chrono timeprop instances, (instances.filter (fun inst => (time chrono timeprop inst).isSome)).head? with
  | [], _ | _, none => .skipped
  | times, some inst =>
      let c := classify_instance inst
      match methods.find? (fun method => !aggr_eligible c method) with
      | some method => .refused method
      | none => (buckets chrono tq period times).elim .panicked (.rows c)

/-- What `totalCount` gives for each row. -/
def total_count (rows : List (Bucket DateTime × List (DateTime × Value))) : List Nat := rows.map (fun row => row.2.length)

end Rendering

section Partitioning

variable {DateTime : Type} [LinearOrder DateTime] (chrono : Chrono DateTime) (tq : Option TemporalQ) (timeprop : String)

/-- The start of a period, counted from the anchor. -/
def period_start (period : AggrPeriod) (anchor : DateTime) (k : ℤ) : Option DateTime :=
  match period with
  | .Whole => none
  | .Seconds sc => chrono.checked_add_seconds anchor (k * sc)
  | .Months m sc => step chrono anchor m sc k

def anchor_of (first : DateTime) : DateTime := (tq.bind (fun q => chrono.parse_from_rfc3339 q.time_at)).getD first

/-- Every instance is counted in one row, in the interval of which it is; the rows follow
one another without overlap, each of them a period counted from the anchor. -/
structure Partitions (period : AggrPeriod) (instances : List Value) (rows : List (Bucket DateTime × List (DateTime × Value))) :
    Prop where
  counted : (rows.flatMap (fun row => row.2.map (fun p => (some p.1, some p.2)))).Perm
    (instances.map (fun inst => (time chrono timeprop inst, raw_of inst)))
  within : ∀ row ∈ rows, row.2 ≠ [] ∧ ∀ p ∈ row.2, row.1.1 ≤ p.1 ∧ p.1 < row.1.2
  ordered : rows.Pairwise (fun r s => r.1.2 ≤ s.1.1)
  multiples : ∀ first ∈ (times chrono timeprop instances).head?, (match period with | .Whole => False | _ => True) →
    ∀ row ∈ rows, ∃ k, period_start chrono period (anchor_of chrono tq first.1) k = some row.1.1 ∧
      period_start chrono period (anchor_of chrono tq first.1) (k + 1) = some row.1.2

/-- The instances of an attribute are aggregated without a panic, in a partition; a refused method apart. -/
def Aggregates (methods : List String) (period : AggrPeriod) (instances : List Value) : Prop :=
  match render_attribute chrono tq timeprop methods period instances with
  | .skipped => instances = []
  | .refused _ => True
  | .panicked => False
  | .rows _ rows => Partitions chrono tq timeprop period instances rows

/-- Halving the way from the anchor back to an instant comes upon a period that has
begun by then before it leaves the calendar. -/
def Halves (start_of : ℤ → Option DateTime) (t : DateTime) : ℕ → ℤ → ℤ → Prop
  | 0, _, _ => True
  | fuel + 1, lo, hi => 1 < hi - lo → ∃ s, start_of (lo + (hi - lo) / 2) = some s ∧ (s ≤ t ∨ Halves start_of t fuel lo (lo + (hi - lo) / 2))

/-- An instant is put into the period it is in. Before the anchor, whole seconds must
not carry it over the start of a period, and months must not lead out of the calendar. -/
def Placed (period : AggrPeriod) (anchor t : DateTime) : Prop :=
  match period with
  | .Whole => True
  | .Seconds sc => t < anchor → (chrono.nanos t - chrono.nanos anchor) % SECOND = 0 ∨
      ¬ (sc : ℤ) ∣ (chrono.nanos t - chrono.nanos anchor).tdiv SECOND
  | .Months m sc => approx chrono anchor t m < 0 →
      Halves (step chrono anchor m sc) t (1 - (approx chrono anchor t m - 1)).toNat (approx chrono anchor t m - 1) 1

structure Placeable (period : AggrPeriod) (instances : List Value) : Prop where
  read : ∀ inst ∈ instances, (time chrono timeprop inst).isSome = true ∧ (raw_of inst).isSome = true
  placed : ∀ first ∈ (times chrono timeprop instances).head?, ∀ inst ∈ instances, ∀ t, time chrono timeprop inst = some t →
    Placed chrono period (anchor_of chrono tq first.1) t

end Partitioning

end AntaresBroker.Aggregation
