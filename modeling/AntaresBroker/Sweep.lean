import AntaresBroker.SubMirror

namespace AntaresBroker.Notify

open Json Number Registry Expiry

def I64_MAX : Int := 2 ^ 63 - 1

def I64_MIN : Int := -2 ^ 63

def saturating_add (a b : Int) : Int := max I64_MIN (min I64_MAX (a + b))

/-- One period in milliseconds: the product rounds to a float, the cast truncates and saturates. -/
def interval_offset_ms (interval : F64) : Int :=
  let product := Binary64.round (Binary64.scaled interval.mag * 1000) Binary64.unit
  let z : Int := (Binary64.scaled product / Binary64.unit : Nat)
  if interval.neg then max I64_MIN (-z) else min I64_MAX z

section Due

variable {Instant : Type} [LinearOrder Instant] (chrono : Chrono Instant) (timestamp_millis : Instant → Int)

/-- One interval after the last notification or the creation; without either anchor at once. -/
def due_at_ms (sub : Value) (interval : F64) : Int :=
  let anchor := (((sub.get "notification").bind (fun n => n.get "lastNotification")).bind Value.as_str).or
    ((sub.get "createdAt").bind Value.as_str)
  match anchor.bind chrono.parse_from_rfc3339 with
  | some last => saturating_add (timestamp_millis last) (interval_offset_ms interval)
  | none => I64_MIN

def is_active (now_iso : String) (sub : Value) : Bool :=
  sub.get "isActive" ≠ some (.bool false) &&
    !((sub.get "expiresAt").bind Value.as_str).any (fun e => dt_key e < dt_key now_iso)

def interval_of (sub : Value) : Option F64 := (sub.get "timeInterval").bind Value.as_f64

/-- What comes of a due subscription: another instance fires it, nothing matches, or it is sent. -/
inductive Outcome
  | lost | nothing | sent

/-- One subscription of the sweep, and the earliest next instant it leaves. -/
def visit (now_ms : Int) (now_iso : String) (outcome : Value → Outcome) (next_sub : Int) (sub : Value) : Int :=
  match interval_of sub with
  | none => next_sub
  | some interval =>
      if !is_active now_iso sub then next_sub
      else
        let due_at := due_at_ms chrono timestamp_millis sub interval
        if now_ms < due_at then min next_sub due_at
        else
          let next_sub := min next_sub (saturating_add now_ms (interval_offset_ms interval))
          match outcome sub with
          | .nothing => min next_sub due_at
          | _ => next_sub

def found_due (now_ms : Int) (now_iso : String) (sub : Value) : Bool :=
  is_active now_iso sub &&
    (interval_of sub).any (fun interval => due_at_ms chrono timestamp_millis sub interval ≤ now_ms)

theorem visit_le (now_ms : Int) (now_iso : String) (outcome : Value → Outcome) (next_sub : Int) (sub : Value) :
    visit chrono timestamp_millis now_ms now_iso outcome next_sub sub ≤ next_sub := by
  unfold visit
  split
  · exact le_rfl
  · simp only
    split_ifs
    · exact le_rfl
    · exact min_le_left _ _
    · split
      · exact (min_le_left _ _).trans (min_le_left _ _)
      · exact min_le_left _ _

theorem foldl_visit_le (now_ms : Int) (now_iso : String) (outcome : Value → Outcome) (subs : List Value)
    (next_sub : Int) : subs.foldl (visit chrono timestamp_millis now_ms now_iso outcome) next_sub ≤ next_sub := by
  induction subs generalizing next_sub with
  | nil => exact le_rfl
  | cons sub subs ih => exact (ih _).trans (visit_le chrono timestamp_millis now_ms now_iso outcome next_sub sub)

/-- The sweep leaves an instant no later than any subscription it saw and found not due. -/
theorem foldl_visit_le_due {now_ms : Int} {now_iso : String} (outcome : Value → Outcome) (next_sub : Int)
    {subs : List Value} {sub : Value} (hsub : sub ∈ subs) {interval : F64} (hinterval : interval_of sub = some interval)
    (hactive : is_active now_iso sub = true) (hdue : found_due chrono timestamp_millis now_ms now_iso sub = false) :
    now_ms < due_at_ms chrono timestamp_millis sub interval ∧
      subs.foldl (visit chrono timestamp_millis now_ms now_iso outcome) next_sub ≤
        due_at_ms chrono timestamp_millis sub interval := by
  have hlt : now_ms < due_at_ms chrono timestamp_millis sub interval := by
    rw [found_due, hactive, hinterval, Option.any_some, Bool.true_and, decide_eq_false_iff_not, not_le] at hdue
    exact hdue
  refine ⟨hlt, ?_⟩
  induction subs generalizing next_sub with
  | nil => cases hsub
  | cons s subs ih =>
      rcases List.mem_cons.mp hsub with rfl | hsub
      · refine (foldl_visit_le chrono timestamp_millis now_ms now_iso outcome subs _).trans ?_
        unfold visit
        simp only [hinterval, hactive, Bool.not_true, Bool.false_eq_true, if_false, if_pos hlt]
        exact min_le_right _ _
      · exact ih _ hsub

/-- What runs out is never active again. -/
theorem is_active_mono {now_iso later : String} (h : dt_key now_iso ≤ dt_key later) {sub : Value}
    (hactive : is_active later sub = true) : is_active now_iso sub = true := by
  unfold is_active at hactive ⊢
  rw [Bool.and_eq_true] at hactive ⊢
  refine ⟨hactive.1, ?_⟩
  cases he : (sub.get "expiresAt").bind Value.as_str with
  | none => rfl
  | some e =>
      have hlater := hactive.2
      rw [he, Option.any_some, Bool.not_eq_true', decide_eq_false_iff_not, not_lt] at hlater
      rw [Option.any_some, Bool.not_eq_true', decide_eq_false_iff_not, not_lt]
      exact h.trans hlater

end Due

/-- The local variables of a sweep between the tenants it has read and those to come;
`observed` are the ids whose present document it found due. -/
structure Sweep where
  now_ms : Int
  sub_clock : Int
  todo : List String
  next_sub : Int
  observed : List (String × String)

inductive Phase
  | idle
  | loaded (now_ms sub_clock : Int)
  | reading (sweep : Sweep)
  | swept (observed : List (String × String))

/-- A new document of an id has not been observed. -/
def Phase.forget (tenant id : String) : Phase → Phase
  | .reading sweep => .reading { sweep with observed := sweep.observed.filter (fun p => p ≠ (tenant, id)) }
  | .swept observed => .swept (observed.filter (fun p => p ≠ (tenant, id)))
  | phase => phase

/-- The mirror, the wall clock and the one sweep there is at a time. -/
structure State where
  mirror : SubMirror
  wall : String
  phase : Phase

/-- The atomic steps: a write of the mirror, time passing, and those of the tick. -/
inductive Action
  | write (tenant id : String) (doc : Option Value)
  | pass (wall : String)
  | load (now_ms : Int)
  | enumerate (tenants : List String)
  | read (outcome : Value → Outcome)
  | store

section Steps

variable {Instant : Type} [LinearOrder Instant] (chrono : Chrono Instant) (timestamp_millis : Instant → Int)

def load (s : State) (now_ms : Int) : Option State :=
  if 0 ≤ now_ms ∧ s.mirror.next_sub_sweep_ms ≤ now_ms then
    some { s with phase := .loaded now_ms s.mirror.next_sub_sweep_ms }
  else none

def read_tenant (s : State) (sweep : Sweep) (tenant : String) (rest : List String) (outcome : Value → Outcome) : State :=
  let docs := s.mirror.periodic_docs tenant
  let due := docs.filter (fun p => found_due chrono timestamp_millis sweep.now_ms s.wall p.2)
  { s with phase := .reading { sweep with
      todo := rest
      next_sub := (docs.map Prod.snd).foldl (visit chrono timestamp_millis sweep.now_ms s.wall outcome) sweep.next_sub
      observed := due.map (fun p => (tenant, p.1)) ++ sweep.observed } }

/-- The exchange of the clock, which fails when it is no longer the one loaded. -/
def compare_exchange (s : State) (sweep : Sweep) : State :=
  { s with
    mirror := { s.mirror with
      next_sub_sweep_ms := if s.mirror.next_sub_sweep_ms = sweep.sub_clock then sweep.next_sub
        else s.mirror.next_sub_sweep_ms }
    phase := .swept sweep.observed }

def step (s : State) : Action → Option State
  | .write tenant id doc =>
      some { s with mirror := s.mirror.apply tenant id doc, phase := s.phase.forget tenant id }
  | .pass wall => if dt_key s.wall ≤ dt_key wall then some { s with wall := wall } else none
  | .load now_ms =>
      match s.phase with
      | .idle | .swept _ => load s now_ms
      | _ => none
  | .enumerate tenants =>
      match s.phase with
      | .loaded now_ms sub_clock => some { s with phase := .reading ⟨now_ms, sub_clock, tenants, I64_MAX, []⟩ }
      | _ => none
  | .read outcome =>
      match s.phase with
      | .reading sweep =>
          match sweep.todo with
          | tenant :: rest => some (read_tenant chrono timestamp_millis s sweep tenant rest outcome)
          | [] => none
      | _ => none
  | .store =>
      match s.phase with
      | .reading sweep => if sweep.todo = [] then some (compare_exchange s sweep) else none
      | _ => none

/-- A periodic document is never due before the epoch, and none is written to a tenant a sweep
has read or passed over when that sweep loaded a zero; the store lists every tenant of the mirror. -/
def Meets (s : State) : Action → Prop
  | .write tenant _ (some doc) =>
      (∀ interval, interval_of doc = some interval → 0 ≤ due_at_ms chrono timestamp_millis doc interval) ∧
        ∀ sweep, s.phase = .reading sweep → sweep.sub_clock = 0 → (doc.get "timeInterval").isSome → tenant ∈ sweep.todo
  | .enumerate tenants => ∀ tenant, s.mirror.periodic_docs tenant ≠ [] → tenant ∈ tenants
  | _ => True

inductive Run (start : State) : State → Prop
  | start : Run start start
  | step {s s' : State} (a : Action) : Run start s → Meets chrono timestamp_millis s a →
      step chrono timestamp_millis s a = some s' → Run start s'

end Steps

section Invariant

variable {Instant : Type} [LinearOrder Instant] (chrono : Chrono Instant) (timestamp_millis : Instant → Int)

/-- An active periodic subscription the mirror holds, whose present document no sweep observed as due. -/
structure Live (s : State) (observed : List (String × String)) (tenant id : String) (doc : Value) (interval : F64) : Prop where
  held : s.mirror.doc_of tenant id = some doc
  periodic : interval_of doc = some interval
  active : is_active s.wall doc = true
  unobserved : (tenant, id) ∉ observed

/-- The clock stands as it was loaded or a write has zeroed it. -/
def Signalled (s : State) (sub_clock : Int) : Prop :=
  s.mirror.next_sub_sweep_ms = sub_clock ∨ s.mirror.next_sub_sweep_ms = 0

/-- What holds of a sweep under way: of the tenants done with, the instant it computed accounts for each
subscription, or the clock has been zeroed since it was loaded. -/
structure Accounted (s : State) (sweep : Sweep) : Prop where
  epoch : 0 ≤ sweep.now_ms
  signalled : Signalled s sweep.sub_clock
  accounted : ∀ tenant id doc interval, Live s sweep.observed tenant id doc interval → tenant ∉ sweep.todo →
    0 ≤ due_at_ms chrono timestamp_millis doc interval ∧
      (sweep.next_sub ≤ due_at_ms chrono timestamp_millis doc interval ∨
        (s.mirror.next_sub_sweep_ms = 0 ∧ sweep.sub_clock ≠ 0))

/-- The clock is parked past no subscription. -/
def Covered (s : State) (observed : List (String × String)) : Prop :=
  ∀ tenant id doc interval, Live s observed tenant id doc interval →
    0 ≤ due_at_ms chrono timestamp_millis doc interval ∧
      s.mirror.next_sub_sweep_ms ≤ due_at_ms chrono timestamp_millis doc interval

def Inv (s : State) : Prop :=
  match s.phase with
  | .idle => True
  | .loaded now_ms sub_clock => 0 ≤ now_ms ∧ Signalled s sub_clock
  | .reading sweep => Accounted chrono timestamp_millis s sweep
  | .swept observed => Covered chrono timestamp_millis s observed

variable {chrono timestamp_millis} {s s' : State}

theorem apply_clock (m : SubMirror) (tenant id : String) (doc : Option Value) :
    (m.apply tenant id doc).next_sub_sweep_ms =
      if doc.any (fun d => (d.get "timeInterval").isSome) then 0 else m.next_sub_sweep_ms := rfl

theorem zero_after_write {m : SubMirror} (h : m.next_sub_sweep_ms = 0) (tenant id : String) (doc : Option Value) :
    (m.apply tenant id doc).next_sub_sweep_ms = 0 := by
  rw [apply_clock, h, ite_self]

theorem signalled_write {sub_clock : Int} (h : Signalled s sub_clock) (tenant id : String) (doc : Option Value)
    (phase : Phase) : Signalled ⟨s.mirror.apply tenant id doc, s.wall, phase⟩ sub_clock := by
  unfold Signalled
  simp only [apply_clock]
  split_ifs
  · exact .inr rfl
  · exact h

/-- After a write a subscription is the one written, which zeroed the clock, or one that was there. -/
theorem live_write {tenant id t j : String} {doc : Option Value} {d : Value} {interval : F64} {phase : Phase}
    {observed : List (String × String)}
    (h : Live ⟨s.mirror.apply tenant id doc, s.wall, phase⟩ (observed.filter (fun p => p ≠ (tenant, id))) t j d interval) :
    (t = tenant ∧ doc = some d ∧ (d.get "timeInterval").isSome ∧ (s.mirror.apply tenant id doc).next_sub_sweep_ms = 0) ∨
      Live s observed t j d interval := by
  have hheld := h.held
  rw [SubMirror.doc_of_apply] at hheld
  by_cases hsame : t = tenant ∧ j = id
  · rw [if_pos hsame] at hheld
    have hsome : (d.get "timeInterval").isSome := by
      obtain ⟨v, hv, -⟩ := Option.bind_eq_some_iff.mp h.periodic
      rw [hv]
      rfl
    refine .inl ⟨hsame.1, hheld, hsome, ?_⟩
    rw [apply_clock, hheld, Option.any_some, if_pos hsome]
  · rw [if_neg hsame] at hheld
    refine .inr ⟨hheld, h.periodic, h.active, fun hmem => h.unobserved (List.mem_filter.mpr ⟨hmem, ?_⟩)⟩
    simpa [imp_iff_not_or] using hsame

theorem write_keeps {tenant id : String} {doc : Option Value} (h : Inv chrono timestamp_millis s)
    (hmeets : Meets chrono timestamp_millis s (.write tenant id doc)) :
    Inv chrono timestamp_millis ⟨s.mirror.apply tenant id doc, s.wall, s.phase.forget tenant id⟩ := by
  unfold Inv at h ⊢
  cases hp : s.phase with
  | idle => trivial
  | loaded now_ms sub_clock =>
      rw [hp] at h
      exact ⟨h.1, signalled_write h.2 tenant id doc _⟩
  | reading sweep =>
      rw [hp] at h
      refine ⟨h.epoch, signalled_write h.signalled tenant id doc _, fun t j d interval hlive htodo => ?_⟩
      rcases live_write hlive with ⟨rfl, rfl, hsome, hzero⟩ | hlive
      · refine ⟨hmeets.1 interval hlive.periodic, .inr ⟨hzero, fun hclock => htodo (hmeets.2 sweep hp hclock hsome)⟩⟩
      · obtain ⟨hpos, hnext | hzero⟩ := h.accounted t j d interval hlive htodo
        · exact ⟨hpos, .inl hnext⟩
        · exact ⟨hpos, .inr ⟨zero_after_write hzero.1 tenant id doc, hzero.2⟩⟩
  | swept observed =>
      rw [hp] at h
      intro t j d interval hlive
      rcases live_write hlive with ⟨rfl, rfl, hsome, hzero⟩ | hlive
      · have hpos := hmeets.1 interval hlive.periodic
        exact ⟨hpos, hzero.le.trans hpos⟩
      · obtain ⟨hpos, hle⟩ := h t j d interval hlive
        refine ⟨hpos, ?_⟩
        simp only [apply_clock]
        split_ifs
        · exact hpos
        · exact hle

theorem pass_keeps {wall : String} (h : Inv chrono timestamp_millis s) (hle : dt_key s.wall ≤ dt_key wall) :
    Inv chrono timestamp_millis { s with wall := wall } := by
  have hback : ∀ {phase observed t j d interval}, Live ⟨s.mirror, wall, phase⟩ observed t j d interval →
      Live s observed t j d interval :=
    fun hlive => ⟨hlive.held, hlive.periodic, is_active_mono hle hlive.active, hlive.unobserved⟩
  unfold Inv at h ⊢
  cases hp : s.phase with
  | idle => trivial
  | loaded now_ms sub_clock => rw [hp] at h; exact h
  | reading sweep =>
      rw [hp] at h
      exact ⟨h.epoch, h.signalled, fun t j d interval hlive htodo => h.accounted t j d interval (hback hlive) htodo⟩
  | swept observed =>
      rw [hp] at h
      exact fun t j d interval hlive => h t j d interval (hback hlive)

theorem load_keeps {now_ms : Int} (h : load s now_ms = some s') : Inv chrono timestamp_millis s' := by
  unfold load at h
  split_ifs at h with hguard
  obtain rfl := Option.some.inj h
  exact ⟨hguard.1, .inl rfl⟩

/-- A tenant the store does not list has nothing periodic in the mirror. -/
theorem enumerate_keeps {now_ms sub_clock : Int} {tenants : List String} (h : Inv chrono timestamp_millis s)
    (hp : s.phase = .loaded now_ms sub_clock) (hmeets : Meets chrono timestamp_millis s (.enumerate tenants)) :
    Inv chrono timestamp_millis { s with phase := .reading ⟨now_ms, sub_clock, tenants, I64_MAX, []⟩ } := by
  unfold Inv at h
  rw [hp] at h
  refine ⟨h.1, h.2, fun t j d interval hlive htodo => ?_⟩
  have hsome : (d.get "timeInterval").isSome := by
    obtain ⟨v, hv, -⟩ := Option.bind_eq_some_iff.mp hlive.periodic
    rw [hv]
    rfl
  have hmem : (j, d) ∈ s.mirror.periodic_docs t := SubMirror.mem_periodic_docs.mpr ⟨hlive.held, hsome⟩
  exact absurd (hmeets t (List.ne_nil_of_mem hmem)) htodo

theorem read_keeps {sweep : Sweep} {tenant : String} {rest : List String} {outcome : Value → Outcome}
    (h : Accounted chrono timestamp_millis s sweep) (htodo : sweep.todo = tenant :: rest) :
    Inv chrono timestamp_millis (read_tenant chrono timestamp_millis s sweep tenant rest outcome) := by
  refine ⟨h.epoch, h.signalled, fun t j d interval hlive hrest => ?_⟩
  have hunobserved := hlive.unobserved
  simp only [List.mem_append, not_or] at hunobserved
  have hlive' : Live s sweep.observed t j d interval := ⟨hlive.held, hlive.periodic, hlive.active, hunobserved.2⟩
  by_cases ht : t = tenant
  · subst ht
    have hsome : (d.get "timeInterval").isSome := by
      obtain ⟨v, hv, -⟩ := Option.bind_eq_some_iff.mp hlive.periodic
      rw [hv]
      rfl
    have hmem : (j, d) ∈ s.mirror.periodic_docs t := SubMirror.mem_periodic_docs.mpr ⟨hlive.held, hsome⟩
    have hdue : found_due chrono timestamp_millis sweep.now_ms s.wall d = false := by
      rw [Bool.eq_false_iff]
      exact fun hdue => hunobserved.1 (List.mem_map.mpr ⟨(j, d), List.mem_filter.mpr ⟨hmem, hdue⟩, rfl⟩)
    have hdoc : d ∈ (s.mirror.periodic_docs t).map Prod.snd := List.mem_map.mpr ⟨(j, d), hmem, rfl⟩
    obtain ⟨hlt, hle⟩ := foldl_visit_le_due chrono timestamp_millis outcome sweep.next_sub hdoc hlive.periodic
      hlive.active hdue
    exact ⟨h.epoch.trans hlt.le, .inl hle⟩
  · have hnot : t ∉ sweep.todo := by
      rw [htodo, List.mem_cons, not_or]
      exact ⟨ht, hrest⟩
    obtain ⟨hpos, hnext | hzero⟩ := h.accounted t j d interval hlive' hnot
    · exact ⟨hpos, .inl ((foldl_visit_le chrono timestamp_millis _ _ _ _ _).trans hnext)⟩
    · exact ⟨hpos, .inr hzero⟩

/-- The exchange parks the clock at the instant computed, or a zero stands. -/
theorem store_keeps {sweep : Sweep} (h : Accounted chrono timestamp_millis s sweep) (htodo : sweep.todo = []) :
    Inv chrono timestamp_millis (compare_exchange s sweep) := by
  intro t j d interval hlive
  have hlive' : Live s sweep.observed t j d interval := ⟨hlive.held, hlive.periodic, hlive.active, hlive.unobserved⟩
  obtain ⟨hpos, hnext⟩ := h.accounted t j d interval hlive' (by rw [htodo]; exact List.not_mem_nil)
  refine ⟨hpos, ?_⟩
  simp only [compare_exchange]
  split_ifs with hclock
  · exact hnext.elim id (fun hzero => absurd (hclock.symm.trans hzero.1) hzero.2)
  · exact (h.signalled.resolve_left hclock).le.trans hpos

theorem step_keeps {a : Action} (h : Inv chrono timestamp_millis s) (hmeets : Meets chrono timestamp_millis s a)
    (hstep : step chrono timestamp_millis s a = some s') : Inv chrono timestamp_millis s' := by
  cases a with
  | write tenant id doc =>
      obtain rfl := Option.some.inj hstep
      exact write_keeps h hmeets
  | pass wall =>
      simp only [step] at hstep
      split_ifs at hstep with hle
      obtain rfl := Option.some.inj hstep
      exact pass_keeps h hle
  | load now_ms =>
      simp only [step] at hstep
      split at hstep
      · exact load_keeps hstep
      · exact load_keeps hstep
      · cases hstep
  | enumerate tenants =>
      simp only [step] at hstep
      split at hstep
      · next hp =>
          obtain rfl := Option.some.inj hstep
          exact enumerate_keeps h hp hmeets
      · cases hstep
  | read outcome =>
      simp only [step] at hstep
      split at hstep
      · next sweep hp =>
          have hinv : Accounted chrono timestamp_millis s sweep := by
            unfold Inv at h
            rwa [hp] at h
          split at hstep
          · next htodo =>
              obtain rfl := Option.some.inj hstep
              exact read_keeps hinv htodo
          · cases hstep
      · cases hstep
  | store =>
      simp only [step] at hstep
      split at hstep
      · next sweep hp =>
          have hinv : Accounted chrono timestamp_millis s sweep := by
            unfold Inv at h
            rwa [hp] at h
          split_ifs at hstep with htodo
          obtain rfl := Option.some.inj hstep
          exact store_keeps hinv htodo
      · cases hstep

theorem run_keeps {start : State} (hidle : start.phase = .idle) (h : Run chrono timestamp_millis start s) :
    Inv chrono timestamp_millis s := by
  induction h with
  | start =>
      unfold Inv
      rw [hidle]
      trivial
  | step a _ hmeets hstep ih => exact step_keeps ih hmeets hstep

end Invariant

section Parking

variable {Instant : Type} [LinearOrder Instant] (chrono : Chrono Instant) (timestamp_millis : Instant → Int)

/-- After every sweep of a run whose steps meet the condition, the clock is parked past no active periodic
subscription but those the sweep found due. -/
theorem sweep_covers {start s : State} {observed : List (String × String)} (hidle : start.phase = .idle)
    (h : Run chrono timestamp_millis start s) (hswept : s.phase = .swept observed) :
    ∀ tenant id doc interval, Live s observed tenant id doc interval →
      s.mirror.next_sub_sweep_ms ≤ due_at_ms chrono timestamp_millis doc interval := by
  have hinv := run_keeps hidle h
  unfold Inv at hinv
  rw [hswept] at hinv
  exact fun tenant id doc interval hlive => (hinv tenant id doc interval hlive).2

/-- Every minute, since its creation. -/
def each_minute : Value := .object [("createdAt", .string "2023-11-14T22:13:20.000Z"), ("timeInterval", .number (.posInt 60))]

def minute : F64 := ofDecimal (integer false 60)

/-- The milliseconds of the one instant here. -/
def created_ms : String → Int := fun _ => 1700000000000

def no_subscriptions (clock : Int) : State := ⟨⟨BTreeMap.empty, clock⟩, "2023-11-14T22:13:20.000Z", .idle⟩

def written (clock : Int) : State := ⟨(no_subscriptions clock).mirror.apply "default" "urn:s" (some each_minute),
  "2023-11-14T22:13:20.000Z", .reading ⟨1700000000000, clock, [], I64_MAX, []⟩⟩

/-- A subscription written after a sweep of no tenants loaded the clock. -/
def late_write : List Action :=
  [.load 1700000000000, .enumerate [], .write "default" "urn:s" (some each_minute), .store]

theorem live_written (clock : Int) (next : Int) : Live ⟨⟨(written clock).mirror.map, next⟩, (written clock).wall, .swept []⟩ []
    "default" "urn:s" each_minute minute :=
  ⟨(SubMirror.doc_of_apply (no_subscriptions clock).mirror "default" "urn:s" (some each_minute) _ _).trans
      (if_pos ⟨rfl, rfl⟩), rfl,
    (by decide : is_active "2023-11-14T22:13:20.000Z" each_minute = true), List.not_mem_nil⟩

theorem sweep_covers_late_write :
    (compare_exchange (written 5) ⟨1700000000000, 5, [], I64_MAX, []⟩).mirror.next_sub_sweep_ms ≤
      due_at_ms fixed_width created_ms each_minute minute := by
  have hrun : Run fixed_width created_ms (no_subscriptions 5) (compare_exchange (written 5) ⟨1700000000000, 5, [], I64_MAX, []⟩) := by
    refine .step .store (.step (.write "default" "urn:s" (some each_minute)) (.step (.enumerate [])
      (.step (.load 1700000000000) .start trivial rfl) ?_ rfl) ⟨?_, ?_⟩ rfl) trivial rfl
    · exact fun _ h => absurd rfl h
    · intro interval hinterval
      obtain rfl := Option.some.inj hinterval
      decide +kernel
    · intro sweep hsweep hclock
      obtain rfl := Phase.reading.inj hsweep
      exact absurd hclock (by decide)
  exact sweep_covers fixed_width created_ms rfl hrun rfl "default" "urn:s" each_minute minute (live_written 5 _)

/-- A clock that stood at zero cannot tell the write of a zero: the exchange succeeds and parks the clock for good. -/
theorem sweep_parks_past_late_write :
    ∃ s, late_write.foldlM (step fixed_width created_ms) (no_subscriptions 0) = some s ∧ s.phase = .swept [] ∧
      Live s [] "default" "urn:s" each_minute minute ∧
        due_at_ms fixed_width created_ms each_minute minute < s.mirror.next_sub_sweep_ms := by
  refine ⟨_, rfl, rfl, live_written 0 I64_MAX, ?_⟩
  decide +kernel

end Parking

end AntaresBroker.Notify
