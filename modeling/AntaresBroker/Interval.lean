import Mathlib
import AntaresBroker.Bookkeeping
import AntaresBroker.Runs
import AntaresBroker.Sweep

namespace AntaresBroker.Interval

open Json Notify Number Clock Expiry Runs

section Closures

variable {Instant : Type} [LinearOrder Instant] (chrono : Chrono Instant) (timestamp_millis : Instant → Int)

/-- The closure of `claim_interval`: the document with the claim's stamp and
the `lastNotification` it overwrote, `none` when nothing is written. -/
def claim_interval (interval : F64) (now_ms : Int) (now_iso : String) (doc : Value) : Option (Value × Option Value) :=
  if now_ms < due_at_ms chrono timestamp_millis doc interval then none
  else
    match doc with
    | .object o =>
        match (o.lookup "notification").getD (.object []) with
        | .object n =>
            some (.object (SortedMap.insert "notification"
              (.object (SortedMap.insert "lastNotification" (.string now_iso) n)) o), n.lookup "lastNotification")
        | _ => some (.object o, none)
    | _ => none

/-- The closure of `release_interval`. -/
def release_interval (prev : Option Value) : Value → Value :=
  at_notification fun n =>
    match prev with
    | some v => SortedMap.insert "lastNotification" v n
    | none => SortedMap.erase "lastNotification" n

theorem claim_interval_of_notification {doc : Value} {n : Map} (h : notification doc = some n) (interval : F64)
    (now_ms : Int) (now_iso : String) :
    claim_interval chrono timestamp_millis interval now_ms now_iso doc =
      if now_ms < due_at_ms chrono timestamp_millis doc interval then none
      else some (at_notification (SortedMap.insert "lastNotification" (.string now_iso)) doc, n.lookup "lastNotification") := by
  unfold claim_interval
  cases doc with
  | object o =>
      cases hl : o.lookup "notification" with
      | none => simp [notification, Value.get, hl] at h
      | some v =>
          cases v with
          | object m =>
              obtain rfl : m = n := by simpa [notification, Value.get, hl, Value.as_object] using h
              simp [at_notification, hl]
          | _ => simp [notification, Value.get, hl, Value.as_object] at h
  | _ => cases h

theorem notification_release_interval {doc : Value} {n : Map} (h : notification doc = some n) (prev : Option Value) :
    ∃ m, notification (release_interval prev doc) = some m ∧ m.lookup "lastNotification" = prev := by
  refine ⟨_, (notification_at_notification _ _).trans (by rw [h, Option.map_some]), ?_⟩
  cases prev <;> simp

/-- The due instant of a subscription that has sent: one interval after. -/
theorem due_at_ms_of_sent {doc : Value} {n : Map} {s : String} {i : Instant} (h : notification doc = some n)
    (hlast : n.lookup "lastNotification" = some (.string s)) (hs : chrono.parse_from_rfc3339 s = some i)
    (interval : F64) : due_at_ms chrono timestamp_millis doc interval =
      saturating_add (timestamp_millis i) (interval_offset_ms interval) := by
  have hn : doc.get "notification" = some (.object n) := by
    cases hg : doc.get "notification" with
    | none => rw [notification, hg] at h; cases h
    | some v =>
        cases v with
        | object m =>
            rw [notification, hg] at h
            cases h
            rfl
        | _ => rw [notification, hg] at h; cases h
  have hanchor : ((((doc.get "notification").bind (fun n => n.get "lastNotification")).bind Value.as_str).or
      ((doc.get "createdAt").bind Value.as_str)) = some s := by
    rw [hn, Option.bind_some]
    change ((n.lookup "lastNotification").bind Value.as_str).or _ = _
    rw [hlast]
    rfl
  unfold due_at_ms
  simp only [hanchor, Option.bind_some, hs]

end Closures

/-- Where a pod stands: with no claim, with one and the `lastNotification` it
overwrote, or with the request of `deliver_as` prepared at an instant and not
yet booked. -/
inductive Pod
  | idle
  | claimed (prev : Option Value)
  | sending (now : Stamp 3)

/-- The stored subscription, the pods, the latest reading of the clocks and the
instants the Notifications sent were booked at, the last one first. -/
structure System where
  doc : Value
  clock : Stamp 3
  pods : Nat → Pod
  sent : List (Stamp 3)

inductive Move
  | claim (p : Nat) (checked stamped : Stamp 3)
  | release (p : Nat)
  | deliver (p : Nat) (now : Stamp 3)
  | book (p : Nat)

section Steps

variable {Instant : Type} [LinearOrder Instant] (chrono : Chrono Instant) (timestamp_millis : Instant → Int) (interval : F64)

/-- The milliseconds of a reading of the clock. -/
def millis (t : Stamp 3) : Int := ((chrono.parse_from_rfc3339 (render t)).map timestamp_millis).getD 0

def step (s : System) : Move → Option System
  | .claim p checked stamped =>
      match s.pods p with
      | .idle =>
          if s.clock ≤ checked ∧ checked ≤ stamped then
            match claim_interval chrono timestamp_millis interval (millis chrono timestamp_millis checked)
                (render stamped) s.doc with
            | some (doc, prev) => some ⟨doc, stamped, Function.update s.pods p (.claimed prev), s.sent⟩
            | none => some { s with clock := checked }
          else none
      | _ => none
  | .release p =>
      match s.pods p with
      | .claimed prev => some { s with doc := release_interval prev s.doc, pods := Function.update s.pods p .idle }
      | _ => none
  | .deliver p now =>
      match s.pods p with
      | .claimed _ => if s.clock ≤ now then some { s with clock := now, pods := Function.update s.pods p (.sending now) }
          else none
      | _ => none
  | .book p =>
      match s.pods p with
      | .sending now => some ⟨(record_delivery s.doc (render now)).doc, s.clock, Function.update s.pods p .idle, now :: s.sent⟩
      | _ => none

def initial (doc : Value) (clock : Stamp 3) : System := ⟨doc, clock, fun _ => .idle, []⟩

def last_notification (doc : Value) : Option Value := (notification doc).bind (fun n => n.lookup "lastNotification")

/-- The instant of the last Notification sent, or what stood before any was. -/
def last_sent (before : Option Value) (sent : List (Stamp 3)) : Option Value :=
  (sent.head?.map (fun t => Value.string (render t))).or before

/-- One firing per interval, and a `lastNotification` that tells the last one. -/
structure Periodic (before : Option Value) (s : System) : Prop where
  apart : s.sent.Pairwise fun t u =>
    interval_offset_ms interval ≤ |millis chrono timestamp_millis t - millis chrono timestamp_millis u|
  last : (∀ p, s.pods p = .idle) → last_notification s.doc = last_sent before s.sent

/-- No firing is claimed while the claim of another pod is outstanding. -/
def Orderly (s : System) : Move → Prop
  | .claim _ checked stamped =>
      (claim_interval chrono timestamp_millis interval (millis chrono timestamp_millis checked)
        (render stamped) s.doc).isSome → ∀ q, s.pods q = .idle
  | _ => True

/-- An instant a Notification may be booked at. -/
def Ready (sent : List (Stamp 3)) (t : Stamp 3) : Prop :=
  ∀ u ∈ sent, millis chrono timestamp_millis u + interval_offset_ms interval ≤ millis chrono timestamp_millis t

/-- The claim outstanding, if there is one. -/
inductive Outstanding (before : Option Value) (s : System) : Prop
  | none (hidle : ∀ p, s.pods p = .idle) (hlast : last_notification s.doc = last_sent before s.sent)
  | claimed (p : Nat) (hidle : ∀ q, q ≠ p → s.pods q = .idle) (hp : s.pods p = .claimed (last_sent before s.sent))
      (hready : Ready chrono timestamp_millis interval s.sent s.clock)
  | sending (p : Nat) (now : Stamp 3) (hidle : ∀ q, q ≠ p → s.pods q = .idle) (hp : s.pods p = .sending now)
      (hnow : now ≤ s.clock) (hready : Ready chrono timestamp_millis interval s.sent now)

structure Inv (before : Option Value) (s : System) : Prop where
  object : (notification s.doc).isSome
  past : ∀ t ∈ s.sent, t ≤ s.clock
  apart : s.sent.Pairwise fun t u =>
    millis chrono timestamp_millis u + interval_offset_ms interval ≤ millis chrono timestamp_millis t
  outstanding : Outstanding chrono timestamp_millis interval before s

variable {chrono timestamp_millis interval}

theorem stamp_trans {r s t : Stamp 3} (h : r ≤ s) (h' : s ≤ t) : r ≤ t :=
  show fields r ≤ fields t from le_trans (show fields r ≤ fields s from h) h'

theorem millis_mono (hmono : Monotone timestamp_millis) {s t : Stamp 3} (h : s ≤ t) :
    millis chrono timestamp_millis s ≤ millis chrono timestamp_millis t := by
  obtain ⟨i, j, hi, hj, hij⟩ := chrono.stamp_mono 3 s t h
  rw [millis, millis, hi, hj]
  exact hmono hij

theorem Ready.mono (hmono : Monotone timestamp_millis) {sent : List (Stamp 3)} {s t : Stamp 3}
    (h : Ready chrono timestamp_millis interval sent s) (hst : s ≤ t) :
    Ready chrono timestamp_millis interval sent t :=
  fun u hu => (h u hu).trans (millis_mono hmono hst)

theorem le_of_saturating_add_le {a b c : Int} (h : saturating_add a b ≤ c) (hc : c < I64_MAX) : a + b ≤ c := by
  unfold saturating_add at h
  rcases min_le_iff.mp ((le_max_right _ _).trans h) with hmax | hle
  · exact absurd hc (not_lt.mpr hmax)
  · exact hle

/-- A due subscription: every Notification sent is an interval back. -/
theorem ready_of_due (hmono : Monotone timestamp_millis) (hmax : ∀ i, timestamp_millis i < I64_MAX)
    {before : Option Value} {s : System} {checked : Stamp 3} (h : Inv chrono timestamp_millis interval before s)
    (hlast : last_notification s.doc = last_sent before s.sent) (hclock : s.clock ≤ checked)
    (hdue : ¬millis chrono timestamp_millis checked < due_at_ms chrono timestamp_millis s.doc interval) :
    Ready chrono timestamp_millis interval s.sent checked := by
  obtain ⟨n, hn⟩ := Option.isSome_iff_exists.mp h.object
  cases hsent : s.sent with
  | nil => exact fun u hu => absurd hu List.not_mem_nil
  | cons t rest =>
      obtain ⟨i, -, hi, -⟩ := chrono.stamp_mono 3 t t (le_refl (fields t))
      have hlookup : n.lookup "lastNotification" = some (.string (render t)) := by
        rw [last_notification, hn, Option.bind_some, hsent] at hlast
        exact hlast
      have hmillis : millis chrono timestamp_millis t = timestamp_millis i := by
        rw [millis, hi]
        rfl
      rw [not_lt, due_at_ms_of_sent chrono timestamp_millis hn hlookup hi, ← hmillis] at hdue
      have hlt : millis chrono timestamp_millis checked < I64_MAX := by
        obtain ⟨j, -, hj, -⟩ := chrono.stamp_mono 3 checked checked (le_refl (fields checked))
        rw [millis, hj]
        exact hmax j
      have hhead := le_of_saturating_add_le hdue hlt
      have hapart := h.apart
      have hpast := h.past
      rw [hsent] at hapart hpast
      intro u hu
      rcases List.mem_cons.mp hu with rfl | hu
      · exact hhead
      · have hle : millis chrono timestamp_millis t ≤ millis chrono timestamp_millis _ :=
          millis_mono hmono (stamp_trans (hpast t List.mem_cons_self) hclock)
        exact ((List.pairwise_cons.mp hapart).1 u hu).trans hle

theorem last_notification_record_delivery {doc : Value} (h : (notification doc).isSome) (now : String) :
    last_notification (record_delivery doc now).doc = some (.string now) := by
  obtain ⟨n, hn⟩ := Option.isSome_iff_exists.mp h
  rw [last_notification, notification_record_delivery, hn, Option.map_some, Option.bind_some, lookup_stamp_sent]
  rfl

theorem inv_initial {doc : Value} {clock : Stamp 3} (h : (notification doc).isSome) :
    Inv chrono timestamp_millis interval (last_notification doc) (initial doc clock) where
  object := h
  past _ ht := absurd ht List.not_mem_nil
  apart := List.Pairwise.nil
  outstanding := .none (fun _ => rfl) rfl

theorem Outstanding.of_idle {before : Option Value} {s : System}
    (h : Outstanding chrono timestamp_millis interval before s) (hidle : ∀ p, s.pods p = .idle) :
    last_notification s.doc = last_sent before s.sent := by
  cases h with
  | none _ hlast => exact hlast
  | claimed q _ hq _ => rw [hidle q] at hq; cases hq
  | sending q now _ hq _ _ => rw [hidle q] at hq; cases hq

theorem inv_claim (hmono : Monotone timestamp_millis) (hmax : ∀ i, timestamp_millis i < I64_MAX)
    {before : Option Value} {s t : System} {p : Nat} {checked stamped : Stamp 3}
    (h : Inv chrono timestamp_millis interval before s)
    (hm : Orderly chrono timestamp_millis interval s (.claim p checked stamped))
    (hs : step chrono timestamp_millis interval s (.claim p checked stamped) = some t) :
    Inv chrono timestamp_millis interval before t := by
  obtain ⟨n, hn⟩ := Option.isSome_iff_exists.mp h.object
  cases hp : s.pods p with
  | claimed prev => simp [step, hp] at hs
  | sending now => simp [step, hp] at hs
  | idle =>
      by_cases htime : s.clock ≤ checked ∧ checked ≤ stamped
      · simp only [step, hp, if_pos htime] at hs
        rw [Orderly, claim_interval_of_notification chrono timestamp_millis hn] at hm
        rw [claim_interval_of_notification chrono timestamp_millis hn] at hs
        by_cases hdue : millis chrono timestamp_millis checked < due_at_ms chrono timestamp_millis s.doc interval
        · -- not due: only the clock has moved
          rw [if_pos hdue] at hs
          cases hs
          refine ⟨h.object, fun u hu => stamp_trans (h.past u hu) htime.1, h.apart, ?_⟩
          cases h.outstanding with
          | none hidle hlast => exact .none hidle hlast
          | claimed q hidle hq hready => exact .claimed q hidle hq (hready.mono hmono htime.1)
          | sending q now hidle hq hnow hready => exact .sending q now hidle hq (stamp_trans hnow htime.1) hready
        · rw [if_neg hdue] at hs hm
          cases hs
          have hidle := hm rfl
          have hlast := h.outstanding.of_idle hidle
          have hready := (ready_of_due hmono hmax h hlast htime.1 hdue).mono hmono htime.2
          refine ⟨?_, fun u hu => stamp_trans (stamp_trans (h.past u hu) htime.1) htime.2, h.apart,
            .claimed p (fun q hq => ?_) ?_ hready⟩
          · rw [notification_at_notification, hn]
            rfl
          · exact (Function.update_of_ne hq _ _).trans (hidle q)
          · refine (Function.update_self _ _ _).trans ?_
            rw [← hlast, last_notification, hn, Option.bind_some]
      · simp [step, hp, htime] at hs

theorem Outstanding.of_claimed {before prev : Option Value} {s : System} {p : Nat}
    (h : Outstanding chrono timestamp_millis interval before s) (hp : s.pods p = .claimed prev) :
    prev = last_sent before s.sent ∧ (∀ q, q ≠ p → s.pods q = .idle) ∧
      Ready chrono timestamp_millis interval s.sent s.clock := by
  cases h with
  | none hidle _ => rw [hidle p] at hp; cases hp
  | claimed q hidle hq hready =>
      by_cases hpq : p = q
      · subst hpq
        rw [hp] at hq
        cases hq
        exact ⟨rfl, hidle, hready⟩
      · rw [hidle p hpq] at hp; cases hp
  | sending q now hidle hq _ _ =>
      by_cases hpq : p = q
      · rw [← hpq, hp] at hq; cases hq
      · rw [hidle p hpq] at hp; cases hp

theorem Outstanding.of_sending {before : Option Value} {s : System} {p : Nat} {now : Stamp 3}
    (h : Outstanding chrono timestamp_millis interval before s) (hp : s.pods p = .sending now) :
    (∀ q, q ≠ p → s.pods q = .idle) ∧ now ≤ s.clock ∧ Ready chrono timestamp_millis interval s.sent now := by
  cases h with
  | none hidle _ => rw [hidle p] at hp; cases hp
  | claimed q hidle hq _ =>
      by_cases hpq : p = q
      · rw [← hpq, hp] at hq; cases hq
      · rw [hidle p hpq] at hp; cases hp
  | sending q now' hidle hq hnow hready =>
      by_cases hpq : p = q
      · subst hpq
        rw [hp] at hq
        cases hq
        exact ⟨hidle, hnow, hready⟩
      · rw [hidle p hpq] at hp; cases hp

/-- The only pod with a claim gives it up. -/
theorem idle_update {pods : Nat → Pod} {p : Nat} (h : ∀ q, q ≠ p → pods q = .idle) (q : Nat) :
    Function.update pods p .idle q = .idle := by
  by_cases hq : q = p
  · rw [hq, Function.update_self]
  · rw [Function.update_of_ne hq, h q hq]

theorem inv_step (hmono : Monotone timestamp_millis) (hmax : ∀ i, timestamp_millis i < I64_MAX)
    {before : Option Value} {s t : System} {m : Move} (h : Inv chrono timestamp_millis interval before s)
    (hm : Orderly chrono timestamp_millis interval s m) (hs : step chrono timestamp_millis interval s m = some t) :
    Inv chrono timestamp_millis interval before t := by
  obtain ⟨n, hn⟩ := Option.isSome_iff_exists.mp h.object
  cases m with
  | claim p checked stamped => exact inv_claim hmono hmax h hm hs
  | release p =>
      cases hp : s.pods p with
      | idle => simp [step, hp] at hs
      | sending now => simp [step, hp] at hs
      | claimed prev =>
          simp only [step, hp, Option.some.injEq] at hs
          subst hs
          obtain ⟨m, hm, hlast⟩ := notification_release_interval hn prev
          obtain ⟨rfl, hidle, -⟩ := h.outstanding.of_claimed hp
          refine ⟨by rw [hm]; rfl, h.past, h.apart, .none (idle_update hidle) ?_⟩
          rw [last_notification, hm, Option.bind_some, hlast]
  | deliver p now =>
      cases hp : s.pods p with
      | idle => simp [step, hp] at hs
      | sending now => simp [step, hp] at hs
      | claimed prev =>
          by_cases htime : s.clock ≤ now
          · simp only [step, hp, if_pos htime, Option.some.injEq] at hs
            subst hs
            obtain ⟨-, hidle, hready⟩ := h.outstanding.of_claimed hp
            exact ⟨h.object, fun u hu => stamp_trans (h.past u hu) htime, h.apart,
              .sending p now (fun q hq => (Function.update_of_ne hq _ _).trans (hidle q hq))
                (Function.update_self _ _ _) (le_refl (fields now)) (hready.mono hmono htime)⟩
          · simp [step, hp, htime] at hs
  | book p =>
      cases hp : s.pods p with
      | idle => simp [step, hp] at hs
      | claimed prev => simp [step, hp] at hs
      | sending now =>
          simp only [step, hp, Option.some.injEq] at hs
          subst hs
          obtain ⟨hidle, hnow, hready⟩ := h.outstanding.of_sending hp
          refine ⟨?_, List.forall_mem_cons.mpr ⟨hnow, h.past⟩, List.pairwise_cons.mpr ⟨hready, h.apart⟩,
            .none (idle_update hidle) (last_notification_record_delivery h.object _)⟩
          rw [notification_record_delivery, hn]
          rfl

/-- However the pods' steps interleave, as long as no firing is claimed under
an outstanding claim there is one Notification an interval. -/
theorem one_firing_an_interval (chrono : Chrono Instant) (timestamp_millis : Instant → Int)
    (hmono : Monotone timestamp_millis) (hmax : ∀ i, timestamp_millis i < I64_MAX) (interval : F64) (doc : Value)
    (clock : Stamp 3) (s : System) (hdoc : (notification doc).isSome)
    (hrun : Run (step chrono timestamp_millis interval) (Orderly chrono timestamp_millis interval) (initial doc clock) s) :
    Periodic chrono timestamp_millis interval (last_notification doc) s := by
  have h := hrun.keeps (fun _ _ _ h hm hs => inv_step hmono hmax h hm hs) (inv_initial hdoc)
  refine ⟨h.apart.imp fun hle => ?_, fun hidle => ?_⟩
  · exact (le_sub_iff_add_le'.mpr hle).trans (le_abs_self _)
  · exact h.outstanding.of_idle hidle

end Steps

/-- The milliseconds of two midnights and a noon. -/
def clock_ms (s : String) : Int :=
  if s < "2026-01-01" then 1767139200000 else if s < "2026-01-01T12" then 1767225600000 else 1767268800000

theorem clock_ms_mono : Monotone clock_ms := by
  intro s t hst
  have hstep (u : String) (ht : t < u) : s < u := lt_of_le_of_lt hst ht
  unfold clock_ms
  by_cases h : t < "2026-01-01"
  · rw [if_pos h, if_pos (hstep _ h)]
  · by_cases h' : t < "2026-01-01T12"
    · rw [if_neg h, if_pos h']
      by_cases hs : s < "2026-01-01"
      · rw [if_pos hs]
        norm_num
      · rw [if_neg hs, if_pos (hstep _ h')]
    · rw [if_neg h, if_neg h']
      split_ifs <;> norm_num

theorem clock_ms_max (s : String) : clock_ms s < I64_MAX := by
  unfold clock_ms
  split_ifs <;> decide

def half_day : F64 := ofDecimal (integer false 43200)

def twice_daily : Value := .object [
  ("createdAt", .string "2025-12-31T00:00:00.000Z"),
  ("notification", .object []),
  ("timeInterval", .number (.posInt 43200))]

/-- A pod sends at midnight, and another one the noon after. -/
def in_turn : List Move :=
  [.claim 0 newYear newYear, .deliver 0 newYear, .book 0, .claim 1 newYearNoon newYearNoon, .deliver 1 newYearNoon, .book 1]

/-- A pod that claimed at midnight sends at noon, when another one has claimed the next firing. -/
def slow_pod : List Move :=
  [.claim 0 newYear newYear, .claim 1 newYearNoon newYearNoon, .deliver 1 newYearNoon, .book 1,
    .deliver 0 newYearNoon, .book 0]

section Examples

variable {Instant : Type} [LinearOrder Instant] {chrono : Chrono Instant} {timestamp_millis : Instant → Int} {interval : F64}

def Move.pod : Move → Nat
  | .claim p _ _ | .release p | .deliver p _ | .book p => p

theorem pods_of_step {s t : System} {m : Move} (h : step chrono timestamp_millis interval s m = some t) {q : Nat}
    (hq : q ≠ m.pod) : t.pods q = s.pods q := by
  cases m with
  | claim p checked stamped =>
      simp only [step] at h
      split at h
      · split at h
        · split at h
          · cases h
            exact Function.update_of_ne hq _ _
          · cases h
            rfl
        · cases h
      · cases h
  | release p =>
      simp only [step] at h
      split at h
      · cases h
        exact Function.update_of_ne hq _ _
      · cases h
  | deliver p now =>
      simp only [step] at h
      split at h
      · split at h
        · cases h
          exact Function.update_of_ne hq _ _
        · cases h
      · cases h
  | book p =>
      simp only [step] at h
      split at h
      · cases h
        exact Function.update_of_ne hq _ _
      · cases h

theorem idle_of_book {s t : System} {p : Nat} (h : step chrono timestamp_millis interval s (.book p) = some t) :
    t.pods p = .idle := by
  simp only [step] at h
  split at h
  · cases h
    exact Function.update_self _ _ _
  · cases h

/-- A pod that claims, sends and books while no other one has a claim. -/
theorem run_firing {s t u v : System} {p : Nat} {checked stamped now : Stamp 3} (hidle : ∀ q, s.pods q = .idle)
    (h : step chrono timestamp_millis interval s (.claim p checked stamped) = some t)
    (h' : step chrono timestamp_millis interval t (.deliver p now) = some u)
    (h'' : step chrono timestamp_millis interval u (.book p) = some v) :
    Run (step chrono timestamp_millis interval) (Orderly chrono timestamp_millis interval) s v ∧
      ∀ q, v.pods q = .idle := by
  refine ⟨.next (.book p) (.next (.deliver p now) (.next (.claim p checked stamped) (.refl s) (fun _ => hidle) h)
    trivial h') trivial h'', fun q => ?_⟩
  by_cases hq : q = p
  · rw [hq]
    exact idle_of_book h''
  · rw [pods_of_step h'' hq, pods_of_step h' hq, pods_of_step h hq, hidle q]

theorem one_firing_an_interval_in_turn : ∃ s,
    Run (step fixed_width clock_ms half_day) (Orderly fixed_width clock_ms half_day) (initial twice_daily newYear) s ∧
      s.sent.map (millis fixed_width clock_ms) = [1767268800000, 1767225600000] ∧
      Periodic fixed_width clock_ms half_day (last_notification twice_daily) s := by
  obtain ⟨s, hs⟩ : ∃ s, exec (step fixed_width clock_ms half_day) (fun _ _ => True) (initial twice_daily newYear) in_turn =
      some s := Option.isSome_iff_exists.mp (by decide +kernel)
  have hsent : (exec (step fixed_width clock_ms half_day) (fun _ _ => True) (initial twice_daily newYear) in_turn).map
      (fun s : System => s.sent.map (millis fixed_width clock_ms)) = some [1767268800000, 1767225600000] := by decide +kernel
  rw [hs, Option.map_some, Option.some_inj] at hsent
  obtain ⟨-, _, h₁, hs⟩ := exec_cons hs
  obtain ⟨-, _, h₂, hs⟩ := exec_cons hs
  obtain ⟨-, _, h₃, hs⟩ := exec_cons hs
  obtain ⟨-, _, h₄, hs⟩ := exec_cons hs
  obtain ⟨-, _, h₅, hs⟩ := exec_cons hs
  obtain ⟨-, _, h₆, hs⟩ := exec_cons hs
  cases hs
  obtain ⟨hrun, hidle⟩ := run_firing (fun _ => rfl) h₁ h₂ h₃
  obtain ⟨hrun', -⟩ := run_firing hidle h₄ h₅ h₆
  have hwhole := hrun.trans hrun'
  exact ⟨s, hwhole, hsent,
    one_firing_an_interval fixed_width clock_ms clock_ms_mono clock_ms_max half_day twice_daily newYear s rfl hwhole⟩

end Examples

theorem two_firings_an_interval : ¬ ∀ (interval : F64) (doc : Value) (clock : Stamp 3) (s : System),
    (notification doc).isSome → Free (step fixed_width clock_ms interval) (initial doc clock) s →
    Periodic fixed_width clock_ms interval (last_notification doc) s := by
  intro hall
  obtain ⟨s, hs⟩ : ∃ s, exec (step fixed_width clock_ms half_day) (fun _ _ => True) (initial twice_daily newYear) slow_pod =
      some s := Option.isSome_iff_exists.mp (by decide +kernel)
  have hsent : (exec (step fixed_width clock_ms half_day) (fun _ _ => True) (initial twice_daily newYear) slow_pod).map
      (fun s : System => s.sent.map (millis fixed_width clock_ms)) = some [1767268800000, 1767268800000] := by decide +kernel
  rw [hs, Option.map_some, Option.some_inj] at hsent
  have hoffset : interval_offset_ms half_day = 43200000 := by decide +kernel
  have hapart : (s.sent.map (millis fixed_width clock_ms)).Pairwise (fun x y => interval_offset_ms half_day ≤ |x - y|) :=
    List.pairwise_map.mpr (hall half_day twice_daily newYear s rfl (Run.of_exec hs)).apart
  rw [hsent, hoffset] at hapart
  have habs := (List.pairwise_cons.mp hapart).1 _ List.mem_cons_self
  norm_num at habs

end AntaresBroker.Interval
