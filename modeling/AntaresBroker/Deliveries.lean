import AntaresBroker.Bookkeeping
import AntaresBroker.Expiry
import AntaresBroker.Runs

namespace AntaresBroker.Deliveries

open Json Notify Clock Expiry Runs

/-- Where one `deliver_as` stands: before its booking, with the request out
and the `lastSuccess` it displaced in hand, between a failed first attempt and
the end of its retries, or over. -/
inductive Phase
  | waiting
  | sending (now : Stamp 3) (prev_success : Option Value)
  | retrying
  | settled

inductive Event
  | booked (c : Nat) (now : Stamp 3)
  | delivered (c : Nat) (now : Stamp 3)
  | failed (c : Nat) (ts : Stamp 3)
  | retried (c : Nat) (ts : Stamp 3)

namespace Event

def is_booked : Event → Bool
  | booked _ _ => true
  | _ => false

def is_failed : Event → Bool
  | failed _ _ => true
  | _ => false

/-- Whether a delivery got through, for the events that settle one. -/
def outcome : Event → Option Bool
  | booked _ _ => none
  | delivered _ _ => some true
  | failed _ _ => some false
  | retried _ _ => some true

def success : Event → Option (Nat × Stamp 3)
  | delivered c now => some (c, now)
  | retried c ts => some (c, ts)
  | _ => none

def failure : Event → Option (Stamp 3)
  | failed _ ts => some ts
  | _ => none

end Event

/-- The stored subscription, its deliveries and what has happened to them, the
newest first. -/
structure System where
  doc : Value
  phase : Nat → Phase
  log : List Event

inductive Move
  | book (c : Nat) (now : Stamp 3)
  | deliver (c : Nat)
  | fail (c : Nat) (ts : Stamp 3)
  | retry (c : Nat) (ts : Stamp 3)
  | give_up (c : Nat)

def step (s : System) : Move → Option System
  | .book c now =>
      match s.phase c with
      | .waiting =>
          let booked := record_delivery s.doc (render now)
          some ⟨booked.doc, Function.update s.phase c (.sending now booked.prev_success), .booked c now :: s.log⟩
      | _ => none
  -- a first attempt that got through writes nothing
  | .deliver c =>
      match s.phase c with
      | .sending now _ => some ⟨s.doc, Function.update s.phase c .settled, .delivered c now :: s.log⟩
      | _ => none
  | .fail c ts =>
      match s.phase c with
      | .sending _ prev_success =>
          some ⟨failure_writeback prev_success (render ts) s.doc, Function.update s.phase c .retrying,
            .failed c ts :: s.log⟩
      | _ => none
  | .retry c ts =>
      match s.phase c with
      | .retrying =>
          some ⟨retry_writeback (render ts) s.doc, Function.update s.phase c .settled, .retried c ts :: s.log⟩
      | _ => none
  | .give_up c =>
      match s.phase c with
      | .retrying => some ⟨s.doc, Function.update s.phase c .settled, s.log⟩
      | _ => none

def initial (doc : Value) : System := ⟨doc, fun _ => .waiting, []⟩

def Settled (s : System) : Prop := ∀ c, s.phase c = .waiting ∨ s.phase c = .settled

def successes (log : List Event) : List (Nat × Stamp 3) := log.filterMap Event.success

def failures (log : List Event) : List (Stamp 3) := log.filterMap Event.failure

/-- The notification of a subscription whose deliveries have settled. -/
structure Accounts (before after : Map) (log : List Event) : Prop where
  sent : (count after "timesSent").toInt = (count before "timesSent").toInt + log.countP Event.is_booked
  missed : (count after "timesFailed").toInt = (count before "timesFailed").toInt + log.countP Event.is_failed
  no_success : successes log = [] → after.lookup "lastSuccess" = before.lookup "lastSuccess"
  last_success : successes log ≠ [] → ∃ p ∈ successes log,
    after.lookup "lastSuccess" = some (.string (render p.2)) ∧ ∀ q ∈ successes log, q.2 ≤ p.2
  last_failure : after.lookup "lastFailure" =
    ((failures log).head?.map (fun t => Value.string (render t))).or (before.lookup "lastFailure")
  no_outcome : log.findSome? Event.outcome = none → after.lookup "status" = before.lookup "status"
  status : ∀ ok, log.findSome? Event.outcome = some ok →
    (after.lookup "status" = some (.string "failed") ↔ ok = false)

/-- The stamps of `lastSuccess` no failure has taken back, the newest first. -/
def standing : List Event → List (Nat × Stamp 3)
  | [] => []
  | .booked c now :: log => (c, now) :: standing log
  | .delivered _ _ :: log => standing log
  | .failed c _ :: log => (standing log).filter (fun p => p.1 ≠ c)
  | .retried c ts :: log => (c, ts) :: standing log

def counter (s : System) (k : String) : Int64 := count ((notification s.doc).getD []) k

/-- No clock is behind a stamp that stands, only the newest stamp is taken
back, no failure stands when a first attempt turns out to have got through,
and no counter is at its end. -/
def Orderly (s : System) : Move → Prop
  | .book _ now => (∀ p ∈ standing s.log, p.2 ≤ now) ∧ counter s "timesSent" ≠ Int64.maxValue
  | .deliver _ => ((notification s.doc).getD []).lookup "status" ≠ some (.string "failed")
  | .fail c _ => (standing s.log).head?.map Prod.fst = some c ∧ counter s "timesFailed" ≠ Int64.maxValue
  | .retry _ ts => ∀ p ∈ standing s.log, p.2 ≤ ts
  | .give_up _ => True

instance (s : System) (m : Move) : Decidable (Orderly s m) :=
  match m with
  | .book _ now => inferInstanceAs (Decidable ((∀ p ∈ standing s.log, p.2 ≤ now) ∧ counter s "timesSent" ≠ Int64.maxValue))
  | .deliver _ => inferInstanceAs (Decidable (((notification s.doc).getD []).lookup "status" ≠ some (.string "failed")))
  | .fail c _ => inferInstanceAs
      (Decidable ((standing s.log).head?.map Prod.fst = some c ∧ counter s "timesFailed" ≠ Int64.maxValue))
  | .retry _ ts => inferInstanceAs (Decidable (∀ p ∈ standing s.log, p.2 ≤ ts))
  | .give_up _ => instDecidableTrue

/-- The value the newest of some stamps left. -/
def newest (old : Option Value) (stamps : List (Nat × Stamp 3)) : Option Value :=
  (stamps.head?.map (fun p => Value.string (render p.2))).or old

/-- What the notification says of the events so far. -/
structure Told (before after : Map) (log : List Event) : Prop where
  sent : (count after "timesSent").toInt = (count before "timesSent").toInt + log.countP Event.is_booked
  missed : (count after "timesFailed").toInt = (count before "timesFailed").toInt + log.countP Event.is_failed
  last_failure : after.lookup "lastFailure" =
    ((failures log).head?.map (fun t => Value.string (render t))).or (before.lookup "lastFailure")
  last_success : after.lookup "lastSuccess" = newest (before.lookup "lastSuccess") (standing log)
  no_event : log = [] → after.lookup "status" = before.lookup "status"
  status : ∀ e rest, log = e :: rest → (after.lookup "status" = some (.string "failed") ↔ e.outcome = some false)

/-- The stamps that stand are in the order of time, each of a delivery that got
through or is underway, and one underway holds what stood before its own. -/
structure Ranked (old : Option Value) (phase : Nat → Phase) (log : List Event) : Prop where
  ordered : (standing log).Pairwise (fun p q => q.2 ≤ p.2)
  nodup : ((standing log).map Prod.fst).Nodup
  sending : ∀ c now prev, phase c = .sending now prev →
    ∃ newer older, standing log = newer ++ (c, now) :: older ∧ prev = newest old older
  absent : ∀ c, phase c = .waiting ∨ phase c = .retrying → ∀ p ∈ standing log, p.1 ≠ c
  settled : ∀ p ∈ standing log, phase p.1 = .settled → p ∈ successes log
  kept : ∀ p ∈ successes log, p ∈ standing log ∧ phase p.1 = .settled
  underway : ∀ c now rest, log = .booked c now :: rest → ∃ prev, phase c = .sending now prev

def Inv (before : Map) (s : System) : Prop :=
  ∃ after, notification s.doc = some after ∧ Told before after s.log ∧ Ranked (before.lookup "lastSuccess") s.phase s.log

theorem step_cases {s t : System} {m : Move} (h : step s m = some t) :
    (∃ c now, m = .book c now ∧ s.phase c = .waiting ∧ t = ⟨(record_delivery s.doc (render now)).doc,
      Function.update s.phase c (.sending now (record_delivery s.doc (render now)).prev_success),
      .booked c now :: s.log⟩) ∨
    (∃ c now prev, m = .deliver c ∧ s.phase c = .sending now prev ∧
      t = ⟨s.doc, Function.update s.phase c .settled, .delivered c now :: s.log⟩) ∨
    (∃ c ts now prev, m = .fail c ts ∧ s.phase c = .sending now prev ∧
      t = ⟨failure_writeback prev (render ts) s.doc, Function.update s.phase c .retrying, .failed c ts :: s.log⟩) ∨
    (∃ c ts, m = .retry c ts ∧ s.phase c = .retrying ∧
      t = ⟨retry_writeback (render ts) s.doc, Function.update s.phase c .settled, .retried c ts :: s.log⟩) ∨
    (∃ c, m = .give_up c ∧ s.phase c = .retrying ∧ t = ⟨s.doc, Function.update s.phase c .settled, s.log⟩) := by
  cases m with
  | book c now =>
      cases hp : s.phase c <;> simp only [step, hp, Option.some.injEq, reduceCtorEq] at h
      exact .inl ⟨c, now, rfl, hp, h.symm⟩
  | deliver c =>
      cases hp : s.phase c <;> simp only [step, hp, Option.some.injEq, reduceCtorEq] at h
      exact .inr (.inl ⟨c, _, _, rfl, hp, h.symm⟩)
  | fail c ts =>
      cases hp : s.phase c <;> simp only [step, hp, Option.some.injEq, reduceCtorEq] at h
      exact .inr (.inr (.inl ⟨c, ts, _, _, rfl, hp, h.symm⟩))
  | retry c ts =>
      cases hp : s.phase c <;> simp only [step, hp, Option.some.injEq, reduceCtorEq] at h
      exact .inr (.inr (.inr (.inl ⟨c, ts, rfl, hp, h.symm⟩)))
  | give_up c =>
      cases hp : s.phase c <;> simp only [step, hp, Option.some.injEq, reduceCtorEq] at h
      exact .inr (.inr (.inr (.inr ⟨c, rfl, hp, h.symm⟩)))

theorem toInt_add_one {x : Int64} (h : x ≠ Int64.maxValue) : (x + 1).toInt = x.toInt + 1 := by
  have hmax : Int64.maxValue.toInt = 2 ^ 63 - 1 := rfl
  have hne : x.toInt ≠ 2 ^ 63 - 1 := fun hx => h (Int64.toInt_inj.mp (hx.trans hmax.symm))
  have hlt := x.toInt_lt
  have hle := x.minValue_le_toInt
  have hmin : Int64.minValue.toInt = -2 ^ 63 := rfl
  rw [Int64.toInt_add, show (1 : Int64).toInt = 1 from rfl, Int.bmod_eq_of_le] <;> omega

section Counters

variable {n : Map} {now ts : String} {prev : Option Value}

theorem count_congr {m n : Map} {k : String} (h : m.lookup k = n.lookup k) : count m k = count n k := by
  rw [count, count, h]

theorem count_of_lookup {k : String} {x : Int64} (h : n.lookup k = some (of_i64 x)) : count n k = x := by
  rw [count, h, Option.bind_some, as_i64_of_i64, Option.getD_some]

end Counters

section Told

variable {before after : Map} {log : List Event} {c : Nat} {now ts : Stamp 3} {prev : Option Value}

theorem Told.book (h : Told before after log) (hcount : count after "timesSent" ≠ Int64.maxValue) :
    Told before (stamp_sent (render now) after) (.booked c now :: log) where
  sent := by
    have hl : (stamp_sent (render now) after).lookup "timesSent" = some (of_i64 (count after "timesSent" + 1)) :=
      lookup_stamp_sent after _ _
    rw [count_of_lookup hl, toInt_add_one hcount, h.sent, List.countP_cons]
    simp only [Event.is_booked, if_true]
    omega
  missed := by
    rw [count_congr (lookup_stamp_sent after _ "timesFailed"), h.missed, List.countP_cons]
    rfl
  last_failure := (lookup_stamp_sent after _ _).trans h.last_failure
  last_success := lookup_stamp_sent after _ _
  no_event hnil := by cases hnil
  status e rest heq := by
    cases heq
    rw [lookup_stamp_sent, if_pos rfl]
    simp [Event.outcome]

theorem Told.deliver (h : Told before after log) (hok : after.lookup "status" ≠ some (.string "failed")) :
    Told before after (.delivered c now :: log) where
  sent := h.sent
  missed := h.missed
  last_failure := h.last_failure
  last_success := h.last_success
  no_event hnil := by cases hnil
  status e rest heq := by
    cases heq
    simp [Event.outcome, hok]

/-- The stamp taken back is the newest, so what it displaced is what stands. -/
theorem Told.fail (h : Told before after log) (hcount : count after "timesFailed" ≠ Int64.maxValue)
    (hprev : prev = newest (before.lookup "lastSuccess") (standing (.failed c ts :: log))) :
    Told before (stamp_failed prev (render ts) after) (.failed c ts :: log) where
  sent := by
    rw [count_congr (lookup_stamp_failed after _ prev "timesSent"), h.sent, List.countP_cons]
    rfl
  missed := by
    have hl : (stamp_failed prev (render ts) after).lookup "timesFailed" =
        some (of_i64 (count after "timesFailed" + 1)) := lookup_stamp_failed after _ _ _
    rw [count_of_lookup hl, toInt_add_one hcount, h.missed, List.countP_cons]
    simp only [Event.is_failed, if_true]
    omega
  last_failure := lookup_stamp_failed after _ _ _
  last_success := (lookup_stamp_failed after _ _ _).trans hprev
  no_event hnil := by cases hnil
  status e rest heq := by
    cases heq
    rw [lookup_stamp_failed, if_pos rfl]
    simp [Event.outcome]

theorem Told.retry (h : Told before after log) :
    Told before (stamp_retried (render ts) after) (.retried c ts :: log) where
  sent := (congrArg Int64.toInt (count_congr (lookup_stamp_retried after _ _))).trans h.sent
  missed := (congrArg Int64.toInt (count_congr (lookup_stamp_retried after _ _))).trans h.missed
  last_failure := (lookup_stamp_retried after _ _).trans h.last_failure
  last_success := lookup_stamp_retried after _ _
  no_event hnil := by cases hnil
  status e rest heq := by
    cases heq
    rw [lookup_stamp_retried, if_pos rfl]
    simp [Event.outcome]

end Told

section Ranked

variable {old : Option Value} {phase : Nat → Phase} {log : List Event} {c : Nat} {now ts : Stamp 3}
  {prev : Option Value}

theorem Ranked.book (h : Ranked old phase log) (hp : phase c = .waiting) (hclock : ∀ p ∈ standing log, p.2 ≤ now) :
    Ranked old (Function.update phase c (.sending now (newest old (standing log)))) (.booked c now :: log) where
  ordered := List.pairwise_cons.mpr ⟨hclock, h.ordered⟩
  nodup := List.nodup_cons.mpr ⟨fun hmem => by
    obtain ⟨p, hp', heq⟩ := List.mem_map.mp hmem
    exact h.absent c (.inl hp) p hp' heq, h.nodup⟩
  sending d now' prev' hd := by
    by_cases hdc : d = c
    · subst hdc
      rw [Function.update_self] at hd
      cases hd
      exact ⟨[], standing log, rfl, rfl⟩
    · rw [Function.update_of_ne hdc] at hd
      obtain ⟨newer, older, hst, hprev⟩ := h.sending d now' prev' hd
      exact ⟨(c, now) :: newer, older, by rw [standing, hst, List.cons_append], hprev⟩
  absent d hd p hmem := by
    by_cases hdc : d = c
    · subst hdc
      simp at hd
    · rw [Function.update_of_ne hdc] at hd
      rcases List.mem_cons.mp hmem with rfl | hmem
      · exact fun heq => hdc heq.symm
      · exact h.absent d hd p hmem
  settled p hmem hset := by
    by_cases hpc : p.1 = c
    · rw [hpc, Function.update_self] at hset
      cases hset
    · rw [Function.update_of_ne hpc] at hset
      rcases List.mem_cons.mp hmem with rfl | hmem
      · exact absurd rfl hpc
      · exact h.settled p hmem hset
  kept p hmem := by
    obtain ⟨hst, hset⟩ := h.kept p hmem
    have hpc : p.1 ≠ c := fun heq => by rw [heq, hp] at hset; cases hset
    exact ⟨List.mem_cons_of_mem _ hst, by rw [Function.update_of_ne hpc, hset]⟩
  underway d t rest heq := by
    cases heq
    exact ⟨_, Function.update_self _ _ _⟩

theorem Ranked.unique (h : Ranked old phase log) {p q : Nat × Stamp 3} (hp : p ∈ standing log)
    (hq : q ∈ standing log) (heq : p.1 = q.1) : p = q := List.inj_on_of_nodup_map h.nodup hp hq heq

/-- A move that settles `c` leaves the deliveries underway. -/
theorem sending_settled {d : Nat} (hd : Function.update phase c .settled d = .sending now prev) : d ≠ c ∧ phase d = .sending now prev := by
  by_cases hdc : d = c
  · rw [hdc, Function.update_self] at hd
    cases hd
  · rw [Function.update_of_ne hdc] at hd
    exact ⟨hdc, hd⟩

theorem Ranked.deliver (h : Ranked old phase log) (hp : phase c = .sending now prev) :
    Ranked old (Function.update phase c .settled) (.delivered c now :: log) where
  ordered := h.ordered
  nodup := h.nodup
  sending d now' prev' hd := h.sending d now' prev' (sending_settled hd).2
  absent d hd p hmem := by
    by_cases hdc : d = c
    · subst hdc
      simp at hd
    · rw [Function.update_of_ne hdc] at hd
      exact h.absent d hd p hmem
  settled p hmem hset := by
    by_cases hpc : p.1 = c
    · obtain ⟨newer, older, hst, -⟩ := h.sending c now prev hp
      have hc : (c, now) ∈ standing log := by rw [hst]; simp
      rw [h.unique hmem hc hpc]
      exact List.mem_cons_self
    · rw [Function.update_of_ne hpc] at hset
      exact List.mem_cons_of_mem _ (h.settled p hmem hset)
  kept p hmem := by
    rcases List.mem_cons.mp hmem with rfl | hmem
    · obtain ⟨newer, older, hst, -⟩ := h.sending c now prev hp
      exact ⟨by rw [standing, hst]; simp, Function.update_self _ _ _⟩
    · obtain ⟨hst, hset⟩ := h.kept p hmem
      have hpc : p.1 ≠ c := fun heq => by rw [heq, hp] at hset; cases hset
      exact ⟨hst, by rw [Function.update_of_ne hpc, hset]⟩
  underway d t rest heq := by cases heq

/-- The newest stamp, taken back by its own delivery, stands above what it displaced. -/
theorem Ranked.standing_failed (h : Ranked old phase log) (hp : phase c = .sending now prev)
    (hhead : (standing log).head?.map Prod.fst = some c) (ts : Stamp 3) :
    standing log = (c, now) :: standing (.failed c ts :: log) ∧ prev = newest old (standing (.failed c ts :: log)) := by
  obtain ⟨newer, older, hst, hprev⟩ := h.sending c now prev hp
  have hnodup := h.nodup
  obtain ⟨p, hp', rfl⟩ := Option.map_eq_some_iff.mp hhead
  have hnil : newer = [] := by
    cases newer with
    | nil => rfl
    | cons q newer =>
        rw [hst] at hp' hnodup
        cases hp'
        simp at hnodup
  subst hnil
  rw [hst] at hnodup
  have hfree : ∀ q ∈ older, q.1 ≠ p.1 := by
    intro q hq heq
    exact (List.nodup_cons.mp hnodup).1 (List.mem_map.mpr ⟨q, hq, heq⟩)
  have hfail : standing (.failed p.1 ts :: log) = older := by
    rw [standing, hst, List.nil_append, List.filter_cons_of_neg (by simp)]
    exact List.filter_eq_self.mpr fun q hq => by simpa using hfree q hq
  rw [hfail]
  exact ⟨hst, hprev⟩

theorem Ranked.fail (h : Ranked old phase log) (hp : phase c = .sending now prev)
    (hhead : (standing log).head?.map Prod.fst = some c) :
    Ranked old (Function.update phase c .retrying) (.failed c ts :: log) := by
  obtain ⟨hst, -⟩ := h.standing_failed hp hhead ts
  have hsub : ∀ p ∈ standing (.failed c ts :: log), p ∈ standing log ∧ p.1 ≠ c :=
    fun p hmem => by simpa [standing] using hmem
  have hordered := h.ordered
  have hnodup := h.nodup
  rw [hst] at hordered hnodup
  refine ⟨hordered.of_cons, (List.nodup_cons.mp hnodup).2, fun d now' prev' hd => ?_, fun d hd p hmem => ?_,
    fun p hmem hset => ?_, fun p hmem => ?_, fun d t rest heq => by cases heq⟩
  · by_cases hdc : d = c
    · rw [hdc, Function.update_self] at hd
      cases hd
    · rw [Function.update_of_ne hdc] at hd
      obtain ⟨newer, older, hst', hprev⟩ := h.sending d now' prev' hd
      rw [hst] at hst'
      cases newer with
      | nil =>
          cases hst'
          exact absurd rfl hdc
      | cons q newer => exact ⟨newer, older, (List.cons.inj hst').2, hprev⟩
  · by_cases hdc : d = c
    · rw [hdc]
      exact (hsub p hmem).2
    · rw [Function.update_of_ne hdc] at hd
      exact h.absent d hd p (hsub p hmem).1
  · rw [Function.update_of_ne (hsub p hmem).2] at hset
    exact h.settled p (hsub p hmem).1 hset
  · obtain ⟨hst', hset⟩ := h.kept p hmem
    have hpc : p.1 ≠ c := fun heq => by rw [heq, hp] at hset; cases hset
    exact ⟨by simpa [standing] using ⟨hst', hpc⟩, by rw [Function.update_of_ne hpc, hset]⟩

theorem Ranked.retry (h : Ranked old phase log) (hp : phase c = .retrying) (hclock : ∀ p ∈ standing log, p.2 ≤ ts) :
    Ranked old (Function.update phase c .settled) (.retried c ts :: log) where
  ordered := List.pairwise_cons.mpr ⟨hclock, h.ordered⟩
  nodup := List.nodup_cons.mpr ⟨fun hmem => by
    obtain ⟨p, hp', heq⟩ := List.mem_map.mp hmem
    exact h.absent c (.inr hp) p hp' heq, h.nodup⟩
  sending d now' prev' hd := by
    obtain ⟨newer, older, hst, hprev⟩ := h.sending d now' prev' (sending_settled hd).2
    exact ⟨(c, ts) :: newer, older, by rw [standing, hst, List.cons_append], hprev⟩
  absent d hd p hmem := by
    by_cases hdc : d = c
    · subst hdc
      simp at hd
    · rw [Function.update_of_ne hdc] at hd
      rcases List.mem_cons.mp hmem with rfl | hmem
      · exact fun heq => hdc heq.symm
      · exact h.absent d hd p hmem
  settled p hmem hset := by
    rcases List.mem_cons.mp hmem with rfl | hmem
    · exact List.mem_cons_self
    · rw [Function.update_of_ne (h.absent c (.inr hp) p hmem)] at hset
      exact List.mem_cons_of_mem _ (h.settled p hmem hset)
  kept p hmem := by
    rcases List.mem_cons.mp hmem with rfl | hmem
    · exact ⟨List.mem_cons_self, Function.update_self _ _ _⟩
    · obtain ⟨hst, hset⟩ := h.kept p hmem
      exact ⟨List.mem_cons_of_mem _ hst, by rw [Function.update_of_ne (h.absent c (.inr hp) p hst), hset]⟩
  underway d t rest heq := by cases heq

theorem Ranked.give_up (h : Ranked old phase log) (hp : phase c = .retrying) :
    Ranked old (Function.update phase c .settled) log where
  ordered := h.ordered
  nodup := h.nodup
  sending d now' prev' hd := h.sending d now' prev' (sending_settled hd).2
  absent d hd p hmem := by
    by_cases hdc : d = c
    · subst hdc
      simp at hd
    · rw [Function.update_of_ne hdc] at hd
      exact h.absent d hd p hmem
  settled p hmem hset := by
    rw [Function.update_of_ne (h.absent c (.inr hp) p hmem)] at hset
    exact h.settled p hmem hset
  kept p hmem := by
    obtain ⟨hst, hset⟩ := h.kept p hmem
    exact ⟨hst, by rw [Function.update_of_ne (h.absent c (.inr hp) p hst), hset]⟩
  underway d t rest heq := by
    obtain ⟨prev', hd⟩ := h.underway d t rest heq
    have hdc : d ≠ c := fun hdc => by rw [hdc, hp] at hd; cases hd
    exact ⟨prev', by rw [Function.update_of_ne hdc, hd]⟩

end Ranked

theorem inv_initial {doc : Value} {before : Map} (h : notification doc = some before) : Inv before (initial doc) :=
  ⟨before, h, ⟨by simp [initial], by simp [initial], rfl, rfl, fun _ => rfl, fun _ _ heq => by cases heq⟩,
    ⟨List.Pairwise.nil, List.nodup_nil, fun _ _ _ hd => by (cases hd), fun _ _ _ hmem => by (cases hmem),
      fun _ hmem => by (cases hmem), fun _ hmem => by (cases hmem), fun _ _ _ heq => by (cases heq)⟩⟩

theorem inv_step {before : Map} {s t : System} {m : Move} (h : Inv before s) (hm : Orderly s m)
    (hs : step s m = some t) : Inv before t := by
  obtain ⟨after, hdoc, htold, hranked⟩ := h
  have hafter : (notification s.doc).getD [] = after := by rw [hdoc, Option.getD_some]
  rcases step_cases hs with ⟨c, now, rfl, hp, rfl⟩ | ⟨c, now, prev, rfl, hp, rfl⟩ | ⟨c, ts, now, prev, rfl, hp, rfl⟩ |
    ⟨c, ts, rfl, hp, rfl⟩ | ⟨c, rfl, hp, rfl⟩
  · obtain ⟨hclock, hcount⟩ := hm
    rw [counter, hafter] at hcount
    have hprev : (record_delivery s.doc (render now)).prev_success =
        newest (before.lookup "lastSuccess") (standing s.log) := by
      rw [record_delivery, hdoc, Option.bind_some, htold.last_success]
    refine ⟨_, ?_, htold.book (c := c) hcount, ?_⟩
    · rw [notification_record_delivery, hdoc, Option.map_some]
    · rw [hprev]
      exact hranked.book hp hclock
  · refine ⟨after, hdoc, htold.deliver ?_, hranked.deliver hp⟩
    rw [← hafter]
    exact hm
  · obtain ⟨hhead, hcount⟩ := hm
    rw [counter, hafter] at hcount
    exact ⟨_, notification_failure_writeback prev _ hdoc, htold.fail hcount (hranked.standing_failed hp hhead ts).2,
      hranked.fail hp hhead⟩
  · refine ⟨_, ?_, htold.retry (c := c), hranked.retry hp hm⟩
    rw [notification_retry_writeback, hdoc, Option.map_some]
  · exact ⟨after, hdoc, htold, hranked.give_up hp⟩

/-- Every stamp that stands is a delivery's that got through. -/
theorem standing_iff {old : Option Value} {phase : Nat → Phase} {log : List Event} (h : Ranked old phase log)
    (hset : ∀ c, phase c = .waiting ∨ phase c = .settled) (p : Nat × Stamp 3) :
    p ∈ standing log ↔ p ∈ successes log := by
  refine ⟨fun hp => ?_, fun hp => (h.kept p hp).1⟩
  rcases hset p.1 with hw | hs
  · exact absurd rfl (h.absent p.1 (.inl hw) p hp)
  · exact h.settled p hp hs

/-- With no delivery underway the newest event settled one. -/
theorem outcome_head {old : Option Value} {phase : Nat → Phase} {log : List Event} (h : Ranked old phase log)
    (hset : ∀ c, phase c = .waiting ∨ phase c = .settled) :
    log = [] ∨ ∃ e rest ok, log = e :: rest ∧ e.outcome = some ok := by
  cases log with
  | nil => exact .inl rfl
  | cons e rest =>
      refine .inr ?_
      cases e with
      | booked c now =>
          obtain ⟨prev, hp⟩ := h.underway c now rest rfl
          rcases hset c with hw | hs
          · rw [hw] at hp; cases hp
          · rw [hs] at hp; cases hp
      | delivered c now => exact ⟨_, _, true, rfl, rfl⟩
      | failed c ts => exact ⟨_, _, false, rfl, rfl⟩
      | retried c ts => exact ⟨_, _, true, rfl, rfl⟩

theorem accounts_of_ranked {before after : Map} {phase : Nat → Phase} {log : List Event} (h : Told before after log)
    (hr : Ranked (before.lookup "lastSuccess") phase log)
    (hset : ∀ c, phase c = .waiting ∨ phase c = .settled) : Accounts before after log where
  sent := h.sent
  missed := h.missed
  last_failure := h.last_failure
  no_success hnil := by
    have hst : standing log = [] := List.eq_nil_iff_forall_not_mem.mpr fun p hp => by
      rw [standing_iff hr hset, hnil] at hp
      exact absurd hp List.not_mem_nil
    rw [h.last_success, hst, newest, List.head?_nil, Option.map_none, Option.none_or]
  last_success hne := by
    cases hst : standing log with
    | nil =>
        refine absurd (List.eq_nil_iff_forall_not_mem.mpr fun p hp => ?_) hne
        rw [← standing_iff hr hset, hst] at hp
        exact absurd hp List.not_mem_nil
    | cons p older =>
        have hord := hr.ordered
        rw [hst] at hord
        refine ⟨p, (standing_iff hr hset p).mp (by rw [hst]; exact List.mem_cons_self), ?_, fun q hq => ?_⟩
        · rw [h.last_success, hst, newest, List.head?_cons, Option.map_some, Option.some_or]
        · rw [← standing_iff hr hset, hst] at hq
          rcases List.mem_cons.mp hq with rfl | hq
          · exact le_refl (fields q.2)
          · exact (List.pairwise_cons.mp hord).1 q hq
  no_outcome hnone := by
    rcases outcome_head hr hset with hnil | ⟨e, rest, ok, rfl, hok⟩
    · exact h.no_event hnil
    · rw [List.findSome?_cons, hok] at hnone
      cases hnone
  status ok hsome := by
    rcases outcome_head hr hset with rfl | ⟨e, rest, ok', rfl, hok⟩
    · cases hsome
    · rw [List.findSome?_cons, hok] at hsome
      cases hsome
      rw [h.status e rest rfl, hok, Option.some_inj]

/-- However the deliveries of a subscription overlap, as long as every move is
orderly its notification tells what happened once all have settled. -/
theorem deliveries_told (doc : Value) (before : Map) (s : System) (hdoc : notification doc = some before)
    (hrun : Run step Orderly (initial doc) s) (hset : Settled s) :
    ∃ after, notification s.doc = some after ∧ Accounts before after s.log := by
  obtain ⟨after, h, htold, hranked⟩ := hrun.keeps (fun _ _ _ h hm hs => inv_step h hm hs) (inv_initial hdoc)
  exact ⟨after, h, accounts_of_ranked htold hranked hset⟩

def watch : Value := .object [
  ("id", .string "urn:ngsi-ld:Subscription:s1"),
  ("notification", .object [("timesSent", .number (.posInt 3))])]

/-- The first delivery fails, the second gets through, and then so does the
retry of the first. -/
def overlap : List Move :=
  [.book 0 newYear, .fail 0 newYear, .book 1 newYear, .deliver 1, .retry 0 newYearNoon]

def Move.delivery : Move → Nat
  | .book c _ | .deliver c | .fail c _ | .retry c _ | .give_up c => c

/-- Neither before its booking nor underway. -/
def Phase.over : Phase → Bool
  | .waiting | .settled => true
  | _ => false

theorem phase_of_step {s t : System} {m : Move} (h : step s m = some t) {d : Nat} (hd : d ≠ m.delivery) :
    t.phase d = s.phase d := by
  rcases step_cases h with ⟨c, now, rfl, -, rfl⟩ | ⟨c, now, prev, rfl, -, rfl⟩ | ⟨c, ts, now, prev, rfl, -, rfl⟩ |
    ⟨c, ts, rfl, -, rfl⟩ | ⟨c, rfl, -, rfl⟩
  all_goals exact Function.update_of_ne hd _ _

/-- Only the deliveries that moved have to be looked at. -/
theorem settled_of_exec {guard : System → Move → Prop} [∀ s m, Decidable (guard s m)] {ms : List Move} {doc : Value}
    {t : System} (h : exec step guard (initial doc) ms = some t) (n : Nat) (hms : ∀ m ∈ ms, m.delivery < n)
    (hn : ∀ c ∈ List.range n, (t.phase c).over = true) : Settled t := by
  intro c
  by_cases hc : c < n
  · have hover := hn c (List.mem_range.mpr hc)
    cases hp : t.phase c with
    | waiting => exact .inl rfl
    | settled => exact .inr rfl
    | sending now prev => rw [hp] at hover; cases hover
    | retrying => rw [hp] at hover; cases hover
  · refine .inl (exec_untouched (fun s : System => s.phase c) (fun m hm s t hs => ?_) h)
    exact phase_of_step hs fun heq => hc (heq ▸ hms m hm)

theorem overlap_runs : (exec step Orderly (initial watch) overlap).isSome = true := by decide

theorem deliveries_told_overlap : ∃ s, exec step Orderly (initial watch) overlap = some s ∧ Settled s ∧
    ∃ after, notification s.doc = some after ∧
      Accounts [("timesSent", .number (.posInt 3))] after s.log := by
  obtain ⟨s, hs⟩ := Option.isSome_iff_exists.mp overlap_runs
  have hover : (exec step Orderly (initial watch) overlap).all (fun s : System => decide (∀ c ∈ List.range 2, (s.phase c).over = true)) =
      true := by decide
  rw [hs] at hover
  have hset : Settled s := settled_of_exec hs 2 (by decide) (of_decide_eq_true hover)
  exact ⟨s, hs, hset, deliveries_told watch _ s rfl (Run.of_exec hs) hset⟩

/-- The first delivery fails after the second was booked, and takes the stamp
of the second back with its own. -/
def displaced : List Move :=
  [.book 0 newYear, .book 1 newYearNoon, .fail 0 newYearNoon, .deliver 1, .give_up 0]

theorem deliveries_not_told_displaced : ¬ ∀ (doc : Value) (before : Map) (s : System),
    notification doc = some before → Free step (initial doc) s → Settled s →
    ∃ after, notification s.doc = some after ∧ Accounts before after s.log := by
  intro hall
  obtain ⟨s, hs⟩ : ∃ s, exec step (fun _ _ => True) (initial watch) displaced = some s :=
    Option.isSome_iff_exists.mp (by decide)
  have hfacts : (exec step (fun _ _ => True) (initial watch) displaced).all (fun s : System => decide
      ((∀ c ∈ List.range 2, (s.phase c).over = true) ∧ (successes s.log).length = 1 ∧
        (notification s.doc).map (fun n => n.lookup "lastSuccess") = some none)) = true := by decide
  rw [hs] at hfacts
  obtain ⟨hover, hone, hlast⟩ := of_decide_eq_true hfacts
  have hset : Settled s := settled_of_exec hs 2 (by decide) hover
  obtain ⟨after, hafter, hacc⟩ := hall watch _ s rfl (Run.of_exec hs) hset
  obtain ⟨p, -, hp, -⟩ := hacc.last_success (fun hnil => by rw [hnil] at hone; cases hone)
  rw [hafter, Option.map_some, hp] at hlast
  cases hlast

end AntaresBroker.Deliveries
