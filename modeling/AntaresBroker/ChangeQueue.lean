import AntaresBroker.ChangeOrder
import AntaresBroker.Relay
import AntaresBroker.Runs

namespace AntaresBroker.ChangeQueue

open Json Expiry Mem Shadow ChangeOrder Runs Relay

variable {Instant Bytes T E : Type} [LinearOrder Instant] (chrono : Chrono Instant) (codec : Codec Bytes)
  (calls : Nat → Call T E) (owner : Nat → Option Nat)

def CHANGE_QUEUE : Nat := 1024

/-- How far the router layer is with a request. -/
inductive Status
  | handling
  | draining
  | answered
deriving DecidableEq

/-- `committed` is the order of the commits, which nothing reads but the
statements; `changes` is the buffer of each request. -/
structure System (Bytes T E : Type) where
  spine : ChangeOrder.System Bytes T E
  committed : List Event
  in_flight : List Nat
  status : Nat → Status
  changes : Nat → List Event
  queue : List (List Event)
  dropped : Nat
  taken : List Event

def initial (store : Store Bytes) : System Bytes T E :=
  ⟨⟨store, none, none, fun _ => .waiting, []⟩, [], [], fun _ => .handling, fun _ => [], [], 0, []⟩

def queue_for_matching (s : System Bytes T E) (changes : List Event) : System Bytes T E :=
  if s.queue.length < CHANGE_QUEUE then { s with queue := s.queue ++ [changes] } else { s with dropped := s.dropped + 1 }

/-- What the matcher took and what waits for it, in the order of the queue. -/
def handed (s : System Bytes T E) : List Event := s.taken ++ s.queue.flatten

section Send

variable (s : System Bytes T E) (batch : List Event)

@[simp] theorem spine_queue : (queue_for_matching s batch).spine = s.spine := by
  rw [queue_for_matching]
  split <;> rfl

@[simp] theorem committed_queue : (queue_for_matching s batch).committed = s.committed := by
  rw [queue_for_matching]
  split <;> rfl

@[simp] theorem in_flight_queue : (queue_for_matching s batch).in_flight = s.in_flight := by
  rw [queue_for_matching]
  split <;> rfl

@[simp] theorem status_queue : (queue_for_matching s batch).status = s.status := by
  rw [queue_for_matching]
  split <;> rfl

@[simp] theorem changes_queue : (queue_for_matching s batch).changes = s.changes := by
  rw [queue_for_matching]
  split <;> rfl

theorem dropped_queue : s.dropped ≤ (queue_for_matching s batch).dropped := by
  rw [queue_for_matching]
  split
  · exact Nat.le_refl _
  · exact Nat.le_succ _

theorem handed_queue (h : (queue_for_matching s batch).dropped = 0) :
    handed (queue_for_matching s batch) = handed s ++ batch := by
  rw [queue_for_matching] at h ⊢
  split at h
  next hroom => rw [if_pos hroom, handed, handed, List.flatten_append, List.flatten_singleton, List.append_assoc]
  next => cases h

end Send

/-- The change hook: `buffer_change` inside a request, the queue outside one. -/
def hook (s : System Bytes T E) (e : Event) : System Bytes T E :=
  match owner e.call with
  | some r => { s with changes := Function.update s.changes r (s.changes r ++ [e]) }
  | none => queue_for_matching s [e]

def at_phase (s : System Bytes T E) (c : Nat) (p : Phase T E) : System Bytes T E :=
  { s with spine := { s.spine with phase := Function.update s.spine.phase c p } }

/-- The next move of a call: an entity call takes `emit_order` before the write
lock and keeps it until the hook has returned. -/
def advance (s : System Bytes T E) (c : Nat) (now : String) : Option (System Bytes T E) :=
  match s.spine.phase c with
  | .waiting =>
      if (owner c).all (fun r => s.status r = .handling) then
        let started := { at_phase s c .admitted with in_flight := c :: s.in_flight }
        if (calls c).kind ≠ .entity then some started
        else if s.spine.emit_order = none then some { started with spine := { started.spine with emit_order := some c } }
        else none
      else none
  | .admitted =>
      if s.spine.writer = none then
        some { at_phase s c .writing with spine := { (at_phase s c .writing).spine with writer := some c } }
      else none
  | .writing =>
      if s.spine.writer = some c then
        let (store, change, answer) := commit chrono codec s.spine.store now (calls c)
        let done := at_phase s c (.committed change answer)
        some { done with
          spine := { done.spine with store := store, writer := none }
          committed := s.committed ++ (change.map (event calls c)).toList }
      else none
  | .committed (some change) answer =>
      let done := at_phase s c (.emitting answer)
      let e := event calls c change
      some (hook owner { done with spine := { done.spine with events := s.spine.events ++ [e] } } e)
  | .committed none answer => some (at_phase s c (.emitting answer))
  | .emitting answer =>
      let done := at_phase s c (.done answer)
      some { done with
        spine := { done.spine with emit_order := if s.spine.emit_order = some c then none else s.spine.emit_order }
        in_flight := s.in_flight.erase c }
  | .done _ => none

inductive Move
  | call (c : Nat) (now : String)
  | sweep_expired (now : String)
  | purge_kinds (tenant : TenantId) (kinds : List Kind)
  | finish (r : Nat)
  | flush (r : Nat)
  | recv

/-- A request's changes leave its buffer when its handler has returned and the
temporal drain after it is done; a sweep and a purge tell the hook nothing. -/
def step (s : System Bytes T E) : Move → Option (System Bytes T E)
  | .call c now => advance chrono codec calls owner s c now
  | .sweep_expired now =>
      if s.spine.writer = none then
        some { s with spine := { s.spine with store := (Mem.sweep_expired chrono codec s.spine.store now).1 } }
      else none
  | .purge_kinds tenant kinds =>
      if s.spine.writer = none then
        some { s with spine := { s.spine with store := (Mem.purge_kinds codec s.spine.store tenant kinds).1 } }
      else none
  | .finish r =>
      if s.status r = .handling ∧ ∀ c ∈ s.in_flight, owner c ≠ some r then
        some { s with status := Function.update s.status r .draining }
      else none
  | .flush r =>
      if s.status r = .draining then
        let done := { s with status := Function.update s.status r .answered, changes := Function.update s.changes r [] }
        some (if (s.changes r).isEmpty then done else queue_for_matching done (s.changes r))
      else none
  | .recv =>
      match s.queue with
      | [] => none
      | batch :: rest => some { s with queue := rest, taken := s.taken ++ batch }

def entity (e : Event) : String × String := (e.tenant, e.id)

/-- No change of the entities of a batch was committed earlier and still waits
somewhere else. -/
def turn (s : System Bytes T E) (batch : List Event) : Bool :=
  batch.all fun e => (s.committed.takeWhile (fun f => f.call ≠ e.call)).all fun f =>
    decide (entity f ≠ entity e) || (handed s).any (fun g => g.call = f.call) || batch.any (fun g => g.call = f.call)

/-- Expiry and purges have left the document of a call as its last change left it. -/
def current (s : System Bytes T E) (c : Nat) (now : String) : Bool :=
  match (s.committed.filter (fun e => entity e = ((calls c).tenant.name, (calls c).id))).getLast? with
  | none => true
  | some e => decide (e.after = entities s.spine.store.inner (calls c).tenant.name (calls c).id) &&
      !is_expired chrono s.spine.store.inner .entity (calls c).tenant.name (calls c).id now

/-- A call that changes a document finds it as the last change left it, and
changes reach the queue in their turn. -/
def orderly (s : System Bytes T E) : Move → Bool
  | .call c now =>
      match s.spine.phase c with
      | .writing => (commit chrono codec s.spine.store now (calls c)).2.1.isNone || current chrono calls s c now
      | .committed (some change) _ => (owner c).isSome || turn s [event calls c change]
      | _ => true
  | .flush r => turn s (s.changes r)
  | _ => true

def Orderly (s : System Bytes T E) (m : Move) : Prop := orderly chrono codec calls owner s m = true

instance (s : System Bytes T E) (m : Move) : Decidable (Orderly chrono codec calls owner s m) :=
  inferInstanceAs (Decidable (_ = true))

/-- No call is under way, every request that made one is answered and the queue
is empty. -/
structure Settled (s : System Bytes T E) : Prop where
  idle : ∀ c, ¬ Busy (s.spine.phase c)
  answered : ∀ c r, owner c = some r → s.spine.phase c ≠ .waiting → s.status r = .answered
  drained : s.queue = []

/-- For every entity the matcher takes its committed changes, each once and in
the order of the commits, and each starts from what the one before left. -/
structure InCommitOrder (s : System Bytes T E) : Prop where
  in_order : ∀ k, s.taken.filter (fun e => entity e = k) <+: s.committed.filter (fun e => entity e = k)
  once : (s.committed.map Event.call).Nodup
  chained : ∀ k, (s.committed.filter (fun e => entity e = k)).IsChain (fun e f => e.after = f.before)
  complete : Settled owner s → ∀ k, s.taken.filter (fun e => entity e = k) = s.committed.filter (fun e => entity e = k)

/-- What of a committed change has not reached the queue waits in a buffer. -/
def Waiting (s : System Bytes T E) (held : List Event) : Prop :=
  (∀ e ∈ held, (owner e.call).isSome) ∧
    (∀ r, s.changes r = held.filter (fun e => owner e.call = some r)) ∧ Relayed entity (handed s) held s.spine.events

structure Inv (s : System Bytes T E) : Prop where
  holder : ∀ c, (calls c).kind = .entity → Busy (s.spine.phase c) → s.spine.emit_order = some c
  quiet : ∀ c change, images (s.spine.phase c) = some change → (calls c).kind = .entity
  log : s.committed = s.spine.events ++ pending calls s.spine.emit_order s.spine.phase
  begun : ∀ e ∈ s.committed, (answer (s.spine.phase e.call)).isSome
  once : (s.committed.map Event.call).Nodup
  chained : ∀ k, (s.committed.filter (fun e => entity e = k)).IsChain (fun e f => e.after = f.before)
  flying : ∀ c, Busy (s.spine.phase c) → c ∈ s.in_flight ∧ ∀ r, owner c = some r → s.status r = .handling
  answered : ∀ r, s.status r = .answered → s.changes r = []
  waiting : ∃ held, Waiting owner s held

section Commits

variable {chrono codec} {s : Store Bytes} {now : String}

theorem kind_of_commit {c : Call T E} {change : Change} (h : (commit chrono codec s now c).2.1 = some change) :
    c.kind = .entity := by
  cases c with
  | create tenant kind id doc =>
      simp only [commit] at h
      split at h
      next hk => exact hk.2
      next => cases h
  | upsert tenant kind id doc =>
      simp only [commit] at h
      split at h
      next hk => exact hk
      next => cases h
  | mutate tenant kind id f =>
      simp only [commit, mutate] at h
      split at h
      next => cases h
      next =>
        split at h
        next => cases h
        next =>
          split at h
          next => cases h
          next =>
            simp only [Option.bind_some] at h
            split at h
            next hk => exact hk.1
            next => cases h
  | delete tenant kind id =>
      simp only [commit] at h
      split at h
      next hk => exact hk
      next => cases h
  | delete_if => rfl

theorem before_of_commit {c : Call T E} {change : Change} (h : (commit chrono codec s now c).2.1 = some change)
    (hfresh : is_expired chrono s.inner .entity c.tenant.name c.id now = false) :
    change.before = entities s.inner c.tenant.name c.id := by
  have hexp := commit_explains chrono codec c (kind_of_commit h ▸ hfresh)
  rw [h] at hexp
  exact hexp.2.1

end Commits

section Moves

variable {chrono codec calls owner} {s s' : System Bytes T E}

theorem initial_inv (store : Store Bytes) : Inv calls owner ((initial store : System Bytes T E)) where
  holder _ _ h := h.elim
  quiet _ _ h := by cases h
  log := rfl
  begun _ h := absurd h List.not_mem_nil
  once := List.nodup_nil
  chained _ := List.isChain_nil
  flying _ h := h.elim
  answered _ h := by cases h
  waiting := ⟨[], fun _ h => absurd h List.not_mem_nil, fun _ => rfl, fun _ => rfl⟩

theorem Waiting.of_same {held : List Event} (h : Waiting owner s held) (hchanges : s'.changes = s.changes)
    (hhanded : handed s' = handed s) (hevents : s'.spine.events = s.spine.events) : Waiting owner s' held := by
  obtain ⟨howned, hbuffers, hrelayed⟩ := h
  refine ⟨howned, fun r => ?_, ?_⟩
  · rw [hchanges, hbuffers]
  · rw [hhanded, hevents]
    exact hrelayed

theorem busy_of_images {p : Phase T E} {change : Change} (h : images p = some change) : Busy p := by
  cases p with
  | committed => exact trivial
  | _ => cases h

theorem busy_before {phase : Nat → Phase T E} {c d : Nat} {p : Phase T E} (hc : Busy (phase c))
    (h : Busy (Function.update phase c p d)) : Busy (phase d) := by
  by_cases hdc : d = c
  · exact hdc ▸ hc
  · rwa [Function.update_of_ne hdc] at h

/-- The holder of `emit_order` is the only entity call under way. -/
theorem Inv.alone (h : Inv calls owner s) {c d : Nat} (hc : s.spine.emit_order = some c) (hd : (calls d).kind = .entity)
    (hbusy : Busy (s.spine.phase d)) : d = c :=
  Option.some_inj.mp ((h.holder d hd hbusy).symm.trans hc)

/-- A move of a call that commits nothing and tells the hook nothing. -/
theorem Inv.moved (h : Inv calls owner s) {c : Nat} {p : Phase T E}
    (hphase : s'.spine.phase = Function.update s.spine.phase c p) (hevents : s'.spine.events = s.spine.events)
    (hcommitted : s'.committed = s.committed) (hstatus : s'.status = s.status) (hchanges : s'.changes = s.changes)
    (hhanded : handed s' = handed s) (himages : images p = none) (himages' : images (s.spine.phase c) = none)
    (hanswer : (answer (s.spine.phase c)).isSome → (answer p).isSome)
    (hpending : pending calls s'.spine.emit_order s.spine.phase = pending calls s.spine.emit_order s.spine.phase)
    (hholder : ∀ d, (calls d).kind = .entity → Busy (s'.spine.phase d) → s'.spine.emit_order = some d)
    (hflying : ∀ d, Busy (s'.spine.phase d) → d ∈ s'.in_flight ∧ ∀ r, owner d = some r → s.status r = .handling) :
    Inv calls owner s' := by
  obtain ⟨held, hheld⟩ := h.waiting
  refine ⟨hholder, fun d change hd => ?_, ?_, fun e he => ?_, hcommitted ▸ h.once, fun k => ?_, fun d hd => ?_,
    fun r hr => ?_, held, hheld.of_same hchanges hhanded hevents⟩
  · rw [hphase] at hd
    by_cases hdc : d = c
    · subst hdc
      rw [Function.update_self, himages] at hd
      cases hd
    · rw [Function.update_of_ne hdc] at hd
      exact h.quiet d change hd
  · rw [hcommitted, hevents, hphase, h.log, pending_update fun _ => himages.trans himages'.symm, hpending]
  · rw [hcommitted] at he
    have hb := h.begun e he
    rw [hphase]
    by_cases hec : e.call = c
    · rw [hec] at hb ⊢
      rw [Function.update_self]
      exact hanswer hb
    · rwa [Function.update_of_ne hec]
  · rw [hcommitted]
    exact h.chained k
  · rw [hstatus]
    exact hflying d hd
  · rw [hstatus] at hr
    rw [hchanges]
    exact h.answered r hr

/-- A call commits: what it changed joins the log after the entity's last change. -/
theorem Inv.commits (h : Inv calls owner s) {c : Nat} {change : Option Change} {reply : Answer T E}
    (hp : s.spine.phase c = .writing) (hphase : s'.spine.phase = Function.update s.spine.phase c (.committed change reply))
    (horder : s'.spine.emit_order = s.spine.emit_order) (hevents : s'.spine.events = s.spine.events)
    (hcommitted : s'.committed = s.committed ++ (change.map (event calls c)).toList) (hflight : s'.in_flight = s.in_flight)
    (hstatus : s'.status = s.status) (hchanges : s'.changes = s.changes) (hhanded : handed s' = handed s)
    (hkind : ∀ i, change = some i → (calls c).kind = .entity)
    (hlast : ∀ i, change = some i → ∀ e ∈ (s.committed.filter (fun e => entity e = entity (event calls c i))).getLast?,
      e.after = i.before) : Inv calls owner s' := by
  have hbusy : Busy (s.spine.phase c) := hp ▸ trivial
  have hphases (d : Nat) (hd : Busy (s'.spine.phase d)) : Busy (s.spine.phase d) := busy_before hbusy (hphase ▸ hd)
  have hat : s'.spine.phase c = .committed change reply := by rw [hphase, Function.update_self]
  have hother (d : Nat) (hdc : d ≠ c) : s'.spine.phase d = s.spine.phase d := by rw [hphase, Function.update_of_ne hdc]
  have hfresh : ∀ e ∈ s.committed, e.call ≠ c := fun e he hec => by
    have hb := h.begun e he
    rw [hec, hp] at hb
    cases hb
  have hnew : ∀ e ∈ (change.map (event calls c)).toList, ∃ i, change = some i ∧ e = event calls c i := fun e he => by
    obtain ⟨i, hi, rfl⟩ := Option.map_eq_some_iff.mp (Option.mem_toList.mp he)
    exact ⟨i, hi, rfl⟩
  obtain ⟨held, hheld⟩ := h.waiting
  refine ⟨fun d hk hd => horder ▸ h.holder d hk (hphases d hd), fun d i hd => ?_, ?_, fun e he => ?_, ?_, fun k => ?_,
    fun d hd => ?_, ?_, held, hheld.of_same hchanges hhanded hevents⟩
  · by_cases hdc : d = c
    · subst hdc
      rw [hat] at hd
      exact hkind i hd
    · rw [hother d hdc] at hd
      exact h.quiet d i hd
  · have hnone : images (s.spine.phase c) = none := by rw [hp]; rfl
    rw [hcommitted, h.log, hevents, horder]
    cases hc : change with
    | none =>
        have hstill : images (.committed none reply : Phase T E) = images (s.spine.phase c) := hnone.symm
        rw [Option.map_none, Option.toList_none, List.append_nil, hphase, hc, pending_update fun _ => hstill]
    | some i =>
        have hholds := h.holder c (hkind i hc) hbusy
        rw [hholds, pending, pending, hnone, hat, hc, Option.map_none, Option.toList_none, List.append_nil]
        rfl
  · rw [hcommitted] at he
    rcases List.mem_append.mp he with he | he
    · rw [hother e.call (hfresh e he)]
      exact h.begun e he
    · obtain ⟨i, -, rfl⟩ := hnew e he
      exact congrArg (fun p => (answer p).isSome) hat
  · rw [hcommitted, List.map_append, List.nodup_append]
    refine ⟨h.once, by cases change <;> simp, fun m hm n hn hmn => ?_⟩
    obtain ⟨e, he, rfl⟩ := List.mem_map.mp hm
    obtain ⟨f, hf, rfl⟩ := List.mem_map.mp hn
    obtain ⟨i, -, rfl⟩ := hnew f hf
    exact hfresh e he hmn
  · rw [hcommitted, List.filter_append]
    cases hc : change with
    | none =>
        rw [Option.map_none, Option.toList_none, List.filter_nil, List.append_nil]
        exact h.chained k
    | some i =>
        rw [Option.map_some, Option.toList_some]
        by_cases hk : entity (event calls c i) = k
        · subst hk
          rw [List.filter_singleton, decide_eq_true rfl, cond_true]
          refine (h.chained _).append (List.isChain_singleton _) fun e he f hf => ?_
          obtain rfl := Option.some_inj.mp hf
          exact hlast i hc e he
        · rw [List.filter_singleton, decide_eq_false hk, cond_false, List.append_nil]
          exact h.chained k
  · rw [hflight, hstatus]
    exact h.flying d (hphases d hd)
  · rw [hstatus, hchanges]
    exact h.answered

/-- A call hands its change to the hook and leaves the log as it was. -/
theorem Inv.emits (h : Inv calls owner s) {c : Nat} {i : Change} {reply : Answer T E}
    (hp : s.spine.phase c = .committed (some i) reply)
    (hphase : s'.spine.phase = Function.update s.spine.phase c (.emitting reply))
    (horder : s'.spine.emit_order = s.spine.emit_order) (hevents : s'.spine.events = s.spine.events ++ [event calls c i])
    (hcommitted : s'.committed = s.committed) (hflight : s'.in_flight = s.in_flight) (hstatus : s'.status = s.status)
    (hanswered : ∀ r, s'.status r = .answered → s'.changes r = []) (hwaiting : ∃ held, Waiting owner s' held) :
    Inv calls owner s' := by
  have hbusy : Busy (s.spine.phase c) := hp ▸ trivial
  have hphases (d : Nat) (hd : Busy (s'.spine.phase d)) : Busy (s.spine.phase d) := busy_before hbusy (hphase ▸ hd)
  have hat : s'.spine.phase c = .emitting reply := by rw [hphase, Function.update_self]
  have hother (d : Nat) (hdc : d ≠ c) : s'.spine.phase d = s.spine.phase d := by rw [hphase, Function.update_of_ne hdc]
  have hkind := h.quiet c i (by rw [hp]; rfl)
  refine ⟨fun d hk hd => horder ▸ h.holder d hk (hphases d hd), fun d j hd => ?_, ?_, fun e he => ?_, hcommitted ▸ h.once,
    hcommitted ▸ h.chained, fun d hd => ?_, hanswered, hwaiting⟩
  · by_cases hdc : d = c
    · subst hdc
      rw [hat] at hd
      cases hd
    · rw [hother d hdc] at hd
      exact h.quiet d j hd
  · have hholds := h.holder c hkind hbusy
    rw [hcommitted, h.log, hevents, horder, hholds, pending, pending, hp, hat]
    simp [images]
  · rw [hcommitted] at he
    have hb := h.begun e he
    by_cases hec : e.call = c
    · rw [hec, hat]
      rfl
    · rwa [hother e.call hec]
  · rw [hflight, hstatus]
    exact h.flying d (hphases d hd)

/-- An earlier change of an entity of a batch is in the queue or in the batch. -/
theorem of_turn {batch : List Event} (h : turn s batch = true) (hnd : (s.committed.map Event.call).Nodup) {e f : Event}
    (he : e ∈ batch) (hb : Before s.committed f e) (hk : entity f = entity e) :
    (∃ g ∈ handed s, g.call = f.call) ∨ ∃ g ∈ batch, g.call = f.call := by
  have hf := List.all_eq_true.mp (List.all_eq_true.mp h e he) f (mem_takeWhile_of_before hnd hb)
  rw [decide_eq_false (not_not.mpr hk), Bool.false_or, Bool.or_eq_true, List.any_eq_true, List.any_eq_true] at hf
  refine hf.imp ?_ ?_
  · rintro ⟨g, hg, hcall⟩
    exact ⟨g, hg, of_decide_eq_true hcall⟩
  · rintro ⟨g, hg, hcall⟩
    exact ⟨g, hg, of_decide_eq_true hcall⟩

theorem Waiting.hold {held : List Event} (h : Waiting owner s held) {e : Event} {r : Nat} (howner : owner e.call = some r)
    (hchanges : s'.changes = Function.update s.changes r (s.changes r ++ [e])) (hhanded : handed s' = handed s)
    (hevents : s'.spine.events = s.spine.events ++ [e]) : Waiting owner s' (held ++ [e]) := by
  obtain ⟨howned, hbuffers, hrelayed⟩ := h
  refine ⟨fun f hf => ?_, fun q => ?_, ?_⟩
  · rcases List.mem_append.mp hf with hf | hf
    · exact howned f hf
    · rw [List.mem_singleton.mp hf, howner]
      rfl
  · rw [hchanges, List.filter_append, List.filter_singleton, howner]
    by_cases hq : q = r
    · subst hq
      rw [Function.update_self, hbuffers, decide_eq_true rfl, cond_true]
    · rw [Function.update_of_ne hq, hbuffers, decide_eq_false fun heq => hq (Option.some_inj.mp heq).symm, cond_false,
        List.append_nil]
  · rw [hhanded, hevents]
    exact hrelayed.hold e

theorem Waiting.pass {held : List Event} (h : Waiting owner s held) {e : Event} (hturn : turn s [e] = true)
    (hlog : s.committed = s.spine.events ++ [e]) (hnd : (s.committed.map Event.call).Nodup)
    (hchanges : s'.changes = s.changes) (hhanded : handed s' = handed s ++ [e])
    (hevents : s'.spine.events = s.spine.events ++ [e]) : Waiting owner s' held := by
  obtain ⟨howned, hbuffers, hrelayed⟩ := h
  refine ⟨howned, fun q => by rw [hchanges, hbuffers], ?_⟩
  rw [hhanded, hevents]
  refine hrelayed.pass fun f hf hk => ?_
  have hmem := hrelayed.mem_held hf
  have hb : Before s.committed f e := hlog ▸ (List.singleton_sublist.mpr hmem).append (List.Sublist.refl [e])
  rw [hlog, List.map_append, List.nodup_append] at hnd
  rcases of_turn hturn (by rwa [hlog, List.map_append, List.nodup_append]) List.mem_cons_self hb hk with ⟨g, hg, hcall⟩ | ⟨g, hg, hcall⟩
  · exact hrelayed.apart hnd.1 hf hg hcall.symm
  · rw [List.mem_singleton.mp hg] at hcall
    exact hnd.2.2 f.call (List.mem_map_of_mem hmem) e.call List.mem_cons_self hcall.symm

theorem Waiting.flush {held : List Event} (h : Waiting owner s held) {r : Nat} (hturn : turn s (s.changes r) = true)
    (hnd : (s.committed.map Event.call).Nodup) (hlog : s.spine.events <+: s.committed)
    (hchanges : s'.changes = Function.update s.changes r []) (hhanded : handed s' = handed s ++ s.changes r)
    (hevents : s'.spine.events = s.spine.events) :
    Waiting owner s' (held.filter (fun e => !decide (owner e.call = some r))) := by
  obtain ⟨howned, hbuffers, hrelayed⟩ := h
  have hnd' : (s.spine.events.map Event.call).Nodup := (hlog.sublist.map _).nodup hnd
  refine ⟨fun e he => howned e (List.mem_filter.mp he).1, fun q => ?_, ?_⟩
  · rw [hchanges, List.filter_filter]
    by_cases hq : q = r
    · subst hq
      rw [Function.update_self]
      exact (List.filter_eq_nil_iff.mpr fun e _ => by simp).symm
    · rw [Function.update_of_ne hq, hbuffers]
      refine List.filter_congr fun e _ => ?_
      by_cases he : owner e.call = some q
      · simp [he, hq]
      · simp [he]
  · rw [hhanded, hevents, hbuffers]
    refine hrelayed.release fun f hf e he hb hk hp => ?_
    have hmem : e ∈ s.changes r := by
      rw [hbuffers]
      exact List.mem_filter.mpr ⟨he, hp⟩
    rcases of_turn hturn hnd hmem (hb.trans hlog.sublist) hk with ⟨g, hg, hcall⟩ | ⟨g, hg, hcall⟩
    · exact absurd hcall.symm (hrelayed.apart hnd' hf hg)
    · rw [hbuffers] at hg
      rw [← hcall]
      exact (List.mem_filter.mp hg).2

theorem Inv.begins (h : Inv calls owner s) {c : Nat} (hp : s.spine.phase c = .waiting)
    (hopen : (owner c).all (fun r => s.status r = .handling) = true) {order : Option Nat}
    (horder : order = s.spine.emit_order ∧ (calls c).kind ≠ .entity ∨ order = some c ∧ s.spine.emit_order = none)
    (hphase : s'.spine.phase = Function.update s.spine.phase c .admitted) (hemit : s'.spine.emit_order = order)
    (hevents : s'.spine.events = s.spine.events) (hcommitted : s'.committed = s.committed)
    (hflight : s'.in_flight = c :: s.in_flight) (hstatus : s'.status = s.status) (hchanges : s'.changes = s.changes)
    (hhanded : handed s' = handed s) : Inv calls owner s' := by
  have hnone : images (s.spine.phase c) = none := by rw [hp]; rfl
  refine h.moved hphase hevents hcommitted hstatus hchanges hhanded rfl hnone ?_ ?_ (fun d hk hd => ?_) fun d hd => ?_
  · rw [hp]
    exact fun h => h
  · rcases horder with ⟨rfl, -⟩ | ⟨rfl, hfree⟩
    · rw [hemit]
    · rw [hemit, hfree, pending, pending, hnone]
      rfl
  · rw [hphase] at hd
    by_cases hdc : d = c
    · subst hdc
      rcases horder with ⟨-, hkind⟩ | ⟨rfl, -⟩
      · exact absurd hk hkind
      · exact hemit
    · rw [Function.update_of_ne hdc] at hd
      have hheld := h.holder d hk hd
      rcases horder with ⟨rfl, -⟩ | ⟨-, hfree⟩
      · rw [hemit, hheld]
      · rw [hfree] at hheld
        cases hheld
  · rw [hphase] at hd
    rw [hflight]
    by_cases hdc : d = c
    · subst hdc
      refine ⟨List.mem_cons_self, fun r hr => ?_⟩
      rw [hr, Option.all_some] at hopen
      exact of_decide_eq_true hopen
    · rw [Function.update_of_ne hdc] at hd
      exact ⟨List.mem_cons_of_mem _ (h.flying d hd).1, (h.flying d hd).2⟩

/-- A call that keeps what it holds moves on. -/
theorem Inv.goes_on (h : Inv calls owner s) {c : Nat} {p : Phase T E} (hbusy : Busy (s.spine.phase c))
    (himages : images p = none) (himages' : images (s.spine.phase c) = none)
    (hanswer : (answer (s.spine.phase c)).isSome → (answer p).isSome)
    (hphase : s'.spine.phase = Function.update s.spine.phase c p) (horder : s'.spine.emit_order = s.spine.emit_order)
    (hevents : s'.spine.events = s.spine.events) (hcommitted : s'.committed = s.committed)
    (hflight : s'.in_flight = s.in_flight) (hstatus : s'.status = s.status) (hchanges : s'.changes = s.changes)
    (hhanded : handed s' = handed s) : Inv calls owner s' := by
  have hphases (d : Nat) (hd : Busy (s'.spine.phase d)) : Busy (s.spine.phase d) := busy_before hbusy (hphase ▸ hd)
  refine h.moved hphase hevents hcommitted hstatus hchanges hhanded himages himages' hanswer (horder ▸ rfl)
    (fun d hk hd => horder ▸ h.holder d hk (hphases d hd)) fun d hd => hflight ▸ h.flying d (hphases d hd)

theorem Inv.ends (h : Inv calls owner s) {c : Nat} {reply : Answer T E} (hp : s.spine.phase c = .emitting reply)
    (hphase : s'.spine.phase = Function.update s.spine.phase c (.done reply))
    (horder : s'.spine.emit_order = if s.spine.emit_order = some c then none else s.spine.emit_order)
    (hevents : s'.spine.events = s.spine.events) (hcommitted : s'.committed = s.committed)
    (hflight : s'.in_flight = s.in_flight.erase c) (hstatus : s'.status = s.status) (hchanges : s'.changes = s.changes)
    (hhanded : handed s' = handed s) : Inv calls owner s' := by
  have hnone : images (s.spine.phase c) = none := by rw [hp]; rfl
  have hother (d : Nat) (hd : Busy (s'.spine.phase d)) : d ≠ c ∧ Busy (s.spine.phase d) := by
    rw [hphase] at hd
    by_cases hdc : d = c
    · subst hdc
      rw [Function.update_self] at hd
      exact hd.elim
    · rw [Function.update_of_ne hdc] at hd
      exact ⟨hdc, hd⟩
  refine h.moved hphase hevents hcommitted hstatus hchanges hhanded rfl hnone (fun _ => rfl) ?_ (fun d hk hd => ?_)
    fun d hd => ?_
  · rw [horder]
    split
    next hheld =>
      rw [hheld, pending, pending, hnone]
      rfl
    next => rfl
  · obtain ⟨hdc, hd⟩ := hother d hd
    have hheld := h.holder d hk hd
    rw [horder, if_neg fun heq => hdc (Option.some_inj.mp (hheld.symm.trans heq)), hheld]
  · obtain ⟨hdc, hd⟩ := hother d hd
    rw [hflight]
    exact ⟨(List.mem_erase_of_ne hdc).mpr (h.flying d hd).1, (h.flying d hd).2⟩

/-- The last change of its entity left what the call starts from. -/
theorem last_of_current {c : Nat} {now : String} {i : Change}
    (hi : (commit chrono codec s.spine.store now (calls c)).2.1 = some i) (h : current chrono calls s c now = true) :
    ∀ e ∈ (s.committed.filter (fun e => entity e = entity (event calls c i))).getLast?, e.after = i.before := fun e he => by
  have hlast : (s.committed.filter (fun e => entity e = ((calls c).tenant.name, (calls c).id))).getLast? = some e := he
  rw [current, hlast] at h
  simp only [Bool.and_eq_true, decide_eq_true_eq, Bool.not_eq_true'] at h
  rw [h.1, before_of_commit hi h.2]

theorem Inv.emitted (h : Inv calls owner s) {c : Nat} {i : Change} {reply : Answer T E} {now : String}
    (hp : s.spine.phase c = .committed (some i) reply) (hmeets : (owner c).isSome || turn s [event calls c i])
    (hs : advance chrono codec calls owner s c now = some s') (hroom : s'.dropped = 0) : Inv calls owner s' := by
  rw [advance, hp] at hs
  have hkind := h.quiet c i (by rw [hp]; rfl)
  have hholds := h.holder c hkind (hp ▸ trivial)
  have hlog : s.committed = s.spine.events ++ [event calls c i] := by
    rw [h.log, hholds, pending, hp]
    rfl
  obtain ⟨held, hheld⟩ := h.waiting
  cases howner : owner c with
  | none =>
      have hcall : owner (event calls c i).call = none := howner
      rw [howner, Option.isSome_none, Bool.false_or] at hmeets
      dsimp only at hs
      rw [hook, hcall] at hs
      obtain rfl := Option.some_inj.mp hs
      refine h.emits hp ?_ ?_ ?_ ?_ ?_ ?_ ?_ ⟨held, hheld.pass hmeets hlog h.once ?_ ?_ ?_⟩
      · rw [spine_queue]
        rfl
      · rw [spine_queue]
        rfl
      · rw [spine_queue]
      · rw [committed_queue]
        rfl
      · rw [in_flight_queue]
        rfl
      · rw [status_queue]
        rfl
      · rw [status_queue, changes_queue]
        exact h.answered
      · rw [changes_queue]
        rfl
      · rw [handed_queue _ _ hroom]
        rfl
      · rw [spine_queue]
  | some r =>
      have hcall : owner (event calls c i).call = some r := howner
      dsimp only at hs
      rw [hook, hcall] at hs
      obtain rfl := Option.some_inj.mp hs
      refine h.emits hp rfl rfl rfl rfl rfl rfl (fun q hq => ?_) ⟨held ++ [event calls c i], hheld.hold hcall rfl rfl rfl⟩
      have hq' : s.status q = .answered := hq
      have hqr : q ≠ r := fun heq => by
        have hhandling := (h.flying c (hp ▸ trivial)).2 r howner
        rw [heq, hhandling] at hq'
        cases hq'
      exact (Function.update_of_ne hqr _ _).trans (h.answered q hq')

theorem advance_inv (h : Inv calls owner s) {c : Nat} {now : String}
    (hmeets : Orderly chrono codec calls owner s (.call c now)) (hs : advance chrono codec calls owner s c now = some s')
    (hroom : s'.dropped = 0) : Inv calls owner s' := by
  rw [Orderly, orderly] at hmeets
  cases hp : s.spine.phase c with
  | waiting =>
      rw [advance, hp] at hs
      simp only [Option.ite_none_right_eq_some] at hs
      obtain ⟨hopen, hs⟩ := hs
      split at hs
      next hkind =>
        obtain rfl := Option.some_inj.mp hs
        exact h.begins hp hopen (.inl ⟨rfl, hkind⟩) rfl rfl rfl rfl rfl rfl rfl rfl
      next =>
        obtain ⟨hfree, hs⟩ := Option.ite_none_right_eq_some.mp hs
        obtain rfl := Option.some_inj.mp hs
        exact h.begins hp hopen (.inr ⟨rfl, hfree⟩) rfl rfl rfl rfl rfl rfl rfl rfl
  | admitted =>
      rw [advance, hp] at hs
      obtain ⟨-, hs⟩ := Option.ite_none_right_eq_some.mp hs
      obtain rfl := Option.some_inj.mp hs
      have hnone : images (s.spine.phase c) = none := by rw [hp]; rfl
      exact h.goes_on (hp ▸ trivial) rfl hnone (fun ha => by rw [hp] at ha; cases ha) rfl rfl rfl rfl rfl rfl rfl rfl
  | writing =>
      rw [hp] at hmeets
      rw [advance, hp] at hs
      obtain ⟨-, hs⟩ := Option.ite_none_right_eq_some.mp hs
      obtain rfl := Option.some_inj.mp hs
      refine h.commits hp rfl rfl rfl rfl rfl rfl rfl rfl (fun i hi => kind_of_commit hi) fun i hi => ?_
      have hchange : (commit chrono codec s.spine.store now (calls c)).2.1 = some i := hi
      rcases Bool.or_eq_true_iff.mp hmeets with hquiet | hcurrent
      · rw [Option.isNone_iff_eq_none.mp hquiet] at hchange
        cases hchange
      · exact last_of_current hchange hcurrent
  | committed change reply =>
      cases change with
      | none =>
          rw [advance, hp] at hs
          obtain rfl := Option.some_inj.mp hs
          have hnone : images (s.spine.phase c) = none := by rw [hp]; rfl
          exact h.goes_on (hp ▸ trivial) rfl hnone (fun _ => rfl) rfl rfl rfl rfl rfl rfl rfl rfl
      | some i =>
          rw [hp] at hmeets
          exact h.emitted hp hmeets hs hroom
  | emitting reply =>
      rw [advance, hp] at hs
      obtain rfl := Option.some_inj.mp hs
      exact h.ends hp rfl rfl rfl rfl rfl rfl rfl rfl
  | done reply =>
      rw [advance, hp] at hs
      cases hs

theorem Inv.swept (h : Inv calls owner s) (store : Store Bytes) :
    Inv calls owner { s with spine := { s.spine with store := store } } :=
  ⟨h.holder, h.quiet, h.log, h.begun, h.once, h.chained, h.flying, h.answered, h.waiting⟩

theorem Inv.finished (h : Inv calls owner s) {r : Nat} (hfree : ∀ c ∈ s.in_flight, owner c ≠ some r) :
    Inv calls owner { s with status := Function.update s.status r .draining } := by
  refine ⟨h.holder, h.quiet, h.log, h.begun, h.once, h.chained, fun c hc => ?_, fun q hq => ?_, h.waiting⟩
  · obtain ⟨hflight, hhandling⟩ := h.flying c hc
    refine ⟨hflight, fun q hq => ?_⟩
    have hqr : q ≠ r := fun heq => hfree c hflight (heq ▸ hq)
    exact (Function.update_of_ne hqr _ _).trans (hhandling q hq)
  · have hq' : Function.update s.status r .draining q = .answered := hq
    have hqr : q ≠ r := fun heq => by
      rw [heq, Function.update_self] at hq'
      cases hq'
    rw [Function.update_of_ne hqr] at hq'
    exact h.answered q hq'

theorem Inv.flushed (h : Inv calls owner s) {r : Nat} (hdrain : s.status r = .draining) (hturn : turn s (s.changes r) = true)
    (hspine : s'.spine = s.spine) (hcommitted : s'.committed = s.committed) (hflight : s'.in_flight = s.in_flight)
    (hstatus : s'.status = Function.update s.status r .answered) (hchanges : s'.changes = Function.update s.changes r [])
    (hhanded : handed s' = handed s ++ s.changes r) : Inv calls owner s' := by
  obtain ⟨held, hheld⟩ := h.waiting
  have hlog : s.spine.events <+: s.committed := ⟨_, h.log.symm⟩
  refine ⟨hspine ▸ h.holder, hspine ▸ h.quiet, hcommitted ▸ hspine ▸ h.log, hcommitted ▸ hspine ▸ h.begun,
    hcommitted ▸ h.once, hcommitted ▸ h.chained, fun c hc => ?_, fun q hq => ?_, _,
    hheld.flush hturn h.once hlog hchanges hhanded (hspine ▸ rfl)⟩
  · rw [hspine] at hc
    obtain ⟨hc, hhandling⟩ := h.flying c hc
    refine ⟨hflight ▸ hc, fun q hq => ?_⟩
    have hqr : q ≠ r := fun heq => by
      have hq' := hhandling q hq
      rw [heq, hdrain] at hq'
      cases hq'
    rw [hstatus, Function.update_of_ne hqr]
    exact hhandling q hq
  · rw [hchanges]
    by_cases hqr : q = r
    · rw [hqr, Function.update_self]
    · rw [hstatus, Function.update_of_ne hqr] at hq
      rw [Function.update_of_ne hqr]
      exact h.answered q hq

theorem Inv.received (h : Inv calls owner s) {batch : List Event} {rest : List (List Event)} (hq : s.queue = batch :: rest) :
    Inv calls owner { s with queue := rest, taken := s.taken ++ batch } := by
  obtain ⟨held, hheld⟩ := h.waiting
  refine ⟨h.holder, h.quiet, h.log, h.begun, h.once, h.chained, h.flying, h.answered, held, hheld.of_same rfl ?_ rfl⟩
  rw [handed, handed, hq, List.flatten_cons, List.append_assoc]

theorem step_inv {m : Move} (h : Inv calls owner s) (hmeets : Orderly chrono codec calls owner s m)
    (hs : step chrono codec calls owner s m = some s') (hroom : s'.dropped = 0) : Inv calls owner s' := by
  cases m with
  | call c now => exact advance_inv h hmeets hs hroom
  | sweep_expired now =>
      obtain ⟨-, hs⟩ := Option.ite_none_right_eq_some.mp hs
      obtain rfl := Option.some_inj.mp hs
      exact h.swept _
  | purge_kinds tenant kinds =>
      obtain ⟨-, hs⟩ := Option.ite_none_right_eq_some.mp hs
      obtain rfl := Option.some_inj.mp hs
      exact h.swept _
  | finish r =>
      obtain ⟨⟨-, hfree⟩, hs⟩ := Option.ite_none_right_eq_some.mp hs
      obtain rfl := Option.some_inj.mp hs
      exact h.finished hfree
  | flush r =>
      obtain ⟨hdrain, hs⟩ := Option.ite_none_right_eq_some.mp hs
      obtain rfl := Option.some_inj.mp hs
      split at hroom
      next hempty =>
        rw [if_pos hempty]
        refine h.flushed hdrain hmeets rfl rfl rfl rfl rfl ?_
        rw [List.isEmpty_iff.mp hempty, List.append_nil]
        rfl
      next hsome =>
        rw [if_neg hsome]
        refine h.flushed hdrain hmeets (spine_queue _ _) (committed_queue _ _) (in_flight_queue _ _) (status_queue _ _)
          (changes_queue _ _) ?_
        rw [handed_queue _ _ hroom]
        rfl
  | recv =>
      rw [step] at hs
      split at hs
      next => cases hs
      next batch rest hq =>
        obtain rfl := Option.some_inj.mp hs
        exact h.received hq

theorem hook_dropped (e : Event) : s.dropped ≤ (hook owner s e).dropped := by
  rw [hook]
  split
  · exact Nat.le_refl _
  · exact dropped_queue _ _

theorem advance_dropped {c : Nat} {now : String} (hs : advance chrono codec calls owner s c now = some s') :
    s.dropped ≤ s'.dropped := by
  rw [advance] at hs
  cases hp : s.spine.phase c with
  | waiting =>
      rw [hp] at hs
      simp only [Option.ite_none_right_eq_some] at hs
      obtain ⟨-, hs⟩ := hs
      split at hs
      next =>
        obtain rfl := Option.some_inj.mp hs
        exact Nat.le_refl _
      next =>
        obtain ⟨-, hs⟩ := Option.ite_none_right_eq_some.mp hs
        obtain rfl := Option.some_inj.mp hs
        exact Nat.le_refl _
  | admitted =>
      rw [hp] at hs
      obtain ⟨-, hs⟩ := Option.ite_none_right_eq_some.mp hs
      obtain rfl := Option.some_inj.mp hs
      exact Nat.le_refl _
  | writing =>
      rw [hp] at hs
      obtain ⟨-, hs⟩ := Option.ite_none_right_eq_some.mp hs
      obtain rfl := Option.some_inj.mp hs
      exact Nat.le_refl _
  | committed change reply =>
      rw [hp] at hs
      cases change with
      | none =>
          obtain rfl := Option.some_inj.mp hs
          exact Nat.le_refl _
      | some i =>
          obtain rfl := Option.some_inj.mp hs
          refine Nat.le_trans ?_ (hook_dropped _)
          exact Nat.le_refl _
  | emitting reply =>
      rw [hp] at hs
      obtain rfl := Option.some_inj.mp hs
      exact Nat.le_refl _
  | done reply =>
      rw [hp] at hs
      cases hs

/-- The count of dropped changes never falls. -/
theorem step_dropped {m : Move} (hs : step chrono codec calls owner s m = some s') : s.dropped ≤ s'.dropped := by
  cases m with
  | call c now => exact advance_dropped hs
  | sweep_expired now =>
      obtain ⟨-, hs⟩ := Option.ite_none_right_eq_some.mp hs
      obtain rfl := Option.some_inj.mp hs
      exact Nat.le_refl _
  | purge_kinds tenant kinds =>
      obtain ⟨-, hs⟩ := Option.ite_none_right_eq_some.mp hs
      obtain rfl := Option.some_inj.mp hs
      exact Nat.le_refl _
  | finish r =>
      obtain ⟨-, hs⟩ := Option.ite_none_right_eq_some.mp hs
      obtain rfl := Option.some_inj.mp hs
      exact Nat.le_refl _
  | flush r =>
      obtain ⟨-, hs⟩ := Option.ite_none_right_eq_some.mp hs
      obtain rfl := Option.some_inj.mp hs
      split
      · exact Nat.le_refl _
      · refine Nat.le_trans ?_ (dropped_queue _ _)
        exact Nat.le_refl _
  | recv =>
      rw [step] at hs
      split at hs
      next => cases hs
      next =>
        obtain rfl := Option.some_inj.mp hs
        exact Nat.le_refl _

theorem run_inv {store : Store Bytes}
    (h : Run (step chrono codec calls owner) (Orderly chrono codec calls owner) (initial store) s) (hroom : s.dropped = 0) :
    Inv calls owner s :=
  Run.keeps (P := fun s => s.dropped = 0 → Inv calls owner s)
    (fun _ _ _ hinv hmeets hs hroom => step_inv (hinv (Nat.le_zero.mp (hroom ▸ step_dropped hs))) hmeets hs hroom)
    h (fun _ => initial_inv store) hroom

/-- With nothing under way, all requests answered and the queue empty, nothing waits. -/
theorem Inv.complete (h : Inv calls owner s) (hsettled : Settled owner s) (k : String × String) :
    s.taken.filter (fun e => entity e = k) = s.committed.filter (fun e => entity e = k) := by
  obtain ⟨held, howned, hbuffers, hrelayed⟩ := h.waiting
  have hevents : s.committed = s.spine.events := by
    rw [h.log]
    cases horder : s.spine.emit_order with
    | none => exact List.append_nil _
    | some c =>
        have hnone : images (s.spine.phase c) = none := by
          cases hi : images (s.spine.phase c) with
          | none => rfl
          | some i => exact absurd (busy_of_images hi) (hsettled.idle c)
        rw [pending, hnone]
        exact List.append_nil _
  have hheld : held = [] := List.eq_nil_iff_forall_not_mem.mpr fun e he => by
    obtain ⟨r, hr⟩ := Option.isSome_iff_exists.mp (howned e he)
    have hbegun := h.begun e (hevents ▸ hrelayed.mem_held he)
    have hstarted : s.spine.phase e.call ≠ .waiting := fun hw => by
      rw [hw] at hbegun
      cases hbegun
    have hempty := h.answered r (hsettled.answered e.call r hr hstarted)
    rw [hbuffers] at hempty
    exact List.filter_eq_nil_iff.mp hempty e he (decide_eq_true hr)
  have hall := hrelayed k
  rwa [hheld, List.filter_nil, List.append_nil, handed, hsettled.drained, List.flatten_nil, List.append_nil, ← hevents] at hall

end Moves

/-- Where every change reaches the queue in its turn and starts from what the
last one left, the matcher sees the changes of every entity in commit order. -/
theorem changes_in_commit_order {store : Store Bytes} {s : System Bytes T E}
    (h : Run (step chrono codec calls owner) (Orderly chrono codec calls owner) (initial store) s) (hroom : s.dropped = 0) :
    InCommitOrder owner s := by
  have hinv := run_inv h hroom
  obtain ⟨held, -, -, hrelayed⟩ := hinv.waiting
  refine ⟨fun k => ?_, hinv.once, hinv.chained, hinv.complete⟩
  have htaken : s.taken.filter (fun e => entity e = k) <+: (handed s).filter (fun e => entity e = k) :=
    (List.prefix_append _ _).filter _
  have hlog : s.spine.events.filter (fun e => entity e = k) <+: s.committed.filter (fun e => entity e = k) :=
    List.IsPrefix.filter _ ⟨_, hinv.log.symm⟩
  exact (htaken.trans (hrelayed.in_order k)).trans hlog

def port : TenantId := ⟨"port", by decide, by decide, by decide⟩

def crane : Value := .object [("id", .string "urn:ngsi-ld:Crane:3")]

def moved_crane : Value := .object [("id", .string "urn:ngsi-ld:Crane:3"), ("berth", .number (.posInt 7))]

/-- A crane is created, moved and removed. -/
def crane_calls : Nat → Call Unit Unit
  | 0 => .create port .entity "urn:ngsi-ld:Crane:3" crane
  | 1 => .mutate port .entity "urn:ngsi-ld:Crane:3" (fun _ => .ok ((), moved_crane))
  | _ => .delete port .entity "urn:ngsi-ld:Crane:3"

def no_cranes : Store Value := ⟨⟨fun _ => BTreeMap.empty, BTreeMap.empty⟩, none⟩

def noon : String := "2026-01-01T12:00:00.000Z"

/-- A call from its start to its end. -/
def through (c : Nat) : List Move := List.replicate 5 (.call c noon)

/-- A request creates and moves the crane and is answered before a background
task removes it. -/
def create_then_remove : List Move :=
  through 0 ++ through 1 ++ [.finish 0, .flush 0] ++ through 2 ++ [.recv, .recv]

def batch_and_task (c : Nat) : Option Nat := if c < 2 then some 0 else none

theorem changes_in_commit_order_crane :
    ∃ s, Run (step fixed_width plain crane_calls batch_and_task) (Orderly fixed_width plain crane_calls batch_and_task)
        (initial no_cranes) s ∧ InCommitOrder batch_and_task s ∧ s.taken.map Event.call = [0, 1, 2] := by
  obtain ⟨s, hs⟩ := Option.isSome_iff_exists.mp (show (exec (step fixed_width plain crane_calls batch_and_task)
    (Orderly fixed_width plain crane_calls batch_and_task) (initial no_cranes) create_then_remove).isSome by decide)
  have hfacts : (exec (step fixed_width plain crane_calls batch_and_task)
      (Orderly fixed_width plain crane_calls batch_and_task) (initial no_cranes) create_then_remove).all
      (fun s => decide (s.dropped = 0 ∧ s.taken.map Event.call = [0, 1, 2])) = true := by decide
  rw [hs, Option.all_some, decide_eq_true_eq] at hfacts
  exact ⟨s, Run.of_exec hs, changes_in_commit_order fixed_width plain crane_calls batch_and_task (Run.of_exec hs) hfacts.1,
    hfacts.2⟩

/-- A request creates the crane and is still at work when a background task
removes it. -/
def remove_meanwhile : List Move := through 0 ++ through 2 ++ [.finish 0, .flush 0, .recv, .recv]

theorem changes_out_of_order_crane :
    ∃ s, Free (step fixed_width plain crane_calls batch_and_task) (initial no_cranes) s ∧ s.dropped = 0 ∧
      s.taken.map Event.call = [2, 0] ∧ ¬ InCommitOrder batch_and_task s := by
  obtain ⟨s, hs⟩ := Option.isSome_iff_exists.mp (show (exec (step fixed_width plain crane_calls batch_and_task)
    (fun _ _ => True) (initial no_cranes) remove_meanwhile).isSome by decide)
  have hfacts : (exec (step fixed_width plain crane_calls batch_and_task) (fun _ _ => True) (initial no_cranes)
      remove_meanwhile).all (fun s => decide (s.dropped = 0 ∧ s.taken.map Event.call = [2, 0] ∧
        (s.taken.filter (fun e => entity e = ("port", "urn:ngsi-ld:Crane:3"))).map Event.call = [2, 0] ∧
        (s.committed.filter (fun e => entity e = ("port", "urn:ngsi-ld:Crane:3"))).map Event.call = [0, 2])) = true := by
    decide
  rw [hs, Option.all_some, decide_eq_true_eq] at hfacts
  obtain ⟨hroom, htaken, hseen, hlog⟩ := hfacts
  refine ⟨s, Run.of_exec hs, hroom, htaken, fun h => ?_⟩
  have hprefix := (h.in_order ("port", "urn:ngsi-ld:Crane:3")).map Event.call
  rw [hseen, hlog] at hprefix
  exact absurd hprefix (by decide)

end AntaresBroker.ChangeQueue
