import AntaresBroker.Eviction
import Mathlib.Data.Prod.Lex
import Mathlib.Order.WithBot

namespace AntaresBroker.Egress

def MAX_TRACKED : Nat := 4096

/-- Consecutive failures before a destination is tripped. -/
def TRIP_AFTER : Nat := 5

/-- Clock readings, in nanoseconds. -/
abbrev Instant := Nat

def COOLDOWN : Nat := 30 * 10 ^ 9

/-- The unit separator, which is in no tenant's name. -/
def SEPARATOR : Char := '\x1f'

abbrev Tenant := { t : String // SEPARATOR ∉ t.toList }

structure Breaker where
  failures : Nat
  tripped_at : Option Instant
  touched_at : Option Instant
deriving DecidableEq

def Breaker.default : Breaker := ⟨0, none, none⟩

/-- The keys of both maps. -/
def keyed (t : Tenant) (rest : String) : String := String.ofList (t.1.toList ++ SEPARATOR :: rest.toList)

def own (key k : String) : Bool := (key.toList.takeWhile (· ≠ SEPARATOR) ++ [SEPARATOR]).isPrefixOf k.toList

section Eviction

variable {V : Type}

/-- Make room for a new key. Among equal stamps the first in the order of the
map's iteration goes, which `iter` ranks. -/
def evict_oldest (iter : String → Nat) (key : String) (stamp : V → WithBot Instant) (map : BTreeMap String V) :
    BTreeMap String V :=
  map.evict MAX_TRACKED (own key) (fun e => toLex (stamp e.2, iter e.1))

def make_room (iter : String → Nat) (key : String) (stamp : V → WithBot Instant) (map : BTreeMap String V) :
    BTreeMap String V :=
  if (map.get key).isSome then map else evict_oldest iter key stamp map

end Eviction

structure Maps where
  breakers : BTreeMap String Breaker
  reg_failures : BTreeMap String Instant

def Maps.new : Maps := ⟨.empty, .empty⟩

inductive Call
  | record_failure (url : String)
  | record_success (url : String)
  | is_open (url : String)
  | reg_record (reg_id : String) (ok : Bool)

/-- One call under the lock, with its two clock readings and the order in
which the map is iterated. -/
structure Event where
  tenant : Tenant
  call : Call
  now : Instant
  later : Instant
  iter : String → Nat

section Calls

variable (dest : String → String) (e : Event)

/-- `dest` is the peer of a URL, the text itself where it does not parse. -/
def key (t : Tenant) (url : String) : String := keyed t (dest url)

def is_open (k : String) (m : BTreeMap String Breaker) : Bool × BTreeMap String Breaker :=
  match m.get k with
  | none => (false, m)
  | some b =>
      match b.tripped_at with
      | none => (false, m)
      | some t =>
          -- the call that finds the window over is the probe
          if COOLDOWN ≤ e.now - t then (false, m.insert k { b with tripped_at := some e.later }) else (true, m)

/-- The count is a `u32` and wraps. -/
def record_failure (k : String) (m : BTreeMap String Breaker) : BTreeMap String Breaker :=
  let m := make_room e.iter k Breaker.touched_at m
  let b := (m.get k).getD Breaker.default
  let failures := (b.failures + 1) % 2 ^ 32
  m.insert k ⟨failures, if TRIP_AFTER ≤ failures then some e.later else b.tripped_at, some e.now⟩

def reg_record (k : String) (ok : Bool) (m : BTreeMap String Instant) : BTreeMap String Instant :=
  if ok then m.remove k
  else (make_room e.iter k WithBot.some m).insert k e.now

def step (s : Maps) : Maps :=
  match e.call with
  | .record_failure url => { s with breakers := record_failure e (key dest e.tenant url) s.breakers }
  | .record_success url => { s with breakers := s.breakers.remove (key dest e.tenant url) }
  | .is_open url => { s with breakers := (is_open e (key dest e.tenant url) s.breakers).2 }
  | .reg_record reg_id ok => { s with reg_failures := reg_record e (keyed e.tenant reg_id) ok s.reg_failures }

end Calls

section Runs

variable (dest : String → String)

def run (events : List Event) : Maps := events.foldl (fun s e => step dest e s) Maps.new

/-- What the calls so far say of one key: the failures since the last
success, the later of the last failure and the last admitted probe, and
whether the entry was evicted since that success. -/
structure Ledger where
  failures : Nat
  last : Instant
  evicted : Bool

def Ledger.new : Ledger := ⟨0, 0, false⟩

def note (k : String) (s : Maps) (l : Ledger) (e : Event) : Ledger :=
  let gone := (s.breakers.get k).isSome && ((step dest e s).breakers.get k).isNone
  let kept := { l with evicted := l.evicted || gone }
  match e.call with
  | .record_failure url =>
      if key dest e.tenant url = k then { kept with failures := l.failures + 1, last := max l.last e.later } else kept
  | .record_success url => if key dest e.tenant url = k then { l with failures := 0, evicted := false } else kept
  | .is_open url =>
      -- an admitted probe: a tripped destination is let through
      if key dest e.tenant url = k ∧ TRIP_AFTER ≤ l.failures ∧ (is_open e k s.breakers).1 = false then
        { kept with last := max l.last e.later }
      else kept
  | .reg_record _ _ => kept

def observe (k : String) (p : Maps × Ledger) (e : Event) : Maps × Ledger := (step dest e p.1, note dest k p.1 p.2 e)

def ledger (k : String) (events : List Event) : Ledger := (events.foldl (observe dest k) (Maps.new, Ledger.new)).2

/-- The clock does not go back, within a call and from one to the next. -/
def Timed : Instant → List Event → Prop
  | _, [] => True
  | t, e :: events => t ≤ e.now ∧ e.now ≤ e.later ∧ Timed e.later events

/-- A failure is counted where the count still has room. -/
def Countable (s : Maps) (e : Event) : Prop :=
  ∀ url, e.call = .record_failure url → ∀ b, s.breakers.get (key dest e.tenant url) = some b → b.failures + 1 < 2 ^ 32

def Counted : Maps → List Event → Prop
  | _, [] => True
  | s, e :: events => Countable dest s e ∧ Counted (step dest e s) events

/-- What holds after a run, and of the call that comes next. -/
structure Lawful (events : List Event) (e : Event) : Prop where
  breakers_bounded : (run dest events).breakers.len ≤ MAX_TRACKED
  reg_bounded : (run dest events).reg_failures.len ≤ MAX_TRACKED
  /-- An entry goes by a call of its tenant, or of one without entries while the map is full. -/
  breakers_kept : ∀ t rest, ((run dest events).breakers.get (keyed t rest)).isSome →
    (step dest e (run dest events)).breakers.get (keyed t rest) = none →
    t = e.tenant ∨ (run dest events).breakers.len = MAX_TRACKED ∧
      ∀ rest', (run dest events).breakers.get (keyed e.tenant rest') = none
  reg_kept : ∀ t rest, ((run dest events).reg_failures.get (keyed t rest)).isSome →
    (step dest e (run dest events)).reg_failures.get (keyed t rest) = none →
    t = e.tenant ∨ (run dest events).reg_failures.len = MAX_TRACKED ∧
      ∀ rest', (run dest events).reg_failures.get (keyed e.tenant rest') = none
  opens : ∀ url, e.call = .is_open url → (ledger dest (key dest e.tenant url) events).evicted = false →
    ((is_open e (key dest e.tenant url) (run dest events).breakers).1 = true ↔
      TRIP_AFTER ≤ (ledger dest (key dest e.tenant url) events).failures ∧
        e.now - (ledger dest (key dest e.tenant url) events).last < COOLDOWN)

end Runs

section Room

variable {V : Type} {iter : String → Nat} {stamp : V → WithBot Instant} {m : BTreeMap String V}

/-- What stands before the first separator is the tenant. -/
theorem tenant_of_key (t : Tenant) (r : List Char) :
    (t.1.toList ++ SEPARATOR :: r).takeWhile (· ≠ SEPARATOR) = t.1.toList := by
  rw [List.takeWhile_append_of_pos]
  · simp
  · intro c hc
    exact decide_eq_true (fun heq => t.2 (heq ▸ hc))

theorem max_tracked_pos : 0 < MAX_TRACKED := by decide

/-- The keys of a tenant are its own, and no others are. -/
theorem own_keyed (t t' : Tenant) (rest rest' : String) : own (keyed t rest) (keyed t' rest') = true ↔ t = t' := by
  rw [own, keyed, String.toList_ofList, tenant_of_key, List.isPrefixOf_iff_prefix, keyed, String.toList_ofList]
  constructor
  · rintro ⟨r, hr⟩
    have heq := congrArg (List.takeWhile (· ≠ SEPARATOR)) hr
    rw [List.append_assoc, List.singleton_append, tenant_of_key, tenant_of_key] at heq
    exact Subtype.ext (String.toList_inj.mp heq)
  · rintro rfl
    exact ⟨rest'.toList, by simp⟩

theorem own_keyed_eq {t t' : Tenant} {rest rest' : String} (h : keyed t rest = keyed t' rest') : t = t' :=
  (own_keyed t t' rest rest').mp (h ▸ (own_keyed t t rest rest).mpr rfl)

theorem make_room_self (h : m.len ≤ MAX_TRACKED) (k : String) : (make_room iter k stamp m).get k = m.get k := by
  unfold make_room
  split_ifs with hk
  · rfl
  · rw [Option.not_isSome_iff_eq_none] at hk
    rw [hk, Option.eq_none_iff_forall_ne_some]
    intro a ha
    rw [BTreeMap.evict_get max_tracked_pos h ha] at hk
    cases hk

theorem make_room_get (h : m.len ≤ MAX_TRACKED) {k l : String} {a : V} (hl : (make_room iter k stamp m).get l = some a) :
    m.get l = some a := by
  unfold make_room at hl
  split_ifs at hl
  · exact hl
  · exact BTreeMap.evict_get max_tracked_pos h hl

theorem len_make_room (h : m.len ≤ MAX_TRACKED) (k : String) (a : V) :
    ((make_room iter k stamp m).insert k a).len ≤ MAX_TRACKED := by
  unfold make_room
  split_ifs with hk
  · rw [BTreeMap.len_insert m hk]
    exact h
  · exact (BTreeMap.len_insert_le _ k a).trans (BTreeMap.evict_len max_tracked_pos h)

theorem make_room_lost (h : m.len ≤ MAX_TRACKED) {t t' : Tenant} {rest rest' : String}
    (hk : (m.get (keyed t' rest')).isSome) (hlost : (make_room iter (keyed t rest) stamp m).get (keyed t' rest') = none) :
    t' = t ∨ m.len = MAX_TRACKED ∧ ∀ r, m.get (keyed t r) = none := by
  unfold make_room at hlost
  split_ifs at hlost
  · simp [hlost] at hk
  · obtain ⟨hfull, hown | hnone⟩ := BTreeMap.evict_lost max_tracked_pos h hk hlost
    · exact .inl ((own_keyed t t' rest rest').mp hown).symm
    · refine .inr ⟨hfull, fun r => ?_⟩
      rw [← Option.not_isSome_iff_eq_none]
      intro hr
      have hfalse := hnone _ hr
      rw [(own_keyed t t rest r).mpr rfl] at hfalse
      cases hfalse

end Room

section Step

variable (dest : String → String) {e : Event}

theorem is_open_len (k : String) (m : BTreeMap String Breaker) : (is_open e k m).2.len = m.len := by
  unfold is_open
  split
  · rfl
  · rename_i b hb
    split
    · rfl
    · split_ifs
      · exact BTreeMap.len_insert m (by simp [hb]) _
      · rfl

theorem is_open_get (k l : String) (m : BTreeMap String Breaker) : ((is_open e k m).2.get l).isSome = (m.get l).isSome := by
  unfold is_open
  split
  · rfl
  · rename_i b hb
    split
    · rfl
    · split_ifs
      · rw [BTreeMap.get_insert]
        split_ifs with heq
        · simp [heq, hb]
        · rfl
      · rfl

theorem is_open_get_ne {k l : String} (h : l ≠ k) (m : BTreeMap String Breaker) : (is_open e k m).2.get l = m.get l := by
  unfold is_open
  split
  · rfl
  · split
    · rfl
    · split_ifs
      · rw [BTreeMap.get_insert, if_neg h]
      · rfl

structure Bounded (s : Maps) : Prop where
  breakers : s.breakers.len ≤ MAX_TRACKED
  reg_failures : s.reg_failures.len ≤ MAX_TRACKED

theorem Bounded.step {s : Maps} (h : Bounded s) : Bounded (step dest e s) := by
  obtain ⟨hb, hr⟩ := h
  unfold Egress.step
  cases e.call with
  | record_failure url => exact ⟨len_make_room hb _ _, hr⟩
  | record_success url => exact ⟨(BTreeMap.len_remove_le _ _).trans hb, hr⟩
  | is_open url => exact ⟨(is_open_len _ _).le.trans hb, hr⟩
  | reg_record reg_id ok =>
      cases ok with
      | true => exact ⟨hb, (BTreeMap.len_remove_le _ _).trans hr⟩
      | false => exact ⟨hb, len_make_room hr _ _⟩

theorem step_breakers_kept {s : Maps} (h : Bounded s) {t : Tenant} {rest : String}
    (hin : (s.breakers.get (keyed t rest)).isSome) (hout : (Egress.step dest e s).breakers.get (keyed t rest) = none) :
    t = e.tenant ∨ s.breakers.len = MAX_TRACKED ∧ ∀ rest', s.breakers.get (keyed e.tenant rest') = none := by
  unfold Egress.step at hout
  cases hc : e.call with
  | record_failure url =>
      simp only [hc, record_failure, BTreeMap.get_insert] at hout
      split_ifs at hout
      exact make_room_lost h.breakers hin hout
  | record_success url =>
      simp only [hc, BTreeMap.get_remove] at hout
      split_ifs at hout with heq
      · exact .inl (own_keyed_eq heq)
      · simp [hout] at hin
  | is_open url =>
      simp only [hc] at hout
      rw [← is_open_get (e := e), hout] at hin
      cases hin
  | reg_record reg_id ok =>
      simp only [hc] at hout
      simp [hout] at hin

theorem step_reg_kept {s : Maps} (h : Bounded s) {t : Tenant} {rest : String}
    (hin : (s.reg_failures.get (keyed t rest)).isSome) (hout : (Egress.step dest e s).reg_failures.get (keyed t rest) = none) :
    t = e.tenant ∨ s.reg_failures.len = MAX_TRACKED ∧ ∀ rest', s.reg_failures.get (keyed e.tenant rest') = none := by
  unfold Egress.step at hout
  cases hc : e.call with
  | reg_record reg_id ok =>
      cases ok with
      | true =>
          simp only [hc, reg_record, if_true, BTreeMap.get_remove] at hout
          split_ifs at hout with heq
          · exact .inl (own_keyed_eq heq)
          · simp [hout] at hin
      | false =>
          simp only [hc, reg_record, Bool.false_eq_true, if_false, BTreeMap.get_insert] at hout
          split_ifs at hout
          exact make_room_lost h.reg_failures hin hout
  | _ =>
      simp only [hc] at hout
      simp [hout] at hin

end Step

section Accounts

variable (dest : String → String) {e : Event} {k : String} {s : Maps} {l : Ledger} {t : Instant}

/-- What an entry that was not evicted keeps of its key's calls. -/
def Reflects (l : Ledger) : Option Breaker → Prop
  | none => l.failures = 0
  | some b => b.failures = l.failures ∧ b.tripped_at = if TRIP_AFTER ≤ l.failures then some l.last else none

/-- The maps and the ledger of one key at a time. -/
structure Account (k : String) (s : Maps) (l : Ledger) (t : Instant) : Prop where
  bounded : Bounded s
  past : l.last ≤ t
  reflects : l.evicted = false → Reflects l (s.breakers.get k)

/-- A call that leaves the entry alone, or takes it away and says so. -/
theorem Account.untouched (h : Account k s l t) (hk : (step dest e s).breakers.get k = s.breakers.get k ∨
    (step dest e s).breakers.get k = none)
    (hnow : t ≤ e.now) (hlater : e.now ≤ e.later) :
    Account k (step dest e s)
      { l with evicted := l.evicted || ((s.breakers.get k).isSome && ((step dest e s).breakers.get k).isNone) } e.later where
  bounded := h.bounded.step dest
  past := h.past.trans (hnow.trans hlater)
  reflects := by
    intro hev
    obtain ⟨hev, hgone⟩ := Bool.or_eq_false_iff.mp hev
    have hr := h.reflects hev
    rcases hk with hk | hk
    · rw [hk]
      exact hr
    · rw [hk] at hgone ⊢
      cases hb : s.breakers.get k with
      | none =>
          rw [hb] at hr
          exact hr
      | some b => simp [hb] at hgone

theorem max_later (h : Account k s l t) (hnow : t ≤ e.now) (hlater : e.now ≤ e.later) : max l.last e.later = e.later :=
  max_eq_right (h.past.trans (hnow.trans hlater))

theorem failed_get (h : Bounded s) {url : String} (hcall : e.call = .record_failure url) (hk : key dest e.tenant url = k) :
    (step dest e s).breakers.get k = some ⟨(((s.breakers.get k).getD Breaker.default).failures + 1) % 2 ^ 32,
      if TRIP_AFTER ≤ (((s.breakers.get k).getD Breaker.default).failures + 1) % 2 ^ 32 then some e.later
        else ((s.breakers.get k).getD Breaker.default).tripped_at, some e.now⟩ := by
  have hroom : (make_room e.iter k Breaker.touched_at s.breakers).get k = s.breakers.get k :=
    make_room_self h.breakers k
  simp only [Egress.step, hcall, record_failure, hk, BTreeMap.get_insert, if_true, hroom]

theorem note_failed (h : Bounded s) {url : String} (hcall : e.call = .record_failure url) (hk : key dest e.tenant url = k) :
    note dest k s l e = ⟨l.failures + 1, max l.last e.later, l.evicted⟩ := by
  simp [note, hcall, hk, failed_get dest h hcall hk]

theorem Account.failed (h : Account k s l t) {url : String} (hcall : e.call = .record_failure url)
    (hk : key dest e.tenant url = k) (hcount : Countable dest s e) (hnow : t ≤ e.now) (hlater : e.now ≤ e.later) :
    Account k (step dest e s) (note dest k s l e) e.later := by
  rw [note_failed dest h.bounded hcall hk, max_later h hnow hlater]
  refine ⟨h.bounded.step dest, le_refl _, ?_⟩
  intro hev
  have hr := h.reflects hev
  rw [failed_get dest h.bounded hcall hk]
  cases hb : s.breakers.get k with
  | none =>
      rw [hb] at hr
      simp only [Reflects] at hr ⊢
      simp [hr, Breaker.default, TRIP_AFTER]
  | some b =>
      have hfit := hcount url hcall b (hk ▸ hb)
      rw [hb] at hr
      obtain ⟨hfailures, htripped⟩ := hr
      rw [hfailures] at hfit
      simp only [Reflects, Option.getD_some, hfailures, Nat.mod_eq_of_lt hfit, true_and]
      by_cases hlt : TRIP_AFTER ≤ l.failures + 1
      · rw [if_pos hlt, if_pos hlt]
      · rw [if_neg hlt, if_neg hlt, htripped, if_neg (by omega)]

theorem Account.asked (h : Account k s l t) {url : String} (hcall : e.call = .is_open url)
    (hk : key dest e.tenant url = k) (hnow : t ≤ e.now) (hlater : e.now ≤ e.later) :
    Account k (step dest e s) (note dest k s l e) e.later := by
  have hstep : (step dest e s).breakers = (is_open e k s.breakers).2 := by simp only [Egress.step, hcall, hk]
  have hgone : ((s.breakers.get k).isSome && ((step dest e s).breakers.get k).isNone) = false := by
    rw [hstep, ← Option.not_isSome, is_open_get]
    cases (s.breakers.get k).isSome <;> rfl
  have hnote : note dest k s l e =
      if TRIP_AFTER ≤ l.failures ∧ (is_open e k s.breakers).1 = false then { l with last := e.later } else l := by
    simp only [note, hcall, hk, hgone, max_later h hnow hlater, true_and, Bool.or_false]
  rw [hnote]
  refine ⟨h.bounded.step dest, ?_, ?_⟩
  · split_ifs
    · exact le_refl _
    · exact h.past.trans (hnow.trans hlater)
  · intro hev
    have hev' : l.evicted = false := by
      split_ifs at hev
      · exact hev
      · exact hev
    have hr := h.reflects hev'
    rw [hstep]
    cases hb : s.breakers.get k with
    | none =>
        rw [hb] at hr
        simp only [Reflects] at hr
        simp [is_open, hb, Reflects, hr, TRIP_AFTER]
    | some b =>
        rw [hb] at hr
        obtain ⟨hfailures, htripped⟩ := hr
        by_cases htrip : TRIP_AFTER ≤ l.failures
        · rw [if_pos htrip] at htripped
          by_cases hover : COOLDOWN ≤ e.now - l.last
          · simp [is_open, hb, htripped, hover, htrip, Reflects, hfailures]
          · simp [is_open, hb, htripped, hover, htrip, Reflects, hfailures]
        · rw [if_neg htrip] at htripped
          simp [is_open, hb, htripped, htrip, Reflects, hfailures]

/-- One call keeps every account. -/
theorem Account.step (h : Account k s l t) (hcount : Countable dest s e) (hnow : t ≤ e.now) (hlater : e.now ≤ e.later) :
    Account k (step dest e s) (note dest k s l e) e.later := by
  have huntouched (hnote : note dest k s l e =
      { l with evicted := l.evicted || ((s.breakers.get k).isSome && ((Egress.step dest e s).breakers.get k).isNone) })
      (hk : (Egress.step dest e s).breakers.get k = s.breakers.get k ∨ (Egress.step dest e s).breakers.get k = none) :
      Account k (Egress.step dest e s) (note dest k s l e) e.later := by
    rw [hnote]
    exact h.untouched dest hk hnow hlater
  cases hcall : e.call with
  | record_failure url =>
      by_cases hk : key dest e.tenant url = k
      · exact h.failed dest hcall hk hcount hnow hlater
      · apply huntouched
        · simp only [note, hcall, if_neg hk]
        · simp only [Egress.step, hcall, record_failure, BTreeMap.get_insert, if_neg (Ne.symm hk)]
          cases hroom : (make_room e.iter (key dest e.tenant url) Breaker.touched_at s.breakers).get k with
          | none => exact .inr rfl
          | some b => exact .inl (make_room_get h.bounded.breakers hroom).symm
  | record_success url =>
      by_cases hk : key dest e.tenant url = k
      · refine ⟨h.bounded.step dest, ?_, ?_⟩
        · simp only [note, hcall, if_pos hk]
          exact h.past.trans (hnow.trans hlater)
        · intro _
          simp only [note, hcall, Egress.step, hk, BTreeMap.get_remove, if_true]
          rfl
      · apply huntouched
        · simp only [note, hcall, if_neg hk]
        · simp only [Egress.step, hcall, BTreeMap.get_remove, if_neg (Ne.symm hk)]
          exact .inl trivial
  | is_open url =>
      by_cases hk : key dest e.tenant url = k
      · exact h.asked dest hcall hk hnow hlater
      · apply huntouched
        · simp only [note, hcall, hk, false_and, if_false]
        · left
          simp only [Egress.step, hcall]
          exact is_open_get_ne (Ne.symm hk) s.breakers
  | reg_record reg_id ok =>
      apply huntouched
      · simp only [note, hcall]
      · simp only [Egress.step, hcall]
        exact .inl trivial

theorem account (k : String) {events : List Event} (ht : Timed t events) (hc : Counted dest s events)
    (h : Account k s l t) :
    ∃ t', Account k (events.foldl (fun s e => Egress.step dest e s) s) (events.foldl (observe dest k) (s, l)).2 t' := by
  induction events generalizing s l t with
  | nil => exact ⟨t, h⟩
  | cons e events ih =>
      obtain ⟨hnow, hlater, ht⟩ := ht
      exact ih ht hc.2 (h.step dest hc.1 hnow hlater)

theorem observe_fst (k : String) (events : List Event) (s : Maps) (l : Ledger) :
    (events.foldl (observe dest k) (s, l)).1 = events.foldl (fun s e => Egress.step dest e s) s := by
  induction events generalizing s l with
  | nil => rfl
  | cons e events ih => exact ih _ _

theorem account_new (k : String) : Account k Maps.new Ledger.new 0 where
  bounded := ⟨Nat.zero_le _, Nat.zero_le _⟩
  past := le_refl 0
  reflects := fun _ => rfl

/-- After a run whose counts had room, the maps are bounded, entries go only
as they may, and the breaker answers as its ledger has it. -/
theorem egress_lawful {events : List Event} (ht : Timed 0 events) (hc : Counted dest Maps.new events) (e : Event) :
    Lawful dest events e := by
  have haccount (k : String) : ∃ t', Account k (run dest events) (ledger dest k events) t' :=
    account dest k ht hc (account_new k)
  obtain ⟨t, hany⟩ := haccount ""
  refine ⟨hany.bounded.breakers, hany.bounded.reg_failures, ?_, ?_, ?_⟩
  · intro t rest
    exact step_breakers_kept dest hany.bounded
  · intro t rest
    exact step_reg_kept dest hany.bounded
  · intro url _ hev
    obtain ⟨t', h⟩ := haccount (key dest e.tenant url)
    have hr := h.reflects hev
    cases hb : (run dest events).breakers.get (key dest e.tenant url) with
    | none =>
        rw [hb] at hr
        simp only [Reflects] at hr
        simp [is_open, hb, hr, TRIP_AFTER]
    | some b =>
        rw [hb] at hr
        obtain ⟨hfailures, htripped⟩ := hr
        by_cases htrip : TRIP_AFTER ≤ (ledger dest (key dest e.tenant url) events).failures
        · rw [if_pos htrip] at htripped
          by_cases hover : COOLDOWN ≤ e.now - (ledger dest (key dest e.tenant url) events).last
          · simp [is_open, hb, htripped, hover]
          · simp [is_open, hb, htripped, hover, htrip, Nat.not_le.mp hover]
        · rw [if_neg htrip] at htripped
          simp [is_open, hb, htripped, htrip]

/-- A count is at most the number of calls. -/
theorem step_failures {n : Nat} (h : Bounded s) (hn : ∀ k b, s.breakers.get k = some b → b.failures ≤ n) :
    ∀ k b, (step dest e s).breakers.get k = some b → b.failures ≤ n + 1 := by
  intro k b hb
  cases hcall : e.call with
  | record_failure url =>
      by_cases hk : key dest e.tenant url = k
      · rw [failed_get dest h hcall hk] at hb
        injection hb with hb
        subst hb
        apply (Nat.mod_le _ _).trans
        cases hold : s.breakers.get k with
        | none => simp [Breaker.default]
        | some b => exact Nat.succ_le_succ (hn k b hold)
      · simp only [Egress.step, hcall, record_failure, BTreeMap.get_insert, if_neg (Ne.symm hk)] at hb
        exact (hn k b (make_room_get h.breakers hb)).trans (Nat.le_succ n)
  | record_success url =>
      simp only [Egress.step, hcall, BTreeMap.get_remove] at hb
      split_ifs at hb
      exact (hn k b hb).trans (Nat.le_succ n)
  | is_open url =>
      simp only [Egress.step, hcall, is_open] at hb
      split at hb
      · exact (hn k b hb).trans (Nat.le_succ n)
      · rename_i b' hold
        split at hb
        · exact (hn k b hb).trans (Nat.le_succ n)
        · split_ifs at hb
          · rw [BTreeMap.get_insert] at hb
            split_ifs at hb
            · injection hb with hb
              subst hb
              exact (hn _ b' hold).trans (Nat.le_succ n)
            · exact (hn k b hb).trans (Nat.le_succ n)
          · exact (hn k b hb).trans (Nat.le_succ n)
  | reg_record reg_id ok =>
      simp only [Egress.step, hcall] at hb
      exact (hn k b hb).trans (Nat.le_succ n)

/-- Below `2 ^ 32` calls every failure is counted. -/
theorem counted_of_length {n : Nat} (h : Bounded s) (hn : ∀ k b, s.breakers.get k = some b → b.failures ≤ n)
    {events : List Event} (hlen : n + events.length < 2 ^ 32) : Counted dest s events := by
  induction events generalizing s n with
  | nil => trivial
  | cons e events ih =>
      rw [List.length_cons] at hlen
      constructor
      · intro url _ b hb
        have := hn _ b hb
        omega
      · exact ih (h.step dest) (step_failures dest h hn) (by omega)

end Accounts

section DeadHost

def tenant_a : Tenant := ⟨"a", by decide⟩

def dead : String := "http://dead.example:9090"

def failing (t : Instant) : Event := ⟨tenant_a, .record_failure dead, t, t, fun _ => 0⟩

def asking (t : Instant) : Event := ⟨tenant_a, .is_open dead, t, t, fun _ => 0⟩

theorem bounded_new : Bounded Maps.new := ⟨Nat.zero_le _, Nat.zero_le _⟩

theorem timed_failing (n : Nat) {events : List Event} (h : Timed 0 events) :
    Timed 0 (List.replicate n (failing 0) ++ events) := by
  induction n with
  | zero => exact h
  | succ n ih => exact ⟨le_refl _, le_refl _, ih⟩

theorem tripped_after_five :
    Timed 0 (List.replicate 5 (failing 0)) ∧ Lawful id (List.replicate 5 (failing 0)) (asking (10 * 10 ^ 9)) := by
  have ht : Timed 0 (List.replicate 5 (failing 0)) := by
    rw [← List.append_nil (List.replicate 5 (failing 0))]
    exact timed_failing 5 trivial
  have hc : Counted id Maps.new (List.replicate 5 (failing 0)) :=
    counted_of_length id bounded_new (n := 0) (by simp [Maps.new]) (by simp)
  exact ⟨ht, egress_lawful id ht hc (asking (10 * 10 ^ 9))⟩

theorem observe_failing (n : Nat) {s : Maps} {l : Ledger} (h : Bounded s) :
    ((List.replicate n (failing 0)).foldl (observe id (key id tenant_a dead)) (s, l)).2 =
      ⟨l.failures + n, l.last, l.evicted⟩ := by
  induction n generalizing s l with
  | zero => rfl
  | succ n ih =>
      have hnote : note id (key id tenant_a dead) s l (failing 0) = ⟨l.failures + 1, max l.last 0, l.evicted⟩ :=
        note_failed id h rfl rfl
      rw [List.replicate_succ, List.foldl_cons]
      apply (ih (h.step id)).trans
      simp [hnote, Nat.add_assoc, Nat.add_comm 1 n]

/-- Failures up to a full count, and one more at second twenty. -/
def endless (n : Nat) : List Event := List.replicate n (failing 0) ++ [failing (20 * 10 ^ 9)]

theorem endless_timed (n : Nat) : Timed 0 (endless n) := timed_failing n ⟨Nat.zero_le _, le_refl _, trivial⟩

/-- The call that wraps the count leaves the breaker tripped where it was. -/
theorem endless_end {n : Nat} (hn : n + 1 = 2 ^ 32) :
    (run id (endless n)).breakers.get (key id tenant_a dead) = some ⟨0, some 0, some (20 * 10 ^ 9)⟩ ∧
      ledger id (key id tenant_a dead) (endless n) = ⟨2 ^ 32, 20 * 10 ^ 9, false⟩ := by
  have htimed : Timed 0 (List.replicate n (failing 0)) := by
    rw [← List.append_nil (List.replicate n (failing 0))]
    exact timed_failing n trivial
  have hcount : Counted id Maps.new (List.replicate n (failing 0)) :=
    counted_of_length id bounded_new (n := 0) (by simp [Maps.new]) (by rw [List.length_replicate]; omega)
  obtain ⟨t, hfull⟩ := account id (key id tenant_a dead) htimed hcount (account_new _)
  have hledger := observe_failing n (l := Ledger.new) bounded_new
  have hr := hfull.reflects (by rw [hledger]; rfl)
  rw [hledger] at hr
  have htrip : TRIP_AFTER ≤ Ledger.new.failures + n := by
    simp only [TRIP_AFTER, Ledger.new]
    omega
  cases hb : (run id (List.replicate n (failing 0))).breakers.get (key id tenant_a dead) with
  | none =>
      unfold run at hb
      rw [hb] at hr
      simp only [Reflects, Ledger.new] at hr
      omega
  | some b =>
      have hb' := hb
      unfold run at hb
      rw [hb] at hr
      obtain ⟨hfailures, htripped⟩ := hr
      rw [if_pos htrip] at htripped
      have hget : (step id (failing (20 * 10 ^ 9)) (run id (List.replicate n (failing 0)))).breakers.get (key id tenant_a dead) =
          _ := failed_get id hfull.bounded rfl rfl
      have hnote : note id (key id tenant_a dead) (run id (List.replicate n (failing 0))) ⟨n, 0, false⟩
          (failing (20 * 10 ^ 9)) = ⟨n + 1, max 0 (20 * 10 ^ 9), false⟩ := note_failed id hfull.bounded rfl rfl
      constructor
      · have hrun : run id (endless n) = step id (failing (20 * 10 ^ 9)) (run id (List.replicate n (failing 0))) := by
          simp [run, endless]
        have hwrap : (b.failures + 1) % 2 ^ 32 = 0 := by
          rw [hfailures]
          simp only [Ledger.new, Nat.zero_add, hn]
          rfl
        rw [hrun, hget, hb', Option.getD_some, hwrap, htripped]
        rfl
      · have hpair : ((List.replicate n (failing 0)).foldl (observe id (key id tenant_a dead)) (Maps.new, Ledger.new)) =
            (run id (List.replicate n (failing 0)), ⟨n, 0, false⟩) := by
          apply Prod.ext
          · exact observe_fst id _ _ _ _
          · rw [hledger]
            simp [Ledger.new]
        rw [ledger, endless, List.foldl_append, hpair]
        simp only [List.foldl_cons, List.foldl_nil, observe, hnote, hn]
        rfl

theorem wrapped_count_misses_failure : ¬ ∀ events e, Timed 0 events → Lawful id events e := by
  intro hall
  obtain ⟨n, hn⟩ : ∃ n, n + 1 = 2 ^ 32 := ⟨2 ^ 32 - 1, by decide⟩
  obtain ⟨hget, hledger⟩ := endless_end hn
  have hopens := (hall (endless n) (asking (40 * 10 ^ 9)) (endless_timed n)).opens dead rfl
  have htenant : (asking (40 * 10 ^ 9)).tenant = tenant_a := rfl
  rw [htenant, hledger] at hopens
  have hclosed : (is_open (asking (40 * 10 ^ 9)) (key id tenant_a dead) (run id (endless n)).breakers).1 = false := by
    simp [is_open, hget, asking, COOLDOWN]
  have hopen := (hopens rfl).mpr ⟨by decide, by decide⟩
  rw [hclosed] at hopen
  cases hopen

end DeadHost

end AntaresBroker.Egress
