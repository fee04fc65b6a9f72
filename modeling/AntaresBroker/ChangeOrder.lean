import AntaresBroker.Shadow

namespace AntaresBroker.ChangeOrder

open Json Expiry Mem Shadow

variable {Instant Bytes T E : Type} [LinearOrder Instant] (chrono : Chrono Instant) (codec : Codec Bytes)

/-- A write call with the document it is about. -/
inductive Call (T E : Type)
  | create (tenant : TenantId) (kind : Kind) (id : String) (doc : Value)
  | upsert (tenant : TenantId) (kind : Kind) (id : String) (doc : Value)
  | mutate (tenant : TenantId) (kind : Kind) (id : String) (f : Value → Except E (T × Value))
  | delete (tenant : TenantId) (kind : Kind) (id : String)
  | delete_if (tenant : TenantId) (id : String) (keep : Value → Bool)

inductive Answer (T E : Type)
  | created (b : Bool)
  | existed (b : Bool)
  | mutated (r : Option (Except E T))
  | hit (b : Bool)
  | removed (doc : Option Value)

namespace Call

def kind : Call T E → Kind
  | .create _ k _ _ => k
  | .upsert _ k _ _ => k
  | .mutate _ k _ _ => k
  | .delete _ k _ => k
  | .delete_if _ _ _ => .entity

def tenant : Call T E → TenantId
  | .create t _ _ _ => t
  | .upsert t _ _ _ => t
  | .mutate t _ _ _ => t
  | .delete t _ _ => t
  | .delete_if t _ _ => t

def id : Call T E → String
  | .create _ _ i _ => i
  | .upsert _ _ i _ => i
  | .mutate _ _ i _ => i
  | .delete _ _ i => i
  | .delete_if _ i _ => i

end Call

structure Change where
  before : Option Value
  after : Option Value

/-- The write-critical section of a call: the store after it, the images it
will emit, and what it answers. -/
def commit (s : Store Bytes) (now : String) : Call T E → Store Bytes × Option Change × Answer T E
  | .create tenant kind id doc =>
      let (s', created) := create chrono codec s now tenant kind id doc
      (s', if created ∧ kind = .entity then some ⟨none, some doc⟩ else none, .created created)
  | .upsert tenant kind id doc =>
      let (s', prev, expired) := upsert chrono codec s now tenant kind id doc
      (s', if kind = .entity then some ⟨if expired then none else prev, some doc⟩ else none,
        .existed (prev.isSome && !expired))
  | .mutate tenant kind id f =>
      let (s', r) := mutate chrono codec s now tenant kind id f
      (s', (r.bind Prod.snd).map (fun c => ⟨some c.1, some c.2⟩), .mutated (r.map Prod.fst))
  | .delete tenant kind id =>
      let (s', removed) := delete chrono codec s now tenant kind id
      (s', if kind = .entity then removed.map (fun old => ⟨some old, none⟩) else none, .hit removed.isSome)
  | .delete_if tenant id keep =>
      let (s', removed) := delete_if chrono codec s now tenant id keep
      (s', removed.map (fun old => ⟨some old, none⟩), .removed removed)

/-- Where a call stands. A call on an entity holds `emit_order` in every phase
between `waiting` and `done`. -/
inductive Phase (T E : Type)
  | waiting
  | admitted
  | writing
  | committed (change : Option Change) (answer : Answer T E)
  | emitting (answer : Answer T E)
  | done (answer : Answer T E)

/-- What the hook receives, with the call that sent it. -/
structure Event where
  call : Nat
  tenant : String
  id : String
  before : Option Value
  after : Option Value

structure System (Bytes T E : Type) where
  store : Store Bytes
  emit_order : Option Nat
  writer : Option Nat
  phase : Nat → Phase T E
  events : List Event

/-- No stored entity has expired at the instant a call commits. -/
def Live (i : Inner) (now : String) : Prop :=
  ∀ t id d, i.get .entity t id = some d → expired_at chrono d now = false

def event (calls : Nat → Call T E) (c : Nat) (change : Change) : Event :=
  ⟨c, (calls c).tenant.name, (calls c).id, change.before, change.after⟩

/-- One move of one call: the two locks, the section under the write lock, the
hook with the images, and the release. -/
inductive Step (calls : Nat → Call T E) : System Bytes T E → System Bytes T E → Prop
  | order (s) (c : Nat) (hp : s.phase c = .waiting) (hk : (calls c).kind = .entity) (hfree : s.emit_order = none) :
      Step calls s { s with emit_order := some c, phase := Function.update s.phase c .admitted }
  | enter (s) (c : Nat) (hp : s.phase c = .waiting) (hk : (calls c).kind ≠ .entity) :
      Step calls s { s with phase := Function.update s.phase c .admitted }
  | lock (s) (c : Nat) (hp : s.phase c = .admitted) (hfree : s.writer = none) :
      Step calls s { s with writer := some c, phase := Function.update s.phase c .writing }
  | commit (s) (c : Nat) (now : String) (hp : s.phase c = .writing) (hheld : s.writer = some c)
      (hlive : Live chrono s.store.inner now) :
      Step calls s { s with
        store := (commit chrono codec s.store now (calls c)).1
        writer := none
        phase := Function.update s.phase c (.committed (commit chrono codec s.store now (calls c)).2.1
          (commit chrono codec s.store now (calls c)).2.2) }
  | emit (s) (c : Nat) (change : Change) (answer : Answer T E) (hp : s.phase c = .committed (some change) answer) :
      Step calls s { s with
        events := s.events ++ [event calls c change]
        phase := Function.update s.phase c (.emitting answer) }
  | skip (s) (c : Nat) (answer : Answer T E) (hp : s.phase c = .committed none answer) :
      Step calls s { s with phase := Function.update s.phase c (.emitting answer) }
  | release (s) (c : Nat) (answer : Answer T E) (hp : s.phase c = .emitting answer) :
      Step calls s { s with
        emit_order := if s.emit_order = some c then none else s.emit_order
        phase := Function.update s.phase c (.done answer) }

def initial (shadow : Option (Shadow Bytes)) : System Bytes T E :=
  ⟨⟨⟨fun _ => BTreeMap.empty, BTreeMap.empty⟩, shadow⟩, none, none, fun _ => .waiting, []⟩

/-- The states some interleaving of the calls reaches. -/
inductive Reachable (calls : Nat → Call T E) (shadow : Option (Shadow Bytes)) : System Bytes T E → Prop
  | initial : Reachable calls shadow (initial shadow)
  | step {s s'} (h : Reachable calls shadow s) (hs : Step chrono codec calls s s') : Reachable calls shadow s'

abbrev Images := String → String → Option Value

def apply (m : Images) (e : Event) : Images := fun t id => if t = e.tenant ∧ id = e.id then e.after else m t id

def replay (es : List Event) : Images := es.foldl apply (fun _ _ => none)

def entities (i : Inner) : Images := i.get .entity

/-- Every event starts from what the events before it left. -/
def Chained (es : List Event) : Prop :=
  ∀ pre e post, es = pre ++ e :: post → e.before = replay pre e.tenant e.id

theorem replay_append (es : List Event) (e : Event) : replay (es ++ [e]) = apply (replay es) e := by
  simp [replay]

theorem chained_nil : Chained [] := by
  intro pre e post h
  simp at h

theorem chained_append {es : List Event} {e : Event} (h : Chained es) (he : e.before = replay es e.tenant e.id) :
    Chained (es ++ [e]) := by
  intro pre f post hf
  rcases List.eq_nil_or_concat post with rfl | ⟨post', g, rfl⟩
  · obtain ⟨rfl, hfe⟩ := List.append_inj' hf rfl
    injection hfe with hfe
    exact hfe ▸ he
  · rw [List.concat_eq_append, ← List.cons_append, ← List.append_assoc] at hf
    obtain ⟨hes, -⟩ := List.append_inj' hf rfl
    exact h pre f post' hes

/-- What a section does to the entities, given that none has expired. -/
def Explains (i j : Inner) (c : Call T E) : Option Change → Prop
  | none => entities j = entities i
  | some change => c.kind = .entity ∧ change.before = entities i c.tenant.name c.id ∧
      ∀ t id, entities j t id = if t = c.tenant.name ∧ id = c.id then change.after else entities i t id

section Sections

variable {s : Store Bytes} {now : String}

theorem not_expired (h : Live chrono s.inner now) (kind : Kind) (t id : String) :
    is_expired chrono s.inner kind t id now = false := by
  unfold is_expired
  by_cases hk : kind = .entity
  · subst hk
    cases hg : s.inner.get .entity t id with
    | none => simp
    | some d => simp [h t id d hg]
  · simp [hk]

theorem entities_insert (i : Inner) (kind : Kind) (tenant id : String) (d : Value) (t j : String) :
    entities (i.insert kind tenant id d) t j =
      if kind = .entity ∧ t = tenant ∧ j = id then some d else entities i t j := by
  rw [entities, Inner.get_insert]
  by_cases hk : kind = .entity
  · simp [hk, entities]
  · simp [hk, Ne.symm hk, entities]

theorem entities_remove (i : Inner) (kind : Kind) (tenant id : String) (t j : String) :
    entities (i.remove kind tenant id) t j =
      if kind = .entity ∧ t = tenant ∧ j = id then none else entities i t j := by
  rw [entities, Inner.get_remove]
  by_cases hk : kind = .entity
  · simp [hk, entities]
  · simp [hk, Ne.symm hk, entities]

theorem create_explains (tenant : TenantId) (kind : Kind) (id : String) (doc : Value)
    (h : is_expired chrono s.inner kind tenant.name id now = false) :
    Explains s.inner (commit chrono codec s now (.create tenant kind id doc : Call T E)).1.inner
      (.create tenant kind id doc : Call T E) (commit chrono codec s now (.create tenant kind id doc : Call T E)).2.1 := by
  simp only [commit, create, h, Inner.get_entry, Bool.not_false, Bool.and_true]
  by_cases hg : (s.inner.get kind tenant.name id).isSome
  · rw [if_pos hg]
    simp only [Bool.false_eq_true, false_and, if_false, Explains]
    funext t j
    simp [entities]
  · rw [if_neg hg]
    have hentry (t j : String) : entities (s.inner.entry kind tenant.name) t j = entities s.inner t j := by
      simp [entities]
    by_cases hk : kind = .entity
    · subst hk
      refine ⟨rfl, ?_, fun t j => ?_⟩
      · exact (Option.not_isSome_iff_eq_none.mp hg).symm
      · rw [persist_inner, entities_insert, hentry]
        by_cases he : t = tenant.name ∧ j = id <;> simp [Call.tenant, Call.id, he]
    · simp only [hk, and_false, if_false, Explains]
      funext t j
      rw [persist_inner, entities_insert, hentry]
      simp [hk]

theorem upsert_explains (tenant : TenantId) (kind : Kind) (id : String) (doc : Value)
    (h : is_expired chrono s.inner kind tenant.name id now = false) :
    Explains s.inner (commit chrono codec s now (.upsert tenant kind id doc : Call T E)).1.inner
      (.upsert tenant kind id doc : Call T E) (commit chrono codec s now (.upsert tenant kind id doc : Call T E)).2.1 := by
  simp only [commit, upsert, h, persist_inner]
  by_cases hk : kind = .entity
  · subst hk
    refine ⟨rfl, rfl, fun t j => ?_⟩
    rw [entities_insert]
    by_cases he : t = tenant.name ∧ j = id <;> simp [Call.tenant, Call.id, he]
  · simp only [hk, if_false, Explains]
    funext t j
    rw [entities_insert]
    simp [hk]

theorem delete_explains (tenant : TenantId) (kind : Kind) (id : String)
    (h : is_expired chrono s.inner kind tenant.name id now = false) :
    Explains s.inner (commit chrono codec s now (.delete tenant kind id : Call T E)).1.inner
      (.delete tenant kind id : Call T E) (commit chrono codec s now (.delete tenant kind id : Call T E)).2.1 := by
  simp only [commit, delete, h, Bool.false_eq_true, if_false]
  cases hg : s.inner.get kind tenant.name id with
  | none =>
      simp only [Option.isSome_none, Bool.false_eq_true, if_false, Option.map_none, ite_self, Explains]
      funext t j
      rw [entities_remove]
      split_ifs with he
      · obtain ⟨rfl, rfl, rfl⟩ := he
        exact hg.symm
      · rfl
  | some old =>
      simp only [Option.isSome_some, if_true, persist_inner, Option.map_some]
      by_cases hk : kind = .entity
      · subst hk
        refine ⟨rfl, hg.symm, fun t j => ?_⟩
        rw [entities_remove]
        by_cases he : t = tenant.name ∧ j = id <;> simp [Call.tenant, Call.id, he]
      · simp only [hk, if_false, Explains]
        funext t j
        rw [entities_remove]
        simp [hk]

theorem delete_if_explains (tenant : TenantId) (id : String) (keep : Value → Bool)
    (h : is_expired chrono s.inner .entity tenant.name id now = false) :
    Explains s.inner (commit chrono codec s now (.delete_if tenant id keep : Call T E)).1.inner
      (.delete_if tenant id keep : Call T E)
      (commit chrono codec s now (.delete_if tenant id keep : Call T E)).2.1 := by
  simp only [commit, delete_if, h, Bool.false_eq_true, if_false]
  cases hg : s.inner.get .entity tenant.name id with
  | none => rfl
  | some old =>
      dsimp only
      by_cases hkeep : keep old
      · rw [if_pos hkeep]
        refine ⟨rfl, hg.symm, fun t j => ?_⟩
        rw [persist_inner, entities_remove]
        by_cases he : t = tenant.name ∧ j = id <;> simp [Call.tenant, Call.id, he]
      · rw [if_neg hkeep]
        rfl

/-- The images of a mutate: an error or an equal copy has none. -/
theorem mutate_change (tenant : TenantId) (kind : Kind) (id : String) (f : Value → Except E (T × Value))
    {change : Change}
    (hc : (commit chrono codec s now (.mutate tenant kind id f : Call T E)).2.1 = some change) :
    ∃ b t a, f b = .ok (t, a) ∧ a ≠ b ∧ change = ⟨some b, some a⟩ ∧
      (commit chrono codec s now (.mutate tenant kind id f : Call T E)).2.2 = .mutated (some (.ok t)) := by
  simp only [commit, mutate] at hc ⊢
  split_ifs at hc ⊢ with hexp
  · simp at hc
  · cases hg : s.inner.get kind tenant.name id with
    | none => simp [hg] at hc
    | some b =>
        rw [hg] at hc
        dsimp only at hc ⊢
        cases hf : f b with
        | error e => simp [hf] at hc
        | ok r =>
            obtain ⟨t, a⟩ := r
            rw [hf] at hc
            simp only [Option.bind_some] at hc
            split_ifs at hc with hk
            · refine ⟨b, t, a, hf, hk.2, ?_, rfl⟩
              injection hc with hc
              exact hc.symm
            · simp at hc

theorem mutate_explains (tenant : TenantId) (kind : Kind) (id : String) (f : Value → Except E (T × Value))
    (h : is_expired chrono s.inner kind tenant.name id now = false) :
    Explains s.inner (commit chrono codec s now (.mutate tenant kind id f : Call T E)).1.inner
      (.mutate tenant kind id f : Call T E) (commit chrono codec s now (.mutate tenant kind id f : Call T E)).2.1 := by
  simp only [commit, mutate, h, Bool.false_eq_true, if_false]
  cases hg : s.inner.get kind tenant.name id with
  | none => rfl
  | some b =>
      dsimp only
      cases hf : f b with
      | error e => rfl
      | ok r =>
          obtain ⟨t, a⟩ := r
          simp only [Option.bind_some]
          by_cases hk : kind = .entity ∧ a ≠ b
          · rw [if_pos hk]
            refine ⟨hk.1, by rw [Call.tenant, Call.id, entities, ← hk.1, hg], fun u j => ?_⟩
            rw [entities_insert]
            by_cases he : u = tenant.name ∧ j = id <;> simp [hk.1, Call.tenant, Call.id, he]
          · rw [if_neg hk]
            simp only [Option.map_none, Explains]
            funext u j
            rw [entities_insert]
            split_ifs with he
            · obtain ⟨rfl, rfl, rfl⟩ := he
              have hab : a = b := by simpa using hk
              rw [entities, hg, hab]
            · rfl

theorem commit_explains (c : Call T E) (h : is_expired chrono s.inner c.kind c.tenant.name c.id now = false) :
    Explains s.inner (commit chrono codec s now c).1.inner c (commit chrono codec s now c).2.1 := by
  cases c with
  | create => exact create_explains chrono codec _ _ _ _ h
  | upsert => exact upsert_explains chrono codec _ _ _ _ h
  | mutate => exact mutate_explains chrono codec _ _ _ _ h
  | delete => exact delete_explains chrono codec _ _ _ h
  | delete_if => exact delete_if_explains chrono codec _ _ _ h

end Sections

section Invariant

variable {calls : Nat → Call T E}

def images : Phase T E → Option Change
  | .committed change _ => change
  | _ => none

def answer : Phase T E → Option (Answer T E)
  | .committed _ a => some a
  | .emitting a => some a
  | .done a => some a
  | _ => none

/-- A call between the two ends of its hold on `emit_order`. -/
def Busy : Phase T E → Prop
  | .waiting => False
  | .done _ => False
  | _ => True

/-- The event that was committed and has not been handed to the hook. -/
def pending (calls : Nat → Call T E) (holder : Option Nat) (phase : Nat → Phase T E) : List Event :=
  match holder with
  | none => []
  | some c => ((images (phase c)).map (event calls c)).toList

/-- An event of a mutate is that of a closure that returned a changed copy. -/
def Told (calls : Nat → Call T E) (phase : Nat → Phase T E) (e : Event) : Prop :=
  ∀ tenant kind id f, calls e.call = .mutate tenant kind id f →
    ∃ b t a, f b = .ok (t, a) ∧ a ≠ b ∧ e.before = some b ∧ e.after = some a ∧
      answer (phase e.call) = some (.mutated (some (.ok t)))

/-- The two locks: the holder of `emit_order` is the one entity call under way,
and what it has committed but not emitted is all that events lag behind. -/
structure Inv (calls : Nat → Call T E) (s : System Bytes T E) : Prop where
  holder : ∀ c, (calls c).kind = .entity → (Busy (s.phase c) ↔ s.emit_order = some c)
  entity : ∀ c, s.emit_order = some c → (calls c).kind = .entity
  quiet : ∀ c change, images (s.phase c) = some change → (calls c).kind = .entity
  chained : Chained (s.events ++ pending calls s.emit_order s.phase)
  replayed : replay (s.events ++ pending calls s.emit_order s.phase) = entities s.store.inner
  told : ∀ e ∈ s.events ++ pending calls s.emit_order s.phase, Told calls s.phase e

theorem pending_update {holder : Option Nat} {phase : Nat → Phase T E} {c : Nat} {p : Phase T E}
    (h : holder = some c → images p = images (phase c)) :
    pending calls holder (Function.update phase c p) = pending calls holder phase := by
  cases holder with
  | none => rfl
  | some d =>
      by_cases hd : d = c
      · subst hd
        simp [pending, h rfl]
      · simp [pending, hd]

theorem told_update {phase : Nat → Phase T E} {c : Nat} {p : Phase T E} {e : Event}
    (h : ∀ a, answer (phase c) = some a → answer p = some a) (ht : Told calls phase e) :
    Told calls (Function.update phase c p) e := by
  intro tenant kind id f hf
  obtain ⟨b, t, a, h1, h2, h3, h4, h5⟩ := ht tenant kind id f hf
  refine ⟨b, t, a, h1, h2, h3, h4, ?_⟩
  by_cases hc : e.call = c
  · rw [hc] at h5 ⊢
    rw [Function.update_self]
    exact h _ h5
  · rwa [Function.update_of_ne hc]

theorem quiet_update {s : System Bytes T E} (h : Inv calls s) {c : Nat} {p : Phase T E}
    (hp : ∀ change, images p = some change → (calls c).kind = .entity) (d : Nat) (change : Change)
    (hd : images (Function.update s.phase c p d) = some change) : (calls d).kind = .entity := by
  by_cases hdc : d = c
  · subst hdc
    rw [Function.update_self] at hd
    exact hp change hd
  · rw [Function.update_of_ne hdc] at hd
    exact h.quiet d change hd

/-- A move that changes no store, no event and no image keeps the invariant. -/
theorem inv_move {s : System Bytes T E} (h : Inv calls s) {c : Nat} {p : Phase T E} (holder writer : Option Nat)
    (himages : images p = images (s.phase c)) (hanswer : ∀ a, answer (s.phase c) = some a → answer p = some a)
    (hpending : pending calls holder s.phase = pending calls s.emit_order s.phase)
    (hholder : ∀ d, (calls d).kind = .entity →
      (Busy (Function.update s.phase c p d) ↔ holder = some d))
    (hentity : ∀ d, holder = some d → (calls d).kind = .entity) :
    Inv calls { s with emit_order := holder, writer := writer, phase := Function.update s.phase c p } := by
  have hp : pending calls holder (Function.update s.phase c p) = pending calls s.emit_order s.phase := by
    rw [pending_update (fun _ => himages), hpending]
  refine ⟨hholder, hentity, quiet_update h (fun change hd => h.quiet c change (himages ▸ hd)), ?_, ?_, ?_⟩
  · rw [hp]; exact h.chained
  · rw [hp]; exact h.replayed
  · rw [hp]
    exact fun e he => told_update hanswer (h.told e he)

theorem busy_update {s : System Bytes T E} (h : Inv calls s) {c : Nat} {p : Phase T E}
    (hp : Busy p ↔ Busy (s.phase c)) (d : Nat) (hd : (calls d).kind = .entity) :
    Busy (Function.update s.phase c p d) ↔ s.emit_order = some d := by
  by_cases hdc : d = c
  · subst hdc
    rw [Function.update_self, hp]
    exact h.holder d hd
  · rw [Function.update_of_ne hdc]
    exact h.holder d hd

/-- The section under the write lock: the images it leaves are the step from
what the events replay to what the store now holds. -/
theorem inv_commit {s : System Bytes T E} (h : Inv calls s) {c : Nat} {now : String}
    (hp : s.phase c = .writing) (hlive : Live chrono s.store.inner now) :
    Inv calls { s with
      store := (commit chrono codec s.store now (calls c)).1
      writer := none
      phase := Function.update s.phase c (.committed (commit chrono codec s.store now (calls c)).2.1
        (commit chrono codec s.store now (calls c)).2.2) } := by
  have hexp := commit_explains chrono codec (calls c) (not_expired chrono hlive _ _ _)
  have hmut := @mutate_change Instant Bytes T E _ chrono codec s.store now
  have hbusy : Busy (s.phase c) := by rw [hp]; exact trivial
  have himages : images (s.phase c) = none := by rw [hp]; rfl
  have hanswer : ∀ a, answer (s.phase c) = some a → False := by rw [hp]; intro a ha; simp [answer] at ha
  have hstep := busy_update h (c := c)
    (p := .committed (commit chrono codec s.store now (calls c)).2.1 (commit chrono codec s.store now (calls c)).2.2)
    (by rw [hp]; exact Iff.rfl)
  cases hc : (commit chrono codec s.store now (calls c)).2.1 with
  | none =>
      rw [hc] at hexp hstep
      have hpend : pending calls s.emit_order (Function.update s.phase c
          (.committed none (commit chrono codec s.store now (calls c)).2.2)) =
            pending calls s.emit_order s.phase := pending_update (fun _ => himages.symm)
      refine ⟨hstep, h.entity, quiet_update h (by simp [images]), ?_, ?_, ?_⟩
      · rw [hpend]; exact h.chained
      · rw [hpend, h.replayed]
        exact Eq.symm hexp
      · rw [hpend]
        exact fun e he => told_update (fun a ha => absurd ha (fun ha => hanswer a ha)) (h.told e he)
  | some change =>
      rw [hc] at hexp hstep
      obtain ⟨hkind, hbefore, hafter⟩ := hexp
      have hheld : s.emit_order = some c := (h.holder c hkind).mp hbusy
      have hnone : pending calls s.emit_order s.phase = [] := by simp [pending, hheld, himages]
      have hpend : pending calls s.emit_order (Function.update s.phase c
          (.committed (some change) (commit chrono codec s.store now (calls c)).2.2)) = [event calls c change] := by
        simp [pending, hheld, images]
      have hchained := h.chained
      have hreplayed := h.replayed
      have htold := h.told
      rw [hnone, List.append_nil] at hchained hreplayed htold
      refine ⟨hstep, h.entity, quiet_update h (fun _ _ => hkind), ?_, ?_, ?_⟩
      · rw [hpend]
        refine chained_append hchained ?_
        rw [hreplayed]
        exact hbefore
      · rw [hpend, replay_append, hreplayed]
        funext t id
        rw [hafter]
        rfl
      · rw [hpend]
        intro e he
        rcases List.mem_append.mp he with he | he
        · exact told_update (fun a ha => absurd ha (fun ha => hanswer a ha)) (htold e he)
        · rw [List.mem_singleton.mp he]
          intro tenant kind id f hf
          have hf' : calls c = .mutate tenant kind id f := hf
          rw [hf'] at hc
          obtain ⟨b, t, a, h1, h2, h3, h4⟩ := hmut tenant kind id f hc
          subst h3
          refine ⟨b, t, a, h1, h2, rfl, rfl, ?_⟩
          simp only [event, Function.update_self, answer]
          rw [hf', h4]

theorem step_inv {s s' : System Bytes T E} (h : Inv calls s) (hs : Step chrono codec calls s s') : Inv calls s' := by
  cases hs with
  | order c hp hk hfree =>
      refine inv_move h (some c) s.writer (by rw [hp]; rfl) (by rw [hp]; simp [answer]) ?_ ?_ ?_
      · simp [pending, hfree, hp, images]
      · intro d hd
        by_cases hdc : d = c
        · subst hdc
          simp [Busy]
        · rw [Function.update_of_ne hdc, h.holder d hd, hfree]
          simp [Ne.symm hdc]
      · rintro d ⟨⟩
        exact hk
  | enter c hp hk =>
      refine inv_move h s.emit_order s.writer (by rw [hp]; rfl) (by rw [hp]; simp [answer]) rfl ?_ h.entity
      intro d hd
      have hdc : d ≠ c := fun he => hk (he ▸ hd)
      rw [Function.update_of_ne hdc]
      exact h.holder d hd
  | lock c hp hfree =>
      refine inv_move h s.emit_order (some c) (by rw [hp]; rfl) (by rw [hp]; simp [answer]) rfl ?_ h.entity
      exact busy_update h (by rw [hp]; exact Iff.rfl)
  | commit c now hp hheld hlive => exact inv_commit chrono codec h hp hlive
  | emit c change a hp =>
      have hkind := h.quiet c change (by rw [hp]; rfl)
      have hheld : s.emit_order = some c := (h.holder c hkind).mp (by rw [hp]; exact trivial)
      have hbefore : pending calls s.emit_order s.phase = [event calls c change] := by
        simp [pending, hheld, hp, images]
      have hafter : pending calls s.emit_order (Function.update s.phase c (.emitting a)) = [] := by
        simp [pending, hheld, images]
      have hchained := h.chained
      have hreplayed := h.replayed
      have htold := h.told
      rw [hbefore] at hchained hreplayed htold
      refine ⟨busy_update h (by rw [hp]; exact Iff.rfl), h.entity, quiet_update h (fun _ _ => hkind), ?_, ?_, ?_⟩
      · rwa [hafter, List.append_nil]
      · rwa [hafter, List.append_nil]
      · rw [hafter, List.append_nil]
        exact fun e he => told_update (by rw [hp]; simp [answer]) (htold e he)
  | skip c a hp =>
      refine inv_move h s.emit_order s.writer (by rw [hp]; rfl) (by rw [hp]; simp [answer]) rfl ?_ h.entity
      exact busy_update h (by rw [hp]; exact Iff.rfl)
  | release c a hp =>
      refine inv_move h (if s.emit_order = some c then none else s.emit_order) s.writer (by rw [hp]; rfl) (by rw [hp]; simp [answer]) ?_ ?_ ?_
      · by_cases hheld : s.emit_order = some c
        · simp [pending, hheld, hp, images]
        · rw [if_neg hheld]
      · intro d hd
        by_cases hdc : d = c
        · subst hdc
          have hheld : s.emit_order = some d := (h.holder d hd).mp (by rw [hp]; exact trivial)
          simp [Busy, hheld]
        · rw [Function.update_of_ne hdc, h.holder d hd]
          by_cases hheld : s.emit_order = some c
          · simp [hheld, Ne.symm hdc]
          · rw [if_neg hheld]
      · intro d hd
        by_cases hheld : s.emit_order = some c
        · simp [hheld] at hd
        · rw [if_neg hheld] at hd
          exact h.entity d hd

theorem initial_inv (shadow : Option (Shadow Bytes)) : Inv calls (initial shadow) := by
  refine ⟨by simp [initial, Busy], by simp [initial], by simp [initial, images], ?_, ?_, by simp [initial, pending]⟩
  · simpa [initial, pending] using chained_nil
  · funext t id
    rfl

theorem reachable_inv {shadow : Option (Shadow Bytes)} {s : System Bytes T E}
    (h : Reachable chrono codec calls shadow s) : Inv calls s := by
  induction h with
  | initial => exact initial_inv shadow
  | step _ hs ih => exact step_inv chrono codec ih hs

end Invariant

/-- In every interleaving the events replay to the entities once nothing
committed is still to be emitted, each starts from what the earlier ones left,
and a mutate that failed or changed nothing has none. -/
theorem events_replay {calls : Nat → Call T E} {shadow : Option (Shadow Bytes)} {s : System Bytes T E}
    (h : Reachable chrono codec calls shadow s) :
    Chained s.events ∧
      ((∀ c, images (s.phase c) = none) → replay s.events = entities s.store.inner) ∧
      ∀ e ∈ s.events, Told calls s.phase e := by
  have hi := reachable_inv chrono codec h
  refine ⟨?_, fun hq => ?_, fun e he => hi.told e (List.mem_append_left _ he)⟩
  · intro pre e post he
    exact hi.chained pre e (post ++ pending calls s.emit_order s.phase) (by rw [he]; simp)
  · have hnone : pending calls s.emit_order s.phase = [] := by
      unfold pending
      cases s.emit_order with
      | none => rfl
      | some c => simp [hq c]
    simpa [hnone] using hi.replayed

def harbour : TenantId := ⟨"harbour", by decide, by decide, by decide⟩

def berth : Value := .object [("id", .string "urn:ngsi-ld:Berth:7")]

/-- Call 0 creates an entity, every other call deletes it. -/
def createAndDelete (c : Nat) : Call Unit Unit :=
  if c = 0 then .create harbour .entity "urn:ngsi-ld:Berth:7" berth else .delete harbour .entity "urn:ngsi-ld:Berth:7"

/-- The delete waits for `emit_order` while the create commits and emits. -/
theorem events_replay_created :
    ∃ s, Reachable fixed_width plain createAndDelete none s ∧ s.events.length = 1 ∧
      replay s.events = entities s.store.inner := by
  have h1 : Reachable fixed_width plain createAndDelete none _ := .step .initial (.order _ 0 rfl rfl rfl)
  have h2 := h1.step (.lock _ 0 rfl rfl)
  have h3 := h2.step (.commit _ 0 "2026-01-01T00:00:00.000Z" rfl rfl (fun t id d h => by
    simp [initial, Inner.get, Tenants.doc] at h))
  have h4 := h3.step (.emit _ 0 ⟨none, some berth⟩ (.created true) rfl)
  refine ⟨_, h4, rfl, (events_replay fixed_width plain h4).2.1 (fun c => ?_)⟩
  by_cases hc : c = 0
  · subst hc; rfl
  · simp [hc, initial, images]

end AntaresBroker.ChangeOrder
