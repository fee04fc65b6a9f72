import AntaresBroker.Runs
import AntaresBroker.Snapshots

namespace AntaresBroker.SnapshotMeta

open Json Expiry Snapshots Runs

/-- Where a request or a fill stands: an update and a `finish` hold the
document they read, with the number of the write that left it. -/
inductive Proc
  | idle
  | updating (read : Value) (version : Nat) (frag : Map)
  | filling (creation : Nat)
  | finishing (creation : Nat) (read : Value) (version : Nat) (result : Result)

/-- The snapshots of one id: the stored document, the writes to it other than
touches, the number of the last creation, what that creation stored, what its
fill computed, and the updates accepted since, the last one first. -/
structure System where
  doc : Option Value
  procs : Nat → Proc
  writes : Nat
  creations : Nat
  birth : Value
  computed : Option Result
  accepted : List Map

variable {Instant : Type} [LinearOrder Instant]

inductive Move (Instant : Type)
  | create (p : Nat) (body : Map) (b : Birth)
  | remove
  | touch (now : String)
  | update_read (p : Nat) (frag : Map) (now : Instant)
  | update_put (p : Nat) (expires_at ts : String)
  | update_refuse (p : Nat)
  | fill_stop (p : Nat) (now : Instant)
  | finish_read (p : Nat) (result : Result) (now : Instant)
  | finish_put (p : Nat) (ts : String)

section Steps

variable (chrono : Chrono Instant)

def step (s : System) : Move Instant → Option System
  | .create p body b =>
      match s.procs p with
      | .idle =>
          match s.doc with
          | none =>
              let born := Value.object (new_meta (strip body) b)
              some ⟨some born, Function.update s.procs p (.filling (s.creations + 1)), s.writes + 1, s.creations + 1, born,
                none, []⟩
          -- AlreadyExists
          | some _ => some s
      | _ => none
  -- the delete of a request, of an eviction, of the sweep or of a purge
  | .remove => some { s with doc := none, writes := s.writes + 1 }
  | .touch now => some { s with doc := s.doc.map (touched now) }
  | .update_read p frag now =>
      match s.procs p with
      | .idle =>
          match snap_get chrono now s.doc with
          | some read => some { s with procs := Function.update s.procs p (.updating read s.writes frag) }
          | none => some s
      | _ => none
  -- `snap_put` brings nothing back that is gone
  | .update_put p expires_at ts =>
      match s.procs p with
      | .updating read _ frag =>
          some { s with
            doc := s.doc.map (fun _ => updated frag expires_at ts read)
            procs := Function.update s.procs p .idle
            writes := s.writes + 1
            accepted := frag :: s.accepted }
      | _ => none
  | .update_refuse p =>
      match s.procs p with
      | .updating _ _ _ => some { s with procs := Function.update s.procs p .idle }
      | _ => none
  -- `fill_cancelled`
  | .fill_stop p now =>
      match s.procs p, snap_get chrono now s.doc with
      | .filling _, none => some { s with procs := Function.update s.procs p .idle }
      | _, _ => none
  | .finish_read p result now =>
      match s.procs p with
      | .filling creation =>
          let computed := if creation = s.creations then some result else s.computed
          match snap_get chrono now s.doc with
          | some read =>
              some { s with procs := Function.update s.procs p (.finishing creation read s.writes result), computed := computed }
          | none => some { s with procs := Function.update s.procs p .idle, computed := computed }
      | _ => none
  | .finish_put p ts =>
      match s.procs p with
      | .finishing _ read _ result =>
          some { s with
            doc := s.doc.map (fun _ => finished result ts read)
            procs := Function.update s.procs p .idle
            writes := s.writes + 1 }
      | _ => none

end Steps

/-- No snapshot of the id yet. -/
def initial : System := ⟨none, fun _ => .idle, 0, 0, .null, none, []⟩

def Settled (s : System) : Prop := ∀ p, s.procs p = .idle

/-- A member as the last accepted update that set it left it. -/
def last_set (k : String) (accepted : List Map) (born : Option Value) : Option Value :=
  accepted.foldr (fun frag old => set_member frag k old) born

/-- Nothing that was written to the last snapshot of the id is lost. -/
structure Kept (s : System) (doc : Value) : Prop where
  tenant : doc.get "__tenant" = s.birth.get "__tenant"
  created : doc.get "createdAt" = s.birth.get "createdAt"
  status : ∀ r, s.computed = some r → doc.get "snapshotStatus" = some (.string r.status)
  queries : ∀ r, s.computed = some r → doc.get "snapshotQueriesDetails" = r.queries
  temporal_queries : ∀ r, s.computed = some r → doc.get "snapshotTemporalQueriesDetails" = r.temporal_queries
  members : ∀ k ∈ UPDATABLE, doc.get k = last_set k s.accepted (s.birth.get k)

/-- A document is written back only over the one that was read, and a fill ends
with its own snapshot stored and alive, or none. -/
def Orderly (chrono : Chrono Instant) (s : System) : Move Instant → Prop
  | .update_put p _ _ =>
      match s.procs p with
      | .updating _ version _ => s.doc.isSome → version = s.writes
      | _ => True
  | .finish_read p _ now =>
      match s.procs p with
      | .filling creation => ∀ doc, s.doc = some doc → creation = s.creations ∧ expired chrono now doc = false
      | _ => True
  | .finish_put p _ =>
      match s.procs p with
      | .finishing _ _ version _ => s.doc.isSome → version = s.writes
      | _ => True
  | _ => True

/-- What the stored document tells, `report` being what a fill has written to it. -/
structure Told (birth : Value) (accepted : List Map) (report : Option Result) (doc : Value) : Prop where
  object : doc.is_object = true
  snapshot : is_snapshot doc = true
  tenant : doc.get "__tenant" = birth.get "__tenant"
  created : doc.get "createdAt" = birth.get "createdAt"
  status : doc.get "snapshotStatus" = some (.string ((report.map Result.status).getD "preparing"))
  queries : doc.get "snapshotQueriesDetails" = report.bind Result.queries
  temporal_queries : doc.get "snapshotTemporalQueriesDetails" = report.bind Result.temporal_queries
  members : ∀ k ∈ UPDATABLE, doc.get k = last_set k accepted (birth.get k)

/-- Two documents that differ in when they were last used at most. -/
def Same (doc doc' : Value) : Prop :=
  (doc.is_object = true ↔ doc'.is_object = true) ∧ ∀ k, k ≠ "lastUsedAt" → doc.get k = doc'.get k

def Proc.fill : Proc → Option Nat
  | .filling creation => some creation
  | .finishing creation _ _ _ => some creation
  | _ => none

/-- What a process holds is no newer than the store, and is the stored document if that has not been written since. -/
def Proc.Fits (writes creations : Nat) (doc : Option Value) (computed : Option Result) : Proc → Prop
  | .idle => True
  | .updating read version _ => version ≤ writes ∧ (version = writes → ∀ d, doc = some d → Same read d)
  | .filling creation => creation ≤ creations ∧ (creation = creations → computed = none)
  | .finishing creation read version result =>
      (creation ≤ creations ∧ (creation = creations → computed = some result)) ∧
        version ≤ writes ∧ (version = writes → creation = creations ∧ ∀ d, doc = some d → Same read d)

/-- A creation has one fill. -/
def Single (procs : Nat → Proc) : Prop :=
  ∀ p q creation, (procs p).fill = some creation → (procs q).fill = some creation → p = q

/-- While its fill runs nothing has been written of a result, and then its result has. -/
def Reported (creations : Nat) (procs : Nat → Proc) (computed report : Option Result) : Prop :=
  ((∃ p, (procs p).fill = some creations) → report = none) ∧
    ((∀ p, (procs p).fill ≠ some creations) → report = computed)

structure Inv (s : System) : Prop where
  stored : ∀ doc, s.doc = some doc → ∃ report, Told s.birth s.accepted report doc ∧
    Reported s.creations s.procs s.computed report
  fits : ∀ p, (s.procs p).Fits s.writes s.creations s.doc s.computed
  single : Single s.procs

section Told

variable {birth doc read : Value} {accepted : List Map} {report : Option Result}

theorem object_of_is_object {v : Value} (h : v.is_object = true) : ∃ o, v = .object o := by
  cases v with
  | object o => exact ⟨o, rfl⟩
  | _ => cases h

theorem Same.touched (h : Same read doc) (hdoc : doc.is_object = true) (now : String) : Same read (touched now doc) := by
  obtain ⟨o, rfl⟩ := object_of_is_object hdoc
  refine ⟨h.1, fun k hk => ?_⟩
  rw [get_touched now o hk]
  exact h.2 k hk

theorem Told.of_same (h : Told birth accepted report doc) (hs : Same read doc) : Told birth accepted report read where
  object := hs.1.mpr h.object
  snapshot := by rw [is_snapshot, hs.2 _ (by decide)]; exact h.snapshot
  tenant := (hs.2 _ (by decide)).trans h.tenant
  created := (hs.2 _ (by decide)).trans h.created
  status := (hs.2 _ (by decide)).trans h.status
  queries := (hs.2 _ (by decide)).trans h.queries
  temporal_queries := (hs.2 _ (by decide)).trans h.temporal_queries
  members k hk := by
    have hne : k ≠ "lastUsedAt" := fun heq => absurd (heq ▸ hk) (by decide)
    exact (hs.2 k hne).trans (h.members k hk)

theorem Same.refl (doc : Value) : Same doc doc := ⟨Iff.rfl, fun _ _ => rfl⟩

theorem Same.symm (h : Same read doc) : Same doc read := ⟨h.1.symm, fun k hk => (h.2 k hk).symm⟩

theorem Told.touched (h : Told birth accepted report doc) (now : String) : Told birth accepted report (touched now doc) :=
  h.of_same ((Same.refl doc).touched h.object now).symm

/-- An update keeps what it does not set. -/
theorem Told.updated (h : Told birth accepted report read) (frag : Map) (expires_at ts : String) :
    Told birth (frag :: accepted) report (updated frag expires_at ts read) := by
  obtain ⟨o, rfl⟩ := object_of_is_object h.object
  have hget {k : String} (hexp : k ≠ "expiresAt") (hmod : k ≠ "modifiedAt") (hk : k ∉ UPDATABLE) :
      (Snapshots.updated frag expires_at ts (.object o)).get k = (Value.object o).get k := by
    rw [get_updated frag expires_at ts o hexp hmod, if_neg hk]
    rfl
  refine ⟨rfl, ?_, ?_, ?_, ?_, ?_, ?_, fun k hk => ?_⟩
  · rw [is_snapshot, hget (by decide) (by decide) (by decide)]
    exact h.snapshot
  · rw [hget (by decide) (by decide) (by decide), h.tenant]
  · rw [hget (by decide) (by decide) (by decide), h.created]
  · rw [hget (by decide) (by decide) (by decide), h.status]
  · rw [hget (by decide) (by decide) (by decide), h.queries]
  · rw [hget (by decide) (by decide) (by decide), h.temporal_queries]
  · have hexp : k ≠ "expiresAt" := fun heq => absurd (heq ▸ hk) (by decide)
    have hmod : k ≠ "modifiedAt" := fun heq => absurd (heq ▸ hk) (by decide)
    have hold := h.members k hk
    change o.lookup k = _ at hold
    rw [get_updated frag expires_at ts o hexp hmod, if_pos hk, hold]
    rfl

theorem Told.finished (h : Told birth accepted none read) (r : Result) (ts : String) :
    Told birth accepted (some r) (finished r ts read) := by
  obtain ⟨o, rfl⟩ := object_of_is_object h.object
  have hget {k : String} (hmod : k ≠ "modifiedAt") := get_finished r ts o hmod
  have hqueries : o.lookup "snapshotQueriesDetails" = none := h.queries
  have htemporal : o.lookup "snapshotTemporalQueriesDetails" = none := h.temporal_queries
  refine ⟨rfl, ?_, ?_, ?_, ?_, ?_, ?_, fun k hk => ?_⟩
  · rw [is_snapshot, hget (by decide)]
    exact h.snapshot
  · exact (hget (by decide)).trans h.tenant
  · exact (hget (by decide)).trans h.created
  · exact hget (by decide)
  · exact (hget (by decide)).trans (by rw [hqueries]; simp)
  · exact (hget (by decide)).trans (by rw [htemporal]; simp)
  · have hne (l : String) (hl : l ∉ UPDATABLE) : k ≠ l := fun heq => hl (heq ▸ hk)
    refine (hget (hne _ (by decide))).trans ?_
    rw [if_neg (hne _ (by decide)), if_neg (hne _ (by decide)), if_neg (hne _ (by decide))]
    exact h.members k hk

theorem Told.born (body : Map) (b : Birth) :
    Told (.object (new_meta (strip body) b)) [] none (.object (new_meta (strip body) b)) where
  object := rfl
  snapshot := decide_eq_true (new_meta_type (strip body) b)
  tenant := rfl
  created := rfl
  status := new_meta_status (strip body) b
  queries := (new_meta_details body b).1
  temporal_queries := (new_meta_details body b).2
  members _ _ := rfl

end Told

section Processes

variable {procs : Nat → Proc} {proc proc' : Proc} {p writes creations : Nat} {doc doc' : Option Value}
  {computed computed' report : Option Result}

theorem Proc.Fits.write (h : proc.Fits writes creations doc computed) (doc' : Option Value) :
    proc.Fits (writes + 1) creations doc' computed := by
  cases proc with
  | idle => trivial
  | updating read version frag =>
      exact ⟨Nat.le_succ_of_le h.1, fun heq => absurd h.1 (by rw [heq]; exact Nat.not_succ_le_self _)⟩
  | filling creation => exact h
  | finishing creation read version result =>
      exact ⟨h.1, Nat.le_succ_of_le h.2.1, fun heq => absurd h.2.1 (by rw [heq]; exact Nat.not_succ_le_self _)⟩

theorem Proc.Fits.create (h : proc.Fits writes creations doc computed) (doc' : Option Value) :
    proc.Fits (writes + 1) (creations + 1) doc' none := by
  have hnew {creation : Nat} (hle : creation ≤ creations) {P : Prop} (heq : creation = creations + 1) : P :=
    absurd hle (by rw [heq]; exact Nat.not_succ_le_self _)
  cases proc with
  | idle => trivial
  | updating read version frag =>
      exact ⟨Nat.le_succ_of_le h.1, fun heq => absurd h.1 (by rw [heq]; exact Nat.not_succ_le_self _)⟩
  | filling creation => exact ⟨Nat.le_succ_of_le h.1, hnew h.1⟩
  | finishing creation read version result =>
      exact ⟨⟨Nat.le_succ_of_le h.1.1, hnew h.1.1⟩, Nat.le_succ_of_le h.2.1,
        fun heq => absurd h.2.1 (by rw [heq]; exact Nat.not_succ_le_self _)⟩

theorem Proc.Fits.touch (h : proc.Fits writes creations doc computed)
    (hdoc : ∀ d read, doc' = some d → (∀ e, doc = some e → Same read e) → Same read d) :
    proc.Fits writes creations doc' computed := by
  cases proc with
  | idle => trivial
  | updating read version frag => exact ⟨h.1, fun heq d hd => hdoc d read hd (h.2 heq)⟩
  | filling creation => exact h
  | finishing creation read version result =>
      exact ⟨h.1, h.2.1, fun heq => ⟨(h.2.2 heq).1, fun d hd => hdoc d read hd (h.2.2 heq).2⟩⟩

/-- A process that is not the fill of the last creation does not mind what that computes. -/
theorem Proc.Fits.compute (h : proc.Fits writes creations doc computed) (hfill : proc.fill ≠ some creations) :
    proc.Fits writes creations doc computed' := by
  cases proc with
  | idle => trivial
  | updating read version frag => exact h
  | filling creation => exact ⟨h.1, fun heq => absurd (congrArg some heq) hfill⟩
  | finishing creation read version result =>
      exact ⟨⟨h.1.1, fun heq => absurd (congrArg some heq) hfill⟩, h.2⟩

theorem Proc.Fits.past (h : proc.Fits writes creations doc computed) {creation : Nat} (hfill : proc.fill = some creation) :
    creation ≤ creations := by
  cases proc with
  | idle => cases hfill
  | updating read version frag => cases hfill
  | filling k =>
      cases hfill
      exact h.1
  | finishing k read version result =>
      cases hfill
      exact h.1.1

theorem Single.update (h : Single procs)
    (hnew : ∀ creation, proc.fill = some creation → ∀ q, q ≠ p → (procs q).fill ≠ some creation) :
    Single (Function.update procs p proc) := by
  intro q r creation hq hr
  by_cases hqp : q = p
  · by_cases hrp : r = p
    · rw [hqp, hrp]
    · rw [hqp, Function.update_self] at hq
      rw [Function.update_of_ne hrp] at hr
      exact absurd hr (hnew creation hq r hrp)
  · rw [Function.update_of_ne hqp] at hq
    by_cases hrp : r = p
    · rw [hrp, Function.update_self] at hr
      exact absurd hq (hnew creation hr q hqp)
    · rw [Function.update_of_ne hrp] at hr
      exact h q r creation hq hr

/-- A process that goes on with the fill it had, or ends with none. -/
theorem Single.step (h : Single procs) (hfill : ∀ creation, proc.fill = some creation → (procs p).fill = some creation) :
    Single (Function.update procs p proc) :=
  h.update fun creation hnew q hqp hq => hqp (h q p creation hq (hfill creation hnew))

theorem Reported.keep (h : Reported creations procs computed report)
    (hfill : proc.fill = some creations ↔ (procs p).fill = some creations) :
    Reported creations (Function.update procs p proc) computed report := by
  have hall (q : Nat) : (Function.update procs p proc q).fill = some creations ↔ (procs q).fill = some creations := by
    by_cases hqp : q = p
    · rw [hqp, Function.update_self, hfill]
    · rw [Function.update_of_ne hqp]
  exact ⟨fun ⟨q, hq⟩ => h.1 ⟨q, (hall q).mp hq⟩, fun hnone => h.2 fun q hq => hnone q ((hall q).mpr hq)⟩

/-- The fill of the last creation is over. -/
theorem Reported.over (h : Single procs) (hp : (procs p).fill = some creations) (hproc : proc.fill = none) :
    Reported creations (Function.update procs p proc) computed computed := by
  refine ⟨fun ⟨q, hq⟩ => ?_, fun _ => rfl⟩
  by_cases hqp : q = p
  · rw [hqp, Function.update_self, hproc] at hq
    cases hq
  · rw [Function.update_of_ne hqp] at hq
    exact absurd (h q p creations hq hp) hqp

end Processes

section Invariant

variable {chrono : Chrono Instant} {s t : System} {p : Nat}

theorem inv_initial : Inv initial where
  stored _ h := by cases h
  fits _ := trivial
  single _ _ _ h := by cases h

theorem inv_create (h : Inv s) (body : Map) (b : Birth) :
    Inv ⟨some (.object (new_meta (strip body) b)), Function.update s.procs p (.filling (s.creations + 1)), s.writes + 1,
      s.creations + 1, .object (new_meta (strip body) b), none, []⟩ where
  stored doc hdoc := by
    cases hdoc
    refine ⟨none, Told.born body b, fun _ => rfl, fun hne => ?_⟩
    exact absurd (congrArg Proc.fill (Function.update_self p _ s.procs)) (hne p)
  fits := (Function.forall_update_iff s.procs
      (fun _ proc => proc.Fits (s.writes + 1) (s.creations + 1) (some (.object (new_meta (strip body) b))) none)).mpr
    ⟨⟨le_rfl, fun _ => rfl⟩, fun q _ => (h.fits q).create _⟩
  single := h.single.update fun creation hnew q _ hq => by
    have hle := (h.fits q).past hq
    cases hnew
    exact absurd hle (Nat.not_succ_le_self _)

theorem inv_remove (h : Inv s) : Inv { s with doc := none, writes := s.writes + 1 } where
  stored _ hdoc := by cases hdoc
  fits q := (h.fits q).write _
  single := h.single

theorem inv_touch (h : Inv s) (now : String) : Inv { s with doc := s.doc.map (touched now) } where
  stored doc hdoc := by
    obtain ⟨old, hold, rfl⟩ := Option.map_eq_some_iff.mp hdoc
    obtain ⟨report, htold, hreported⟩ := h.stored old hold
    exact ⟨report, htold.touched now, hreported⟩
  fits q := (h.fits q).touch fun d read hd hsame => by
    obtain ⟨old, hold, rfl⟩ := Option.map_eq_some_iff.mp hd
    obtain ⟨report, htold, -⟩ := h.stored old hold
    exact (hsame old hold).touched htold.object now
  single := h.single

/-- A process that is no fill changes and the store stays. -/
theorem inv_proc (h : Inv s) {proc : Proc} (hfits : proc.Fits s.writes s.creations s.doc s.computed)
    (hfill : proc.fill = (s.procs p).fill) : Inv { s with procs := Function.update s.procs p proc } where
  stored doc hdoc := by
    obtain ⟨report, htold, hreported⟩ := h.stored doc hdoc
    exact ⟨report, htold, hreported.keep (by rw [hfill])⟩
  fits := (Function.forall_update_iff s.procs (fun _ proc => proc.Fits s.writes s.creations s.doc s.computed)).mpr
    ⟨hfits, fun q _ => h.fits q⟩
  single := h.single.step fun _ hnew => hfill ▸ hnew

theorem inv_update_put (h : Inv s) {read : Value} {version : Nat} {frag : Map} (hp : s.procs p = .updating read version frag)
    (hm : s.doc.isSome → version = s.writes) (expires_at ts : String) :
    Inv { s with
      doc := s.doc.map (fun _ => updated frag expires_at ts read)
      procs := Function.update s.procs p .idle
      writes := s.writes + 1
      accepted := frag :: s.accepted } where
  stored doc hdoc := by
    obtain ⟨old, hold, rfl⟩ := Option.map_eq_some_iff.mp hdoc
    obtain ⟨report, htold, hreported⟩ := h.stored old hold
    have hfits := h.fits p
    rw [hp] at hfits
    have hsame : Same read old := hfits.2 (hm (by rw [hold]; rfl)) old hold
    exact ⟨report, (htold.of_same hsame).updated frag expires_at ts, hreported.keep (by rw [hp]; exact Iff.rfl)⟩
  fits := (Function.forall_update_iff s.procs (fun _ proc => proc.Fits (s.writes + 1) s.creations _ s.computed)).mpr
    ⟨trivial, fun q _ => (h.fits q).write _⟩
  single := h.single.step fun _ hnew => by cases hnew

theorem inv_finish_put (h : Inv s) {creation : Nat} {read : Value} {version : Nat} {result : Result}
    (hp : s.procs p = .finishing creation read version result) (hm : s.doc.isSome → version = s.writes) (ts : String) :
    Inv { s with
      doc := s.doc.map (fun _ => finished result ts read)
      procs := Function.update s.procs p .idle
      writes := s.writes + 1 } where
  stored doc hdoc := by
    obtain ⟨old, hold, rfl⟩ := Option.map_eq_some_iff.mp hdoc
    obtain ⟨report, htold, hreported⟩ := h.stored old hold
    have hfits := h.fits p
    rw [hp] at hfits
    obtain ⟨⟨-, hcomputed⟩, -, hread⟩ := hfits
    obtain ⟨rfl, hsame⟩ := hread (hm (by rw [hold]; rfl))
    have hfill : (s.procs p).fill = some s.creations := by rw [hp]; rfl
    obtain rfl := hreported.1 ⟨p, hfill⟩
    refine ⟨some result, (htold.of_same (hsame old hold)).finished result ts, ?_⟩
    rw [← hcomputed rfl]
    exact Reported.over h.single hfill rfl
  fits := (Function.forall_update_iff s.procs (fun _ proc => proc.Fits (s.writes + 1) s.creations _ s.computed)).mpr
    ⟨trivial, fun q _ => (h.fits q).write _⟩
  single := h.single.step fun _ hnew => by cases hnew

/-- A fill that finds its snapshot gone. -/
theorem inv_fill_stop (h : Inv s) {creation : Nat} (hp : s.procs p = .filling creation) :
    Inv { s with procs := Function.update s.procs p .idle } where
  stored doc hdoc := by
    obtain ⟨report, htold, hreported⟩ := h.stored doc hdoc
    have hfill : (s.procs p).fill = some creation := by rw [hp]; rfl
    by_cases hc : creation = s.creations
    · have hfits := h.fits p
      rw [hp] at hfits
      have hnone : report = s.computed := (hreported.1 ⟨p, hc ▸ hfill⟩).trans (hfits.2 hc).symm
      exact ⟨s.computed, hnone ▸ htold, Reported.over h.single (hc ▸ hfill) rfl⟩
    · refine ⟨report, htold, hreported.keep ⟨fun hnew => by (cases hnew), fun hold => ?_⟩⟩
      rw [hfill, Option.some_inj] at hold
      exact absurd hold hc
  fits := (Function.forall_update_iff s.procs (fun _ proc => proc.Fits s.writes s.creations s.doc s.computed)).mpr
    ⟨trivial, fun q _ => h.fits q⟩
  single := h.single.step fun _ hnew => by cases hnew

/-- What a stored document is to a reader before it expires. -/
theorem snap_get_stored (h : Inv s) {doc : Value} (hdoc : s.doc = some doc) {now : Instant}
    (hnow : expired chrono now doc = false) : snap_get chrono now s.doc = some doc := by
  obtain ⟨report, htold, -⟩ := h.stored doc hdoc
  rw [snap_get, hdoc, Option.filter_some, if_pos]
  rw [htold.snapshot, hnow]
  rfl

theorem fits_finish_read (h : Inv s) {creation : Nat} (hp : s.procs p = .filling creation) (result : Result) {q : Nat}
    (hq : q ≠ p) : (s.procs q).Fits s.writes s.creations s.doc (if creation = s.creations then some result else s.computed) := by
  by_cases hc : creation = s.creations
  · refine (h.fits q).compute fun hfill => hq (h.single q p s.creations hfill ?_)
    rw [hp, ← hc]
    rfl
  · rw [if_neg hc]
    exact h.fits q

theorem inv_finish_read (h : Inv s) {creation : Nat} (hp : s.procs p = .filling creation) (result : Result) {read : Value}
    (hdoc : s.doc = some read) (hc : creation = s.creations) :
    Inv { s with
      procs := Function.update s.procs p (.finishing creation read s.writes result)
      computed := if creation = s.creations then some result else s.computed } where
  stored doc hd := by
    obtain ⟨report, htold, hreported⟩ := h.stored doc hd
    have hfill : (s.procs p).fill = some s.creations := by rw [hp, ← hc]; rfl
    refine ⟨report, htold, fun _ => hreported.1 ⟨p, hfill⟩, fun hnone => absurd ?_ (hnone p)⟩
    rw [← hc]
    exact congrArg Proc.fill (Function.update_self p _ s.procs)
  fits := (Function.forall_update_iff s.procs (fun _ proc => proc.Fits s.writes s.creations s.doc _)).mpr
    ⟨⟨⟨hc.le, fun heq => if_pos heq⟩, le_rfl, fun _ => ⟨hc, fun d hd => by
      rw [hdoc] at hd
      cases hd
      exact Same.refl read⟩⟩, fun q hq => fits_finish_read h hp result hq⟩
  single := h.single.step fun _ hnew => by rw [hp]; exact hnew

theorem inv_finish_gone (h : Inv s) {creation : Nat} (hp : s.procs p = .filling creation) (result : Result)
    (hdoc : s.doc = none) :
    Inv { s with
      procs := Function.update s.procs p .idle
      computed := if creation = s.creations then some result else s.computed } where
  stored doc hd := by
    rw [show s.doc = some doc from hd] at hdoc
    cases hdoc
  fits := (Function.forall_update_iff s.procs (fun _ proc => proc.Fits s.writes s.creations s.doc _)).mpr
    ⟨trivial, fun q hq => fits_finish_read h hp result hq⟩
  single := h.single.step fun _ hnew => by cases hnew

theorem inv_step {m : Move Instant} (h : Inv s) (hm : Orderly chrono s m) (hs : step chrono s m = some t) : Inv t := by
  cases m with
  | create p body b =>
      cases hp : s.procs p <;> simp only [step, hp, reduceCtorEq] at hs
      cases hd : s.doc <;> simp only [hd, Option.some.injEq] at hs <;> subst hs
      · exact inv_create h body b
      · exact h
  | remove =>
      cases hs
      exact inv_remove h
  | touch now =>
      cases hs
      exact inv_touch h now
  | update_read p frag now =>
      cases hp : s.procs p <;> simp only [step, hp, reduceCtorEq] at hs
      cases hr : snap_get chrono now s.doc with
      | none =>
          simp only [hr, Option.some.injEq] at hs
          subst hs
          exact h
      | some read =>
          simp only [hr, Option.some.injEq] at hs
          subst hs
          obtain ⟨hdoc, -⟩ := Option.filter_eq_some_iff.mp hr
          refine inv_proc h ⟨le_rfl, fun _ d hd => ?_⟩ (by rw [hp]; rfl)
          rw [hdoc] at hd
          cases hd
          exact Same.refl read
  | update_put p expires_at ts =>
      cases hp : s.procs p <;> simp only [step, hp, reduceCtorEq, Option.some.injEq] at hs
      subst hs
      simp only [Orderly, hp] at hm
      exact inv_update_put h hp hm expires_at ts
  | update_refuse p =>
      cases hp : s.procs p <;> simp only [step, hp, reduceCtorEq, Option.some.injEq] at hs
      subst hs
      exact inv_proc h trivial (by rw [hp]; rfl)
  | fill_stop p now =>
      cases hp : s.procs p <;> simp only [step, hp, reduceCtorEq] at hs
      cases hr : snap_get chrono now s.doc <;> simp only [hr, reduceCtorEq, Option.some.injEq] at hs
      subst hs
      exact inv_fill_stop h hp
  | finish_read p result now =>
      cases hp : s.procs p <;> simp only [step, hp, reduceCtorEq] at hs
      next creation =>
        simp only [Orderly, hp] at hm
        cases hd : s.doc with
        | none =>
            have hgone : snap_get chrono now s.doc = none := by rw [hd]; rfl
            rw [hgone] at hs
            cases hs
            exact inv_finish_gone h hp result hd
        | some read =>
            obtain ⟨hc, hnow⟩ := hm read hd
            rw [snap_get_stored h hd hnow] at hs
            cases hs
            exact inv_finish_read h hp result hd hc
  | finish_put p ts =>
      cases hp : s.procs p <;> simp only [step, hp, reduceCtorEq, Option.some.injEq] at hs
      subst hs
      simp only [Orderly, hp] at hm
      exact inv_finish_put h hp hm ts

/-- Whatever the order of the requests and the fills of one id, as long as
every write-back is orderly nothing written to its last snapshot is lost. -/
theorem snapshot_kept (chrono : Chrono Instant) (s : System) (hrun : Run (step chrono) (Orderly chrono) initial s)
    (hset : Settled s) (doc : Value) (hdoc : s.doc = some doc) : Kept s doc := by
  have h : Inv s := hrun.keeps (fun _ _ _ h hm hs => inv_step h hm hs) inv_initial
  obtain ⟨report, htold, -, hover⟩ := h.stored doc hdoc
  obtain rfl := hover fun p hp => by rw [hset p] at hp; cases hp
  refine ⟨htold.tenant, htold.created, fun r hr => ?_, fun r hr => ?_, fun r hr => ?_, htold.members⟩
  · rw [htold.status, hr]
    rfl
  · rw [htold.queries, hr]
    rfl
  · rw [htold.temporal_queries, hr]
    rfl

end Invariant

section Examples

instance (chrono : Chrono Instant) (s : System) (m : Move Instant) : Decidable (Orderly chrono s m) :=
  match m with
  | .update_put p _ _ =>
      match hp : s.procs p with
      | .updating _ version _ =>
          decidable_of_iff (s.doc.isSome → version = s.writes) (by simp only [Orderly, hp])
      | .idle | .filling _ | .finishing _ _ _ _ => .isTrue (by simp only [Orderly, hp])
  | .finish_read p _ now =>
      match hp : s.procs p with
      | .filling creation =>
          decidable_of_iff (s.doc.all (fun doc => decide (creation = s.creations ∧ expired chrono now doc = false)) = true)
            (by cases hd : s.doc <;> simp [Orderly, hp, hd])
      | .idle | .updating _ _ _ | .finishing _ _ _ _ => .isTrue (by simp only [Orderly, hp])
  | .finish_put p _ =>
      match hp : s.procs p with
      | .finishing _ _ version _ =>
          decidable_of_iff (s.doc.isSome → version = s.writes) (by simp only [Orderly, hp])
      | .idle | .updating _ _ _ | .filling _ => .isTrue (by simp only [Orderly, hp])
  | .create _ _ _ | .remove | .touch _ | .update_read _ _ _ | .update_refuse _ | .fill_stop _ _ => instDecidableTrue

def morning : Birth := ⟨"urn:s", "2026-01-01T08:00:00.000Z", "2026-01-01T08:00:00.000Z", "2026-01-02T08:00:00.000Z", "snap-1", none⟩

def urgent : Map := [("snapshotPriority", .number (.posInt 1))]

def success : Result := ⟨"success", none⟩

/-- A snapshot is updated while its fill runs, and the fill ends after. -/
def apart : List (Move String) := [.create 0 [] morning, .update_read 1 urgent "2026-01-01T09:00:00.000Z",
  .update_put 1 "" "2026-01-01T09:00:00.000Z", .finish_read 0 success "2026-01-01T10:00:00.000Z",
  .finish_put 0 "2026-01-01T10:00:00.000Z"]

/-- The fill ends between the read and the write-back of the update. -/
def overlapping : List (Move String) := [.create 0 [] morning, .update_read 1 urgent "2026-01-01T09:00:00.000Z",
  .finish_read 0 success "2026-01-01T10:00:00.000Z", .finish_put 0 "2026-01-01T10:00:00.000Z",
  .update_put 1 "" "2026-01-01T09:00:00.000Z"]

def Move.proc : Move Instant → Option Nat
  | .create p _ _ | .update_read p _ _ | .update_put p _ _ | .update_refuse p | .fill_stop p _ | .finish_read p _ _
  | .finish_put p _ => some p
  | .remove | .touch _ => none

def Proc.is_idle : Proc → Bool
  | .idle => true
  | _ => false

theorem procs_of_step {chrono : Chrono Instant} {s t : System} {m : Move Instant} (h : step chrono s m = some t) {q : Nat}
    (hq : m.proc ≠ some q) : t.procs q = s.procs q := by
  have hne {p : Nat} (hp : m.proc = some p) : q ≠ p := fun heq => hq (heq ▸ hp)
  cases m with
  | remove => cases h; rfl
  | touch now => cases h; rfl
  | create p body b | update_read p frag now | update_put p expires_at ts | update_refuse p | fill_stop p now
  | finish_read p result now | finish_put p ts =>
      simp only [step] at h
      repeat' split at h
      all_goals cases h
      all_goals first
        | rfl
        | exact Function.update_of_ne (hne rfl) _ _

theorem settled_of_exec {chrono : Chrono Instant} {guard : System → Move Instant → Prop} [∀ s m, Decidable (guard s m)]
    {ms : List (Move Instant)} {t : System} (h : exec (step chrono) guard initial ms = some t) (n : Nat)
    (hms : ∀ m ∈ ms, m.proc.all (· < n) = true) (hn : ∀ p ∈ List.range n, (t.procs p).is_idle = true) : Settled t := by
  intro p
  by_cases hp : p < n
  · have hidle := hn p (List.mem_range.mpr hp)
    cases hproc : t.procs p with
    | idle => rfl
    | updating read version frag => rw [hproc] at hidle; cases hidle
    | filling creation => rw [hproc] at hidle; cases hidle
    | finishing creation read version result => rw [hproc] at hidle; cases hidle
  · refine (exec_untouched (fun s : System => s.procs p) (fun m hm s t hs => procs_of_step hs fun heq => ?_) h).trans rfl
    have hlt := hms m hm
    rw [heq, Option.all_some, decide_eq_true_eq] at hlt
    exact hp hlt

theorem snapshot_kept_apart : ∃ s doc, exec (step fixed_width) (Orderly fixed_width) initial apart = some s ∧ Settled s ∧
    s.doc = some doc ∧ Kept s doc := by
  obtain ⟨s, hs⟩ : ∃ s, exec (step fixed_width) (Orderly fixed_width) initial apart = some s :=
    Option.isSome_iff_exists.mp (by decide)
  have hfacts : (exec (step fixed_width) (Orderly fixed_width) initial apart).all (fun s : System => s.doc.isSome &&
      (List.range 2).all (fun p => (s.procs p).is_idle)) = true := by decide
  rw [hs, Option.all_some, Bool.and_eq_true] at hfacts
  obtain ⟨doc, hdoc⟩ := Option.isSome_iff_exists.mp hfacts.1
  have hset : Settled s := settled_of_exec hs 2 (by decide) (List.all_eq_true.mp hfacts.2)
  exact ⟨s, doc, hs, hset, hdoc, snapshot_kept fixed_width s (Run.of_exec hs) hset doc hdoc⟩

theorem snapshot_not_kept_overlapping : ¬ ∀ s, Free (step fixed_width) initial s → Settled s →
    ∀ doc, s.doc = some doc → Kept s doc := by
  intro hall
  obtain ⟨s, hs⟩ : ∃ s, exec (step fixed_width) (fun _ _ => True) initial overlapping = some s :=
    Option.isSome_iff_exists.mp (by decide)
  have hfacts : (exec (step fixed_width) (fun _ _ => True) initial overlapping).all (fun s : System =>
      decide (s.doc.bind (fun doc => doc.get "snapshotStatus") = some (.string "preparing") ∧
        s.computed.map Result.status = some "success") && (List.range 2).all (fun p => (s.procs p).is_idle)) = true := by decide
  rw [hs, Option.all_some, Bool.and_eq_true, decide_eq_true_eq] at hfacts
  obtain ⟨⟨hstatus, hcomputed⟩, hidle⟩ := hfacts
  obtain ⟨doc, hdoc, hget⟩ := Option.bind_eq_some_iff.mp hstatus
  obtain ⟨r, hr, hname⟩ := Option.map_eq_some_iff.mp hcomputed
  have hset : Settled s := settled_of_exec hs 2 (by decide) (List.all_eq_true.mp hidle)
  have hkept := (hall s (Run.of_exec hs) hset doc hdoc).status r hr
  rw [hget, hname] at hkept
  exact absurd hkept (by decide)

end Examples

end AntaresBroker.SnapshotMeta
