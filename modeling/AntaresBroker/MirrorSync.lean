import AntaresBroker.Bookkeeping
import AntaresBroker.Replica
import AntaresBroker.Runs
import AntaresBroker.SubMirror

namespace AntaresBroker.MirrorSync

open Json Notify Replica Runs

/-- A subscription: its tenant and its id. -/
abbrev Key := String × String

/-- The second half of an operation: an update still has to read back what it
wrote, every other one has the document for the mirror in hand, with the number
of the write that left it. -/
inductive Flight
  | reading (key : Key)
  | syncing (key : Key) (doc : Option Value) (version : Nat)

/-- The store and the mirror of one process. `writes` counts the writes of a
subscription, `synced` is the write whose document the mirror took last. -/
structure System where
  store : Key → Option Value
  mirror : SubMirror
  flight : List Flight
  writes : Key → Nat
  synced : Key → Nat

inductive Move
  | create (key : Key) (doc : Value)
  | update (key : Key) (f : Value → Option Value)
  | delete (key : Key)
  | book (key : Key) (f : Value → Value)
  | read (i : Nat)
  | sync (i : Nat)

namespace System

def write (s : System) (key : Key) (doc : Option Value) (rest : Flight) : System :=
  { s with
    store := Function.update s.store key doc
    writes := Function.update s.writes key (s.writes key + 1)
    flight := rest :: s.flight }

end System

def step (s : System) : Move → Option System
  | .create key doc =>
      match s.store key with
      | none => some (s.write key (some doc) (.syncing key (some doc) (s.writes key + 1)))
      | some _ => some s
  | .update key f =>
      match (s.store key).bind f with
      | some doc => some (s.write key (some doc) (.reading key))
      | none => some s
  | .delete key =>
      match s.store key with
      | some _ => some (s.write key none (.syncing key none (s.writes key + 1)))
      | none => some s
  -- `mirror_bookkeeping` gets the document its mutate left, and nothing when there is no row
  | .book key f =>
      match s.store key with
      | some doc => some (s.write key (some (f doc)) (.syncing key (some (f doc)) (s.writes key + 1)))
      | none => some s
  | .read i =>
      match s.flight[i]? with
      | some (.reading key) =>
          some { s with flight := .syncing key (s.store key) (s.writes key) :: s.flight.eraseIdx i }
      | _ => none
  | .sync i =>
      match s.flight[i]? with
      | some (.syncing key doc version) =>
          some { s with
            mirror := s.mirror.apply key.1 key.2 doc
            synced := Function.update s.synced key version
            flight := s.flight.eraseIdx i }
      | _ => none

/-- A mirror that holds what the store holds, before the first write. -/
def seeded (store : Key → Option Value) (mirror : SubMirror) : System := ⟨store, mirror, [], fun _ => 0, fun _ => 0⟩

def Mirrors (s : System) : Prop := ∀ tenant id, s.mirror.doc_of tenant id = s.store (tenant, id)

/-- The mirror takes no document after that of a later write of the subscription. -/
def Orderly (s : System) : Move → Prop
  | .sync i => ∀ key doc version, s.flight[i]? = some (.syncing key doc version) → s.synced key ≤ version
  | _ => True

def current (s : System) (key : Key) : Stamped (Option Value) := ⟨s.writes key, s.store key⟩

def copy (s : System) (key : Key) : Stamped (Option Value) := ⟨s.synced key, s.mirror.doc_of key.1 key.2⟩

def carried (s : System) : Set (Key × Stamped (Option Value)) :=
  {p | .syncing p.1 p.2.image p.2.version ∈ s.flight}

def owed (s : System) : Set Key := {key | .reading key ∈ s.flight}

def Tracking (s : System) : Prop := Tracks (current s) (copy s) (carried s) (owed s)

theorem current_write (s : System) (key : Key) (doc : Option Value) (rest : Flight) :
    current (s.write key doc rest) = Function.update (current s) key (next (current s key) doc) := by
  funext k
  by_cases hk : k = key
  · subst hk
    simp [current, System.write, next]
  · simp [current, System.write, Function.update_of_ne hk]

theorem of_syncing_eq {j key : Key} {m : Stamped (Option Value)} {doc : Option Value} {version : Nat}
    (h : Flight.syncing j m.image m.version = .syncing key doc version) : j = key ∧ m = ⟨version, doc⟩ := by
  obtain ⟨v, x⟩ := m
  obtain ⟨rfl, rfl, rfl⟩ := Flight.syncing.inj h
  exact ⟨rfl, rfl⟩

/-- A write whose document is on its way to the mirror at once. -/
theorem tracking_write {s : System} (h : Tracking s) (key : Key) (doc : Option Value) :
    Tracking (s.write key doc (.syncing key doc (s.writes key + 1))) := by
  rw [Tracking, current_write]
  refine Tracks.write h key doc (fun j m hm => ?_) (fun j m _ hm => List.mem_cons_of_mem _ hm)
    (fun j hj => List.mem_cons_of_mem _ hj) (.inl List.mem_cons_self)
  rcases List.mem_cons.mp hm with heq | hm
  · obtain ⟨hj, hm⟩ := of_syncing_eq heq
    exact .inr (Prod.ext hj hm)
  · exact .inl hm

theorem tracking_write_reading {s : System} (h : Tracking s) (key : Key) (doc : Option Value) :
    Tracking (s.write key doc (.reading key)) := by
  rw [Tracking, current_write]
  refine Tracks.write h key doc (fun j m hm => ?_) (fun j m _ hm => List.mem_cons_of_mem _ hm)
    (fun j hj => List.mem_cons_of_mem _ hj) (.inr List.mem_cons_self)
  rcases List.mem_cons.mp hm with heq | hm
  · cases heq
  · exact .inl hm

theorem tracking_step {s t : System} {m : Move} (h : Tracking s) (hm : Orderly s m) (hs : step s m = some t) :
    Tracking t := by
  cases m with
  | create key doc =>
      cases hd : s.store key <;> simp only [step, hd, Option.some.injEq] at hs <;> subst hs
      · exact tracking_write h key _
      · exact h
  | update key f =>
      cases hd : (s.store key).bind f <;> simp only [step, hd, Option.some.injEq] at hs <;> subst hs
      · exact h
      · exact tracking_write_reading h key _
  | delete key =>
      cases hd : s.store key <;> simp only [step, hd, Option.some.injEq] at hs <;> subst hs
      · exact h
      · exact tracking_write h key _
  | book key f =>
      cases hd : s.store key <;> simp only [step, hd, Option.some.injEq] at hs <;> subst hs
      · exact h
      · exact tracking_write h key _
  | read i =>
      simp only [step] at hs
      split at hs
      next key hi =>
        cases hs
        refine Tracks.change h (fun k m hm => ?_) (fun k m hm => .inl ?_) (fun k hk => ?_)
        · rcases List.mem_cons.mp hm with heq | hm
          · obtain ⟨hk, hm⟩ := of_syncing_eq heq
            refine .inr (hm.trans ?_)
            rw [← hk]
            rfl
          · exact .inl (List.mem_of_mem_eraseIdx hm)
        · exact List.mem_cons_of_mem _ (mem_of_eraseIdx hi hm (by simp))
        · by_cases hkey : k = key
          · subst hkey
            exact .inr List.mem_cons_self
          · refine .inl (List.mem_cons_of_mem _ (mem_of_eraseIdx hi hk ?_))
            simpa using hkey
      next => cases hs
  | sync i =>
      simp only [step] at hs
      split at hs
      next key doc version hi =>
        cases hs
        have hcopy : copy { s with
            mirror := s.mirror.apply key.1 key.2 doc
            synced := Function.update s.synced key version
            flight := s.flight.eraseIdx i } = Function.update (copy s) key ⟨version, doc⟩ := by
          funext k
          by_cases hk : k = key
          · subst hk
            simp [copy, SubMirror.doc_of_apply]
          · have hne : ¬(k.1 = key.1 ∧ k.2 = key.2) := fun h => hk (Prod.ext h.1 h.2)
            simp [copy, SubMirror.doc_of_apply, Function.update_of_ne hk, hne]
        have hin : (key, (⟨version, doc⟩ : Stamped (Option Value))) ∈ carried s := List.mem_of_getElem? hi
        rw [Tracking, hcopy]
        refine Tracks.change (Tracks.arrive h hin (.inl (hm key doc version hi)) (fun p hp => List.mem_of_mem_eraseIdx hp)
          (fun p hp hne => mem_of_eraseIdx hi hp fun heq => hne ?_)) (fun k m hm => .inl hm) (fun k m hm => .inl hm)
          (fun k hk => .inl (mem_of_eraseIdx hi hk (by simp)))
        obtain ⟨hk, hp⟩ := of_syncing_eq heq
        exact Prod.ext hk hp
      next => cases hs

/-- Whatever the order of the writes and of their syncs, as long as every sync
is orderly the mirror is the store once nothing is in flight. -/
theorem mirror_converges (store : Key → Option Value) (mirror : SubMirror) (s : System)
    (hseed : ∀ tenant id, mirror.doc_of tenant id = store (tenant, id)) (hrun : Run step Orderly (seeded store mirror) s)
    (hquiet : s.flight = []) : Mirrors s := by
  have hstart : Tracking (seeded store mirror) := by
    have hcopy : copy (seeded store mirror) = current (seeded store mirror) := by
      funext key
      simp [copy, current, seeded, hseed]
    have hcarried : carried (seeded store mirror) = ∅ := by
      simp [carried, seeded]
    have howed : owed (seeded store mirror) = ∅ := by
      simp [owed, seeded]
    rw [Tracking, hcopy, hcarried, howed]
    exact Tracks.initial _
  have h := hrun.keeps (fun _ _ _ h hm hs => tracking_step h hm hs) hstart
  intro tenant id
  refine Tracks.settled h (k := (tenant, id)) (fun m hm => ?_) (fun ho => ?_)
  · rw [carried, hquiet] at hm
    exact absurd hm List.not_mem_nil
  · rw [owed, hquiet] at ho
    exact absurd ho List.not_mem_nil

def watch : Value := .object [("id", .string "urn:s"), ("notification", .object [])]

def sub : Key := ("default", "urn:s")

def one_sub (key : Key) : Option Value := if key = sub then some watch else none

def one_mirror : SubMirror := SubMirror.apply ⟨BTreeMap.empty, 0⟩ "default" "urn:s" (some watch)

theorem one_mirror_seeded : ∀ tenant id, one_mirror.doc_of tenant id = one_sub (tenant, id) := by
  intro tenant id
  rw [one_mirror, SubMirror.doc_of_apply, one_sub, sub]
  by_cases h : tenant = "default" ∧ id = "urn:s"
  · rw [if_pos h, if_pos (Prod.ext h.1 h.2)]
  · rw [if_neg h, if_neg fun heq => h ⟨(Prod.mk.inj heq).1, (Prod.mk.inj heq).2⟩]
    rfl

instance (s : System) (m : Move) : Decidable (Orderly s m) :=
  match m with
  | .sync i =>
      match hi : s.flight[i]? with
      | some (.syncing key doc version) =>
          decidable_of_iff (s.synced key ≤ version) ⟨fun h k d v heq => by
            rw [hi] at heq
            cases heq
            exact h, fun h => h key doc version hi⟩
      | some (.reading _) => .isTrue fun k d v heq => by
          rw [hi] at heq
          cases heq
      | none => .isTrue fun k d v heq => by
          rw [hi] at heq
          cases heq
  | .create _ _ | .update _ _ | .delete _ | .book _ _ | .read _ => instDecidableTrue

/-- A booking and an update, whose document reaches the mirror last. -/
def in_order : List Move :=
  [.book sub (fun d => (record_delivery d "10:00").doc), .update sub (fun d => some (insert_member "isActive" (.bool true) d)),
    .read 0, .sync 1, .sync 0]

theorem mirror_converges_in_order : ∃ s, exec step Orderly (seeded one_sub one_mirror) in_order = some s ∧
    s.flight = [] ∧ Mirrors s := by
  obtain ⟨s, hs⟩ : ∃ s, exec step Orderly (seeded one_sub one_mirror) in_order = some s :=
    Option.isSome_iff_exists.mp (by decide)
  have hquiet : (exec step Orderly (seeded one_sub one_mirror) in_order).all (fun s : System => s.flight.isEmpty) =
      true := by decide
  rw [hs, Option.all_some, List.isEmpty_iff] at hquiet
  exact ⟨s, hs, hquiet, mirror_converges one_sub one_mirror s one_mirror_seeded (Run.of_exec hs) hquiet⟩

/-- A delivery is booked and the subscription deleted; the document of the
booking reaches the mirror last. -/
def revived : List Move := [.book sub (fun d => (record_delivery d "10:00").doc), .delete sub, .sync 0, .sync 0]

theorem mirror_not_converging_revived : ¬ ∀ (store : Key → Option Value) (mirror : SubMirror) (s : System),
    (∀ tenant id, mirror.doc_of tenant id = store (tenant, id)) → Free step (seeded store mirror) s → s.flight = [] →
    Mirrors s := by
  intro hall
  obtain ⟨s, hs⟩ : ∃ s, exec step (fun _ _ => True) (seeded one_sub one_mirror) revived = some s :=
    Option.isSome_iff_exists.mp (by decide)
  have hfacts : (exec step (fun _ _ => True) (seeded one_sub one_mirror) revived).all (fun s : System =>
      s.flight.isEmpty && (s.store sub).isNone && (s.mirror.doc_of "default" "urn:s").isSome) = true := by decide
  rw [hs, Option.all_some, Bool.and_eq_true, Bool.and_eq_true, List.isEmpty_iff] at hfacts
  obtain ⟨⟨hquiet, hgone⟩, hheld⟩ := hfacts
  have hnone : s.store ("default", "urn:s") = none := Option.isNone_iff_eq_none.mp hgone
  rw [hall one_sub one_mirror s one_mirror_seeded (Run.of_exec hs) hquiet, hnone] at hheld
  cases hheld

end AntaresBroker.MirrorSync
