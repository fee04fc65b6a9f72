import AntaresBroker.Mem
import AntaresBroker.RegIndex
import AntaresBroker.Replica
import AntaresBroker.Runs

namespace AntaresBroker.RegMirror

open Json Mem Registry Replica Runs

/-- A registration: its tenant and its id. -/
abbrev Key := String × String

/-- A delta, with the number of the write whose document it carries. -/
structure Sent where
  delta : Delta
  version : Nat

def Sent.key (d : Sent) : Key := (d.delta.tenant, d.delta.id)

/-- The second half of a write: an update still has to read back what it wrote,
then the delta is published. -/
inductive Flight
  | reading (key : Key)
  | publishing (sent : Sent)

/-- The consumer of a pod: not started yet, open with the deltas it has still to
deliver, ended, or being hydrated tenant by tenant and page by page, with the
deltas that wait if it is open already. -/
inductive Stream
  | down
  | opened (queue : List Sent)
  | ended
  | seeding (queue : Option (List Sent)) (tenants : List String) (after : Option String)

/-- `synced` is the write whose document the mirror took last. -/
structure Pod where
  mirror : DocMirror
  synced : Key → Nat
  stream : Stream

structure System where
  store : Tenants
  writes : Key → Nat
  flight : List Flight
  pods : List Pod

inductive PodMove
  | start (tenants : List String)
  | deliver
  | gap
  | reseed (tenants : List String)
  | page
  | reopen

inductive Move
  | create (key : Key) (doc : Value)
  | update (key : Key) (f : Value → Option Value)
  | delete (key : Key)
  | read (i : Nat)
  | publish (i : Nat)
  | pod (p : Nat) (m : PodMove)

def SEED_PAGE : Nat := 1000

namespace Stream

def queue : Stream → List Sent
  | .opened queue => queue
  | .seeding (some queue) _ _ => queue
  | .down | .ended | .seeding none _ _ => []

def listens : Stream → Bool
  | .opened _ | .seeding (some _) _ _ => true
  | .down | .ended | .seeding none _ _ => false

/-- A message published while the consumer is open. -/
def take (d : Sent) : Stream → Stream
  | .opened queue => .opened (queue ++ [d])
  | .seeding (some queue) tenants after => .seeding (some (queue ++ [d])) tenants after
  | s => s

/-- A hydrate to come, or the rest of one, will read over the registration. -/
def unread : Stream → Key → Bool
  | .down, _ | .ended, _ => true
  | .opened _, _ | .seeding _ [] _, _ => false
  | .seeding _ (t :: ts) after, key => (key.1 = t && after.all (· < key.2)) || ts.contains key.1

end Stream

/-- The tenants `subscription_tenants` lists, each once: any that hold a registration are among them. -/
def enumerates (store : Tenants) (tenants : List String) : Bool :=
  tenants.Nodup && store.entries.all (fun p => p.2.is_empty || tenants.contains p.1)

def list_page (store : Tenants) (tenant : String) (after : Option String) : List (String × Value) :=
  (((store.get tenant).getD BTreeMap.empty).entries.filter (fun p => after.all (· < p.1))).take SEED_PAGE

/-- The documents of a page are added to the mirror. -/
def hydrate (tenant : String) (page : List (String × Value)) (mirror : DocMirror) : DocMirror :=
  page.foldl (fun m p => apply m ⟨tenant, p.1, some p.2⟩) mirror

namespace Pod

/-- A hydrate goes on; what it has read over is of the last write wherever the
mirror agrees with the store. -/
def passes (pod : Pod) (s : System) (mirror : DocMirror) (stream : Stream) : Pod where
  mirror := mirror
  synced := fun k =>
    if pod.stream.unread k && !stream.unread k && ((s.store.doc k.1 k.2).isSome || (doc_of mirror k.1 k.2).isNone) then s.writes k
    else pod.synced k
  stream := stream

def step (s : System) (pod : Pod) : PodMove → Option Pod
  | .start tenants =>
      match pod.stream with
      | .down => if enumerates s.store tenants then some (pod.passes s pod.mirror (.seeding (some []) tenants none)) else none
      | _ => none
  | .reseed tenants =>
      match pod.stream with
      | .ended => if enumerates s.store tenants then some (pod.passes s pod.mirror (.seeding none tenants none)) else none
      | _ => none
  | .page =>
      match pod.stream with
      | .seeding queue (t :: ts) after =>
          let page := list_page s.store t after
          some (pod.passes s (hydrate t page pod.mirror)
            (if page.length < SEED_PAGE then .seeding queue ts none
              else .seeding queue (t :: ts) (page.getLast?.map Prod.fst)))
      | _ => none
  | .reopen =>
      match pod.stream with
      | .seeding queue [] _ => some { pod with stream := .opened (queue.getD []) }
      | _ => none
  | .deliver =>
      match pod.stream with
      | .opened (d :: queue) =>
          some { mirror := apply pod.mirror d.delta, synced := Function.update pod.synced d.key d.version, stream := .opened queue }
      | _ => none
  | .gap =>
      match pod.stream with
      | .opened _ => some { pod with stream := .ended }
      | _ => none

end Pod

namespace System

def write (s : System) (key : Key) (store : Tenants) (rest : Flight) : System :=
  { s with
    store := store
    writes := Function.update s.writes key (s.writes key + 1)
    flight := rest :: s.flight }

/-- The delta of the last write of a registration will still reach a pod with this queue. -/
def to_come (s : System) (queue : List Sent) (key : Key) : Bool :=
  s.flight.any (fun f => match f with
    | .reading k => k = key
    | .publishing d => d.key = key && d.version = s.writes key) ||
  queue.any (fun d => d.key = key && d.version = s.writes key)

end System

def step (s : System) : Move → Option System
  | .create key doc =>
      match s.store.doc key.1 key.2 with
      | none => some (s.write key (s.store.put key.1 key.2 doc)
          (.publishing ⟨⟨key.1, key.2, some doc⟩, s.writes key + 1⟩))
      | some _ => some s
  | .update key f =>
      match (s.store.doc key.1 key.2).bind f with
      | some doc => some (s.write key (s.store.put key.1 key.2 doc) (.reading key))
      | none => some s
  | .delete key =>
      match s.store.doc key.1 key.2 with
      | some _ => some (s.write key (s.store.take key.1 key.2) (.publishing ⟨⟨key.1, key.2, none⟩, s.writes key + 1⟩))
      | none => some s
  | .read i =>
      match s.flight[i]? with
      | some (.reading key) =>
          some { s with flight := .publishing ⟨⟨key.1, key.2, s.store.doc key.1 key.2⟩, s.writes key⟩ :: s.flight.eraseIdx i }
      | _ => none
  | .publish i =>
      match s.flight[i]? with
      | some (.publishing d) =>
          some { s with
            flight := s.flight.eraseIdx i
            pods := s.pods.map (fun pod => { pod with stream := pod.stream.take d }) }
      | _ => none
  | .pod p m => (s.pods[p]?).bind fun pod => (pod.step s m).map fun pod' => { s with pods := s.pods.set p pod' }

def mirror_keys (m : DocMirror) : List Key := m.entries.flatMap (fun p => p.2.docs.keys.map (p.1, ·))

/-- A hydrate that has read over a registration finds it stored, if the mirror
holds it, unless the delta of its deletion is still to come. -/
def Pod.meets_stored (s : System) (pod pod' : Pod) : Bool :=
  (mirror_keys pod.mirror).all (fun k =>
    !(pod.stream.unread k && !pod'.stream.unread k) || (s.store.doc k.1 k.2).isSome || s.to_come pod'.stream.queue k)

/-- No pod takes the delta of an earlier write after that of a later one, unless
the last is still to come; no delta is published to a pod between a hydrate
that has read over its registration and the stream; hydrates meet no deletion. -/
def orderly (s : System) : Move → Bool
  | .publish i =>
      match s.flight[i]? with
      | some (.publishing d) => s.pods.all (fun pod => pod.stream.listens || pod.stream.unread d.key)
      | _ => true
  | .pod p m =>
      match s.pods[p]? with
      | none => true
      | some pod =>
          match m, pod.stream with
          | .deliver, .opened (d :: queue) => decide (pod.synced d.key ≤ d.version) || s.to_come queue d.key
          | .start _, _ | .reseed _, _ | .page, _ => (pod.step s m).all (pod.meets_stored s)
          | _, _ => true
  | _ => true

def Orderly (s : System) (m : Move) : Prop := orderly s m = true

/-- Nothing is registered yet and no pod has started. -/
def initial (pods : Nat) : System :=
  ⟨BTreeMap.empty, fun _ => 0, [], List.replicate pods ⟨BTreeMap.empty, fun _ => 0, .down⟩⟩

def Mirrors (s : System) (pod : Pod) : Prop := ∀ tenant id, doc_of pod.mirror tenant id = s.store.doc tenant id

section Tracking

def current (s : System) (k : Key) : Stamped (Option Value) := ⟨s.writes k, s.store.doc k.1 k.2⟩

def copy (pod : Pod) (k : Key) : Stamped (Option Value) := ⟨pod.synced k, doc_of pod.mirror k.1 k.2⟩

def carried (s : System) (queue : List Sent) : Set (Key × Stamped (Option Value)) :=
  {p | ∃ d : Sent, (.publishing d ∈ s.flight ∨ d ∈ queue) ∧ p = (d.key, ⟨d.version, d.delta.doc⟩)}

def owed (s : System) (stream : Stream) : Set Key := {k | .reading k ∈ s.flight ∨ stream.unread k = true}

def Tracking (s : System) (pod : Pod) : Prop :=
  Tracks (current s) (copy pod) (carried s pod.stream.queue) (owed s pod.stream)

variable {s t : System} {pod pod' : Pod} {key : Key}

theorem of_to_come {queue : List Sent} (h : s.to_come queue key = true) (stream : Stream) :
    key ∈ owed s stream ∨ ∃ m, (key, m) ∈ carried s queue ∧ m.version = (current s key).version := by
  rw [System.to_come, Bool.or_eq_true] at h
  rcases h with h | h
  · obtain ⟨f, hf, hcome⟩ := List.any_eq_true.mp h
    cases f with
    | reading k =>
        rw [decide_eq_true_eq] at hcome
        exact .inl (.inl (hcome ▸ hf))
    | publishing d =>
        simp only [Bool.and_eq_true, decide_eq_true_eq] at hcome
        exact .inr ⟨_, ⟨d, .inl hf, by rw [hcome.1]⟩, hcome.2⟩
  · obtain ⟨d, hd, hcome⟩ := List.any_eq_true.mp h
    simp only [Bool.and_eq_true, decide_eq_true_eq] at hcome
    exact .inr ⟨_, ⟨d, .inr hd, by rw [hcome.1]⟩, hcome.2⟩

theorem current_write {store : Tenants} {doc : Option Value} {rest : Flight}
    (hdoc : ∀ k : Key, store.doc k.1 k.2 = if k = key then doc else s.store.doc k.1 k.2) :
    current (s.write key store rest) = Function.update (current s) key (next (current s key) doc) := by
  funext k
  by_cases hk : k = key
  · subst hk
    simp [current, System.write, next, hdoc]
  · simp [current, System.write, hdoc, hk]

/-- A write whose delta is published at once. -/
theorem tracking_write {store : Tenants} {doc : Option Value} (h : Tracking s pod)
    (hdoc : ∀ k : Key, store.doc k.1 k.2 = if k = key then doc else s.store.doc k.1 k.2) :
    Tracking (s.write key store (.publishing ⟨⟨key.1, key.2, doc⟩, s.writes key + 1⟩)) pod := by
  rw [Tracking, current_write hdoc]
  refine Tracks.write h key doc (fun j m => ?_) (fun j m _ => ?_) (fun j hj => hj.imp_left (List.mem_cons_of_mem _)) (.inl ?_)
  · rintro ⟨d, hd | hd, heq⟩
    · rcases List.mem_cons.mp hd with hnew | hd
      · cases hnew
        exact .inr heq
      · exact .inl ⟨d, .inl hd, heq⟩
    · exact .inl ⟨d, .inr hd, heq⟩
  · rintro ⟨d, hd, heq⟩
    exact ⟨d, hd.imp_left (List.mem_cons_of_mem _), heq⟩
  · exact ⟨_, .inl List.mem_cons_self, rfl⟩

/-- A write that is still to be read back. -/
theorem tracking_write_reading {store : Tenants} {doc : Option Value} (h : Tracking s pod)
    (hdoc : ∀ k : Key, store.doc k.1 k.2 = if k = key then doc else s.store.doc k.1 k.2) :
    Tracking (s.write key store (.reading key)) pod := by
  rw [Tracking, current_write hdoc]
  refine Tracks.write h key doc (fun j m => ?_) (fun j m _ => ?_) (fun j hj => hj.imp_left (List.mem_cons_of_mem _))
    (.inr (.inl List.mem_cons_self))
  · rintro ⟨d, hd | hd, heq⟩
    · exact .inl ⟨d, .inl ((List.mem_cons.mp hd).resolve_left (by simp)), heq⟩
    · exact .inl ⟨d, .inr hd, heq⟩
  · rintro ⟨d, hd, heq⟩
    exact ⟨d, hd.imp_left (List.mem_cons_of_mem _), heq⟩

theorem tracking_read {i : Nat} (h : Tracking s pod) (hi : s.flight[i]? = some (.reading key)) :
    Tracking { s with flight := .publishing ⟨⟨key.1, key.2, s.store.doc key.1 key.2⟩, s.writes key⟩ :: s.flight.eraseIdx i } pod := by
  refine Tracks.change h (fun k m => ?_) (fun k m => ?_) (fun k hk => ?_)
  · rintro ⟨d, hd | hd, heq⟩
    · rcases List.mem_cons.mp hd with hnew | hd
      · cases hnew
        obtain ⟨rfl, rfl⟩ := Prod.mk.inj heq
        exact .inr rfl
      · exact .inl ⟨d, .inl (List.mem_of_mem_eraseIdx hd), heq⟩
    · exact .inl ⟨d, .inr hd, heq⟩
  · rintro ⟨d, hd, heq⟩
    exact .inl ⟨d, hd.imp_left fun hd => List.mem_cons_of_mem _ (mem_of_eraseIdx hi hd (by simp)), heq⟩
  · rcases hk with hk | hk
    · by_cases hkey : k = key
      · subst hkey
        exact .inr ⟨_, .inl List.mem_cons_self, rfl⟩
      · exact .inl (.inl (List.mem_cons_of_mem _ (mem_of_eraseIdx hi hk (by simpa using hkey))))
    · exact .inl (.inr hk)

theorem take_listens {stream : Stream} (h : stream.listens = true) (d : Sent) :
    (stream.take d).queue = stream.queue ++ [d] ∧ (stream.take d).unread = stream.unread := by
  cases stream with
  | down => cases h
  | ended => cases h
  | opened queue => exact ⟨rfl, rfl⟩
  | seeding queue tenants after =>
      cases queue with
      | none => cases h
      | some queue => exact ⟨rfl, by cases tenants <;> rfl⟩

theorem take_deaf {stream : Stream} (h : stream.listens = false) (d : Sent) : stream.take d = stream := by
  cases stream with
  | opened queue => cases h
  | seeding queue tenants after =>
      cases queue with
      | none => rfl
      | some queue => cases h
  | _ => rfl

/-- A delta is published: it waits for a pod, or the pod will read the registration. -/
theorem tracking_publish {i : Nat} {d : Sent} (h : Tracking s pod) (hi : s.flight[i]? = some (.publishing d))
    (hpod : (pod.stream.listens || pod.stream.unread d.key) = true) (pods : List Pod) :
    Tracking { s with flight := s.flight.eraseIdx i, pods := pods } { pod with stream := pod.stream.take d } := by
  have hreading {k : Key} (hk : Flight.reading k ∈ s.flight) : Flight.reading k ∈ s.flight.eraseIdx i :=
    mem_of_eraseIdx hi hk (by simp)
  have hother {d' : Sent} (hd' : Flight.publishing d' ∈ s.flight) (hne : d' ≠ d) :
      Flight.publishing d' ∈ s.flight.eraseIdx i := mem_of_eraseIdx hi hd' (by simpa using hne)
  cases hl : pod.stream.listens with
  | true =>
      obtain ⟨hqueue, hunread⟩ := take_listens hl d
      refine Tracks.change h (fun k m => ?_) (fun k m => ?_) (fun k hk => .inl ?_)
      · rintro ⟨d', hd' | hd', heq⟩
        · exact .inl ⟨d', .inl (List.mem_of_mem_eraseIdx hd'), heq⟩
        · rw [hqueue] at hd'
          rcases List.mem_append.mp hd' with hd' | hd'
          · exact .inl ⟨d', .inr hd', heq⟩
          · rw [List.mem_singleton.mp hd'] at heq
            exact .inl ⟨d, .inl (List.mem_of_getElem? hi), heq⟩
      · rintro ⟨d', hd' | hd', heq⟩
        · by_cases hne : d' = d
          · refine .inl ⟨d', .inr ?_, heq⟩
            rw [hqueue, hne]
            exact List.mem_append_right _ (List.mem_singleton_self d)
          · exact .inl ⟨d', .inl (hother hd' hne), heq⟩
        · refine .inl ⟨d', .inr ?_, heq⟩
          rw [hqueue]
          exact List.mem_append_left _ hd'
      · exact hk.imp hreading fun hk => by rw [hunread]; exact hk
  | false =>
      rw [hl, Bool.false_or] at hpod
      rw [take_deaf hl]
      refine Tracks.change h (fun k m => ?_) (fun k m => ?_) (fun k hk => .inl (hk.imp_left hreading))
      · rintro ⟨d', hd', heq⟩
        exact .inl ⟨d', hd'.imp_left List.mem_of_mem_eraseIdx, heq⟩
      · rintro ⟨d', hd' | hd', heq⟩
        · by_cases hne : d' = d
          · obtain ⟨rfl, -⟩ := Prod.mk.inj heq
            exact .inr (.inl (.inr (hne ▸ hpod)))
          · exact .inl ⟨d', .inl (hother hd' hne), heq⟩
        · exact .inl ⟨d', .inr hd', heq⟩

theorem mem_mirror_keys {m : DocMirror} (h : (doc_of m key.1 key.2).isSome) : key ∈ mirror_keys m := by
  obtain ⟨doc, hdoc⟩ := Option.isSome_iff_exists.mp h
  obtain ⟨r, hr, hget⟩ := Option.bind_eq_some_iff.mp hdoc
  refine List.mem_flatMap.mpr ⟨(key.1, r), BTreeMap.mem_entries.mpr hr, List.mem_map.mpr ⟨key.2, ?_, rfl⟩⟩
  rw [BTreeMap.mem_keys, hget]
  rfl

theorem copy_passes (mirror : DocMirror) (stream : Stream) (k : Key) : copy (pod.passes s mirror stream) k =
    ⟨if pod.stream.unread k && !stream.unread k && ((s.store.doc k.1 k.2).isSome || (doc_of mirror k.1 k.2).isNone) then s.writes k
      else pod.synced k, doc_of mirror k.1 k.2⟩ := rfl

/-- A hydrate goes on: what it reads is as the store has it. -/
theorem tracking_passes {mirror : DocMirror} {stream : Stream} (h : Tracking s pod)
    (hdocs : ∀ k : Key, doc_of mirror k.1 k.2 = doc_of pod.mirror k.1 k.2 ∨
      pod.stream.unread k = true ∧ doc_of mirror k.1 k.2 = s.store.doc k.1 k.2)
    (hcovered : ∀ k : Key, pod.stream.unread k = true → stream.unread k = false → (s.store.doc k.1 k.2).isSome = true →
      doc_of mirror k.1 k.2 = s.store.doc k.1 k.2)
    (hqueue : stream.queue = pod.stream.queue) (hmeets : pod.meets_stored s (pod.passes s mirror stream) = true) :
    Tracking s (pod.passes s mirror stream) := by
  have hread {k : Key} (hk : pod.stream.unread k = true) (hk' : stream.unread k = false)
      (hagree : ((s.store.doc k.1 k.2).isSome || (doc_of mirror k.1 k.2).isNone) = true) :
      copy (pod.passes s mirror stream) k = current s k := by
    have himage : doc_of mirror k.1 k.2 = s.store.doc k.1 k.2 := by
      cases hstored : s.store.doc k.1 k.2 with
      | some doc => rw [hcovered k hk hk' (by rw [hstored]; rfl), hstored]
      | none =>
          rw [hstored, Option.isSome_none, Bool.false_or] at hagree
          exact Option.isNone_iff_eq_none.mp hagree
    rw [copy_passes, hk, hk', hagree]
    exact congrArg₂ Stamped.mk rfl himage
  have hkept {k : Key} (hk : (pod.stream.unread k && !stream.unread k &&
      ((s.store.doc k.1 k.2).isSome || (doc_of mirror k.1 k.2).isNone)) = false) :
      (copy (pod.passes s mirror stream) k).version = pod.synced k := by
    rw [copy_passes, hk]
    rfl
  rw [Tracking, show (pod.passes s mirror stream).stream.queue = pod.stream.queue from hqueue]
  refine Tracks.refresh h (fun k _ => ?_) (fun k hk => ?_) (fun k hk => ?_)
  · cases hcond : pod.stream.unread k && !stream.unread k &&
        ((s.store.doc k.1 k.2).isSome || (doc_of mirror k.1 k.2).isNone) with
    | true =>
        rw [Bool.and_eq_true, Bool.and_eq_true, Bool.not_eq_true'] at hcond
        rw [hread hcond.1.1 hcond.1.2 hcond.2]
        exact Past.refl _
    | false =>
        have hpast := h.copy_past k
        refine ⟨by rw [hkept hcond]; exact hpast.1, fun heq => ?_⟩
        rcases hdocs k with hold | ⟨-, hnew⟩
        · exact hold.trans (hpast.2 ((hkept hcond).symm.trans heq))
        · exact hnew
  · have hunread : pod.stream.unread k = false := by
      rw [← Bool.not_eq_true]
      exact fun hk' => hk (.inr hk')
    have hdoc := (hdocs k).resolve_right fun hr => by rw [hunread] at hr; cases hr.1
    rw [copy_passes, hunread]
    exact congrArg₂ Stamped.mk rfl hdoc
  · rcases hk with hk | hk
    · exact .inl (.inl hk)
    · cases hk' : stream.unread k with
      | true => exact .inl (.inr hk')
      | false =>
          cases hagree : (s.store.doc k.1 k.2).isSome || (doc_of mirror k.1 k.2).isNone with
          | true => exact .inr (.inl (by rw [hread hk hk' hagree]))
          | false =>
              -- the mirror holds a registration that is deleted
              rw [Bool.or_eq_false_iff] at hagree
              have hheld : (doc_of pod.mirror k.1 k.2).isSome := by
                rcases hdocs k with hold | ⟨-, hnew⟩
                · rw [← hold, ← Option.not_isNone, hagree.2]
                  rfl
                · rw [hnew] at hagree
                  cases hd : s.store.doc k.1 k.2 <;> rw [hd] at hagree <;> simp at hagree
              have hmeet := List.all_eq_true.mp hmeets k (mem_mirror_keys hheld)
              rw [show (pod.passes s mirror stream).stream = stream from rfl, hk, hk', hagree.1, hqueue] at hmeet
              exact (of_to_come hmeet stream).imp_right .inr

theorem doc_of_hydrate {tenant : String} {page : List (String × Value)} (hpage : SortedMap.Sorted page) (m : DocMirror) (k : Key) :
    doc_of (hydrate tenant page m) k.1 k.2 =
      if k.1 = tenant then (page.lookup k.2).or (doc_of m k.1 k.2) else doc_of m k.1 k.2 := by
  induction page generalizing m with
  | nil =>
      rw [hydrate]
      split <;> rfl
  | cons p page ih =>
      rw [SortedMap.sorted_cons] at hpage
      have hrest := ih hpage.2 (apply m ⟨tenant, p.1, some p.2⟩)
      rw [doc_of_apply] at hrest
      refine hrest.trans ?_
      by_cases ht : k.1 = tenant
      · rw [if_pos ht, if_pos ht, SortedMap.lookup_cons]
        by_cases hk : k.2 = p.1
        · rw [if_pos ⟨ht, hk⟩, if_pos hk, hk, SortedMap.lookup_eq_none_of_lt hpage.1]
          rfl
        · rw [if_neg fun h => hk h.2, if_neg hk]
      · rw [if_neg ht, if_neg ht, if_neg fun h => ht h.1]

theorem store_doc (store : Tenants) (tenant id : String) :
    store.doc tenant id = ((store.get tenant).getD BTreeMap.empty).get id := by
  rw [Tenants.doc]
  cases store.get tenant <;> rfl

theorem mem_list_page {store : Tenants} {tenant id : String} {after : Option String} {doc : Value}
    (h : (id, doc) ∈ list_page store tenant after) : after.all (· < id) = true ∧ store.doc tenant id = some doc := by
  have hmem := List.mem_filter.mp (List.mem_of_mem_take h)
  exact ⟨hmem.2, by rw [store_doc]; exact BTreeMap.mem_entries.mp hmem.1⟩

theorem sorted_list_page (store : Tenants) (tenant : String) (after : Option String) :
    SortedMap.Sorted (list_page store tenant after) :=
  (SortedMap.sorted_filter _ ((store.get tenant).getD BTreeMap.empty).sorted).sublist (List.take_sublist _ _)

/-- A stored registration after the cursor is on the page, or after its last. -/
theorem mem_page_of_stored {store : Tenants} {tenant id : String} {after : Option String} {doc : Value}
    (hafter : after.all (· < id) = true) (hdoc : store.doc tenant id = some doc) :
    (id, doc) ∈ list_page store tenant after ∨
      SEED_PAGE ≤ (list_page store tenant after).length ∧ ∀ p ∈ list_page store tenant after, p.1 < id := by
  have hmem : (id, doc) ∈ ((store.get tenant).getD BTreeMap.empty).entries.filter (fun p => after.all (· < p.1)) := by
    rw [store_doc] at hdoc
    exact List.mem_filter.mpr ⟨BTreeMap.mem_entries.mpr hdoc, hafter⟩
  have hsorted := SortedMap.sorted_filter (fun p : String × Value => after.all (· < p.1))
    ((store.get tenant).getD BTreeMap.empty).sorted
  rw [list_page]
  generalize ((store.get tenant).getD BTreeMap.empty).entries.filter (fun p => after.all (· < p.1)) = rows at *
  rw [← List.take_append_drop SEED_PAGE rows] at hmem hsorted
  rcases List.mem_append.mp hmem with hmem | hmem
  · exact .inl hmem
  · refine .inr ⟨?_, fun p hp => (List.pairwise_append.mp hsorted).2.2 p hp _ hmem⟩
    have hpos := List.length_pos_of_mem hmem
    rw [List.length_drop] at hpos
    rw [List.length_take]
    omega

theorem unread_seeding (queue : Option (List Sent)) (tenants : List String) (k : Key) :
    (Stream.seeding queue tenants none).unread k = tenants.contains k.1 := by
  cases tenants with
  | nil => rfl
  | cons t ts =>
      rw [Stream.unread, Option.all_none, Bool.and_true, List.contains_cons]
      rfl

theorem tracking_enumerate {tenants : List String} {queue : Option (List Sent)} (h : Tracking s pod)
    (hqueue : (Stream.seeding queue tenants none).queue = pod.stream.queue)
    (henum : enumerates s.store tenants = true)
    (hmeets : pod.meets_stored s (pod.passes s pod.mirror (.seeding queue tenants none)) = true) :
    Tracking s (pod.passes s pod.mirror (.seeding queue tenants none)) := by
  refine tracking_passes h (fun k => .inl rfl) (fun k _ hk hstored => ?_) hqueue hmeets
  rw [unread_seeding] at hk
  obtain ⟨doc, hdoc⟩ := Option.isSome_iff_exists.mp hstored
  obtain ⟨docs, hdocs, hget⟩ := Option.bind_eq_some_iff.mp hdoc
  rw [enumerates, Bool.and_eq_true] at henum
  have hlisted := List.all_eq_true.mp henum.2 (k.1, docs) (BTreeMap.mem_entries.mpr hdocs)
  rw [hk, Bool.or_false] at hlisted
  have hempty : docs = BTreeMap.empty := BTreeMap.is_empty_iff.mp hlisted
  rw [hempty, BTreeMap.get_empty] at hget
  cases hget

theorem tracking_page {queue : Option (List Sent)} {tenant : String} {tenants : List String} {after : Option String}
    (h : Tracking s pod) (hstream : pod.stream = .seeding queue (tenant :: tenants) after)
    (hstep : pod.step s .page = some pod') (hmeets : pod.meets_stored s pod' = true) : Tracking s pod' := by
  rw [Pod.step, hstream] at hstep
  cases hstep
  refine tracking_passes h (fun k => ?_) (fun k hk hk' hstored => ?_) ?_ hmeets
  · rw [doc_of_hydrate (sorted_list_page _ _ _)]
    by_cases ht : k.1 = tenant
    · rw [if_pos ht]
      cases hlook : (list_page s.store tenant after).lookup k.2 with
      | none => exact .inl rfl
      | some doc =>
          obtain ⟨hafter, hdoc⟩ := mem_list_page (SortedMap.mem_of_lookup hlook)
          refine .inr ⟨?_, by rw [ht, hdoc]; rfl⟩
          rw [hstream, Stream.unread, hafter, ht]
          simp
    · rw [if_neg ht]
      exact .inl rfl
  · obtain ⟨doc, hdoc⟩ := Option.isSome_iff_exists.mp hstored
    rw [hstream, Stream.unread, Bool.or_eq_true, Bool.and_eq_true, decide_eq_true_eq] at hk
    have hon : k.1 = tenant ∧ (k.2, doc) ∈ list_page s.store tenant after := by
      split at hk'
      next hshort =>
        rw [unread_seeding] at hk'
        rw [hk', or_iff_left Bool.false_ne_true] at hk
        rw [hk.1] at hdoc
        exact ⟨hk.1, (mem_page_of_stored hk.2 hdoc).resolve_right fun hfull => absurd hshort (Nat.not_lt.mpr hfull.1)⟩
      next hfull =>
        rw [Stream.unread, Bool.or_eq_false_iff] at hk'
        rw [hk'.2, or_iff_left Bool.false_ne_true] at hk
        rw [hk.1] at hdoc
        refine ⟨hk.1, (mem_page_of_stored hk.2 hdoc).resolve_right fun hbehind => ?_⟩
        -- the last of a full page is before the registration
        have hne : list_page s.store tenant after ≠ [] := fun hnil => by
          rw [hnil] at hfull
          exact hfull (by decide)
        have hlast := hbehind.2 _ (List.getLast_mem hne)
        rw [List.getLast?_eq_some_getLast hne, Option.map_some, Option.all_some, decide_eq_true hk.1,
          decide_eq_true hlast] at hk'
        cases hk'.1
    rw [doc_of_hydrate (sorted_list_page _ _ _), if_pos hon.1,
      (SortedMap.mem_iff_lookup (sorted_list_page _ _ _)).mp hon.2, hdoc]
    rfl
  · rw [hstream]
    split <;> cases queue <;> rfl

theorem tracking_deliver {d : Sent} {queue : List Sent} (h : Tracking s pod) (hstream : pod.stream = .opened (d :: queue))
    (hin : pod.synced d.key ≤ d.version ∨ s.to_come queue d.key = true) :
    Tracking s { mirror := apply pod.mirror d.delta, synced := Function.update pod.synced d.key d.version, stream := .opened queue } := by
  rw [Tracking, hstream] at h
  have hcopy : copy { mirror := apply pod.mirror d.delta, synced := Function.update pod.synced d.key d.version, stream := .opened queue } =
      Function.update (copy pod) d.key ⟨d.version, d.delta.doc⟩ := by
    funext k
    by_cases hk : k = d.key
    · subst hk
      simp [copy, doc_of_apply, Sent.key]
    · have hne : ¬(k.1 = d.delta.tenant ∧ k.2 = d.delta.id) := fun h => hk (Prod.ext h.1 h.2)
      simp [copy, doc_of_apply, Function.update_of_ne hk, hne]
  rw [Tracking, hcopy]
  refine Tracks.arrive h ⟨d, .inr List.mem_cons_self, rfl⟩ (hin.imp_right fun hcome => of_to_come hcome _) ?_ ?_
  · rintro p ⟨d', hd', heq⟩
    exact ⟨d', hd'.imp_right (List.mem_cons_of_mem _), heq⟩
  · rintro p ⟨d', hd' | hd', heq⟩ hne
    · exact ⟨d', .inl hd', heq⟩
    · rcases List.mem_cons.mp hd' with rfl | hd'
      · exact absurd heq hne
      · exact ⟨d', .inr hd', heq⟩

theorem tracking_pod {p : Nat} {m : PodMove} (h : Tracking s pod) (hp : s.pods[p]? = some pod) (hm : Orderly s (.pod p m))
    (hstep : pod.step s m = some pod') : Tracking s pod' := by
  rw [Orderly, orderly, hp] at hm
  cases m with
  | start tenants =>
      dsimp only at hm
      rw [hstep, Option.all_some] at hm
      rw [Pod.step] at hstep
      split at hstep
      next hstream =>
        split at hstep
        next henum =>
          cases hstep
          exact tracking_enumerate h (by rw [hstream]; rfl) henum hm
        · cases hstep
      · cases hstep
  | reseed tenants =>
      dsimp only at hm
      rw [hstep, Option.all_some] at hm
      rw [Pod.step] at hstep
      split at hstep
      next hstream =>
        split at hstep
        next henum =>
          cases hstep
          exact tracking_enumerate h (by rw [hstream]; rfl) henum hm
        · cases hstep
      · cases hstep
  | page =>
      dsimp only at hm
      rw [hstep, Option.all_some] at hm
      cases hstream : pod.stream with
      | seeding queue tenants after =>
          cases tenants with
          | cons tenant tenants => exact tracking_page h hstream hstep hm
          | nil =>
              rw [Pod.step, hstream] at hstep
              cases hstep
      | _ =>
          rw [Pod.step, hstream] at hstep
          cases hstep
  | reopen =>
      rw [Pod.step] at hstep
      split at hstep
      next queue after hstream =>
        cases hstep
        rw [Tracking, hstream] at h
        cases queue <;> exact h
      · cases hstep
  | deliver =>
      rw [Pod.step] at hstep
      split at hstep
      next d queue hstream =>
        cases hstep
        dsimp only at hm
        rw [hstream] at hm
        simp only [Bool.or_eq_true, decide_eq_true_eq] at hm
        exact tracking_deliver h hstream hm
      · cases hstep
  | gap =>
      rw [Pod.step] at hstep
      split at hstep
      next queue hstream =>
        cases hstep
        refine Tracks.change h (fun k m => ?_) (fun k m _ => .inr (.inl (.inr rfl))) (fun k _ => .inl (.inr rfl))
        rintro ⟨d, hd | hd, heq⟩
        · exact .inl ⟨d, .inl hd, heq⟩
        · exact absurd hd List.not_mem_nil
      · cases hstep

theorem tracking_step {m : Move} (h : ∀ pod ∈ s.pods, Tracking s pod) (hm : Orderly s m) (hs : step s m = some t) :
    ∀ pod ∈ t.pods, Tracking t pod := by
  have hput (key : Key) (doc : Value) (k : Key) : (s.store.put key.1 key.2 doc).doc k.1 k.2 =
      if k = key then some doc else s.store.doc k.1 k.2 := by
    rw [Tenants.doc_put]
    simp only [Prod.ext_iff]
  cases m with
  | create key doc =>
      cases hd : s.store.doc key.1 key.2 <;> simp only [step, hd, Option.some.injEq] at hs <;> subst hs
      · exact fun pod hp => tracking_write (h pod hp) (hput key doc)
      · exact h
  | update key f =>
      cases hd : (s.store.doc key.1 key.2).bind f <;> simp only [step, hd, Option.some.injEq] at hs <;> subst hs
      · exact h
      · exact fun pod hp => tracking_write_reading (h pod hp) (hput key _)
  | delete key =>
      cases hd : s.store.doc key.1 key.2 <;> simp only [step, hd, Option.some.injEq] at hs <;> subst hs
      · exact h
      · refine fun pod hp => tracking_write (h pod hp) fun k => ?_
        rw [Tenants.doc_take]
        simp only [Prod.ext_iff]
  | read i =>
      simp only [step] at hs
      split at hs
      next key hi =>
        cases hs
        exact fun pod hp => tracking_read (h pod hp) hi
      next => cases hs
  | publish i =>
      simp only [step] at hs
      split at hs
      next d hi =>
        cases hs
        intro pod hp
        obtain ⟨old, hold, rfl⟩ := List.mem_map.mp hp
        rw [Orderly, orderly, hi] at hm
        exact tracking_publish (h old hold) hi (List.all_eq_true.mp hm old hold) _
      next => cases hs
  | pod p m =>
      obtain ⟨old, hold, hr⟩ := Option.bind_eq_some_iff.mp hs
      obtain ⟨new, hnew, rfl⟩ := Option.map_eq_some_iff.mp hr
      intro pod hp
      rcases List.mem_or_eq_of_mem_set hp with hp | rfl
      · exact h pod hp
      · exact show Tracking s pod from tracking_pod (h old (List.mem_of_getElem? hold)) hold hm hnew

/-- Whatever the order of writes, publishes, gaps and hydrates, as long as every
step is orderly an open mirror is the store once nothing is under way. -/
theorem registrations_converge (pods : Nat) (s : System) (hrun : Run step Orderly (initial pods) s) (hquiet : s.flight = []) :
    ∀ pod ∈ s.pods, pod.stream = .opened [] → Mirrors s pod := by
  have hstart : ∀ pod ∈ (initial pods).pods, Tracking (initial pods) pod := fun pod hp => by
    rw [List.eq_of_mem_replicate hp]
    refine Tracks.change (Tracks.initial (current (initial pods))) (fun k m => ?_) (fun k m hm => absurd hm (Set.notMem_empty _))
      fun k hk => absurd hk (Set.notMem_empty _)
    rintro ⟨d, hd | hd, -⟩ <;> exact absurd hd List.not_mem_nil
  have h := hrun.keeps (P := fun s => ∀ pod ∈ s.pods, Tracking s pod) (fun _ _ _ h hm hs => tracking_step h hm hs) hstart
  intro pod hp hopen tenant id
  have ht := h pod hp
  rw [Tracking, hopen] at ht
  refine Tracks.settled ht (k := (tenant, id)) (fun m hm => ?_) (fun ho => ?_)
  · obtain ⟨d, hd, -⟩ := hm
    rw [hquiet] at hd
    rcases hd with hd | hd <;> exact absurd hd List.not_mem_nil
  · rcases ho with ho | ho
    · rw [hquiet] at ho
      exact absurd ho List.not_mem_nil
    · cases ho

end Tracking

section Examples

instance (s : System) (m : Move) : Decidable (Orderly s m) := inferInstanceAs (Decidable (orderly s m = true))

def reg : Key := ("default", "urn:r")

def source (endpoint : String) : Value := .object [("endpoint", .string endpoint), ("id", .string "urn:r")]

def Stream.idle : Stream → Bool
  | .opened [] => true
  | _ => false

/-- A registration is updated in a gap and read back by the hydrate that ends it. -/
def updated_in_gap : List Move := [.pod 0 (.start []), .pod 0 .reopen, .create reg (source "http://a"), .publish 0,
  .pod 0 .deliver, .pod 0 .gap, .update reg (fun _ => some (source "http://b")), .read 0, .publish 0,
  .pod 0 (.reseed ["default"]), .pod 0 .page, .pod 0 .reopen]

/-- A registration is deleted in a gap. -/
def deleted_in_gap : List Move := [.pod 0 (.start []), .pod 0 .reopen, .create reg (source "http://a"), .publish 0,
  .pod 0 .deliver, .pod 0 .gap, .delete reg, .publish 0, .pod 0 (.reseed []), .pod 0 .reopen]

theorem opened_of_idle {stream : Stream} (h : stream.idle = true) : stream = .opened [] := by
  cases stream with
  | opened queue =>
      cases queue with
      | nil => rfl
      | cons d queue => cases h
  | _ => cases h

theorem registrations_converge_updated : ∃ s pod, exec step Orderly (initial 1) updated_in_gap = some s ∧
    s.pods[0]? = some pod ∧ s.store.doc "default" "urn:r" = some (source "http://b") ∧ Mirrors s pod := by
  obtain ⟨s, hs⟩ : ∃ s, exec step Orderly (initial 1) updated_in_gap = some s :=
    Option.isSome_iff_exists.mp (by decide)
  have hfacts : (exec step Orderly (initial 1) updated_in_gap).all (fun s : System => s.flight.isEmpty &&
      decide (s.store.doc "default" "urn:r" = some (source "http://b")) && (s.pods[0]?).any (fun pod => pod.stream.idle)) =
      true := by decide
  rw [hs, Option.all_some, Bool.and_eq_true, Bool.and_eq_true, List.isEmpty_iff, decide_eq_true_eq, Option.any_eq_true] at hfacts
  obtain ⟨⟨hquiet, hdoc⟩, pod, hpod, hidle⟩ := hfacts
  exact ⟨s, pod, hs, hpod, hdoc, registrations_converge 1 s (Run.of_exec hs) hquiet pod (List.mem_of_getElem? hpod)
    (opened_of_idle hidle)⟩

theorem registrations_not_converging_deleted : ¬ ∀ (pods : Nat) (s : System), Free step (initial pods) s → s.flight = [] →
    ∀ pod ∈ s.pods, pod.stream = .opened [] → Mirrors s pod := by
  intro hall
  obtain ⟨s, hs⟩ : ∃ s, exec step (fun _ _ => True) (initial 1) deleted_in_gap = some s :=
    Option.isSome_iff_exists.mp (by decide)
  have hfacts : (exec step (fun _ _ => True) (initial 1) deleted_in_gap).all (fun s : System => s.flight.isEmpty &&
      (s.store.doc "default" "urn:r").isNone &&
      (s.pods[0]?).any (fun pod => pod.stream.idle && (doc_of pod.mirror "default" "urn:r").isSome)) = true := by decide
  rw [hs, Option.all_some, Bool.and_eq_true, Bool.and_eq_true, List.isEmpty_iff, Option.isNone_iff_eq_none, Option.any_eq_true] at hfacts
  obtain ⟨⟨hquiet, hgone⟩, pod, hpod, hheld⟩ := hfacts
  obtain ⟨hidle, hheld⟩ := Bool.and_eq_true_iff.mp hheld
  rw [hall 1 s (Run.of_exec hs) hquiet pod (List.mem_of_getElem? hpod) (opened_of_idle hidle) "default" "urn:r", hgone] at hheld
  cases hheld

end Examples

end AntaresBroker.RegMirror
