import AntaresBroker.BTreeMap
import Mathlib.Logic.Function.Basic

namespace AntaresBroker.DistSub

/-- A registration as a Context Source Notification carries it; the sources
support all operations on subscriptions. -/
structure Registration where
  id : String
  endpoint : String
  auxiliary : Bool
  /-- its alias stands in the Via chain of the Subscription -/
  seen : Bool
  /-- something is left of the Subscription when it is reduced to it -/
  watched : Bool

inductive Reason
  | newlyMatching | updated | noLongerMatching
deriving DecidableEq

/-- The mapping document: the internal Registration Subscription, and under each
registration the endpoint and the remote subscription. -/
structure Mapping where
  csr_sub : Option String
  remotes : BTreeMap String (String × String)

/-- Where the handling of one registration stands. A forward that is sent takes
effect in one step and is answered in a later one. -/
inductive Phase
  | putting
  | mapping
  | unputting
  | posting
  | posted (ok : Bool)
  | rolling
  | deleting
  | deleted
  | unmapped
deriving DecidableEq

inductive Creation
  | csr
  | read (csr_id : String)
  | put (csr_id : String) (found : Option Mapping)
  | create (csr_id : String) (found : Option Mapping)

inductive Deletion
  | read
  | inbound (todo remotes : List (String × String × String)) (csr_id : Option String)
  | mapping (remotes : List (String × String × String)) (csr_id : Option String)
  | csr (remotes : List (String × String × String)) (csr_id : Option String)
  | forward (remotes : List (String × String × String))

/-- A run of a handler between two atomic steps. -/
inductive Proc
  | arriving (reason : Reason) (regs : List Registration)
  | choosing (reason : Reason) (regs : List Registration)
  | handling (phase : Phase) (reason : Reason) (reg : Registration) (remote_id : String) (rest : List Registration)
  | created (point : Creation)
  | updating
  | updating_csr
  | deleting (point : Deletion)
  /-- a forwarded deletion on its way -/
  | forwarded (reg_id endpoint remote_id : String)

/-- The stores of the broker for one own Subscription, the remote subscriptions
at the endpoints, and the identifiers drawn so far with what they were drawn for. -/
structure World where
  /-- the own Subscription, by whether it is distributed -/
  subscription : Option Bool
  mapping : Option Mapping
  csrs : String → Bool
  inbound : String → Bool
  copies : String → String → Bool
  drawn : String → Option (String × String)

/-- What the surroundings decide in a step. -/
structure Choice where
  uuid : String
  accepted : Bool

def empty_mapping : Mapping := ⟨none, BTreeMap.empty⟩

namespace World

variable (w : World)

/-- The remote subscription mapped to a registration. -/
def mapped (reg_id : String) : Option (String × String) := w.mapping.bind (fun d => d.remotes.get reg_id)

def ds_remotes : List (String × String × String) := (w.mapping.map (fun d => d.remotes.entries)).getD []

def set_inbound (remote_id : String) (present : Bool) : World :=
  { w with inbound := Function.update w.inbound remote_id present }

def set_copy (endpoint remote_id : String) (present : Bool) : World :=
  { w with copies := Function.update w.copies endpoint (Function.update (w.copies endpoint) remote_id present) }

/-- An entry is only added to a document that is there, and only where none is. -/
def insert_remote (reg_id : String) (entry : String × String) : Option World :=
  match w.mapping with
  | none => none
  | some d =>
      if (d.remotes.get reg_id).isSome then none
      else some { w with mapping := some { d with remotes := d.remotes.insert reg_id entry } }

def remove_remote (reg_id : String) : World :=
  { w with mapping := w.mapping.map (fun d => { d with remotes := d.remotes.remove reg_id }) }

theorem inbound_set_inbound (rid r : String) (b : Bool) :
    (w.set_inbound rid b).inbound r = if r = rid then b else w.inbound r := Function.update_apply ..

theorem copies_set_copy (endpoint rid e r : String) (b : Bool) :
    (w.set_copy endpoint rid b).copies e r = if e = endpoint ∧ r = rid then b else w.copies e r := by
  unfold set_copy
  dsimp only
  rw [Function.update_apply]
  by_cases he : e = endpoint
  · rw [if_pos he, Function.update_apply, he]
    simp
  · rw [if_neg he, if_neg fun h => he h.1]

theorem mapped_remove_remote (reg_id r : String) :
    (w.remove_remote reg_id).mapped r = if r = reg_id then none else w.mapped r := by
  unfold remove_remote mapped
  cases w.mapping <;> simp

theorem insert_remote_some {w' : World} {reg_id : String} {entry : String × String}
    (h : w.insert_remote reg_id entry = some w') :
    w.mapped reg_id = none ∧ w.mapping.isSome ∧ w'.mapping.isSome ∧ w'.subscription = w.subscription ∧
      w'.copies = w.copies ∧ w'.inbound = w.inbound ∧ w'.drawn = w.drawn ∧
        ∀ r, w'.mapped r = if r = reg_id then some entry else w.mapped r := by
  unfold insert_remote at h
  split at h
  · cases h
  · rename_i d hd
    split_ifs at h with hreg
    obtain rfl := Option.some.inj h
    rw [Bool.not_eq_true, Option.isSome_eq_false_iff, Option.isNone_iff_eq_none] at hreg
    refine ⟨?_, by rw [hd]; rfl, rfl, rfl, rfl, rfl, rfl, fun r => ?_⟩
    · rw [mapped, hd, Option.bind_some, hreg]
    · rw [mapped, mapped, hd]
      exact BTreeMap.get_insert _ _ _ _

theorem mem_ds_remotes {r : String × String × String} (h : r ∈ w.ds_remotes) : w.mapped r.1 = some r.2 := by
  unfold ds_remotes at h
  unfold mapped
  cases hd : w.mapping with
  | none => simp [hd] at h
  | some d =>
      rw [hd, Option.map_some, Option.getD_some] at h
      exact BTreeMap.mem_entries.mp h

end World

/-- The mapping that the creation of the Registration Subscription stores. -/
def with_csr (found : Option Mapping) (csr_id : String) : Mapping :=
  { found.getD empty_mapping with csr_sub := some csr_id }

/-- One registration of a notification. -/
def choose (w : World) (reason : Reason) (reg : Registration) (rest : List Registration) (c : Choice) :
    Option (World × List Proc) :=
  if reg.auxiliary || reg.seen then some (w, [.choosing reason rest])
  else match reason, w.mapped reg.id with
  | .noLongerMatching, some (_, remote_id) => some (w, [.handling .deleting reason reg remote_id rest])
  | .noLongerMatching, none => some (w, [.choosing reason rest])
  -- a changed copy is forwarded under the id it has
  | _, some _ => some (w, [.choosing reason rest])
  | _, none =>
      if !reg.watched then some (w, [.choosing reason rest])
      else if (w.drawn c.uuid).isSome then none
      else some ({ w with drawn := Function.update w.drawn c.uuid (some (reg.id, reg.endpoint)) },
        [.handling .putting reason reg c.uuid rest])

def handle (w : World) (phase : Phase) (reason : Reason) (reg : Registration) (remote_id : String)
    (rest : List Registration) (c : Choice) : World × Proc :=
  match phase with
  | .putting => (w.set_inbound remote_id true, .handling .mapping reason reg remote_id rest)
  | .mapping =>
      match w.insert_remote reg.id (reg.endpoint, remote_id) with
      | none => (w, .handling .unputting reason reg remote_id rest)
      | some w' => (w', .handling .posting reason reg remote_id rest)
  | .unputting => (w.set_inbound remote_id false, .choosing reason rest)
  | .posting =>
      (if c.accepted then w.set_copy reg.endpoint remote_id true else w,
        .handling (.posted c.accepted) reason reg remote_id rest)
  | .posted true => (w, .choosing reason rest)
  | .posted false => (w.set_inbound remote_id false, .handling .rolling reason reg remote_id rest)
  | .rolling => (w.remove_remote reg.id, .choosing reason rest)
  | .deleting => (w.set_copy reg.endpoint remote_id false, .handling .deleted reason reg remote_id rest)
  | .deleted => (w.remove_remote reg.id, .handling .unmapped reason reg remote_id rest)
  | .unmapped => (w.set_inbound remote_id false, .choosing reason rest)

def create (w : World) (c : Choice) : Creation → World × List Proc
  | .csr => ({ w with csrs := Function.update w.csrs c.uuid true }, [.created (.read c.uuid)])
  | .read csr_id => (w, [.created (.put csr_id w.mapping)])
  | .put csr_id found =>
      if w.mapping.isSome then ({ w with mapping := some (with_csr found csr_id) }, [])
      else (w, [.created (.create csr_id found)])
  | .create csr_id found =>
      if w.mapping.isSome then (w, []) else ({ w with mapping := some (with_csr found csr_id) }, [])

def delete (w : World) : Deletion → World × List Proc
  | .read => (w, [.deleting (.inbound w.ds_remotes w.ds_remotes (w.mapping.bind Mapping.csr_sub))])
  | .inbound [] remotes csr_id => (w, [.deleting (.mapping remotes csr_id)])
  | .inbound (r :: todo) remotes csr_id => (w.set_inbound r.2.2 false, [.deleting (.inbound todo remotes csr_id)])
  | .mapping remotes csr_id => ({ w with mapping := none }, [.deleting (.csr remotes csr_id)])
  | .csr remotes csr_id =>
      ({ w with csrs := fun id => w.csrs id && csr_id ≠ some id }, [.deleting (.forward remotes)])
  | .forward remotes => (w, remotes.map (fun r => .forwarded r.1 r.2.1 r.2.2))

/-- The next atomic step of a run, and what becomes of it. -/
def exec (w : World) (c : Choice) : Proc → Option (World × List Proc)
  | .arriving reason regs => some (w, if w.subscription = some true then [.choosing reason regs] else [])
  | .choosing _ [] => some (w, [])
  | .choosing reason (reg :: rest) => choose w reason reg rest c
  | .handling phase reason reg remote_id rest =>
      let r := handle w phase reason reg remote_id rest c
      some (r.1, [r.2])
  | .created point => some (create w c point)
  | .updating =>
      some (w, match w.subscription with
        | none => []
        | some false => [.deleting .read]
        | some true => [.updating_csr])
  | .updating_csr => some (w, if (w.mapping.bind Mapping.csr_sub).isNone then [.created .csr] else [])
  | .deleting point => some (delete w point)
  | .forwarded _ endpoint remote_id => some (w.set_copy endpoint remote_id false, [])

structure State where
  world : World
  procs : List Proc

inductive Event
  | create (distributed : Bool)
  | update (distributed : Bool)
  | delete
  | notify (reason : Reason) (regs : List Registration)
  /-- a run makes its next step -/
  | run (i : Nat) (c : Choice)

def step (s : State) : Event → Option State
  | .create distributed =>
      if s.world.subscription.isSome then none
      else some ⟨{ s.world with subscription := some distributed },
        (if distributed then [.created .csr] else []) ++ s.procs⟩
  | .update distributed =>
      if s.world.subscription.isNone then none
      else some ⟨{ s.world with subscription := some distributed }, .updating :: s.procs⟩
  | .delete =>
      if s.world.subscription.isNone then none
      else some ⟨{ s.world with subscription := none }, .deleting .read :: s.procs⟩
  | .notify reason regs => some ⟨s.world, .arriving reason regs :: s.procs⟩
  | .run i c =>
      s.procs[i]?.bind fun p => (exec s.world c p).map fun r => ⟨r.1, r.2 ++ s.procs.eraseIdx i⟩

def run (s : State) : List Event → Option State
  | [] => some s
  | e :: events => (step s e).bind (fun s' => run s' events)

def start : State := ⟨⟨none, none, fun _ => false, fun _ => false, fun _ _ => false, fun _ => none⟩, []⟩

end AntaresBroker.DistSub
