import AntaresBroker.Json
import AntaresBroker.Spool

namespace AntaresBroker.Outbox

open Json Spool

inductive ChangeOp
  | Create
  | Update
  | Append
  | Merge
  | Replace
  | Delete
  | BatchCreate
  | BatchUpsert
  | BatchUpdate
  | BatchDelete
  | BatchMerge
deriving DecidableEq

/-- What a message carries in place of a body. -/
structure PayloadRef where
  entity_id : String
  version : Int
deriving DecidableEq

structure ChangeEvent where
  tenant : String
  entity_id : String
  types : List String
  op : ChangeOp
  changed_attrs : List String
  payload : Option Value
  prev_payload : Option Value
  version : Int
  incarnation : String
  seq : Int
  payload_ref : Option PayloadRef
  prev_payload_ref : Option PayloadRef

def CLAIM_CHECK_BYTES : Nat := 256 * 1024

/-- The lengths in bytes of the JSON texts of a body and of an event. -/
structure Sizes where
  body : Value → Nat
  event : ChangeEvent → Nat

section Message

variable (size : Sizes)

def over_limit (v : Option Value) (limit : Nat) : Bool := v.any (fun p => limit < size.body p)

def claim_checked_at (ev : ChangeEvent) (limit : Nat) : Bool :=
  over_limit size ev.payload limit || over_limit size ev.prev_payload limit

/-- The predecessor of a version, which does not wrap. -/
def version_before (version : Int) : Int := max (version - 1) (-2 ^ 63)

def check_payload (ev : ChangeEvent) (limit : Nat) : ChangeEvent :=
  if over_limit size ev.payload limit then
    { ev with payload := none, payload_ref := some ⟨ev.entity_id, ev.version⟩ }
  else ev

def check_prev_payload (ev : ChangeEvent) (limit : Nat) : ChangeEvent :=
  if over_limit size ev.prev_payload limit then
    { ev with prev_payload := none, prev_payload_ref := some ⟨ev.entity_id, version_before ev.version⟩ }
  else ev

/-- Bodies over the limit are replaced by references; the names of the attributes go where the rest is over it. -/
def claim_check (ev : ChangeEvent) (limit : Nat) : ChangeEvent :=
  let ev := check_prev_payload size (check_payload size ev limit) limit
  if limit < size.event ev then { ev with changed_attrs := [] } else ev

/-- What the consumers read beside the bodies. -/
def envelope (ev : ChangeEvent) : String × String × List String × ChangeOp × Int × String × Int :=
  (ev.tenant, ev.entity_id, ev.types, ev.op, ev.version, ev.incarnation, ev.seq)

variable {ev : ChangeEvent} {limit : Nat}

theorem envelope_claim_check : envelope (claim_check size ev limit) = envelope ev := by
  have hpayload (ev : ChangeEvent) : envelope (check_payload size ev limit) = envelope ev := by
    rw [check_payload]
    split_ifs <;> rfl
  have hprev (ev : ChangeEvent) : envelope (check_prev_payload size ev limit) = envelope ev := by
    rw [check_prev_payload]
    split_ifs <;> rfl
  have hattrs (ev : ChangeEvent) :
      envelope (if limit < size.event ev then { ev with changed_attrs := [] } else ev) = envelope ev := by
    split_ifs <;> rfl
  rw [claim_check, hattrs, hprev, hpayload]

/-- The bodies and the references of an event. -/
def images (ev : ChangeEvent) : (Option Value × Option PayloadRef) × (Option Value × Option PayloadRef) :=
  ((ev.prev_payload, ev.prev_payload_ref), (ev.payload, ev.payload_ref))

theorem images_claim_check : images (claim_check size ev limit) =
    (if over_limit size ev.prev_payload limit then (none, some ⟨ev.entity_id, version_before ev.version⟩)
      else (ev.prev_payload, ev.prev_payload_ref),
    if over_limit size ev.payload limit then (none, some ⟨ev.entity_id, ev.version⟩)
      else (ev.payload, ev.payload_ref)) := by
  have hattrs (ev : ChangeEvent) :
      images (if limit < size.event ev then { ev with changed_attrs := [] } else ev) = images ev := by
    split_ifs <;> rfl
  rw [claim_check, hattrs, check_prev_payload, check_payload]
  by_cases hp : over_limit size ev.payload limit = true <;> by_cases hq : over_limit size ev.prev_payload limit = true <;>
    simp [images, hp, hq]

theorem payload_claim_check :
    (claim_check size ev limit).payload = if over_limit size ev.payload limit then none else ev.payload := by
  have himages := (Prod.mk.inj (@images_claim_check size ev limit)).2
  split_ifs at himages ⊢ <;> exact (Prod.mk.inj himages).1

end Message

section Draining

/-- What the store wrote with a change. -/
structure Enqueued where
  tenant_id : String
  event : Value

variable (size : Sizes) (decode : Value → Option ChangeEvent) (max_payload : Nat)

def message (seq : Int) (row : Enqueued) : Option ChangeEvent :=
  (decode row.event).map (fun ev => claim_check size { ev with seq := seq } CLAIM_CHECK_BYTES)

def checked (seq : Int) (row : Enqueued) : Bool :=
  (decode row.event).any (fun ev => claim_checked_at size { ev with seq := seq } CLAIM_CHECK_BYTES)

/-- The outbox as the pods drain it, a page of 64 rows at a time. The store numbers its rows from 1 on and writes its own
tenant and no reference; the bus takes what is not longer than its maximum. -/
def drain : Route Int Enqueued ChangeEvent where
  allowed seq row := 0 < seq ∧ ∀ ev, decode row.event = some ev →
    ev.tenant = row.tenant_id ∧ ev.payload_ref = none ∧ ev.prev_payload_ref = none
  send := message size decode
  fits msg := size.event msg ≤ max_payload
  keep := checked size decode
  limit := 64

def outbox_event (rows : List (Int × Row Enqueued)) (seq : Int) (tenant : String) : Option Value :=
  (rows.lookup seq).bind (fun r => if r.entry.tenant_id = tenant then some r.entry.event else none)

/-- The images before and after a change, for a message that has been delivered; `current` are the entities of the store,
where no read fails. -/
def resolve_payloads (current : String → String → Option Value) (rows : List (Int × Row Enqueued)) (ev : ChangeEvent) :
    Option Value × Option Value :=
  if ev.payload_ref.isNone && ev.prev_payload_ref.isNone then (ev.prev_payload, ev.payload)
  else
    match if ev.seq = 0 then none else (outbox_event rows ev.seq ev.tenant).bind decode with
    | some kept => (kept.prev_payload, kept.payload)
    | none => (ev.prev_payload, ev.payload.or (ev.payload_ref.bind (fun r => current ev.tenant r.entity_id)))

variable {size} {decode} {max_payload} {W : Type} [DecidableEq W]

theorem message_of_read {seq : Int} {row : Enqueued} {ev : ChangeEvent} (h : decode row.event = some ev) :
    message size decode seq row = some (claim_check size { ev with seq := seq } CLAIM_CHECK_BYTES) :=
  congrArg (Option.map (fun ev : ChangeEvent => claim_check size { ev with seq := seq } CLAIM_CHECK_BYTES)) h

theorem resolve_whole {current : String → String → Option Value} {rows : List (Int × Row Enqueued)} {ev : ChangeEvent}
    {limit : Nat} (hrefs : ev.payload_ref = none ∧ ev.prev_payload_ref = none) (h : claim_checked_at size ev limit = false) :
    resolve_payloads decode current rows (claim_check size ev limit) = (ev.prev_payload, ev.payload) := by
  rw [claim_checked_at, Bool.or_eq_false_iff] at h
  have himages := @images_claim_check size ev limit
  rw [h.1, h.2, if_neg Bool.false_ne_true, if_neg Bool.false_ne_true, hrefs.1, hrefs.2] at himages
  obtain ⟨hprev, hpayload⟩ := Prod.mk.inj himages
  obtain ⟨hprev, hprev_ref⟩ := Prod.mk.inj hprev
  obtain ⟨hpayload, hpayload_ref⟩ := Prod.mk.inj hpayload
  rw [resolve_payloads, hprev, hprev_ref, hpayload, hpayload_ref]
  rfl

/-- A message with a reference is read back from the row behind it. -/
theorem resolve_kept {current : String → String → Option Value} {rows : List (Int × Row Enqueued)} {ev kept : ChangeEvent}
    {limit : Nat} (h : claim_checked_at size ev limit = true) (hseq : ev.seq ≠ 0)
    (hkept : (outbox_event rows ev.seq ev.tenant).bind decode = some kept) :
    resolve_payloads decode current rows (claim_check size ev limit) = (kept.prev_payload, kept.payload) := by
  have hrefs : ((claim_check size ev limit).payload_ref.isNone &&
      (claim_check size ev limit).prev_payload_ref.isNone) = false := by
    have himages := @images_claim_check size ev limit
    obtain ⟨hprev, hpayload⟩ := Prod.mk.inj himages
    rw [claim_checked_at, Bool.or_eq_true] at h
    rcases h with h | h
    · rw [h, if_pos rfl] at hpayload
      rw [(Prod.mk.inj hpayload).2]
      rfl
    · rw [h, if_pos rfl] at hprev
      rw [(Prod.mk.inj hprev).2]
      exact Bool.and_false _
  have henvelope := @envelope_claim_check size ev limit
  have htenant : (claim_check size ev limit).tenant = ev.tenant := congrArg (fun p => p.1) henvelope
  have hnumber : (claim_check size ev limit).seq = ev.seq := congrArg (fun p => p.2.2.2.2.2.2) henvelope
  rw [resolve_payloads, hrefs, if_neg Bool.false_ne_true, htenant, hnumber, if_neg hseq, hkept]

/-- The length of the text of an object with one string. -/
def text_sizes : Sizes where
  body
    | .object [(k, .string s)] => k.length + s.length + 7
    | _ => 0
  event _ := 262

theorem over_text {s : String} (h : CLAIM_CHECK_BYTES ≤ s.length) :
    over_limit text_sizes (some (.object [("note", .string s)])) CLAIM_CHECK_BYTES = true := by
  have hbody : text_sizes.body (.object [("note", .string s)]) = "note".length + s.length + 7 := rfl
  rw [over_limit, Option.any_some, hbody, decide_eq_true_eq]
  omega

def long_note : String := String.ofList (List.replicate CLAIM_CHECK_BYTES 'a')

theorem length_long_note : CLAIM_CHECK_BYTES ≤ long_note.length := by
  rw [long_note, String.length_ofList, List.length_replicate]

def wide_crane : Value := .object [("note", .string long_note)]

def created_crane : ChangeEvent where
  tenant := "port"
  entity_id := "urn:ngsi-ld:Crane:3"
  types := ["Crane"]
  op := .Create
  changed_attrs := ["note"]
  payload := some wide_crane
  prev_payload := none
  version := 1
  incarnation := "2026-01-01T12:00:00Z"
  seq := 0
  payload_ref := none
  prev_payload_ref := none

def crane_row : Enqueued := ⟨"port", .object [("payload", wide_crane)]⟩

def read_crane (v : Value) : Option ChangeEvent := (v.get "payload").map (fun p => { created_crane with payload := some p })

def crane_message : ChangeEvent := claim_check text_sizes { created_crane with seq := 1 } CLAIM_CHECK_BYTES

theorem crane_allowed : (drain text_sizes read_crane 1048576).allowed 1 crane_row := by
  refine ⟨by decide, fun ev hev => ?_⟩
  obtain rfl := Option.some.inj hev
  exact ⟨rfl, rfl, rfl⟩

theorem crane_fits : (drain text_sizes read_crane 1048576).fits crane_message := show 262 ≤ 1048576 by decide

/-- Whatever has failed so far, a pod that is left alone gets every change out, if the bus takes each message. -/
theorem outbox_recovers {st : State Int Enqueued ChangeEvent W} (h : Reached (drain size decode max_payload) st) {w : W}
    (hw : st.workers w = .idle) (hfits : ∀ seq row msg, st.written.lookup seq = some row →
      message size decode seq row = some msg → size.event msg ≤ max_payload) :
    ∃ st', Relation.ReflTransGen (Step (drain size decode max_payload)) st st' ∧ st'.written = st.written ∧
      st'.reaped = st.reaped ∧ (∀ v, v ≠ w → st'.workers v = st.workers v) ∧
      ∀ seq row, st.written.lookup seq = some row → (decode row.event).isSome = true →
        ∃ msg, (seq, msg) ∈ st'.accepted := by
  have hinv := Inv.of_reached h
  have hcarried : ∀ seq row, st.written.lookup seq = some row → ∀ msg, message size decode seq row = some msg →
      size.event msg ≤ max_payload := fun seq row hrow msg hmsg => hfits seq row msg hrow hmsg
  obtain ⟨st', hquiet, -, hempty⟩ := emptied (R := drain size decode max_payload) (show 0 < 64 by decide) hinv hcarried hw
  refine ⟨st', hquiet.run, hquiet.written, hquiet.reaped, hquiet.others, fun seq row hrow hread => ?_⟩
  obtain ⟨ev, hev⟩ := Option.isSome_iff_exists.mp hread
  have hrow' : st'.written.lookup seq = some row := hquiet.written.symm ▸ hrow
  refine ((hquiet.inv hinv).sent seq row _ hrow' (message_of_read hev)).elim (fun hthere => ?_) (fun hsent => ⟨_, hsent⟩)
  have hpending : (seq, ⟨row, false⟩) ∈ pending st'.rows := List.mem_filter.mpr ⟨SortedMap.mem_of_lookup hthere, rfl⟩
  rw [hempty] at hpending
  cases hpending

theorem crane_recovers : ∃ st : State Int Enqueued ChangeEvent Unit, st.written = [(1, crane_row)] ∧
    ∃ msg, (1, msg) ∈ st.accepted := by
  have h : Reached (drain text_sizes read_crane 1048576) (.start : State Int Enqueued ChangeEvent Unit) := .refl
  have h := h.tail (.write crane_allowed rfl)
  have h := h.tail (.crash ())
  obtain ⟨st, -, hwritten, -, -, hout⟩ := outbox_recovers h (w := ()) rfl (fun seq row msg _ hmsg => by
    obtain ⟨ev, -, rfl⟩ := Option.map_eq_some_iff.mp hmsg
    exact show 262 ≤ 1048576 by decide)
  exact ⟨st, hwritten, hout 1 crane_row rfl rfl⟩

end Draining

end AntaresBroker.Outbox
