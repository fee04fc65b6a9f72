import AntaresBroker.Json

namespace AntaresBroker.Notify

open Json

/-- A number that is a 64-bit integer. -/
def as_i64 : Value → Option Int64
  | .number (.posInt n) => if n.toNat < 2 ^ 63 then some n.toInt64 else none
  | .number (.negInt n) => some (Int64.ofInt (-n.val - 1))
  | _ => none

theorem neg_lt (x : Int64) : (-x.toInt - 1).toNat < 2 ^ 63 := by
  have h := x.minValue_le_toInt
  have hmin : Int64.minValue.toInt = -2 ^ 63 := rfl
  omega

def of_i64 (x : Int64) : Value :=
  if 0 ≤ x.toInt then .number (.posInt x.toUInt64) else .number (.negInt ⟨(-x.toInt - 1).toNat, neg_lt x⟩)

@[simp] theorem as_i64_of_i64 (x : Int64) : as_i64 (of_i64 x) = some x := by
  unfold of_i64
  by_cases h : 0 ≤ x.toInt
  · have hn : x.toUInt64.toNat = x.toInt.toNat := by
      rw [Int64.toNat_toUInt64_of_le (Int64.le_iff_toInt_le.mpr h), Int64.toNat_toInt]
    have hlt : x.toUInt64.toNat < 2 ^ 63 := by
      have := x.toInt_lt
      omega
    rw [if_pos h, as_i64, if_pos hlt, Int64.toInt64_toUInt64]
  · have hval : (-(((-x.toInt - 1).toNat : Nat) : Int) - 1) = x.toInt := by omega
    rw [if_neg h, as_i64, hval, Int64.ofInt_toInt]

/-- A counter of the notification; what is no integer counts from 0. -/
def count (n : Map) (k : String) : Int64 := ((n.lookup k).bind as_i64).getD 0

def notification (doc : Value) : Option Map := (doc.get "notification").bind Value.as_object

/-- The change of the notification object of a document that has one. -/
def at_notification (f : Map → Map) : Value → Value
  | .object o =>
      match o.lookup "notification" with
      | some (.object n) => .object (SortedMap.insert "notification" (.object (f n)) o)
      | _ => .object o
  | v => v

def remove_member (k : String) : Value → Value
  | .object o => .object (SortedMap.erase k o)
  | v => v

def insert_member (k : String) (x : Value) : Value → Value
  | .object o => .object (SortedMap.insert k x o)
  | v => v

/-- What a booking leaves: the document, and the `lastSuccess` it displaced. -/
structure Delivery where
  doc : Value
  prev_success : Option Value

def stamp_sent (now : String) (n : Map) : Map :=
  let n := SortedMap.insert "timesSent" (of_i64 (count n "timesSent" + 1)) n
  let n := SortedMap.insert "lastNotification" (.string now) n
  let n := SortedMap.insert "lastSuccess" (.string now) n
  SortedMap.insert "status" (.string "ok") n

def record_delivery (doc : Value) (now : String) : Delivery where
  doc := at_notification (stamp_sent now) (remove_member "status" doc)
  prev_success := (notification doc).bind (fun n => n.lookup "lastSuccess")

def stamp_failed (prev_success : Option Value) (ts : String) (n : Map) : Map :=
  let n := match prev_success with
    | some v => SortedMap.insert "lastSuccess" v n
    | none => SortedMap.erase "lastSuccess" n
  let n := SortedMap.insert "lastFailure" (.string ts) n
  let n := SortedMap.insert "timesFailed" (of_i64 (count n "timesFailed" + 1)) n
  SortedMap.insert "status" (.string "failed") n

/-- The writeback of a failed first attempt. -/
def failure_writeback (prev_success : Option Value) (ts : String) (doc : Value) : Value :=
  at_notification (stamp_failed prev_success ts) (insert_member "status" (.string "failed") doc)

def stamp_retried (ts : String) (n : Map) : Map :=
  SortedMap.insert "status" (.string "ok") (SortedMap.insert "lastSuccess" (.string ts) n)

/-- The writeback of a retry that got through. -/
def retry_writeback (ts : String) (doc : Value) : Value :=
  at_notification (stamp_retried ts) (remove_member "status" doc)

theorem notification_at_notification (f : Map → Map) (doc : Value) :
    notification (at_notification f doc) = (notification doc).map f := by
  cases doc with
  | object o =>
      cases h : o.lookup "notification" with
      | none => simp [notification, at_notification, Value.get, h]
      | some v =>
          cases v <;> simp [notification, at_notification, Value.get, Value.as_object, h]
  | _ => rfl

theorem get_at_notification {k : String} (hk : k ≠ "notification") (f : Map → Map) (doc : Value) :
    (at_notification f doc).get k = doc.get k := by
  cases doc with
  | object o =>
      cases h : o.lookup "notification" with
      | none => simp [at_notification, h]
      | some v => cases v <;> simp [at_notification, Value.get, h, hk]
  | _ => rfl

theorem get_remove_member (k l : String) (doc : Value) :
    (remove_member k doc).get l = if l = k then none else doc.get l := by
  cases doc with
  | object o => exact SortedMap.lookup_erase k l o
  | _ => simp [remove_member, Value.get]

theorem get_insert_member {k : String} (x : Value) {doc : Value} (hdoc : doc.is_object = true) (l : String) :
    (insert_member k x doc).get l = if l = k then some x else doc.get l := by
  cases doc with
  | object o => exact SortedMap.lookup_insert k l x o
  | _ => cases hdoc

theorem is_object_of_notification {doc : Value} {n : Map} (h : notification doc = some n) : doc.is_object = true := by
  cases doc with
  | object o => rfl
  | _ => cases h

theorem notification_record_delivery (doc : Value) (now : String) :
    notification (record_delivery doc now).doc = (notification doc).map (stamp_sent now) := by
  have h : notification (remove_member "status" doc) = notification doc := by
    simp [notification, get_remove_member]
  exact (notification_at_notification _ _).trans (congrArg _ h)

theorem notification_failure_writeback (prev : Option Value) (ts : String) {doc : Value} {n : Map}
    (h : notification doc = some n) : notification (failure_writeback prev ts doc) = some (stamp_failed prev ts n) := by
  have hs : notification (insert_member "status" (.string "failed") doc) = notification doc := by
    simp [notification, get_insert_member _ (is_object_of_notification h)]
  rw [failure_writeback, notification_at_notification, hs, h, Option.map_some]

theorem notification_retry_writeback (ts : String) (doc : Value) :
    notification (retry_writeback ts doc) = (notification doc).map (stamp_retried ts) := by
  have h : notification (remove_member "status" doc) = notification doc := by
    simp [notification, get_remove_member]
  exact (notification_at_notification _ _).trans (congrArg _ h)

/-- The top-level `status` is the one the notification carries. -/
theorem status_record_delivery (doc : Value) (now : String) : (record_delivery doc now).doc.get "status" = none := by
  rw [record_delivery, get_at_notification (by decide), get_remove_member, if_pos rfl]

theorem status_failure_writeback (prev : Option Value) (ts : String) {doc : Value} (hdoc : doc.is_object = true) :
    (failure_writeback prev ts doc).get "status" = some (.string "failed") := by
  rw [failure_writeback, get_at_notification (by decide), get_insert_member _ hdoc, if_pos rfl]

theorem status_retry_writeback (ts : String) (doc : Value) : (retry_writeback ts doc).get "status" = none := by
  rw [retry_writeback, get_at_notification (by decide), get_remove_member, if_pos rfl]

section Reading

variable (n : Map) (now ts : String) (prev : Option Value)

theorem lookup_stamp_sent (k : String) : (stamp_sent now n).lookup k =
    if k = "status" then some (.string "ok") else if k = "lastSuccess" then some (.string now)
    else if k = "lastNotification" then some (.string now)
    else if k = "timesSent" then some (of_i64 (count n "timesSent" + 1)) else n.lookup k := by
  simp [stamp_sent]

theorem lookup_stamp_failed (k : String) : (stamp_failed prev ts n).lookup k =
    if k = "status" then some (.string "failed")
    else if k = "timesFailed" then some (of_i64 (count n "timesFailed" + 1))
    else if k = "lastFailure" then some (.string ts)
    else if k = "lastSuccess" then prev else n.lookup k := by
  cases prev <;> simp [stamp_failed, count]

theorem lookup_stamp_retried (k : String) : (stamp_retried ts n).lookup k =
    if k = "status" then some (.string "ok") else if k = "lastSuccess" then some (.string ts) else n.lookup k := by
  simp [stamp_retried]

end Reading

end AntaresBroker.Notify
