import AntaresBroker.Expiry
import AntaresBroker.SortedMap

namespace AntaresBroker.Snapshots

open Json Expiry

/-- The members of a request body the broker alone writes. -/
def OUTPUT_ONLY : List String := ["snapshotStatus", "snapshotQueriesDetails", "snapshotTemporalQueriesDetails",
  "createdAt", "modifiedAt", "expiresAt", "lastUsedAt"]

/-- What `validate` leaves of a body it accepts. -/
def strip (o : Map) : Map :=
  o.filter (fun p => p.1 ≠ "@context" && !"__".toList.isPrefixOf p.1.toList && !OUTPUT_ONLY.contains p.1)

/-- What is new in a new snapshot: its id, the one given or one drawn, the
instants, the synthetic tenant drawn and the subject that asked. -/
structure Birth where
  id : String
  ts : String
  used : String
  expires_at : String
  synth : String
  subject : Option Value

def new_meta (o : Map) (b : Birth) : Map :=
  let o := SortedMap.insert "id" (.string b.id) o
  let o := SortedMap.insert "type" (.string "Snapshot") o
  let o := SortedMap.insert "createdAt" (.string b.ts) o
  let o := SortedMap.insert "modifiedAt" (.string b.ts) o
  let o := SortedMap.insert "snapshotStatus" (.string "preparing") o
  let o := SortedMap.insert "lastUsedAt" (.string b.used) o
  let o := SortedMap.insert "expiresAt" (.string b.expires_at) o
  let o := if (o.lookup "snapshotPriority").isSome then o else SortedMap.insert "snapshotPriority" (.number (.posInt 5)) o
  let o := SortedMap.insert "__tenant" (.string b.synth) o
  match b.subject with
  | some subject => SortedMap.insert "__subject" subject o
  | none => o

def is_snapshot (doc : Value) : Bool := doc.get "type" = some (.string "Snapshot")

section Reading

variable {Instant : Type} [LinearOrder Instant] (chrono : Chrono Instant)

def expired (now : Instant) (doc : Value) : Bool :=
  (((doc.get "expiresAt").bind Value.as_str).bind chrono.parse_from_rfc3339).any (fun e => e < now)

/-- What a stored document is to a reader. -/
def snap_get (now : Instant) (stored : Option Value) : Option Value :=
  stored.filter (fun doc => is_snapshot doc && !expired chrono now doc)

end Reading

def UPDATABLE : List String := ["snapshotLifetime", "snapshotPriority", "endpoint", "receiverInfo"]

/-- A member after a fragment: kept, removed by a null, or replaced. -/
def set_member (frag : Map) (k : String) (old : Option Value) : Option Value :=
  match frag.lookup k with
  | none => old
  | some .null => none
  | some v => some v

def merge_member (frag : Map) (o : Map) (k : String) : Map :=
  match frag.lookup k with
  | none => o
  | some .null => SortedMap.erase k o
  | some v => SortedMap.insert k v o

/-- What an update writes back over the document it read. -/
def updated (frag : Map) (expires_at ts : String) : Value → Value
  | .object o =>
      let o := UPDATABLE.foldl (merge_member frag) o
      let o := if (frag.lookup "snapshotLifetime").isSome then SortedMap.insert "expiresAt" (.string expires_at) o else o
      .object (SortedMap.insert "modifiedAt" (.string ts) o)
  | v => v

/-- What a fill computes: the status, and the details of its queries unless it copied another snapshot. -/
structure Result where
  status : String
  details : Option (List Value × List Value)

/-- The query details a result leaves; an empty list is not written. -/
def Result.queries (r : Result) : Option Value :=
  (r.details.map Prod.fst).bind (fun q => if q = [] then none else some (.array q))

def Result.temporal_queries (r : Result) : Option Value :=
  (r.details.map Prod.snd).bind (fun q => if q = [] then none else some (.array q))

/-- What `finish` writes back over the document it read. -/
def finished (r : Result) (ts : String) : Value → Value
  | .object o =>
      let o := SortedMap.insert "snapshotStatus" (.string r.status) o
      let o := SortedMap.insert "modifiedAt" (.string ts) o
      let o := match r.queries with
        | some q => SortedMap.insert "snapshotQueriesDetails" q o
        | none => o
      .object (match r.temporal_queries with
        | some q => SortedMap.insert "snapshotTemporalQueriesDetails" q o
        | none => o)
  | v => v

def touched (now : String) : Value → Value
  | .object o => .object (SortedMap.insert "lastUsedAt" (.string now) o)
  | v => v

theorem lookup_merge_member (frag o : Map) (k l : String) :
    (merge_member frag o k).lookup l = if l = k then set_member frag k (o.lookup k) else o.lookup l := by
  unfold merge_member set_member
  by_cases h : l = k
  · subst h
    cases hf : frag.lookup l with
    | none => simp
    | some v => cases v <;> simp
  · cases hf : frag.lookup k with
    | none => simp [h]
    | some v => cases v <;> simp [h]

theorem lookup_merge_members (frag : Map) {ks : List String} (hks : ks.Nodup) (o : Map) (l : String) :
    (ks.foldl (merge_member frag) o).lookup l = if l ∈ ks then set_member frag l (o.lookup l) else o.lookup l := by
  induction ks generalizing o with
  | nil => simp
  | cons k ks ih =>
      obtain ⟨hk, hks⟩ := List.nodup_cons.mp hks
      rw [List.foldl_cons, ih hks, lookup_merge_member]
      by_cases hl : l = k
      · subst hl
        simp [hk]
      · simp [hl]

theorem get_updated (frag : Map) (expires_at ts : String) (o : Map) {k : String} (hexp : k ≠ "expiresAt")
    (hmod : k ≠ "modifiedAt") : (updated frag expires_at ts (.object o)).get k =
      if k ∈ UPDATABLE then set_member frag k (o.lookup k) else o.lookup k := by
  have hmerge := lookup_merge_members frag (by decide : UPDATABLE.Nodup) o k
  by_cases hl : (frag.lookup "snapshotLifetime").isSome
  · simpa [updated, Value.get, hl, hexp, hmod] using hmerge
  · simpa [updated, Value.get, hl, hmod] using hmerge

theorem get_finished (r : Result) (ts : String) (o : Map) {k : String} (hmod : k ≠ "modifiedAt") :
    (finished r ts (.object o)).get k =
      if k = "snapshotTemporalQueriesDetails" then r.temporal_queries.or (o.lookup k)
      else if k = "snapshotQueriesDetails" then r.queries.or (o.lookup k)
      else if k = "snapshotStatus" then some (.string r.status) else o.lookup k := by
  by_cases hk : k = "snapshotTemporalQueriesDetails"
  · cases hq : r.queries <;> cases ht : r.temporal_queries <;> simp [finished, Value.get, hq, ht, hk]
  · by_cases hk' : k = "snapshotQueriesDetails"
    · cases hq : r.queries <;> cases ht : r.temporal_queries <;> simp [finished, Value.get, hq, ht, hk']
    · cases hq : r.queries <;> cases ht : r.temporal_queries <;>
        simp [finished, Value.get, hq, ht, hk, hk', hmod]

theorem get_touched (now : String) (o : Map) {k : String} (hk : k ≠ "lastUsedAt") :
    (touched now (.object o)).get k = o.lookup k := by
  simp [touched, Value.get, hk]

/-- The broker's own members are not taken from a body. -/
theorem lookup_strip {k : String} (hk : OUTPUT_ONLY.contains k = true) (o : Map) : (strip o).lookup k = none := by
  have h := SortedMap.lookup_filter
    (fun k => k ≠ "@context" && !"__".toList.isPrefixOf k.toList && !OUTPUT_ONLY.contains k) o k
  rw [strip, h, hk]
  simp

section NewMeta

variable (o : Map) (b : Birth)

theorem new_meta_tenant : (new_meta o b).lookup "__tenant" = some (.string b.synth) := by
  cases hs : b.subject <;> simp [new_meta, hs]

theorem new_meta_status : (new_meta o b).lookup "snapshotStatus" = some (.string "preparing") := by
  cases hs : b.subject <;> by_cases hp : (o.lookup "snapshotPriority").isSome <;> simp [new_meta, hs, hp]

theorem new_meta_type : (new_meta o b).lookup "type" = some (.string "Snapshot") := by
  cases hs : b.subject <;> by_cases hp : (o.lookup "snapshotPriority").isSome <;> simp [new_meta, hs, hp]

/-- A new snapshot has no query details, whatever the body said. -/
theorem new_meta_details : (new_meta (strip o) b).lookup "snapshotQueriesDetails" = none ∧
    (new_meta (strip o) b).lookup "snapshotTemporalQueriesDetails" = none := by
  have hq := lookup_strip (k := "snapshotQueriesDetails") (by decide) o
  have ht := lookup_strip (k := "snapshotTemporalQueriesDetails") (by decide) o
  cases hs : b.subject <;> by_cases hp : ((strip o).lookup "snapshotPriority").isSome <;>
    simp [new_meta, hs, hp, hq, ht]

end NewMeta

end AntaresBroker.Snapshots
