import AntaresBroker.Clock
import AntaresBroker.Json

namespace AntaresBroker.Expiry

open Clock Json

/-- What the broker uses of the date library: the RFC 3339 parser reads every
stamp of the broker's form, and keeps their order. -/
structure Chrono (Instant : Type) [LinearOrder Instant] where
  parse_from_rfc3339 : String → Option Instant
  stamp_mono : ∀ (p : Nat) (s t : Stamp p), s ≤ t → ∃ i j, parse_from_rfc3339 (render s) = some i ∧
    parse_from_rfc3339 (render t) = some j ∧ i ≤ j

def ENTITY_META_KEYS : List String :=
  ["id", "type", "scope", "createdAt", "modifiedAt", "deletedAt", "expiresAt", "@context"]

/-- The first comma is the fraction separator of a request-side date. -/
def canonical_datetime (s : String) : String := String.ofList (s.toList.replace ',' '.')

variable {Instant : Type} [LinearOrder Instant] (chrono : Chrono Instant)

def instant (s : String) : Option Instant := chrono.parse_from_rfc3339 (canonical_datetime s)

def expired_at (v : Value) (now : String) : Bool :=
  match (v.get "expiresAt").bind Value.as_str with
  | none => false
  | some e =>
      match instant chrono e, instant chrono now with
      | some exp, some n => exp < n
      | _, _ => e < now

mutual
/-- The read boundary: `none` drops the document, and expired instances go at
every depth below names that are IRIs. -/
def strip_expired (now : String) : Value → Option Value
  | .object m => if expired_at chrono (.object m) now then none else some (.object (strip_members now m))
  | .null => some .null
  | .bool b => some (.bool b)
  | .number n => some (.number n)
  | .string s => some (.string s)
  | .array items => some (.array items)
termination_by structural v => v
def strip_members (now : String) : Map → Map
  | [] => []
  | p :: m => (strip_member now p).toList ++ strip_members now m
termination_by structural m => m
def strip_member (now : String) : String × Value → Option (String × Value)
  | (k, v) => strip_attribute now k v
termination_by structural p => p
def strip_attribute (now : String) (k : String) : Value → Option (String × Value)
  | .array items =>
      if ':' ∈ k.toList then
        let kept := strip_items now items
        if items ≠ [] ∧ kept = [] then none else some (k, .array kept)
      else some (k, .array items)
  | v => some (k, v)
termination_by structural v => v
def strip_items (now : String) : List Value → List Value
  | [] => []
  | v :: items => (strip_expired now v).toList ++ strip_items now items
termination_by structural items => items
end

theorem strip_members_eq (now : String) (m : Map) :
    strip_members chrono now m = m.filterMap (strip_member chrono now) := by
  induction m with
  | nil => simp [strip_members]
  | cons p m ih =>
      rw [strip_members, ih, List.filterMap_cons]
      cases strip_member chrono now p <;> rfl

theorem strip_items_eq (now : String) (items : List Value) :
    strip_items chrono now items = items.filterMap (strip_expired chrono now) := by
  induction items with
  | nil => simp [strip_items]
  | cons v items ih =>
      rw [strip_items, ih, List.filterMap_cons]
      cases strip_expired chrono now v <;> rfl

/-- The pass of the sweep over one member: names of metadata are left alone,
and so is an attribute none of whose instances has expired. -/
def prune_member (now : String) (p : String × Value) : Option (String × Value) :=
  match p.2 with
  | .array arr =>
      if p.1 ∈ ENTITY_META_KEYS then some p
      else
        let kept := arr.filter (fun inst => !expired_at chrono inst now)
        if kept.length ≠ arr.length ∧ kept = [] then none else some (p.1, .array kept)
  | _ => some p

/-- The document without the instances expired at the first level, and whether
anything went. -/
def prune_expired_instances (doc : Value) (now : String) : Value × Bool :=
  match doc with
  | .object m =>
      let pruned := m.filterMap (prune_member chrono now)
      (.object pruned, pruned ≠ m)
  | v => (v, false)

/-- What a sweep leaves of an entity. -/
def sweep (now : String) (doc : Value) : Option Value :=
  if expired_at chrono doc now then none else some (prune_expired_instances chrono doc now).1

/-- Every name of an attribute is an IRI, which has a colon. -/
def AbsoluteNames : Value → Prop
  | .object m => ∀ p ∈ m, p.1 ∉ ENTITY_META_KEYS → ':' ∈ p.1.toList
  | _ => True

instance : (doc : Value) → Decidable (AbsoluteNames doc)
  | .object m => inferInstanceAs (Decidable (∀ p ∈ m, p.1 ∉ ENTITY_META_KEYS → ':' ∈ p.1.toList))
  | .null => isTrue trivial
  | .bool _ => isTrue trivial
  | .number _ => isTrue trivial
  | .string _ => isTrue trivial
  | .array _ => isTrue trivial

theorem canonical_render {p : Nat} (t : Stamp p) : canonical_datetime (render t) = render t := by
  rw [canonical_datetime, render, String.toList_ofList, List.replace_of_not_mem (comma_not_mem_chars t)]

/-- What has expired stays expired. -/
theorem expired_at_mono {v : Value} {p : Nat} {s t : Stamp p} (h : s ≤ t)
    (hs : expired_at chrono v (render s) = true) : expired_at chrono v (render t) = true := by
  unfold expired_at at hs ⊢
  obtain ⟨i, j, hi, hj, hij⟩ := chrono.stamp_mono p s t h
  cases he : (v.get "expiresAt").bind Value.as_str with
  | none => simp [he] at hs
  | some e =>
      simp only [he, instant, canonical_render, hi, hj] at hs ⊢
      cases hp : chrono.parse_from_rfc3339 (canonical_datetime e) with
      | none =>
          simp only [hp, decide_eq_true_eq] at hs ⊢
          exact hs.trans_le (render_mono h)
      | some exp =>
          simp only [hp, decide_eq_true_eq] at hs ⊢
          exact hs.trans_le hij

theorem prune_member_name {now : String} {p q : String × Value} (h : prune_member chrono now p = some q) :
    q.1 = p.1 := by
  obtain ⟨k, v⟩ := p
  cases v with
  | array arr =>
      simp only [prune_member] at h
      split_ifs at h
      · injection h with h; rw [← h]
      · injection h with h; rw [← h]
  | _ => injection h with h; rw [← h]

theorem lookup_pruned {k : String} (hk : k ∈ ENTITY_META_KEYS) (now : String) (m : Map) :
    (m.filterMap (prune_member chrono now)).lookup k = m.lookup k := by
  induction m with
  | nil => rfl
  | cons p m ih =>
      rw [List.filterMap_cons, SortedMap.lookup_cons]
      obtain ⟨l, v⟩ := p
      by_cases hl : k = l
      · subst hl
        have hp : prune_member chrono now (k, v) = some (k, v) := by
          cases v <;> simp [prune_member, hk]
        simp [hp, SortedMap.lookup_cons]
      · cases hq : prune_member chrono now (l, v) with
        | none => simp [ih, hl]
        | some q => simp [SortedMap.lookup_cons, ih, hl, prune_member_name chrono hq]

/-- The sweep keeps the stamp that decides the fate of the document. -/
theorem expired_at_pruned (doc : Value) (now u : String) :
    expired_at chrono (prune_expired_instances chrono doc now).1 u = expired_at chrono doc u := by
  cases doc with
  | object m =>
      simp only [prune_expired_instances, expired_at, Value.get]
      rw [lookup_pruned chrono (by decide)]
  | _ => rfl

theorem filterMap_strip_filter {p : Nat} {s t : Stamp p} (h : s ≤ t) (arr : List Value) :
    (arr.filter (fun inst => !expired_at chrono inst (render s))).filterMap
      (strip_expired chrono (render t)) = arr.filterMap (strip_expired chrono (render t)) := by
  induction arr with
  | nil => rfl
  | cons v arr ih =>
      rw [List.filter_cons]
      cases hs : expired_at chrono v (render s) with
      | false => simp [List.filterMap_cons, ih]
      | true =>
          have ht := expired_at_mono chrono h hs
          have hv : strip_expired chrono (render t) v = none := by
            cases v with
            | object m => rw [strip_expired, if_pos ht]
            | _ => simp [expired_at, Value.get] at hs
          simp [hv, ih]

/-- Below one name the read boundary takes at least what an earlier sweep took. -/
theorem strip_prune_member {p : Nat} {s t : Stamp p} (h : s ≤ t) {q : String × Value}
    (hq : q.1 ∉ ENTITY_META_KEYS → ':' ∈ q.1.toList) :
    (prune_member chrono (render s) q).bind (strip_member chrono (render t)) =
      strip_member chrono (render t) q := by
  obtain ⟨k, v⟩ := q
  cases v with
  | array arr =>
      by_cases hk : k ∈ ENTITY_META_KEYS
      · simp [prune_member, hk]
      · have hf := filterMap_strip_filter chrono h arr
        simp only [prune_member, if_neg hk]
        generalize hkept : arr.filter (fun inst => !expired_at chrono inst (render s)) = kept at hf ⊢
        have hcolon := hq hk
        split_ifs with hempty
        · rw [hempty.2] at hf
          have harr : arr ≠ [] := by
            rintro rfl
            simp [hempty.2] at hempty
          simp [strip_member, strip_attribute, strip_items_eq, hcolon, harr, ← hf]
        · have hiff : kept ≠ [] ↔ arr ≠ [] := by
            constructor
            · rintro hne rfl
              exact hne (by simpa using hkept.symm)
            · rintro hne rfl
              exact hempty ⟨fun hlen => hne (List.length_eq_zero_iff.mp hlen.symm), rfl⟩
          simp only [Option.bind_some, strip_member, strip_attribute, strip_items_eq, hcolon, if_true, hf, hiff]
  | _ => simp [prune_member]

theorem strip_pruned {p : Nat} {s t : Stamp p} (h : s ≤ t) {doc : Value} (hd : AbsoluteNames doc) :
    strip_expired chrono (render t) (prune_expired_instances chrono doc (render s)).1 =
      strip_expired chrono (render t) doc := by
  cases doc with
  | object m =>
      have he := expired_at_pruned chrono (.object m) (render s) (render t)
      simp only [prune_expired_instances] at he ⊢
      rw [strip_expired, strip_expired, he, strip_members_eq, strip_members_eq, List.filterMap_filterMap]
      congr 3
      exact List.filterMap_congr (fun q hq => strip_prune_member chrono h (hd q hq))
  | _ => rfl

theorem prune_member_prune_member (now : String) (q : String × Value) :
    (prune_member chrono now q).bind (prune_member chrono now) = prune_member chrono now q := by
  obtain ⟨k, v⟩ := q
  cases v with
  | array arr =>
      by_cases hk : k ∈ ENTITY_META_KEYS
      · simp [prune_member, hk]
      · by_cases hempty : (arr.filter (fun inst => !expired_at chrono inst now)).length ≠ arr.length ∧
          arr.filter (fun inst => !expired_at chrono inst now) = []
        · simp only [prune_member, if_neg hk, if_pos hempty, Option.bind_none]
        · simp only [prune_member, if_neg hk, if_neg hempty, Option.bind_some, List.filter_filter, Bool.and_self,
            ne_eq, not_true_eq_false, false_and, if_false]
  | _ => simp [prune_member]

theorem prune_pruned (doc : Value) (now : String) :
    prune_expired_instances chrono (prune_expired_instances chrono doc now).1 now =
      ((prune_expired_instances chrono doc now).1, false) := by
  cases doc with
  | object m =>
      have hm : (m.filterMap (prune_member chrono now)).filterMap (prune_member chrono now) =
          m.filterMap (prune_member chrono now) := by
        rw [List.filterMap_filterMap]
        exact List.filterMap_congr (fun q _ => prune_member_prune_member chrono now q)
      simp [prune_expired_instances, hm]
  | _ => rfl

/-- An earlier sweep changes nothing of what a later read serves, and a second
sweep at the same instant nothing of what the first one left. -/
theorem sweep_invisible {p : Nat} {t1 t2 : Stamp p} (h : t1 ≤ t2) {doc : Value} (hd : AbsoluteNames doc) :
    (sweep chrono (render t1) doc).bind (strip_expired chrono (render t2)) =
        strip_expired chrono (render t2) doc ∧
      strip_expired chrono (render t2) (prune_expired_instances chrono doc (render t1)).1 =
        strip_expired chrono (render t2) doc ∧
      (sweep chrono (render t1) doc).bind (sweep chrono (render t1)) = sweep chrono (render t1) doc ∧
      prune_expired_instances chrono (prune_expired_instances chrono doc (render t1)).1 (render t1) =
        ((prune_expired_instances chrono doc (render t1)).1, false) := by
  have hstrip := strip_pruned chrono h hd
  refine ⟨?_, hstrip, ?_, prune_pruned chrono doc (render t1)⟩
  · unfold sweep
    split_ifs with hs
    · have ht := expired_at_mono chrono h hs
      cases doc with
      | object m => rw [strip_expired, if_pos ht, Option.bind_none]
      | _ => simp [expired_at, Value.get] at hs
    · exact hstrip
  · unfold sweep
    split_ifs with hs
    · rfl
    · rw [Option.bind_some, expired_at_pruned, if_neg hs, prune_pruned]

/-- A date library that knows only stamps of one width, whose bytes are already
in the order of time. -/
def fixed_width : Chrono String where
  parse_from_rfc3339 s := if s.toList.getLast? = some 'Z' then some s else none
  stamp_mono _ s t h := by
    refine ⟨render s, render t, ?_, ?_, render_mono h⟩
    · rw [render, String.toList_ofList, getLast?_chars, if_pos rfl]
    · rw [render, String.toList_ofList, getLast?_chars, if_pos rfl]

def newYear : Stamp 3 := ⟨2026, 1, 1, 0, 0, 0, 0, by decide, by decide, by decide, by decide, by decide,
  by decide, by decide, by decide, by decide⟩

def newYearNoon : Stamp 3 := ⟨2026, 1, 1, 12, 0, 0, 0, by decide, by decide, by decide, by decide, by decide,
  by decide, by decide, by decide, by decide⟩

/-- Two readings, one past its expiry in the morning and one at seven. -/
def readings : Value := .object [
  ("id", .string "urn:ngsi-ld:Room:1"),
  ("https://example.org/level", .array [
    .object [("expiresAt", .string "2025-12-31T00:00:00.000Z"), ("value", .bool true)],
    .object [("expiresAt", .string "2026-01-01T07:00:00.000Z"), ("value", .bool false)]])]

theorem sweep_invisible_readings :
    newYear ≤ newYearNoon ∧ AbsoluteNames readings ∧
      (sweep fixed_width (render newYear) readings).bind (strip_expired fixed_width (render newYearNoon)) =
        strip_expired fixed_width (render newYearNoon) readings :=
  ⟨by decide, by decide, (sweep_invisible fixed_width (show newYear ≤ newYearNoon by decide) (by decide)).1⟩

end AntaresBroker.Expiry
