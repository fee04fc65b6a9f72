import AntaresBroker.BTreeMap
import AntaresBroker.EntityQuery
import AntaresBroker.NumberText

namespace AntaresBroker.Entities

open Fallible Json Model Ql Text

/-- The candidates of a query by id, each with the sources that hold it. No
collection has more elements than a signed 64-bit size counts. -/
structure EntityMap where
  entityMap : BTreeMap String Value
  addressable : entityMap.entries.length < 2 ^ 63

inductive ApiError
  | ngsi (e : NgsiError)
  | TooManyResults (limit : Nat)
deriving DecidableEq

/-- The page sizes the broker is configured with. -/
structure PageSizes where
  default_limit : Nat
  max_limit : Nat

def parse_usize (s : String) : Option Nat :=
  let d := match s.toList with
    | '+' :: d => d
    | d => d
  if d ≠ [] ∧ d.all Char.isDigit ∧ NumberText.value d < 2 ^ 64 then some (NumberText.value d) else none

def parse_param (params : Params) (name why : String) (absent : Nat) : Except ApiError Nat :=
  match params name with
  | none => .ok absent
  | some s =>
      match parse_usize s with
      | none => .error (.ngsi (.BadRequestData s why))
      | some n => .ok n

/-- The offset, the limit, and whether all results are to be counted. -/
def page_params (sizes : PageSizes) (params : Params) : Except ApiError (Nat × Nat × Bool) :=
  let count := params "count" = some "true"
  (parse_param params "limit" "invalid limit" sizes.default_limit).bind fun limit =>
  if sizes.max_limit < limit then .error (.TooManyResults limit)
  else if limit = 0 ∧ ¬ count then .error (.ngsi (.BadRequestData "" "limit=0 requires count=true (6.3.10)"))
  else
    (parse_param params "offset" "invalid offset" 0).bind fun offset =>
      if 2 ^ 63 - 1 < offset then .error (.ngsi (.BadRequestData "" "offset is out of range"))
      else .ok (offset, limit, count)

/-- The Entities of the map the request may be answered from, in the order of the map. -/
def candidate_ids (m : EntityMap) (params : Params) : List String :=
  match params "id" with
  | none => m.entityMap.keys
  | some s => m.entityMap.keys.filter (split_commas s).contains

def chunks_from {α : Type} (n : Nat) : Nat → List α → List (List α)
  | 0, _ => []
  | fuel + 1, l => if l.isEmpty then [] else l.take n :: chunks_from n fuel (l.drop n)

/-- Pieces of `n` elements, the last perhaps of fewer. -/
def chunks {α : Type} (n : Nat) (l : List α) : List (List α) := chunks_from n l.length l

/-- What a walk over the map has found so far. -/
structure Walk where
  map : EntityMap
  page_ids : List String
  skipped : Nat
  total : Nat
  more : Bool
  visited : Nat

def local_only (sources : Value) : Bool := sources = .array [.string "@none"]

def EntityMap.filter (m : EntityMap) (p : String × Value → Bool) : EntityMap :=
  ⟨m.entityMap.filter p, (List.length_filter_le _ _).trans_lt m.addressable⟩

/-- The map without the local entries of the chunk that no longer match. -/
def prune (m : EntityMap) (chunk matched : List String) : EntityMap :=
  m.filter (fun p => !(chunk.contains p.1 && local_only p.2 && !matched.contains p.1))

def found (offset limit : Nat) (w : Walk) (id : String) : Walk :=
  if w.skipped < offset then { w with total := w.total + 1, skipped := w.skipped + 1 }
  else if w.page_ids.length < limit then { w with total := w.total + 1, page_ids := w.page_ids ++ [id] }
  else { w with total := w.total + 1, more := true }

def with_ids (params : Params) (ids : List String) : Params := insert_param params "id" (String.ofList (join ',' ids))

/-- In place of the ids of an empty page. -/
def EMPTY_PAGE : String := "urn:ngsi-ld:entitymap:empty"

/-- The page, the count of all results, the offset of the next page, and the map that is left. -/
structure Answer where
  page : List Value
  results_count : Option Nat
  next : Option Nat
  map : EntityMap

section Walking

variable {Instant : Type} [LinearOrder Instant] (env : Env Instant) (rows : List Value)

def visit (p : Params) (offset limit : Nat) (w : Walk) (chunk : List String) : Except NgsiError Walk :=
  (filter_entities env (with_ids p chunk) rows).map fun docs =>
    let matched := docs.map id_of
    (chunk.filter matched.contains).foldl (found offset limit)
      { w with map := prune w.map chunk matched, visited := w.visited + chunk.length }

/-- Chunk by chunk, until the page is full unless all results are counted. -/
def walk (p : Params) (offset limit : Nat) (count : Bool) (candidates : Nat) :
    List (List String) → Walk → Except NgsiError Walk
  | [], w => .ok w
  | chunk :: rest, w =>
      (visit env rows p offset limit w chunk).bind fun w =>
        if !count && w.page_ids.length = limit then .ok { w with more := w.more || w.visited < candidates }
        else walk p offset limit count candidates rest w

/-- A query that references a live EntityMap, nothing federated and nothing narrowed. -/
def query_entities_outer (sizes : PageSizes) (params : Params) (m : EntityMap) : Except ApiError Answer :=
  let params := remove_param params "entityMap"
  (page_params sizes params).bind fun (offset, limit, count) =>
  let ids := candidate_ids m params
  let p := remove_param (remove_param (remove_param params "limit") "offset") "count"
  ((walk env rows p offset limit count ids.length (chunks (max limit 20) ids) ⟨m, [], 0, 0, false, 0⟩).mapError .ngsi).bind fun w =>
  let more := if count then decide (offset + limit < w.total) else w.more
  let params := if w.page_ids = [] then insert_param params "id" EMPTY_PAGE else with_ids params w.page_ids
  let params := remove_param (remove_param params "offset") "count"
  let params := if limit = 0 then remove_param params "limit" else params
  ((filter_entities env params rows).mapError .ngsi).bind fun docs =>
  (page_params sizes params).map fun (skip, take, _) =>
    { page := (docs.drop skip).take take
      results_count := if count then some w.total else none
      next := if more && decide (0 < limit) then some (offset + limit) else none
      map := w.map }

/-- The answers of a request repeated at the offset of each `next` link, if so many requests reach the last. -/
def fetch_all (sizes : PageSizes) (params : Params) : Nat → EntityMap → Nat → Option (List Answer)
  | 0, _, _ => none
  | fuel + 1, m, offset =>
      match query_entities_outer env rows sizes (insert_param params "offset" (String.ofList (NumberText.digits offset))) m with
      | .error _ => none
      | .ok a =>
          match a.next with
          | none => some [a]
          | some next => (fetch_all sizes params fuel a.map next).map (a :: ·)

end Walking

theorem chunks_from_flatten {α : Type} {n : Nat} (hn : 0 < n) {fuel : Nat} {l : List α} (h : l.length ≤ fuel) :
    (chunks_from n fuel l).flatten = l := by
  induction fuel generalizing l with
  | zero => rw [chunks_from, List.flatten_nil, List.length_eq_zero_iff.mp (Nat.le_zero.mp h)]
  | succ fuel ih =>
      rw [chunks_from]
      cases l with
      | nil => rfl
      | cons a l =>
          rw [List.isEmpty_cons, if_neg Bool.false_ne_true, List.flatten_cons, ih, List.take_append_drop]
          rw [List.length_drop, List.length_cons]
          rw [List.length_cons] at h
          omega

theorem chunks_flatten {α : Type} {n : Nat} (hn : 0 < n) (l : List α) : (chunks n l).flatten = l :=
  chunks_from_flatten hn le_rfl

theorem chunks_ne_nil {α : Type} {n : Nat} (hn : 0 < n) (l : List α) : ∀ chunk ∈ chunks n l, chunk ≠ [] := by
  have hfrom (fuel : Nat) (l : List α) : ∀ chunk ∈ chunks_from n fuel l, chunk ≠ [] := by
    induction fuel generalizing l with
    | zero => simp [chunks_from]
    | succ fuel ih =>
        intro chunk hc
        rw [chunks_from] at hc
        cases l with
        | nil => simp at hc
        | cons a l =>
            rw [List.isEmpty_cons, if_neg Bool.false_ne_true, List.mem_cons] at hc
            rcases hc with rfl | hc
            · obtain ⟨n, rfl⟩ := Nat.exists_eq_succ_of_ne_zero hn.ne'
              simp
            · exact ih _ chunk hc
  exact hfrom _ l

/-- The parts of texts joined by commas are the parts of each. -/
theorem split_commas_join {ids : List String} (h : ids ≠ []) :
    split_commas (String.ofList (join ',' ids)) = ids.flatMap split_commas := by
  rw [split_commas, String.toList_ofList]
  induction ids with
  | nil => exact absurd rfl h
  | cons id ids ih =>
      cases ids with
      | nil => rw [join, List.flatMap_singleton, split_commas]
      | cons id' ids =>
          have hne : id' :: ids ≠ [] := List.cons_ne_nil _ _
          rw [join, List.splitOn_append_cons_self, List.map_append, ih hne]
          · rfl
          · exact hne

theorem split_commas_plain {id : String} (h : ',' ∉ id.toList) : split_commas id = [id] := by
  rw [split_commas, List.splitOn_eq_singleton h, List.map_singleton, String.ofList_toList]

section Stored

/-- The entities of a tenant under their ids. -/
structure Stored where
  docs : BTreeMap String Value
  keyed : ∀ id doc, docs.get id = some doc → (doc.get "id").bind Value.as_str = some id
  valid : ∀ id doc, docs.get id = some doc → valid_id id = true

variable (stored : Stored)

theorem keys_nodup {κ α : Type} [LinearOrder κ] (m : BTreeMap κ α) : m.keys.Nodup :=
  List.pairwise_map.mpr (m.sorted.imp fun h => h.ne)

theorem lookup_of_mem_nodup {κ α : Type} [DecidableEq κ] {l : List (κ × α)} (h : (l.map Prod.fst).Nodup) {k : κ} {a : α}
    (hmem : (k, a) ∈ l) : l.lookup k = some a := by
  induction l with
  | nil => exact absurd hmem List.not_mem_nil
  | cons p l ih =>
      rw [List.map_cons, List.nodup_cons] at h
      obtain ⟨l', b⟩ := p
      rcases List.mem_cons.mp hmem with heq | hrest
      · rw [Prod.mk.injEq] at heq
        rw [← heq.1, ← heq.2, List.lookup_cons_self]
      · have hne : (k == l') = false := by
          rw [beq_eq_false_iff_ne]
          rintro rfl
          exact h.1 (List.mem_map.mpr ⟨_, hrest, rfl⟩)
        rw [List.lookup_cons, hne]
        exact ih h.2 hrest

theorem eraseDups_of_nodup {α : Type} [DecidableEq α] {l : List α} (h : l.Nodup) : l.eraseDups = l := by
  induction l with
  | nil => rfl
  | cons a l ih =>
      rw [List.nodup_cons] at h
      have hkept : l.filter (fun b => !b == a) = l := by
        rw [List.filter_eq_self]
        intro b hb
        have hne : b ≠ a := by
          rintro rfl
          exact h.1 hb
        simp [hne]
      rw [List.eraseDups_cons, hkept, ih h.2]

/-- Rows under ids of their own are merged into themselves. -/
theorem merge_entries {entries : List (String × Value)}
    (hkeyed : ∀ p ∈ entries, (p.2.get "id").bind Value.as_str = some p.1) (hnodup : (entries.map Prod.fst).Nodup) :
    merge_candidates (entries.map Prod.snd) = entries.map Prod.snd := by
  have hrows : (entries.map Prod.snd).filterMap (fun doc => ((doc.get "id").bind Value.as_str).map (·, doc)) = entries := by
    rw [List.filterMap_map]
    refine (List.filterMap_congr fun p hp => ?_).trans List.filterMap_some
    rw [Function.comp_apply, hkeyed p hp, Option.map_some]
  rw [merge_candidates, hrows, eraseDups_of_nodup hnodup, List.filterMap_map]
  have hlast : ∀ p ∈ entries, entries.reverse.lookup p.1 = some p.2 := fun p hp =>
    lookup_of_mem_nodup (by rw [List.map_reverse, List.nodup_reverse]; exact hnodup) (List.mem_reverse.mpr hp)
  exact (List.filterMap_congr hlast).trans (congrFun List.filterMap_eq_map' _)

/-- So are some of the stored ones. -/
theorem Stored.merge_sublist {rows : List Value} (h : rows.Sublist stored.docs.values) : merge_candidates rows = rows := by
  obtain ⟨entries, hentries, rfl⟩ := List.sublist_map_iff.mp h
  exact merge_entries (fun p hp => stored.keyed p.1 p.2 (BTreeMap.mem_entries.mp (hentries.subset hp)))
    ((keys_nodup stored.docs).sublist (hentries.map Prod.fst))

theorem Stored.merge_rows : merge_candidates stored.docs.values = stored.docs.values :=
  stored.merge_sublist (List.Sublist.refl _)

variable {Instant : Type} [LinearOrder Instant] {env : Env Instant}

theorem Stored.id_of {id : String} {doc : Value} (h : stored.docs.get id = some doc) : Entities.id_of doc = id := by
  rw [Entities.id_of, stored.keyed id doc h, Option.getD_some]

/-- What of a request no page changes and the selection reads. -/
def SameFilters (p params : Params) : Prop :=
  ∀ name, name ∉ ["id", "limit", "offset", "count", "entityMap"] → p name = params name

theorem SameFilters.refl (params : Params) : SameFilters params params := fun _ _ => rfl

theorem SameFilters.of_insert {p params : Params} (h : SameFilters p params) {name value : String}
    (hname : name ∈ ["id", "limit", "offset", "count", "entityMap"]) : SameFilters (insert_param p name value) params := by
  intro other ho
  rw [insert_param_of_ne _ _ (by rintro rfl; exact ho hname), h other ho]

theorem SameFilters.of_remove {p params : Params} (h : SameFilters p params) {name : String}
    (hname : name ∈ ["id", "limit", "offset", "count", "entityMap"]) : SameFilters (remove_param p name) params := by
  intro other ho
  rw [remove_param_of_ne _ (by rintro rfl; exact ho hname), h other ho]

/-- A request for some ids is read like the request without any. -/
theorem selection_with_ids {p params : Params} {sel : Selection} {s : String} (hsame : SameFilters p params)
    (hid : p "id" = some s) (hvalid : ∀ part ∈ split_commas s, valid_id part = true)
    (h : selection env (remove_param params "id") = .ok sel) :
    selection env p = .ok { sel with ids := some (split_commas s) } := by
  have hother (name : String) (hn : name ∉ ["id", "limit", "offset", "count", "entityMap"]) :
      remove_param params "id" name = p name := by
    have hne : name ≠ "id" := by
      rintro rfl
      exact hn List.mem_cons_self
    rw [remove_param_of_ne _ hne, hsame name hn]
  have hids : selected_ids p = .ok (some (split_commas s)) := by
    have hnone : (split_commas s).find? (fun id => !valid_id id) = none := by
      rw [List.find?_eq_none]
      intro part hp
      rw [hvalid part hp]
      decide
    rw [selected_ids, hid]
    dsimp only
    rw [hnone]
  obtain ⟨ids, -, h⟩ := bind_eq_ok.mp h
  obtain ⟨pat, hpat, h⟩ := bind_eq_ok.mp h
  obtain ⟨q, hq, h⟩ := bind_eq_ok.mp h
  obtain ⟨geo, hgeo, rfl⟩ := map_eq_ok.mp h
  rw [id_pattern, hother _ (by decide)] at hpat
  rw [q_ast, hother _ (by decide), hother _ (by decide), hother _ (by decide)] at hq
  rw [hother _ (by decide), hother _ (by decide), hother _ (by decide), hother _ (by decide)] at hgeo
  rw [hother "type" (by decide), hother "attrs" (by decide), hother "scopeQ" (by decide)]
  exact bind_eq_ok.mpr ⟨_, hids, bind_eq_ok.mpr ⟨pat, hpat, bind_eq_ok.mpr ⟨q, hq, map_eq_ok.mpr ⟨geo, hgeo, rfl⟩⟩⟩⟩

theorem selection_without_ids {params : Params} {sel : Selection} (hpattern : params "idPattern" = none)
    (h : selection env (remove_param params "id") = .ok sel) : sel.ids = none ∧ sel.id_pattern = none := by
  obtain ⟨ids, hids, h⟩ := bind_eq_ok.mp h
  obtain ⟨pat, hpat, h⟩ := bind_eq_ok.mp h
  obtain ⟨q, -, h⟩ := bind_eq_ok.mp h
  obtain ⟨geo, -, rfl⟩ := map_eq_ok.mp h
  rw [selected_ids, remove_param_self, Except.ok.injEq] at hids
  rw [id_pattern, remove_param_of_ne _ (by decide), hpattern, Except.ok.injEq] at hpat
  exact ⟨hids.symm, hpat.symm⟩

theorem selects_with_ids {sel : Selection} (hids : sel.ids = none) (hpat : sel.id_pattern = none) (parts : List String)
    (doc : Value) :
    Selection.selects env { sel with ids := some parts } doc = (parts.contains (id_of doc) && sel.selects env doc) := by
  rw [Selection.selects, Selection.selects, hids, hpat]
  simp only [Option.all_some, Option.all_none, Option.isSome_some, Option.isSome_none, Bool.true_or, Bool.false_or,
    Bool.true_and, Bool.and_assoc]

/-- An entity under the id is stored and meets the filters. -/
def Stored.wanted (env : Env Instant) (sel : Selection) (id : String) : Bool :=
  (stored.docs.get id).any (sel.selects env)

variable {stored} {params : Params} {sel : Selection}

/-- The ids come apart at the commas they were joined with, as far as an entity under one of them is wanted. -/
structure Separable (stored : Stored) (env : Env Instant) (sel : Selection) (ids : List String) : Prop where
  parts : ∀ id ∈ ids, ∀ part ∈ split_commas id, valid_id part = true
  whole : ∀ id ∈ ids, ',' ∈ id.toList → stored.wanted env sel id = false

theorem Separable.subset {ids ids' : List String} (h : Separable stored env sel ids) (hs : ids' ⊆ ids) :
    Separable stored env sel ids' :=
  ⟨fun id hid => h.parts id (hs hid), fun id hid => h.whole id (hs hid)⟩

variable (stored) in
theorem filter_by_ids {p : Params} {text : String} (hsel : selection env (remove_param params "id") = .ok sel)
    (hpattern : params "idPattern" = none) (hsame : SameFilters p params) (hid : p "id" = some text)
    (hvalid : ∀ part ∈ split_commas text, valid_id part = true) :
    filter_entities env p stored.docs.values =
      .ok (stored.docs.values.filter (fun doc => (split_commas text).contains (id_of doc) && sel.selects env doc)) := by
  obtain ⟨hids, hpat⟩ := selection_without_ids hpattern hsel
  refine map_eq_ok.mpr ⟨_, selection_with_ids hsame hid hvalid hsel, ?_⟩
  rw [stored.merge_rows]
  exact List.filter_congr fun doc _ => selects_with_ids hids hpat _ doc

theorem Separable.valid_parts {ids : List String} (hk : Separable stored env sel ids) (hne : ids ≠ []) :
    ∀ part ∈ split_commas (String.ofList (join ',' ids)), valid_id part = true := by
  rw [split_commas_join hne]
  intro part hpart
  obtain ⟨id, hmem, hpart⟩ := List.mem_flatMap.mp hpart
  exact hk.parts id hmem part hpart

/-- Of the ids asked for, those are among the answers whose entities are wanted. -/
theorem mem_fetched {ids : List String} {id : String} (hk : Separable stored env sel ids) (hid : id ∈ ids) :
    ((stored.docs.values.filter (fun doc => (ids.flatMap split_commas).contains (id_of doc) && sel.selects env doc)).map
      id_of).contains id = stored.wanted env sel id := by
  rw [Bool.eq_iff_iff, List.contains_iff_mem, List.mem_map]
  constructor
  · rintro ⟨doc, hdoc, rfl⟩
    obtain ⟨hmem, hsel⟩ := List.mem_filter.mp hdoc
    obtain ⟨⟨key, doc'⟩, hentry, rfl⟩ := List.mem_map.mp hmem
    have hget := BTreeMap.mem_entries.mp hentry
    rw [Bool.and_eq_true] at hsel
    rw [stored.id_of hget, Stored.wanted, hget]
    exact hsel.2
  · intro hw
    rw [Stored.wanted, Option.any_eq_true] at hw
    obtain ⟨doc, hget, hsel⟩ := hw
    have hplain : ',' ∉ id.toList := by
      intro hcomma
      have := hk.whole id hid hcomma
      rw [Stored.wanted, hget, Option.any_some, hsel] at this
      cases this
    refine ⟨doc, List.mem_filter.mpr ⟨List.mem_map.mpr ⟨(id, doc), BTreeMap.mem_entries.mpr hget, rfl⟩, ?_⟩, stored.id_of hget⟩
    rw [hsel, Bool.and_true, List.contains_iff_mem, stored.id_of hget]
    exact List.mem_flatMap.mpr ⟨id, hid, by rw [split_commas_plain hplain]; exact List.mem_singleton_self id⟩

/-- The counters of a walk that has found these ids so far. -/
structure Counted (offset limit : Nat) (w : Walk) (ids : List String) : Prop where
  total : w.total = ids.length
  skipped : w.skipped = min offset ids.length
  page_ids : w.page_ids = (ids.drop offset).take limit
  more : w.more = decide (offset + limit < ids.length)

theorem Counted.found {offset limit : Nat} {w : Walk} {ids : List String} (h : Counted offset limit w ids) (id : String) :
    Counted offset limit (found offset limit w id) (ids ++ [id]) := by
  have hlen : (ids ++ [id]).length = ids.length + 1 := by simp
  have hpage : w.page_ids.length = min limit (ids.length - offset) := by rw [h.page_ids, List.length_take, List.length_drop]
  rw [Entities.found, hpage, h.skipped]
  by_cases hskip : min offset ids.length < offset
  · rw [if_pos hskip]
    refine ⟨by rw [hlen, ← h.total], ?_, ?_, ?_⟩
    · rw [hlen]
      dsimp only
      omega
    · rw [h.page_ids, List.drop_eq_nil_of_le (by omega), List.drop_eq_nil_of_le (by omega)]
    · rw [h.more, hlen]
      exact decide_eq_decide.mpr (by omega)
  · rw [if_neg hskip]
    have hle : offset ≤ ids.length := by omega
    by_cases hroom : min limit (ids.length - offset) < limit
    · rw [if_pos hroom]
      refine ⟨by rw [hlen, ← h.total], ?_, ?_, ?_⟩
      · rw [hlen]
        dsimp only
        omega
      · rw [h.page_ids, List.drop_append_of_le_length hle, List.take_of_length_le (by rw [List.length_drop]; omega),
          List.take_of_length_le (by simp; omega)]
      · rw [h.more, hlen]
        exact decide_eq_decide.mpr (by omega)
    · rw [if_neg hroom]
      refine ⟨by rw [hlen, ← h.total], ?_, ?_, ?_⟩
      · rw [hlen]
        dsimp only
        omega
      · rw [h.page_ids, List.drop_append_of_le_length hle, List.take_append_of_le_length (by rw [List.length_drop]; omega)]
      · rw [hlen]
        exact (decide_eq_true (by omega)).symm

theorem Counted.foldl {offset limit : Nat} {w : Walk} {ids : List String} (h : Counted offset limit w ids)
    (more : List String) : Counted offset limit (more.foldl (Entities.found offset limit) w) (ids ++ more) := by
  induction more generalizing w ids with
  | nil => rwa [List.append_nil]
  | cons id more ih =>
      rw [List.foldl_cons, ← List.singleton_append, ← List.append_assoc]
      exact ih (h.found id)

theorem found_keeps (offset limit : Nat) (w : Walk) (id : String) :
    (Entities.found offset limit w id).map = w.map ∧ (Entities.found offset limit w id).visited = w.visited := by
  rw [Entities.found]
  split_ifs <;> exact ⟨rfl, rfl⟩

theorem foldl_found_keeps (offset limit : Nat) (w : Walk) (ids : List String) :
    (ids.foldl (Entities.found offset limit) w).map = w.map ∧
      (ids.foldl (Entities.found offset limit) w).visited = w.visited := by
  induction ids generalizing w with
  | nil => exact ⟨rfl, rfl⟩
  | cons id ids ih =>
      rw [List.foldl_cons, (ih _).1, (ih _).2]
      exact found_keeps offset limit w id

/-- What is left of a map, no wanted entry of it missing. -/
def Pruned (wanted : String → Bool) (m m' : EntityMap) : Prop :=
  ∃ keep : String × Value → Bool, (∀ p, wanted p.1 = true → keep p = true) ∧ m' = m.filter keep

theorem Pruned.refl (wanted : String → Bool) (m : EntityMap) : Pruned wanted m m := by
  refine ⟨fun _ => true, fun _ _ => rfl, ?_⟩
  obtain ⟨⟨entries, sorted⟩, addressable⟩ := m
  simp [EntityMap.filter, BTreeMap.filter]

theorem Pruned.trans {wanted : String → Bool} {m₁ m₂ m₃ : EntityMap} (h : Pruned wanted m₁ m₂) (h' : Pruned wanted m₂ m₃) :
    Pruned wanted m₁ m₃ := by
  obtain ⟨keep, hkeep, rfl⟩ := h
  obtain ⟨keep', hkeep', rfl⟩ := h'
  refine ⟨fun p => keep' p && keep p, fun p hp => by simp [hkeep p hp, hkeep' p hp], ?_⟩
  simp [EntityMap.filter, BTreeMap.filter, List.filter_filter]

theorem Pruned.keys {wanted : String → Bool} {m m' : EntityMap} (h : Pruned wanted m m') :
    m'.entityMap.keys.filter wanted = m.entityMap.keys.filter wanted := by
  obtain ⟨keep, hkeep, rfl⟩ := h
  change ((m.entityMap.entries.filter keep).map Prod.fst).filter wanted = (m.entityMap.entries.map Prod.fst).filter wanted
  rw [List.filter_map, List.filter_map, List.filter_filter]
  refine congrArg (List.map Prod.fst) (List.filter_congr fun p _ => ?_)
  rw [Function.comp_apply]
  by_cases hw : wanted p.1 = true
  · rw [hw, hkeep p hw, Bool.and_self]
  · rw [Bool.not_eq_true] at hw
    rw [hw, Bool.false_and]

theorem prune_pruned {m : EntityMap} {chunk matched : List String} {wanted : String → Bool}
    (h : ∀ id ∈ chunk, matched.contains id = wanted id) : Pruned wanted m (prune m chunk matched) := by
  refine ⟨_, fun p hp => ?_, rfl⟩
  by_cases hc : p.1 ∈ chunk
  · rw [h p.1 hc, hp]
    simp
  · simp [hc]

section Requests

variable (hsel : selection env (remove_param params "id") = .ok sel) (hpattern : params "idPattern" = none)
include hsel hpattern

theorem visit_finds {p : Params} (hsame : SameFilters p params) {offset limit : Nat} {w : Walk} {done chunk : List String}
    (hk : Separable stored env sel chunk) (hne : chunk ≠ []) (hw : Counted offset limit w (done.filter (stored.wanted env sel)))
    (hvisited : w.visited = done.length) :
    ∃ w', visit env stored.docs.values p offset limit w chunk = .ok w' ∧
      Counted offset limit w' ((done ++ chunk).filter (stored.wanted env sel)) ∧ w'.visited = (done ++ chunk).length ∧
      Pruned (stored.wanted env sel) w.map w'.map := by
  have hfilter := filter_by_ids stored hsel hpattern (hsame.of_insert (by decide)) (insert_param_self p "id" _) (hk.valid_parts hne)
  rw [split_commas_join hne] at hfilter
  refine ⟨_, map_eq_ok.mpr ⟨_, hfilter, rfl⟩, ?_, ?_, ?_⟩
  · rw [List.filter_append]
    have hmatched : chunk.filter ((stored.docs.values.filter (fun doc =>
        (chunk.flatMap split_commas).contains (id_of doc) && sel.selects env doc)).map id_of).contains =
          chunk.filter (stored.wanted env sel) := List.filter_congr fun id hid => mem_fetched hk hid
    dsimp only
    rw [hmatched]
    refine Counted.foldl ?_ _
    exact ⟨hw.total, hw.skipped, hw.page_ids, hw.more⟩
  · rw [(foldl_found_keeps _ _ _ _).2, List.length_append, ← hvisited]
  · rw [(foldl_found_keeps _ _ _ _).1]
    exact prune_pruned fun id hid => mem_fetched hk hid

/-- The page is full of the first wanted ids behind the offset, or all candidates were seen. -/
theorem walk_finds {p : Params} (hsame : SameFilters p params) {offset limit : Nat} (hpos : 0 < limit) (count : Bool)
    {pieces : List (List String)} {done ids : List String} {w : Walk} (hids : done ++ pieces.flatten = ids)
    (hne : ∀ chunk ∈ pieces, chunk ≠ []) (hk : Separable stored env sel ids)
    (hw : Counted offset limit w (done.filter (stored.wanted env sel))) (hvisited : w.visited = done.length) :
    ∃ w', walk env stored.docs.values p offset limit count ids.length pieces w = .ok w' ∧
      Pruned (stored.wanted env sel) w.map w'.map ∧
      w'.page_ids = ((ids.filter (stored.wanted env sel)).drop offset).take limit ∧
      (count = true → w'.total = (ids.filter (stored.wanted env sel)).length) ∧
      (count = false →
        (w'.more = true → offset + limit ≤ (ids.filter (stored.wanted env sel)).length) ∧
        (w'.more = false → (ids.filter (stored.wanted env sel)).length ≤ offset + limit)) := by
  induction pieces generalizing done w with
  | nil =>
      rw [List.flatten_nil, List.append_nil] at hids
      subst hids
      refine ⟨w, rfl, Pruned.refl _ _, hw.page_ids, fun _ => hw.total, fun _ => ?_⟩
      rw [hw.more, decide_eq_true_iff, decide_eq_false_iff_not]
      exact ⟨Nat.le_of_lt, Nat.le_of_not_lt⟩
  | cons chunk pieces ih =>
      have hsub : chunk ⊆ ids := fun id hid => hids ▸ List.mem_append_right _ (List.mem_append_left _ hid)
      obtain ⟨w₁, hvisit, hw₁, hvisited₁, hpruned⟩ :=
        visit_finds hsel hpattern hsame (hk.subset hsub) (hne chunk List.mem_cons_self) hw hvisited
      have hids₁ : (done ++ chunk) ++ pieces.flatten = ids := by rw [List.append_assoc, ← List.flatten_cons, hids]
      rw [walk, hvisit, Except.bind]
      by_cases hfull : (!count && decide (w₁.page_ids.length = limit)) = true
      · rw [if_pos hfull]
        rw [Bool.and_eq_true, Bool.not_eq_true', decide_eq_true_iff] at hfull
        obtain ⟨hcount, hlen⟩ := hfull
        rw [hw₁.page_ids, List.length_take, List.length_drop] at hlen
        have hsplit : ids.filter (stored.wanted env sel) =
            (done ++ chunk).filter (stored.wanted env sel) ++ pieces.flatten.filter (stored.wanted env sel) := by
          rw [← List.filter_append, hids₁]
        refine ⟨_, rfl, hpruned, ?_, fun h => absurd (hcount.symm.trans h) Bool.false_ne_true, fun _ => ⟨fun _ => ?_, fun h => ?_⟩⟩
        · dsimp only
          rw [hw₁.page_ids, hsplit]
          rw [List.drop_append_of_le_length (by omega), List.take_append_of_le_length (by rw [List.length_drop]; omega)]
        · rw [hsplit, List.length_append]
          omega
        · -- nothing more was seen and nothing is left to see
          simp only [Bool.or_eq_false_iff, decide_eq_false_iff_not, hw₁.more, hvisited₁, ← hids₁, List.length_append] at h
          have hrest : pieces.flatten = [] := List.length_eq_zero_iff.mp (by omega)
          rw [hsplit, hrest, List.filter_nil, List.append_nil]
          omega
      · rw [if_neg hfull]
        obtain ⟨w', hwalk, hpruned', hrest⟩ := ih hids₁ (fun c hc => hne c (List.mem_cons_of_mem _ hc)) hw₁ hvisited₁
        exact ⟨w', hwalk, hpruned.trans hpruned', hrest⟩

end Requests

theorem lookup_filterMap_keys {κ α : Type} [LinearOrder κ] (f : κ → Option α) (ids : List κ) (k : κ) :
    (ids.filterMap (fun id => (f id).map (id, ·))).lookup k = if k ∈ ids then f k else none := by
  induction ids with
  | nil => rfl
  | cons id ids ih =>
      by_cases hk : k = id
      · subst hk
        rw [if_pos List.mem_cons_self]
        cases hf : f k with
        | none =>
            rw [List.filterMap_cons_none (by rw [hf]; rfl), ih, hf]
            split_ifs <;> rfl
        | some a => rw [List.filterMap_cons_some (by rw [hf]; rfl), List.lookup_cons_self]
      · have hmem : k ∈ id :: ids ↔ k ∈ ids := by simp [hk]
        simp only [hmem]
        cases hf : f id with
        | none => rw [List.filterMap_cons_none (by rw [hf]; rfl), ih]
        | some a => rw [List.filterMap_cons_some (by rw [hf]; rfl), List.lookup_cons, beq_false_of_ne hk, ih]

/-- Wanted ids in the order of the map are answered in that order, each with its entity. -/
theorem fetched_in_order {ids : List String} (hsorted : ids.Pairwise (· < ·)) (hk : Separable stored env sel ids)
    (hw : ∀ id ∈ ids, stored.wanted env sel id = true) :
    stored.docs.values.filter (fun doc => (ids.flatMap split_commas).contains (id_of doc) && sel.selects env doc) =
      ids.filterMap stored.docs.get := by
  have hplain : ids.flatMap split_commas = ids := by
    have hone : ∀ id ∈ ids, split_commas id = [id] := fun id hid => split_commas_plain fun hcomma => by
      have hnot := hk.whole id hid hcomma
      rw [hw id hid] at hnot
      cases hnot
    rw [List.flatMap_congr hone, List.flatMap_singleton']
  have hentries : stored.docs.entries.filter (fun e => ids.contains e.1) =
      ids.filterMap (fun id => (stored.docs.get id).map (id, ·)) := by
    refine SortedMap.ext (SortedMap.sorted_filter _ stored.docs.sorted) ?_ fun k => ?_
    · refine hsorted.filterMap _ fun a a' hlt b hb b' hb' => ?_
      obtain ⟨_, -, rfl⟩ := Option.map_eq_some_iff.mp hb
      obtain ⟨_, -, rfl⟩ := Option.map_eq_some_iff.mp hb'
      exact hlt
    · rw [SortedMap.lookup_filter (fun k => ids.contains k), lookup_filterMap_keys]
      simp only [List.contains_iff_mem]
      rfl
  have hselected : stored.docs.entries.filter (fun e => (ids.flatMap split_commas).contains (id_of e.2) && sel.selects env e.2) =
      stored.docs.entries.filter (fun e => ids.contains e.1) := by
    refine List.filter_congr fun e he => ?_
    have hget := BTreeMap.mem_entries.mp he
    rw [hplain, stored.id_of hget]
    by_cases hmem : e.1 ∈ ids
    · have hwanted := hw e.1 hmem
      rw [Stored.wanted, hget, Option.any_some] at hwanted
      rw [hwanted, Bool.and_true]
    · rw [← List.contains_iff_mem, Bool.not_eq_true] at hmem
      rw [hmem, Bool.false_and]
  have hvalues : stored.docs.values = stored.docs.entries.map Prod.snd := rfl
  rw [hvalues, List.filter_map]
  refine (congrArg (List.map Prod.snd) (hselected.trans hentries)).trans ?_
  rw [List.map_filterMap]
  refine List.filterMap_congr fun id _ => ?_
  rw [Option.map_map]
  exact Option.map_id'

theorem parse_usize_digits {n : Nat} (h : n < 2 ^ 64) : parse_usize (String.ofList (NumberText.digits n)) = some n := by
  have hdigits : ∀ c ∈ NumberText.digits n, c.isDigit = true := fun c hc => NumberText.isDigit_of_mem_digits hc
  rw [parse_usize, String.toList_ofList]
  obtain ⟨c, ds, hd⟩ := List.exists_cons_of_ne_nil (NumberText.digits_ne_nil n)
  have hplus : c ≠ '+' := by
    rintro rfl
    have := hdigits '+' (hd ▸ List.mem_cons_self)
    cases this
  have hvalue := NumberText.value_digits n
  rw [hd] at hdigits hvalue ⊢
  split
  · rename_i heq
    exact absurd (List.cons.inj heq).1 hplus
  · rw [if_pos ⟨List.cons_ne_nil _ _, List.all_eq_true.mpr hdigits, by rw [hvalue]; exact h⟩, hvalue]

theorem page_params_ok {sizes : PageSizes} {p : Params} {offset limit : Nat} {count : Bool}
    (h : page_params sizes p = .ok (offset, limit, count)) :
    parse_param p "limit" "invalid limit" sizes.default_limit = .ok limit ∧ limit ≤ sizes.max_limit ∧
      count = decide (p "count" = some "true") := by
  obtain ⟨l, hl, h⟩ := bind_eq_ok.mp h
  split_ifs at h with hmax hzero
  obtain ⟨o, ho, h⟩ := bind_eq_ok.mp h
  split_ifs at h
  simp only [Except.ok.injEq, Prod.mk.injEq] at h
  obtain ⟨-, rfl, rfl⟩ := h
  exact ⟨hl, not_lt.mp hmax, rfl⟩

/-- The same limit at another offset. -/
theorem page_params_at {sizes : PageSizes} {p r : Params} {o offset limit : Nat} {count : Bool} (hpos : 0 < limit)
    (h : page_params sizes p = .ok (o, limit, count)) (hlimit : r "limit" = p "limit")
    (hoffset : parse_param r "offset" "invalid offset" 0 = .ok offset) (hrange : offset < 2 ^ 63) :
    page_params sizes r = .ok (offset, limit, decide (r "count" = some "true")) := by
  obtain ⟨hl, hmax, -⟩ := page_params_ok h
  have hl' : parse_param r "limit" "invalid limit" sizes.default_limit = .ok limit := by
    rw [← hl, parse_param, parse_param, hlimit]
  refine bind_eq_ok.mpr ⟨limit, hl', ?_⟩
  rw [if_neg (not_lt.mpr hmax), if_neg (fun hzero => hpos.ne' hzero.1)]
  refine bind_eq_ok.mpr ⟨offset, hoffset, if_neg ?_⟩
  omega

theorem Pruned.candidates {m m' : EntityMap} {wanted : String → Bool} (h : Pruned wanted m m') (params : Params) :
    (candidate_ids m' params).filter wanted = (candidate_ids m params).filter wanted ∧
      candidate_ids m' params ⊆ candidate_ids m params := by
  have hkeys := h.keys
  have hsub : m'.entityMap.keys ⊆ m.entityMap.keys := by
    obtain ⟨keep, -, rfl⟩ := h
    exact List.map_subset _ (List.filter_subset_self _)
  rw [candidate_ids, candidate_ids]
  cases params "id" with
  | none => exact ⟨hkeys, hsub⟩
  | some s =>
      refine ⟨?_, fun id hid => ?_⟩
      · rw [List.filter_comm, hkeys, List.filter_comm]
      · obtain ⟨hmem, hnamed⟩ := List.mem_filter.mp hid
        exact List.mem_filter.mpr ⟨hsub hmem, hnamed⟩

theorem candidates_sorted (m : EntityMap) (params : Params) : (candidate_ids m params).Pairwise (· < ·) := by
  have hkeys : m.entityMap.keys.Pairwise (· < ·) := List.pairwise_map.mpr m.entityMap.sorted
  rw [candidate_ids]
  cases params "id" with
  | none => exact hkeys
  | some s => exact hkeys.filter _

/-- The candidates of the map the filters select, in the order of the map. -/
def wanted_ids (stored : Stored) (env : Env Instant) (sel : Selection) (m : EntityMap) (params : Params) : List String :=
  (candidate_ids m params).filter (stored.wanted env sel)

def at_offset (params : Params) (offset : Nat) : Params :=
  insert_param params "offset" (String.ofList (NumberText.digits offset))

/-- Commas in ids get in no wanted entity's way, and no wanted entity has the id that stands for none. -/
structure Pageable (stored : Stored) (env : Env Instant) (sel : Selection) (m : EntityMap) (params : Params) : Prop where
  separable : Separable stored env sel (candidate_ids m params)
  unnamed : stored.wanted env sel EMPTY_PAGE = false

theorem mapError_ok {ε ε' α : Type} {f : ε → ε'} {x : Except ε α} {a : α} (h : x = .ok a) : x.mapError f = .ok a := by
  rw [h]
  rfl

section Requests

variable (hsel : selection env (remove_param params "id") = .ok sel) (hpattern : params "idPattern" = none)
include hsel hpattern

/-- The final fetch answers the page, and nothing where the page is empty. -/
theorem page_docs {p : Params} (hsame : SameFilters p params) {ids : List String} (hsorted : ids.Pairwise (· < ·))
    (hk : Separable stored env sel ids) (hw : ∀ id ∈ ids, stored.wanted env sel id = true)
    (hempty : stored.wanted env sel EMPTY_PAGE = false)
    (hids : p "id" = some (if ids = [] then EMPTY_PAGE else String.ofList (join ',' ids))) :
    filter_entities env p stored.docs.values = .ok (ids.filterMap stored.docs.get) := by
  by_cases hnil : ids = []
  · subst hnil
    rw [if_pos rfl] at hids
    have hparts : split_commas EMPTY_PAGE = [EMPTY_PAGE] := by decide
    have hvalid : valid_id EMPTY_PAGE = true := by decide
    rw [filter_by_ids stored hsel hpattern hsame hids (by rw [hparts]; simpa using hvalid), hparts, List.filterMap_nil,
      Except.ok.injEq, List.filter_eq_nil_iff]
    intro doc hdoc hselected
    obtain ⟨⟨key, doc'⟩, hentry, rfl⟩ := List.mem_map.mp hdoc
    have hget := BTreeMap.mem_entries.mp hentry
    rw [Bool.and_eq_true, stored.id_of hget, List.contains_iff_mem, List.mem_singleton] at hselected
    rw [Stored.wanted, ← hselected.1, hget, Option.any_some, hselected.2] at hempty
    cases hempty
  · rw [if_neg hnil] at hids
    rw [filter_by_ids stored hsel hpattern hsame hids (hk.valid_parts hnil), split_commas_join hnil, fetched_in_order hsorted hk hw]

theorem query_answers {sizes : PageSizes} {offset limit : Nat} {count : Bool} (hpos : 0 < limit) {m : EntityMap}
    (hpage : page_params sizes (at_offset params offset) = .ok (offset, limit, count))
    (hk : Pageable stored env sel m params) :
    ∃ a, query_entities_outer env stored.docs.values sizes (at_offset params offset) m = .ok a ∧
      Pruned (stored.wanted env sel) m a.map ∧
      a.page = (((wanted_ids stored env sel m params).drop offset).take limit).filterMap stored.docs.get ∧
      a.results_count = (if count then some (wanted_ids stored env sel m params).length else none) ∧
      (∀ next, a.next = some next → next = offset + limit ∧ next ≤ (wanted_ids stored env sel m params).length) ∧
      (a.next = none → (wanted_ids stored env sel m params).length ≤ offset + limit) := by
  have hbase : SameFilters (remove_param (at_offset params offset) "entityMap") params :=
    ((SameFilters.refl params).of_insert (by decide)).of_remove (by decide)
  have hcandidates : candidate_ids m (remove_param (at_offset params offset) "entityMap") = candidate_ids m params := by
    rw [candidate_ids, candidate_ids, remove_param_of_ne _ (by decide), at_offset, insert_param_of_ne _ _ (by decide)]
  have hpage' : page_params sizes (remove_param (at_offset params offset) "entityMap") = .ok (offset, limit, count) := by
    rw [← hpage, page_params, page_params, parse_param, parse_param, parse_param, parse_param,
      remove_param_of_ne _ (by decide), remove_param_of_ne _ (by decide), remove_param_of_ne _ (by decide)]
  have hwalked : SameFilters (remove_param (remove_param (remove_param (remove_param (at_offset params offset) "entityMap")
      "limit") "offset") "count") params :=
    ((hbase.of_remove (by decide)).of_remove (by decide)).of_remove (by decide)
  have hstart : Counted offset limit ⟨m, [], 0, 0, false, 0⟩ (([] : List String).filter (stored.wanted env sel)) :=
    ⟨rfl, by simp, by simp, by simp⟩
  obtain ⟨w, hwalk, hpruned, hids, htotal, hmore⟩ := walk_finds hsel hpattern hwalked hpos count
    (chunks_flatten (show 0 < max limit 20 by omega) (candidate_ids m params)) (chunks_ne_nil (by omega) _) hk.separable
    hstart rfl
  have hsublist : w.page_ids.Sublist (candidate_ids m params) := by
    rw [hids]
    exact ((List.take_sublist _ _).trans (List.drop_sublist _ _)).trans List.filter_sublist
  have hwanted : ∀ id ∈ w.page_ids, stored.wanted env sel id = true := by
    intro id hid
    rw [hids] at hid
    exact (List.mem_filter.mp (List.mem_of_mem_drop (List.mem_of_mem_take hid))).2
  have hlen : w.page_ids.length ≤ limit := by
    rw [hids, List.length_take]
    exact Nat.min_le_left _ _
  have hpage_len : (w.page_ids.filterMap stored.docs.get).length ≤ limit := (List.length_filterMap_le _ _).trans hlen
  let fixed := remove_param (remove_param (if w.page_ids = [] then
    insert_param (remove_param (at_offset params offset) "entityMap") "id" EMPTY_PAGE
    else with_ids (remove_param (at_offset params offset) "entityMap") w.page_ids) "offset") "count"
  have hfixed : SameFilters fixed params := by
    refine SameFilters.of_remove (SameFilters.of_remove ?_ (by decide)) (by decide)
    split_ifs
    · exact hbase.of_insert (by decide)
    · exact hbase.of_insert (by decide)
  have hfixed_id : fixed "id" = some (if w.page_ids = [] then EMPTY_PAGE else String.ofList (join ',' w.page_ids)) := by
    dsimp only [fixed]
    rw [remove_param_of_ne _ (by decide), remove_param_of_ne _ (by decide)]
    split_ifs
    · exact insert_param_self _ _ _
    · exact insert_param_self _ _ _
  have hfixed_limit : fixed "limit" = at_offset params offset "limit" := by
    dsimp only [fixed]
    rw [remove_param_of_ne _ (by decide), remove_param_of_ne _ (by decide)]
    split_ifs
    · rw [insert_param_of_ne _ _ (by decide), remove_param_of_ne _ (by decide)]
    · rw [with_ids, insert_param_of_ne _ _ (by decide), remove_param_of_ne _ (by decide)]
  have hfixed_offset : parse_param fixed "offset" "invalid offset" 0 = .ok 0 := by
    dsimp only [fixed]
    rw [parse_param, remove_param_of_ne _ (by decide), remove_param_self]
  have hfixed_page := page_params_at hpos hpage hfixed_limit hfixed_offset (by decide)
  have hdocs := page_docs hsel hpattern hfixed ((candidates_sorted m params).sublist hsublist)
    (hk.separable.subset hsublist.subset) hwanted hk.unnamed hfixed_id
  rw [← hcandidates] at hwalk
  refine ⟨{
    page := ((w.page_ids.filterMap stored.docs.get).drop 0).take limit
    results_count := if count then some w.total else none
    next := if (if count then decide (offset + limit < w.total) else w.more) && decide (0 < limit) then some (offset + limit)
      else none
    map := w.map }, ?_, hpruned, ?_, ?_, ?_, ?_⟩
  · refine bind_eq_ok.mpr ⟨_, hpage', bind_eq_ok.mpr ⟨w, mapError_ok hwalk, bind_eq_ok.mpr ⟨w.page_ids.filterMap stored.docs.get,
      mapError_ok ?_, map_eq_ok.mpr ⟨(0, limit, decide (fixed "count" = some "true")), ?_, ?_⟩⟩⟩⟩
    · rw [if_neg hpos.ne']
      exact hdocs
    · rw [if_neg hpos.ne']
      exact hfixed_page
    · rfl
  · rw [List.drop_zero, List.take_of_length_le hpage_len, hids]
    rfl
  · cases hc : count with
    | true =>
        dsimp only
        rw [if_pos rfl, if_pos rfl, htotal hc, wanted_ids]
    | false => rfl
  · intro next hnext
    dsimp only at hnext
    obtain ⟨hcond, hnext⟩ := Option.ite_none_right_eq_some.mp hnext
    rw [Option.some.injEq] at hnext
    rw [Bool.and_eq_true] at hcond
    refine ⟨hnext.symm, hnext ▸ ?_⟩
    cases hc : count with
    | true =>
        rw [hc, if_pos rfl, decide_eq_true_iff, htotal hc] at hcond
        exact hcond.1.le
    | false =>
        rw [hc, if_neg Bool.false_ne_true] at hcond
        exact (hmore hc).1 hcond.1
  · intro hnext
    dsimp only at hnext
    rw [decide_eq_true hpos, Bool.and_true] at hnext
    cases hc : count with
    | true =>
        rw [hc, if_pos rfl, htotal hc, ← wanted_ids] at hnext
        by_contra hlt
        rw [if_pos (decide_eq_true (not_le.mp hlt))] at hnext
        cases hnext
    | false =>
        rw [hc, if_neg Bool.false_ne_true] at hnext
        cases hmore' : w.more with
        | true =>
            rw [hmore', if_pos rfl] at hnext
            cases hnext
        | false => exact (hmore hc).2 hmore'

/-- From any offset inside the results, the requests that follow answer the rest of them. -/
theorem fetch_rest {sizes : PageSizes} {limit : Nat} {count : Bool} (hpos : 0 < limit) {m₀ : EntityMap}
    (hpage : page_params sizes (at_offset params 0) = .ok (0, limit, count)) (hk : Pageable stored env sel m₀ params)
    {fuel : Nat} {m : EntityMap} {offset : Nat} (hm : Pruned (stored.wanted env sel) m₀ m)
    (hoffset : offset ≤ (wanted_ids stored env sel m₀ params).length)
    (hfuel : (wanted_ids stored env sel m₀ params).length - offset < fuel) :
    ∃ answers, fetch_all env stored.docs.values sizes params fuel m offset = some answers ∧
      answers.flatMap Answer.page = ((wanted_ids stored env sel m₀ params).drop offset).filterMap stored.docs.get ∧
      ∀ a ∈ answers, a.results_count = (if count then some (wanted_ids stored env sel m₀ params).length else none) ∧
        Pruned (stored.wanted env sel) m₀ a.map := by
  induction fuel generalizing m offset with
  | zero => exact absurd hfuel (Nat.not_lt_zero _)
  | succ fuel ih =>
      obtain ⟨hids, hsub⟩ := hm.candidates params
      have hwanted : wanted_ids stored env sel m params = wanted_ids stored env sel m₀ params := hids
      have hrange : offset < 2 ^ 63 := by
        have hle : (wanted_ids stored env sel m₀ params).length ≤ m₀.entityMap.entries.length := by
          have hkeys : m₀.entityMap.keys.length = m₀.entityMap.entries.length := List.length_map _
          refine (List.length_filter_le _ _).trans ?_
          rw [candidate_ids, ← hkeys]
          cases params "id" with
          | none => exact le_rfl
          | some s => exact List.length_filter_le _ _
        have := m₀.addressable
        omega
      have hpage' : page_params sizes (at_offset params offset) = .ok (offset, limit, count) := by
        obtain ⟨-, -, hcount⟩ := page_params_ok hpage
        have hlimit : at_offset params offset "limit" = at_offset params 0 "limit" := by
          rw [at_offset, at_offset, insert_param_of_ne _ _ (by decide), insert_param_of_ne _ _ (by decide)]
        have hparse : parse_param (at_offset params offset) "offset" "invalid offset" 0 = .ok offset := by
          rw [parse_param, at_offset, insert_param_self]
          dsimp only
          rw [parse_usize_digits (hrange.trans (by decide))]
        rw [page_params_at hpos hpage hlimit hparse hrange, hcount, at_offset, at_offset, insert_param_of_ne _ _ (by decide),
          insert_param_of_ne _ _ (by decide)]
      obtain ⟨a, hquery, hpruned, hdocs, hresults, hnext, hlast⟩ := query_answers hsel hpattern hpos hpage'
        (m := m) ⟨hk.separable.subset hsub, hk.unnamed⟩
      rw [hwanted] at hdocs hresults hnext hlast
      rw [fetch_all, ← at_offset, hquery]
      dsimp only
      cases hn : a.next with
      | none =>
          refine ⟨[a], rfl, ?_, ?_⟩
          · rw [List.flatMap_singleton, hdocs, List.take_of_length_le]
            have := hlast hn
            rw [List.length_drop]
            omega
          · intro b hb
            rw [List.mem_singleton.mp hb]
            exact ⟨hresults, hm.trans hpruned⟩
      | some next =>
          obtain ⟨rfl, hle⟩ := hnext next hn
          obtain ⟨answers, hfetch, hpages, hall⟩ := ih (hm.trans hpruned) hle (by omega)
          refine ⟨a :: answers, ?_, ?_, ?_⟩
          · dsimp only
            rw [hfetch, Option.map_some]
          · rw [List.flatMap_cons, hdocs, hpages, ← List.filterMap_append, ← List.drop_drop, List.take_append_drop]
          · intro b hb
            rcases List.mem_cons.mp hb with rfl | hb
            · exact ⟨hresults, hm.trans hpruned⟩
            · exact hall b hb

/-- Paging through a map ends. Its pages are the candidates the filters select, each once and in the order of the map, the
count is their number, and none of them is removed from the map on the way. -/
theorem paging_complete {sizes : PageSizes} {limit : Nat} {count : Bool} (hpos : 0 < limit) {m : EntityMap}
    (hpage : page_params sizes (at_offset params 0) = .ok (0, limit, count)) (hk : Pageable stored env sel m params) :
    ∃ fuel answers, fetch_all env stored.docs.values sizes params fuel m 0 = some answers ∧
      answers.flatMap Answer.page = (wanted_ids stored env sel m params).filterMap stored.docs.get ∧
      ∀ a ∈ answers, a.results_count = (if count then some (wanted_ids stored env sel m params).length else none) ∧
        ∀ id ∈ m.entityMap.keys, stored.wanted env sel id = true → id ∈ a.map.entityMap.keys := by
  obtain ⟨answers, hfetch, hpages, hall⟩ := fetch_rest hsel hpattern hpos hpage hk (Pruned.refl _ m) (Nat.zero_le _)
    (Nat.lt_succ_self _)
  rw [List.drop_zero] at hpages
  refine ⟨_, answers, hfetch, hpages, fun a ha => ⟨(hall a ha).1, fun id hid hw => ?_⟩⟩
  have hkeys := (hall a ha).2.keys
  have hmem : id ∈ m.entityMap.keys.filter (stored.wanted env sel) := List.mem_filter.mpr ⟨hid, hw⟩
  rw [← hkeys] at hmem
  exact (List.mem_filter.mp hmem).1

end Requests

end Stored

def of_type (id : String) : Value := .object [("id", .string id), ("type", .array [.string "urn:T"])]

theorem of_type_keyed {ids : List String} {id : String} {doc : Value}
    (h : (ids.foldl (fun m id => BTreeMap.insert m id (of_type id)) BTreeMap.empty).get id = some doc) :
    id ∈ ids ∧ doc = of_type id := by
  induction ids using List.reverseRecOn with
  | nil => cases h
  | append_singleton ids last ih =>
      rw [List.foldl_append, List.foldl_cons, List.foldl_nil, BTreeMap.get_insert] at h
      split_ifs at h with hlast
      · rw [Option.some.injEq] at h
        exact ⟨hlast ▸ List.mem_append_right _ (List.mem_singleton_self _), by rw [← h, hlast]⟩
      · exact ⟨List.mem_append_left _ (ih h).1, (ih h).2⟩

/-- Entities of one type and nothing else. -/
def stored_ids (ids : List String) (h : ∀ id ∈ ids, valid_id id = true) : Stored where
  docs := ids.foldl (fun m id => m.insert id (of_type id)) BTreeMap.empty
  keyed id doc hget := by rw [(of_type_keyed hget).2]; rfl
  valid id doc hget := h id (of_type_keyed hget).1

/-- A map of local entities only. -/
def local_map (ids : List String) (h : (ids.foldl (fun m id => m.insert id (.array [.string "@none"]))
    (BTreeMap.empty : BTreeMap String Value)).entries.length < 2 ^ 63) : EntityMap := ⟨_, h⟩

def sizes : PageSizes := ⟨20, 1000⟩

theorem rooms_valid : ∀ id ∈ ["urn:1", "urn:2", "urn:3"], valid_id id = true := by decide

theorem rooms_few : (["urn:1", "urn:2", "urn:3"].foldl (fun m id => BTreeMap.insert m id (Value.array [.string "@none"]))
    BTreeMap.empty).entries.length < 2 ^ 63 := by decide

def of_type_T : Params := insert_param (insert_param (fun _ => none) "type" "T") "limit" "2"

def rooms_selection : Selection := ⟨none, none, some [["urn:T"]], none, none, none, none⟩

theorem paging_complete_rooms :
    ∃ fuel answers, fetch_all plain_env (stored_ids _ rooms_valid).docs.values sizes of_type_T fuel (local_map _ rooms_few) 0 =
        some answers ∧
      answers.flatMap Answer.page = [of_type "urn:1", of_type "urn:2", of_type "urn:3"] := by
  have hpattern : of_type_T "idPattern" = none := by decide
  have hq : of_type_T "q" = none := by decide
  have htypes : ((remove_param of_type_T "id" "type").filter (· ≠ "*")).map (type_selection plain_env.expand) =
      some [["urn:T"]] := by decide
  have hsel : selection plain_env (remove_param of_type_T "id") = .ok rooms_selection := by
    refine bind_eq_ok.mpr ⟨none, ?_, bind_eq_ok.mpr ⟨none, ?_, bind_eq_ok.mpr ⟨none, ?_, map_eq_ok.mpr ⟨none, rfl, ?_⟩⟩⟩⟩
    · rw [selected_ids, remove_param_self]
    · rw [id_pattern, remove_param_of_ne _ (by decide), hpattern]
    · rw [q_ast, remove_param_of_ne _ (by decide), hq]
    · rw [htypes]
      rfl
  have hpage : page_params sizes (at_offset of_type_T 0) = .ok (0, 2, false) := by decide
  have hids : candidate_ids (local_map _ rooms_few) of_type_T = ["urn:1", "urn:2", "urn:3"] := by decide
  have hk : Pageable (stored_ids _ rooms_valid) plain_env rooms_selection (local_map _ rooms_few) of_type_T := by
    refine ⟨⟨?_, ?_⟩, ?_⟩
    · rw [hids]
      decide
    · rw [hids]
      decide
    · decide
  obtain ⟨fuel, answers, hfetch, hpages, -⟩ := paging_complete hsel hpattern (by decide) hpage hk
  refine ⟨fuel, answers, hfetch, hpages.trans ?_⟩
  decide

theorem comma_valid : ∀ id ∈ ["urn:a,urn:b"], valid_id id = true := by decide

theorem comma_few : (["urn:a,urn:b"].foldl (fun m id => BTreeMap.insert m id (Value.array [.string "@none"]))
    BTreeMap.empty).entries.length < 2 ^ 63 := by decide

/-- An entity whose id has a comma in it is taken for two, found under neither and lost from the map. -/
theorem paging_loses_comma :
    candidate_ids (local_map _ comma_few) of_type_T = ["urn:a,urn:b"] ∧
      (stored_ids _ comma_valid).wanted plain_env rooms_selection "urn:a,urn:b" = true ∧
      (fetch_all plain_env (stored_ids _ comma_valid).docs.values sizes of_type_T 2 (local_map _ comma_few) 0).map
        (fun answers => answers.map (fun a => (a.page, a.map.entityMap.keys))) = some [([], [])] := by
  decide

end AntaresBroker.Entities
