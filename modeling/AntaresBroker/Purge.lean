import AntaresBroker.BatchParity
import AntaresBroker.EntityMaps
import AntaresBroker.PagedWalk
import AntaresBroker.Temporal

namespace AntaresBroker.Purge

open Entities Expiry Fallible Json PagedWalk
open Temporal (is_meta)

variable {Instant : Type} [LinearOrder Instant] {env : Env Instant}

inductive PurgeError
  | Query (e : Ql.NgsiError)
  | TooManyResults

/-- What the clocks say in one round: of the database as it cuts the page, of
the broker as it reads the page and as it writes each entity, and of the
database as it locks them. -/
structure Readings (Instant : Type) where
  selected : Instant
  read : String
  written : String → String
  locked : Instant

/-- All of a selection but the pattern of ids, which no store is told of. -/
def pushed (env : Env Instant) (sel : Selection) (doc : Value) : Bool :=
  sel.ids.all (fun ids => ids.contains (id_of doc)) &&
    sel.types.all (fun types => type_matches types doc) &&
    sel.attrs.all (fun attrs => attrs.any (fun a => (doc.get a).isSome)) &&
    sel.q.all (fun ast => Ql.Eval.eval_q env.chrono env.toEnv ast doc) &&
    sel.scope_q.all (fun sq => Ql.Scope.scope_matches sq doc) &&
    sel.geo.all (fun matches_geo => matches_geo doc)

/-- An id selector takes precedence over a pattern. -/
def fits_pattern (sel : Selection) (id : String) : Bool := sel.ids.isSome || sel.id_pattern.all (fun is_match => is_match id)

theorem selects_eq (sel : Selection) (doc : Value) :
    sel.selects env doc = (pushed env sel doc && fits_pattern sel (id_of doc)) := by
  apply Bool.eq_iff_iff.mpr
  simp only [Selection.selects, pushed, fits_pattern, Bool.and_eq_true]
  tauto

/-- A database that is handed the query: the condition it puts on its rows, which
is the query itself once it says so and admits no less otherwise. -/
structure Pushdown (env : Env Instant) where
  wheres : Selection → Value → Bool
  decided : Selection → Bool
  timestamptz : String → Option Instant
  exact_of_decided : ∀ sel doc, decided sel = true → wheres sel doc = pushed env sel doc
  loose : ∀ sel doc, sel.selects env doc = true → wheres sel doc = true

def Pushdown.live (sql : Pushdown env) (now : Instant) (doc : Value) : Bool :=
  (((doc.get "expiresAt").bind Value.as_str).bind sql.timestamptz).all (fun expires_at => now < expires_at)

/-- The store behind the seam. -/
inductive Driver (env : Env Instant)
  | Mem
  | Pg (sql : Pushdown env)

structure QueryOutcome where
  rows : List Value
  decided : Bool
  paged : Bool

def MAX_UNDECIDED_ROWS : Nat := 10000

def Driver.query (driver : Driver env) (t : Readings Instant) (sel : Selection) (offset limit : Nat) (s : Stored) :
    Except PurgeError QueryOutcome :=
  match driver with
  | .Mem => .ok ⟨s.docs.values, false, false⟩
  | .Pg sql =>
      let listed := s.docs.values.filter (fun doc => sql.wheres sel doc && sql.live t.selected doc)
      if sql.decided sel then .ok ⟨(listed.drop offset).take limit, true, true⟩
      else
        let rows := listed.take MAX_UNDECIDED_ROWS
        if rows.length < MAX_UNDECIDED_ROWS then .ok ⟨rows, false, false⟩ else .error .TooManyResults

/-- Expired instances go at the read boundary, with the entities that have. -/
def query_entities (driver : Driver env) (t : Readings Instant) (sel : Selection) (offset limit : Nat) (s : Stored) :
    Except PurgeError QueryOutcome :=
  (driver.query t sel offset limit s).map (fun outcome =>
    { outcome with rows := outcome.rows.filterMap (strip_expired env.chrono t.read) })

structure Filtered where
  docs : List Value
  paged : Bool
  rows : Nat

def survives (env : Env Instant) (sel : Selection) (decided : Bool) (doc : Value) : Bool :=
  if decided then fits_pattern sel (id_of doc) else sel.selects env doc

def filter_entities_paged (driver : Driver env) (t : Readings Instant) (params : Params) (page : Nat × Nat) (s : Stored) :
    Except PurgeError Filtered :=
  ((selection env params).mapError PurgeError.Query).bind fun sel =>
  (query_entities driver t sel page.1 page.2 s).map fun outcome =>
    { docs := (merge_candidates outcome.rows).filter (survives env sel outcome.decided)
      paged := outcome.paged
      rows := outcome.rows.length }

section Writes

/-- What becomes of each entity, which keeps its members that are no attributes. -/
structure Rewrite where
  act : String → Value → Option Value
  keeps : ∀ id doc doc', act id doc = some doc' → ∀ k, is_meta k = true → doc'.get k = doc.get k

/-- The rewrite of some entities alone. -/
def Rewrite.only (rw : Rewrite) (p : String → Value → Bool) : Rewrite where
  act id doc := if p id doc then rw.act id doc else some doc
  keeps id doc doc' h k hk := by
    split_ifs at h with hp
    · exact rw.keeps id doc doc' h k hk
    · cases h
      rfl

def deletion : Rewrite where
  act _ _ := none
  keeps _ _ _ h := by cases h

def rewrite (rw : Rewrite) (s : Stored) : Stored where
  docs := s.docs.edit rw.act
  keyed id doc' h := by
    rw [BTreeMap.get_edit] at h
    obtain ⟨doc, hdoc, hact⟩ := Option.bind_eq_some_iff.mp h
    rw [rw.keeps id doc doc' hact "id" (by decide)]
    exact s.keyed id doc hdoc
  valid id doc' h := by
    rw [BTreeMap.get_edit] at h
    obtain ⟨doc, hdoc, -⟩ := Option.bind_eq_some_iff.mp h
    exact s.valid id doc hdoc

variable (keep drop : Option (List String))

/-- The attributes that a purge takes from an entity it keeps. -/
def purges (a : String) : Bool :=
  match keep, drop with
  | some keep, _ => !(keep.contains a)
  | none, some drop => drop.contains a
  | none, none => true

def goes (k : String) : Bool := !is_meta k && purges keep drop k

def pruned (doc : Value) : Value :=
  match doc with
  | .object target => .object (target.filter (fun p => !goes keep drop p.1))
  | v => v

def changes (doc : Value) : Bool :=
  match doc with
  | .object target => (target.filter (fun p => !goes keep drop p.1)).length ≠ target.length
  | _ => false

theorem get_pruned (doc : Value) (k : String) : (pruned keep drop doc).get k = if goes keep drop k then none else doc.get k := by
  cases doc with
  | object target =>
      rw [pruned, Value.get, Value.get, BatchStore.lookup_filter_key (fun k => !goes keep drop k)]
      cases goes keep drop k <;> rfl
  | _ => exact (ite_self _).symm

def pruning : Rewrite where
  act _ doc := some (pruned keep drop doc)
  keeps id doc doc' h k hk := by
    cases h
    rw [get_pruned, goes, hk]
    rfl

/-- The whole entity, or what the lists leave of it. -/
def treatment : Rewrite := if keep.isSome || drop.isSome then pruning keep drop else deletion

end Writes

/-- A write refuses an entity that has expired. -/
def Driver.writable (driver : Driver env) (t : Readings Instant) (id : String) (doc : Value) : Bool :=
  match driver with
  | .Mem => !expired_at env.chrono doc (t.written id)
  | .Pg sql => sql.live t.locked doc

section Batches

variable (driver : Driver env) (t : Readings Instant)

/-- One entity after another, and how many of those written count. -/
def batch (rw : Rewrite) (counts : Value → Bool) (ids : List String) (s : Stored) : Stored × Nat :=
  ids.foldl (fun acc id =>
    (rewrite (rw.only (fun k doc => k = id && driver.writable t id doc)) acc.1,
      acc.2 + if (acc.1.docs.get id).any (fun doc => driver.writable t id doc && counts doc) then 1 else 0)) (s, 0)

def batch_delete (ids : List String) (s : Stored) : Stored × Nat := batch driver t deletion (fun _ => true) ids s

def batch_mutate (keep drop : Option (List String)) (ids : List String) (s : Stored) : Stored × Nat :=
  batch driver t (pruning keep drop) (changes keep drop) ids s

end Batches

def PURGE_CHUNK : Nat := 500

def next_scan_offset (offset rows left_the_set : Nat) (paged : Bool) (chunk : Nat) : Option Nat :=
  if !paged || rows < chunk then none else some (offset + (rows - left_the_set))

section Walk

variable (driver : Driver env) (params : Params) (keep drop : Option (List String))

def purge_round (t : Readings Instant) (s : Stored) (offset : Nat) : Except PurgeError (Stored × Option Nat) :=
  (filter_entities_paged driver t params (offset, PURGE_CHUNK) s).map fun found =>
    let ids := found.docs.filterMap (fun d => (d.get "id").bind Value.as_str)
    let applied :=
      if ids.isEmpty then (s, 0)
      else if keep.isSome || drop.isSome then
        let r := batch_mutate driver t keep drop ids s
        -- an entity pruned of what the query matched on has left the set, and
        -- only another reading of the window says so
        (r.1, if 0 < r.2 then found.rows else 0)
      else batch_delete driver t ids s
    (applied.1, next_scan_offset offset found.rows applied.2 found.paged PURGE_CHUNK)

/-- One turn of the loop. -/
def turn (clock : Nat → Readings Instant) (n : Nat) (st : Stored × Nat) : (Stored × Except PurgeError Unit) ⊕ (Stored × Nat) :=
  match purge_round driver params keep drop (clock n) st.1 st.2 with
  | .error e => .inl (st.1, .error e)
  | .ok (s, none) => .inl (s, .ok ())
  | .ok (s, some next) => .inr (s, next)

/-- The purge of the local store, given the fuel of so many rounds. -/
def purge_locally (clock : Nat → Readings Instant) (fuel : Nat) (s : Stored) : Option (Stored × Except PurgeError Unit) :=
  rounds (turn driver params keep drop clock) fuel 0 (s, 0)

end Walk

section Stripping

variable {chrono : Chrono Instant} {now : String}

theorem strip_attribute_name {k : String} {v : Value} {q : String × Value} (h : strip_attribute chrono now k v = some q) :
    q.1 = k := by
  cases v with
  | array items =>
      simp only [strip_attribute] at h
      split_ifs at h <;> cases h <;> rfl
  | null | bool _ | number _ | string _ | object _ =>
      rw [strip_attribute] at h
      · cases h
        rfl
      · intro items hitems
        cases hitems

theorem lookup_strip_string {k s : String} {m : Map} (h : m.lookup k = some (.string s)) :
    (strip_members chrono now m).lookup k = some (.string s) := by
  rw [strip_members_eq]
  induction m with
  | nil => cases h
  | cons p m ih =>
      obtain ⟨k', v⟩ := p
      rw [List.filterMap_cons]
      rw [List.lookup_cons] at h
      by_cases hk : k = k'
      · subst hk
        rw [beq_self_eq_true] at h
        cases h
        rw [strip_member, strip_attribute]
        · exact List.lookup_cons_self
        · intro items hitems
          cases hitems
      · rw [beq_eq_false_iff_ne.mpr hk] at h
        cases hs : strip_member chrono now (k', v) with
        | none => exact ih h
        | some q =>
            rw [strip_member] at hs
            have hq : (k == q.1) = false := by rwa [strip_attribute_name hs, beq_eq_false_iff_ne]
            rw [List.lookup_cons, hq]
            exact ih h

theorem strip_expired_isSome {doc : Value} (hdoc : doc.is_object = true) :
    (strip_expired chrono now doc).isSome = !expired_at chrono doc now := by
  cases doc with
  | object m =>
      rw [strip_expired]
      cases expired_at chrono (.object m) now <;> rfl
  | null | bool _ | number _ | string _ | array _ => cases hdoc

theorem strip_expired_id {doc doc' : Value} {id : String} (hid : (doc.get "id").bind Value.as_str = some id)
    (h : strip_expired chrono now doc = some doc') : (doc'.get "id").bind Value.as_str = some id := by
  obtain ⟨v, hv, hs⟩ := Option.bind_eq_some_iff.mp hid
  cases doc with
  | object m =>
      rw [strip_expired] at h
      split_ifs at h
      cases h
      have hstring : v = .string id := by
        cases v with
        | string s => exact congrArg Value.string (Option.some.inj hs)
        | null | bool _ | number _ | array _ | object _ => cases hs
      rw [Value.get, lookup_strip_string (hstring ▸ hv)]
      rfl
  | null | bool _ | number _ | string _ | array _ => cases hv

end Stripping

section Stored

theorem stored_ext {s s' : Stored} (h : ∀ id, s.docs.get id = s'.docs.get id) : s = s' := by
  obtain ⟨docs, _, _⟩ := s
  obtain ⟨docs', _, _⟩ := s'
  obtain rfl : docs = docs' := BTreeMap.ext_get h
  rfl

theorem get_rewrite (rw : Rewrite) (s : Stored) (id : String) :
    (rewrite rw s).docs.get id = (s.docs.get id).bind (rw.act id) := BTreeMap.get_edit s.docs rw.act id

theorem is_object_of_get {s : Stored} {id : String} {doc : Value} (h : s.docs.get id = some doc) : doc.is_object = true := by
  have hid := s.keyed id doc h
  cases doc with
  | object m => rfl
  | null | bool _ | number _ | string _ | array _ => cases hid

end Stored

section Batches

variable (driver : Driver env) (t : Readings Instant) (rw : Rewrite) (counts : Value → Bool)

/-- What a batch does to the entities it names. -/
def batched (ids : List String) : Rewrite := rw.only (fun k doc => ids.contains k && driver.writable t k doc)

theorem batched_of_not_mem {ids : List String} {id : String} (h : id ∉ ids) (doc : Value) :
    (batched driver t rw ids).act id doc = some doc := by
  refine if_neg ?_
  simp [h]

theorem batched_of_mem {ids : List String} {id : String} (h : id ∈ ids) (doc : Value) :
    (batched driver t rw ids).act id doc = if driver.writable t id doc then rw.act id doc else some doc := by
  simp [batched, Rewrite.only, h]

theorem rewrite_batched_nil (s : Stored) : rewrite (batched driver t rw []) s = s := by
  refine stored_ext fun id => ?_
  rw [get_rewrite]
  exact (Option.bind_congr fun doc _ => batched_of_not_mem driver t rw List.not_mem_nil doc).trans (Option.bind_fun_some _)

theorem batch_append (ids : List String) (id : String) (s : Stored) :
    batch driver t rw counts (ids ++ [id]) s =
      (rewrite (rw.only (fun k doc => k = id && driver.writable t id doc)) (batch driver t rw counts ids s).1,
        (batch driver t rw counts ids s).2 + if ((batch driver t rw counts ids s).1.docs.get id).any
          (fun doc => driver.writable t id doc && counts doc) then 1 else 0) := List.foldl_concat _ _ _ _

theorem batch_eq {ids : List String} (h : ids.Nodup) (s : Stored) : batch driver t rw counts ids s =
    (rewrite (batched driver t rw ids) s,
      (ids.filter (fun id => (s.docs.get id).any (fun doc => driver.writable t id doc && counts doc))).length) := by
  induction ids using List.reverseRecOn with
  | nil =>
      exact Prod.ext (rewrite_batched_nil driver t rw s).symm rfl
  | append_singleton ids id ih =>
      obtain ⟨hids, -, hid⟩ := List.nodup_append.mp h
      have hnotin : id ∉ ids := fun hmem => hid id hmem id (List.mem_singleton_self id) rfl
      have hheld : (rewrite (batched driver t rw ids) s).docs.get id = s.docs.get id := by
        rw [get_rewrite]
        exact (Option.bind_congr fun doc _ => batched_of_not_mem driver t rw hnotin doc).trans (Option.bind_fun_some _)
      rw [batch_append, ih hids, hheld]
      refine Prod.ext (stored_ext fun k => ?_) ?_
      · rw [get_rewrite, get_rewrite, get_rewrite]
        by_cases hk : k = id
        · subst hk
          rw [get_rewrite] at hheld
          rw [hheld]
          refine Option.bind_congr fun doc _ => ?_
          rw [batched, Rewrite.only, Rewrite.only]
          simp
        · rw [Option.bind_assoc]
          refine Option.bind_congr fun doc _ => ?_
          rw [batched, batched, Rewrite.only, Rewrite.only, Rewrite.only]
          simp [hk]
      · rw [List.filter_append, List.length_append, List.filter_singleton]
        cases (s.docs.get id).any (fun doc => driver.writable t id doc && counts doc) <;> rfl

end Batches

section Rounds

variable (driver : Driver env) (t : Readings Instant) (sel : Selection)

def Driver.decides : Bool :=
  match driver with
  | .Mem => false
  | .Pg sql => sql.decided sel

def Driver.listed (p : String × Value) : Bool :=
  match driver with
  | .Mem => true
  | .Pg sql => sql.wheres sel p.2 && sql.live t.selected p.2

/-- The entities a round is about, a page of those listed or all. -/
def Driver.part (offset limit : Nat) (s : Stored) : List (String × Value) :=
  if driver.decides sel then page (driver.listed t sel) offset limit s.docs.entries
  else s.docs.entries.filter (driver.listed t sel)

variable {driver t sel} {offset limit : Nat} {s : Stored}

theorem part_sublist : (driver.part t sel offset limit s).Sublist s.docs.entries := by
  rw [Driver.part]
  split_ifs
  · exact page_sublist
  · exact List.filter_sublist

theorem get_of_part {p : String × Value} (h : p ∈ driver.part t sel offset limit s) : s.docs.get p.1 = some p.2 :=
  BTreeMap.mem_entries.mp (part_sublist.subset h)

theorem part_names_nodup : ((driver.part t sel offset limit s).map Prod.fst).Nodup :=
  (keys_nodup s.docs).sublist (part_sublist.map Prod.fst)

theorem filter_values (p : Value → Bool) (m : BTreeMap String Value) :
    m.values.filter p = (m.entries.filter (fun e => p e.2)).map Prod.snd := List.filter_map

theorem query_ok {outcome : QueryOutcome} (h : driver.query t sel offset limit s = .ok outcome) :
    outcome = ⟨(driver.part t sel offset limit s).map Prod.snd, driver.decides sel, driver.decides sel⟩ := by
  cases driver with
  | Mem =>
      cases h
      have hall : s.docs.entries.filter (fun _ => true) = s.docs.entries := List.filter_true _
      rw [Driver.part, Driver.decides, if_neg Bool.false_ne_true]
      exact congrArg (QueryOutcome.mk · false false) (congrArg (List.map Prod.snd) hall.symm)
  | Pg sql =>
      rw [Driver.query, filter_values] at h
      dsimp only at h
      rw [Driver.part, Driver.decides]
      split_ifs at h with hdec hmax
      · cases h
        rw [hdec, if_pos rfl, page, List.map_take, List.map_drop]
        rfl
      · cases h
        rw [List.length_take, min_lt_iff, or_iff_right (lt_irrefl _)] at hmax
        rw [if_neg hdec, Bool.not_eq_true _ |>.mp hdec, List.take_of_length_le hmax.le]
        rfl

theorem query_error {e : PurgeError} (h : driver.query t sel offset limit s = .error e) : driver.decides sel = false := by
  cases driver with
  | Mem => rfl
  | Pg sql =>
      rw [Driver.query] at h
      dsimp only at h
      split_ifs at h with hdec hmax
      exact Bool.not_eq_true _ |>.mp hdec

variable (driver t sel offset limit s)

/-- The entities of a round that outlive the filter. -/
def chosen : List (String × Value) :=
  (driver.part t sel offset limit s).filter (fun p =>
    (strip_expired env.chrono t.read p.2).any (survives env sel (driver.decides sel)))

variable {driver t sel offset limit s}

theorem filterMap_ids {strip : Value → Option Value} {kept : Value → Bool} {rows : List (String × Value)}
    (hid : ∀ p ∈ rows, ∀ doc, strip p.2 = some doc → (doc.get "id").bind Value.as_str = some p.1) :
    (((rows.map Prod.snd).filterMap strip).filter kept).filterMap (fun d => (d.get "id").bind Value.as_str) =
      (rows.filter (fun p => (strip p.2).any kept)).map Prod.fst := by
  induction rows with
  | nil => rfl
  | cons p rows ih =>
      rw [List.forall_mem_cons] at hid
      have hrest := ih hid.2
      rw [List.map_cons, List.filterMap_cons, List.filter_cons]
      cases hs : strip p.2 with
      | none =>
          rw [Option.any_none, if_neg Bool.false_ne_true]
          exact hrest
      | some doc =>
          rw [Option.any_some, List.filter_cons]
          split_ifs with hk
          · rw [List.filterMap_cons, hid.1 doc hs, List.map_cons, hrest]
          · exact hrest

/-- What a round's reading finds. -/
theorem filter_ok {params : Params} {found : Filtered}
    (h : filter_entities_paged driver t params (offset, limit) s = .ok found) :
    ∃ sel, selection env params = .ok sel ∧ found.paged = driver.decides sel ∧
      found.rows = ((driver.part t sel offset limit s).filter (fun p => !expired_at env.chrono p.2 t.read)).length ∧
      found.docs.filterMap (fun d => (d.get "id").bind Value.as_str) = (chosen driver t sel offset limit s).map Prod.fst := by
  obtain ⟨sel, hsel, h⟩ := bind_eq_ok.mp h
  obtain ⟨outcome, houtcome, rfl⟩ := map_eq_ok.mp h
  obtain ⟨listed, hlisted, rfl⟩ := map_eq_ok.mp houtcome
  obtain rfl := query_ok hlisted
  have hid : ∀ p ∈ driver.part t sel offset limit s, ∀ doc, strip_expired env.chrono t.read p.2 = some doc →
      (doc.get "id").bind Value.as_str = some p.1 := fun p hp doc hdoc =>
    strip_expired_id (s.keyed p.1 p.2 (get_of_part hp)) hdoc
  have hmerge : merge_candidates (((driver.part t sel offset limit s).map Prod.snd).filterMap (strip_expired env.chrono t.read)) =
      ((driver.part t sel offset limit s).map Prod.snd).filterMap (strip_expired env.chrono t.read) := by
    have hrows : ((driver.part t sel offset limit s).map Prod.snd).filterMap (strip_expired env.chrono t.read) =
        ((driver.part t sel offset limit s).filterMap (fun p =>
          (strip_expired env.chrono t.read p.2).map (Prod.mk p.1))).map Prod.snd := by
      rw [List.filterMap_map, List.map_filterMap]
      refine List.filterMap_congr fun p _ => ?_
      rw [Option.map_map]
      exact Option.map_id'.symm
    rw [hrows]
    refine merge_entries (fun q hq => ?_) ?_
    · obtain ⟨p, hp, hq⟩ := List.mem_filterMap.mp hq
      obtain ⟨doc, hdoc, rfl⟩ := Option.map_eq_some_iff.mp hq
      exact hid p hp doc hdoc
    · refine List.pairwise_map.mpr (List.Pairwise.filterMap _ ?_ (List.pairwise_map.mp part_names_nodup))
      intro p q hpq p' hp q' hq
      obtain ⟨doc, -, rfl⟩ := Option.map_eq_some_iff.mp hp
      obtain ⟨doc', -, rfl⟩ := Option.map_eq_some_iff.mp hq
      exact hpq
  refine ⟨sel, ?_, rfl, ?_, ?_⟩
  · cases hs : selection env params with
    | error e =>
        rw [hs] at hsel
        cases hsel
    | ok sel' =>
        rw [hs] at hsel
        cases hsel
        rfl
  · dsimp only
    rw [List.filterMap_map, List.length_filterMap_eq_countP, ← List.countP_eq_length_filter]
    refine List.countP_congr fun p hp => ?_
    rw [Function.comp_apply, strip_expired_isSome (is_object_of_get (get_of_part hp))]
  · dsimp only
    rw [hmerge, filterMap_ids hid]
    rfl

end Rounds

section Spec

variable (driver : Driver env) (keep drop : Option (List String)) (t : Readings Instant) (sel : Selection) (offset : Nat)
  (s : Stored)

/-- What a round counts: the entities deleted, or those it took an attribute from. -/
def counts (doc : Value) : Bool := !(keep.isSome || drop.isSome) || changes keep drop doc

def counted : Nat := (chosen driver t sel offset PURGE_CHUNK s).countP (fun p => driver.writable t p.1 p.2 && counts keep drop p.2)

def rows_read : Nat := (driver.part t sel offset PURGE_CHUNK s).countP (fun p => !expired_at env.chrono p.2 t.read)

def left_the_set : Nat :=
  let n := counted driver keep drop t sel offset s
  if keep.isSome || drop.isSome then if 0 < n then rows_read driver t sel offset s else 0 else n

def after : Stored :=
  rewrite (batched driver t (treatment keep drop) ((chosen driver t sel offset PURGE_CHUNK s).map Prod.fst)) s

theorem changes_pruned (doc : Value) : changes keep drop (pruned keep drop doc) = false := by
  cases doc with
  | object target => simp [pruned, changes]
  | null | bool _ | number _ | string _ | array _ => rfl

theorem pruned_of_unchanged {doc : Value} (h : changes keep drop doc = false) : pruned keep drop doc = doc := by
  cases doc with
  | object target =>
      rw [changes, decide_eq_false_iff_not, not_not, List.length_filter_eq_length_iff] at h
      rw [pruned, List.filter_eq_self.mpr h]
  | null | bool _ | number _ | string _ | array _ => rfl

/-- An entity once treated is not touched again. -/
theorem counts_treated {id : String} {doc doc' : Value} (h : (treatment keep drop).act id doc = some doc') :
    counts keep drop doc' = false := by
  rw [treatment] at h
  rw [counts]
  split_ifs at h with hprune
  · cases h
    rw [hprune, changes_pruned]
    rfl
  · cases h

theorem treatment_of_uncounted {doc : Value} (h : counts keep drop doc = false) (id : String) :
    (treatment keep drop).act id doc = some doc := by
  rw [counts, Bool.or_eq_false_iff, Bool.not_eq_false'] at h
  rw [treatment, if_pos h.1]
  exact congrArg some (pruned_of_unchanged keep drop h.2)

variable {driver keep drop t sel offset s}

theorem chosen_names_nodup : ((chosen driver t sel offset PURGE_CHUNK s).map Prod.fst).Nodup :=
  part_names_nodup.sublist (List.filter_sublist.map Prod.fst)

theorem mem_chosen {p : String × Value} : p ∈ chosen driver t sel offset PURGE_CHUNK s ↔
    p ∈ driver.part t sel offset PURGE_CHUNK s ∧
      (strip_expired env.chrono t.read p.2).any (survives env sel (driver.decides sel)) = true := List.mem_filter

theorem name_chosen {id : String} {doc : Value} (h : s.docs.get id = some doc) :
    id ∈ (chosen driver t sel offset PURGE_CHUNK s).map Prod.fst ↔ (id, doc) ∈ chosen driver t sel offset PURGE_CHUNK s := by
  constructor
  · intro hid
    obtain ⟨⟨id', doc'⟩, hp, rfl⟩ := List.mem_map.mp hid
    have hget := get_of_part (mem_chosen.mp hp).1
    rw [h] at hget
    cases hget
    exact hp
  · exact fun hp => List.mem_map.mpr ⟨_, hp, rfl⟩

theorem batch_chosen (rw : Rewrite) (count : Value → Bool) :
    batch driver t rw count ((chosen driver t sel offset PURGE_CHUNK s).map Prod.fst) s =
      (rewrite (batched driver t rw ((chosen driver t sel offset PURGE_CHUNK s).map Prod.fst)) s,
        (chosen driver t sel offset PURGE_CHUNK s).countP (fun p => driver.writable t p.1 p.2 && count p.2)) := by
  rw [batch_eq driver t rw count chosen_names_nodup]
  refine congrArg _ ?_
  rw [← List.countP_eq_length_filter, List.countP_map]
  refine List.countP_congr fun p hp => ?_
  rw [Function.comp_apply, get_of_part (mem_chosen.mp hp).1, Option.any_some]

/-- What a round does, where its query is answered. -/
theorem round_ok {params : Params} {s' : Stored} {next : Option Nat}
    (h : purge_round driver params keep drop t s offset = .ok (s', next)) :
    ∃ sel, selection env params = .ok sel ∧ s' = after driver keep drop t sel offset s ∧
      next = next_scan_offset offset (rows_read driver t sel offset s) (left_the_set driver keep drop t sel offset s)
        (driver.decides sel) PURGE_CHUNK := by
  obtain ⟨found, hfound, heq⟩ := map_eq_ok.mp h
  obtain ⟨sel, hsel, hpaged, hrows, hids⟩ := filter_ok hfound
  rw [← List.countP_eq_length_filter] at hrows
  dsimp only at heq
  rw [hids, hpaged, hrows, batch_mutate, batch_delete, batch_chosen, batch_chosen] at heq
  suffices happlied : after driver keep drop t sel offset s = s' ∧
      next_scan_offset offset (rows_read driver t sel offset s) (left_the_set driver keep drop t sel offset s)
        (driver.decides sel) PURGE_CHUNK = next from ⟨sel, hsel, happlied.1.symm, happlied.2.symm⟩
  rw [after, left_the_set, counted, treatment, rows_read]
  by_cases hnone : chosen driver t sel offset PURGE_CHUNK s = []
  · rw [hnone] at heq ⊢
    obtain ⟨rfl, rfl⟩ := Prod.mk.inj heq
    refine ⟨rewrite_batched_nil driver t _ s, ?_⟩
    simp
  · rw [if_neg (by simpa using hnone)] at heq
    by_cases hprune : (keep.isSome || drop.isSome) = true
    · rw [if_pos hprune] at heq ⊢
      obtain ⟨rfl, rfl⟩ := Prod.mk.inj heq
      refine ⟨rfl, ?_⟩
      simp only [counts, hprune, Bool.not_true, Bool.false_or, if_true]
    · rw [if_neg hprune] at heq ⊢
      obtain ⟨rfl, rfl⟩ := Prod.mk.inj heq
      refine ⟨rfl, ?_⟩
      simp only [counts, Bool.eq_false_iff.mpr hprune, Bool.not_false, Bool.true_or]
      rfl

end Spec

section Ending

variable {driver : Driver env} {keep drop : Option (List String)} {t : Readings Instant} {sel : Selection} {offset : Nat}
  {s : Stored}

theorem next_scan_offset_some {rows left chunk next : Nat} {paged : Bool}
    (h : next_scan_offset offset rows left paged chunk = some next) :
    paged = true ∧ chunk ≤ rows ∧ next = offset + (rows - left) := by
  rw [next_scan_offset] at h
  split_ifs at h with hend
  cases h
  rw [Bool.or_eq_true, not_or, decide_eq_true_eq, Nat.not_lt] at hend
  exact ⟨by simpa using hend.1, hend.2, rfl⟩

/-- The edit of the entries behind a round. -/
def edited (driver : Driver env) (keep drop : Option (List String)) (t : Readings Instant) (sel : Selection) (offset : Nat)
    (s : Stored) (p : String × Value) : Option (String × Value) :=
  ((batched driver t (treatment keep drop) ((chosen driver t sel offset PURGE_CHUNK s).map Prod.fst)).act p.1 p.2).map
    (fun doc => (p.1, doc))

theorem entries_after : (after driver keep drop t sel offset s).docs.entries =
    s.docs.entries.filterMap (edited driver keep drop t sel offset s) := rfl

theorem edited_of_mem {p : String × Value} (h : p ∈ chosen driver t sel offset PURGE_CHUNK s)
    (hwritable : driver.writable t p.1 p.2 = true) : edited driver keep drop t sel offset s p =
      ((treatment keep drop).act p.1 p.2).map (fun doc => (p.1, doc)) := by
  rw [edited, batched_of_mem driver t _ (List.mem_map_of_mem h), if_pos hwritable]

theorem edited_of_unwritable {p : String × Value} (h : driver.writable t p.1 p.2 = false) :
    edited driver keep drop t sel offset s p = some p := by
  by_cases hp : p.1 ∈ (chosen driver t sel offset PURGE_CHUNK s).map Prod.fst
  · rw [edited, batched_of_mem driver t _ hp, h, if_neg Bool.false_ne_true]
    rfl
  · rw [edited, batched_of_not_mem driver t _ hp]
    rfl

theorem edited_of_not_mem {p : String × Value} (hp : p ∈ s.docs.entries) (h : p ∉ chosen driver t sel offset PURGE_CHUNK s) :
    edited driver keep drop t sel offset s p = some p := by
  rw [edited, batched_of_not_mem driver t _ (mt (name_chosen (BTreeMap.mem_entries.mp hp)).mp h)]
  rfl

theorem edited_of_uncounted {p : String × Value} (hp : p ∈ s.docs.entries)
    (h : (driver.writable t p.1 p.2 && counts keep drop p.2) = false) :
    edited driver keep drop t sel offset s p = some p := by
  by_cases hmem : p ∈ chosen driver t sel offset PURGE_CHUNK s
  · cases hw : driver.writable t p.1 p.2 with
    | false => exact edited_of_unwritable hw
    | true =>
        rw [hw, Bool.true_and] at h
        rw [edited_of_mem hmem hw, treatment_of_uncounted keep drop h]
        rfl
  · exact edited_of_not_mem hp hmem

theorem edited_counts {p q : String × Value} (hp : p ∈ s.docs.entries) (h : edited driver keep drop t sel offset s p = some q)
    (hq : counts keep drop q.2 = true) : counts keep drop p.2 = true := by
  by_contra hc
  rw [Bool.not_eq_true] at hc
  rw [edited_of_uncounted hp (by rw [hc, Bool.and_false])] at h
  cases h
  rw [hc] at hq
  cases hq

/-- The distance to the end: what is still to be counted, and then what is still
to be passed over. -/
def distance (keep drop : Option (List String)) (st : Stored × Nat) : Nat ×ₗ Nat :=
  toLex (st.1.docs.entries.countP (fun p => counts keep drop p.2), st.1.docs.entries.length - st.2)

variable (driver t sel offset s) in
theorem length_part_le : offset + PURGE_CHUNK ≤ s.docs.entries.length ∨
    (page (driver.listed t sel) offset PURGE_CHUNK s.docs.entries).length < PURGE_CHUNK := by
  have hfilter : (s.docs.entries.filter (driver.listed t sel)).length ≤ s.docs.entries.length := List.length_filter_le _ _
  have hchunk : 0 < PURGE_CHUNK := by decide
  rw [page, List.length_take, List.length_drop]
  omega

theorem distance_lt {params : Params} {s' : Stored} {next : Nat}
    (h : purge_round driver params keep drop t s offset = .ok (s', some next)) :
    distance keep drop (s', next) < distance keep drop (s, offset) := by
  obtain ⟨sel, -, rfl, hnext⟩ := round_ok h
  obtain ⟨hpaged, hrows, rfl⟩ := next_scan_offset_some hnext.symm
  have hwindow : offset + PURGE_CHUNK ≤ s.docs.entries.length := by
    refine (length_part_le driver t sel offset s).resolve_right fun hshort => ?_
    have hle : rows_read driver t sel offset s ≤ (page (driver.listed t sel) offset PURGE_CHUNK s.docs.entries).length := by
      rw [rows_read, Driver.part, if_pos hpaged]
      exact List.countP_le_length
    omega
  rw [distance, distance, Prod.Lex.toLex_lt_toLex]
  dsimp only
  rw [entries_after]
  rcases Nat.eq_zero_or_pos (counted driver keep drop t sel offset s) with hzero | hpos
  · have hfixed : s.docs.entries.filterMap (edited driver keep drop t sel offset s) = s.docs.entries := by
      refine (List.filterMap_congr fun p hp => ?_).trans List.filterMap_some
      by_cases hmem : p ∈ chosen driver t sel offset PURGE_CHUNK s
      · exact edited_of_uncounted hp (Bool.eq_false_iff.mpr (List.countP_eq_zero.mp hzero p hmem))
      · exact edited_of_not_mem hp hmem
    have hleft : left_the_set driver keep drop t sel offset s = 0 := by
      rw [left_the_set, hzero]
      split_ifs <;> first | rfl | omega
    have hchunk : 0 < PURGE_CHUNK := by decide
    rw [hfixed, hleft]
    exact .inr ⟨rfl, by omega⟩
  · obtain ⟨p, hp, hq⟩ := List.countP_pos_iff.mp hpos
    rw [Bool.and_eq_true] at hq
    have hentry := part_sublist.subset (mem_chosen.mp hp).1
    refine .inl (countP_edit_lt (fun p hp q => edited_counts hp) hentry hq.2 fun q hedit => ?_)
    rw [edited_of_mem hp hq.1] at hedit
    obtain ⟨doc, hdoc, rfl⟩ := Option.map_eq_some_iff.mp hedit
    exact counts_treated keep drop hdoc

end Ending

section Exact

variable (driver : Driver env) (clock : Nat → Readings Instant) (sel : Selection) (keep drop : Option (List String))

/-- What each clock of a round says of an entity, that it has not expired. -/
def Driver.readings (t : Readings Instant) (id : String) (doc : Value) : List Bool :=
  match driver with
  | .Mem => [!expired_at env.chrono doc t.read, !expired_at env.chrono doc (t.written id)]
  | .Pg sql => [sql.live t.selected doc, !expired_at env.chrono doc t.read, sql.live t.locked doc]

/-- Nothing that the query could see expires as the store is walked. -/
structure Steady (s : Stored) : Prop where
  expiry : ∀ id doc, s.docs.get id = some doc → ∃ b, ∀ n, ∀ a ∈ driver.readings (clock n) id doc, a = b
  instances : ∀ sql, driver = .Pg sql → ∀ id doc doc', s.docs.get id = some doc →
    strip_expired env.chrono (clock 0).read doc = some doc' → sel.selects env doc' = sel.selects env doc

/-- The query is about an entity as it is read at the start. -/
def matched (env : Env Instant) (doc : Value) : Bool := (strip_expired env.chrono (clock 0).read doc).any (sel.selects env)

/-- The purge is complete and touches nothing else. -/
structure Purged (env : Env Instant) (s s' : Stored) : Prop where
  deleted : keep = none → drop = none → ∀ id doc, s.docs.get id = some doc → matched clock sel env doc = true →
    s'.docs.get id = none
  pruned : (keep.isSome || drop.isSome) = true → ∀ id doc, s.docs.get id = some doc → matched clock sel env doc = true →
    ∃ doc', s'.docs.get id = some doc' ∧ ∀ a, doc'.get a = if goes keep drop a then none else doc.get a
  unmatched : ∀ id doc, s.docs.get id = some doc → matched clock sel env doc = false → s'.docs.get id = some doc
  absent : ∀ id, s.docs.get id = none → s'.docs.get id = none

end Exact

section Walked

variable {driver : Driver env} {clock : Nat → Readings Instant} {sel : Selection} {keep drop : Option (List String)}
  {s₀ s : Stored} {n offset : Nat}

variable (clock sel) in
/-- An entity is as it was, or has been treated. -/
def Treated (env : Env Instant) (keep drop : Option (List String)) (s₀ s : Stored) : Prop := ∀ id, s.docs.get id = s₀.docs.get id ∨
  ∃ doc, s₀.docs.get id = some doc ∧ matched clock sel env doc = true ∧ s.docs.get id = (treatment keep drop).act id doc

theorem readings_of_meta {t : Readings Instant} {id : String} {doc doc' : Value} (h : doc'.get "expiresAt" = doc.get "expiresAt") :
    driver.readings t id doc' = driver.readings t id doc := by
  have hexpired (now : String) : expired_at env.chrono doc' now = expired_at env.chrono doc now := by
    rw [expired_at, expired_at, h]
  cases driver with
  | Mem => rw [Driver.readings, Driver.readings, hexpired, hexpired]
  | Pg sql => rw [Driver.readings, Driver.readings, hexpired, Pushdown.live, Pushdown.live, Pushdown.live, Pushdown.live, h]

theorem steady_now (hs : Steady driver clock sel s₀) (ht : Treated clock sel env keep drop s₀ s) {id : String} {doc : Value}
    (h : s.docs.get id = some doc) : ∃ b, ∀ n, ∀ a ∈ driver.readings (clock n) id doc, a = b := by
  rcases ht id with heq | ⟨doc₀, h₀, -, hact⟩
  · exact hs.expiry id doc (heq ▸ h)
  · rw [h] at hact
    obtain ⟨b, hb⟩ := hs.expiry id doc₀ h₀
    refine ⟨b, fun n a ha => hb n a ?_⟩
    rwa [readings_of_meta ((treatment keep drop).keeps id doc₀ doc hact.symm "expiresAt" (by decide))] at ha

theorem Driver.reads (driver : Driver env) (t : Readings Instant) (id : String) (doc : Value) :
    (!expired_at env.chrono doc t.read) ∈ driver.readings t id doc := by
  cases driver <;> simp [Driver.readings]

theorem Driver.writes (driver : Driver env) (t : Readings Instant) (id : String) (doc : Value) :
    driver.writable t id doc ∈ driver.readings t id doc := by
  cases driver <;> simp [Driver.readings, Driver.writable]

theorem listed_now (hs : Steady driver clock sel s₀) (ht : Treated clock sel env keep drop s₀ s) (n : Nat)
    {p : String × Value} (hp : p ∈ s.docs.entries) :
    driver.listed (clock n) sel p = driver.listed (clock 0) sel p := by
  obtain ⟨b, hb⟩ := steady_now hs ht (BTreeMap.mem_entries.mp hp)
  cases driver with
  | Mem => rfl
  | Pg sql =>
      have hlive (n : Nat) : sql.live (clock n).selected p.2 = b := hb n _ List.mem_cons_self
      rw [Driver.listed, Driver.listed, hlive, hlive]

theorem live_of_part (hs : Steady driver clock sel s₀) (ht : Treated clock sel env keep drop s₀ s)
    (hdec : driver.decides sel = true) {p : String × Value} (hp : p ∈ driver.part (clock n) sel offset PURGE_CHUNK s) :
    ∀ m, ∀ a ∈ driver.readings (clock m) p.1 p.2, a = true := by
  obtain ⟨b, hb⟩ := steady_now hs ht (get_of_part hp)
  cases driver with
  | Mem => cases hdec
  | Pg sql =>
      rw [Driver.part, if_pos hdec] at hp
      have hlisted := (mem_page hp).2
      rw [Driver.listed, Bool.and_eq_true] at hlisted
      obtain rfl : sql.live (clock n).selected p.2 = b := hb n _ List.mem_cons_self
      rw [hlisted.2] at hb
      exact hb

theorem matched_eq (hs : Steady driver clock sel s₀) (hdec : driver.decides sel = true) {id : String} {doc : Value}
    (h : s₀.docs.get id = some doc) :
    matched clock sel env doc = (driver.listed (clock 0) sel (id, doc) && fits_pattern sel id) := by
  obtain ⟨b, hb⟩ := hs.expiry id doc h
  cases driver with
  | Mem => cases hdec
  | Pg sql =>
      have hlive : sql.live (clock 0).selected doc = b := hb 0 _ List.mem_cons_self
      have hread : (!expired_at env.chrono doc (clock 0).read) = b := hb 0 _ ((Driver.Pg sql).reads (clock 0) id doc)
      have hstrip : (strip_expired env.chrono (clock 0).read doc).isSome = b := (strip_expired_isSome (is_object_of_get h)).trans hread
      rw [matched, Driver.listed, hlive, sql.exact_of_decided sel doc hdec]
      cases b with
      | false => rw [Option.isSome_eq_false_iff.mp hstrip |> Option.isNone_iff_eq_none.mp, Option.any_none, Bool.and_false, Bool.false_and]
      | true =>
          obtain ⟨doc', hdoc'⟩ := Option.isSome_iff_exists.mp hstrip
          rw [hdoc', Option.any_some, hs.instances sql rfl id doc doc' h hdoc', selects_eq, s₀.id_of h, Bool.and_true]

section Decided

variable (hs : Steady driver clock sel s₀) (ht : Treated clock sel env keep drop s₀ s) (hdec : driver.decides sel = true)
include hs ht hdec

theorem part_now : driver.part (clock n) sel offset PURGE_CHUNK s =
    page (driver.listed (clock 0) sel) offset PURGE_CHUNK s.docs.entries := by
  rw [Driver.part, if_pos hdec, page, page, List.filter_congr fun p hp => listed_now hs ht n hp]

theorem chosen_now {p : String × Value} : p ∈ chosen driver (clock n) sel offset PURGE_CHUNK s ↔
    p ∈ driver.part (clock n) sel offset PURGE_CHUNK s ∧ fits_pattern sel p.1 = true := by
  rw [mem_chosen]
  refine and_congr_right fun hp => ?_
  have hread := live_of_part hs ht hdec hp n _ (driver.reads (clock n) p.1 p.2)
  rw [← strip_expired_isSome (is_object_of_get (get_of_part hp))] at hread
  obtain ⟨doc, hdoc⟩ := Option.isSome_iff_exists.mp hread
  have hid : id_of doc = p.1 := by
    rw [id_of, strip_expired_id (s.keyed p.1 p.2 (get_of_part hp)) hdoc, Option.getD_some]
  rw [hdoc, Option.any_some, survives, if_pos hdec, hid]

theorem writable_now {p : String × Value} (hp : p ∈ driver.part (clock n) sel offset PURGE_CHUNK s) :
    driver.writable (clock n) p.1 p.2 = true := live_of_part hs ht hdec hp n _ (driver.writes (clock n) p.1 p.2)

theorem rows_now : rows_read driver (clock n) sel offset s = (driver.part (clock n) sel offset PURGE_CHUNK s).length :=
  List.countP_eq_length.mpr fun p hp => live_of_part hs ht hdec hp n _ (driver.reads (clock n) p.1 p.2)

theorem treated_after : Treated clock sel env keep drop s₀ (after driver keep drop (clock n) sel offset s) := by
  intro id
  have hunchanged (h : (after driver keep drop (clock n) sel offset s).docs.get id = s.docs.get id) :
      (after driver keep drop (clock n) sel offset s).docs.get id = s₀.docs.get id ∨ ∃ doc, s₀.docs.get id = some doc ∧
        matched clock sel env doc = true ∧
          (after driver keep drop (clock n) sel offset s).docs.get id = (treatment keep drop).act id doc := by
    rw [h]
    exact ht id
  cases hget : s.docs.get id with
  | none =>
      refine hunchanged ?_
      rw [after, get_rewrite, hget, Option.bind_none]
  | some doc =>
      by_cases hmem : (id, doc) ∈ chosen driver (clock n) sel offset PURGE_CHUNK s
      · have hpart := ((chosen_now hs ht hdec).mp hmem).1
        have hact : (after driver keep drop (clock n) sel offset s).docs.get id = (treatment keep drop).act id doc := by
          rw [after, get_rewrite, hget, Option.bind_some, batched_of_mem _ _ _ ((name_chosen hget).mpr hmem),
            if_pos (writable_now hs ht hdec hpart)]
        rcases ht id with heq | ⟨doc₀, h₀, hmatched, hdoc⟩
        · refine .inr ⟨doc, heq ▸ hget, ?_, hact⟩
          rw [part_now hs ht hdec] at hpart
          rw [matched_eq hs hdec (heq ▸ hget), (mem_page hpart).2, ((chosen_now hs ht hdec).mp hmem).2]
          rfl
        · refine hunchanged ?_
          rw [hact, hget]
          exact treatment_of_uncounted keep drop (counts_treated keep drop (hdoc.symm.trans hget)) id
      · refine hunchanged ?_
        rw [after, get_rewrite, hget, Option.bind_some]
        exact batched_of_not_mem _ _ _ (mt (name_chosen hget).mp hmem) doc

/-- Nothing is left to be done to an entity of the set. -/
def Settled (sel : Selection) (keep drop : Option (List String)) (p : String × Value) : Prop :=
  fits_pattern sel p.1 = true → counts keep drop p.2 = false

theorem edited_outside : ∀ p ∈ s.docs.entries, p ∉ page (driver.listed (clock 0) sel) offset PURGE_CHUNK s.docs.entries →
    edited driver keep drop (clock n) sel offset s p = some p := by
  intro p hp hpage
  refine edited_of_not_mem hp fun hmem => hpage ?_
  rw [← part_now hs ht hdec]
  exact ((chosen_now hs ht hdec).mp hmem).1

theorem settled_edited : ∀ p ∈ page (driver.listed (clock 0) sel) offset PURGE_CHUNK s.docs.entries,
    ∀ q, edited driver keep drop (clock n) sel offset s p = some q → Settled sel keep drop q := by
  intro p hp q hq hfits
  have hpart : p ∈ driver.part (clock n) sel offset PURGE_CHUNK s := by rwa [part_now hs ht hdec]
  by_cases hmem : p ∈ chosen driver (clock n) sel offset PURGE_CHUNK s
  · rw [edited_of_mem hmem (writable_now hs ht hdec hpart)] at hq
    obtain ⟨doc, hdoc, rfl⟩ := Option.map_eq_some_iff.mp hq
    exact counts_treated keep drop hdoc
  · rw [edited_of_not_mem (part_sublist.subset hpart) hmem] at hq
    cases hq
    exact absurd ((chosen_now hs ht hdec).mpr ⟨hpart, hfits⟩) hmem

/-- The next offset passes no more than the page leaves in the set. -/
theorem passed_le : rows_read driver (clock n) sel offset s - left_the_set driver keep drop (clock n) sel offset s ≤
    (((page (driver.listed (clock 0) sel) offset PURGE_CHUNK s.docs.entries).filterMap
      (edited driver keep drop (clock n) sel offset s)).filter (driver.listed (clock 0) sel)).length := by
  have hsurvivors : rows_read driver (clock n) sel offset s ≤
      (((page (driver.listed (clock 0) sel) offset PURGE_CHUNK s.docs.entries).filterMap
        (edited driver keep drop (clock n) sel offset s)).filter (driver.listed (clock 0) sel)).length +
      counted driver keep drop (clock n) sel offset s := by
    rw [rows_now hs ht hdec, counted, chosen, List.countP_filter, part_now hs ht hdec]
    refine length_le_survivors (fun p hp => (mem_page hp).2) fun p hp hq => ?_
    rw [Bool.and_eq_false_iff] at hq
    rcases hq with hq | hq
    · exact edited_of_uncounted (mem_page hp).1 hq
    · refine edited_of_not_mem (mem_page hp).1 fun hmem => ?_
      rw [(mem_chosen.mp hmem).2] at hq
      cases hq
  rw [left_the_set]
  split_ifs <;> omega

variable (hsettled : ∀ p ∈ (s.docs.entries.filter (driver.listed (clock 0) sel)).take offset, Settled sel keep drop p)
include hsettled

theorem settled_next {next : Nat}
    (hnext : next = offset + (rows_read driver (clock n) sel offset s - left_the_set driver keep drop (clock n) sel offset s)) :
    ∀ p ∈ ((after driver keep drop (clock n) sel offset s).docs.entries.filter (driver.listed (clock 0) sel)).take next,
      Settled sel keep drop p := by
  rw [entries_after, hnext]
  exact settled_step s.docs.nodup_entries (edited_outside hs ht hdec) (settled_edited hs ht hdec) hsettled
    (Nat.add_le_add_left (passed_le hs ht hdec) offset)

theorem settled_end (hshort : rows_read driver (clock n) sel offset s < PURGE_CHUNK) :
    ∀ p ∈ (after driver keep drop (clock n) sel offset s).docs.entries.filter (driver.listed (clock 0) sel),
      Settled sel keep drop p := by
  rw [rows_now hs ht hdec, part_now hs ht hdec] at hshort
  rw [entries_after]
  exact settled_last s.docs.nodup_entries (edited_outside hs ht hdec) (settled_edited hs ht hdec) hsettled hshort

end Decided

theorem purged_of_treatment (h : ∀ id, s.docs.get id = (s₀.docs.get id).bind (fun doc =>
    if matched clock sel env doc then (treatment keep drop).act id doc else some doc)) :
    Purged clock sel keep drop env s₀ s where
  deleted hkeep hdrop id doc hdoc hmatched := by
    rw [h, hdoc, Option.bind_some, if_pos hmatched, hkeep, hdrop]
    rfl
  pruned hprune id doc hdoc hmatched := by
    rw [h, hdoc, Option.bind_some, if_pos hmatched, treatment, if_pos hprune]
    exact ⟨_, rfl, get_pruned keep drop doc⟩
  unmatched id doc hdoc hmatched := by
    rw [h, hdoc, Option.bind_some, if_neg (Bool.eq_false_iff.mp hmatched)]
  absent id hnone := by rw [h, hnone, Option.bind_none]

/-- Where all of the set is settled, every entity matched has been treated. -/
theorem purged_of_settled (hs : Steady driver clock sel s₀) (ht : Treated clock sel env keep drop s₀ s)
    (hdec : driver.decides sel = true)
    (hsettled : ∀ p ∈ s.docs.entries.filter (driver.listed (clock 0) sel), Settled sel keep drop p) :
    Purged clock sel keep drop env s₀ s := by
  refine purged_of_treatment fun id => ?_
  rcases ht id with heq | ⟨doc, h₀, hmatched, hact⟩
  · cases h₀ : s₀.docs.get id with
    | none => rw [heq, h₀, Option.bind_none]
    | some doc =>
        rw [heq, h₀, Option.bind_some]
        split_ifs with hmatched
        · rw [matched_eq hs hdec h₀, Bool.and_eq_true] at hmatched
          have hentry : (id, doc) ∈ s.docs.entries := BTreeMap.mem_entries.mpr (heq.trans h₀)
          have hdone := hsettled (id, doc) (List.mem_filter.mpr ⟨hentry, hmatched.1⟩) hmatched.2
          exact (treatment_of_uncounted keep drop hdone id).symm
        · rfl
  · rw [hact, h₀, Option.bind_some, if_pos hmatched]

/-- A round that reads the whole set does all. -/
theorem purged_of_whole (hs : Steady driver clock sel s₀) (hdec : driver.decides sel = false) :
    Purged clock sel keep drop env s₀ (after driver keep drop (clock 0) sel offset s₀) := by
  refine purged_of_treatment fun id => ?_
  rw [after, get_rewrite]
  refine Option.bind_congr fun doc hdoc => ?_
  have hchosen : (id, doc) ∈ chosen driver (clock 0) sel offset PURGE_CHUNK s₀ ↔ matched clock sel env doc = true := by
    have hsurvives : survives env sel (driver.decides sel) = sel.selects env := by
      funext d
      rw [survives, hdec, if_neg Bool.false_ne_true]
    rw [mem_chosen, hsurvives, Driver.part, hdec, if_neg Bool.false_ne_true, List.mem_filter]
    refine and_iff_right_of_imp fun hmatched => ⟨BTreeMap.mem_entries.mpr hdoc, ?_⟩
    obtain ⟨doc', hdoc', hsel⟩ := (Option.any_eq_true _ _).mp hmatched
    cases driver with
    | Mem => rfl
    | Pg sql =>
        obtain ⟨b, hb⟩ := hs.expiry id doc hdoc
        have hread := hb 0 _ ((Driver.Pg sql).reads (clock 0) id doc)
        rw [← strip_expired_isSome (is_object_of_get hdoc), hdoc', Option.isSome_some] at hread
        have hlive : sql.live (clock 0).selected doc = true := (hb 0 _ List.mem_cons_self).trans hread.symm
        rw [hs.instances sql rfl id doc doc' hdoc hdoc'] at hsel
        rw [Driver.listed, sql.loose sel doc hsel, hlive]
        rfl
  by_cases hmatched : matched clock sel env doc = true
  · obtain ⟨b, hb⟩ := hs.expiry id doc hdoc
    obtain ⟨doc', hdoc', -⟩ := (Option.any_eq_true _ _).mp hmatched
    have hread := hb 0 _ (driver.reads (clock 0) id doc)
    rw [← strip_expired_isSome (is_object_of_get hdoc), hdoc', Option.isSome_some] at hread
    have hwritable : driver.writable (clock 0) id doc = true := (hb 0 _ (driver.writes (clock 0) id doc)).trans hread.symm
    rw [batched_of_mem _ _ _ ((name_chosen hdoc).mpr (hchosen.mpr hmatched)), if_pos hwritable, if_pos hmatched]
  · rw [batched_of_not_mem _ _ _ (mt (name_chosen hdoc).mp (mt hchosen.mp hmatched)), if_neg hmatched]

end Walked

section Purge

variable (driver : Driver env) (clock : Nat → Readings Instant) (params : Params) (keep drop : Option (List String))

theorem round_error {t : Readings Instant} {s : Stored} {offset : Nat} {e : PurgeError}
    (h : purge_round driver params keep drop t s offset = .error e) {sel : Selection} (hsel : selection env params = .ok sel) :
    driver.decides sel = false := by
  rw [purge_round, filter_entities_paged, hsel] at h
  change Except.map _ (Except.map _ (query_entities driver t sel offset PURGE_CHUNK s)) = _ at h
  rw [query_entities] at h
  cases hq : driver.query t sel offset PURGE_CHUNK s with
  | error e => exact query_error hq
  | ok outcome =>
      rw [hq] at h
      cases h

theorem turn_inr {n : Nat} {st st' : Stored × Nat} (h : turn driver params keep drop clock n st = .inr st') :
    purge_round driver params keep drop (clock n) st.1 st.2 = .ok (st'.1, some st'.2) := by
  rw [turn] at h
  split at h
  · cases h
  · cases h
  · cases h
    assumption

theorem turn_inl {n : Nat} {st : Stored × Nat} {s' : Stored} {r : Except PurgeError Unit}
    (h : turn driver params keep drop clock n st = .inl (s', r)) :
    (r = .ok () ∧ purge_round driver params keep drop (clock n) st.1 st.2 = .ok (s', none)) ∨
      (s' = st.1 ∧ ∃ e, r = .error e ∧ purge_round driver params keep drop (clock n) st.1 st.2 = .error e) := by
  rw [turn] at h
  split at h
  · cases h
    exact .inr ⟨rfl, _, rfl, by assumption⟩
  · cases h
    exact .inl ⟨rfl, by assumption⟩
  · cases h

/-- Every purge ends, whatever the clocks say. -/
theorem purge_ends (s : Stored) : ∃ fuel r, ∀ k, purge_locally driver params keep drop clock (fuel + k) s = some r :=
  rounds_end (fun _ _ _ h => distance_lt (turn_inr driver clock params keep drop h)) 0 (s, 0)

variable {driver clock params keep drop} {fuel : Nat} {s s' : Stored}

/-- A purge that is refused has done nothing. -/
theorem purge_error {e : PurgeError} (h : purge_locally driver params keep drop clock fuel s = some (s', .error e)) : s' = s := by
  refine rounds_post (fun _ st => st.1 = s ∨ ∃ sel, selection env params = .ok sel ∧ driver.decides sel = true)
    (fun r => ∀ e, r.2 = .error e → r.1 = s) ?_ ?_ (.inl rfl) h e rfl
  · intro n st r hinv hturn e he
    rcases turn_inl driver clock params keep drop hturn with ⟨hok, -⟩ | ⟨hs, e', -, hround⟩
    · rw [hok] at he
      cases he
    · rcases hinv with hinv | ⟨sel, hsel, hdec⟩
      · exact hs.trans hinv
      · rw [round_error driver params keep drop hround hsel] at hdec
        cases hdec
  · intro n st st' _ hturn
    obtain ⟨sel, hsel, -, hnext⟩ := round_ok (turn_inr driver clock params keep drop hturn)
    exact .inr ⟨sel, hsel, (next_scan_offset_some hnext.symm).1⟩

/-- What each round of a walk over pages keeps. -/
structure Walked (sel : Selection) (driver : Driver env) (clock : Nat → Readings Instant) (keep drop : Option (List String))
    (s₀ : Stored) (st : Stored × Nat) : Prop where
  treated : Treated clock sel env keep drop s₀ st.1
  settled : ∀ p ∈ (st.1.docs.entries.filter (driver.listed (clock 0) sel)).take st.2, Settled sel keep drop p

theorem purge_ok (h : purge_locally driver params keep drop clock fuel s = some (s', .ok ())) {sel : Selection}
    (hsel : selection env params = .ok sel) (hs : Steady driver clock sel s) : Purged clock sel keep drop env s s' := by
  have hround {n offset : Nat} {s₁ s₂ : Stored} {next : Option Nat}
      (h : purge_round driver params keep drop (clock n) s₁ offset = .ok (s₂, next)) :
      s₂ = after driver keep drop (clock n) sel offset s₁ ∧
        next = next_scan_offset offset (rows_read driver (clock n) sel offset s₁)
          (left_the_set driver keep drop (clock n) sel offset s₁) (driver.decides sel) PURGE_CHUNK := by
    obtain ⟨sel', hsel', hafter, hnext⟩ := round_ok h
    rw [hsel] at hsel'
    cases hsel'
    exact ⟨hafter, hnext⟩
  cases hdec : driver.decides sel with
  | true =>
      refine rounds_post (fun _ st => Walked sel driver clock keep drop s st)
        (fun r => r.2 = .ok () → Purged clock sel keep drop env s r.1) ?_ ?_ ?_ h rfl
      · intro n st r hinv hturn hok
        rcases turn_inl driver clock params keep drop hturn with ⟨-, h⟩ | ⟨-, e, he, -⟩
        · obtain ⟨hafter, hnext⟩ := hround h
          have hshort : rows_read driver (clock n) sel st.2 st.1 < PURGE_CHUNK := by
            rw [next_scan_offset, hdec] at hnext
            split_ifs at hnext with hend
            simpa using hend
          rw [hafter]
          exact purged_of_settled hs (treated_after hs hinv.treated hdec) hdec
            (settled_end hs hinv.treated hdec hinv.settled hshort)
        · rw [he] at hok
          cases hok
      · intro n st st' hinv hturn
        obtain ⟨hafter, hnext⟩ := hround (turn_inr driver clock params keep drop hturn)
        constructor
        · rw [hafter]
          exact treated_after hs hinv.treated hdec
        · rw [hafter]
          exact settled_next hs hinv.treated hdec hinv.settled (next_scan_offset_some hnext.symm).2.2
      · exact ⟨fun id => .inl rfl, fun p hp => absurd hp List.not_mem_nil⟩
  | false =>
      refine rounds_post (fun n st => n = 0 ∧ st = (s, 0))
        (fun r => r.2 = .ok () → Purged clock sel keep drop env s r.1) ?_ ?_ ⟨rfl, rfl⟩ h rfl
      · rintro n st r ⟨rfl, rfl⟩ hturn hok
        rcases turn_inl driver clock params keep drop hturn with ⟨-, h⟩ | ⟨-, e, he, -⟩
        · rw [(hround h).1]
          exact purged_of_whole hs hdec
        · rw [he] at hok
          cases hok
      · rintro n st st' ⟨rfl, rfl⟩ hturn
        have hnext := (hround (turn_inr driver clock params keep drop hturn)).2
        rw [(next_scan_offset_some hnext.symm).1] at hdec
        cases hdec

end Purge

section Short

variable (driver : Driver env) (clock : Nat → Readings Instant) (params : Params) (keep drop : Option (List String))
  {sel : Selection} {s : Stored}

/-- An entity that expires between the cut of a page and its reading makes the
page short, also where more pages follow. -/
theorem short_of_expired (hdec : driver.decides sel = true) {t : Readings Instant} {offset : Nat} {p : String × Value}
    (hp : p ∈ driver.part t sel offset PURGE_CHUNK s) (hexpired : expired_at env.chrono p.2 t.read = true) :
    rows_read driver t sel offset s < PURGE_CHUNK := by
  have hlt : rows_read driver t sel offset s < (driver.part t sel offset PURGE_CHUNK s).length := by
    refine lt_of_le_of_ne List.countP_le_length fun heq => ?_
    have hlive := List.countP_eq_length.mp heq p hp
    rw [hexpired] at hlive
    cases hlive
  refine hlt.trans_le ?_
  rw [Driver.part, if_pos hdec]
  exact List.length_take_le _ _

/-- A short page ends the purge. -/
theorem purge_short (hsel : selection env params = .ok sel) (hdec : driver.decides sel = true)
    (hshort : rows_read driver (clock 0) sel 0 s < PURGE_CHUNK) (k : Nat) :
    purge_locally driver params keep drop clock (1 + k) s = some (after driver keep drop (clock 0) sel 0 s, .ok ()) := by
  rw [purge_locally, Nat.add_comm, rounds, turn]
  dsimp only
  cases h : purge_round driver params keep drop (clock 0) s 0 with
  | error e =>
      rw [round_error driver params keep drop h hsel] at hdec
      cases hdec
  | ok r =>
      obtain ⟨s', next⟩ := r
      obtain ⟨sel', hsel', rfl, rfl⟩ := round_ok h
      rw [hsel] at hsel'
      cases hsel'
      have hend : next_scan_offset 0 (rows_read driver (clock 0) sel 0 s) (left_the_set driver keep drop (clock 0) sel 0 s)
          (driver.decides sel) PURGE_CHUNK = none := if_pos (by simp [hshort])
      rw [hend]

theorem after_of_not_mem {t : Readings Instant} {offset : Nat} {id : String} {doc : Value} (h : s.docs.get id = some doc)
    (hmem : (id, doc) ∉ driver.part t sel offset PURGE_CHUNK s) :
    (after driver keep drop t sel offset s).docs.get id = some doc := by
  rw [after, get_rewrite, h, Option.bind_some]
  exact batched_of_not_mem _ _ _ (mt (name_chosen h).mp fun hchosen => hmem (mem_chosen.mp hchosen).1) doc

end Short

section Crowd

/-- A database whose conditions are the query itself. -/
def exact_sql : Pushdown plain_env where
  wheres := pushed plain_env
  decided sel := sel.scope_q.isNone && sel.geo.isNone
  timestamptz := some
  exact_of_decided _ _ _ := rfl
  loose sel doc h := by
    rw [selects_eq, Bool.and_eq_true] at h
    exact h.1

def crowd_chars (n : Nat) : List Char := "urn:a".toList ++ List.replicate n 'a'

theorem decode_replicate (x decoded : Char) (n : Nat) : Model.decode_triplet x decoded (List.replicate n 'a') = List.replicate n 'a' := by
  induction n with
  | zero => rfl
  | succ n ih =>
      rw [List.replicate_succ, Model.decode_triplet, ih]
      exact fun _ _ h => by cases h

theorem decode_crowd (x decoded : Char) (n : Nat) : Model.decode_triplet x decoded (crowd_chars n) = crowd_chars n := by
  change 'u' :: 'r' :: 'n' :: ':' :: 'a' :: Model.decode_triplet x decoded (List.replicate n 'a') = _
  rw [decode_replicate]
  rfl

def crowd_name (n : Nat) : String := String.ofList (crowd_chars n)

theorem valid_crowd (n : Nat) : Model.valid_id (crowd_name n) = true := by
  have hmem {c : Char} (h : c ∈ crowd_chars n) : c ∈ ['u', 'r', 'n', ':', 'a'] := by
    rcases List.mem_append.mp h with h | h
    · exact h
    · rw [List.eq_of_mem_replicate h]
      decide
  have hchars : ∀ c ∈ ['u', 'r', 'n', ':', 'a'], Model.is_id_char c = true ∧ Model.to_ascii_lowercase c = c ∧ c ≠ '/' := by decide
  have hlower : (crowd_chars n).map Model.to_ascii_lowercase = crowd_chars n :=
    (List.map_congr_left fun c hc => (hchars c (hmem hc)).2.1).trans (List.map_id _)
  have hslash : '/' ∉ crowd_chars n := fun h => (hchars _ (hmem h)).2.2 rfl
  rw [Model.valid_id, crowd_name, String.toList_ofList, Bool.and_eq_true, Bool.and_eq_true]
  refine ⟨⟨List.all_eq_true.mpr fun c hc => (hchars c (hmem hc)).1, ?_⟩, rfl⟩
  rw [Model.no_dot_segment, hlower, decode_crowd, decode_crowd, List.splitOn_eq_singleton hslash]
  rfl

theorem crowd_lt {i j : Nat} (h : i < j) : crowd_name i < crowd_name j := by
  have hrep : List.replicate i 'a' < List.replicate j 'a' := by
    induction i generalizing j with
    | zero =>
        obtain ⟨k, rfl⟩ := Nat.exists_eq_succ_of_ne_zero h.ne'
        exact List.nil_lt_cons _ _
    | succ i ih =>
        obtain ⟨k, rfl⟩ := Nat.exists_eq_succ_of_ne_zero (Nat.ne_zero_of_lt h)
        exact List.cons_lt_cons_iff.mpr (.inr ⟨rfl, ih (Nat.lt_of_succ_lt_succ h)⟩)
  rw [crowd_name, crowd_name, String.lt_iff_toList_lt, String.toList_ofList, String.toList_ofList]
  exact List.append_left_lt hrep

/-- The first of the crowd is to expire. -/
def crowd_doc (n : Nat) : Value :=
  .object ((if n = 0 then [("expiresAt", .string "2026-01-01T00:00:01.000Z")] else []) ++
    [("id", .string (crowd_name n)), ("type", .array [.string "urn:T"])])

def crowd_entries (size : Nat) : List (String × Value) := (List.range size).map (fun n => (crowd_name n, crowd_doc n))

theorem crowd_sorted (size : Nat) : SortedMap.Sorted (crowd_entries size) :=
  List.pairwise_map.mpr (List.pairwise_lt_range.imp crowd_lt)

theorem mem_crowd {size : Nat} {id : String} {doc : Value}
    (h : (⟨crowd_entries size, crowd_sorted size⟩ : BTreeMap String Value).get id = some doc) :
    ∃ n < size, crowd_name n = id ∧ crowd_doc n = doc := by
  obtain ⟨n, hn, heq⟩ := List.mem_map.mp (BTreeMap.mem_entries.mpr h)
  exact ⟨n, List.mem_range.mp hn, Prod.mk.inj heq⟩

def crowd (size : Nat) : Stored where
  docs := ⟨crowd_entries size, crowd_sorted size⟩
  keyed id doc h := by
    obtain ⟨n, -, rfl, rfl⟩ := mem_crowd h
    rw [crowd_doc]
    split_ifs <;> rfl
  valid id doc h := by
    obtain ⟨n, -, rfl, -⟩ := mem_crowd h
    exact valid_crowd n

def typed : Params := fun name => if name = "type" then some "T" else none

def typed_selection : Selection := ⟨none, none, some [["urn:T"]], none, none, none, none⟩

/-- The page is cut before the first entity expires, and read afterwards. -/
def late_clock (_ : Nat) : Readings String where
  selected := "2026-01-01T00:00:00.000Z"
  read := "2026-01-01T00:00:02.000Z"
  written _ := "2026-01-01T00:00:02.000Z"
  locked := "2026-01-01T00:00:02.000Z"

theorem selection_typed : selection plain_env typed = .ok typed_selection := rfl

theorem listed_crowd (n : Nat) :
    (Driver.Pg exact_sql).listed (late_clock 0) typed_selection (crowd_name n, crowd_doc n) = true := by
  by_cases hn : n = 0
  · subst hn
    decide
  · rw [crowd_doc, if_neg hn]
    rfl

theorem part_crowd (size : Nat) : (Driver.Pg exact_sql).part (late_clock 0) typed_selection 0 PURGE_CHUNK (crowd size) =
    crowd_entries (min PURGE_CHUNK size) := by
  have hall : (crowd_entries size).filter ((Driver.Pg exact_sql).listed (late_clock 0) typed_selection) = crowd_entries size := by
    rw [List.filter_eq_self]
    intro p hp
    obtain ⟨n, -, rfl⟩ := List.mem_map.mp hp
    exact listed_crowd n
  change ((((crowd_entries size).filter _).drop 0).take PURGE_CHUNK) = _
  rw [hall, List.drop_zero, crowd_entries, ← List.map_take, List.take_range]
  rfl

theorem get_crowd {size n : Nat} (h : n < size) : (crowd size).docs.get (crowd_name n) = some (crowd_doc n) :=
  BTreeMap.mem_entries.mp (List.mem_map_of_mem (List.mem_range.mpr h))

end Crowd

end AntaresBroker.Purge
