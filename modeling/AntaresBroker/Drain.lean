import AntaresBroker.Grouping
import AntaresBroker.Shadow

namespace AntaresBroker.Drain

open Json Expiry Mem

inductive TemporalOp
  | attrCreated | attrModified | scopeChanged
deriving DecidableEq

structure TemporalEvent where
  op : TemporalOp
  tenant : TenantId
  entity_id : String
  shell : Value
  attr : String
  snapshot : Value

def instance_id (v : Value) : Option Value := v.get "instanceId"

/-- The instances the scope has; a plain scope has none. -/
def scope_instances : Option Value → List Value
  | some (.array (first :: arr)) => if first.is_object then first :: arr else []
  | _ => []

def push_scope (inst : Value) : Value → Except Unit (Unit × Value)
  | .object target =>
      .ok ((), .object (SortedMap.insert "scope" (.array (scope_instances (target.lookup "scope") ++ [inst])) target))
  | _ => .error ()

/-- The instances of a new attribute are taken as they come. -/
def append_attr (target : Map) (p : String × Value) : Map :=
  let incoming := p.2.as_array.getD []
  match target.lookup p.1 with
  | some (.array cur) => SortedMap.insert p.1 (.array (incoming.foldl (Grouping.upsert instance_id) cur)) target
  | _ => SortedMap.insert p.1 (.array incoming) target

def append_all (additions : Value) : Value → Except Unit (Unit × Value)
  | .object target => .ok ((), .object ((additions.as_object.getD []).foldl append_attr target))
  | _ => .error ()

def add_instance (additions : Map) (ev : TemporalEvent) : Map :=
  match additions.lookup ev.attr with
  | some (.array arr) => SortedMap.insert ev.attr (.array (arr ++ [ev.snapshot])) additions
  | some _ => additions
  | none => SortedMap.insert ev.attr (.array [ev.snapshot]) additions

/-- Consecutive events of one entity. -/
def runs : List TemporalEvent → List (List TemporalEvent)
  | [] => []
  | ev :: evs =>
      match runs evs with
      | (next :: run) :: rest =>
          if next.tenant.name = ev.tenant.name ∧ next.entity_id = ev.entity_id then (ev :: next :: run) :: rest
          else [ev] :: (next :: run) :: rest
      | rest => [ev] :: rest

section Operations

variable {Instant Bytes : Type} [LinearOrder Instant] (chrono : Chrono Instant) (codec : Codec Bytes)
  (temporal_only : Bool)

def temporal_append (s : Store Bytes) (now : String) (tenant : TenantId) (id : String) (shell additions : Value) :
    Store Bytes :=
  if !temporal_only && (s.inner.get .entity tenant.name id).isNone then s
  else
    let s := if (s.inner.get .temporal tenant.name id).isNone then
      (create chrono codec s now tenant .temporal id shell).1 else s
    (mutate chrono codec s now tenant .temporal id (append_all additions)).1

/-- What the walk over a run has done and still has to append. -/
structure Walk (Bytes : Type) where
  store : Store Bytes
  additions : Map
  shell : Value

def walk (now : String) (tenant : TenantId) (id : String) (w : Walk Bytes) (ev : TemporalEvent) : Walk Bytes :=
  if ev.op = .scopeChanged then
    { w with
      store := (mutate chrono codec w.store now tenant .temporal id (push_scope ev.snapshot)).1
      shell := ev.shell }
  else { w with additions := add_instance w.additions ev, shell := ev.shell }

def drain_run (now : String) (s : Store Bytes) : List TemporalEvent → Store Bytes
  | [] => s
  | ev :: evs =>
      let w := (ev :: evs).foldl (walk chrono codec now ev.tenant ev.entity_id) ⟨s, [], ev.shell⟩
      if w.additions.isEmpty then w.store
      else temporal_append chrono codec temporal_only w.store now ev.tenant ev.entity_id w.shell (.object w.additions)

def event_list (now : String) (s : Store Bytes) (evs : List TemporalEvent) : Store Bytes :=
  (runs evs).foldl (drain_run chrono codec temporal_only now) s

end Operations

/-- The members of a temporal document. -/
abbrev Doc := String → Option Value

abbrev Histories := String → String → Option Doc

def histories (i : Inner) : Histories := fun t id => (i.get .temporal t id).map Value.get

/-- The member an event is recorded under. -/
def slot (ev : TemporalEvent) : String := if ev.op = .scopeChanged then "scope" else ev.attr

def instances (v : Option Value) : List Value := (v.bind Value.as_array).getD []

/-- The instances of a member with one event recorded. -/
def recorded (v : Option Value) (ev : TemporalEvent) : List Value :=
  if ev.op = .scopeChanged then scope_instances v ++ [ev.snapshot]
  else Grouping.upsert instance_id (instances v) ev.snapshot

def note (d : Doc) (ev : TemporalEvent) : Doc :=
  Function.update d (slot ev) (some (.array (recorded (d (slot ev)) ev)))

def mine (t id : String) (ev : TemporalEvent) : Bool := ev.tenant.name = t && ev.entity_id = id

/-- One event recorded on its own, in the document of its shell if there is none yet. -/
def noted (h : Option Doc) (ev : TemporalEvent) : Option Doc := some (note (h.getD ev.shell.get) ev)

def record (H : Histories) (ev : TemporalEvent) : Histories := fun t id => if mine t id ev then noted (H t id) ev else H t id

/-- A stretch of events the drain records as they would be recorded one by one: an
entity without history gets it from one shell and no scope change, the instances of an
attribute it does not have yet differ in their ids, and so do the instances it has. -/
structure Ready (h : Option Doc) (seg : List TemporalEvent) : Prop where
  attrs : ∀ ev ∈ seg, ev.op ≠ .scopeChanged → ev.attr ≠ "scope"
  scopes : ∀ ev ∈ seg, ev.op = .scopeChanged → ev.snapshot.is_object = true
  shells : ∀ ev ∈ seg, ev.shell.is_object = true
  first : h = none → ∀ ev ∈ seg, ev.op ≠ .scopeChanged ∧ ∀ e ∈ seg, ev.shell = e.shell
  fresh : ∀ ev ∈ seg, ev.op ≠ .scopeChanged → (∀ cur, h.getD ev.shell.get ev.attr ≠ some (.array cur)) →
    ((seg.filter (fun e => slot e = ev.attr)).map (fun e => instance_id e.snapshot)).Nodup
  distinct : ∀ ev ∈ seg, ev.op ≠ .scopeChanged → ∀ cur, h.getD ev.shell.get ev.attr = some (.array cur) →
    (cur.map instance_id).Nodup

/-- Every stretch of events of one entity is ready where the events before it leave its history. -/
def Sound (H : Histories) (evs : List TemporalEvent) : Prop :=
  ∀ pre seg post t id, evs = pre ++ seg ++ post → (∀ ev ∈ seg, mine t id ev = true) →
    Ready (pre.foldl record H t id) seg

theorem mine_iff {t id : String} {ev : TemporalEvent} : mine t id ev = true ↔ ev.tenant.name = t ∧ ev.entity_id = id := by
  rw [mine, Bool.and_eq_true, decide_eq_true_eq, decide_eq_true_eq]

theorem flatten_runs (evs : List TemporalEvent) : (runs evs).flatten = evs := by
  induction evs with
  | nil => rfl
  | cons ev evs ih =>
      rw [runs]
      split
      · next next run rest hruns =>
          rw [hruns] at ih
          split_ifs <;> rw [← ih] <;> rfl
      · rw [List.flatten_cons, ih, List.singleton_append]

/-- A run is not empty and is of one entity. -/
def OneEntity (run : List TemporalEvent) : Prop := run ≠ [] ∧ ∃ t id, ∀ ev ∈ run, mine t id ev = true

theorem oneEntity_runs (evs : List TemporalEvent) : ∀ run ∈ runs evs, OneEntity run := by
  have hone : ∀ ev, OneEntity [ev] := fun ev =>
    ⟨List.cons_ne_nil _ _, ev.tenant.name, ev.entity_id, fun e he => List.mem_singleton.mp he ▸ mine_iff.mpr ⟨rfl, rfl⟩⟩
  induction evs with
  | nil => exact fun _ h => by cases h
  | cons ev evs ih =>
      rw [runs]
      split
      · next next run rest hruns =>
          rw [hruns, List.forall_mem_cons] at ih
          split_ifs with h
          · obtain ⟨⟨-, t, id, hrun⟩, hrest⟩ := ih
            have hnext := mine_iff.mp (hrun next List.mem_cons_self)
            have hev : mine t id ev = true := mine_iff.mpr ⟨h.1.symm.trans hnext.1, h.2.symm.trans hnext.2⟩
            exact List.forall_mem_cons.mpr ⟨⟨List.cons_ne_nil _ _, t, id, List.forall_mem_cons.mpr ⟨hev, hrun⟩⟩, hrest⟩
          · exact List.forall_mem_cons.mpr ⟨hone ev, List.forall_mem_cons.mpr ih⟩
      · exact List.forall_mem_cons.mpr ⟨hone ev, ih⟩

theorem foldl_record_apply (evs : List TemporalEvent) (H : Histories) (t id : String) :
    evs.foldl record H t id = (evs.filter (mine t id)).foldl noted (H t id) := by
  induction evs generalizing H with
  | nil => rfl
  | cons ev evs ih =>
      rw [List.foldl_cons, ih, record, List.filter_cons]
      split_ifs <;> rfl

theorem foldl_noted (ev : TemporalEvent) (evs : List TemporalEvent) (h : Option Doc) :
    (ev :: evs).foldl noted h = some ((ev :: evs).foldl note (h.getD ev.shell.get)) := by
  have hsome : ∀ (evs : List TemporalEvent) (d : Doc), evs.foldl noted (some d) = some (evs.foldl note d) := by
    intro evs
    induction evs with
    | nil => exact fun _ => rfl
    | cons ev evs ih => exact fun d => ih (note d ev)
  exact hsome evs _

section Documents

/-- A fold of notes seen at one member. -/
theorem foldl_note_apply (evs : List TemporalEvent) (d : Doc) (k : String) :
    evs.foldl note d k =
      (evs.filter (fun ev => slot ev = k)).foldl (fun v ev => some (.array (recorded v ev))) (d k) := by
  induction evs generalizing d with
  | nil => rfl
  | cons ev evs ih =>
      rw [List.foldl_cons, ih, note]
      by_cases h : slot ev = k
      · rw [List.filter_cons, if_pos (decide_eq_true h), List.foldl_cons, h, Function.update_self]
      · rw [List.filter_cons, if_neg (by simpa using h), Function.update_of_ne (Ne.symm h)]

theorem get_insert (k : String) (v : Value) (m : Map) :
    (Value.object (SortedMap.insert k v m)).get = Function.update (Value.object m).get k (some v) := by
  funext l
  rw [Function.update_apply]
  exact SortedMap.lookup_insert k l v m

theorem push_scope_object (ev : TemporalEvent) (h : ev.op = .scopeChanged) (m : Map) :
    ∃ m', push_scope ev.snapshot (.object m) = .ok ((), .object m') ∧
      (Value.object m').get = note (Value.object m).get ev := by
  refine ⟨_, rfl, ?_⟩
  rw [get_insert, note, slot, if_pos h, recorded, if_pos h]
  rfl

theorem instances_array (v : Option Value) : instances v = [] ∧ (∀ cur, v ≠ some (.array cur)) ∨
    ∃ cur, v = some (.array cur) ∧ instances v = cur := by
  rcases v with _ | v
  · exact .inl ⟨rfl, nofun⟩
  · cases v with
    | array cur => exact .inr ⟨cur, rfl, rfl⟩
    | null | bool _ | number _ | string _ | object _ => exact .inl ⟨rfl, nofun⟩

/-- The instances a drained attribute gets. -/
def joined (v : Option Value) (incoming : List Value) : List Value :=
  match v with
  | some (.array cur) => incoming.foldl (Grouping.upsert instance_id) cur
  | _ => incoming

theorem get_append_attr (m : Map) (p : String × Value) : (Value.object (append_attr m p)).get =
    Function.update (Value.object m).get p.1
      (some (.array (joined ((Value.object m).get p.1) (p.2.as_array.getD [])))) := by
  have hget : (Value.object m).get p.1 = m.lookup p.1 := rfl
  rw [append_attr, hget]
  unfold joined
  split <;> exact get_insert _ _ _

theorem get_foldl_append_attr {additions : Map} (hs : SortedMap.Sorted additions) (m : Map) (k : String) :
    (Value.object (additions.foldl append_attr m)).get k =
      match additions.lookup k with
      | some v => some (.array (joined ((Value.object m).get k) (v.as_array.getD [])))
      | none => (Value.object m).get k := by
  induction additions generalizing m with
  | nil => rfl
  | cons p additions ih =>
      rw [SortedMap.sorted_cons] at hs
      rw [List.foldl_cons, ih hs.2, get_append_attr, SortedMap.lookup_cons]
      by_cases h : k = p.1
      · subst h
        rw [SortedMap.lookup_eq_none_of_lt hs.1, if_pos rfl, Function.update_self]
      · rw [if_neg h, Function.update_of_ne h]

/-- What the walk gathers for an attribute. -/
theorem gathered (evs : List TemporalEvent) (k : String) : (evs.foldl add_instance []).lookup k =
    if evs.filter (fun ev => ev.attr = k) = [] then none
    else some (.array ((evs.filter (fun ev => ev.attr = k)).map (·.snapshot))) := by
  induction evs using List.reverseRecOn generalizing k with
  | nil => rfl
  | append_singleton evs ev ih =>
      rw [List.foldl_concat, List.filter_append, add_instance, ih ev.attr]
      by_cases h : ev.attr = k
      · subst h
        by_cases hnone : evs.filter (fun e => e.attr = ev.attr) = [] <;> simp [hnone]
      · have hk : k ≠ ev.attr := Ne.symm h
        by_cases hnone : evs.filter (fun e => e.attr = ev.attr) = [] <;> simp [hnone, hk, h, ih k]

theorem sorted_gathered (evs : List TemporalEvent) : SortedMap.Sorted (evs.foldl add_instance []) := by
  induction evs using List.reverseRecOn with
  | nil => exact SortedMap.sorted_nil
  | append_singleton evs ev ih =>
      rw [List.foldl_concat, add_instance]
      split
      · exact SortedMap.sorted_insert _ _ ih
      · exact ih
      · exact SortedMap.sorted_insert _ _ ih

theorem joined_eq {v : Option Value} {incoming : List Value}
    (h : (∀ cur, v ≠ some (.array cur)) → (incoming.map instance_id).Nodup) :
    joined v incoming = incoming.foldl (Grouping.upsert instance_id) (instances v) := by
  rcases instances_array v with ⟨hnil, hnone⟩ | ⟨cur, rfl, -⟩
  · rw [hnil, Grouping.foldl_upsert_fresh (h hnone), List.nil_append, joined]
    exact hnone
  · rfl

/-- Attribute events recorded one by one. -/
theorem foldl_recorded {evs : List TemporalEvent} (h : ∀ ev ∈ evs, ev.op ≠ .scopeChanged) (v : Option Value) :
    evs.foldl (fun v ev => some (.array (recorded v ev))) v =
      if evs = [] then v
      else some (.array ((evs.map (·.snapshot)).foldl (Grouping.upsert instance_id) (instances v))) := by
  induction evs using List.reverseRecOn with
  | nil => rfl
  | append_singleton evs ev ih =>
      have hev := h ev (List.mem_append_right _ (List.mem_singleton.mpr rfl))
      rw [List.foldl_concat, ih fun e he => h e (List.mem_append_left _ he), recorded, if_neg hev]
      by_cases hnil : evs = []
      · subst hnil; rfl
      · rw [if_neg hnil, if_neg (List.append_ne_nil_of_right_ne_nil _ (List.cons_ne_nil _ _)), List.map_append,
          List.foldl_append]
        rfl

theorem slot_scope {ev : TemporalEvent} (h : ev.op ≠ .scopeChanged → ev.attr ≠ "scope") :
    slot ev = "scope" ↔ ev.op = .scopeChanged := by
  rw [slot]
  split_ifs with hop
  · exact iff_of_true rfl hop
  · exact iff_of_false (h hop) hop

theorem filter_slot (evs : List TemporalEvent) {k : String} (hk : k ≠ "scope") :
    evs.filter (fun ev => slot ev = k) = (evs.filter (fun ev => ev.op ≠ .scopeChanged)).filter (fun ev => ev.attr = k) := by
  rw [List.filter_filter]
  apply List.filter_congr
  intro ev _
  by_cases h : ev.op = .scopeChanged <;> simp [slot, h, Ne.symm hk]

/-- The scope changes written at once and the attributes appended at the end make the
document the events make one by one. -/
theorem append_run {d : Doc} {h : Option Doc} {run : List TemporalEvent} (hready : Ready h run)
    (hbase : ∀ ev ∈ run, h.getD ev.shell.get = d) {m : Map}
    (hm : (Value.object m).get = (run.filter (fun ev => ev.op = .scopeChanged)).foldl note d) :
    (Value.object (((run.filter (fun ev => ev.op ≠ .scopeChanged)).foldl add_instance []).foldl append_attr m)).get =
      run.foldl note d := by
  funext k
  rw [get_foldl_append_attr (sorted_gathered _), gathered, hm, foldl_note_apply, foldl_note_apply]
  by_cases hk : k = "scope"
  · subst hk
    have hnone : (run.filter (fun ev => ev.op ≠ .scopeChanged)).filter (fun ev => ev.attr = "scope") = [] := by
      rw [List.filter_eq_nil_iff]
      intro ev hev
      rw [List.mem_filter, decide_eq_true_eq] at hev
      simpa using hready.attrs ev hev.1 hev.2
    have hall : (run.filter (fun ev => ev.op = .scopeChanged)).filter (fun ev => slot ev = "scope") =
        run.filter (fun ev => slot ev = "scope") := by
      rw [List.filter_filter]
      apply List.filter_congr
      intro ev hev
      rw [← Bool.decide_and, decide_eq_decide, and_iff_left_iff_imp]
      exact (slot_scope (hready.attrs ev hev)).mp
    rw [if_pos hnone, hall]
  · have hscopes : (run.filter (fun ev => ev.op = .scopeChanged)).filter (fun ev => slot ev = k) = [] := by
      rw [List.filter_eq_nil_iff]
      intro ev hev
      rw [List.mem_filter, decide_eq_true_eq] at hev
      simpa [slot, hev.2] using Ne.symm hk
    rw [hscopes, List.foldl_nil, ← filter_slot run hk, foldl_recorded fun ev hev => ?_]
    · split_ifs with hnil
      · rfl
      · obtain ⟨ev, hev⟩ := List.exists_mem_of_ne_nil _ hnil
        obtain ⟨hmem, hslot⟩ := List.mem_filter.mp hev
        rw [filter_slot run hk] at hev
        obtain ⟨hev, hattr⟩ := List.mem_filter.mp hev
        have hop := of_decide_eq_true (List.mem_filter.mp hev).2
        rw [decide_eq_true_eq] at hattr
        subst hattr
        refine congrArg (fun items => some (Value.array items)) (joined_eq fun hbare => ?_)
        change (List.map instance_id (List.map TemporalEvent.snapshot _)).Nodup
        rw [List.map_map]
        exact hready.fresh ev hmem hop (hbase ev hmem ▸ hbare)
    · rw [filter_slot run hk] at hev
      exact of_decide_eq_true (List.mem_filter.mp (List.mem_filter.mp hev).1).2

end Documents

section Records

/-- The events recorded under one member of one document. -/
def under (t id k : String) (evs : List TemporalEvent) : List TemporalEvent :=
  evs.filter (fun ev => mine t id ev && slot ev = k)

theorem mem_under {t id k : String} {ev : TemporalEvent} {evs : List TemporalEvent} :
    ev ∈ under t id k evs ↔ ev ∈ evs ∧ mine t id ev = true ∧ slot ev = k := by
  rw [under, List.mem_filter, Bool.and_eq_true, decide_eq_true_eq]

theorem filter_mine (t id k : String) (evs : List TemporalEvent) :
    (evs.filter (mine t id)).filter (fun ev => slot ev = k) = under t id k evs := by
  rw [List.filter_filter, under]
  apply List.filter_congr
  exact fun ev _ => Bool.and_comm _ _

/-- A member after a list of events. -/
theorem foldl_record_member (evs : List TemporalEvent) (H : Histories) (t id k : String) (hne : under t id k evs ≠ []) :
    ∃ doc v, evs.foldl record H t id = some doc ∧
      doc k = (under t id k evs).foldl (fun v ev => some (.array (recorded v ev))) v := by
  rw [foldl_record_apply]
  have hunder := filter_mine t id k evs
  cases hl : evs.filter (mine t id) with
  | nil =>
      rw [hl] at hunder
      exact absurd hunder.symm hne
  | cons e l =>
      refine ⟨_, (H t id).getD e.shell.get k, foldl_noted e l _, ?_⟩
      rw [foldl_note_apply, ← hl, hunder]

theorem foldl_record_some (evs : List TemporalEvent) {H : Histories} {t id : String} {d : Doc} (hd : H t id = some d) :
    ∃ doc, evs.foldl record H t id = some doc ∧
      ∀ k, doc k = (under t id k evs).foldl (fun v ev => some (.array (recorded v ev))) (d k) := by
  rw [foldl_record_apply, hd]
  cases hl : evs.filter (mine t id) with
  | nil =>
      refine ⟨d, rfl, fun k => ?_⟩
      rw [← filter_mine, hl]
      rfl
  | cons e l =>
      refine ⟨_, foldl_noted e l _, fun k => ?_⟩
      rw [foldl_note_apply, ← hl, filter_mine, Option.getD_some]

/-- The instances of a scope are kept when changes of it are recorded. -/
theorem scope_instances_append (v : Option Value) {l : List Value} (h : ∀ i ∈ l, i.is_object = true) :
    scope_instances (some (.array (scope_instances v ++ l))) = scope_instances v ++ l := by
  have hfirst : ∀ first arr, scope_instances v ++ l = first :: arr → first.is_object = true := by
    intro first arr heq
    cases hv : scope_instances v with
    | nil =>
        rw [hv, List.nil_append] at heq
        exact h first (heq ▸ List.mem_cons_self)
    | cons i is =>
        rw [hv, List.cons_append, List.cons.injEq] at heq
        rw [← heq.1]
        rw [scope_instances.eq_def] at hv
        split at hv
        · split_ifs at hv with hobj
          · rw [List.cons.injEq] at hv
            rwa [← hv.1]
        · cases hv
  cases heq : scope_instances v ++ l with
  | nil => rfl
  | cons first arr => rw [scope_instances, if_pos (hfirst first arr heq)]

/-- Scope changes recorded one by one. -/
theorem foldl_recorded_scope {evs : List TemporalEvent} (hop : ∀ ev ∈ evs, ev.op = .scopeChanged)
    (hobj : ∀ ev ∈ evs, ev.snapshot.is_object = true) (v : Option Value) (hne : evs ≠ []) :
    evs.foldl (fun v ev => some (.array (recorded v ev))) v =
      some (.array (scope_instances v ++ evs.map (·.snapshot))) := by
  induction evs using List.reverseRecOn with
  | nil => exact absurd rfl hne
  | append_singleton evs ev ih =>
      rw [List.foldl_concat, recorded, if_pos (hop ev (List.mem_append_right _ (List.mem_singleton.mpr rfl))), List.map_append,
        ← List.append_assoc]
      refine congrArg (fun items => some (Value.array (items ++ [ev.snapshot]))) ?_
      by_cases hnil : evs = []
      · subst hnil
        exact (List.append_nil _).symm
      · rw [ih (fun e he => hop e (List.mem_append_left _ he)) (fun e he => hobj e (List.mem_append_left _ he)) hnil]
        refine scope_instances_append v fun i hi => ?_
        obtain ⟨e, he, rfl⟩ := List.mem_map.mp hi
        exact hobj e (List.mem_append_left _ he)

variable {H : Histories} {evs : List TemporalEvent}

theorem Sound.left {evs' : List TemporalEvent} (h : Sound H (evs ++ evs')) : Sound H evs := by
  intro pre seg post t id hsplit
  exact h pre seg (post ++ evs') t id (by rw [hsplit, List.append_assoc])

theorem Sound.right {evs' : List TemporalEvent} (h : Sound H (evs ++ evs')) :
    Sound (evs.foldl record H) evs' := by
  intro pre seg post t id hsplit
  rw [← List.foldl_append]
  exact h (evs ++ pre) seg post t id (by rw [hsplit, List.append_assoc, List.append_assoc, List.append_assoc])

theorem Sound.ready (h : Sound H evs) {pre post : List TemporalEvent} {ev : TemporalEvent} (hsplit : evs = pre ++ ev :: post) :
    Ready (pre.foldl record H ev.tenant.name ev.entity_id) [ev] := by
  refine h pre [ev] post _ _ (by rw [hsplit, List.append_assoc]; rfl) fun e he => ?_
  rw [List.mem_singleton.mp he]
  exact mine_iff.mpr ⟨rfl, rfl⟩

theorem Sound.event (h : Sound H evs) {ev : TemporalEvent} (hev : ev ∈ evs) :
    (ev.op ≠ .scopeChanged → ev.attr ≠ "scope") ∧ (ev.op = .scopeChanged → ev.snapshot.is_object = true) ∧
      ev.shell.is_object = true := by
  obtain ⟨pre, post, hsplit⟩ := List.append_of_mem hev
  have hready := h.ready hsplit
  exact ⟨hready.attrs ev List.mem_cons_self, hready.scopes ev List.mem_cons_self, hready.shells ev List.mem_cons_self⟩

theorem exists_doc (H : Histories) {ev : TemporalEvent} (hev : ev ∈ evs) :
    ∃ doc, evs.foldl record H ev.tenant.name ev.entity_id = some doc := by
  have hne : under ev.tenant.name ev.entity_id (slot ev) evs ≠ [] :=
    List.ne_nil_of_mem (mem_under.mpr ⟨hev, mine_iff.mpr ⟨rfl, rfl⟩, rfl⟩)
  obtain ⟨doc, -, hdoc, -⟩ := foldl_record_member evs H _ _ _ hne
  exact ⟨doc, hdoc⟩

/-- The instances of an attribute of the events have different ids. -/
theorem nodup_recorded (h : Sound H evs) {ev : TemporalEvent} (hev : ev ∈ evs) (hop : ev.op ≠ .scopeChanged) {doc : Doc}
    {items : List Value} (hdoc : evs.foldl record H ev.tenant.name ev.entity_id = some doc)
    (hitems : doc ev.attr = some (.array items)) : (items.map instance_id).Nodup := by
  induction evs using List.reverseRecOn generalizing doc items with
  | nil => cases hev
  | append_singleton evs e ih =>
      rw [List.foldl_concat, record] at hdoc
      by_cases he : mine ev.tenant.name ev.entity_id e = true
      · obtain ⟨ht, hid⟩ := mine_iff.mp he
        have hready := h.ready (show evs ++ [e] = evs ++ e :: [] from rfl)
        rw [if_pos he, noted, Option.some.injEq] at hdoc
        rw [ht, hid] at hready
        subst hdoc
        rw [note, Function.update_apply] at hitems
        split_ifs at hitems with hslot
        · have hattr := (h.event hev).1 hop
          have hep : e.op ≠ .scopeChanged := fun hep => hattr (by rw [hslot, slot, if_pos hep])
          have hslot' : slot e = e.attr := if_neg hep
          rw [recorded, if_neg hep, Option.some.injEq, Value.array.injEq] at hitems
          rw [← hitems]
          refine Grouping.nodup_foldl_upsert [e.snapshot] ?_
          rcases instances_array (((evs.foldl record H ev.tenant.name ev.entity_id).getD e.shell.get) (slot e)) with
            ⟨hnil, -⟩ | ⟨cur, hcur, hinst⟩
          · rw [hnil]
            exact List.nodup_nil
          · rw [hinst]
            rw [hslot'] at hcur
            exact hready.distinct e List.mem_cons_self hep cur hcur
        · have hmem : ev ∈ evs := by
            rcases List.mem_append.mp hev with hev | hev
            · exact hev
            · have heq := List.mem_singleton.mp hev
              subst heq
              exact absurd (by rw [slot, if_neg hop]) hslot
          obtain ⟨doc, hdoc⟩ := exists_doc H hmem
          rw [hdoc, Option.getD_some] at hitems
          exact ih h.left hmem hdoc hitems
      · rw [if_neg he] at hdoc
        refine ih h.left ?_ hdoc hitems
        rcases List.mem_append.mp hev with hev | hev
        · exact hev
        · rw [List.mem_singleton.mp hev] at he
          exact absurd (mine_iff.mpr ⟨rfl, rfl⟩) he

theorem op_under {t id k : String} (hk : k ≠ "scope") : ∀ ev ∈ under t id k evs, ev.op ≠ .scopeChanged := by
  intro ev hev hop
  rw [mem_under, slot, if_pos hop] at hev
  exact hk hev.2.2.symm

/-- An attribute of the events after all of them. -/
theorem recorded_attr (h : Sound H evs) {ev : TemporalEvent} (hev : ev ∈ evs) (hop : ev.op ≠ .scopeChanged) :
    ∃ doc base, evs.foldl record H ev.tenant.name ev.entity_id = some doc ∧
      doc ev.attr = some (.array (((under ev.tenant.name ev.entity_id ev.attr evs).map (·.snapshot)).foldl
        (Grouping.upsert instance_id) base)) := by
  have hmem : ev ∈ under ev.tenant.name ev.entity_id ev.attr evs :=
    mem_under.mpr ⟨hev, mine_iff.mpr ⟨rfl, rfl⟩, if_neg hop⟩
  have hne := List.ne_nil_of_mem hmem
  obtain ⟨doc, v, hdoc, hval⟩ := foldl_record_member evs H _ _ _ hne
  rw [foldl_recorded (op_under ((h.event hev).1 hop)), if_neg hne] at hval
  exact ⟨doc, _, hdoc, hval⟩

/-- The documents of the events are there and hold each instance of their attributes once. -/
structure Stored (H : Histories) (evs : List TemporalEvent) : Prop where
  attrs : ∀ ev ∈ evs, ev.op ≠ .scopeChanged → ev.attr ≠ "scope"
  scopes : ∀ ev ∈ evs, ev.op = .scopeChanged → ev.snapshot.is_object = true
  shells : ∀ ev ∈ evs, ev.shell.is_object = true
  held : ∀ ev ∈ evs, ∃ doc, H ev.tenant.name ev.entity_id = some doc ∧
    (ev.op ≠ .scopeChanged → ∃ items, doc ev.attr = some (.array items) ∧ (items.map instance_id).Nodup)

theorem stored_of_sound (h : Sound H evs) : Stored (evs.foldl record H) evs where
  attrs ev hev := (h.event hev).1
  scopes ev hev := (h.event hev).2.1
  shells ev hev := (h.event hev).2.2
  held ev hev := by
    obtain ⟨doc, hdoc⟩ := exists_doc H hev
    refine ⟨doc, hdoc, fun hop => ?_⟩
    obtain ⟨doc', base, hdoc', hval⟩ := recorded_attr h hev hop
    rw [hdoc, Option.some.injEq] at hdoc'
    subst hdoc'
    exact ⟨_, hval, nodup_recorded h hev hop hdoc hval⟩

theorem Stored.record (h : Stored H evs) (e : TemporalEvent) : Stored (record H e) evs := by
  refine ⟨h.attrs, h.scopes, h.shells, fun ev hev => ?_⟩
  obtain ⟨doc, hdoc, hheld⟩ := h.held ev hev
  rw [Drain.record, hdoc]
  by_cases hmine : mine ev.tenant.name ev.entity_id e = true
  · refine ⟨_, if_pos hmine, fun hop => ?_⟩
    obtain ⟨items, hitems, hnodup⟩ := hheld hop
    rw [Option.getD_some, note, Function.update_apply]
    by_cases hslot : ev.attr = slot e
    · have hep : e.op ≠ .scopeChanged := fun hep => h.attrs ev hev hop (by rw [hslot, slot, if_pos hep])
      rw [if_pos hslot, ← hslot, hitems, recorded, if_neg hep]
      exact ⟨_, rfl, Grouping.nodup_foldl_upsert [e.snapshot] hnodup⟩
    · rw [if_neg hslot]
      exact ⟨items, hitems, hnodup⟩
  · exact ⟨doc, if_neg hmine, hheld⟩

theorem sound_of_stored (h : Stored H evs) : Sound H evs := by
  intro pre seg post t id hsplit hseg
  have hstored : Stored (pre.foldl Drain.record H) evs := by
    clear hsplit
    induction pre using List.reverseRecOn with
    | nil => exact h
    | append_singleton pre e ih =>
        rw [List.foldl_concat]
        exact ih.record e
  have hmem : ∀ ev ∈ seg, ev ∈ evs := fun ev hev => hsplit ▸ List.mem_append_left _ (List.mem_append_right _ hev)
  have hheld : ∀ ev ∈ seg, ∃ doc, pre.foldl Drain.record H t id = some doc ∧
      (ev.op ≠ .scopeChanged → ∃ items, doc ev.attr = some (.array items) ∧ (items.map instance_id).Nodup) := by
    intro ev hev
    obtain ⟨rfl, rfl⟩ := mine_iff.mp (hseg ev hev)
    exact hstored.held ev (hmem ev hev)
  refine ⟨fun ev hev => h.attrs ev (hmem ev hev), fun ev hev => h.scopes ev (hmem ev hev),
    fun ev hev => h.shells ev (hmem ev hev), fun hnone ev hev => ?_, fun ev hev hop hbare => ?_,
    fun ev hev hop cur hcur => ?_⟩
  · obtain ⟨doc, hdoc, -⟩ := hheld ev hev
    rw [hnone] at hdoc
    cases hdoc
  · obtain ⟨doc, hdoc, hitems⟩ := hheld ev hev
    obtain ⟨items, hitems, -⟩ := hitems hop
    rw [hdoc, Option.getD_some] at hbare
    exact absurd hitems (hbare items)
  · obtain ⟨doc, hdoc, hitems⟩ := hheld ev hev
    obtain ⟨items, hitems, hnodup⟩ := hitems hop
    rw [hdoc, Option.getD_some, hitems, Option.some.injEq, Value.array.injEq] at hcur
    exact hcur ▸ hnodup

/-- The same events once more leave every attribute. -/
theorem record_again (h : Sound H evs) {k : String} (hk : k ≠ "scope") (t id : String) :
    (evs.foldl Drain.record (evs.foldl Drain.record H) t id).bind (fun doc => doc k) =
      (evs.foldl Drain.record H t id).bind (fun doc => doc k) := by
  by_cases hmine : ∃ ev ∈ evs, mine t id ev = true
  · obtain ⟨ev, hev, hmine⟩ := hmine
    obtain ⟨rfl, rfl⟩ := mine_iff.mp hmine
    obtain ⟨d, hd⟩ := exists_doc H hev
    obtain ⟨doc, hdoc, hval⟩ := foldl_record_some evs hd
    rw [hdoc, hd, Option.bind_some, Option.bind_some, hval, foldl_recorded (op_under hk)]
    split_ifs with hnil
    · rfl
    · obtain ⟨e, he⟩ := List.exists_mem_of_ne_nil _ hnil
      obtain ⟨hmem, hmine, hslot⟩ := mem_under.mp he
      obtain ⟨ht, hid⟩ := mine_iff.mp hmine
      have hop := op_under hk e he
      rw [slot, if_neg hop] at hslot
      obtain ⟨d', base, hd', hbase⟩ := recorded_attr h hmem hop
      have hnodup := nodup_recorded h hmem hop hd' hbase
      rw [ht, hid, hd, Option.some.injEq] at hd'
      rw [← hd', ht, hid, hslot] at hbase
      rw [ht, hid, hslot] at hnodup
      rw [hbase]
      exact congrArg (fun items => some (Value.array items)) (Grouping.foldl_upsert_idem _ hnodup)
  · have hnone : evs.filter (mine t id) = [] := by
      rw [List.filter_eq_nil_iff]
      exact fun ev hev h => hmine ⟨ev, hev, h⟩
    rw [foldl_record_apply, hnone, List.foldl_nil]

end Records

section Stores

variable {Instant Bytes : Type} [LinearOrder Instant] (chrono : Chrono Instant) (codec : Codec Bytes)
  (temporal_only : Bool)

/-- Two states of the store differ in one temporal document at most. -/
def Elsewhere (t id : String) (i j : Inner) : Prop :=
  ∀ k t' id', ¬ (k = .temporal ∧ t' = t ∧ id' = id) → j.get k t' id' = i.get k t' id'

theorem Elsewhere.trans {t id : String} {i j k : Inner} (h : Elsewhere t id i j) (h' : Elsewhere t id j k) :
    Elsewhere t id i k := fun kind t' id' hne => (h' kind t' id' hne).trans (h kind t' id' hne)

theorem elsewhere_insert (i : Inner) (t id : String) (d : Value) : Elsewhere t id i (i.insert .temporal t id d) := by
  intro k t' id' hne
  rw [Inner.get_insert, if_neg hne]

theorem mutate_some {s : Store Bytes} {tenant : TenantId} {id : String} {v w : Value} {f : Value → Except Unit (Unit × Value)}
    (now : String) (hv : s.inner.get .temporal tenant.name id = some v) (hf : f v = .ok ((), w)) :
    (mutate chrono codec s now tenant .temporal id f).1.inner = s.inner.insert .temporal tenant.name id w := by
  have hexp : is_expired chrono s.inner .temporal tenant.name id now = false := rfl
  rw [mutate, hexp, if_neg Bool.false_ne_true]
  simp only [hv, hf]

theorem create_none {s : Store Bytes} {tenant : TenantId} {id : String} (now : String) (doc : Value)
    (hv : s.inner.get .temporal tenant.name id = none) : (create chrono codec s now tenant .temporal id doc).1.inner =
      (s.inner.entry .temporal tenant.name).insert .temporal tenant.name id doc := by
  rw [create, Inner.get_entry, hv]
  exact Shadow.persist_inner codec _ _ _ _

/-- A document appended to, made of the shell if there was none. -/
theorem temporal_append_object {s : Store Bytes} {tenant : TenantId} {id : String} (now : String) (shell : Value)
    (additions : Map) (hpresent : temporal_only = true ∨ (s.inner.get .entity tenant.name id).isSome = true) {m : Map}
    (hm : (s.inner.get .temporal tenant.name id).getD shell = .object m) :
    let j := (temporal_append chrono codec temporal_only s now tenant id shell (.object additions)).inner
    j.get .temporal tenant.name id = some (.object (additions.foldl append_attr m)) ∧
      Elsewhere tenant.name id s.inner j := by
  have hguard : (!temporal_only && (s.inner.get .entity tenant.name id).isNone) = false := by
    rcases hpresent with h | h
    · rw [h]; rfl
    · rw [Option.isNone_eq_false_iff.mpr h, Bool.and_false]
  rw [temporal_append, hguard, if_neg Bool.false_ne_true]
  have hadd : append_all (.object additions) (.object m) = .ok ((), .object (additions.foldl append_attr m)) := rfl
  cases hv : s.inner.get .temporal tenant.name id with
  | none =>
      rw [hv] at hm
      have hcreate := create_none chrono codec now shell hv
      have hget : (create chrono codec s now tenant .temporal id shell).1.inner.get .temporal tenant.name id =
          some (.object m) := by
        rw [hcreate, Inner.get_insert, if_pos ⟨rfl, rfl, rfl⟩, ← hm, Option.getD_none]
      have helse : Elsewhere tenant.name id s.inner (create chrono codec s now tenant .temporal id shell).1.inner := by
        intro k t' id' hne
        rw [hcreate, Inner.get_insert, if_neg hne, Inner.get_entry]
      simp only [Option.isNone_none, if_true]
      rw [mutate_some chrono codec now hget hadd]
      exact ⟨by rw [Inner.get_insert, if_pos ⟨rfl, rfl, rfl⟩], helse.trans (elsewhere_insert _ _ _ _)⟩
  | some v =>
      rw [hv, Option.getD_some] at hm
      subst hm
      simp only [Option.isNone_some, Bool.false_eq_true, if_false]
      rw [mutate_some chrono codec now hv hadd]
      exact ⟨by rw [Inner.get_insert, if_pos ⟨rfl, rfl, rfl⟩], elsewhere_insert _ _ _ _⟩

theorem walk_additions (now : String) (tenant : TenantId) (id : String) (evs : List TemporalEvent) (w : Walk Bytes) :
    (evs.foldl (walk chrono codec now tenant id) w).additions =
      (evs.filter (fun ev => ev.op ≠ .scopeChanged)).foldl add_instance w.additions := by
  induction evs generalizing w with
  | nil => rfl
  | cons ev evs ih =>
      rw [List.foldl_cons, ih, walk]
      by_cases h : ev.op = .scopeChanged <;> simp [h]

theorem walk_shell (now : String) (tenant : TenantId) (id : String) (evs : List TemporalEvent) (w : Walk Bytes)
    (h : ∀ ev ∈ evs, ev.shell = w.shell) : (evs.foldl (walk chrono codec now tenant id) w).shell = w.shell := by
  induction evs generalizing w with
  | nil => rfl
  | cons ev evs ih =>
      rw [List.forall_mem_cons] at h
      have hshell : (walk chrono codec now tenant id w ev).shell = w.shell := by
        rw [walk]
        split_ifs <;> exact h.1
      rw [List.foldl_cons, ih _ (hshell ▸ h.2), hshell]

/-- Without a document no scope change is written. -/
theorem walk_none (now : String) (tenant : TenantId) (id : String) (evs : List TemporalEvent) (w : Walk Bytes)
    (h : ∀ ev ∈ evs, ev.op ≠ .scopeChanged) : (evs.foldl (walk chrono codec now tenant id) w).store = w.store := by
  induction evs generalizing w with
  | nil => rfl
  | cons ev evs ih =>
      rw [List.forall_mem_cons] at h
      rw [List.foldl_cons, ih _ h.2, walk, if_neg h.1]

theorem walk_some (now : String) (tenant : TenantId) (id : String) (evs : List TemporalEvent) (w : Walk Bytes) {m : Map}
    (hm : w.store.inner.get .temporal tenant.name id = some (.object m)) :
    ∃ m', (evs.foldl (walk chrono codec now tenant id) w).store.inner.get .temporal tenant.name id = some (.object m') ∧
      (Value.object m').get = (evs.filter (fun ev => ev.op = .scopeChanged)).foldl note (Value.object m).get ∧
      Elsewhere tenant.name id w.store.inner (evs.foldl (walk chrono codec now tenant id) w).store.inner := by
  induction evs generalizing w m with
  | nil => exact ⟨m, hm, rfl, fun _ _ _ _ => rfl⟩
  | cons ev evs ih =>
      rw [List.foldl_cons, walk]
      by_cases h : ev.op = .scopeChanged
      · obtain ⟨m₁, hpush, hnote⟩ := push_scope_object ev h m
        rw [if_pos h, List.filter_cons, if_pos (decide_eq_true h), List.foldl_cons, ← hnote]
        have hmut := mutate_some chrono codec now hm hpush
        obtain ⟨m', hget, hdoc, helse⟩ := ih (m := m₁)
          { store := (mutate chrono codec w.store now tenant .temporal id (push_scope ev.snapshot)).1
            additions := w.additions, shell := ev.shell }
          (by rw [hmut, Inner.get_insert, if_pos ⟨rfl, rfl, rfl⟩])
        refine ⟨m', hget, hdoc, Elsewhere.trans ?_ helse⟩
        rw [hmut]
        exact elsewhere_insert _ _ _ _
      · rw [if_neg h, List.filter_cons, if_neg (by simpa using h)]
        exact ih { w with additions := add_instance w.additions ev, shell := ev.shell } hm

theorem object_of_isObject {v : Value} (h : v.is_object = true) : ∃ m, v = .object m := by
  cases v with
  | object m => exact ⟨m, rfl⟩
  | null | bool _ | number _ | string _ | array _ => cases h

/-- The temporal documents are objects. -/
def Objects (i : Inner) : Prop := ∀ t id v, i.get .temporal t id = some v → v.is_object = true

/-- The drain of a run is the record of its events one by one. -/
theorem drain_run_document (now : String) {s : Store Bytes} {ev : TemporalEvent} {evs : List TemporalEvent}
    (hpresent : temporal_only = true ∨ (s.inner.get .entity ev.tenant.name ev.entity_id).isSome = true)
    (hobj : Objects s.inner) (hready : Ready (histories s.inner ev.tenant.name ev.entity_id) (ev :: evs)) :
    ∃ m, (drain_run chrono codec temporal_only now s (ev :: evs)).inner.get .temporal ev.tenant.name ev.entity_id =
        some (.object m) ∧
      some (Value.object m).get = (ev :: evs).foldl noted (histories s.inner ev.tenant.name ev.entity_id) ∧
      Elsewhere ev.tenant.name ev.entity_id s.inner (drain_run chrono codec temporal_only now s (ev :: evs)).inner := by
  set run := ev :: evs with hrun
  rw [drain_run.eq_def, hrun]
  simp only
  rw [← hrun]
  set w := run.foldl (walk chrono codec now ev.tenant ev.entity_id) ⟨s, [], ev.shell⟩ with hw
  have hadd : w.additions = (run.filter (fun e => e.op ≠ .scopeChanged)).foldl add_instance [] := walk_additions _ _ _ _ _ _ _
  rw [hrun, foldl_noted, ← hrun]
  have hev : ev ∈ run := List.mem_cons_self
  cases hv : s.inner.get .temporal ev.tenant.name ev.entity_id with
  | none =>
      have hnone : histories s.inner ev.tenant.name ev.entity_id = none := by rw [histories, hv]; rfl
      rw [hnone] at hready ⊢
      have hattrs : ∀ e ∈ run, e.op ≠ .scopeChanged := fun e he => (hready.first rfl e he).1
      have hall : run.filter (fun e => e.op ≠ .scopeChanged) = run := by
        rw [List.filter_eq_self]
        exact fun e he => decide_eq_true (hattrs e he)
      have hscopes : run.filter (fun e => e.op = .scopeChanged) = [] := by
        rw [List.filter_eq_nil_iff]
        exact fun e he h => hattrs e he (of_decide_eq_true h)
      have hstore : w.store = s := walk_none _ _ _ _ _ _ _ hattrs
      have hshell : w.shell = ev.shell := walk_shell _ _ _ _ _ _ _ fun e he => (hready.first rfl e he).2 ev hev
      obtain ⟨m, hm⟩ := object_of_isObject (hready.shells ev hev)
      have hsome : w.additions ≠ [] := by
        intro hnil
        have hlookup := gathered run ev.attr
        rw [hall] at hadd
        rw [← hadd, hnil, if_neg (List.ne_nil_of_mem (List.mem_filter.mpr ⟨hev, decide_eq_true rfl⟩))] at hlookup
        cases hlookup
      rw [if_neg (by rwa [List.isEmpty_iff]), hstore, hshell]
      obtain ⟨hget, helse⟩ := temporal_append_object chrono codec temporal_only now ev.shell w.additions hpresent
        (m := m) (by rw [hv, Option.getD_none, hm])
      refine ⟨_, hget, ?_, helse⟩
      have hbase : ∀ e ∈ run, (none : Option Doc).getD e.shell.get = (Value.object m).get := by
        intro e he
        rw [Option.getD_none, (hready.first rfl e he).2 ev hev, hm]
      rw [hadd, append_run hready hbase (by rw [hscopes]; rfl), hbase ev hev]
  | some v =>
      obtain ⟨m, rfl⟩ := object_of_isObject (hobj _ _ v hv)
      have hsome : histories s.inner ev.tenant.name ev.entity_id = some (Value.object m).get := by rw [histories, hv]; rfl
      rw [hsome] at hready ⊢
      obtain ⟨m₁, hget, hdoc, helse⟩ := walk_some chrono codec now ev.tenant ev.entity_id run ⟨s, [], ev.shell⟩ hv
      rw [← hw] at hget helse
      have happend := append_run hready (fun _ _ => Option.getD_some) hdoc
      rw [← hadd] at happend
      rw [Option.getD_some, ← happend]
      split_ifs with hnil
      · rw [List.isEmpty_iff.mp hnil]
        exact ⟨m₁, hget, rfl, helse⟩
      · have hentity : w.store.inner.get .entity ev.tenant.name ev.entity_id =
            s.inner.get .entity ev.tenant.name ev.entity_id := helse _ _ _ fun h => by cases h.1
        obtain ⟨hget', helse'⟩ := temporal_append_object chrono codec temporal_only now w.shell w.additions
          (hentity.symm ▸ hpresent) (m := m₁) (by rw [hget, Option.getD_some])
        exact ⟨_, hget', rfl, helse.trans helse'⟩

/-- The events are recorded, and nothing else has changed. -/
structure Drained (i j : Inner) (evs : List TemporalEvent) : Prop where
  recorded : histories j = evs.foldl record (histories i)
  objects : Objects j
  entities : ∀ t id, j.get .entity t id = i.get .entity t id

theorem Drained.trans {i j k : Inner} {evs evs' : List TemporalEvent} (h : Drained i j evs) (h' : Drained j k evs') :
    Drained i k (evs ++ evs') where
  recorded := by rw [h'.recorded, h.recorded, List.foldl_append]
  objects := h'.objects
  entities t id := (h'.entities t id).trans (h.entities t id)

/-- The entities of the events are there. -/
def Present (i : Inner) (evs : List TemporalEvent) : Prop :=
  ∀ ev ∈ evs, temporal_only = true ∨ (i.get .entity ev.tenant.name ev.entity_id).isSome = true

theorem drain_run_drained (now : String) {s : Store Bytes} {run : List TemporalEvent} (hone : OneEntity run)
    (hpresent : Present temporal_only s.inner run) (hobj : Objects s.inner) (hsound : Sound (histories s.inner) run) :
    Drained s.inner (drain_run chrono codec temporal_only now s run).inner run := by
  obtain ⟨hne, t, id, hrun⟩ := hone
  obtain ⟨ev, evs, rfl⟩ := List.exists_cons_of_ne_nil hne
  obtain ⟨rfl, rfl⟩ := mine_iff.mp (hrun ev List.mem_cons_self)
  have hready := hsound [] (ev :: evs) [] _ _ (by rw [List.append_nil, List.nil_append]) hrun
  obtain ⟨m, hget, hdoc, helse⟩ := drain_run_document chrono codec temporal_only now
    (hpresent ev List.mem_cons_self) hobj hready
  refine ⟨?_, ?_, fun t id => helse _ _ _ fun h => by cases h.1⟩
  · funext t id
    rw [foldl_record_apply]
    by_cases h : t = ev.tenant.name ∧ id = ev.entity_id
    · obtain ⟨rfl, rfl⟩ := h
      rw [List.filter_eq_self.mpr hrun, ← hdoc, histories, hget]
      rfl
    · have hnone : (ev :: evs).filter (mine t id) = [] := by
        rw [List.filter_eq_nil_iff]
        intro e he hmine
        have h1 := mine_iff.mp (hrun e he)
        have h2 := mine_iff.mp hmine
        exact h ⟨h2.1.symm.trans h1.1, h2.2.symm.trans h1.2⟩
      rw [hnone, List.foldl_nil, histories, histories, helse _ _ _ fun h' => h h'.2]
  · intro t id v hv
    by_cases h : t = ev.tenant.name ∧ id = ev.entity_id
    · obtain ⟨rfl, rfl⟩ := h
      rw [hget, Option.some.injEq] at hv
      rw [← hv]
      rfl
    · rw [helse _ _ _ fun h' => h h'.2] at hv
      exact hobj t id v hv

theorem event_list_drained (now : String) {s : Store Bytes} {evs : List TemporalEvent}
    (hpresent : Present temporal_only s.inner evs) (hobj : Objects s.inner) (hsound : Sound (histories s.inner) evs) :
    Drained s.inner (event_list chrono codec temporal_only now s evs).inner evs := by
  have hone := oneEntity_runs evs
  have hflat := flatten_runs evs
  rw [event_list]
  generalize runs evs = segs at hone hflat ⊢
  induction segs generalizing s evs with
  | nil =>
      subst hflat
      exact ⟨rfl, hobj, fun _ _ => rfl⟩
  | cons run segs ih =>
      rw [List.flatten_cons] at hflat
      subst hflat
      rw [List.forall_mem_cons] at hone
      have hrun := drain_run_drained chrono codec temporal_only now hone.1
        (fun ev hev => hpresent ev (List.mem_append_left _ hev)) hobj hsound.left
      refine hrun.trans (ih (fun ev hev => ?_) hrun.objects (hrun.recorded ▸ hsound.right) hone.2 rfl)
      rw [hrun.entities]
      exact hpresent ev (List.mem_append_right _ hev)

/-- Pieces of a list of events, each with the instant it is drained at, one after the other. -/
def drain_pieces (s : Store Bytes) (pieces : List (String × List TemporalEvent)) : Store Bytes :=
  pieces.foldl (fun s p => event_list chrono codec temporal_only p.1 s p.2) s

theorem drain_pieces_drained {s : Store Bytes} {pieces : List (String × List TemporalEvent)}
    (hpresent : Present temporal_only s.inner (pieces.flatMap Prod.snd)) (hobj : Objects s.inner)
    (hsound : Sound (histories s.inner) (pieces.flatMap Prod.snd)) :
    Drained s.inner (drain_pieces chrono codec temporal_only s pieces).inner (pieces.flatMap Prod.snd) := by
  induction pieces generalizing s with
  | nil => exact ⟨rfl, hobj, fun _ _ => rfl⟩
  | cons p pieces ih =>
      rw [List.flatMap_cons] at hpresent hsound ⊢
      have hpiece := event_list_drained chrono codec temporal_only p.1
        (fun ev hev => hpresent ev (List.mem_append_left _ hev)) hobj hsound.left
      refine hpiece.trans (ih (fun ev hev => ?_) hpiece.objects (hpiece.recorded ▸ hsound.right))
      rw [hpiece.entities]
      exact hpresent ev (List.mem_append_right _ hev)

/-- The last snapshot of an instance among the events of its attribute. -/
def last_content (evs : List TemporalEvent) (ev : TemporalEvent) : Option Value :=
  ((under ev.tenant.name ev.entity_id ev.attr evs).map (·.snapshot)).reverse.find?
    (fun i => instance_id i = instance_id ev.snapshot)

def scope_snapshots (evs : List TemporalEvent) (ev : TemporalEvent) : List Value :=
  (under ev.tenant.name ev.entity_id "scope" evs).map (·.snapshot)

/-- The drain of a sound list of events does not depend on how the list is cut: every
instance is there once with its last content, every scope change is there, and a second
drain changes no attribute. -/
theorem event_list_batching {s : Store Bytes} {evs : List TemporalEvent} (now again : String)
    (hpresent : Present temporal_only s.inner evs) (hobj : Objects s.inner) (hsound : Sound (histories s.inner) evs) :
    let once := event_list chrono codec temporal_only now s evs
    (∀ pieces : List (String × List TemporalEvent), pieces.flatMap Prod.snd = evs →
        histories (drain_pieces chrono codec temporal_only s pieces).inner = histories once.inner) ∧
      (∀ ev ∈ evs, ev.op ≠ .scopeChanged → ∃ doc items,
        histories once.inner ev.tenant.name ev.entity_id = some doc ∧ doc ev.attr = some (.array items) ∧
          (items.map instance_id).Nodup ∧
          items.find? (fun i => instance_id i = instance_id ev.snapshot) = last_content evs ev) ∧
      (∀ ev ∈ evs, ev.op = .scopeChanged → ∃ doc earlier,
        histories once.inner ev.tenant.name ev.entity_id = some doc ∧
          doc "scope" = some (.array (earlier ++ scope_snapshots evs ev))) ∧
      ∀ t id k, k ≠ "scope" →
        (histories (event_list chrono codec temporal_only again once evs).inner t id).bind (fun doc => doc k) =
          (histories once.inner t id).bind (fun doc => doc k) := by
  intro once
  have honce := event_list_drained chrono codec temporal_only now hpresent hobj hsound
  have hrec : histories once.inner = evs.foldl record (histories s.inner) := honce.recorded
  refine ⟨fun pieces hpieces => ?_, fun ev hev hop => ?_, fun ev hev hop => ?_, fun t id k hk => ?_⟩
  · subst hpieces
    rw [hrec]
    exact (drain_pieces_drained chrono codec temporal_only hpresent hobj hsound).recorded
  · rw [hrec]
    obtain ⟨doc, base, hdoc, hval⟩ := recorded_attr hsound hev hop
    refine ⟨doc, _, hdoc, hval, nodup_recorded hsound hev hop hdoc hval, ?_⟩
    rw [Grouping.find_foldl_upsert, last_content]
    have hmem : ev ∈ under ev.tenant.name ev.entity_id ev.attr evs :=
      mem_under.mpr ⟨hev, mine_iff.mpr ⟨rfl, rfl⟩, if_neg hop⟩
    have hsome : (((under ev.tenant.name ev.entity_id ev.attr evs).map (·.snapshot)).reverse.find?
        (fun i => instance_id i = instance_id ev.snapshot)).isSome = true := by
      rw [List.find?_isSome]
      exact ⟨ev.snapshot, List.mem_reverse.mpr (List.mem_map_of_mem hmem), decide_eq_true rfl⟩
    obtain ⟨i, hi⟩ := Option.isSome_iff_exists.mp hsome
    rw [hi, Option.some_or]
  · rw [hrec]
    have hmem : ev ∈ under ev.tenant.name ev.entity_id "scope" evs :=
      mem_under.mpr ⟨hev, mine_iff.mpr ⟨rfl, rfl⟩, if_pos hop⟩
    obtain ⟨doc, v, hdoc, hval⟩ := foldl_record_member evs (histories s.inner) _ _ _ (List.ne_nil_of_mem hmem)
    refine ⟨doc, scope_instances v, hdoc, ?_⟩
    have hscope : ∀ e ∈ under ev.tenant.name ev.entity_id "scope" evs, e ∈ evs ∧ e.op = .scopeChanged := by
      intro e he
      obtain ⟨hmem, -, hslot⟩ := mem_under.mp he
      exact ⟨hmem, (slot_scope (hsound.event hmem).1).mp hslot⟩
    rw [hval, foldl_recorded_scope (fun e he => (hscope e he).2)
      (fun e he => (hsound.event (hscope e he).1).2.1 (hscope e he).2) v (List.ne_nil_of_mem hmem), scope_snapshots]
  · have hagain : Drained once.inner (event_list chrono codec temporal_only again once evs).inner evs :=
      event_list_drained chrono codec temporal_only again (fun ev hev => by rw [honce.entities]; exact hpresent ev hev)
        honce.objects (hrec ▸ sound_of_stored (stored_of_sound hsound))
    rw [hagain.recorded, hrec]
    exact record_again hsound hk t id

end Stores

def yard : TenantId := ⟨"yard", by decide, by decide, by decide⟩

def crane (modifiedAt : String) : Value :=
  .object [("id", .string "urn:c"), ("modifiedAt", .string modifiedAt)]

def lifted : TemporalEvent where
  op := .attrCreated
  tenant := yard
  entity_id := "urn:c"
  shell := crane "1"
  attr := "urn:load"
  snapshot := .object [("instanceId", .string "urn:i1"), ("value", .string "4")]

def moved : TemporalEvent where
  op := .scopeChanged
  tenant := yard
  entity_id := "urn:c"
  shell := crane "1"
  attr := "scope"
  snapshot := .object [("value", .string "/east")]

def stored (temporal : Option Value) : Store Value where
  inner :=
    let i := Inner.insert ⟨fun _ => BTreeMap.empty, BTreeMap.empty⟩ .entity "yard" "urn:c" (crane "1")
    match temporal with
    | some d => i.insert .temporal "yard" "urn:c" d
    | none => i
  shadow := none

def held : Value := .object [("id", .string "urn:c"), ("urn:load", .array [])]

theorem event_list_batching_held :
    histories (drain_pieces fixed_width plain false (stored (some held)) [("", [lifted]), ("", [moved, lifted])]).inner =
      histories (event_list fixed_width plain false "" (stored (some held)) [lifted, moved, lifted]).inner := by
  have hpresent : Present false (stored (some held)).inner [lifted, moved, lifted] := by
    simp only [Present, List.forall_mem_cons]
    decide
  have hobj : Objects (stored (some held)).inner := by
    intro t id v hv
    rw [stored, Inner.get_insert] at hv
    split_ifs at hv with h
    · rw [Option.some.injEq] at hv
      rw [← hv]
      rfl
    · rw [Inner.get_insert, if_neg (by rintro ⟨⟨⟩, -⟩)] at hv
      cases hv
  have hdoc : histories (stored (some held)).inner "yard" "urn:c" = some held.get := rfl
  have hstored : Stored (histories (stored (some held)).inner) [lifted, moved, lifted] := by
    refine ⟨?_, ?_, ?_, ?_⟩
    · simp only [List.forall_mem_cons]
      decide
    · simp only [List.forall_mem_cons]
      decide
    · simp only [List.forall_mem_cons]
      decide
    · have hload : held.get "urn:load" = some (.array []) := rfl
      simp only [List.forall_mem_cons]
      exact ⟨⟨_, hdoc, fun _ => ⟨_, hload, List.nodup_nil⟩⟩, ⟨_, hdoc, fun h => absurd rfl h⟩,
        ⟨_, hdoc, fun _ => ⟨_, hload, List.nodup_nil⟩⟩, fun _ he => absurd he List.not_mem_nil⟩
  exact (event_list_batching fixed_width plain false "" "" hpresent hobj (sound_of_stored hstored)).1 [("", [lifted]), ("", [moved, lifted])] rfl

/-- The scope change of an entity without history is lost in the one drain and kept in the other. -/
theorem event_list_depends_on_batching :
    (histories (event_list fixed_width plain false "" (stored none) [lifted, moved]).inner "yard" "urn:c").bind
        (fun doc => doc "scope") = none ∧
      (histories (drain_pieces fixed_width plain false (stored none) [("", [lifted]), ("", [moved])]).inner "yard"
        "urn:c").bind (fun doc => doc "scope") = some (.array [moved.snapshot]) := by
  decide

end AntaresBroker.Drain
