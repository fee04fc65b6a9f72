import AntaresBroker.Retry
import AntaresBroker.RowParity

namespace AntaresBroker.UpsertRace

open Json Evolution Retry RowStore

section Serving

variable {Time : Type}

/-- The round of an upsert after it has asked whether the document is there. It ends in no answer when a delete or a
create came between. -/
def act (op : Operation Time) (existed : Bool) (s : Option Map) : Option (Option Map × Answer) :=
  match op with
  | .upsert now ts uuid expanded =>
      let expanded := stamp_temporal_instances uuid ts expanded.members
      if existed then
        match (memory Time).mutate s now (fun target => (merge_temporal expanded ts target, true)) with
        | none => some (s, .failed)
        | some (s, some _) => some (s, .no_content)
        | some (_, none) => none
      else
        match (memory Time).create s now (touch ts (SortedMap.insert "createdAt" (.string ts) expanded)) with
        | none => some (s, .failed)
        | some (s, true) => some (s, .created)
        | some (_, false) => none
  | _ => none

def is_upsert : Operation Time → Prop
  | .upsert .. => True
  | _ => False

/-- The handlers that call the store once. -/
def is_single : Operation Time → Prop
  | .upsert .. => False
  | .append .. => False
  | _ => True

variable (Time) in
def handlers : Service (Operation Time) (Option Map) Answer where
  serve op s := execute (memory Time) s op
  at_once := is_single
  looks := is_upsert
  look := Option.isSome
  attempt := act
  limit := 16
  in_time op s h := by
    cases op with
    | upsert now ts uuid expanded => cases s <;> rfl
    | _ => cases h
  too_late op s b h hb := by
    cases op with
    | upsert now ts uuid expanded =>
        cases s <;> cases b
        · exact absurd rfl hb
        · rfl
        · rfl
        · exact absurd rfl hb
    | _ => cases h

theorem run_eq_serial (s : Option Map) (ops : List (Operation Time)) :
    run (memory Time) s ops = serial (handlers Time) s ops := by
  induction ops generalizing s with
  | nil => rfl
  | cons op ops ih =>
      rw [run, serial, ih]
      rfl

def reading (time : String) : Fragment where
  members := [("type", .array [.string "Room"]), ("urn:t", .array [.object [("observedAt", .string time)]])]
  sorted := List.pairwise_pair.mpr (show "type" < "urn:t" by decide)
  no_context := rfl
  arrays := by
    simp only [List.forall_mem_cons, List.not_mem_nil, false_imp_iff, implies_true, and_true]
    refine ⟨fun h => absurd (by decide) h, fun _ => ⟨_, rfl, by simp, fun v hv => ?_⟩⟩
    obtain rfl := List.mem_singleton.mp hv
    exact ⟨rfl, .inl rfl⟩

def posts (time : String) : Operation Unit := .upsert () time (fun _ _ => time) (reading time)

/-- Two requests have seen that there is no document. -/
theorem raced (s t : String) : Reached (handlers Unit) none
    ⟨(execute (memory Unit) (execute (memory Unit) none (posts s)).1 (posts t)).1, [(posts s, .created), (posts t, .no_content)], [], [], [posts s, posts t]⟩ := by
  have few : ∀ n ≤ 1, n < (handlers Unit).limit := fun n hn => Nat.lt_of_le_of_lt hn (show 1 < 16 by omega)
  have h : Reached (handlers Unit) none ⟨none, [], [⟨posts s, 0, none, 0⟩], [], [posts s]⟩ := .single (.arrive trivial)
  have h := h.tail (@Step.arrive _ _ _ _ _ (posts t) trivial)
  have h := h.tail (@Step.look _ _ _ _ _ [_] [] _ rfl rfl (few 0 (by omega)))
  have h := h.tail (@Step.look _ _ _ _ _ [] [_] _ rfl rfl (few 0 (by omega)))
  have h := h.tail (@Step.act _ _ _ _ _ [_] [] _ _ (execute (memory Unit) none (posts s)) rfl rfl rfl)
  have h := h.tail (@Step.miss _ _ _ _ _ [] [] _ _ rfl rfl rfl)
  have h := h.tail (@Step.look _ _ _ _ _ [] [] _ rfl rfl (few 1 (by omega)))
  exact h.tail (@Step.act _ _ _ _
    ⟨(execute (memory Unit) none (posts s)).1, [(posts s, .created)], [⟨posts t, 2, some true, 0⟩], [], [posts s, posts t]⟩
    [] [] ⟨posts t, 2, some true, 0⟩ true (execute (memory Unit) (execute (memory Unit) none (posts s)).1 (posts t))
    rfl rfl rfl)

/-- Upserts, deletes and the changes of one document in any interleaving end as the handlers do one after another, with
the same answers. Each request has taken effect once, is under way, or has given up; and one that gave up found the
document created or deleted sixteen times since it came. -/
theorem upserts_are_serial {st : State (Operation Time) (Option Map) Answer} (h : Reached (handlers Time) none st) :
    run (memory Time) none st.done = (st.value, st.log.map Prod.snd) ∧
      (st.done ++ (st.waiting.map Call.operation ++ st.given_up.map Call.operation)).Perm st.asked ∧
      ∀ c ∈ st.given_up, 16 ≤ missed (handlers Time) none st.done c := by
  have hinv := Inv.of_reached h
  refine ⟨?_, hinv.accounted, fun c hc => (hinv.exhausted c hc).2⟩
  rw [run_eq_serial]
  exact hinv.serial

theorem race_is_serial : run (memory Unit) none [posts "2026-01-01T10:00:00Z", posts "2026-01-01T11:00:00Z"] =
    ((execute (memory Unit) (execute (memory Unit) none (posts "2026-01-01T10:00:00Z")).1 (posts "2026-01-01T11:00:00Z")).1,
      [.created, .no_content]) :=
  (upserts_are_serial (raced "2026-01-01T10:00:00Z" "2026-01-01T11:00:00Z")).1

end Serving

section Merging

variable {c d ni : Value} {cur : List Value}

/-- An instance stored for another, under the name and the creation time of the first of its slot. -/
def Records (c ni : Value) : Prop := ∀ k, k ≠ "instanceId" → k ≠ "createdAt" → c.get k = ni.get k

theorem records_corrected (had ni : Value) : Records (corrected had ni) ni := by
  have hkeep : ∀ (keep : String) (v : Value) (k : String), k ≠ keep → (keep_member had v keep).get k = v.get k := by
    intro keep v k hk
    unfold keep_member
    split
    · exact (SortedMap.lookup_insert ..).trans (if_neg hk)
    · rfl
  intro k hid hcreated
  exact (hkeep "createdAt" _ k hcreated).trans (hkeep "instanceId" ni k hid)

theorem merge_key_congr {a b : Value} (hd : a.get "datasetId" = b.get "datasetId")
    (ho : a.get "observedAt" = b.get "observedAt") : merge_key a = merge_key b :=
  congrArg₂ (fun d o => (Option.bind d Value.as_str, Option.bind o Value.as_str)) hd ho

theorem same_key {a b : Value} (h : same_instant a b = true) : merge_key a = merge_key b := by
  rw [same_instant, Bool.and_eq_true, decide_eq_true_eq] at h
  exact h.1

theorem Records.merge_key (h : Records c ni) : merge_key c = merge_key ni :=
  merge_key_congr (h _ (by decide) (by decide)) (h _ (by decide) (by decide))

/-- No instance that comes later is one of its dataset and time. -/
theorem Records.untouched (h : Records c ni) (hd : same_instant d ni = false) : same_instant c d = false := by
  have hback := same_instant_symm hd
  rw [same_instant] at hback ⊢
  rwa [h.merge_key]

theorem mem_merge_other (hc : c ∈ cur) (h : same_instant c d = false) : c ∈ merge_instance d cur := by
  induction cur with
  | nil => cases hc
  | cons e cur ih =>
      rw [merge_instance]
      rcases List.mem_cons.mp hc with rfl | hc
      · rw [if_neg (Bool.eq_false_iff.mp h)]
        exact List.mem_cons_self
      · split_ifs
        · exact List.mem_cons_of_mem _ hc
        · exact List.mem_cons_of_mem _ (ih hc)

theorem mem_merge_self (ni : Value) (cur : List Value) : ∃ c ∈ merge_instance ni cur, Records c ni := by
  induction cur with
  | nil => exact ⟨ni, List.mem_singleton_self ni, fun _ _ _ => rfl⟩
  | cons e cur ih =>
      rw [merge_instance]
      split_ifs
      · exact ⟨corrected e ni, List.mem_cons_self, records_corrected e ni⟩
      · obtain ⟨c, hc, hrec⟩ := ih
        exact ⟨c, List.mem_cons_of_mem _ hc, hrec⟩

/-- The instances of a request, merged one by one. -/
def merge_all (cur incoming : List Value) : List Value := incoming.foldl (fun cur ni => merge_instance ni cur) cur

theorem mem_merge_all {incoming : List Value} (hc : c ∈ cur) (h : ∀ d ∈ incoming, same_instant c d = false) :
    c ∈ merge_all cur incoming := by
  induction incoming generalizing cur with
  | nil => exact hc
  | cons d incoming ih =>
      rw [List.forall_mem_cons] at h
      exact ih (mem_merge_other hc h.1) h.2

theorem merged_of_posted {pre post : List Value} (h : ∀ d ∈ post, same_instant d ni = false) :
    ∃ c ∈ merge_all cur (pre ++ ni :: post), Records c ni := by
  rw [merge_all, List.foldl_append, List.foldl_cons]
  obtain ⟨c, hc, hrec⟩ := mem_merge_self ni (pre.foldl (fun cur ni => merge_instance ni cur) cur)
  exact ⟨c, mem_merge_all hc fun d hd => hrec.untouched (h d hd), hrec⟩

end Merging

section Documents

variable {Time : Type} {m expanded : Map} {k ts : String}

/-- The array a document has for an attribute. -/
def held (m : Map) (k : String) : Option (List Value) := (m.lookup k).bind Value.as_array

theorem lookup_grown (combine : List Value → List Value → List Value) (hs : SortedMap.Sorted expanded) (m : Map) :
    (expanded.foldl (grow_attr combine) m).lookup k = (expanded.lookup k).elim (m.lookup k) (fun v =>
      if Temporal.is_meta k then m.lookup k
      else some (.array ((held m k).elim (Temporal.items v) (fun cur => combine cur (Temporal.items v))))) := by
  refine SortedMap.lookup_foldl (f := grow_attr combine)
    (g := fun k old v => if Temporal.is_meta k then old
      else some (.array ((old.bind Value.as_array).elim (Temporal.items v) (fun cur => combine cur (Temporal.items v)))))
    (fun m p j => ?_) hs m k
  unfold grow_attr
  by_cases hmeta : Temporal.is_meta p.1 = true
  · rw [if_pos hmeta]
    split_ifs with hj hmeta'
    · rfl
    · exact absurd (hj ▸ hmeta) hmeta'
    · rfl
  · rw [if_neg hmeta]
    by_cases hj : j = p.1
    · rw [if_pos hj, hj, if_neg hmeta]
      cases m.lookup p.1 with
      | none => exact (SortedMap.lookup_insert ..).trans (if_pos rfl)
      | some w => cases w <;> exact (SortedMap.lookup_insert ..).trans (if_pos rfl)
    · rw [if_neg hj]
      split <;> exact (SortedMap.lookup_insert ..).trans (if_neg hj)

/-- The array of an attribute with the instances that a body brings for it. -/
def grown (combine : List Value → List Value → List Value) (b m : Map) (k : String) : Option (List Value) :=
  (b.lookup k).elim (held m k)
    (fun v => some ((held m k).elim (Temporal.items v) (fun cur => combine cur (Temporal.items v))))

/-- What the array that is there, the one that comes and the two combined have in common, the array left has too. -/
theorem of_grown {combine : List Value → List Value → List Value} {b : Map} {Q : List Value → Prop}
    (hold : (held b k).getD [] = [] → Q ((held m k).getD [])) (hnew : held m k = none → Q ((held b k).getD []))
    (hboth : ∀ cur, held m k = some cur → Q (combine cur ((held b k).getD []))) : Q ((grown combine b m k).getD []) := by
  rw [grown]
  cases hb : b.lookup k with
  | none =>
      refine hold ?_
      rw [held, hb]
      rfl
  | some v =>
      have hitems : Temporal.items v = (held b k).getD [] := by
        rw [held, hb]
        rfl
      rw [Option.elim_some, hitems]
      cases hm : held m k with
      | none => exact hnew hm
      | some cur => exact hboth cur hm

/-- An attribute of a request brings its instances. -/
theorem held_grow (combine : List Value → List Value → List Value) (hs : SortedMap.Sorted expanded) (hk : k ∉ DOC_META)
    (m : Map) : held (expanded.foldl (grow_attr combine) m) k = grown combine expanded m k := by
  rw [held, lookup_grown combine hs, grown]
  cases expanded.lookup k with
  | none => rfl
  | some v =>
      rw [Option.elim_some, if_neg (Bool.eq_false_iff.mp (is_meta_attr hk))]
      rfl

theorem held_touch (hk : k ∉ DOC_META) : held (touch ts m) k = held m k :=
  congrArg (Option.bind · Value.as_array) (lookup_touch_attr ts m hk)

theorem held_merge (hs : SortedMap.Sorted expanded) (hk : k ∉ DOC_META) :
    held (merge_temporal expanded ts m) k = grown merge_all expanded m k := by
  have htypes : held (union_types expanded m) k = held m k :=
    congrArg (Option.bind · Value.as_array) ((typing_union expanded).attrs m k hk)
  rw [merge_temporal, held_touch hk, grown, ← htypes]
  exact held_grow merge_all hs hk _

theorem held_add (hs : SortedMap.Sorted expanded) (hk : k ∉ DOC_META) :
    held (add_temporal_instances expanded ts m) k = grown (· ++ ·) expanded m k := by
  rw [add_temporal_instances, held_touch hk]
  exact held_grow (· ++ ·) hs hk _

theorem held_create (hk : k ∉ DOC_META) :
    held (touch ts (SortedMap.insert "createdAt" (.string ts) expanded)) k = held expanded k := by
  rw [held_touch hk, held, SortedMap.lookup_insert, if_neg, held]
  rintro rfl
  exact hk (by decide)

theorem types_grow (combine : List Value → List Value → List Value) (hs : SortedMap.Sorted expanded) (m : Map) :
    held (touch ts (expanded.foldl (grow_attr combine) m)) "type" = held m "type" := by
  rw [held, lookup_touch, if_neg (by decide), lookup_grown combine hs]
  cases expanded.lookup "type" <;> rfl

theorem types_merge (hs : SortedMap.Sorted expanded) :
    held (merge_temporal expanded ts m) "type" = held (union_types expanded m) "type" := types_grow merge_all hs _

theorem types_add (hs : SortedMap.Sorted expanded) : held (add_temporal_instances expanded ts m) "type" = held m "type" :=
  types_grow (· ++ ·) hs m

theorem mem_push {new cur : List Value} {t : Value} :
    t ∈ new.foldl (fun cur t => if t ∈ cur then cur else cur ++ [t]) cur ↔ t ∈ cur ∨ t ∈ new := by
  induction new generalizing cur with
  | nil => simp
  | cons u new ih =>
      rw [List.foldl_cons, ih, List.mem_cons]
      split_ifs with hu
      · exact ⟨Or.imp_right .inr, fun h => h.elim .inl fun h => h.elim (fun h => .inl (h ▸ hu)) .inr⟩
      · rw [List.mem_append, List.mem_singleton, or_assoc]

/-- The types of a request are added to those that are there. -/
theorem mem_types_union {t : Value} (h : t ∈ (held m "type").getD [] ∨ t ∈ (held expanded "type").getD []) :
    t ∈ (held (union_types expanded m) "type").getD [] := by
  unfold union_types
  change _ ∨ t ∈ ((((expanded.lookup "type").bind Value.as_array)).getD []) at h
  cases hnew : (expanded.lookup "type").bind Value.as_array with
  | none =>
      rw [hnew] at h
      exact h.resolve_right (by simp)
  | some new =>
      rw [hnew] at h
      have hheld : ∀ l, held (SortedMap.insert "type" (.array l) m) "type" = some l := by
        intro l
        rw [held, SortedMap.lookup_insert, if_pos rfl]
        rfl
      rw [hheld]
      exact mem_push.mpr h

end Documents

section Keeping

variable {Time : Type} {op : Operation Time} {m m' : Map} {k : String} {c ni t : Value}

/-- The named and stamped body of a request that adds instances. -/
def body : Operation Time → Option Map
  | .upsert _ ts uuid expanded => some (stamp_temporal_instances uuid ts expanded.members)
  | .add _ ts uuid expanded => some (stamp_temporal_instances uuid ts expanded.members)
  | _ => none

/-- The instances a request posts for an attribute. -/
def posted (op : Operation Time) (k : String) : List Value := ((body op).bind (held · k)).getD []

/-- The types an upsert posts. -/
def posted_types : Operation Time → List Value
  | .upsert _ ts uuid expanded => (held (stamp_temporal_instances uuid ts expanded.members) "type").getD []
  | _ => []

theorem sorted_stamped (uuid : Uuids) (ts : String) (expanded : Fragment) :
    SortedMap.Sorted (stamp_temporal_instances uuid ts expanded.members) := List.pairwise_map.mpr expanded.sorted

/-- What a request that adds instances makes of a document that is there. -/
theorem execute_adds (h : (body op).isSome = true) (m : Map) : ∃ m', (execute (memory Time) (some m) op).1 = some m' ∧
    (∀ k ∉ DOC_META, ∀ c ∈ (held m k).getD [], (is_upsert op → ∀ d ∈ posted op k, same_instant c d = false) →
      c ∈ (held m' k).getD []) ∧
    (∀ t ∈ (held m "type").getD [], t ∈ (held m' "type").getD []) := by
  have hgrown (combine : List Value → List Value → List Value) (b : Map) (k : String) (c : Value)
      (hc : c ∈ (held m k).getD []) (hcombine : ∀ cur, c ∈ cur → c ∈ combine cur ((held b k).getD [])) :
      c ∈ (grown combine b m k).getD [] := by
    refine of_grown (Q := (c ∈ ·)) (fun _ => hc) (fun hm => ?_) (fun cur hm => hcombine cur ?_)
    · rw [hm] at hc
      cases hc
    · rw [hm] at hc
      exact hc
  cases op with
  | upsert now ts uuid expanded =>
      have hs := sorted_stamped uuid ts expanded
      refine ⟨merge_temporal _ ts m, rfl, fun k hk c hc hlast => ?_, fun t ht => ?_⟩
      · rw [held_merge hs hk]
        exact hgrown merge_all _ k c hc fun cur hcur => mem_merge_all hcur (hlast trivial)
      · rw [types_merge hs]
        exact mem_types_union (.inl ht)
  | add now ts uuid expanded =>
      have hs := sorted_stamped uuid ts expanded
      refine ⟨add_temporal_instances _ ts m, rfl, fun k hk c hc _ => ?_, fun t ht => ?_⟩
      · rw [held_add hs hk]
        exact hgrown (· ++ ·) _ k c hc fun cur hcur => List.mem_append_left _ hcur
      · rw [types_add hs]
        exact ht
  | _ => cases h

/-- What an accepted request that adds instances leaves. -/
theorem execute_accepted (h : (body op).isSome = true) {s : Option Map}
    (hans : (execute (memory Time) s op).2 ≠ .entity_not_found) : ∃ m', (execute (memory Time) s op).1 = some m' ∧
    (∀ k ∉ DOC_META, ∀ pre ni post, posted op k = pre ++ ni :: post →
      (is_upsert op → ∀ d ∈ post, same_instant d ni = false) → ∃ c ∈ (held m' k).getD [], Records c ni) ∧
    (∀ t ∈ posted_types op, t ∈ (held m' "type").getD []) := by
  have hgrown (combine : List Value → List Value → List Value) (b m : Map) (k : String) {pre post : List Value} {ni : Value}
      (hb : (held b k).getD [] = pre ++ ni :: post)
      (hcombine : ∀ cur, ∃ c ∈ combine cur (pre ++ ni :: post), Records c ni) :
      ∃ c ∈ (grown combine b m k).getD [], Records c ni := by
    refine of_grown (Q := fun l => ∃ c ∈ l, Records c ni) (fun hnil => ?_) (fun _ => ?_) (fun cur _ => ?_)
    · rw [hb] at hnil
      simp at hnil
    · rw [hb]
      exact ⟨ni, by simp, fun _ _ _ => rfl⟩
    · rw [hb]
      exact hcombine cur
  cases op with
  | upsert now ts uuid expanded =>
      have hs := sorted_stamped uuid ts expanded
      cases s with
      | none =>
          refine ⟨_, rfl, fun k hk pre ni post hposted _ => ?_, fun t ht => ?_⟩
          · rw [held_create hk]
            refine ⟨ni, ?_, fun _ _ _ => rfl⟩
            have hposted : (held (stamp_temporal_instances uuid ts expanded.members) k).getD [] = pre ++ ni :: post := hposted
            rw [hposted]
            simp
          · rw [held, lookup_touch, if_neg (by decide), SortedMap.lookup_insert, if_neg (by decide), ← held]
            exact ht
      | some m =>
          refine ⟨merge_temporal _ ts m, rfl, fun k hk pre ni post hposted hlast => ?_, fun t ht => ?_⟩
          · rw [held_merge hs hk]
            exact hgrown merge_all _ m k hposted fun cur => merged_of_posted (hlast trivial)
          · rw [types_merge hs]
            exact mem_types_union (.inr ht)
  | add now ts uuid expanded =>
      have hs := sorted_stamped uuid ts expanded
      cases s with
      | none => exact absurd rfl hans
      | some m =>
          refine ⟨_, rfl, fun k hk pre ni post hposted _ => ?_, fun t ht => (List.not_mem_nil ht).elim⟩
          rw [held_add hs hk]
          exact hgrown (· ++ ·) _ m k hposted fun cur => ⟨ni, by simp, fun _ _ _ => rfl⟩
  | _ => cases h

theorem after_adds {ops : List (Operation Time)} (h : ∀ op ∈ ops, (body op).isSome = true) (m : Map) :
    ∃ m', after (handlers Time) (some m) ops = some m' ∧
      (∀ k ∉ DOC_META, ∀ c ∈ (held m k).getD [],
        (∀ op ∈ ops, is_upsert op → ∀ d ∈ posted op k, same_instant c d = false) → c ∈ (held m' k).getD []) ∧
      (∀ t ∈ (held m "type").getD [], t ∈ (held m' "type").getD []) := by
  induction ops generalizing m with
  | nil => exact ⟨m, rfl, fun _ _ _ hc _ => hc, fun _ ht => ht⟩
  | cons op ops ih =>
      rw [List.forall_mem_cons] at h
      obtain ⟨m₁, hm₁, hkept, htypes⟩ := execute_adds h.1 m
      obtain ⟨m₂, hm₂, hkept', htypes'⟩ := ih h.2 m₁
      refine ⟨m₂, ?_, fun k hk c hc hlast => ?_, fun t ht => htypes' t (htypes t ht)⟩
      · rw [← hm₂, ← hm₁]
        rfl
      · rw [List.forall_mem_cons] at hlast
        exact hkept' k hk c (hkept k hk c hc hlast.1) hlast.2

end Keeping

section Naming

variable {Time : Type} {op : Operation Time} {k : String} {c ni : Value}

/-- An instance is stored for a posted one, and known by the name and the creation time of one posted for its dataset
and time. -/
structure Stands (l : List Value) (c : Value) : Prop where
  recorded : ∃ ni ∈ l, Records c ni
  named : ∃ first ∈ l, merge_key first = merge_key c ∧
    ∀ k, k = "instanceId" ∨ k = "createdAt" → c.get k = first.get k ∧ (c.get k).isSome = true

theorem object_of_is_object {v : Value} (h : v.is_object = true) : ∃ o, v = .object o := by
  cases v with
  | object o => exact ⟨o, rfl⟩
  | _ => cases h

/-- An instance with the members it is known by. -/
def Known (ni : Value) : Prop := ni.is_object = true ∧ ∀ k, k = "instanceId" ∨ k = "createdAt" → (ni.get k).isSome = true

theorem known_stamped {v : Value} (hv : v.is_object = true) (uuid ts : String) : Known (stamp_instance uuid ts v) := by
  obtain ⟨o, rfl⟩ := object_of_is_object hv
  refine ⟨rfl, fun k hk => ?_⟩
  rw [stamp_instance, Value.get, SortedMap.lookup_insert, SortedMap.lookup_insert]
  rcases hk with rfl | rfl
  · rw [if_neg (by decide), if_neg (by decide)]
    split_ifs with h
    · exact h
    · rw [SortedMap.lookup_insert, if_pos rfl]
      rfl
  · rw [if_neg (by decide), if_pos rfl]
    rfl

theorem held_stamped (uuid : Uuids) (ts : String) (expanded : Fragment) (hk : k ∉ DOC_META) :
    (held (stamp_temporal_instances uuid ts expanded.members) k).getD [] =
      (instances expanded.members k).mapIdx (fun i v => stamp_instance (uuid k i) ts v) := by
  rw [held, lookup_stamped, instances]
  cases h : expanded.members.lookup k with
  | none => rfl
  | some v =>
      obtain ⟨items, hitems, -⟩ := expanded.arrays (k, v) (SortedMap.mem_of_lookup h) hk
      obtain rfl : v = .array items := hitems
      rw [Option.map_some, stamp_attr, if_neg (Bool.eq_false_iff.mp (is_meta_attr hk))]
      rfl

theorem instances_expanded (expanded : Fragment) (hk : k ∉ DOC_META) {v : Value} (hv : v ∈ instances expanded.members k) :
    v.is_object = true := by
  rw [instances] at hv
  cases h : expanded.members.lookup k with
  | none =>
      rw [h] at hv
      cases hv
  | some w =>
      obtain ⟨items, hitems, -, hexpanded⟩ := expanded.arrays (k, w) (SortedMap.mem_of_lookup h) hk
      obtain rfl : w = .array items := hitems
      rw [h] at hv
      exact (hexpanded v hv).1

theorem known_posted (hk : k ∉ DOC_META) (h : ni ∈ posted op k) : Known ni := by
  have hstamped : ∀ (uuid : Uuids) (ts : String) (expanded : Fragment),
      ni ∈ (held (stamp_temporal_instances uuid ts expanded.members) k).getD [] → Known ni := by
    intro uuid ts expanded h
    rw [held_stamped uuid ts expanded hk] at h
    obtain ⟨i, hi, rfl⟩ := List.mem_mapIdx.mp h
    exact known_stamped (instances_expanded expanded hk (List.getElem_mem hi)) _ _
  cases op with
  | upsert now ts uuid expanded => exact hstamped uuid ts expanded h
  | add now ts uuid expanded => exact hstamped uuid ts expanded h
  | _ => cases h

theorem Stands.mono {l l' : List Value} (h : Stands l c) (hl : ∀ ni ∈ l, ni ∈ l') : Stands l' c :=
  ⟨h.recorded.imp fun ni hni => hni.imp_left (hl ni), h.named.imp fun first hfirst => hfirst.imp_left (hl first)⟩

theorem Known.stands {l : List Value} (h : Known ni) (hl : ni ∈ l) : Stands l ni :=
  ⟨⟨ni, hl, fun _ _ _ => rfl⟩, ni, hl, rfl, fun k hk => ⟨rfl, h.2 k hk⟩⟩

/-- A correction is stored for the instance that corrects, under the name of the one it corrects. -/
theorem Stands.corrected {l : List Value} (h : Stands l c) (hni : Known ni) (hl : ni ∈ l) (hsame : same_instant c ni = true) :
    Stands l (corrected c ni) := by
  obtain ⟨first, hfirst, hkey, hnamed⟩ := h.named
  refine ⟨⟨ni, hl, records_corrected c ni⟩, first, hfirst, ?_, fun k hk => ?_⟩
  · rw [hkey, same_key hsame, (records_corrected c ni).merge_key]
  · obtain ⟨o, rfl⟩ := object_of_is_object hni.1
    obtain ⟨o', ho', hlookup⟩ := @lookup_corrected c o
    obtain ⟨hget, hsome⟩ := hnamed k hk
    obtain ⟨v, hv⟩ := Option.isSome_iff_exists.mp hsome
    have hkept : (Evolution.corrected c (.object o)).get k = c.get k := by
      rw [ho', Value.get, hlookup, if_pos hk.symm, hv, Option.some_or]
    rw [hkept]
    exact ⟨hget, hsome⟩

theorem mem_merge_instance_cases {cur : List Value} (h : c ∈ merge_instance ni cur) :
    c ∈ cur ∨ c = ni ∨ ∃ e ∈ cur, same_instant e ni = true ∧ c = corrected e ni := by
  induction cur with
  | nil => exact .inr (.inl (List.mem_singleton.mp h))
  | cons e cur ih =>
      rw [merge_instance] at h
      split_ifs at h with hsame
      · rcases List.mem_cons.mp h with rfl | h
        · exact .inr (.inr ⟨e, List.mem_cons_self, hsame, rfl⟩)
        · exact .inl (List.mem_cons_of_mem _ h)
      · rcases List.mem_cons.mp h with rfl | h
        · exact .inl List.mem_cons_self
        · rcases ih h with h | h | ⟨d, hd, hds⟩
          · exact .inl (List.mem_cons_of_mem _ h)
          · exact .inr (.inl h)
          · exact .inr (.inr ⟨d, List.mem_cons_of_mem _ hd, hds⟩)

theorem stands_merge_all {l cur incoming : List Value} (hcur : ∀ c ∈ cur, Stands l c)
    (hinc : ∀ ni ∈ incoming, Known ni ∧ ni ∈ l) : ∀ c ∈ merge_all cur incoming, Stands l c := by
  induction incoming generalizing cur with
  | nil => exact hcur
  | cons ni incoming ih =>
      rw [List.forall_mem_cons] at hinc
      refine ih (fun c hc => ?_) hinc.2
      rcases mem_merge_instance_cases hc with hc | rfl | ⟨e, he, hsame, rfl⟩
      · exact hcur c hc
      · exact hinc.1.1.stands hinc.1.2
      · exact (hcur e he).corrected hinc.1.1 hinc.1.2 hsame

/-- What a request that adds instances stores stands for what was posted before and what it posts. -/
theorem stands_execute {l : List Value} (hk : k ∉ DOC_META) (hadds : (body op).isSome = true) {s : Option Map}
    (h : ∀ m, s = some m → ∀ c ∈ (held m k).getD [], Stands l c) {m' : Map}
    (hm' : (execute (memory Time) s op).1 = some m') : ∀ c ∈ (held m' k).getD [], Stands (l ++ posted op k) c := by
  have hnew : ∀ ni ∈ posted op k, Known ni ∧ ni ∈ l ++ posted op k := fun ni hni =>
    ⟨known_posted hk hni, List.mem_append_right _ hni⟩
  have hgrown (combine : List Value → List Value → List Value) {b m : Map} (hb : posted op k = (held b k).getD [])
      (hold : ∀ c ∈ (held m k).getD [], Stands (l ++ posted op k) c)
      (hcombine : ∀ cur : List Value, (∀ c ∈ cur, Stands (l ++ posted op k) c) →
        ∀ c ∈ combine cur (posted op k), Stands (l ++ posted op k) c) :
      ∀ c ∈ (grown combine b m k).getD [], Stands (l ++ posted op k) c := by
    refine of_grown (Q := fun l' => ∀ c ∈ l', Stands (l ++ posted op k) c) (fun _ => hold) (fun _ => ?_) (fun cur hm => ?_)
    · rw [← hb]
      exact fun c hc => (hnew c hc).1.stands (hnew c hc).2
    · rw [hm] at hold
      rw [← hb]
      exact hcombine cur hold
  have hold : ∀ m, s = some m → ∀ c ∈ (held m k).getD [], Stands (l ++ posted op k) c := fun m hm c hc =>
    (h m hm c hc).mono fun ni hni => List.mem_append_left _ hni
  cases op with
  | upsert now ts uuid expanded =>
      have hs := sorted_stamped uuid ts expanded
      cases s with
      | none =>
          obtain rfl := Option.some.inj hm'
          rw [held_create hk]
          exact fun c hc => (hnew c hc).1.stands (hnew c hc).2
      | some m =>
          obtain rfl : merge_temporal (stamp_temporal_instances uuid ts expanded.members) ts m = m' := Option.some.inj hm'
          rw [held_merge hs hk]
          exact hgrown merge_all rfl (hold m rfl) fun cur hcur => stands_merge_all hcur hnew
  | add now ts uuid expanded =>
      have hs := sorted_stamped uuid ts expanded
      cases s with
      | none => cases hm'
      | some m =>
          obtain rfl : add_temporal_instances (stamp_temporal_instances uuid ts expanded.members) ts m = m' :=
            Option.some.inj hm'
          rw [held_add hs hk]
          exact hgrown (· ++ ·) rfl (hold m rfl) fun cur hcur => List.forall_mem_append.mpr
            ⟨hcur, fun c hc => (hnew c hc).1.stands (hnew c hc).2⟩
  | _ => cases hadds

theorem stands_after {ops : List (Operation Time)} (hk : k ∉ DOC_META) (hadds : ∀ op ∈ ops, (body op).isSome = true)
    {l : List Value} {s : Option Map} (h : ∀ m, s = some m → ∀ c ∈ (held m k).getD [], Stands l c) {m' : Map}
    (hm' : after (handlers Time) s ops = some m') : ∀ c ∈ (held m' k).getD [], Stands (l ++ ops.flatMap (posted · k)) c := by
  induction ops generalizing s l with
  | nil =>
      rw [List.flatMap_nil, List.append_nil]
      exact h m' hm'
  | cons op ops ih =>
      rw [List.forall_mem_cons] at hadds
      rw [List.flatMap_cons, ← List.append_assoc]
      exact ih hadds.2 (fun m hm => stands_execute hk hadds.1 h hm) hm'

/-- Nothing is made up, and no name changes: since the document was last absent each stored instance carries the members
of a posted one, and the id and the creation time of one posted for its dataset and time. -/
theorem stored_is_posted {st : State (Operation Time) (Option Map) Answer} (h : Reached (handlers Time) none st)
    {earlier later : List (Operation Time × Answer)} (hlog : st.log = earlier ++ later)
    (habsent : after (handlers Time) none (earlier.map Prod.fst) = none)
    (hlater : ∀ e ∈ later, (body e.1).isSome = true) {m : Map} (hm : st.value = some m) :
    ∀ k ∉ DOC_META, ∀ c ∈ (held m k).getD [], Stands (later.flatMap (fun e => posted e.1 k)) c := by
  intro k hk
  have hvalue := (Inv.of_reached h).value
  rw [State.done, hlog, List.map_append, after_append, habsent, hm] at hvalue
  have hrest : ∀ op ∈ later.map Prod.fst, (body op).isSome = true := List.forall_mem_map.mpr hlater
  have hnothing : ∀ m, (none : Option Map) = some m → ∀ c ∈ (held m k).getD [], Stands [] c := fun m hm => by cases hm
  have hstands := stands_after hk hrest hnothing hvalue
  rwa [List.nil_append, List.flatMap_map] at hstands

theorem race_stores_the_posted : ∃ m,
    (execute (memory Unit) (execute (memory Unit) none (posts "2026-01-01T10:00:00Z")).1 (posts "2026-01-01T11:00:00Z")).1 =
      some m ∧ ∀ c ∈ (held m "urn:t").getD [],
        Stands (posted (posts "2026-01-01T10:00:00Z") "urn:t" ++ posted (posts "2026-01-01T11:00:00Z") "urn:t") c :=
  ⟨_, rfl, @stored_is_posted Unit _ (raced "2026-01-01T10:00:00Z" "2026-01-01T11:00:00Z") [] _ rfl rfl (by simp [posts, body]) _
    rfl "urn:t" (by decide)⟩

end Naming

section Reposting

variable {a b c ni : Value} {k : String}

/-- Instances that differ in when they were modified at most. -/
def Touched (a b : Value) : Prop :=
  a = b ∨ ∃ o o' : Map, a = .object o ∧ b = .object o' ∧ ∀ k, k ≠ "modifiedAt" → o'.lookup k = o.lookup k

theorem Touched.get (h : Touched a b) (hk : k ≠ "modifiedAt") : b.get k = a.get k := by
  rcases h with rfl | ⟨o, o', rfl, rfl, h⟩
  · rfl
  · exact h k hk

theorem Touched.same_instant (h : Touched a b) (ni : Value) : Evolution.same_instant b ni = Evolution.same_instant a ni := by
  have hkey : merge_key b = merge_key a := merge_key_congr (h.get (by decide)) (h.get (by decide))
  rw [Evolution.same_instant, Evolution.same_instant, hkey]

/-- An instance that another posting of it corrects. -/
structure Posting (c ni : Value) : Prop where
  known : Known c
  object : ni.is_object = true
  members : ∀ k, k ≠ "instanceId" → k ≠ "createdAt" → k ≠ "modifiedAt" → ni.get k = c.get k

theorem Posting.corrected (h : Posting c ni) (hb : Touched c b) : Touched c (corrected b ni) := by
  obtain ⟨o, rfl⟩ := object_of_is_object h.known.1
  obtain ⟨n, rfl⟩ := object_of_is_object h.object
  obtain ⟨o', ho', hlookup⟩ := @lookup_corrected b n
  refine .inr ⟨o, o', rfl, ho', fun k hk => ?_⟩
  rw [hlookup]
  split_ifs with hname
  · obtain ⟨v, hv⟩ := Option.isSome_iff_exists.mp (h.known.2 k hname.symm)
    have hv : o.lookup k = some v := hv
    have hget : b.get k = o.lookup k := hb.get hk
    rw [hget, hv, Option.some_or]
  · rw [not_or] at hname
    exact h.members k hname.2 hname.1 hk

/-- The first of a slot is a posting of the instance. -/
def Placed (l : List Value) (ni : Value) : Prop := ∃ c, l.find? (same_instant · ni) = some c ∧ Posting c ni

theorem touched_merge {l r : List Value} (h : List.Forall₂ Touched l r) (hni : Placed l ni) :
    List.Forall₂ Touched l (merge_instance ni r) := by
  obtain ⟨c, hfind, hposting⟩ := hni
  induction h with
  | nil => cases hfind
  | @cons a b l r hab hrest ih =>
      rw [merge_instance, hab.same_instant]
      rw [List.find?_cons] at hfind
      cases hsame : same_instant a ni with
      | true =>
          rw [hsame] at hfind
          obtain rfl := Option.some.inj hfind
          rw [if_pos rfl]
          exact .cons (hposting.corrected hab) hrest
      | false =>
          rw [hsame] at hfind
          rw [if_neg Bool.false_ne_true]
          exact .cons hab (ih hfind)

theorem touched_merge_all {l r incoming : List Value} (h : List.Forall₂ Touched l r) (hinc : ∀ ni ∈ incoming, Placed l ni) :
    List.Forall₂ Touched l (merge_all r incoming) := by
  induction incoming generalizing r with
  | nil => exact h
  | cons ni incoming ih =>
      rw [List.forall_mem_cons] at hinc
      exact ih (touched_merge h hinc.1) hinc.2

section Placing

variable {d n₁ n₂ : Value} {cur : List Value}

theorem Posting.merge_key (h : Posting n₁ n₂) : merge_key n₁ = merge_key n₂ :=
  merge_key_congr (h.members _ (by decide) (by decide) (by decide)).symm
    (h.members _ (by decide) (by decide) (by decide)).symm

theorem Posting.of_corrected (h : Posting n₁ n₂) (e : Value) : Posting (Evolution.corrected e n₁) n₂ := by
  refine ⟨?_, h.object, fun k hid hcreated hmodified => ?_⟩
  · obtain ⟨o, rfl⟩ := object_of_is_object h.known.1
    obtain ⟨o', ho', hlookup⟩ := @lookup_corrected e o
    rw [ho']
    refine ⟨rfl, fun k hk => ?_⟩
    have hsome : (o.lookup k).isSome = true := h.known.2 k hk
    rw [Value.get, hlookup, if_pos hk.symm, Option.isSome_or, hsome, Bool.or_true]
  · rw [h.members k hid hcreated hmodified, records_corrected e n₁ k hid hcreated]

theorem Posting.same_instant (h : Posting n₁ n₂) (c : Value) :
    Evolution.same_instant c n₁ = Evolution.same_instant c n₂ := by
  rw [Evolution.same_instant, Evolution.same_instant, h.merge_key]

theorem Posting.matches (h : Posting n₁ n₂) (ht : (Evolution.merge_key n₂).2.isSome = true) :
    Evolution.same_instant n₁ n₂ = true := by
  rw [Evolution.same_instant, h.merge_key, decide_eq_true rfl, ht]
  rfl

theorem find_skip {c n : Value} {l : List Value} (h : ¬ same_instant c n = true) :
    (c :: l).find? (same_instant · n) = l.find? (same_instant · n) := List.find?_cons_of_neg (p := (same_instant · n)) h

theorem placed_merge (h : Posting n₁ n₂) (ht : (merge_key n₂).2.isSome = true) : Placed (merge_instance n₁ cur) n₂ := by
  have hfirst {c : Value} {l : List Value} (hc : Posting c n₂) : Placed (c :: l) n₂ :=
    ⟨c, List.find?_cons_of_pos (hc.matches ht), hc⟩
  induction cur with
  | nil => exact hfirst h
  | cons e cur ih =>
      rw [merge_instance, h.same_instant]
      split_ifs with hsame
      · exact hfirst (h.of_corrected e)
      · obtain ⟨c, hfind, hposting⟩ := ih
        exact ⟨c, (find_skip hsame).trans hfind, hposting⟩

theorem differs {d n : Value} (h : merge_key d ≠ merge_key n) : ¬ same_instant d n = true := by
  rw [same_instant, decide_eq_false h]
  exact Bool.false_ne_true

theorem placed_other (hne : merge_key d ≠ merge_key n₂) (h : Placed cur n₂) : Placed (merge_instance d cur) n₂ := by
  obtain ⟨c, hfind, hposting⟩ := h
  refine ⟨c, Eq.trans ?_ hfind, hposting⟩
  clear hfind hposting
  induction cur with
  | nil => exact find_skip (differs hne)
  | cons e cur ih =>
      rw [merge_instance]
      split_ifs with hsame
      · have he := same_key hsame
        have hc : merge_key (corrected e d) ≠ merge_key n₂ := (records_corrected e d).merge_key ▸ hne
        rw [find_skip (differs hc), find_skip (differs (he ▸ hne))]
      · rw [List.find?_cons, List.find?_cons, ih]

/-- Instances of different datasets or times, each observed at some time. -/
structure Keyed (l : List Value) : Prop where
  observed : ∀ v ∈ l, (merge_key v).2.isSome = true
  distinct : (l.map merge_key).Nodup

variable {first again : List Value}

theorem placed_merge_all (h : List.Forall₂ Posting first again) (hkeyed : Keyed again) :
    (∀ n ∈ again, Placed (merge_all cur first) n) ∧
      ∀ n, Placed cur n → merge_key n ∉ again.map merge_key → Placed (merge_all cur first) n := by
  induction h generalizing cur with
  | nil => exact ⟨fun n hn => (List.not_mem_nil hn).elim, fun n hn _ => hn⟩
  | @cons n₁ n₂ first again hposting _ ih =>
      obtain ⟨hfresh, hrest⟩ := List.nodup_cons.mp hkeyed.distinct
      have hkeyed' : Keyed again := ⟨fun v hv => hkeyed.observed v (List.mem_cons_of_mem _ hv), hrest⟩
      have hn₂ := hkeyed.observed n₂ List.mem_cons_self
      refine ⟨List.forall_mem_cons.mpr ⟨?_, (ih hkeyed').1⟩, fun n hn hother => ?_⟩
      · exact (ih hkeyed').2 n₂ (placed_merge hposting hn₂) hfresh
      · rw [List.map_cons, List.mem_cons, not_or] at hother
        refine (ih hkeyed').2 n (placed_other ?_ hn) hother.2
        rw [hposting.merge_key]
        exact fun h => hother.1 h.symm

theorem placed_new (h : List.Forall₂ Posting first again) (hkeyed : Keyed again) : ∀ n ∈ again, Placed first n := by
  induction h with
  | nil => exact fun n hn => (List.not_mem_nil hn).elim
  | @cons n₁ n₂ first again hposting _ ih =>
      obtain ⟨hfresh, hrest⟩ := List.nodup_cons.mp hkeyed.distinct
      have hkeyed' : Keyed again := ⟨fun v hv => hkeyed.observed v (List.mem_cons_of_mem _ hv), hrest⟩
      refine List.forall_mem_cons.mpr ⟨⟨n₁, ?_, hposting⟩, fun n hn => ?_⟩
      · exact List.find?_cons_of_pos (hposting.matches (hkeyed.observed n₂ List.mem_cons_self))
      · obtain ⟨c, hfind, hc⟩ := ih hkeyed' n hn
        refine ⟨c, (find_skip (differs ?_)).trans hfind, hc⟩
        rw [hposting.merge_key]
        exact fun h => hfresh (h ▸ List.mem_map_of_mem hn)

end Placing

section Twice

variable {Time : Type} (now now' : Time) (ts ts' : String) (uuid uuid' : Uuids)

theorem get_stamped (u : String) (v : Value) (hid : k ≠ "instanceId") (hcreated : k ≠ "createdAt")
    (hmodified : k ≠ "modifiedAt") : (stamp_instance u ts v).get k = v.get k := by
  cases v with
  | object o =>
      rw [stamp_instance, Value.get, SortedMap.lookup_insert, if_neg hmodified, SortedMap.lookup_insert, if_neg hcreated]
      split_ifs
      · rfl
      · exact (SortedMap.lookup_insert ..).trans (if_neg hid)
  | _ => rfl

theorem merge_key_stamped (u : String) (v : Value) : merge_key (stamp_instance u ts v) = merge_key v :=
  merge_key_congr (get_stamped ts u v (by decide) (by decide) (by decide))
    (get_stamped ts u v (by decide) (by decide) (by decide))

theorem posting_stamped {l : List Value} (hl : ∀ v ∈ l, v.is_object = true) :
    List.Forall₂ Posting (l.mapIdx (fun i v => stamp_instance (uuid k i) ts v))
      (l.mapIdx (fun i v => stamp_instance (uuid' k i) ts' v)) := by
  rw [List.mapIdx_eq_zipIdx_map, List.mapIdx_eq_zipIdx_map, List.forall₂_map_left_iff, List.forall₂_map_right_iff,
    List.forall₂_same]
  rintro ⟨v, i⟩ hv
  have hobject := hl v (List.fst_mem_of_mem_zipIdx hv)
  refine ⟨known_stamped hobject _ _, (known_stamped hobject _ _).1, fun k hid hcreated hmodified => ?_⟩
  rw [get_stamped ts' _ v hid hcreated hmodified, get_stamped ts _ v hid hcreated hmodified]

theorem keyed_stamped {l : List Value} (h : Keyed l) : Keyed (l.mapIdx (fun i v => stamp_instance (uuid k i) ts v)) := by
  refine ⟨fun w hw => ?_, ?_⟩
  · obtain ⟨i, hi, rfl⟩ := List.mem_mapIdx.mp hw
    rw [merge_key_stamped]
    exact h.observed _ (List.getElem_mem hi)
  · have hkeys : (l.mapIdx (fun i v => stamp_instance (uuid k i) ts v)).map merge_key = l.map merge_key := by
      rw [List.mapIdx_eq_zipIdx_map, List.map_map, ← List.zipIdx_map_fst 0 l, List.map_map, List.zipIdx_map_fst]
      exact List.map_congr_left fun p _ => merge_key_stamped ts _ p.1
    exact hkeys ▸ h.distinct

theorem held_twice {first again : List Value} (h : List.Forall₂ Posting first again)
    (hkeyed : Keyed again) (held : Option (List Value)) :
    List.Forall₂ Touched (held.elim first (fun cur => merge_all cur first))
      (merge_all (held.elim first (fun cur => merge_all cur first)) again) := by
  have hsame : ∀ l : List Value, List.Forall₂ Touched l l := fun l => List.forall₂_same.mpr fun c _ => .inl rfl
  cases held with
  | none => exact touched_merge_all (hsame _) (placed_new h hkeyed)
  | some cur => exact touched_merge_all (hsame _) (placed_merge_all h hkeyed).1

theorem push_nothing {new cur : List Value} (h : ∀ t ∈ new, t ∈ cur) :
    new.foldl (fun cur t => if t ∈ cur then cur else cur ++ [t]) cur = cur := by
  induction new with
  | nil => rfl
  | cons t new ih =>
      rw [List.forall_mem_cons] at h
      rw [List.foldl_cons, if_pos h.1]
      exact ih h.2

theorem stamped_meta (expanded : Map) (hmeta : Temporal.is_meta k = true) :
    (stamp_temporal_instances uuid ts expanded).lookup k = expanded.lookup k := by
  rw [lookup_stamped]
  cases expanded.lookup k with
  | none => rfl
  | some v => exact congrArg some (if_pos hmeta)

theorem union_types_of_none {expanded : Map} (h : (expanded.lookup "type").bind Value.as_array = none) (m : Map) :
    union_types expanded m = m := by
  unfold union_types
  rw [h]

theorem union_types_of_some {expanded : Map} {new : List Value} (h : (expanded.lookup "type").bind Value.as_array = some new)
    (m : Map) : union_types expanded m = SortedMap.insert "type" (.array (new.foldl
      (fun cur t => if t ∈ cur then cur else cur ++ [t]) (((m.lookup "type").bind Value.as_array).getD []))) m := by
  unfold union_types
  rw [h]

/-- An upsert leaves the members of the entity as they are, but for the types and when it was modified. -/
theorem lookup_merge_meta {expanded : Map} (hs : SortedMap.Sorted expanded) (hctx : expanded.lookup "@context" = none)
    (hk : k ∈ DOC_META) (hmodified : k ≠ "modifiedAt") (m : Map) :
    (merge_temporal expanded ts m).lookup k = (union_types expanded m).lookup k := by
  have hgrown := lookup_grown (k := k) merge_all hs (union_types expanded m)
  have hsame : ∀ target, (touch ts target).lookup k = target.lookup k := fun target => by
    rw [lookup_touch, if_neg hmodified]
  refine (hsame _).trans (hgrown.trans ?_)
  by_cases hc : k = "@context"
  · rw [hc, hctx]
    rfl
  · cases expanded.lookup k with
    | none => rfl
    | some v => exact if_pos (is_meta_eq.mpr ⟨hc, hk⟩)

/-- After a request its types are those of the document. -/
theorem types_after (expanded : Fragment) {new : List Value}
    (hnew : (expanded.members.lookup "type").bind Value.as_array = some new) {s : Option Map} {m : Map} (hm : (execute (memory Time) s (.upsert now ts uuid expanded)).1 = some m) :
    ∃ cur, m.lookup "type" = some (.array cur) ∧ ∀ t ∈ new, t ∈ cur := by
  have hstamped : (stamp_temporal_instances uuid ts expanded.members).lookup "type" = expanded.members.lookup "type" :=
    stamped_meta ts uuid _ (by decide)
  cases s with
  | none =>
      obtain rfl := Option.some.inj hm
      refine ⟨new, ?_, fun t ht => ht⟩
      rw [lookup_touch, if_neg (by decide), SortedMap.lookup_insert, if_neg (by decide), hstamped]
      obtain ⟨v, hv, harray⟩ := Option.bind_eq_some_iff.mp hnew
      cases v with
      | array items => exact hv.trans (congrArg (fun l => some (Value.array l)) (Option.some.inj harray))
      | _ => cases harray
  | some m₀ =>
      obtain rfl : merge_temporal (stamp_temporal_instances uuid ts expanded.members) ts m₀ = m := Option.some.inj hm
      have hctx : (stamp_temporal_instances uuid ts expanded.members).lookup "@context" = none := by
        rw [lookup_stamped, expanded.no_context]
        rfl
      rw [lookup_merge_meta ts (sorted_stamped uuid ts expanded) hctx (by decide) (by decide),
        union_types_of_some (hstamped ▸ hnew), SortedMap.lookup_insert, if_pos rfl]
      exact ⟨_, rfl, fun t ht => mem_push.mpr (.inr ht)⟩

/-- What an upsert makes of the instances of an attribute. -/
theorem held_upsert (expanded : Fragment) (hk : k ∉ DOC_META) {s : Option Map} {m : Map}
    (hm : (execute (memory Time) s (.upsert now ts uuid expanded)).1 = some m) :
    held m k = if instances expanded.members k = [] then s.bind (held · k) else
      some ((s.bind (held · k)).elim ((instances expanded.members k).mapIdx (fun i v => stamp_instance (uuid k i) ts v))
        (fun cur => merge_all cur ((instances expanded.members k).mapIdx (fun i v => stamp_instance (uuid k i) ts v)))) := by
  have hs := sorted_stamped uuid ts expanded
  cases hl : expanded.members.lookup k with
  | none =>
      have hnone : (stamp_temporal_instances uuid ts expanded.members).lookup k = none := by
        rw [lookup_stamped, hl]
        rfl
      have hinst : instances expanded.members k = [] := by rw [instances, hl]; rfl
      rw [if_pos hinst]
      cases s with
      | none =>
          obtain rfl := Option.some.inj hm
          rw [held_create hk, held, hnone]
          rfl
      | some m₀ =>
          obtain rfl : merge_temporal (stamp_temporal_instances uuid ts expanded.members) ts m₀ = m := Option.some.inj hm
          rw [held_merge hs hk, grown, hnone]
          rfl
  | some v =>
      obtain ⟨items, hitems, hne, -⟩ := expanded.arrays (k, v) (SortedMap.mem_of_lookup hl) hk
      obtain rfl : v = .array items := hitems
      have hinst : instances expanded.members k = items := by rw [instances, hl]; rfl
      have hsome : (stamp_temporal_instances uuid ts expanded.members).lookup k =
          some (.array (items.mapIdx (fun i v => stamp_instance (uuid k i) ts v))) := by
        rw [lookup_stamped, hl, Option.map_some, stamp_attr, if_neg (Bool.eq_false_iff.mp (is_meta_attr hk))]
      rw [hinst, if_neg hne]
      cases s with
      | none =>
          obtain rfl := Option.some.inj hm
          rw [held_create hk, held, hsome]
          rfl
      | some m₀ =>
          obtain rfl : merge_temporal (stamp_temporal_instances uuid ts expanded.members) ts m₀ = m := Option.some.inj hm
          rw [held_merge hs hk, grown, hsome]
          rfl

/-- A request posted twice, whose instances of an attribute are of different datasets or times, leaves what it leaves
when posted once: the same instances under the same ids and creation times, and the same members of the entity. Only
the times of modification differ. -/
theorem reposting_only_touches (expanded : Fragment) (hkeyed : ∀ k ∉ DOC_META, Keyed (instances expanded.members k))
    (s : Option Map) : ∃ m m', (execute (memory Time) s (.upsert now ts uuid expanded)).1 = some m ∧
      (execute (memory Time) (some m) (.upsert now' ts' uuid' expanded)).1 = some m' ∧
      (∀ k ∉ DOC_META, List.Forall₂ Touched ((held m k).getD []) ((held m' k).getD [])) ∧
      ∀ k ∈ DOC_META, k ≠ "modifiedAt" → m'.lookup k = m.lookup k := by
  obtain ⟨m, hm⟩ : ∃ m, (execute (memory Time) s (.upsert now ts uuid expanded)).1 = some m := by
    cases s <;> exact ⟨_, rfl⟩
  refine ⟨m, merge_temporal (stamp_temporal_instances uuid' ts' expanded.members) ts' m, hm, rfl, fun k hk => ?_,
    fun k hk hmodified => ?_⟩
  · rw [held_upsert now' ts' uuid' expanded hk (s := some m) rfl, held_upsert now ts uuid expanded hk hm]
    by_cases hnil : instances expanded.members k = []
    · rw [if_pos hnil, if_pos hnil, Option.bind_some, held_upsert now ts uuid expanded hk hm, if_pos hnil]
      exact List.forall₂_same.mpr fun c _ => .inl rfl
    · rw [if_neg hnil, if_neg hnil, Option.bind_some, held_upsert now ts uuid expanded hk hm, if_neg hnil]
      exact held_twice (posting_stamped ts ts' uuid uuid' fun v hv => instances_expanded expanded hk hv)
        (keyed_stamped ts' uuid' (hkeyed k hk)) _
  · have hctx : (stamp_temporal_instances uuid' ts' expanded.members).lookup "@context" = none := by
      rw [lookup_stamped, expanded.no_context]
      rfl
    have hstamped : (stamp_temporal_instances uuid' ts' expanded.members).lookup "type" = expanded.members.lookup "type" :=
      stamped_meta ts' uuid' _ (by decide)
    rw [lookup_merge_meta ts' (sorted_stamped uuid' ts' expanded) hctx hk hmodified]
    cases hnew : (expanded.members.lookup "type").bind Value.as_array with
    | none => rw [union_types_of_none (hstamped ▸ hnew)]
    | some new =>
        obtain ⟨cur, hcur, hall⟩ := types_after now ts uuid expanded hnew hm
        rw [union_types_of_some (hstamped ▸ hnew), SortedMap.lookup_insert]
        split_ifs with htype
        · rw [htype, hcur]
          exact congrArg (fun l => some (Value.array l)) (push_nothing hall)
        · rfl

theorem reading_twice : ∃ m m', (execute (memory Unit) none (posts "2026-01-01T10:00:00Z")).1 = some m ∧
    (execute (memory Unit) (some m)
      (.upsert () "2026-01-01T12:00:00Z" (fun _ _ => "urn:again") (reading "2026-01-01T10:00:00Z"))).1 = some m' ∧
      List.Forall₂ Touched ((held m "urn:t").getD []) ((held m' "urn:t").getD []) := by
  have hkeyed : ∀ k ∉ DOC_META, Keyed (instances (reading "2026-01-01T10:00:00Z").members k) := by
    intro k hk
    have htype : k ≠ "type" := by
      rintro rfl
      exact hk (by decide)
    rw [instances, reading, SortedMap.lookup_cons, if_neg htype, SortedMap.lookup_cons]
    split_ifs
    · exact ⟨by decide, by decide⟩
    · exact ⟨fun v hv => (List.not_mem_nil hv).elim, List.nodup_nil⟩
  obtain ⟨m, m', hm, hm', htouched, -⟩ := reposting_only_touches () () "2026-01-01T10:00:00Z" "2026-01-01T12:00:00Z"
    (fun _ _ => "2026-01-01T10:00:00Z") (fun _ _ => "urn:again") (reading "2026-01-01T10:00:00Z") hkeyed none
  exact ⟨m, m', hm, hm', htouched "urn:t" (by decide)⟩

end Twice

end Reposting

end AntaresBroker.UpsertRace
