import AntaresBroker.Batch
import AntaresBroker.KeyedLoop

namespace AntaresBroker.Batch

open Json JsonLd Ql.Eval Federation Patch

/-- The entity of which something is told. -/
def Told.id : Told → Option String
  | ok id _ => some id
  | failed id _ => id

@[simp] theorem Told.id_ok (id : String) (created : Bool) : (Told.ok id created).id = some id := rfl

@[simp] theorem Told.id_failed (id : Option String) (e : Problem) : (Told.failed id e).id = id := rfl

/-- What is told of an item under which id, if it has a local part. -/
def Prepared.told? : Prepared → Option (Option String)
  | away => none
  | failed id _ => some id
  | ready id _ => some (some id)

section Rounds

theorem flatten_place (rounds : List (List (String × Map))) (n : Nat) (p : String × Map) :
    (place rounds n p).flatten.Perm (rounds.flatten ++ [p]) := by
  unfold place
  split_ifs with h
  · rw [List.flatten_append]
    simp
  · have hlt : n < rounds.length := Nat.lt_of_not_le h
    have hsplit : rounds.flatten = (rounds.take n).flatten ++ (rounds[n] ++ (rounds.drop (n + 1)).flatten) := by
      conv_lhs => rw [← List.take_append_drop n rounds]
      rw [List.drop_eq_getElem_cons hlt, List.flatten_append, List.flatten_cons]
    rw [List.modify_eq_take_cons_drop hlt, List.flatten_append, List.flatten_cons, hsplit, List.append_assoc,
      List.append_assoc, List.append_assoc]
    exact ((@List.perm_append_comm _ [p] _).append_left _).append_left _

theorem length_place {rounds : List (List (String × Map))} {n : Nat} (p : String × Map) (hn : n ≤ rounds.length) :
    (place rounds n p).length = if n = rounds.length then rounds.length + 1 else rounds.length := by
  unfold place
  split_ifs with h h' h'
  · rw [List.length_append, List.length_singleton]
  · omega
  · omega
  · rw [List.length_modify]

/-- As many rounds as the most frequent id has occurrences, and every item in one. -/
theorem rounds_of_perm (prepped : List (String × Map)) : (rounds_of prepped).flatten.Perm prepped := by
  have hrun : ∀ (l : List (String × Map)) (r : List String × List (List (String × Map))),
      (∀ id, r.1.count id ≤ r.2.length) → (l.foldl add_to_rounds r).2.flatten.Perm (r.2.flatten ++ l) := by
    intro l
    induction l with
    | nil => intro r _; simp
    | cons p l ih =>
        intro r hr
        refine (ih (add_to_rounds r p) fun id => ?_).trans ?_
        · have hid := hr id
          rw [add_to_rounds, length_place p (hr p.1), List.count_append, List.count_singleton]
          by_cases hp : p.1 = id
          · subst hp
            rw [if_pos (beq_self_eq_true p.1)]
            split_ifs <;> omega
          · rw [if_neg (by simpa using hp)]
            split_ifs <;> omega
        · exact ((flatten_place r.2 _ p).append_right l).trans (by simp)
  have hall := hrun prepped ([], []) fun id => Nat.le_refl _
  rwa [List.flatten_nil, List.nil_append] at hall

end Rounds

section Accounts

theorem zipWith_id {α : Type} {f : String → α → Told} (hf : ∀ id a, (f id a).id = some id) {ids : List String}
    {answers : List α} (h : answers.length = ids.length) : (ids.zipWith f answers).map Told.id = ids.map some := by
  induction ids generalizing answers with
  | nil => rfl
  | cons id ids ih =>
      cases answers with
      | nil => cases h
      | cons a answers =>
          rw [List.zipWith_cons_cons, List.map_cons, List.map_cons, hf, ih (Nat.succ.inj h)]

/-- What is merged into what is there, and what is created after that. -/
theorem existing_perm {round : List (String × Map)} {answers : List (Option (Except Problem Bool))}
    (h : answers.length = round.length) :
    ((((round.map Prod.fst).zip answers).filterMap (fun p => existing p.1 p.2)).map Told.id ++
      (((round.zip answers).filter (fun p => p.2.isNone)).map Prod.fst).map (fun p => some p.1)).Perm
      (round.map (fun p => some p.1)) := by
  induction round generalizing answers with
  | nil => rfl
  | cons p round ih =>
      cases answers with
      | nil => cases h
      | cons a answers =>
          have hrest := ih (Nat.succ.inj h)
          rw [List.map_cons, List.zip_cons_cons, List.zip_cons_cons, List.map_cons]
          cases a with
          | none =>
              rw [List.filterMap_cons_none rfl, List.filter_cons_of_pos rfl, List.map_cons, List.map_cons]
              exact List.perm_middle.trans (hrest.cons _)
          | some r =>
              have htold : ∃ t, existing p.1 (some r) = some t ∧ t.id = some p.1 := by
                cases r with
                | error e => exact ⟨_, rfl, rfl⟩
                | ok b => exact ⟨_, rfl, rfl⟩
              obtain ⟨t, ht, hid⟩ := htold
              rw [List.filterMap_cons_some (f := fun q : String × Option (Except Problem Bool) => existing q.1 q.2) ht,
                List.filter_cons_of_neg (by simp), List.map_cons, hid, List.cons_append]
              exact hrest.cons _

variable {σ Instant : Type} [LinearOrder Instant] {store : Storage σ} {req : Request Instant} {ts : String} {s : σ}
  {r : σ × List Told}

theorem upsert_all_told {docs : List (String × Map)} (h : upsert_all store ts docs s = some r) :
    r.2.map Told.id = docs.map (fun p => some p.1) := by
  unfold upsert_all at h
  split_ifs at h with hdocs
  · rw [← Option.some.inj h, hdocs]
    rfl
  · obtain ⟨a, ha, rfl⟩ := Option.map_eq_some_iff.mp h
    have hlen := store.upsert_answers ha
    rw [List.length_map] at hlen
    rw [zipWith_id (fun _ _ => rfl) (by rw [hlen, List.length_map]), List.map_map]
    rfl

theorem create_all_told {docs : List (String × Map)} (h : create_all store ts docs s = some r) :
    r.2.map Told.id = docs.map (fun p => some p.1) := by
  unfold create_all at h
  split_ifs at h with hdocs
  · rw [← Option.some.inj h, hdocs]
    rfl
  · obtain ⟨a, ha, rfl⟩ := Option.map_eq_some_iff.mp h
    have hlen := store.create_answers ha
    have hid : ∀ id created, (created_told id created).id = some id := by
      intro id created
      unfold created_told
      split_ifs <;> rfl
    rw [List.length_map] at hlen
    rw [zipWith_id hid (by rw [hlen, List.length_map]), List.map_map]
    rfl

theorem run_round_told {round : List (String × Map)} (h : run_round store req ts round s = some r) :
    (r.2.map Told.id).Perm (round.map (fun p => some p.1)) := by
  have hmutate : ∀ keep, ((store.batch_mutate s (change round keep ts) (round.map Prod.fst)).map fun r =>
      (r.1, (round.map Prod.fst).zipWith merged r.2)) = some r → (r.2.map Told.id).Perm (round.map (fun p => some p.1)) := by
    intro keep hr
    obtain ⟨a, ha, rfl⟩ := Option.map_eq_some_iff.mp hr
    have hid : ∀ id a, (merged id a).id = some id := by
      intro id a
      rcases a with _ | _ | _ | _ <;> rfl
    rw [zipWith_id hid (store.mutate_answers ha), List.map_map]
    rfl
  unfold run_round at h
  cases hmode : req.mode with
  | create =>
      simp only [hmode, Option.some.injEq] at h
      rw [← h, List.map_map, List.map_map]
      rfl
  | upsert =>
      simp only [hmode] at h
      split_ifs at h with hupdate
      · obtain ⟨a, ha, htail⟩ := Option.bind_eq_some_iff.mp h
        obtain ⟨u, hu, rfl⟩ := Option.map_eq_some_iff.mp htail
        have hlen := store.mutate_answers ha
        rw [List.map_append, upsert_all_told hu]
        exact existing_perm (by rw [hlen, List.length_map])
      · rw [upsert_all_told h]
  | update =>
      simp only [hmode] at h
      exact hmutate _ h
  | merge =>
      simp only [hmode] at h
      exact hmutate _ h

theorem run_rounds_told {rounds : List (List (String × Map))} {n : Nat} (h : run_rounds store req n rounds s = some r) :
    (r.2.map Told.id).Perm (rounds.flatten.map (fun p => some p.1)) := by
  induction rounds generalizing n s r with
  | nil =>
      rw [← Option.some.inj h]
      rfl
  | cons round rounds ih =>
      obtain ⟨a, ha, htail⟩ := Option.bind_eq_some_iff.mp h
      obtain ⟨rest, hrest, rfl⟩ := Option.map_eq_some_iff.mp htail
      rw [List.map_append, List.flatten_cons, List.map_append]
      exact (run_round_told ha).append (ih hrest)

theorem prepared_perm (l : List Prepared) :
    ((l.filterMap Prepared.failed?).map Told.id ++ (l.filterMap Prepared.ready?).map (fun p => some p.1)).Perm
      (l.filterMap Prepared.told?) := by
  induction l with
  | nil => rfl
  | cons p l ih =>
      cases p with
      | away => exact ih
      | failed id e =>
          rw [List.filterMap_cons_some (rfl : (Prepared.failed id e).failed? = _),
            List.filterMap_cons_none (rfl : (Prepared.failed id e).ready? = none),
            List.filterMap_cons_some (rfl : (Prepared.failed id e).told? = _), List.map_cons, List.cons_append]
          exact ih.cons _
      | ready id doc =>
          rw [List.filterMap_cons_none (rfl : (Prepared.ready id doc).failed? = none),
            List.filterMap_cons_some (rfl : (Prepared.ready id doc).ready? = _),
            List.filterMap_cons_some (rfl : (Prepared.ready id doc).told? = _), List.map_cons]
          exact List.perm_middle.trans (ih.cons _)

/-- Every item with a local part is told of once, and nothing else is. -/
theorem write_local_told {env : Env} (h : write_local store env req s = some r) :
    (r.2.map Told.id).Perm ((req.prepared env).filterMap Prepared.told?) := by
  unfold write_local at h
  obtain ⟨a, ha, rfl⟩ := Option.map_eq_some_iff.mp h
  have hready : (a.2.map Told.id).Perm (((req.prepared env).filterMap Prepared.ready?).map (fun p => some p.1)) := by
    split_ifs at ha with hcreate
    · rw [create_all_told ha]
    · exact (run_rounds_told ha).trans ((rounds_of_perm _).map _)
  rw [List.map_append]
  exact (hready.append_left _).trans (prepared_perm _)

end Accounts

/-- The id an item goes by, in either spelling of its name. -/
def named_id (item : Value) : Option String := ((item.get "id").or (item.get "@id")).bind Value.as_str

section Names

theorem named_of_hint {item : Value} {id : String} (h : id_hint item = some id) : named_id item = some id := by
  obtain ⟨v, hv, hid⟩ := Option.bind_eq_some_iff.mp h
  rw [named_id, hv, Option.some_or, Option.bind_some, hid]

variable {Instant : Type} [LinearOrder Instant]

theorem prep_id {mode : BatchMode} {x : Expander Instant} {item : Value} {p : String × Map}
    (h : prep mode x item = .ok p) : named_id item = some p.1 := by
  unfold prep at h
  cases item with
  | object obj =>
      dsimp only at h
      cases hexp : x.expand_entity obj mode.opts with
      | error e => rw [hexp] at h; cases h
      | ok expanded =>
          rw [hexp] at h
          dsimp only at h
          have hmember := (Expander.expand_entity_ok hexp).1.1
          unfold Expander.id_member at hmember
          have hfrom : ∃ id, (obj.lookup "id").or (obj.lookup "@id") = some (.string id) ∧
              expanded.lookup "id" = some (.string id) ∨ expanded.lookup "id" = none := by
            split at hmember
            · rename_i id hobj
              split_ifs at hmember with hvalid
              exact ⟨id, .inl ⟨hobj, (Except.ok.inj hmember).symm⟩⟩
            · cases hmember
            · split_ifs at hmember
              exact ⟨"", .inr (Except.ok.inj hmember).symm⟩
          obtain ⟨id, ⟨hobj, hid⟩ | hid⟩ := hfrom
          · rw [hid] at h
            obtain rfl := Except.ok.inj h
            exact congrArg (fun v => Option.bind v Value.as_str) hobj
          · rw [hid] at h
            cases h
  | _ => cases h

theorem local_named {env : Env} {proxies : List FedReg} {x : Expander Instant} {item rest : Value} {id : String}
    (h : local_item env proxies x item = some rest) (hid : named_id rest = some id) : named_id item = some id := by
  unfold local_item at h
  split_ifs at h with hnone
  · rwa [Option.some.inj h]
  · cases item with
    | object o =>
        dsimp only at h
        split_ifs at h
        obtain rfl := Option.some.inj h
        have hrest := fun k => SortedMap.lookup_filter (fun k => k ≠ "@context" && (KEPT.contains k ||
          !proxies.any (fun r => owns x env r o (x.ctx.expand_key k)))) o k
        have hget : ∀ k, (Value.object (strip_proxied x env o proxies).1).get k =
            if (k ≠ "@context" && (KEPT.contains k || !proxies.any (fun r => owns x env r o (x.ctx.expand_key k)))) = true
            then o.lookup k else none := hrest
        have hkept : (Value.object (strip_proxied x env o proxies).1).get "id" = o.lookup "id" := (hget _).trans (if_pos rfl)
        unfold named_id at hid ⊢
        rw [hkept, hget] at hid
        change ((o.lookup "id").or (o.lookup "@id")).bind Value.as_str = some id
        cases ho : o.lookup "id" with
        | some v =>
            rw [ho, Option.some_or] at hid
            rwa [Option.some_or]
        | none =>
            rw [ho, Option.none_or] at hid
            rw [Option.none_or]
            split_ifs at hid
            · exact hid
            · cases hid
    | _ => rwa [Option.some.inj h]

theorem told_named {env : Env} {mode : BatchMode} {proxies : List FedReg} {i : Item Instant} {id : String}
    (h : (prepare env mode proxies i).told? = some (some id)) : named_id i.item = some id := by
  unfold prepare at h
  cases hctx : i.ctx with
  | error e =>
      rw [hctx] at h
      exact named_of_hint (Option.some.inj h)
  | ok x =>
      rw [hctx] at h
      dsimp only at h
      cases hrest : local_item env proxies x i.item with
      | none => rw [hrest] at h; cases h
      | some rest =>
          rw [hrest] at h
          dsimp only at h
          cases hprep : prep mode x rest with
          | error e =>
              rw [hprep] at h
              exact named_of_hint (Option.some.inj h)
          | ok p =>
              rw [hprep] at h
              obtain rfl := Option.some.inj (Option.some.inj h)
              exact local_named hrest (prep_id hprep)

variable {env : Env} {req : Request Instant} {s : Source}

theorem reduced_id {x : Expander Instant} {o ent : Map} {reg : FedReg} (h : reduce_to_scope x env o reg = some ent) :
    ent.lookup "id" = o.lookup "id" := by
  unfold reduce_to_scope at h
  split_ifs at h
  cases hattrs : reg.attrs with
  | none =>
      rw [hattrs] at h
      rw [← Option.some.inj h, SortedMap.lookup_erase, if_neg (by decide)]
  | some attrs =>
      rw [hattrs] at h
      dsimp only at h
      split_ifs at h
      rw [← Option.some.inj h, SortedMap.lookup_filter (fun k => k ≠ "@context" &&
        (KEPT.contains k || reg.covers_attr (x.ctx.expand_key k)))]
      exact if_pos rfl

theorem mem_sent_ids {i : String} : i ∈ sent_ids env req s ↔
    ∃ ent ∈ sent env req s, (ent.lookup "id").bind Value.as_str = some i := List.mem_filterMap

theorem sent_named {i : String} (h : i ∈ sent_ids env req s) : ∃ item ∈ req.items, named_id item.item = some i := by
  obtain ⟨ent, hent, hid⟩ := mem_sent_ids.mp h
  obtain ⟨p, hp, hreduced⟩ := List.mem_filterMap.mp hent
  obtain ⟨item, hitem, hfwd⟩ := List.mem_filterMap.mp hp
  rw [reduced_id hreduced] at hid
  refine ⟨item, hitem, ?_⟩
  split at hfwd
  · rename_i o x ho hx
    obtain rfl := Option.some.inj hfwd
    refine named_of_hint ?_
    rw [ho]
    exact hid
  · cases hfwd

end Names

section Replies

/-- The answer to a batch says that the entity was written. -/
def batch_ok (reply : Reply) (i : String) : Prop :=
  (200 ≤ reply.status ∧ reply.status ≤ 206 ∧ ∀ a, reply.body = .array a → .string i ∈ a) ∨
    (reply.status = 207 ∧ ∃ a, reply.body.get "success" = some (.array a) ∧ .string i ∈ a)

def batch_failed (reply : Reply) (i : String) : Prop :=
  (reply.status = 207 ∧ ∃ a, reply.body.get "errors" = some (.array a) ∧ ∃ e ∈ a, e.get "entityId" = some (.string i)) ∨
    (¬(200 ≤ reply.status ∧ reply.status ≤ 206) ∧ ¬(reply.status = 207 ∧ reply.body.is_object))

def single_ok (status : Nat) : Prop := 200 ≤ status ∧ status < 300 ∧ status ≠ 207

theorem mem_listed {v : Option Value} {ids : List String} {i : String} :
    i ∈ listed v ids ↔ i ∈ ids ∧ ∃ a, v = some (.array a) ∧ .string i ∈ a := by
  have hstring : ∀ w : Value, w.as_str = some i ↔ w = .string i := by
    intro w
    cases w <;> simp [Value.as_str]
  unfold listed
  rw [List.mem_filter, List.contains_iff_mem, and_comm, List.mem_filterMap]
  refine and_congr_right fun _ => ?_
  simp only [hstring]
  constructor
  · rintro ⟨w, hw, rfl⟩
    cases v with
    | none => cases hw
    | some v =>
        cases v with
        | array a => exact ⟨a, rfl, hw⟩
        | _ => cases hw
  · rintro ⟨a, rfl, hi⟩
    exact ⟨_, hi, rfl⟩

theorem object_of_get {v w : Value} {k : String} (h : v.get k = some w) : v.is_object = true := by
  cases v with
  | object o => rfl
  | _ => cases h

theorem ok_mem_batch {reply : Reply} {ids : List String} {created c : Bool} {i : String} :
    Told.ok i c ∈ merge_remote_batch reply ids created ↔ c = created ∧ i ∈ ids ∧ batch_ok reply i := by
  have hmap : ∀ l : List String, Told.ok i c ∈ l.map (Told.ok · created) ↔ c = created ∧ i ∈ l := by
    intro l
    rw [List.mem_map]
    constructor
    · rintro ⟨j, hj, heq⟩
      cases heq
      exact ⟨rfl, hj⟩
    · rintro ⟨rfl, hi⟩
      exact ⟨i, hi, rfl⟩
  unfold merge_remote_batch batch_ok
  split_ifs with hok hmulti
  · have hstatus : ¬reply.status = 207 := by omega
    simp only [hok.1, hok.2, hstatus, true_and, false_and, or_false]
    cases hbody : reply.body with
    | array a =>
        rw [hmap, mem_listed]
        refine and_congr_right fun _ => and_congr_right fun _ => ?_
        constructor
        · rintro ⟨b, hb, hi⟩ _ heq
          rw [← Value.array.inj heq, Value.array.inj (Option.some.inj hb)]
          exact hi
        · exact fun h => ⟨a, rfl, h a rfl⟩
    | _ => simp [hmap]
  · have hstatus : ¬(200 ≤ reply.status ∧ reply.status ≤ 206 ∧ ∀ a, reply.body = .array a → .string i ∈ a) :=
      fun h => hok ⟨h.1, h.2.1⟩
    rw [List.mem_append, hmap, mem_listed]
    constructor
    · rintro (⟨hc, hi, h⟩ | hfailed)
      · exact ⟨hc, hi, .inr ⟨hmulti.1, h⟩⟩
      · obtain ⟨e, -, he⟩ := List.mem_filterMap.mp hfailed
        obtain ⟨j, -, heq⟩ := Option.map_eq_some_iff.mp he
        cases heq
    · rintro ⟨hc, hi, h | h⟩
      · exact absurd h hstatus
      · exact .inl ⟨hc, hi, h.2⟩
  · constructor
    · intro h
      obtain ⟨j, -, heq⟩ := List.mem_map.mp h
      cases heq
    · rintro ⟨-, -, h | ⟨h, a, ha, -⟩⟩
      · exact absurd ⟨h.1, h.2.1⟩ hok
      · exact absurd ⟨h, object_of_get ha⟩ hmulti

theorem failed_mem_batch {reply : Reply} {ids : List String} {created : Bool} {o : Option String} :
    (∃ e, Told.failed o e ∈ merge_remote_batch reply ids created) ↔ ∃ i, o = some i ∧ i ∈ ids ∧ batch_failed reply i := by
  have hoks : ∀ (l : List String) e, Told.failed o e ∉ l.map (Told.ok · created) := by
    intro l e h
    obtain ⟨j, -, heq⟩ := List.mem_map.mp h
    cases heq
  unfold merge_remote_batch batch_failed
  split_ifs with hok hmulti
  · have hstatus : ¬reply.status = 207 := by omega
    constructor
    · rintro ⟨e, he⟩
      split at he
      · exact absurd he (hoks _ e)
      · exact absurd he (hoks _ e)
    · rintro ⟨i, -, -, h | h⟩
      · exact absurd h.1 hstatus
      · exact absurd hok h.1
  · constructor
    · rintro ⟨e, he⟩
      rcases List.mem_append.mp he with he | he
      · exact absurd he (hoks _ e)
      · obtain ⟨v, hv, hnamed⟩ := List.mem_filterMap.mp he
        obtain ⟨i, hi, heq⟩ := Option.map_eq_some_iff.mp hnamed
        cases heq
        obtain ⟨hi, hids⟩ := Option.filter_eq_some_iff.mp hi
        obtain ⟨w, hw, hstr⟩ := Option.bind_eq_some_iff.mp hi
        cases w with
        | string i' =>
            obtain rfl := Option.some.inj hstr
            cases harr : (reply.body.get "errors").bind Value.as_array with
            | none => rw [harr] at hv; cases hv
            | some a =>
                obtain ⟨u, hu, ha⟩ := Option.bind_eq_some_iff.mp harr
                cases u with
                | array a' =>
                    obtain rfl := Option.some.inj ha
                    rw [harr] at hv
                    exact ⟨i', rfl, List.contains_iff_mem.mp hids, .inl ⟨hmulti.1, a', hu, v, hv, hw⟩⟩
                | _ => cases ha
        | _ => cases hstr
    · rintro ⟨i, rfl, hi, ⟨-, a, ha, v, hv, hw⟩ | h⟩
      · have hmem : v ∈ ((reply.body.get "errors").bind Value.as_array).getD [] := by
          rw [ha]
          exact hv
        have hnamed : named_error reply.status ids v = some (err_remote i (named_status reply.status v)
            "forwarded batch operation reported an error for this entity") := by
          rw [named_error, hw, Option.bind_some, Value.as_str, Option.filter_some, if_pos (List.contains_iff_mem.mpr hi)]
          rfl
        exact ⟨_, List.mem_append.mpr (.inr (List.mem_filterMap.mpr ⟨v, hmem, hnamed⟩))⟩
      · exact absurd hmulti h.2
  · constructor
    · rintro ⟨e, he⟩
      obtain ⟨i, hi, heq⟩ := List.mem_map.mp he
      cases heq
      exact ⟨i, rfl, hi, .inr ⟨hok, hmulti⟩⟩
    · rintro ⟨i, rfl, hi, -⟩
      exact ⟨_, List.mem_map.mpr ⟨i, hi, rfl⟩⟩

end Replies

section Sources

/-- The request whose answer decides about an entity: there is none for an entity the source holds and cannot update. -/
def deciding (mode : BatchMode) (update_mode : Bool) (s : Source) (call : BatchFwd) (n : Nat) : Option BatchFwd :=
  if mode = .upsert ∧ call = .create ∧ s.one call n = 409 then upsert_fallback update_mode s.reg else some call

variable {Instant : Type} [LinearOrder Instant] (env : Env) (req : Request Instant)

def Request.single (req : Request Instant) (s : Source) : Option BatchFwd :=
  single_op req.mode req.update_mode req.no_overwrite s.reg

/-- A forward that carried the entity succeeded, and whether it created the entity. -/
inductive ForwardOk (s : Source) (i : String) : Bool → Prop
  | batch (hop : s.reg.supports req.mode.op = true) (hi : i ∈ sent_ids env req s) (h : batch_ok s.batch i) :
      ForwardOk s i (req.mode = .create || (req.mode = .upsert && s.batch.status = 201))
  | single {call d : BatchFwd} {n : Nat} {ent : Map} (hop : s.reg.supports req.mode.op = false)
      (hcall : req.single s = some call) (hent : (sent env req s)[n]? = some ent) (hid : sent_id ent = i)
      (hd : deciding req.mode req.update_mode s call n = some d) (h : single_ok (s.one d n)) :
      ForwardOk s i (d.created && s.one d n = 201)

/-- A forward that carried the entity failed, or a proxy refused the operation. -/
inductive ForwardFailed (s : Source) (i : String) : Prop
  | batch (hop : s.reg.supports req.mode.op = true) (hi : i ∈ sent_ids env req s) (h : batch_failed s.batch i)
  | single {call : BatchFwd} {n : Nat} {ent : Map} (hop : s.reg.supports req.mode.op = false)
      (hcall : req.single s = some call) (hent : (sent env req s)[n]? = some ent) (hid : sent_id ent = i)
      (h : ∀ d, deciding req.mode req.update_mode s call n = some d → ¬single_ok (s.one d n))
  | refused (hop : s.reg.supports req.mode.op = false) (hcall : req.single s = none) (hproxy : s.reg.is_proxy = true)
      (hi : i ∈ sent_ids env req s)

theorem one_outcome_eq (id : String) (status : Nat) (created : Bool) :
    (single_ok status ∧ one_outcome id status created = .ok id (created && status = 201)) ∨
      (¬single_ok status ∧ ∃ e, one_outcome id status created = .failed (some id) e) := by
  unfold one_outcome
  by_cases h : single_ok status
  · exact .inl ⟨h, if_pos h⟩
  · exact .inr ⟨h, _, if_neg h⟩

theorem forward_entity_eq (mode : BatchMode) (update_mode : Bool) (s : Source) (call : BatchFwd) (n : Nat) (ent : Map) :
    (∃ d, deciding mode update_mode s call n = some d ∧ single_ok (s.one d n) ∧
      forward_entity mode update_mode s call n ent = .ok (sent_id ent) (d.created && s.one d n = 201)) ∨
      (∀ d, deciding mode update_mode s call n = some d → ¬single_ok (s.one d n)) ∧
        ∃ e, forward_entity mode update_mode s call n ent = .failed (some (sent_id ent)) e := by
  have hdecide : ∀ d, deciding mode update_mode s call n = some d →
      forward_entity mode update_mode s call n ent = one_outcome (sent_id ent) (s.one d n) d.created := by
    intro d hd
    unfold deciding at hd
    unfold forward_entity
    dsimp only
    by_cases h : mode = .upsert ∧ call = .create ∧ s.one call n = 409
    · rw [if_pos h] at hd ⊢
      rw [hd]
    · rw [if_neg h] at hd ⊢
      obtain rfl := Option.some.inj hd
      rfl
  cases hd : deciding mode update_mode s call n with
  | some d =>
      rcases one_outcome_eq (sent_id ent) (s.one d n) d.created with ⟨hok, heq⟩ | ⟨hok, e, heq⟩
      · exact .inl ⟨d, rfl, hok, (hdecide d hd).trans heq⟩
      · refine .inr ⟨fun d' hd' => ?_, e, (hdecide d hd).trans heq⟩
        rwa [← Option.some.inj hd']
  | none =>
      refine .inr ⟨fun d hd' => (by cases hd'), ?_⟩
      unfold deciding at hd
      unfold forward_entity
      dsimp only
      by_cases h : mode = .upsert ∧ call = .create ∧ s.one call n = 409
      · rw [if_pos h] at hd ⊢
        rw [hd]
        exact ⟨_, rfl⟩
      · rw [if_neg h] at hd
        cases hd

variable {env req} {s : Source}

theorem sent_ne_nil {i : String} (h : i ∈ sent_ids env req s) : sent env req s ≠ [] := by
  obtain ⟨ent, hent, -⟩ := mem_sent_ids.mp h
  exact List.ne_nil_of_mem hent

theorem forward_batch_eq : forward_batch env req s =
    if s.reg.supports req.mode.op then
      if sent env req s = [] then []
      else merge_remote_batch s.batch (sent_ids env req s) (req.mode = .create || (req.mode = .upsert && s.batch.status = 201))
    else match req.single s with
      | some call => (sent env req s).mapIdx (forward_entity req.mode req.update_mode s call)
      | none =>
          if s.reg.is_proxy then (sent_ids env req s).map (fun id =>
            .failed (some id) (.Conflict ("registration does not accept the operation " ++ req.mode.op)))
          else [] := by
  unfold forward_batch Request.single
  by_cases hnil : sent env req s = []
  · have hids : sent_ids env req s = [] := by rw [sent_ids, hnil]; rfl
    rw [if_pos hnil, if_pos hnil, hids, hnil]
    cases single_op req.mode req.update_mode req.no_overwrite s.reg <;> simp
  · have hsent {l : List Told} : (if sent env req s = [] then [] else l) = l := if_neg hnil
    rw [hsent]
    exact hsent.symm ▸ rfl

/-- Of a forward just that is told. -/
theorem ok_mem_forward {i : String} {c : Bool} : Told.ok i c ∈ forward_batch env req s ↔ ForwardOk env req s i c := by
  rw [forward_batch_eq]
  constructor
  · intro h
    cases hop : s.reg.supports req.mode.op with
    | true =>
      rw [if_pos hop] at h
      split_ifs at h
      · cases h
      · obtain ⟨rfl, hi, hok⟩ := ok_mem_batch.mp h
        exact .batch hop hi hok
    | false =>
      rw [if_neg (Bool.eq_false_iff.mp hop)] at h
      cases hcall : req.single s with
      | some call =>
          rw [hcall] at h
          obtain ⟨n, hn, hent⟩ := List.mem_mapIdx.mp h
          rcases forward_entity_eq req.mode req.update_mode s call n (sent env req s)[n] with ⟨d, hd, hok, heq⟩ | ⟨-, e, heq⟩
          · rw [heq] at hent
            obtain ⟨rfl, rfl⟩ := Told.ok.inj hent
            exact .single hop hcall (List.getElem?_eq_getElem hn) rfl hd hok
          · rw [heq] at hent
            cases hent
      | none =>
          rw [hcall] at h
          dsimp only at h
          split_ifs at h
          · obtain ⟨j, -, heq⟩ := List.mem_map.mp h
            cases heq
          · cases h
  · rintro (⟨hop, hi, hok⟩ | ⟨hop, hcall, hent, hid, hd, hok⟩)
    · rw [if_pos hop, if_neg (sent_ne_nil hi)]
      exact ok_mem_batch.mpr ⟨rfl, hi, hok⟩
    · rw [if_neg (Bool.eq_false_iff.mp hop), hcall]
      obtain ⟨hn, rfl⟩ := List.getElem?_eq_some_iff.mp hent
      refine List.mem_mapIdx.mpr ⟨_, hn, ?_⟩
      rcases forward_entity_eq req.mode req.update_mode s _ _ _ with ⟨d', hd', -, heq⟩ | ⟨hno, -⟩
      · rw [heq, hid, Option.some.inj (hd'.symm.trans hd)]
      · exact absurd hok (hno _ hd)

theorem failed_mem_forward {o : Option String} :
    (∃ e, Told.failed o e ∈ forward_batch env req s) ↔ ∃ i, o = some i ∧ ForwardFailed env req s i := by
  rw [forward_batch_eq]
  constructor
  · rintro ⟨e, h⟩
    cases hop : s.reg.supports req.mode.op with
    | true =>
      rw [if_pos hop] at h
      split_ifs at h
      · cases h
      · obtain ⟨i, rfl, hi, hfailed⟩ := failed_mem_batch.mp ⟨e, h⟩
        exact ⟨i, rfl, .batch hop hi hfailed⟩
    | false =>
      rw [if_neg (Bool.eq_false_iff.mp hop)] at h
      cases hcall : req.single s with
      | some call =>
          rw [hcall] at h
          obtain ⟨n, hn, hent⟩ := List.mem_mapIdx.mp h
          rcases forward_entity_eq req.mode req.update_mode s call n (sent env req s)[n] with ⟨d, -, -, heq⟩ | ⟨hno, e', heq⟩
          · rw [heq] at hent
            cases hent
          · rw [heq] at hent
            exact ⟨_, (Told.failed.inj hent).1.symm, .single hop hcall (List.getElem?_eq_getElem hn) rfl hno⟩
      | none =>
          rw [hcall] at h
          dsimp only at h
          split_ifs at h with hproxy
          · obtain ⟨i, hi, heq⟩ := List.mem_map.mp h
            exact ⟨i, (Told.failed.inj heq).1.symm, .refused hop hcall hproxy hi⟩
          · cases h
  · rintro ⟨i, rfl, ⟨hop, hi, hfailed⟩ | ⟨hop, hcall, hent, hid, hno⟩ | ⟨hop, hcall, hproxy, hi⟩⟩
    · rw [if_pos hop, if_neg (sent_ne_nil hi)]
      exact failed_mem_batch.mpr ⟨i, rfl, hi, hfailed⟩
    · rw [if_neg (Bool.eq_false_iff.mp hop), hcall]
      obtain ⟨hn, rfl⟩ := List.getElem?_eq_some_iff.mp hent
      rcases forward_entity_eq req.mode req.update_mode s _ _ _ with ⟨d, hd, hok, -⟩ | ⟨-, e, heq⟩
      · exact absurd hok (hno d hd)
      · exact ⟨e, List.mem_mapIdx.mpr ⟨_, hn, by rw [heq, hid]⟩⟩
    · rw [if_neg (Bool.eq_false_iff.mp hop), hcall]
      dsimp only
      rw [if_pos hproxy]
      exact ⟨_, List.mem_map.mpr ⟨i, hi, rfl⟩⟩

end Sources

section Rendering

theorem mem_add_once {l : List String} {i j : String} : i ∈ add_once l j ↔ i ∈ l ∨ j = i := by
  unfold add_once
  split_ifs with h
  · refine ⟨.inl, fun hi => hi.elim id ?_⟩
    rintro rfl
    exact h
  · simp [eq_comm]

theorem mem_foldl_add_once {ids l : List String} {i : String} : i ∈ ids.foldl add_once l ↔ i ∈ l ∨ i ∈ ids := by
  rw [foldl_iff (P := fun l => i ∈ l) (Q := fun j => j = i) fun l j => mem_add_once]
  simp

/-- What taking something told adds to the answer. -/
structure Takes (take : BatchOutcome → Told → BatchOutcome) : Prop where
  success : ∀ out t i, i ∈ (take out t).success ↔ i ∈ out.success ∨ ∃ c, t = .ok i c
  errors : ∀ out t e, e ∈ (take out t).errors ↔ e ∈ out.errors ∨ t = .failed e.entity_id e.error
  created : ∀ out t i, i ∈ (take out t).created_ids ↔ i ∈ out.created_ids ∨ t = .ok i true
  any_created : ∀ out t, (take out t).any_created = true ↔ out.any_created = true ∨ ∃ i, t = .ok i true

theorem snoc_error {errors : List BatchError} {id : Option String} {e : Problem} {f : BatchError} :
    f ∈ errors ++ [⟨id, e⟩] ↔ f ∈ errors ∨ Told.failed id e = .failed f.entity_id f.error := by
  rw [List.mem_append, List.mem_singleton, BatchError.ext_iff, Told.failed.injEq, @eq_comm _ f.entity_id,
    @eq_comm _ f.error]

theorem take_local_takes : Takes take_local := by
  refine ⟨fun out t i => ?_, fun out t e => ?_, fun out t i => ?_, fun out t => ?_⟩
  · cases t with
    | ok id c => simp [take_local, mem_add_once]
    | failed id e => simp [take_local]
  · cases t with
    | ok id c => simp [take_local]
    | failed id p => exact snoc_error
  · cases t with
    | ok id c => cases c <;> simp [take_local, mem_add_once]
    | failed id e => simp [take_local]
  · cases t with
    | ok id c => simp [take_local]
    | failed id e => simp [take_local]

theorem take_remote_takes : Takes take_remote := by
  refine ⟨fun out t i => ?_, fun out t e => ?_, fun out t i => ?_, fun out t => ?_⟩
  · cases t with
    | ok id c => simp [take_remote, mem_add_once]
    | failed id e => simp [take_remote]
  · cases t with
    | ok id c => simp [take_remote]
    | failed id p => exact snoc_error
  · cases t with
    | ok id c =>
        cases c with
        | true =>
            rw [Told.ok.injEq]
            change i ∈ out.created_ids ++ [id] ↔ _
            rw [List.mem_append, List.mem_singleton, and_iff_left rfl, @eq_comm _ i]
        | false => simp [take_remote]
    | failed id e => simp [take_remote]
  · cases t with
    | ok id c => simp [take_remote]
    | failed id e => simp [take_remote]

/-- The outcome of what the parts told in turn. -/
structure Sums (told : List Told) (out : BatchOutcome) : Prop where
  success : ∀ i, i ∈ out.success ↔ ∃ c, Told.ok i c ∈ told
  errors : ∀ e, e ∈ out.errors ↔ Told.failed e.entity_id e.error ∈ told
  created : ∀ i, i ∈ out.created_ids ↔ Told.ok i true ∈ told
  any_created : out.any_created = true ↔ ∃ i, Told.ok i true ∈ told

theorem Sums.foldl {take : BatchOutcome → Told → BatchOutcome} (ht : Takes take) {told more : List Told}
    {out : BatchOutcome} (h : Sums told out) : Sums (told ++ more) (more.foldl take out) := by
  refine ⟨fun i => ?_, fun e => ?_, fun i => ?_, ?_⟩
  · rw [foldl_iff (P := fun out => i ∈ out.success) (Q := fun t => ∃ c, t = .ok i c) fun out t => ht.success out t i,
      h.success]
    constructor
    · rintro (⟨c, hc⟩ | ⟨t, ht, c, rfl⟩)
      · exact ⟨c, List.mem_append_left _ hc⟩
      · exact ⟨c, List.mem_append_right _ ht⟩
    · rintro ⟨c, hc⟩
      exact (List.mem_append.mp hc).imp (fun hc => ⟨c, hc⟩) fun hc => ⟨_, hc, c, rfl⟩
  · rw [foldl_iff (P := fun out => e ∈ out.errors) (Q := fun t => t = .failed e.entity_id e.error)
      fun out t => ht.errors out t e, h.errors]
    simp
  · rw [foldl_iff (P := fun out => i ∈ out.created_ids) (Q := fun t => t = .ok i true) fun out t => ht.created out t i,
      h.created]
    simp
  · rw [foldl_iff (P := fun out : BatchOutcome => out.any_created = true) (Q := fun t => ∃ i, t = .ok i true) ht.any_created, h.any_created]
    constructor
    · rintro (⟨i, hi⟩ | ⟨t, ht, i, rfl⟩)
      · exact ⟨i, List.mem_append_left _ hi⟩
      · exact ⟨i, List.mem_append_right _ ht⟩
    · rintro ⟨i, hi⟩
      exact (List.mem_append.mp hi).imp (fun hi => ⟨i, hi⟩) fun hi => ⟨_, hi, i, rfl⟩

/-- The answer tells of a success of this kind. -/
def Shows (mode : BatchMode) (told : List Told) (c : Bool) : Prop :=
  (∃ o e, Told.failed o e ∈ told) ∨ mode = .create ∨ (mode = .upsert ∧ c = true)

/-- An answer says what the parts told. -/
theorem respond_sums (mode : BatchMode) {told : List Told} {out : BatchOutcome} (h : Sums told out) :
    ((respond mode out).status = .multi_status ↔ ∃ o e, Told.failed o e ∈ told) ∧
      (∀ e, e ∈ (respond mode out).errors ↔ Told.failed e.entity_id e.error ∈ told) ∧
      ∀ i, i ∈ (respond mode out).success ↔ ∃ c, Told.ok i c ∈ told ∧ Shows mode told c := by
  by_cases herr : out.errors = []
  · have hnone : ∀ o e, Told.failed o e ∉ told := by
      intro o e he
      have hin := (h.errors ⟨o, e⟩).mpr he
      rw [herr] at hin
      exact absurd hin List.not_mem_nil
    have hshows : ∀ c, Shows mode told c ↔ mode = .create ∨ (mode = .upsert ∧ c = true) :=
      fun c => ⟨fun hs => hs.resolve_left fun ⟨o, e, he⟩ => hnone o e he, .inr⟩
    have hkey : ∀ r : Response, r.status ≠ .multi_status → r.errors = [] →
        (∀ i, i ∈ r.success ↔ ∃ c, Told.ok i c ∈ told ∧ Shows mode told c) →
        (r.status = .multi_status ↔ ∃ o e, Told.failed o e ∈ told) ∧
          (∀ e, e ∈ r.errors ↔ Told.failed e.entity_id e.error ∈ told) ∧
          ∀ i, i ∈ r.success ↔ ∃ c, Told.ok i c ∈ told ∧ Shows mode told c := by
      refine fun r hst he hsuccess => ⟨⟨fun heq => absurd heq hst, fun ⟨o, e, he⟩ => absurd he (hnone o e)⟩, fun e => ?_, hsuccess⟩
      rw [he]
      exact ⟨fun he => absurd he List.not_mem_nil, fun he => absurd he (hnone _ _)⟩
    unfold respond
    rw [if_pos herr]
    simp only [hshows] at hkey ⊢
    cases mode with
    | create => exact hkey ⟨.created, out.success, []⟩ nofun rfl fun i => by simp [h.success]
    | upsert =>
        dsimp only
        by_cases hany : out.any_created = true
        · rw [if_pos hany]
          exact hkey ⟨.created, out.created_ids, []⟩ nofun rfl fun i => by simp [h.created]
        · rw [if_neg hany]
          have hno : ∀ i, Told.ok i true ∉ told := fun i hi => hany (h.any_created.mpr ⟨i, hi⟩)
          exact hkey ⟨.no_content, [], []⟩ nofun rfl fun i => by simp [hno]
    | update => exact hkey ⟨.no_content, [], []⟩ nofun rfl fun i => by simp
    | merge => exact hkey ⟨.no_content, [], []⟩ nofun rfl fun i => by simp
  · have hsome : ∃ o e, Told.failed o e ∈ told := by
      obtain ⟨e, he⟩ := List.exists_mem_of_ne_nil _ herr
      exact ⟨_, _, (h.errors e).mp he⟩
    unfold respond
    rw [if_neg herr]
    refine ⟨⟨fun _ => hsome, fun _ => rfl⟩, h.errors, fun i => ?_⟩
    rw [h.success]
    exact exists_congr fun c => (and_iff_left (.inl hsome)).symm

end Rendering

/-- What a batch names and what became of its parts. -/
structure Parts where
  ids : String → Prop
  named : String → Prop
  succeeded : String → Prop
  failed : Option String → Prop

/-- The answer reports every entity, and of each what its parts came to. -/
structure Reports (p : Parts) (r : Response) : Prop where
  every : r.status = .multi_status → ∀ i, p.ids i → i ∈ r.success ∨ ∃ e ∈ r.errors, e.entity_id = some i
  earned : ∀ i ∈ r.success, p.succeeded i
  blamed : ∀ i, p.failed (some i) → ∃ e ∈ r.errors, e.entity_id = some i
  own_success : ∀ i ∈ r.success, p.named i
  own_errors : ∀ e ∈ r.errors, ∀ i, e.entity_id = some i → p.named i
  all_succeeded : r.status ≠ .multi_status ↔ ∀ o, ¬p.failed o

section Write

variable {σ Instant : Type} [LinearOrder Instant] (store : Storage σ) (env : Env) (req : Request Instant) (s : σ)

def local_told : List Told := ((write_local store env req s).map Prod.snd).getD []

def Request.parts : Parts where
  ids i := ∃ item ∈ req.items, id_hint item.item = some i
  named i := ∃ item ∈ req.items, named_id item.item = some i
  succeeded i := (∃ c, Told.ok i c ∈ local_told store env req s) ∨ ∃ src ∈ req.sources, ∃ c, ForwardOk env req src i c
  failed o := (∃ e, Told.failed o e ∈ local_told store env req s) ∨
    ∃ src ∈ req.sources, ∃ i, o = some i ∧ ForwardFailed env req src i

/-- The answer to the batch lists its successes. -/
def Request.listed (c : Bool) : Prop :=
  (∃ o, (req.parts store env s).failed o) ∨ req.mode = .create ∨ (req.mode = .upsert ∧ c = true)

/-- Each entity has a local part or a source that speaks of it, unless nothing failed; and none is sent by itself
without an id. -/
structure Request.Accounted : Prop where
  every : (∃ o, (req.parts store env s).failed o) → ∀ i, (req.parts store env s).ids i →
    (∃ item ∈ req.items, (prepare env req.mode req.proxies item).told? = some (some i)) ∨
      ∃ src ∈ req.sources, (∃ c, ForwardOk env req src i c) ∨ ForwardFailed env req src i
  nameless : ∀ src ∈ req.sources,
    ForwardFailed env req src "" ∨ (∃ c, ForwardOk env req src "" c ∧ req.listed store env s c) →
      (req.parts store env s).named ""

variable {store env req s}

theorem ForwardOk.sent {src : Source} {i : String} {c : Bool} (h : ForwardOk env req src i c) :
    i = "" ∨ i ∈ sent_ids env req src := by
  cases h with
  | batch hop hi h => exact .inr hi
  | single hop hcall hent hid hd h =>
      rename_i ent
      cases hget : (ent.lookup "id").bind Value.as_str with
      | none => exact .inl (by rw [← hid, sent_id, hget, Option.getD_none])
      | some j =>
          have hij : j = i := by rw [← hid, sent_id, hget, Option.getD_some]
          exact .inr (mem_sent_ids.mpr ⟨ent, List.mem_of_getElem? hent, hij ▸ hget⟩)

theorem ForwardFailed.sent {src : Source} {i : String} (h : ForwardFailed env req src i) :
    i = "" ∨ i ∈ sent_ids env req src := by
  cases h with
  | batch hop hi h => exact .inr hi
  | refused hop hcall hproxy hi => exact .inr hi
  | single hop hcall hent hid h =>
      rename_i ent
      cases hget : (ent.lookup "id").bind Value.as_str with
      | none => exact .inl (by rw [← hid, sent_id, hget, Option.getD_none])
      | some j =>
          have hij : j = i := by rw [← hid, sent_id, hget, Option.getD_some]
          exact .inr (mem_sent_ids.mpr ⟨ent, List.mem_of_getElem? hent, hij ▸ hget⟩)

theorem mem_local_told {r : σ × List Told} (h : write_local store env req s = some r) {o : Option String} :
    (∃ t ∈ r.2, t.id = o) ↔ ∃ item ∈ req.items, (prepare env req.mode req.proxies item).told? = some o := by
  have hmem := (write_local_told h).mem_iff (a := o)
  rw [List.mem_map, List.mem_filterMap] at hmem
  rw [hmem, Request.prepared]
  simp

/-- A distributed batch write reports every entity just when each is accounted for. -/
theorem write_reports {s' : σ} {r : Response} (h : batch_write store env req s = some (s', r)) :
    Reports (req.parts store env s) r ↔ req.Accounted store env s := by
  obtain ⟨l, hl, heq⟩ := Option.map_eq_some_iff.mp h
  obtain ⟨rfl, rfl⟩ := Prod.ext_iff.mp heq
  have hlocal : local_told store env req s = l.2 := by rw [local_told, hl]; rfl
  have hstart : Sums [] ⟨[], [], [], false⟩ := ⟨fun i => by simp, fun e => by simp, fun i => by simp, by simp⟩
  have hsums : Sums (l.2 ++ req.sources.flatMap (forward_batch env req))
      ((req.sources.flatMap (forward_batch env req)).foldl take_remote (l.2.foldl take_local ⟨[], [], [], false⟩)) :=
    (hstart.foldl take_local_takes).foldl take_remote_takes
  obtain ⟨hstatus, herrors, hsuccess⟩ := respond_sums req.mode hsums
  set told := l.2 ++ req.sources.flatMap (forward_batch env req)
  set r := respond req.mode _
  have hok : ∀ i c, Told.ok i c ∈ told ↔ Told.ok i c ∈ local_told store env req s ∨
      ∃ src ∈ req.sources, ForwardOk env req src i c := by
    intro i c
    rw [List.mem_append, hlocal, List.mem_flatMap]
    simp only [ok_mem_forward]
  have hfailed : ∀ o, (∃ e, Told.failed o e ∈ told) ↔ (req.parts store env s).failed o := by
    intro o
    simp only [told, List.mem_append, List.mem_flatMap, exists_or, Request.parts, hlocal]
    refine or_congr_right ?_
    rw [exists_comm]
    refine exists_congr fun src => ?_
    rw [← failed_mem_forward, exists_and_left]
  have hany : (∃ o e, Told.failed o e ∈ told) ↔ ∃ o, (req.parts store env s).failed o := exists_congr hfailed
  have hblamed : ∀ i, (∃ e ∈ r.errors, e.entity_id = some i) ↔ (req.parts store env s).failed (some i) := by
    intro i
    rw [← hfailed]
    constructor
    · rintro ⟨e, he, hi⟩
      exact ⟨e.error, hi ▸ (herrors e).mp he⟩
    · rintro ⟨e, he⟩
      exact ⟨⟨some i, e⟩, (herrors _).mpr he, rfl⟩
  have hnamed : ∀ t ∈ l.2, ∀ i, t.id = some i → (req.parts store env s).named i := by
    intro t ht i hi
    obtain ⟨item, hitem, htold⟩ := (mem_local_told hl).mp ⟨t, ht, hi⟩
    exact ⟨item, hitem, told_named htold⟩
  have hshows : ∀ c, Shows req.mode told c ↔ req.listed store env s c := fun c => or_congr_left hany
  constructor
  · intro hr
    refine ⟨fun hf i hi => ?_, fun src hsrc hcase => ?_⟩
    · rcases hr.every (hstatus.mpr (hany.mpr hf)) i hi with hs | he
      · obtain ⟨c, hc, -⟩ := (hsuccess i).mp hs
        rcases (hok i c).mp hc with hc | ⟨src, hsrc, hc⟩
        · exact .inl ((mem_local_told hl).mp ⟨_, hlocal ▸ hc, rfl⟩)
        · exact .inr ⟨src, hsrc, .inl ⟨c, hc⟩⟩
      · rcases (hblamed i).mp he with ⟨e, he⟩ | ⟨src, hsrc, j, hij, hj⟩
        · exact .inl ((mem_local_told hl).mp ⟨_, hlocal ▸ he, rfl⟩)
        · rw [Option.some.inj hij]
          exact .inr ⟨src, hsrc, .inr hj⟩
    · rcases hcase with hfail | ⟨c, hc, hlisted⟩
      · obtain ⟨e, he, hid⟩ := (hblamed "").mpr (.inr ⟨src, hsrc, "", rfl, hfail⟩)
        exact hr.own_errors e he "" hid
      · exact hr.own_success "" ((hsuccess "").mpr ⟨c, (hok "" c).mpr (.inr ⟨src, hsrc, hc⟩), (hshows c).mpr hlisted⟩)
  · intro ha
    have hown : ∀ src ∈ req.sources, ∀ i, i = "" ∨ i ∈ sent_ids env req src →
        (i = "" → (req.parts store env s).named "") → (req.parts store env s).named i := by
      rintro src hsrc i (rfl | hi) hempty
      · exact hempty rfl
      · exact sent_named hi
    refine ⟨fun hmulti i hi => ?_, fun i hi => ?_, fun i hi => (hblamed i).mpr hi, fun i hi => ?_, fun e he i hi => ?_, ?_⟩
    · have hlisted : ∀ c, Shows req.mode told c := fun c => .inl (hstatus.mp hmulti)
      rcases ha.every (hany.mp (hstatus.mp hmulti)) i hi with hitem | ⟨src, hsrc, ⟨c, hc⟩ | hfail⟩
      · obtain ⟨t, ht, hid⟩ := (mem_local_told hl).mpr hitem
        cases t with
        | ok j c =>
            obtain rfl := Option.some.inj hid
            exact .inl ((hsuccess j).mpr ⟨c, List.mem_append_left _ ht, hlisted c⟩)
        | failed o e =>
            obtain rfl : o = some i := hid
            exact .inr ((hblamed i).mpr (.inl ⟨e, hlocal ▸ ht⟩))
      · exact .inl ((hsuccess i).mpr ⟨c, (hok i c).mpr (.inr ⟨src, hsrc, hc⟩), hlisted c⟩)
      · exact .inr ((hblamed i).mpr (.inr ⟨src, hsrc, i, rfl, hfail⟩))
    · obtain ⟨c, hc, -⟩ := (hsuccess i).mp hi
      rcases (hok i c).mp hc with hc | ⟨src, hsrc, hc⟩
      · exact .inl ⟨c, hc⟩
      · exact .inr ⟨src, hsrc, c, hc⟩
    · obtain ⟨c, hc, hlisted⟩ := (hsuccess i).mp hi
      rcases (hok i c).mp hc with hc | ⟨src, hsrc, hc⟩
      · exact hnamed _ (hlocal ▸ hc) i rfl
      · refine hown src hsrc i hc.sent ?_
        rintro rfl
        exact ha.nameless src hsrc (.inr ⟨c, hc, (hshows c).mp hlisted⟩)
    · rcases (hblamed i).mp ⟨e, he, hi⟩ with ⟨p, hp⟩ | ⟨src, hsrc, j, hij, hj⟩
      · exact hnamed _ (hlocal ▸ hp) i rfl
      · obtain rfl := Option.some.inj hij
        refine hown src hsrc i hj.sent ?_
        rintro rfl
        exact ha.nameless src hsrc (.inl hj)
    · rw [Ne, hstatus, hany, not_exists]

end Write

section DeleteReport

variable {σ : Type} (store : Storage σ) (env : Env) (req : DeleteRequest) (s : σ)

def DeleteRequest.id_strs (req : DeleteRequest) : List String := req.ids.filterMap id

def DeleteRequest.sent (req : DeleteRequest) (src : Source) : List String := req.id_strs.filter (src.reg.can_match_id env)

/-- A source that was asked to delete the entity did. -/
inductive DeleteOk (src : Source) (i : String) : Prop
  | batch (hop : src.reg.supports "deleteBatch" = true) (hi : i ∈ req.sent env src) (h : batch_ok src.batch i)
  | single {n : Nat} (hop : src.reg.supports "deleteBatch" = false) (hone : src.reg.supports "deleteEntity" = true)
      (hi : (req.sent env src)[n]? = some i) (h : single_ok (src.one DELETE n))

inductive DeleteFailed (src : Source) (i : String) : Prop
  | batch (hop : src.reg.supports "deleteBatch" = true) (hi : i ∈ req.sent env src) (h : batch_failed src.batch i)
  | single {n : Nat} (hop : src.reg.supports "deleteBatch" = false) (hone : src.reg.supports "deleteEntity" = true)
      (hi : (req.sent env src)[n]? = some i) (h : ¬single_ok (src.one DELETE n))
  | refused (hop : src.reg.supports "deleteBatch" = false) (hone : src.reg.supports "deleteEntity" = false)
      (hproxy : src.reg.is_proxy = true) (hi : i ∈ req.sent env src)

/-- What the store says of each id, in turn. -/
def DeleteRequest.flags : List (String × Bool) :=
  req.id_strs.zip (((store.batch_delete s req.id_strs).map Prod.snd).getD [])

/-- What is not held here is in error unless a source deleted it. -/
def DeleteRequest.parts : Parts where
  ids i := some i ∈ req.ids
  named i := some i ∈ req.ids
  succeeded i := (i, true) ∈ req.flags store s ∨ ∃ src ∈ req.sources, DeleteOk env req src i
  failed o := (o = none ∧ none ∈ req.ids) ∨ ∃ i, o = some i ∧ ((∃ src ∈ req.sources, DeleteFailed env req src i) ∨
    ((i, false) ∈ req.flags store s ∧ ∀ src ∈ req.sources, ¬DeleteOk env req src i))

variable {store env req s}

theorem delete_outcome_eq (id : String) (status : Nat) :
    (single_ok status ∧ delete_outcome id status = .ok id false) ∨
      (¬single_ok status ∧ ∃ e, delete_outcome id status = .failed (some id) e) := by
  unfold delete_outcome
  by_cases h : single_ok status
  · exact .inl ⟨h, if_pos h⟩
  · exact .inr ⟨h, _, if_neg h⟩

theorem forward_delete_eq {src : Source} : forward_delete env req.id_strs src =
    if src.reg.supports "deleteBatch" then
      if req.sent env src = [] then [] else merge_remote_batch src.batch (req.sent env src) false
    else if src.reg.supports "deleteEntity" then (req.sent env src).mapIdx (fun n id => delete_outcome id (src.one DELETE n))
    else if src.reg.is_proxy then
      (req.sent env src).map (fun id => .failed (some id) (.Conflict "registration does not accept the operation deleteBatch"))
    else [] := by
  unfold forward_delete
  change (if req.sent env src = [] then [] else _) = _
  by_cases hnil : req.sent env src = []
  · rw [if_pos hnil, if_pos hnil, hnil]
    simp
  · rw [if_neg hnil, if_neg hnil]
    rfl

theorem ok_mem_delete {src : Source} {i : String} :
    (∃ c, Told.ok i c ∈ forward_delete env req.id_strs src) ↔ DeleteOk env req src i := by
  rw [forward_delete_eq]
  constructor
  · rintro ⟨c, h⟩
    cases hop : src.reg.supports "deleteBatch" with
    | true =>
        rw [if_pos hop] at h
        split_ifs at h
        · cases h
        · obtain ⟨-, hi, hok⟩ := ok_mem_batch.mp h
          exact .batch hop hi hok
    | false =>
        rw [if_neg (Bool.eq_false_iff.mp hop)] at h
        split_ifs at h with hone
        · obtain ⟨n, hn, heq⟩ := List.mem_mapIdx.mp h
          rcases delete_outcome_eq (req.sent env src)[n] (src.one DELETE n) with ⟨hok, hout⟩ | ⟨-, e, hout⟩
          · rw [hout] at heq
            exact .single hop hone (List.getElem?_eq_some_iff.mpr ⟨hn, (Told.ok.inj heq).1⟩) hok
          · rw [hout] at heq
            cases heq
        · obtain ⟨j, -, heq⟩ := List.mem_map.mp h
          cases heq
        · cases h
  · rintro (⟨hop, hi, hok⟩ | ⟨hop, hone, hi, hok⟩)
    · rw [if_pos hop, if_neg (List.ne_nil_of_mem hi)]
      exact ⟨false, ok_mem_batch.mpr ⟨rfl, hi, hok⟩⟩
    · rw [if_neg (Bool.eq_false_iff.mp hop), if_pos hone]
      obtain ⟨hn, rfl⟩ := List.getElem?_eq_some_iff.mp hi
      exact ⟨false, List.mem_mapIdx.mpr ⟨_, hn, if_pos hok⟩⟩

theorem failed_mem_delete {src : Source} {o : Option String} :
    (∃ e, Told.failed o e ∈ forward_delete env req.id_strs src) ↔ ∃ i, o = some i ∧ DeleteFailed env req src i := by
  rw [forward_delete_eq]
  constructor
  · rintro ⟨e, h⟩
    cases hop : src.reg.supports "deleteBatch" with
    | true =>
        rw [if_pos hop] at h
        split_ifs at h
        · cases h
        · obtain ⟨i, rfl, hi, hfailed⟩ := failed_mem_batch.mp ⟨e, h⟩
          exact ⟨i, rfl, .batch hop hi hfailed⟩
    | false =>
        rw [if_neg (Bool.eq_false_iff.mp hop)] at h
        split_ifs at h with hone hproxy
        · obtain ⟨n, hn, heq⟩ := List.mem_mapIdx.mp h
          rcases delete_outcome_eq (req.sent env src)[n] (src.one DELETE n) with ⟨-, hout⟩ | ⟨hno, e', hout⟩
          · rw [hout] at heq
            cases heq
          · rw [hout] at heq
            exact ⟨_, (Told.failed.inj heq).1.symm, .single hop hone (List.getElem?_eq_getElem hn) hno⟩
        · obtain ⟨i, hi, heq⟩ := List.mem_map.mp h
          exact ⟨i, (Told.failed.inj heq).1.symm, .refused hop (Bool.eq_false_iff.mpr hone) hproxy hi⟩
        · cases h
  · rintro ⟨i, rfl, ⟨hop, hi, hfailed⟩ | ⟨hop, hone, hi, hno⟩ | ⟨hop, hone, hproxy, hi⟩⟩
    · rw [if_pos hop, if_neg (List.ne_nil_of_mem hi)]
      exact failed_mem_batch.mpr ⟨i, rfl, hi, hfailed⟩
    · rw [if_neg (Bool.eq_false_iff.mp hop), if_pos hone]
      obtain ⟨hn, rfl⟩ := List.getElem?_eq_some_iff.mp hi
      exact ⟨_, List.mem_mapIdx.mpr ⟨_, hn, if_neg hno⟩⟩
    · rw [if_neg (Bool.eq_false_iff.mp hop), if_neg (Bool.eq_false_iff.mp hone), if_pos hproxy]
      exact ⟨_, List.mem_map.mpr ⟨i, hi, rfl⟩⟩

theorem mem_id_strs {i : String} : i ∈ req.id_strs ↔ some i ∈ req.ids := by
  simp [DeleteRequest.id_strs]

theorem DeleteOk.named {src : Source} {i : String} (h : DeleteOk env req src i) : some i ∈ req.ids := by
  have hsent : i ∈ req.sent env src := by
    cases h with
    | batch hop hi h => exact hi
    | single hop hone hi h => exact List.mem_of_getElem? hi
  exact mem_id_strs.mp (List.mem_filter.mp hsent).1

theorem DeleteFailed.named {src : Source} {i : String} (h : DeleteFailed env req src i) : some i ∈ req.ids := by
  have hsent : i ∈ req.sent env src := by
    cases h with
    | batch hop hi h => exact hi
    | single hop hone hi h => exact List.mem_of_getElem? hi
    | refused hop hone hproxy hi => exact hi
  exact mem_id_strs.mp (List.mem_filter.mp hsent).1

theorem ok?_eq {t : Told} {i : String} : t.ok? = some i ↔ ∃ c, t = .ok i c := by
  cases t <;> simp [Told.ok?]

theorem error?_eq {t : Told} {e : BatchError} : t.error? = some e ↔ t = .failed e.entity_id e.error := by
  cases t with
  | ok id c => simp [Told.error?]
  | failed id p => simp [Told.error?, BatchError.ext_iff]

/-- The errors of a batch delete, from what the store and the sources said. -/
def DeleteRequest.errors (req : DeleteRequest) (flags : List (String × Bool)) (remote : List Told) : List BatchError :=
  (req.ids.filter Option.isNone).map (fun _ => ⟨none, .BadRequestData "entity id must be a string"⟩) ++
    remote.filterMap Told.error? ++
    (((flags.filter (fun p => !p.2)).map Prod.fst).filter (fun id =>
      !(remote.filterMap Told.ok?).contains id && !(remote.filterMap Told.error?).any (fun e => e.entity_id = some id))).map not_found

def DeleteRequest.success (req : DeleteRequest) (flags : List (String × Bool)) (remote : List Told) : List String :=
  (remote.filterMap Told.ok?).foldl add_once
    ((req.id_strs.filter ((flags.filter Prod.snd).map Prod.fst).contains).foldl add_once [])

theorem batch_delete_eq : batch_delete env store req s = (store.batch_delete s req.id_strs).map (fun r =>
    (r.1, if req.errors (req.id_strs.zip r.2) (req.sources.flatMap (forward_delete env req.id_strs)) = [] then ⟨.no_content, [], []⟩
      else ⟨.multi_status, req.success (req.id_strs.zip r.2) (req.sources.flatMap (forward_delete env req.id_strs)),
        req.errors (req.id_strs.zip r.2) (req.sources.flatMap (forward_delete env req.id_strs))⟩)) := rfl

theorem mem_remote_ok {i : String} : i ∈ (req.sources.flatMap (forward_delete env req.id_strs)).filterMap Told.ok? ↔
    ∃ src ∈ req.sources, DeleteOk env req src i := by
  rw [List.mem_filterMap]
  constructor
  · rintro ⟨t, ht, hok⟩
    obtain ⟨c, rfl⟩ := ok?_eq.mp hok
    obtain ⟨src, hsrc, hin⟩ := List.mem_flatMap.mp ht
    exact ⟨src, hsrc, ok_mem_delete.mp ⟨c, hin⟩⟩
  · rintro ⟨src, hsrc, hok⟩
    obtain ⟨c, hin⟩ := ok_mem_delete.mpr hok
    exact ⟨_, List.mem_flatMap.mpr ⟨src, hsrc, hin⟩, rfl⟩

theorem mem_remote_err {o : Option String} :
    (∃ e ∈ (req.sources.flatMap (forward_delete env req.id_strs)).filterMap Told.error?, e.entity_id = o) ↔
      ∃ i, o = some i ∧ ∃ src ∈ req.sources, DeleteFailed env req src i := by
  constructor
  · rintro ⟨e, he, rfl⟩
    obtain ⟨t, ht, herr⟩ := List.mem_filterMap.mp he
    obtain rfl := error?_eq.mp herr
    obtain ⟨src, hsrc, hin⟩ := List.mem_flatMap.mp ht
    obtain ⟨i, hi, hfailed⟩ := failed_mem_delete.mp ⟨_, hin⟩
    exact ⟨i, hi, src, hsrc, hfailed⟩
  · rintro ⟨i, rfl, src, hsrc, hfailed⟩
    obtain ⟨e, hin⟩ := failed_mem_delete.mpr ⟨i, rfl, hfailed⟩
    exact ⟨⟨some i, e⟩, List.mem_filterMap.mpr ⟨_, List.mem_flatMap.mpr ⟨src, hsrc, hin⟩, rfl⟩, rfl⟩

theorem mem_success {flags : List (String × Bool)} (hflags : ∀ p ∈ flags, p.1 ∈ req.id_strs) {i : String} :
    i ∈ req.success flags (req.sources.flatMap (forward_delete env req.id_strs)) ↔
      (i, true) ∈ flags ∨ ∃ src ∈ req.sources, DeleteOk env req src i := by
  unfold DeleteRequest.success
  rw [mem_foldl_add_once, mem_foldl_add_once, mem_remote_ok, List.mem_filter, List.contains_iff_mem, List.mem_map]
  refine or_congr_left ?_
  constructor
  · rintro (h | ⟨-, ⟨j, b⟩, hp, rfl⟩)
    · cases h
    · obtain ⟨hin, hb⟩ := List.mem_filter.mp hp
      obtain rfl : b = true := hb
      exact hin
  · intro h
    exact .inr ⟨hflags _ h, (i, true), List.mem_filter.mpr ⟨h, rfl⟩, rfl⟩

/-- An entity is in error just when one of its parts failed. -/
theorem mem_errors {l : σ × List Bool} (hl : store.batch_delete s req.id_strs = some l) {o : Option String} :
    (∃ e ∈ req.errors (req.id_strs.zip l.2) (req.sources.flatMap (forward_delete env req.id_strs)), e.entity_id = o) ↔
      (req.parts store env s).failed o := by
  have hflags : req.flags store s = req.id_strs.zip l.2 := by rw [DeleteRequest.flags, hl]; rfl
  unfold DeleteRequest.errors DeleteRequest.parts
  dsimp only
  rw [hflags]
  have hinvalid : (∃ e ∈ (req.ids.filter Option.isNone).map
      (fun _ => (⟨none, .BadRequestData "entity id must be a string"⟩ : BatchError)), e.entity_id = o) ↔
      o = none ∧ none ∈ req.ids := by
    constructor
    · rintro ⟨e, he, rfl⟩
      obtain ⟨j, hj, rfl⟩ := List.mem_map.mp he
      obtain ⟨hin, hnone⟩ := List.mem_filter.mp hj
      exact ⟨rfl, Option.isNone_iff_eq_none.mp hnone ▸ hin⟩
    · rintro ⟨rfl, hin⟩
      exact ⟨_, List.mem_map.mpr ⟨none, List.mem_filter.mpr ⟨hin, rfl⟩, rfl⟩, rfl⟩
  simp only [List.mem_append, or_and_right, exists_or, hinvalid, mem_remote_err, or_assoc]
  refine or_congr_right ?_
  constructor
  · rintro (⟨i, rfl, hfail⟩ | ⟨e, he, rfl⟩)
    · exact ⟨i, rfl, .inl hfail⟩
    · obtain ⟨i, hi, rfl⟩ := List.mem_map.mp he
      obtain ⟨hmiss, hcond⟩ := List.mem_filter.mp hi
      obtain ⟨⟨j, b⟩, hp, rfl⟩ := List.mem_map.mp hmiss
      obtain ⟨hin, hb⟩ := List.mem_filter.mp hp
      rw [Bool.not_eq_true'] at hb
      obtain rfl : b = false := hb
      have hnot := (Bool.and_eq_true_iff.mp hcond).1
      rw [Bool.not_eq_true', ← Bool.not_eq_true, List.contains_iff_mem, mem_remote_ok] at hnot
      exact ⟨j, rfl, .inr ⟨hin, fun src hsrc hok => hnot ⟨src, hsrc, hok⟩⟩⟩
  · rintro ⟨i, rfl, hfail | ⟨hmiss, hno⟩⟩
    · exact .inl ⟨i, rfl, hfail⟩
    · by_cases hfail : ∃ src ∈ req.sources, DeleteFailed env req src i
      · exact .inl ⟨i, rfl, hfail⟩
      · refine .inr ⟨not_found i, List.mem_map.mpr ⟨i, List.mem_filter.mpr ⟨?_, ?_⟩, rfl⟩, rfl⟩
        · exact List.mem_map.mpr ⟨(i, false), List.mem_filter.mpr ⟨hmiss, rfl⟩, rfl⟩
        · rw [Bool.and_eq_true_iff, Bool.not_eq_true', ← Bool.not_eq_true, List.contains_iff_mem, mem_remote_ok,
            Bool.not_eq_true', ← Bool.not_eq_true, List.any_eq_true]
          refine ⟨fun ⟨src, hsrc, hok⟩ => hno src hsrc hok, fun ⟨e, he, hid⟩ => hfail ?_⟩
          obtain ⟨j, hj, h⟩ := mem_remote_err.mp ⟨e, he, of_decide_eq_true hid⟩
          rwa [Option.some.inj hj]

/-- A distributed batch delete reports every entity. -/
theorem delete_reports {s' : σ} {r : Response} (h : batch_delete env store req s = some (s', r)) :
    Reports (req.parts store env s) r := by
  rw [batch_delete_eq] at h
  obtain ⟨l, hl, heq⟩ := Option.map_eq_some_iff.mp h
  obtain ⟨rfl, rfl⟩ := Prod.ext_iff.mp heq
  have hflags : req.flags store s = req.id_strs.zip l.2 := by rw [DeleteRequest.flags, hl]; rfl
  have hids : ∀ p ∈ req.id_strs.zip l.2, p.1 ∈ req.id_strs := fun p hp => (List.of_mem_zip hp).1
  have herrors := fun o => @mem_errors σ store env req s l hl o
  have hsuccess := fun i => @mem_success env req (req.id_strs.zip l.2) hids i
  have hnamed : ∀ i, (req.parts store env s).failed (some i) → some i ∈ req.ids := by
    rintro i (⟨h, -⟩ | ⟨j, hij, ⟨src, hsrc, hj⟩ | ⟨hmiss, -⟩⟩)
    · cases h
    · exact hij ▸ hj.named
    · rw [hflags] at hmiss
      exact hij ▸ mem_id_strs.mp (hids _ hmiss)
  dsimp only
  set errors := req.errors (req.id_strs.zip l.2) (req.sources.flatMap (forward_delete env req.id_strs))
  by_cases hnil : errors = []
  · have hnone : ∀ o, ¬(req.parts store env s).failed o := by
      intro o ho
      obtain ⟨e, he, -⟩ := (herrors o).mpr ho
      rw [hnil] at he
      exact absurd he List.not_mem_nil
    rw [if_pos hnil]
    exact ⟨nofun, nofun, fun i hi => absurd hi (hnone _), nofun, nofun, fun _ => hnone, fun _ => nofun⟩
  · have hsome : ∃ o, (req.parts store env s).failed o := by
      obtain ⟨e, he⟩ := List.exists_mem_of_ne_nil _ hnil
      exact ⟨_, (herrors _).mp ⟨e, he, rfl⟩⟩
    rw [if_neg hnil]
    refine ⟨fun _ i hi => ?_, fun i hi => ?_, fun i hi => (herrors _).mpr hi, fun i hi => ?_, fun e he i hi => ?_, ?_⟩
    · have hin : i ∈ (req.id_strs.zip l.2).map Prod.fst := by
        rw [List.map_fst_zip (store.delete_answers hl).ge]
        exact mem_id_strs.mpr hi
      obtain ⟨⟨j, b⟩, hzip, rfl⟩ := List.mem_map.mp hin
      cases b with
      | true => exact .inl ((hsuccess j).mpr (.inl hzip))
      | false =>
          by_cases hok : ∃ src ∈ req.sources, DeleteOk env req src j
          · exact .inl ((hsuccess j).mpr (.inr hok))
          · refine .inr ((herrors (some j)).mpr (.inr ⟨j, rfl, .inr ⟨?_, fun src hsrc h => hok ⟨src, hsrc, h⟩⟩⟩))
            rw [hflags]
            exact hzip
    · have hi := (hsuccess i).mp hi
      rw [← hflags] at hi
      exact hi
    · rcases (hsuccess i).mp hi with hin | ⟨src, hsrc, hok⟩
      · exact mem_id_strs.mp (hids _ hin)
      · exact hok.named
    · exact hnamed i ((herrors (some i)).mp ⟨e, he, hi⟩)
    · obtain ⟨o, ho⟩ := hsome
      exact ⟨fun h => absurd rfl h, fun h => absurd ho (h o)⟩

end DeleteReport

section Trucks

abbrev Shelf := List (String × Value)

def put_one (s : Shelf) (p : String × Map) : Shelf × Bool :=
  (s.filter (fun q => q.1 ≠ p.1) ++ [(p.1, .object p.2)], (s.lookup p.1).isNone)

def create_one (s : Shelf) (p : String × Map) : Shelf × Bool :=
  if (s.lookup p.1).isSome then (s, false) else put_one s p

def mutate_one (f : String → Value → Except Problem (Value × Bool)) (s : Shelf) (id : String) :
    Shelf × Option (Except Problem Bool) :=
  match s.lookup id with
  | none => (s, none)
  | some doc =>
      match f id doc with
      | .error e => (s, some (.error e))
      | .ok r => (s.map (fun q => if q.1 = id then (id, r.1) else q), some (.ok r.2))

def delete_one (s : Shelf) (id : String) : Shelf × Bool := (s.filter (fun q => q.1 ≠ id), (s.lookup id).isSome)

theorem length_each {σ β ρ : Type} (op : σ → β → σ × ρ) (items : List β) (s : σ) :
    (KeyedLoop.each op s items).2.length = items.length := by
  induction items generalizing s with
  | nil => rfl
  | cons b items ih => exact congrArg Nat.succ (ih _)

theorem answers_each {σ β ρ : Type} {op : σ → β → σ × ρ} {items : List β} {s : σ} {r : σ × List ρ}
    (h : some (KeyedLoop.each op s items) = some r) : r.2.length = items.length :=
  Option.some.inj h ▸ length_each op items s

/-- A store that keeps the documents in a list. -/
def shelf : Storage Shelf where
  batch_create s docs := some (KeyedLoop.each create_one s docs)
  batch_upsert s docs := some (KeyedLoop.each put_one s docs)
  batch_mutate s f ids := some (KeyedLoop.each (mutate_one f) s ids)
  batch_delete s ids := some (KeyedLoop.each delete_one s ids)
  create_answers := answers_each
  upsert_answers := answers_each
  mutate_answers := answers_each
  delete_answers := answers_each

/-- A source of speeds that lists the trucks it created. -/
def fleet (ops : List String) (ids : List String) : Source where
  reg := speeds ops
  batch := ⟨201, .array (ids.map .string)⟩
  one _ _ := 204

def arrivals (items : List Map) : Request String where
  mode := .create
  update_mode := false
  no_overwrite := false
  items := items.map (fun o => ⟨.object o, .ok plain_attributes⟩)
  sources := [fleet ["createBatch"] ["urn:t"]]
  create_ts := "2026-01-01T00:00:00.000Z"
  round_ts _ := "2026-01-01T00:00:00.000Z"

def departures : DeleteRequest where
  ids := [some "urn:t", none]
  sources := [fleet ["deleteEntity"] []]

def parked : Map := [("id", .string "urn:p"), ("type", .string "urn:Parking")]

def untyped : Map := [("id", .string "urn:u"), ("urn:weight", property "light")]

end Trucks

end AntaresBroker.Batch
