import AntaresBroker.Fill

namespace AntaresBroker.Fill

open Entities Fallible Json Model Ql Temporal

variable {Instant : Type} [LinearOrder Instant]

section Matching

variable (env : Entities.Env Instant)

/-- An entity matches a query that can be read. -/
def matches_query (params : Params) (doc : Value) : Bool :=
  match selection env params with
  | .ok sel => sel.selects env doc
  | .error _ => false

def readable (params : Params) : Bool :=
  match selection env params with
  | .ok _ => true
  | .error _ => false

def matched (src : Source) (params : Params) : List Value := src.entities.docs.values.filter (matches_query env params)

/-- What the answer shows of an evolution, if anything. -/
def shown (Q : TemporalQuery) (doc : Value) : Option Map :=
  match present Q doc with
  | .ok m => m
  | .error _ => none

def refused (Q : TemporalQuery) (doc : Value) : Bool :=
  match present Q doc with
  | .ok _ => false
  | .error _ => true

/-- All pages of a temporal query together. -/
def temporal_matches (src : Source) (Q : TemporalQuery) : List Value := query_matches env Q.toQuery src.histories.docs.values

/-- The evolutions a temporal query selects. -/
def selected (src : Source) (Q : TemporalQuery) : List Value :=
  (temporal_matches env src Q).filter (fun doc => (shown Q doc).isSome)

/-- The id an evolution is shown under, if an evolution is held under it. -/
def held_id (src : Source) (Q : TemporalQuery) (doc : Value) : Option String :=
  (((shown Q doc).bind (·.lookup "id")).bind Value.as_str).filter (fun id => (src.histories.docs.get id).isSome)

/-- The results of all queries together are within the cap of a fill. -/
def Fits (broker : Broker env) (src : Source) (queries : List Params) (temporal : List TemporalQuery) : Prop :=
  (queries.map (fun q => (matched env src q).length)).sum + (temporal.map (fun Q => (selected env src Q).length)).sum ≤
    fill_cap broker

/-- The snapshot holds what its queries match, and every query is reported so. -/
structure Exact (src : Source) (queries : List Params) (temporal : List TemporalQuery) (f : Filled) : Prop where
  entities : ∀ id doc, f.synth.entities.get id = some doc ↔
    src.entities.docs.get id = some doc ∧ ∃ q ∈ queries, matches_query env q doc = true
  evolutions : ∀ Q ∈ temporal, ∀ doc ∈ selected env src Q,
    f.synth.evolutions.get (id_of doc) = src.histories.docs.get (id_of doc)
  q_details : f.q_details = queries.map (fun q => if matched env src q = [] then .empty else .success)
  tq_details : f.tq_details = temporal.map (fun Q => if selected env src Q = [] then .empty else .success)

end Matching

section Entities

variable {env : Entities.Env Instant} (broker : Broker env) (src : Source)

theorem selection_without_pattern {params : Params} {sel : Selection} (hpattern : params "idPattern" = none)
    (h : selection env params = .ok sel) : sel.id_pattern = none := by
  obtain ⟨ids, hids, h⟩ := bind_eq_ok.mp h
  obtain ⟨pat, hpat, h⟩ := bind_eq_ok.mp h
  obtain ⟨q, -, h⟩ := bind_eq_ok.mp h
  obtain ⟨geo, -, rfl⟩ := map_eq_ok.mp h
  rw [id_pattern, hpattern, Except.ok.injEq] at hpat
  exact hpat.symm

/-- The pages of a store that decides the query, the rest of the rows from the offset on. -/
theorem run_query_decided {params : Params} {sel : Selection} (hsel : selection env params = .ok sel)
    (hdec : broker.entities.decides sel = true) (hlimit : 0 < broker.max_limit) (budget fuel n offset : Nat) (synth : Synth)
    (hbudget : n + (((src.entities.docs.values.filter (broker.entities.narrow sel)).drop offset).filter (sel.selects env)).length
      ≤ budget)
    (hfuel : (src.entities.docs.values.filter (broker.entities.narrow sel)).length < fuel + offset) (hpos : 0 < fuel) :
    run_query_from broker src.entities.docs.values params budget fuel n offset synth =
      some (.ok (n + (((src.entities.docs.values.filter (broker.entities.narrow sel)).drop offset).filter
          (sel.selects env)).length),
        (((src.entities.docs.values.filter (broker.entities.narrow sel)).drop offset).filter (sel.selects env)).foldl
          (copy_entity broker) synth) := by
  induction fuel generalizing n offset synth with
  | zero => exact absurd hpos (Nat.lt_irrefl 0)
  | succ fuel ih =>
      generalize hrows : src.entities.docs.values.filter (broker.entities.narrow sel) = rows at *
      have hsub : ((rows.drop offset).take broker.max_limit).Sublist src.entities.docs.values :=
        ((List.take_sublist _ _).trans (List.drop_sublist _ _)).trans (hrows ▸ List.filter_sublist)
      -- what the pattern leaves of a page is what the query selects of it
      have hpage : ((rows.drop offset).take broker.max_limit).filter (fun doc =>
          sel.ids.isSome || sel.id_pattern.all (fun is_match => is_match (id_of doc))) =
          ((rows.drop offset).take broker.max_limit).filter (sel.selects env) := by
        refine List.filter_congr fun doc hdoc => ?_
        have hmem : doc ∈ rows := List.mem_of_mem_drop (List.mem_of_mem_take hdoc)
        rw [← hrows] at hmem
        rw [broker.entities.exact sel hdec doc, (List.mem_filter.mp hmem).2, Bool.true_and]
      have hbatch : filter_entities_paged broker.entities src.entities.docs.values params
          ⟨offset, broker.max_limit, decide (offset = 0)⟩ = .ok ⟨((rows.drop offset).take broker.max_limit).filter (sel.selects env),
            true, if offset = 0 then some rows.length else none, ((rows.drop offset).take broker.max_limit).length⟩ := by
        rw [filter_entities_paged, hsel]
        simp only [Except.map, query_entities, hdec, if_true, hrows, src.entities.merge_sublist hsub, hpage, decide_eq_true_eq]
      have hsplit : (rows.drop offset).filter (sel.selects env) =
          ((rows.drop offset).take broker.max_limit).filter (sel.selects env) ++
            (rows.drop (offset + broker.max_limit)).filter (sel.selects env) := by
        rw [← List.filter_append, ← List.drop_drop, List.take_append_drop]
      have hcount : (if params "idPattern" = none ∧ offset = 0 ∧ true = true then
          (if offset = 0 then some rows.length else none).filter (budget < ·) else none) = none := by
        split
        next h =>
          have hpat := selection_without_pattern h.1 hsel
          have hall : rows.filter (sel.selects env) = rows := by
            refine List.filter_eq_self.mpr fun doc hdoc => ?_
            rw [← hrows] at hdoc
            rw [broker.entities.exact sel hdec doc, (List.mem_filter.mp hdoc).2, hpat]
            simp
          rw [h.2.1, List.drop_zero, hall] at hbudget
          rw [if_pos h.2.1]
          exact Option.filter_some_neg (by simp; omega)
        · rfl
      have hlen : ((rows.drop offset).filter (sel.selects env)).length =
          (((rows.drop offset).take broker.max_limit).filter (sel.selects env)).length +
            ((rows.drop (offset + broker.max_limit)).filter (sel.selects env)).length := by
        rw [hsplit, List.length_append]
      rw [run_query_from, hbatch]
      dsimp only
      rw [hcount]
      dsimp only
      rw [if_neg (by omega), next_scan_offset]
      by_cases hlast : ((rows.drop offset).take broker.max_limit).length < broker.max_limit
      · have hend : rows.drop (offset + broker.max_limit) = [] := by
          rw [List.length_take, List.length_drop] at hlast
          exact List.drop_eq_nil_of_le (by omega)
        rw [hend] at hsplit
        simp only [hlast, Bool.not_true, Bool.false_or, decide_true, if_true, hsplit, List.filter_nil, List.append_nil]
      · have hmore : ((rows.drop offset).take broker.max_limit).length = broker.max_limit := by
          rw [List.length_take] at hlast ⊢
          omega
        simp only [hmore, Nat.lt_irrefl, Bool.not_true, Bool.false_or, decide_false, Bool.false_eq_true, if_false, Nat.sub_zero]
        rw [List.length_take, List.length_drop] at hmore
        rw [ih _ _ _ (by omega) (by omega) (by omega), hsplit, List.foldl_append, List.length_append, Nat.add_assoc]

/-- An entity query copies what it matches, whichever store it runs on. -/
theorem run_query_eq {params : Params} (hlimit : 0 < broker.max_limit) (budget : Nat) {fuel : Nat} (synth : Synth)
    (hbudget : (matched env src params).length ≤ budget) (hfuel : src.entities.docs.values.length < fuel) :
    ∃ r, run_query broker src.entities.docs.values params budget fuel synth =
        some (r, (matched env src params).foldl (copy_entity broker) synth) ∧
      (readable env params = true → r = .ok (matched env src params).length) ∧
      (readable env params = false → ∃ e, r = .error e) := by
  cases hsel : selection env params with
  | error e =>
      have hnone : matched env src params = [] := by
        refine List.filter_eq_nil_iff.mpr fun doc _ => ?_
        rw [matches_query, hsel]
        exact Bool.false_ne_true
      obtain ⟨fuel, rfl⟩ : ∃ m, fuel = m + 1 := ⟨fuel - 1, by omega⟩
      refine ⟨.error (.ngsi e), ?_, fun h => ?_, fun _ => ⟨_, rfl⟩⟩
      · rw [run_query, run_query_from, filter_entities_paged, hsel, hnone]
        rfl
      · rw [readable, hsel] at h
        cases h
  | ok sel =>
      have hmatch : matches_query env params = sel.selects env := by
        funext doc
        rw [matches_query, hsel]
      rw [matched, hmatch] at hbudget ⊢
      refine ⟨.ok _, ?_, fun _ => rfl, fun h => ?_⟩
      · have hkept : (src.entities.docs.values.filter (broker.entities.narrow sel)).filter (sel.selects env) =
            src.entities.docs.values.filter (sel.selects env) := by
          rw [List.filter_filter]
          refine List.filter_congr fun doc _ => ?_
          cases hs : sel.selects env doc with
          | false => rfl
          | true => rw [broker.entities.keeps sel doc hs, Bool.and_self]
        cases hdec : broker.entities.decides sel with
        | true =>
            have hrows : (src.entities.docs.values.filter (broker.entities.narrow sel)).length ≤ src.entities.docs.values.length :=
              List.length_filter_le _ _
            have h := run_query_decided broker src hsel hdec hlimit budget fuel 0 0 synth (by rw [List.drop_zero, hkept]; omega) (by omega) (by omega)
            rw [List.drop_zero, hkept, Nat.zero_add] at h
            exact h
        | false =>
            obtain ⟨fuel, rfl⟩ : ∃ m, fuel = m + 1 := ⟨fuel - 1, by omega⟩
            have hbatch : filter_entities_paged broker.entities src.entities.docs.values params
                ⟨0, broker.max_limit, decide (0 = 0)⟩ =
                .ok ⟨src.entities.docs.values.filter (sel.selects env), false, none,
                  (src.entities.docs.values.filter (broker.entities.narrow sel)).length⟩ := by
              rw [filter_entities_paged, hsel]
              simp only [Except.map, query_entities, hdec, Bool.false_eq_true, if_false,
                src.entities.merge_sublist List.filter_sublist, hkept]
            rw [run_query, run_query_from, hbatch]
            dsimp only
            rw [if_neg (by simp)]
            dsimp only
            rw [if_neg (by omega), Nat.zero_add, next_scan_offset]
            rfl
      · rw [readable, hsel] at h
        cases h

theorem get_id_of_mem_values {stored : Stored} {doc : Value} (h : doc ∈ stored.docs.values) :
    ∃ id, (doc.get "id").bind Value.as_str = some id ∧ stored.docs.get id = some doc := by
  obtain ⟨p, hp, rfl⟩ := List.mem_map.mp h
  have hget := BTreeMap.mem_entries.mp (show (p.1, p.2) ∈ stored.docs.entries from hp)
  exact ⟨p.1, stored.keyed p.1 p.2 hget, hget⟩

/-- What a tenant that is being filled holds of some entities of the source,
and of their evolutions no more than the records of their copies. -/
structure Copied (s : Synth) (docs : List Value) : Prop where
  entities : ∀ id doc, s.entities.get id = some doc ↔ doc ∈ docs ∧ src.entities.docs.get id = some doc
  evolutions : ∀ id e, s.evolutions.get id = some e →
    (s.entities.get id).isSome ∧ ∃ doc, broker.record doc none = some e

theorem copied_blank : Copied broker src blank [] where
  entities id doc := by
    rw [blank, BTreeMap.get_empty]
    simp
  evolutions id e h := by
    rw [blank, BTreeMap.get_empty] at h
    cases h

variable {broker src}

theorem Copied.copy {s : Synth} {docs : List Value} (h : Copied broker src s docs) {doc : Value}
    (hdoc : doc ∈ src.entities.docs.values) : Copied broker src (copy_entity broker s doc) (doc :: docs) := by
  obtain ⟨id, hid, hget⟩ := get_id_of_mem_values hdoc
  have hsame {id' : String} {doc' : Value} (hd : doc' = doc) (hg : src.entities.docs.get id' = some doc') : id' = id := by
    have hk := src.entities.keyed id' doc' hg
    rw [hd, hid, Option.some_inj] at hk
    exact hk.symm
  rw [copy_entity, hid]
  dsimp only
  by_cases hthere : (s.entities.get id).isSome
  · rw [if_pos hthere]
    refine ⟨fun id' doc' => ?_, h.evolutions⟩
    rw [h.entities, List.mem_cons]
    refine ⟨fun ⟨hm, hg⟩ => ⟨.inr hm, hg⟩, ?_⟩
    rintro ⟨hd | hm, hg⟩
    · -- the copy that is there is the one of the source
      obtain ⟨there, hthere⟩ := Option.isSome_iff_exists.mp hthere
      obtain ⟨hm, hg'⟩ := (h.entities id there).mp hthere
      rw [hget, Option.some_inj] at hg'
      rw [hd]
      exact ⟨hg' ▸ hm, hsame hd hg ▸ hget⟩
    · exact ⟨hm, hg⟩
  · rw [if_neg hthere]
    have hstub : s.evolutions.get id = none := by
      cases he : s.evolutions.get id with
      | none => rfl
      | some e => exact absurd (h.evolutions id e he).1 hthere
    refine ⟨fun id' doc' => ?_, fun id' e he => ?_⟩
    · rw [BTreeMap.get_insert, List.mem_cons]
      split
      next heq =>
        subst heq
        rw [hget, Option.some_inj]
        exact ⟨fun hd => ⟨.inl hd.symm, hd⟩, fun hd => hd.2⟩
      next hne =>
        rw [h.entities]
        refine ⟨fun ⟨hm, hg⟩ => ⟨.inr hm, hg⟩, ?_⟩
        rintro ⟨hd | hm, hg⟩
        · exact absurd (hsame hd hg) hne
        · exact ⟨hm, hg⟩
    · dsimp only at he ⊢
      rw [BTreeMap.get_insert]
      rw [hstub] at he
      split
      · refine ⟨rfl, ?_⟩
        cases hr : broker.record doc none with
        | none =>
            rw [hr] at he
            exact (h.evolutions id' e he).2
        | some e' =>
            rw [hr, BTreeMap.get_insert, if_pos ‹_›] at he
            exact ⟨doc, hr.trans he⟩
      next hne =>
        cases hr : broker.record doc none with
        | none =>
            rw [hr] at he
            exact h.evolutions id' e he
        | some e' =>
            rw [hr, BTreeMap.get_insert, if_neg hne] at he
            exact h.evolutions id' e he

theorem Copied.foldl {docs : List Value} (hdocs : ∀ doc ∈ docs, doc ∈ src.entities.docs.values) {s : Synth} {held : List Value}
    (h : Copied broker src s held) : ∃ all, Copied broker src (docs.foldl (copy_entity broker) s) all ∧
      ∀ doc, doc ∈ all ↔ doc ∈ held ∨ doc ∈ docs := by
  induction docs generalizing s held with
  | nil => exact ⟨held, h, fun doc => by simp⟩
  | cons doc docs ih =>
      obtain ⟨all, hall, hmem⟩ := ih (fun d hd => hdocs d (List.mem_cons_of_mem _ hd)) (h.copy (hdocs doc List.mem_cons_self))
      refine ⟨all, hall, fun d => ?_⟩
      rw [hmem, List.mem_cons, List.mem_cons, or_assoc, or_left_comm]

variable (broker src)

/-- What an entity query is reported as. -/
def entity_report (env : Entities.Env Instant) (src : Source) (q : Params) : ResultStatus :=
  if readable env q then (if matched env src q = [] then .empty else .success) else .failure

theorem detail_ok {α : Type} (l : List α) : detail (.ok l.length) = if l = [] then .empty else .success := by
  cases l with
  | nil => rfl
  | cons a l => rfl

theorem run_queries_eq (hlimit : 0 < broker.max_limit) {fuel : Nat} (hfuel : src.entities.docs.values.length < fuel)
    (queries : List Params) (s : Progress)
    (hbudget : s.copied + (queries.map (fun q => (matched env src q).length)).sum ≤ fill_cap broker) :
    ∃ t, run_queries broker src.entities.docs.values fuel queries s = some t ∧
      t.synth = (queries.flatMap (matched env src)).foldl (copy_entity broker) s.synth ∧
      t.details = s.details ++ queries.map (entity_report env src) ∧
      t.copied ≤ s.copied + (queries.map (fun q => (matched env src q).length)).sum := by
  induction queries generalizing s with
  | nil => exact ⟨s, rfl, rfl, (List.append_nil _).symm, Nat.le_refl _⟩
  | cons q queries ih =>
      rw [List.map_cons, List.sum_cons] at hbudget
      have hbudget' : (matched env src q).length ≤ fill_cap broker - s.copied := by omega
      obtain ⟨r, hrun, hok, herr⟩ := run_query_eq broker src hlimit (fill_cap broker - s.copied) s.synth hbudget' hfuel
      have hcopied : (s.take (r, (matched env src q).foldl (copy_entity broker) s.synth)).copied ≤
          s.copied + (matched env src q).length := by
        cases hread : readable env q with
        | true =>
            rw [hok hread]
            exact Nat.le_refl _
        | false =>
            obtain ⟨e, rfl⟩ := herr hread
            exact Nat.le_add_right _ _
      have hdetail : detail r = entity_report env src q := by
        cases hread : readable env q with
        | true => rw [hok hread, detail_ok, entity_report, hread, if_pos rfl]
        | false =>
            obtain ⟨e, rfl⟩ := herr hread
            rw [entity_report, hread]
            rfl
      obtain ⟨t, ht, hsynth, hdetails, hle⟩ := ih (s.take (r, (matched env src q).foldl (copy_entity broker) s.synth))
        (by omega)
      refine ⟨t, ?_, ?_, ?_, ?_⟩
      · rw [run_queries, List.foldlM_cons, hrun]
        exact ht
      · rw [hsynth, List.flatMap_cons, List.foldl_append]
        rfl
      · rw [hdetails, List.map_cons, ← hdetail, List.append_cons]
        rfl
      · rw [List.map_cons, List.sum_cons]
        omega

end Entities

section Temporal

variable {env : Entities.Env Instant} (broker : Broker env) (src : Source)

theorem filterMap_page {α β : Type} {f : α → Option β} {l : List α} (h : ∀ a ∈ l, (f a).isSome) (offset limit : Nat) :
    ((l.drop offset).take limit).filterMap f = ((l.filterMap f).drop offset).take limit := by
  induction l generalizing offset limit with
  | nil => simp
  | cons a l ih =>
      obtain ⟨b, hb⟩ := Option.isSome_iff_exists.mp (h a List.mem_cons_self)
      have hl : ∀ a ∈ l, (f a).isSome := fun a ha => h a (List.mem_cons_of_mem _ ha)
      rw [List.filterMap_cons_some hb]
      cases offset with
      | succ offset => exact ih hl offset limit
      | zero =>
          cases limit with
          | zero => rfl
          | succ limit =>
              have hrest := ih hl 0 limit
              rw [List.drop_zero, List.drop_zero] at hrest
              rw [List.drop_zero, List.drop_zero, List.take_succ_cons, List.take_succ_cons, List.filterMap_cons_some hb, hrest]

theorem present_all_at (Q : TemporalQuery) (offset limit : Nat) (docs : List Value) :
    present_all { Q with offset := offset, limit := limit } docs = present_all Q docs := by
  induction docs with
  | nil => rfl
  | cons doc docs ih =>
      rw [present_all, present_all, ih]
      rfl

/-- Either store serves the same page. -/
theorem query_temporal_page (Q : TemporalQuery) (offset limit : Nat) :
    query_temporal_collected broker.temporal { Q with offset := offset, limit := limit } src.histories.docs.values =
      (present_all Q (((temporal_matches env src Q).drop offset).take limit)).map
        ((((temporal_matches env src Q).drop offset).take limit), ·) := by
  generalize hQ : ({ Q.toQuery with offset := offset, limit := limit } : Temporal.Query) = Q'
  have hqualify : qualify env Q' = qualify env Q.toQuery := by
    rw [← hQ]
    rfl
  have harrange : Q'.arrange = Q.arrange := by rw [← hQ]
  have hnarrow : (src.histories.docs.values.filter (broker.temporal.narrow Q')).filterMap (qualify env Q.toQuery) =
      src.histories.docs.values.filterMap (qualify env Q.toQuery) := by
    rw [List.filterMap_filter]
    refine List.filterMap_congr fun doc _ => ?_
    cases hs : qualify env Q.toQuery doc with
    | none => simp
    | some d => rw [broker.temporal.keeps Q' doc (by rw [hqualify, hs]; rfl), if_pos rfl]
  have hpage : (if broker.temporal.decides Q' then
        query_matches env Q' (((src.histories.docs.values.filter (broker.temporal.narrow Q')).drop Q'.offset).take Q'.limit)
      else query_page env Q' (src.histories.docs.values.filter (broker.temporal.narrow Q'))) =
      ((temporal_matches env src Q).drop offset).take limit := by
    have hoffset : Q'.offset = offset := by rw [← hQ]
    have hlimit : Q'.limit = limit := by rw [← hQ]
    split
    next hdec =>
      obtain ⟨hid, hexact⟩ := broker.temporal.exact Q' hdec
      rw [query_matches, temporal_matches, query_matches, hqualify, ← harrange, hid, hoffset, hlimit, id_eq, id_eq,
        filterMap_page, hnarrow]
      intro doc hdoc
      rw [← hqualify, ← hexact doc]
      exact (List.mem_filter.mp hdoc).2
    · rw [query_page, query_matches, temporal_matches, query_matches, hqualify, harrange, hnarrow, hoffset, hlimit]
  have hall (docs : List Value) : present_all { Q with toQuery := Q' } docs = present_all Q docs := by
    rw [← hQ]
    exact present_all_at Q offset limit docs
  rw [query_temporal_collected]
  dsimp only
  rw [hall]
  exact congrArg (fun page => (present_all Q page).map (page, ·)) hpage

theorem present_all_shown {Q : TemporalQuery} {docs : List Value} (h : ∀ doc ∈ docs, refused Q doc = false) :
    present_all Q docs = .ok (docs.filterMap (shown Q)) := by
  induction docs with
  | nil => rfl
  | cons doc docs ih =>
      have hdoc := h doc List.mem_cons_self
      rw [present_all, ih fun d hd => h d (List.mem_cons_of_mem _ hd)]
      cases hp : present Q doc with
      | error e =>
          rw [refused, hp] at hdoc
          cases hdoc
      | ok m =>
          have hs : shown Q doc = m := by rw [shown, hp]
          cases m with
          | none =>
              rw [List.filterMap_cons_none hs]
              rfl
          | some m =>
              rw [List.filterMap_cons_some hs]
              rfl

theorem present_all_refused {Q : TemporalQuery} {docs : List Value} (h : ∃ doc ∈ docs, refused Q doc = true) :
    ∃ e, present_all Q docs = .error e := by
  induction docs with
  | nil =>
      obtain ⟨doc, hdoc, -⟩ := h
      exact absurd hdoc List.not_mem_nil
  | cons doc docs ih =>
      rw [present_all]
      cases hp : present Q doc with
      | error e => exact ⟨e, rfl⟩
      | ok m =>
          obtain ⟨doc', hmem, hrefused⟩ := h
          rcases List.mem_cons.mp hmem with rfl | hmem
          · rw [refused, hp] at hrefused
            cases hrefused
          · obtain ⟨e, he⟩ := ih ⟨doc', hmem, hrefused⟩
            rw [he]
            exact ⟨e, rfl⟩

theorem get_id_retain (keep : Value → Bool) (doc : Value) : (retain keep doc).get "id" = doc.get "id" := by
  cases doc with
  | object o =>
      have hmeta : is_meta "id" = true := by decide
      change List.lookup "id" (o.map _) = o.lookup "id"
      induction o with
      | nil => rfl
      | cons p o ih =>
          obtain ⟨k, v⟩ := p
          rw [List.map_cons, SortedMap.lookup_cons, SortedMap.lookup_cons, ih]
          by_cases hk : "id" = k
          · subst hk
            cases v <;> simp [hmeta]
          · rw [if_neg hk, if_neg hk]
  | _ => rfl

theorem get_id_qualify {Q : Temporal.Query} {doc d : Value} (h : qualify env Q doc = some d) : d.get "id" = doc.get "id" := by
  rw [qualify] at h
  split at h
  · have h := (Option.filter_eq_some_iff.mp h).1
    cases hsq : Q.scope_q with
    | none =>
        rw [hsq] at h
        cases h
        rfl
    | some sq =>
        rw [hsq] at h
        simp only [scope_window_retain] at h
        split at h
        · cases h
          exact get_id_retain _ doc
        · cases h
  · cases h

/-- What a temporal query matches is held, under its id. -/
theorem held_of_matches {Q : TemporalQuery} {doc : Value} (h : doc ∈ temporal_matches env src Q) :
    ∃ id, (doc.get "id").bind Value.as_str = some id ∧ (src.histories.docs.get id).isSome := by
  have hmem := (Q.arranges _).mem_iff.mp h
  obtain ⟨held, hheld, hq⟩ := List.mem_filterMap.mp hmem
  obtain ⟨p, hp, rfl⟩ := List.mem_map.mp hheld
  have hget := BTreeMap.mem_entries.mp (show (p.1, p.2) ∈ src.histories.docs.entries from hp)
  exact ⟨p.1, by rw [get_id_qualify hq]; exact src.histories.keyed p.1 p.2 hget, by rw [hget]; rfl⟩

def restore (s : Synth × Nat) (id : String) : Synth × Nat :=
  match src.histories.docs.get id with
  | some doc => ({ s.1 with evolutions := s.1.evolutions.insert id doc }, s.2 + 1)
  | none => s

theorem copy_evolutions_eq {Q : TemporalQuery} {page : List Value} (hpage : ∀ doc ∈ page, doc ∈ temporal_matches env src Q)
    (s : Synth × Nat) :
    (page.filterMap (shown Q)).foldl (copy_evolution src.histories page) s =
      (page.filterMap (held_id src Q)).foldl (restore src) s := by
  rw [List.foldl_filterMap, List.foldl_filterMap]
  refine List.foldl_ext _ _ _ fun s doc hdoc => ?_
  cases hshown : shown Q doc with
  | none =>
      rw [held_id, hshown]
      rfl
  | some m =>
      have hheld : held_id src Q doc = ((m.lookup "id").bind Value.as_str).filter (fun id => (src.histories.docs.get id).isSome) := by
        rw [held_id, hshown]
        rfl
      rw [hheld]
      dsimp only
      rw [copy_evolution]
      cases hid : (m.lookup "id").bind Value.as_str with
      | none => rfl
      | some eid =>
          dsimp only
          cases hget : src.histories.docs.get eid with
          | some e =>
              rw [Option.filter_some_pos (by rw [hget]; rfl)]
              dsimp only
              rw [restore, hget]
              rfl
          | none =>
              -- no document of the page has an id nothing is held under
              have hnone : page.find? (fun m => (m.get "id").bind Value.as_str = some eid) = none := by
                refine List.find?_eq_none.mpr fun d hd => ?_
                obtain ⟨id, hid', hsome⟩ := held_of_matches src (hpage d hd)
                rw [hid', decide_eq_true_eq, Option.some_inj]
                rintro rfl
                rw [hget] at hsome
                cases hsome
              rw [hnone, Option.filter_some_neg (by rw [hget]; decide)]
              rfl

theorem foldl_restore {ids : List String} (hheld : ∀ id ∈ ids, (src.histories.docs.get id).isSome) (s : Synth × Nat) :
    (ids.foldl (restore src) s).1.entities = s.1.entities ∧ (ids.foldl (restore src) s).2 = s.2 + ids.length ∧
      ∀ k, (ids.foldl (restore src) s).1.evolutions.get k =
        if k ∈ ids then src.histories.docs.get k else s.1.evolutions.get k := by
  induction ids generalizing s with
  | nil => exact ⟨rfl, rfl, fun k => by rw [if_neg List.not_mem_nil]; rfl⟩
  | cons id ids ih =>
      obtain ⟨doc, hdoc⟩ := Option.isSome_iff_exists.mp (hheld id List.mem_cons_self)
      have hone : restore src s id = ({ s.1 with evolutions := s.1.evolutions.insert id doc }, s.2 + 1) := by
        rw [restore, hdoc]
      obtain ⟨hentities, hcount, hget⟩ := ih (fun k hk => hheld k (List.mem_cons_of_mem _ hk)) (restore src s id)
      rw [List.foldl_cons]
      refine ⟨hentities.trans (by rw [hone]), hcount.trans (by rw [hone, List.length_cons]; omega), fun k => ?_⟩
      rw [hget k, hone]
      by_cases hk : k ∈ ids
      · rw [if_pos hk, if_pos (List.mem_cons_of_mem _ hk)]
      · rw [if_neg hk, BTreeMap.get_insert]
        by_cases hkid : k = id
        · rw [if_pos hkid, hkid, if_pos List.mem_cons_self, hdoc]
        · rw [if_neg hkid, if_neg (fun h => (List.mem_cons.mp h).elim hkid hk)]

theorem held_of_held_id {Q : TemporalQuery} {doc : Value} {id : String} (h : held_id src Q doc = some id) :
    (shown Q doc).isSome ∧ (src.histories.docs.get id).isSome := by
  obtain ⟨hid, hheld⟩ := Option.filter_eq_some_iff.mp h
  obtain ⟨m, hm, -⟩ := Option.bind_eq_some_iff.mp hid
  obtain ⟨m', hm', -⟩ := Option.bind_eq_some_iff.mp hm
  exact ⟨by rw [hm']; rfl, hheld⟩

/-- The evolutions a temporal query reads, up to the first page shown short. -/
def walked (fuel : Nat) (Q : TemporalQuery) (offset : Nat) : List Value :=
  Paging.walk broker.max_limit (fun doc => (shown Q doc).isSome) fuel ((temporal_matches env src Q).drop offset)

theorem countP_shown (Q : TemporalQuery) (page : List Value) :
    page.countP (fun doc => (shown Q doc).isSome) = (page.filterMap (shown Q)).length := by
  rw [List.length_filterMap_eq_countP]

theorem run_temporal_refused {Q : TemporalQuery} (budget : Nat) {fuel : Nat} (n : Nat) {offset : Nat} (synth : Synth)
    (h : ∃ doc ∈ walked broker src fuel Q offset, refused Q doc = true) :
    ∃ e s, run_temporal_query_from broker src.histories Q budget fuel n offset synth = some (.error e, s) ∧
      s.entities = synth.entities := by
  induction fuel generalizing n offset synth with
  | zero =>
      obtain ⟨doc, hdoc, -⟩ := h
      exact absurd hdoc List.not_mem_nil
  | succ fuel ih =>
      generalize hpage : ((temporal_matches env src Q).drop offset).take broker.max_limit = page at *
      have hmem : ∀ doc ∈ page, doc ∈ temporal_matches env src Q := fun doc hd => by
        rw [← hpage] at hd
        exact List.mem_of_mem_drop (List.mem_of_mem_take hd)
      rw [run_temporal_query_from, query_temporal_page, hpage]
      by_cases hrefused : ∃ doc ∈ page, refused Q doc = true
      · obtain ⟨e, he⟩ := present_all_refused hrefused
        rw [he]
        exact ⟨_, _, rfl, rfl⟩
      · have hnone : ∀ doc ∈ page, refused Q doc = false := fun doc hd => by
          cases hr : refused Q doc with
          | false => rfl
          | true => exact absurd ⟨doc, hd, hr⟩ hrefused
        rw [present_all_shown hnone]
        dsimp only [Except.map]
        split
        · exact ⟨_, _, rfl, rfl⟩
        · rw [copy_evolutions_eq src hmem]
          have hheld : ∀ id ∈ page.filterMap (held_id src Q), (src.histories.docs.get id).isSome := fun id hid => by
            obtain ⟨doc, -, hd⟩ := List.mem_filterMap.mp hid
            exact (held_of_held_id src hd).2
          have hentities := (foldl_restore src hheld (synth, n)).1
          obtain ⟨doc, hdoc, hr⟩ := h
          rw [walked, Paging.walk, hpage, countP_shown] at hdoc
          split at hdoc
          next hshort => exact absurd ⟨doc, hdoc, hr⟩ hrefused
          next hlong =>
            rw [if_neg hlong]
            rcases List.mem_append.mp hdoc with hdoc | hdoc
            · exact absurd ⟨doc, hdoc, hr⟩ hrefused
            · rw [List.drop_drop] at hdoc
              obtain ⟨e, s, hrun, hs⟩ := ih ((page.filterMap (held_id src Q)).foldl (restore src) (synth, n)).2
                ((page.filterMap (held_id src Q)).foldl (restore src) (synth, n)).1 ⟨doc, hdoc, hr⟩
              exact ⟨e, s, hrun, hs.trans hentities⟩

theorem run_temporal_shown {Q : TemporalQuery} (hlimit : 0 < broker.max_limit) (budget : Nat) {fuel : Nat} (n offset : Nat)
    (synth : Synth)
    (hfuel : ((temporal_matches env src Q).drop offset).length < fuel)
    (h : ∀ doc ∈ walked broker src fuel Q offset, refused Q doc = false)
    (hbudget : n + (walked broker src fuel Q offset).countP (fun doc => (shown Q doc).isSome) ≤ budget) :
    run_temporal_query_from broker src.histories Q budget fuel n offset synth =
      some (.ok (((walked broker src fuel Q offset).filterMap (held_id src Q)).foldl (restore src) (synth, n)).2,
        (((walked broker src fuel Q offset).filterMap (held_id src Q)).foldl (restore src) (synth, n)).1) := by
  induction fuel generalizing n offset synth with
  | zero => exact absurd hfuel (Nat.not_lt_zero _)
  | succ fuel ih =>
      generalize hpage : ((temporal_matches env src Q).drop offset).take broker.max_limit = page at *
      have hmem : ∀ doc ∈ page, doc ∈ temporal_matches env src Q := fun doc hd => by
        rw [← hpage] at hd
        exact List.mem_of_mem_drop (List.mem_of_mem_take hd)
      have hheld : ∀ id ∈ page.filterMap (held_id src Q), (src.histories.docs.get id).isSome := fun id hid => by
        obtain ⟨doc, -, hd⟩ := List.mem_filterMap.mp hid
        exact (held_of_held_id src hd).2
      have hcount : (page.filterMap (held_id src Q)).length ≤ (page.filterMap (shown Q)).length := by
        rw [List.length_filterMap_eq_countP, List.length_filterMap_eq_countP]
        refine List.countP_mono_left fun doc _ hd => ?_
        obtain ⟨id, hid⟩ := Option.isSome_iff_exists.mp hd
        exact (held_of_held_id src hid).1
      have hwalk : walked broker src (fuel + 1) Q offset =
          if (page.filterMap (shown Q)).length < broker.max_limit then page
          else page ++ walked broker src fuel Q (offset + broker.max_limit) := by
        rw [walked, Paging.walk, hpage, countP_shown, List.drop_drop]
        rfl
      rw [hwalk] at h hbudget ⊢
      rw [run_temporal_query_from, query_temporal_page, hpage]
      split at h
      next hshort =>
        rw [if_pos hshort, countP_shown] at hbudget
        rw [present_all_shown h, if_pos hshort]
        dsimp only [Except.map]
        rw [if_neg (by omega), copy_evolutions_eq src hmem, if_pos hshort]
      next hlong =>
        rw [if_neg hlong, List.countP_append, countP_shown] at hbudget
        rw [present_all_shown fun doc hd => h doc (List.mem_append_left _ hd), if_neg hlong]
        dsimp only [Except.map]
        have hdrop : ((temporal_matches env src Q).drop (offset + broker.max_limit)).length < fuel := by
          have hle : (page.filterMap (shown Q)).length ≤ page.length := List.length_filterMap_le _ _
          rw [← hpage, List.length_take] at hle
          rw [List.length_drop] at hle hfuel ⊢
          rw [hpage] at hle
          omega
        have hn := (foldl_restore src hheld (synth, n)).2.1
        rw [if_neg (by omega), copy_evolutions_eq src hmem, if_neg hlong, ih _ _ _ hdrop
          (fun doc hd => h doc (List.mem_append_right _ hd)) (by rw [hn]; omega), List.filterMap_append, List.foldl_append]

/-- What the fill restores of the evolutions a temporal query selects. -/
def copies (fuel : Nat) (Q : TemporalQuery) : List String := (walked broker src fuel Q 0).filterMap (held_id src Q)

def temporal_report (fuel : Nat) (Q : TemporalQuery) : ResultStatus :=
  if (walked broker src fuel Q 0).any (refused Q) then .failure
  else if copies broker src fuel Q = [] then .empty else .success

theorem length_matches (Q : TemporalQuery) : (temporal_matches env src Q).length ≤ src.histories.docs.values.length := by
  rw [temporal_matches, query_matches, (Q.arranges _).length_eq]
  exact List.length_filterMap_le _ _

theorem countP_walked (fuel : Nat) (Q : TemporalQuery) :
    (walked broker src fuel Q 0).countP (fun doc => (shown Q doc).isSome) ≤ (selected env src Q).length := by
  rw [selected, ← List.countP_eq_length_filter]
  exact (Paging.walk_sublist fuel).countP_le

theorem mem_copies_held {fuel : Nat} {Q : TemporalQuery} {id : String} (h : id ∈ copies broker src fuel Q) :
    (src.histories.docs.get id).isSome := by
  obtain ⟨doc, -, hd⟩ := List.mem_filterMap.mp h
  exact (held_of_held_id src hd).2

/-- One temporal query of a fill. -/
theorem run_temporal_eq (hlimit : 0 < broker.max_limit) {fuel : Nat} (hfuel : src.histories.docs.values.length < fuel)
    {Q : TemporalQuery} {s : Progress} (hbudget : s.copied + (selected env src Q).length ≤ fill_cap broker) :
    ∃ t, (run_temporal_query broker src.histories Q (fill_cap broker - s.copied) fuel s.synth).map s.take = some t ∧
      t.copied ≤ s.copied + (selected env src Q).length ∧ t.details = s.details ++ [temporal_report broker src fuel Q] ∧
      t.synth.entities = s.synth.entities ∧
      ((∀ doc ∈ walked broker src fuel Q 0, refused Q doc = false) → ∀ k, t.synth.evolutions.get k =
        if k ∈ copies broker src fuel Q then src.histories.docs.get k else s.synth.evolutions.get k) := by
  by_cases hrefused : ∃ doc ∈ walked broker src fuel Q 0, refused Q doc = true
  · obtain ⟨e, synth, hrun, hentities⟩ := run_temporal_refused broker src (fill_cap broker - s.copied) 0 s.synth hrefused
    have hreport : temporal_report broker src fuel Q = .failure := if_pos (List.any_eq_true.mpr hrefused)
    refine ⟨s.take (.error e, synth), by rw [run_temporal_query, hrun]; rfl, Nat.le_add_right _ _, by rw [hreport]; rfl,
      hentities, fun hnone => ?_⟩
    obtain ⟨doc, hdoc, hr⟩ := hrefused
    rw [hnone doc hdoc] at hr
    cases hr
  · have hnone : ∀ doc ∈ walked broker src fuel Q 0, refused Q doc = false := fun doc hd => by
      cases hr : refused Q doc with
      | false => rfl
      | true => exact absurd ⟨doc, hd, hr⟩ hrefused
    have hcount := countP_walked broker src fuel Q
    have hrun := run_temporal_shown broker src hlimit (fill_cap broker - s.copied) 0 0 s.synth (by rw [List.drop_zero]; exact Nat.lt_of_le_of_lt (length_matches src Q) hfuel) hnone (by omega)
    obtain ⟨hentities, hn, hget⟩ := foldl_restore src
      (fun id (hid : id ∈ copies broker src fuel Q) => mem_copies_held broker src hid) (s.synth, 0)
    have hlen : (copies broker src fuel Q).length ≤ (walked broker src fuel Q 0).countP (fun doc => (shown Q doc).isSome) := by
      rw [copies, List.length_filterMap_eq_countP]
      refine List.countP_mono_left fun doc _ hd => ?_
      obtain ⟨id, hid⟩ := Option.isSome_iff_exists.mp hd
      exact (held_of_held_id src hid).1
    rw [← copies, hn, Nat.zero_add] at hrun
    have hreport : temporal_report broker src fuel Q = detail (.ok (copies broker src fuel Q).length) := by
      rw [temporal_report, if_neg (by rw [List.any_eq_true]; exact hrefused), detail_ok]
    refine ⟨_, by rw [run_temporal_query, hrun]; rfl, ?_, by rw [hreport]; rfl, hentities, fun _ => hget⟩
    exact Nat.add_le_add_left (hlen.trans hcount) _

theorem run_temporal_queries_eq (hlimit : 0 < broker.max_limit) {fuel : Nat} (hfuel : src.histories.docs.values.length < fuel)
    (temporal : List TemporalQuery) (s : Progress)
    (hbudget : s.copied + (temporal.map (fun Q => (selected env src Q).length)).sum ≤ fill_cap broker) :
    ∃ t, run_temporal_queries broker src.histories fuel temporal s = some t ∧
      t.details = s.details ++ temporal.map (temporal_report broker src fuel) ∧ t.synth.entities = s.synth.entities ∧
      ((∀ Q ∈ temporal, ∀ doc ∈ walked broker src fuel Q 0, refused Q doc = false) → ∀ k,
        ((∃ Q ∈ temporal, k ∈ copies broker src fuel Q) → t.synth.evolutions.get k = src.histories.docs.get k) ∧
        ((∀ Q ∈ temporal, k ∉ copies broker src fuel Q) → t.synth.evolutions.get k = s.synth.evolutions.get k)) := by
  induction temporal generalizing s with
  | nil => exact ⟨s, rfl, (List.append_nil _).symm, rfl, fun _ k => ⟨fun ⟨_, h, _⟩ => absurd h List.not_mem_nil, fun _ => rfl⟩⟩
  | cons Q temporal ih =>
      rw [List.map_cons, List.sum_cons] at hbudget
      obtain ⟨u, hu, hcopied, hdetails, hentities, hget⟩ := run_temporal_eq broker src (Q := Q) (s := s) hlimit hfuel (by omega)
      obtain ⟨t, ht, hdetails', hentities', hget'⟩ := ih u (by omega)
      refine ⟨t, ?_, by rw [hdetails', hdetails, List.append_assoc]; rfl, hentities'.trans hentities,
        fun hnone k => ⟨?_, fun hk => ?_⟩⟩
      · rw [run_temporal_queries, List.foldlM_cons, hu]
        exact ht
      · have hrest := hget' (fun Q' hQ' => hnone Q' (List.mem_cons_of_mem _ hQ')) k
        have hfirst := hget (hnone Q List.mem_cons_self) k
        rintro ⟨Q', hQ', hk⟩
        by_cases hlater : ∃ Q' ∈ temporal, k ∈ copies broker src fuel Q'
        · exact hrest.1 hlater
        · rw [hrest.2 fun Q' hQ' hk => hlater ⟨Q', hQ', hk⟩, hfirst]
          rcases List.mem_cons.mp hQ' with rfl | hQ'
          · rw [if_pos hk]
          · exact absurd ⟨Q', hQ', hk⟩ hlater
      · have hrest := (hget' (fun Q' hQ' => hnone Q' (List.mem_cons_of_mem _ hQ')) k).2
          fun Q' hQ' => hk Q' (List.mem_cons_of_mem _ hQ')
        rw [hrest, hget (hnone Q List.mem_cons_self) k, if_neg (hk Q List.mem_cons_self)]

/-- Every evolution on the pages before the one the `i`th match is on is shown. -/
def ReadUpTo (Q : TemporalQuery) (i : Nat) : Prop :=
  ∀ j, j < i / broker.max_limit * broker.max_limit → ∀ doc, (temporal_matches env src Q)[j]? = some doc →
    (shown Q doc).isSome = true

/-- On a page that is read, an evolution is shown under the id of one that is held. -/
def Reaches (Q : TemporalQuery) (id : String) : Prop :=
  ∃ i doc, (temporal_matches env src Q)[i]? = some doc ∧ ReadUpTo broker src Q i ∧ held_id src Q doc = some id

/-- The queries a fill answers in full. -/
structure Complete (queries : List Params) (temporal : List TemporalQuery) : Prop where
  readable : ∀ q ∈ queries, readable env q = true
  rendered : ∀ Q ∈ temporal, ∀ i doc, (temporal_matches env src Q)[i]? = some doc → ReadUpTo broker src Q i →
    refused Q doc = false
  restored : ∀ Q ∈ temporal, ∀ doc ∈ selected env src Q, ∃ Q' ∈ temporal, Reaches broker src Q' (id_of doc)
  counted : ∀ Q ∈ temporal, selected env src Q ≠ [] → ∃ id, Reaches broker src Q id

theorem mem_walked (hlimit : 0 < broker.max_limit) {fuel : Nat} (hfuel : src.histories.docs.values.length < fuel)
    {Q : TemporalQuery} {doc : Value} : doc ∈ walked broker src fuel Q 0 ↔
      ∃ i, (temporal_matches env src Q)[i]? = some doc ∧ ReadUpTo broker src Q i := by
  rw [walked, List.drop_zero, List.mem_iff_getElem?]
  exact exists_congr fun i => Paging.getElem?_walk hlimit (Nat.lt_of_le_of_lt (length_matches src Q) hfuel)

theorem mem_copies (hlimit : 0 < broker.max_limit) {fuel : Nat} (hfuel : src.histories.docs.values.length < fuel)
    {Q : TemporalQuery} {id : String} : id ∈ copies broker src fuel Q ↔ Reaches broker src Q id := by
  rw [copies, List.mem_filterMap]
  constructor
  · rintro ⟨doc, hdoc, hid⟩
    obtain ⟨i, hi, hread⟩ := (mem_walked broker src hlimit hfuel).mp hdoc
    exact ⟨i, doc, hi, hread, hid⟩
  · rintro ⟨i, doc, hi, hread, hid⟩
    exact ⟨doc, (mem_walked broker src hlimit hfuel).mpr ⟨i, hi, hread⟩, hid⟩

theorem selected_of_reaches {Q : TemporalQuery} {id : String} (h : Reaches broker src Q id) : selected env src Q ≠ [] := by
  obtain ⟨i, doc, hi, -, hid⟩ := h
  exact List.ne_nil_of_mem (List.mem_filter.mpr ⟨List.mem_of_getElem? hi, (held_of_held_id src hid).1⟩)

/-- A fill whose results fit its cap ends, and its snapshot is exact if and only
if its queries are complete. -/
theorem fill_exact_iff (broker : Broker env) (src : Source) (queries : List Params) (temporal : List TemporalQuery)
    (hlimit : 0 < broker.max_limit) (hfits : Fits env broker src queries temporal)
    (hfresh : ∀ doc e id, broker.record doc none = some e → src.histories.docs.get id ≠ some e)
    (fuel : Nat) (hentities : src.entities.docs.values.length < fuel) (hhistories : src.histories.docs.values.length < fuel) :
    ∃ f, fill_snapshot broker src fuel queries temporal = some f ∧
      (Exact env src queries temporal f ↔ Complete broker src queries temporal) := by
  rw [Fits] at hfits
  obtain ⟨s, hs, hsynth, hdetails, hcopied⟩ := run_queries_eq broker src hlimit hentities queries ⟨0, [], blank⟩ (by dsimp only; omega)
  dsimp only at hcopied
  obtain ⟨t, ht, hreports, hsame, hget⟩ := run_temporal_queries_eq broker src hlimit hhistories temporal { s with details := [] }
    (by dsimp only; omega)
  obtain ⟨all, hall, hmem⟩ := (copied_blank broker src).foldl fun doc (hdoc : doc ∈ queries.flatMap (matched env src)) => by
    obtain ⟨q, -, hq⟩ := List.mem_flatMap.mp hdoc
    exact (List.mem_filter.mp hq).1
  rw [List.nil_append] at hdetails hreports
  rw [← hsynth] at hall
  refine ⟨⟨t.synth, s.details, t.details⟩, by rw [fill_snapshot, hs, Option.bind_some, ht, Option.map_some], fun h => ?_, fun h => ?_⟩
  · have hreadable : ∀ q ∈ queries, readable env q = true := fun q hq => by
      have hq' := List.map_inj_left.mp (hdetails.symm.trans h.q_details) q hq
      cases hr : readable env q with
      | true => rfl
      | false =>
          rw [entity_report, hr, if_neg Bool.false_ne_true] at hq'
          split at hq' <;> cases hq'
    have hreport (Q : TemporalQuery) (hQ : Q ∈ temporal) :
        temporal_report broker src fuel Q = if selected env src Q = [] then .empty else .success :=
      List.map_inj_left.mp (hreports.symm.trans h.tq_details) Q hQ
    have hnone : ∀ Q ∈ temporal, ∀ doc ∈ walked broker src fuel Q 0, refused Q doc = false := fun Q hQ doc hdoc => by
      cases hr : refused Q doc with
      | false => rfl
      | true =>
          have hfail := hreport Q hQ
          rw [temporal_report, if_pos (List.any_eq_true.mpr ⟨doc, hdoc, hr⟩)] at hfail
          split at hfail <;> cases hfail
    refine ⟨hreadable, fun Q hQ i doc hi hread => hnone Q hQ doc ((mem_walked broker src hlimit hhistories).mpr ⟨i, hi, hread⟩),
      fun Q hQ doc hdoc => ?_, fun Q hQ hsel => ?_⟩
    · by_contra hno
      obtain ⟨id, hid, hheld⟩ := held_of_matches src (List.mem_filter.mp hdoc).1
      have hidof : id_of doc = id := by rw [id_of, hid, Option.getD_some]
      rw [hidof] at hno
      obtain ⟨e, he⟩ := Option.isSome_iff_exists.mp hheld
      -- what is there is what the copy of an Entity left
      have hold := (hget hnone id).2 fun Q' hQ' hk => hno ⟨Q', hQ', (mem_copies broker src hlimit hhistories).mp hk⟩
      have hexact := h.evolutions Q hQ doc hdoc
      rw [hidof] at hexact
      obtain ⟨-, doc', hstub⟩ := hall.evolutions id e (hold.symm.trans (hexact.trans he))
      exact hfresh doc' e id hstub he
    · have hok := hreport Q hQ
      have hnot : ¬(walked broker src fuel Q 0).any (refused Q) = true := fun hany => by
        obtain ⟨doc, hdoc, hr⟩ := List.any_eq_true.mp hany
        rw [hnone Q hQ doc hdoc] at hr
        cases hr
      rw [temporal_report, if_neg hnot, if_neg hsel] at hok
      by_cases hnil : copies broker src fuel Q = []
      · rw [if_pos hnil] at hok
        cases hok
      · obtain ⟨id, hid⟩ := List.exists_mem_of_ne_nil _ hnil
        exact ⟨id, (mem_copies broker src hlimit hhistories).mp hid⟩
  · have hnone : ∀ Q ∈ temporal, ∀ doc ∈ walked broker src fuel Q 0, refused Q doc = false := fun Q hQ doc hdoc => by
      obtain ⟨i, hi, hread⟩ := (mem_walked broker src hlimit hhistories).mp hdoc
      exact h.rendered Q hQ i doc hi hread
    refine ⟨fun id doc => ?_, fun Q hQ doc hdoc => ?_, ?_, ?_⟩
    · rw [hsame, hall.entities, and_comm, hmem]
      refine and_congr_right fun hstored => ?_
      have hin : doc ∈ src.entities.docs.values :=
        List.mem_map.mpr ⟨(id, doc), BTreeMap.mem_entries.mpr hstored, rfl⟩
      rw [List.mem_flatMap]
      constructor
      · rintro (hd | ⟨q, hq, hd⟩)
        · exact absurd hd List.not_mem_nil
        · exact ⟨q, hq, (List.mem_filter.mp hd).2⟩
      · rintro ⟨q, hq, hd⟩
        exact .inr ⟨q, hq, List.mem_filter.mpr ⟨hin, hd⟩⟩
    · obtain ⟨Q', hQ', hreach⟩ := h.restored Q hQ doc hdoc
      exact (hget hnone _).1 ⟨Q', hQ', (mem_copies broker src hlimit hhistories).mpr hreach⟩
    · refine hdetails.trans (List.map_inj_left.mpr fun q hq => ?_)
      rw [entity_report, h.readable q hq, if_pos rfl]
    · refine hreports.trans (List.map_inj_left.mpr fun Q hQ => ?_)
      have hnot : ¬(walked broker src fuel Q 0).any (refused Q) = true := fun hany => by
        obtain ⟨doc, hdoc, hr⟩ := List.any_eq_true.mp hany
        rw [hnone Q hQ doc hdoc] at hr
        cases hr
      rw [temporal_report, if_neg hnot]
      by_cases hsel : selected env src Q = []
      · have hnil : copies broker src fuel Q = [] := by
          by_contra hne
          obtain ⟨id, hid⟩ := List.exists_mem_of_ne_nil _ hne
          exact selected_of_reaches broker src ((mem_copies broker src hlimit hhistories).mp hid) hsel
        rw [if_pos hsel, if_pos hnil]
      · obtain ⟨id, hid⟩ := h.counted Q hQ hsel
        rw [if_neg hsel, if_neg (List.ne_nil_of_mem ((mem_copies broker src hlimit hhistories).mpr hid))]

end Temporal

section Examples

def speed_at (t : String) : Value := .object [("observedAt", .string t), ("type", .string "Property"), ("value", .string "50")]

def car : Value := .object [("id", .string "urn:1"), ("type", .array [.string "urn:T"]), ("urn:speed", .array [speed_at "2024-01-02T00:00:00Z"])]

/-- The same car, over two days. -/
def driven : Value := .object [("id", .string "urn:1"), ("type", .array [.string "urn:T"]),
  ("urn:speed", .array [speed_at "2024-01-01T00:00:00Z", speed_at "2024-01-02T00:00:00Z"])]

theorem get_single {id k : String} {doc d : Value} (h : (BTreeMap.empty.insert id doc).get k = some d) : k = id ∧ d = doc := by
  rw [BTreeMap.get_insert] at h
  split at h
  next hk =>
    cases h
    exact ⟨hk, rfl⟩
  · rw [BTreeMap.get_empty] at h
    cases h

def garage : Source where
  entities :=
    { docs := BTreeMap.empty.insert "urn:1" car
      keyed := fun id doc h => by
        obtain ⟨rfl, rfl⟩ := get_single h
        rfl
      valid := fun id doc h => by
        obtain ⟨rfl, -⟩ := get_single h
        decide }
  histories :=
    { docs := BTreeMap.empty.insert "urn:1" driven
      keyed := fun id doc h => by
        obtain ⟨rfl, rfl⟩ := get_single h
        rfl }

/-- The copy of a car leaves the instance it holds, under a new name. -/
def recorded (_ : Value) (_ : Option Value) : Option Value :=
  some (.object [("id", .string "urn:1"), ("type", .array [.string "urn:T"]), ("urn:speed", .array [.object [
    ("instanceId", .string "urn:ngsi-ld:Instance:1"), ("observedAt", .string "2024-01-02T00:00:00Z"),
    ("type", .string "Property"), ("value", .string "50")]])])

def memory_broker : Broker plain_env := ⟨EntityArm.memory plain_env, TemporalArm.memory plain_env, 1000, recorded⟩

def all_cars : Params := insert_param (fun _ => none) "type" "T"

/-- The evolutions of a type, with the attributes asked for and the members picked. -/
def since_2024 (attrs_filter pick : Option (List String)) : TemporalQuery where
  tq := ⟨"after", "2024-01-01T00:00:00Z", none, "observedAt"⟩
  ids := none
  id_pattern := none
  types := some ["urn:T"]
  attrs := none
  q := none
  geo := none
  scope_q := none
  projection := ⟨attrs_filter, [], none, none⟩
  arrange := id
  arranges := List.Perm.refl
  offset := 0
  limit := 1000
  pick := pick
  dropped := []
  sys := false
  compact_types := id
  render := fun attrs => .ok (attrs.map (fun p => (p.1, .array p.2)))

theorem garage_matches : temporal_matches plain_env garage (since_2024 none none) = [driven] := by decide

theorem garage_complete : Complete memory_broker garage [all_cars] [since_2024 none none] where
  readable q hq := by
    rw [List.mem_singleton.mp hq]
    decide
  rendered Q hQ i doc hi hread := by
    have hmem := List.mem_of_getElem? hi
    rw [List.mem_singleton.mp hQ, garage_matches, List.mem_singleton] at hmem
    rw [List.mem_singleton.mp hQ, hmem]
    decide
  restored Q hQ doc hdoc := by
    have hmem := (List.mem_filter.mp hdoc).1
    rw [List.mem_singleton.mp hQ, garage_matches, List.mem_singleton] at hmem
    refine ⟨_, List.mem_singleton_self _, 0, driven, by rw [garage_matches]; rfl, fun j hj => absurd hj (by simp), ?_⟩
    rw [hmem]
    decide
  counted Q hQ _ := by
    rw [List.mem_singleton.mp hQ]
    exact ⟨"urn:1", 0, driven, by rw [garage_matches]; rfl, fun j hj => absurd hj (by simp), by decide⟩

theorem fill_exact_garage : ∃ f, fill_snapshot memory_broker garage 2 [all_cars] [since_2024 none none] = some f ∧
    Exact plain_env garage [all_cars] [since_2024 none none] f := by
  obtain ⟨f, hf, hiff⟩ := fill_exact_iff memory_broker garage [all_cars] [since_2024 none none] (by decide)
    (by rw [Fits]; decide) (fun doc e id he hget => by
      obtain ⟨-, rfl⟩ := get_single hget
      exact absurd (show recorded .null none = some driven from he) (by decide)) 2 (by decide) (by decide)
  exact ⟨f, hf, hiff.mpr garage_complete⟩

/-- An evolution that is picked without its id is selected and not copied. -/
theorem fill_not_exact_without_id : ¬ ∀ (src : Source) (queries : List Params) (temporal : List TemporalQuery) (f : Filled),
    Fits plain_env memory_broker src queries temporal → fill_snapshot memory_broker src 2 queries temporal = some f →
    Exact plain_env src queries temporal f := by
  intro hall
  obtain ⟨f, hf⟩ : ∃ f, fill_snapshot memory_broker garage 2 [all_cars]
      [since_2024 (some ["urn:speed"]) (some ["urn:speed"])] = some f := Option.isSome_iff_exists.mp (by decide)
  have hfacts : (fill_snapshot memory_broker garage 2 [all_cars]
      [since_2024 (some ["urn:speed"]) (some ["urn:speed"])]).all (fun f => f.tq_details = [.empty]) = true := by decide
  rw [hf, Option.all_some, decide_eq_true_eq] at hfacts
  have hexact := (hall garage _ _ f (by rw [Fits]; decide) hf).tq_details
  rw [hfacts] at hexact
  exact absurd hexact (by decide)

end Examples

end AntaresBroker.Fill
