import AntaresBroker.Temporal
import AntaresBroker.Validity

namespace AntaresBroker.Temporal

open Json Ql Registry Validity

section Histories

/-- When the scope of an instance took effect: a removal may have the time it was made at only. -/
def effect_time (i : Value) : Option String := (scope_set_time i).or ((i.get "deletedAt").bind Value.as_str)

/-- The values of the scope, removed ones included, by the instants they took effect at. -/
def history (v : Value) : List (List Char × Value) :=
  (items v).filterMap (fun i => (effect_time i).map (fun t => (dt_key t, (i.get "value").getD .null)))

/-- The scope valid at an instant, the last one set at or before it, matches. -/
def matches_at (sq : String) (doc : Value) (x : List Char) : Bool :=
  match doc.get "scope" with
  | none => false
  | some v =>
      if instance_shaped v then (in_force (history v) x).any (fun e => scope_value_matches sq e.2)
      else Scope.scope_matches sq doc

def in_window (tq : TemporalQ) (x : List Char) : Prop :=
  Within ((window_bounds tq).1.map dt_key) ((window_bounds tq).2.map dt_key) x

/-- A scope query goes by the validity of the scopes: an evolution is kept when the
scope valid at some instant of the window matches, with the instances at whose instant it does. -/
structure Follows (sq : String) (tq : TemporalQ) (doc : Value) : Prop where
  kept : (scope_window_retain sq tq doc).isSome = true ↔ ∃ x, in_window tq x ∧ matches_at sq doc x = true
  instances : ∀ doc', scope_window_retain sq tq doc = some doc' →
    doc' = retain (fun inst => (key tq.timeproperty inst).any (matches_at sq doc)) doc

end Histories

section Spans

/-- The set times of a scope as they are written, in the order of time. -/
def states (v : Value) : List (String × Value) :=
  ((items v).filterMap (fun i => (scope_set_time i).map (fun t => (t, (i.get "value").getD .null)))).insertionSort
    (fun s t => dt_key s.1 ≤ dt_key t.1)

/-- The times in which the scope matches by a record of its values; from `first` on if it has no record. -/
def matching {T : Type} (record : Value → List (T × Value)) (first : T) (sq : String) (doc : Value) : List (T × Option T) :=
  match doc.get "scope" with
  | none => []
  | some v =>
      if instance_shaped v then
        (spans (record v)).filterMap (fun p => if scope_value_matches sq p.1 then some p.2 else none)
      else if Scope.scope_matches sq doc then [(first, none)] else []

/-- The matching times as they are written. -/
def told (sq : String) (doc : Value) : List (String × Option String) := matching states "" sq doc

/-- The matching times as instants, to the next value or removal. -/
def held (sq : String) (doc : Value) : List (List Char × Option (List Char)) :=
  matching (fun v => (history v).insertionSort (fun e f => e.1 ≤ f.1)) [] sq doc

theorem scope_match_intervals_eq (sq : String) (doc : Value) : scope_match_intervals doc sq = told sq doc := by
  rw [scope_match_intervals, told, matching]
  cases doc.get "scope" with
  | none => rfl
  | some v =>
      dsimp only
      split_ifs
      · rw [← states, spans_eq_zip, List.filterMap_map]
        rfl
      · rfl
      · rfl

theorem matches_at_iff {sq : String} {doc : Value} {x : List Char} :
    matches_at sq doc x = true ↔ ∃ p ∈ held sq doc, Within (some p.1) p.2 x := by
  rw [matches_at, held, matching]
  cases doc.get "scope" with
  | none => simp
  | some v =>
      dsimp only
      split_ifs with hshape hplain
      · have hsorted := List.pairwise_insertionSort (fun e f : List Char × Value => e.1 ≤ f.1) (history v)
        have hiff := in_force_iff (P := fun w => scope_value_matches sq w = true) hsorted x
        rw [in_force_sorted] at hiff
        rw [Option.any_eq_true]
        refine (exists_congr fun e => and_congr_left' Iff.rfl).trans (hiff.trans ?_)
        constructor
        · rintro ⟨p, hp, hmatch, hw⟩
          exact ⟨p.2, List.mem_filterMap.mpr ⟨p, hp, if_pos hmatch⟩, hw⟩
        · rintro ⟨p', hp', hw⟩
          obtain ⟨p, hp, heq⟩ := List.mem_filterMap.mp hp'
          split_ifs at heq with hmatch
          obtain rfl := Option.some.inj heq
          exact ⟨p, hp, hmatch, hw⟩
      · have hfirst : [] ≤ x := not_lt.mp (List.not_lt_nil x)
        simp [hplain, Within, hfirst]
      · simp [hplain]

end Spans

section Reading

variable (tq : TemporalQ)

/-- The bounds of a time and of the window compared as they are written. -/
def text_meets (p : String × Option String) : Prop :=
  (∀ w ∈ (window_bounds tq).2, p.1 < w) ∧ ∀ e ∈ p.2, ∀ w ∈ (window_bounds tq).1, w < e

/-- The bounds of a time and of the window compared as instants. -/
def meets (p : List Char × Option (List Char)) : Prop :=
  (∀ e ∈ p.2, p.1 < e) ∧ (∀ w ∈ (window_bounds tq).2, p.1 < dt_key w) ∧
    ∀ a ∈ (window_bounds tq).1, (∀ e ∈ p.2, dt_key a < e) ∧ ∀ w ∈ (window_bounds tq).2, dt_key a < dt_key w

/-- The instances of the attributes of an evolution. -/
def attr_instances (doc : Value) : List Value :=
  (doc.as_object.getD []).flatMap (fun p => if is_meta p.1 then [] else items p.2)

/-- Wherever the written bounds of a matching time are misread, another matching time
makes up for it: none that is superseded at its own instant, over by a removal, or
misplaced by its spelling decides for the window or for an instance. -/
structure ReadsAsInstants (sq : String) (doc : Value) : Prop where
  shown : ∀ p ∈ told sq doc, text_meets tq p → ∃ p' ∈ held sq doc, meets tq p'
  hidden : ∀ p' ∈ held sq doc, meets tq p' → ∃ p ∈ told sq doc, text_meets tq p
  inside : (∃ p ∈ held sq doc, meets tq p) → ∀ inst ∈ attr_instances doc, ∀ t, stamp tq.timeproperty inst = some t →
    ((∃ p ∈ told sq doc, Within (some p.1) p.2 t) ↔ ∃ p ∈ held sq doc, Within (some p.1) p.2 (dt_key t))

variable {tq} {sq : String} {doc : Value}

theorem meets_iff {p : List Char × Option (List Char)} :
    meets tq p ↔ ∃ x, in_window tq x ∧ Within (some p.1) p.2 x := by
  have hiff := exists_within_iff p.1 p.2 ((window_bounds tq).1.map dt_key) ((window_bounds tq).2.map dt_key)
  refine Iff.trans ?_ hiff.symm
  simp [meets]

theorem exists_meets_iff : (∃ p ∈ held sq doc, meets tq p) ↔ ∃ x, in_window tq x ∧ matches_at sq doc x = true := by
  constructor
  · rintro ⟨p, hp, hmeets⟩
    obtain ⟨x, hx, hw⟩ := meets_iff.mp hmeets
    exact ⟨x, hx, matches_at_iff.mpr ⟨p, hp, hw⟩⟩
  · rintro ⟨x, hx, hmatch⟩
    obtain ⟨p, hp, hw⟩ := matches_at_iff.mp hmatch
    exact ⟨p, hp, meets_iff.mpr ⟨x, hx, hw⟩⟩

variable (sq doc) in
theorem in_intervals_iff {inst : Value} {t : String} (ht : stamp tq.timeproperty inst = some t) :
    in_intervals (told sq doc) tq.timeproperty inst = true ↔ ∃ p ∈ told sq doc, Within (some p.1) p.2 t := by
  rw [in_intervals, ht, Option.any_some, List.any_eq_true]
  refine exists_congr fun p => and_congr_right fun _ => ?_
  rw [Bool.and_eq_true, decide_eq_true_eq, Option.all_eq_true]
  simp [Within]

theorem text_meets_iff {p : String × Option String} {wstart wend : Option String} (hb : window_bounds tq = (wstart, wend)) :
    (wend.all (fun w => p.1 < w) && p.2.all (fun e => wstart.all (fun w => w < e))) = true ↔ text_meets tq p := by
  rw [text_meets, hb, Bool.and_eq_true, Option.all_eq_true, Option.all_eq_true]
  simp only [Option.all_eq_true, decide_eq_true_eq, Option.mem_def]

open Classical in
variable (tq sq doc) in
theorem scope_window_retain_eq : scope_window_retain sq tq doc =
    if ∃ p ∈ told sq doc, text_meets tq p then some (retain (in_intervals (told sq doc) tq.timeproperty) doc) else none := by
  cases hb : window_bounds tq with
  | mk wstart wend =>
      rw [scope_window_retain, scope_match_intervals_eq, hb]
      refine if_congr ?_ rfl rfl
      rw [List.any_eq_true]
      exact exists_congr fun p => and_congr_right fun _ => text_meets_iff hb

theorem filter_eq_filter_iff {α : Type} {l : List α} {keep keep' : α → Bool} :
    l.filter keep = l.filter keep' ↔ ∀ a ∈ l, keep a = keep' a := by
  refine ⟨fun h a ha => ?_, List.filter_congr⟩
  have hmem : a ∈ l.filter keep ↔ a ∈ l.filter keep' := by rw [h]
  rw [List.mem_filter, List.mem_filter, and_iff_right ha, and_iff_right ha] at hmem
  exact Bool.eq_iff_iff.mpr hmem

theorem retain_congr_iff {keep keep' : Value → Bool} :
    retain keep doc = retain keep' doc ↔ ∀ inst ∈ attr_instances doc, keep inst = keep' inst := by
  cases hdoc : doc with
  | object o =>
      rw [retain, retain, Value.object.injEq, List.map_inj_left, attr_instances]
      simp only [Value.as_object, Option.getD_some, List.forall_mem_flatMap]
      refine forall₂_congr fun p _ => ?_
      obtain ⟨k, v⟩ := p
      by_cases hmeta : is_meta k = true
      · cases v <;> simp [hmeta]
      · cases v <;> simp [hmeta, items, Value.as_array, filter_eq_filter_iff]
  | null => simp [retain, attr_instances, Value.as_object]
  | bool b => simp [retain, attr_instances, Value.as_object]
  | number n => simp [retain, attr_instances, Value.as_object]
  | string s => simp [retain, attr_instances, Value.as_object]
  | array l => simp [retain, attr_instances, Value.as_object]

/-- The instances kept agree where, for the written instant of each, both readings of the matching times do. -/
theorem kept_iff {inst : Value} :
    in_intervals (told sq doc) tq.timeproperty inst = (key tq.timeproperty inst).any (matches_at sq doc) ↔
      ∀ t, stamp tq.timeproperty inst = some t →
        ((∃ p ∈ told sq doc, Within (some p.1) p.2 t) ↔ ∃ p ∈ held sq doc, Within (some p.1) p.2 (dt_key t)) := by
  cases ht : stamp tq.timeproperty inst with
  | none => simp [in_intervals, key, ht]
  | some t =>
      have htold := in_intervals_iff sq doc ht
      rw [key, ht, Option.map_some, Option.any_some, Bool.eq_iff_iff, htold, matches_at_iff]
      simp

/-- A scope query follows the validity of the scopes exactly when no written time is misread in a way that decides. -/
theorem follows_iff : Follows sq tq doc ↔ ReadsAsInstants tq sq doc := by
  have hretain := scope_window_retain_eq tq sq doc
  constructor
  · rintro ⟨hkept, hinst⟩
    rw [← exists_meets_iff] at hkept
    have hiff : (∃ p ∈ told sq doc, text_meets tq p) ↔ ∃ p ∈ held sq doc, meets tq p := by
      rw [← hkept, hretain]
      split_ifs with h <;> simp [h]
    refine ⟨fun p hp hmeets => hiff.mp ⟨p, hp, hmeets⟩, fun p hp hmeets => hiff.mpr ⟨p, hp, hmeets⟩, fun hmeets inst hmem => ?_⟩
    rw [if_pos (hiff.mpr hmeets)] at hretain
    exact kept_iff.mp (retain_congr_iff.mp (hinst _ hretain) inst hmem)
  · rintro ⟨hshown, hhidden, hinside⟩
    have hiff : (∃ p ∈ told sq doc, text_meets tq p) ↔ ∃ p ∈ held sq doc, meets tq p :=
      ⟨fun ⟨p, hp, h⟩ => hshown p hp h, fun ⟨p, hp, h⟩ => hhidden p hp h⟩
    constructor
    · rw [← exists_meets_iff, ← hiff, hretain]
      split_ifs with h <;> simp [h]
    · intro doc' hdoc
      rw [hretain] at hdoc
      split_ifs at hdoc with h
      obtain rfl := Option.some.inj hdoc
      exact retain_congr_iff.mpr fun inst hmem => kept_iff.mpr (hinside (hiff.mp h) inst hmem)

end Reading

section Spelling

/-- The set times of the scope, the bounds of the window and the instants of the attributes. -/
def times (tq : TemporalQ) (doc : Value) : List String :=
  "" :: ((doc.get "scope").elim [] items).filterMap scope_set_time ++ (window_bounds tq).1.toList ++
    (window_bounds tq).2.toList ++ (attr_instances doc).filterMap (stamp tq.timeproperty)

/-- Every scope has a set time of its own, the window has an instant, and the times
are spelled so that their texts are in the order of time. -/
structure WrittenInOrder (tq : TemporalQ) (doc : Value) : Prop where
  timed : ∀ v ∈ doc.get "scope", ∀ i ∈ items v, effect_time i = scope_set_time i
  apart : ∀ v ∈ doc.get "scope", (states v).Pairwise (fun s t => dt_key s.1 < dt_key t.1)
  wide : ∀ a ∈ (window_bounds tq).1, ∀ b ∈ (window_bounds tq).2, dt_key a < dt_key b
  order : ∀ s ∈ times tq doc, ∀ t ∈ times tq doc, s < t ↔ dt_key s < dt_key t

variable {tq : TemporalQ} {sq : String} {doc : Value}

theorem sorted_history {v : Value} (h : ∀ i ∈ items v, effect_time i = scope_set_time i) :
    (history v).insertionSort (fun e f => e.1 ≤ f.1) = (states v).map (fun e => (dt_key e.1, e.2)) := by
  rw [states, List.map_insertionSort _ (fun e f : List Char × Value => e.1 ≤ f.1) _ _ (fun _ _ _ _ => Iff.rfl), List.map_filterMap,
    history]
  congr 1
  refine List.filterMap_congr fun i hi => ?_
  rw [h i hi, Option.map_map]
  rfl

variable (sq) in
theorem held_eq (h : WrittenInOrder tq doc) : held sq doc = (told sq doc).map (fun p => (dt_key p.1, p.2.map dt_key)) := by
  rw [held, told, matching, matching]
  cases hscope : doc.get "scope" with
  | none => rfl
  | some v =>
      dsimp only
      split_ifs
      · rw [sorted_history (h.timed v hscope), spans_map, List.filterMap_map, List.map_filterMap]
        refine List.filterMap_congr fun p _ => ?_
        dsimp only [Function.comp_apply]
        split_ifs <;> rfl
      · rfl
      · rfl

theorem mem_times_of_states {v : Value} (hscope : doc.get "scope" = some v) {e : String × Value} (he : e ∈ states v) :
    e.1 ∈ times tq doc := by
  obtain ⟨i, hi, heq⟩ := List.mem_filterMap.mp ((List.mem_insertionSort _).mp he)
  obtain ⟨t, ht, rfl⟩ := Option.map_eq_some_iff.mp heq
  have hmem : t ∈ (items v).filterMap scope_set_time := List.mem_filterMap.mpr ⟨i, hi, ht⟩
  simp [times, hscope, hmem]

/-- The bounds of a matching time are among the times, the first before the second. -/
theorem told_times (h : WrittenInOrder tq doc) {p : String × Option String} (hp : p ∈ told sq doc) :
    p.1 ∈ times tq doc ∧ ∀ e ∈ p.2, e ∈ times tq doc ∧ dt_key p.1 < dt_key e := by
  rw [told, matching] at hp
  cases hscope : doc.get "scope" with
  | none =>
      rw [hscope] at hp
      cases hp
  | some v =>
      rw [hscope] at hp
      dsimp only at hp
      split_ifs at hp
      · obtain ⟨q, hq, heq⟩ := List.mem_filterMap.mp hp
        split_ifs at heq
        obtain rfl := Option.some.inj heq
        obtain ⟨hmem, hnext⟩ := of_mem_spans (h.apart v hscope) hq
        refine ⟨mem_times_of_states hscope hmem, fun e he => ?_⟩
        obtain ⟨e', he', rfl, hlt⟩ := hnext e he
        exact ⟨mem_times_of_states hscope he', hlt⟩
      · obtain rfl := List.mem_singleton.mp hp
        exact ⟨by simp [times], fun e he => nomatch he⟩
      · cases hp

theorem text_meets_iff_meets (h : WrittenInOrder tq doc) {p : String × Option String} (hp : p ∈ told sq doc) :
    text_meets tq p ↔ meets tq (dt_key p.1, p.2.map dt_key) := by
  obtain ⟨hfirst, hnext⟩ := told_times h hp
  have hstart (a : String) (ha : a ∈ (window_bounds tq).1) : a ∈ times tq doc := by
    rw [Option.mem_def] at ha
    simp [times, ha]
  have hend (b : String) (hb : b ∈ (window_bounds tq).2) : b ∈ times tq doc := by
    rw [Option.mem_def] at hb
    simp [times, hb]
  constructor
  · rintro ⟨hbefore, hafter⟩
    refine ⟨fun e he => ?_, fun w hw => (h.order _ hfirst _ (hend w hw)).mp (hbefore w hw), fun a ha => ⟨fun e he => ?_, h.wide a ha⟩⟩
    · obtain ⟨t, ht, rfl⟩ := Option.map_eq_some_iff.mp he
      exact (hnext t ht).2
    · obtain ⟨t, ht, rfl⟩ := Option.map_eq_some_iff.mp he
      exact (h.order _ (hstart a ha) _ (hnext t ht).1).mp (hafter t ht a ha)
  · rintro ⟨-, hbefore, hafter⟩
    refine ⟨fun w hw => (h.order _ hfirst _ (hend w hw)).mpr (hbefore w hw), fun e he a ha => ?_⟩
    exact (h.order _ (hstart a ha) _ (hnext e he).1).mpr ((hafter a ha).1 _ (Option.mem_map_of_mem dt_key he))

theorem within_iff (h : WrittenInOrder tq doc) {p : String × Option String} (hp : p ∈ told sq doc) {t : String}
    (ht : t ∈ times tq doc) : Within (some p.1) p.2 t ↔ Within (some (dt_key p.1)) (p.2.map dt_key) (dt_key t) := by
  obtain ⟨hfirst, hnext⟩ := told_times h hp
  have hle : p.1 ≤ t ↔ dt_key p.1 ≤ dt_key t := by
    rw [← not_lt, h.order t ht p.1 hfirst, not_lt]
  constructor
  · rintro ⟨hfrom, hto⟩
    refine ⟨fun a ha => ?_, fun e he => ?_⟩
    · obtain rfl := Option.some.inj ha
      exact hle.mp (hfrom p.1 rfl)
    · obtain ⟨b, hb, rfl⟩ := Option.map_eq_some_iff.mp he
      exact (h.order t ht b (hnext b hb).1).mp (hto b hb)
  · rintro ⟨hfrom, hto⟩
    refine ⟨fun a ha => ?_, fun e he => ?_⟩
    · obtain rfl := Option.some.inj ha
      exact hle.mpr (hfrom _ rfl)
    · exact (h.order t ht e (hnext e he).1).mpr (hto _ (Option.mem_map_of_mem dt_key he))

/-- Times in one spelling are read as the instants they are. -/
theorem reads_as_instants (h : WrittenInOrder tq doc) : ReadsAsInstants tq sq doc := by
  have hheld := held_eq sq h
  constructor
  · intro p hp hmeets
    exact ⟨_, hheld ▸ List.mem_map_of_mem hp, (text_meets_iff_meets h hp).mp hmeets⟩
  · intro p' hp' hmeets
    rw [hheld] at hp'
    obtain ⟨p, hp, rfl⟩ := List.mem_map.mp hp'
    exact ⟨p, hp, (text_meets_iff_meets h hp).mpr hmeets⟩
  · intro _ inst hinst t ht
    have hmem : t ∈ (attr_instances doc).filterMap (stamp tq.timeproperty) := List.mem_filterMap.mpr ⟨inst, hinst, ht⟩
    have htimes : t ∈ times tq doc := by simp [times, hmem]
    rw [hheld]
    constructor
    · rintro ⟨p, hp, hw⟩
      exact ⟨_, List.mem_map_of_mem hp, (within_iff h hp htimes).mp hw⟩
    · rintro ⟨p', hp', hw⟩
      obtain ⟨p, hp, rfl⟩ := List.mem_map.mp hp'
      exact ⟨p, hp, (within_iff h hp htimes).mpr hw⟩

end Spelling

section Failing

/-- A scope replaced half a second after an instance. -/
def relabelled : Value :=
  .object [("id", .string "urn:ngsi-ld:Pump:1"),
    ("scope", .array [
      .object [("type", .string "Property"), ("value", .string "/North"), ("modifiedAt", .string "2026-01-01T00:00:00Z")],
      .object [("type", .string "Property"), ("value", .string "/South"), ("modifiedAt", .string "2026-06-01T00:00:00.5Z")]]),
    ("https://example.org/level", .array [
      .object [("type", .string "Property"), ("value", .bool true), ("observedAt", .string "2026-06-01T00:00:00Z")]])]

def summer : TemporalQ := ⟨"between", "2026-05-01T00:00:00Z", some "2026-07-01T00:00:00Z", "observedAt"⟩

/-- The text of half a second past is before the text of the second. -/
theorem north_not_followed : ¬ Follows "/North" summer relabelled := by
  intro h
  have hkept : scope_window_retain "/North" summer relabelled =
      some (.object [("id", .string "urn:ngsi-ld:Pump:1"), ("scope", (relabelled.get "scope").getD .null),
        ("https://example.org/level", .array [])]) := by decide
  exact absurd (h.instances _ hkept) (by decide)

end Failing

end AntaresBroker.Temporal
