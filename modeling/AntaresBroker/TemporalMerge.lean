import AntaresBroker.Slots
import AntaresBroker.Temporal

namespace AntaresBroker.TemporalMerge

open Json Registry Slots

/-- The members taken from the first document that has them. -/
def SHARED : List String := ["id", "type", "scope", "createdAt", "modifiedAt", "deletedAt", "expiresAt"]

section Model

variable (timeprop : String)

def key (inst : Value) : Option (List Char) := Temporal.key timeprop inst

/-- Instances of one dataset and one instant are in conflict. -/
def slot (inst : Value) : Option (List Char × Option Value) := (key timeprop inst).map (fun ts => (ts, inst.get "datasetId"))

def modified (inst : Value) : List Char := dt_key (((inst.get "modifiedAt").bind Value.as_str).getD "")

/-- One incoming instance; an auxiliary one fills only an instant that has none. -/
def place (aux : Bool) (cur : List Value) (ni : Value) : List Value :=
  if aux = true ∧ (key timeprop ni).isSome = true ∧ ∃ ci ∈ cur, key timeprop ci = key timeprop ni then cur
  else resolve (slot timeprop) modified ni cur

def incoming (v : Value) : List Value := v.as_array.getD [v]

/-- The instances of an attribute that the target has not are taken over whole. -/
def merge_attribute (aux : Bool) (held : Option Value) (v : Value) : List Value :=
  match held.bind Value.as_array with
  | none => incoming v
  | some cur => (incoming v).foldl (place timeprop aux) cur

def merge_member (aux : Bool) (target : Map) (p : String × Value) : Map :=
  if p.1 ∈ SHARED then (if (target.lookup p.1).isSome then target else SortedMap.insert p.1 p.2 target)
  else SortedMap.insert p.1 (.array (merge_attribute timeprop aux (target.lookup p.1) p.2)) target

def merge_temporal_docs (base add : Value) (aux : Bool) : Value :=
  match base, add with
  | .object target, .object source => .object (source.foldl (merge_member timeprop aux) target)
  | base, _ => base

end Model

/-- A Temporal Evolution: every attribute is the list of its instances. -/
structure Evolution where
  members : Map
  sorted : SortedMap.Sorted members
  arrays : ∀ p ∈ members, p.1 ∉ SHARED → ∃ insts, p.2 = .array insts

namespace Evolution

def doc (e : Evolution) : Value := .object e.members

end Evolution

section Folding

variable (timeprop : String)

/-- The instances of an attribute, if there is one. -/
def listed (doc : Value) (k : String) : Option (List Value) := (doc.get k).bind Value.as_array

def instances (doc : Value) (k : String) : List Value := (listed doc k).getD []

/-- The documents of the sources one after another. -/
def merged (aux : Bool) (base : Value) (rs : List Evolution) : Value :=
  rs.foldl (fun b r => merge_temporal_docs timeprop b r.doc aux) base

/-- Everything the sources have of an attribute. -/
def sources (base : Evolution) (rs : List Evolution) (k : String) : List Value :=
  instances base.doc k ++ rs.flatMap (fun r => instances r.doc k)

/-- Conflicts are settled by the time of modification, whichever source answers
first, and auxiliary data replaces nothing. -/
structure Resolves (base : Evolution) (rs : List Evolution) : Prop where
  any_order : ∀ rs', rs'.Perm rs → ∀ k ∉ SHARED, ∀ i,
    i ∈ instances (merged timeprop false base.doc rs') k ↔ i ∈ instances (merged timeprop false base.doc rs) k
  one : ∀ rs', rs'.Perm rs → ∀ k ∉ SHARED, ∀ j ∈ sources base rs k, (key timeprop j).isSome = true →
    ∃ m ∈ sources base rs k,
      (instances (merged timeprop false base.doc rs') k).filter (fun i => slot timeprop i = slot timeprop j) = [m] ∧
      ∀ i ∈ sources base rs k, slot timeprop i = slot timeprop j → modified i ≤ modified m
  untimed : ∀ rs', rs'.Perm rs → ∀ k ∉ SHARED,
    ((instances (merged timeprop false base.doc rs') k).filter (fun i => (key timeprop i).isNone)).Perm
      ((sources base rs k).filter (fun i => (key timeprop i).isNone))
  auxiliary : ∀ rs', rs'.Perm rs → ∀ (others : List Evolution) (a : Evolution), ∀ k ∉ SHARED,
    ∃ added, instances (merged timeprop true (merged timeprop false base.doc rs') (others ++ [a])) k =
        instances (merged timeprop true (merged timeprop false base.doc rs') others) k ++ added ∧
      ∀ i ∈ added, i ∈ instances a.doc k ∧ ∀ ts, key timeprop i = some ts →
        ∀ j ∈ sources base (rs ++ others) k, key timeprop j ≠ some ts

/-- No two instances are in conflict in a document whose instances are taken over whole:
the base, and a remote one for an attribute that the base has not. -/
structure Unmixed (base : Evolution) (rs : List Evolution) : Prop where
  own : ∀ k ∉ SHARED, Clear (slot timeprop) (instances base.doc k)
  whole : ∀ k ∉ SHARED, listed base.doc k = none → ∀ r ∈ rs, Clear (slot timeprop) (instances r.doc k)

end Folding

section Attributes

variable {timeprop : String} {k : String}

theorem Evolution.listed_of_lookup (e : Evolution) (hk : k ∉ SHARED) {v : Value} (h : e.members.lookup k = some v) :
    listed e.doc k = some (incoming v) := by
  obtain ⟨insts, rfl⟩ := e.arrays (k, v) (SortedMap.mem_of_lookup h) hk
  rw [listed, Evolution.doc, Value.get, h]
  rfl

/-- What a merge leaves under a name. -/
def merge_value (timeprop : String) (aux : Bool) (k : String) (old : Option Value) (v : Value) : Option Value :=
  if k ∈ SHARED then some (old.getD v) else some (.array (merge_attribute timeprop aux old v))

variable (timeprop) in
theorem lookup_merge_member (aux : Bool) (target : Map) (p : String × Value) (k : String) :
    (merge_member timeprop aux target p).lookup k =
      if k = p.1 then merge_value timeprop aux k (target.lookup k) p.2 else target.lookup k := by
  rw [merge_member, merge_value]
  by_cases h : k = p.1
  · rw [if_pos h, ← h]
    split_ifs with hk hold
    · obtain ⟨v, hv⟩ := Option.isSome_iff_exists.mp hold
      rw [hv, Option.getD_some]
    · rw [SortedMap.lookup_insert, if_pos rfl, Option.not_isSome_iff_eq_none.mp hold, Option.getD_none]
    · rw [SortedMap.lookup_insert, if_pos rfl]
  · rw [if_neg h]
    split_ifs
    · rfl
    · rw [SortedMap.lookup_insert, if_neg h]
    · rw [SortedMap.lookup_insert, if_neg h]

/-- A merge as one attribute sees it. -/
def combine (timeprop : String) (aux : Bool) (cur new : Option (List Value)) : Option (List Value) :=
  match cur, new with
  | cur, none => cur
  | none, some new => some new
  | some cur, some new => some (new.foldl (place timeprop aux) cur)

theorem listed_merge (aux : Bool) (hk : k ∉ SHARED) (target : Map) (e : Evolution) :
    listed (merge_temporal_docs timeprop (.object target) e.doc aux) k =
      combine timeprop aux (listed (.object target) k) (listed e.doc k) := by
  have hmerge : listed (merge_temporal_docs timeprop (.object target) e.doc aux) k =
      ((e.members.lookup k).elim (target.lookup k) (merge_value timeprop aux k (target.lookup k))).bind Value.as_array :=
    congrArg (fun o => Option.bind o Value.as_array)
      (SortedMap.lookup_foldl (lookup_merge_member timeprop aux) e.sorted target k)
  rw [hmerge]
  cases hv : e.members.lookup k with
  | none =>
      have hnone : listed e.doc k = none := by rw [listed, Evolution.doc, Value.get, hv]; rfl
      rw [hnone]
      cases hold : listed (.object target) k <;> exact hold
  | some v =>
      rw [e.listed_of_lookup hk hv, Option.elim_some, merge_value, if_neg hk, Option.bind_some]
      cases hold : listed (.object target) k with
      | none =>
          have hbind : (target.lookup k).bind Value.as_array = none := hold
          rw [combine, merge_attribute, hbind]
          rfl
      | some cur =>
          have hbind : (target.lookup k).bind Value.as_array = some cur := hold
          rw [combine, merge_attribute, hbind]
          rfl

variable (timeprop) in
theorem merged_object (aux : Bool) (target : Map) (rs : List Evolution) :
    ∃ target', merged timeprop aux (.object target) rs = .object target' := by
  induction rs generalizing target with
  | nil => exact ⟨target, rfl⟩
  | cons r rs ih => exact ih _

theorem listed_merged (aux : Bool) (hk : k ∉ SHARED) (target : Map) (rs : List Evolution) :
    listed (merged timeprop aux (.object target) rs) k =
      (rs.map (fun r => listed r.doc k)).foldl (combine timeprop aux) (listed (.object target) k) := by
  induction rs generalizing target with
  | nil => rfl
  | cons r rs ih =>
      rw [List.map_cons, List.foldl_cons, ← listed_merge aux hk]
      exact ih _

end Attributes

section Sources

variable {timeprop : String}

theorem place_false (cur : List Value) (ni : Value) : place timeprop false cur ni = resolve (slot timeprop) modified ni cur :=
  if_neg fun h => nomatch h.1

theorem foldl_place_false (cur new : List Value) :
    new.foldl (place timeprop false) cur = absorb (slot timeprop) modified cur new :=
  List.foldl_ext _ _ _ fun cur ni _ => place_false cur ni

theorem key_isNone (i : Value) : (slot timeprop i).isNone = (key timeprop i).isNone := by
  rw [slot]
  cases key timeprop i <;> rfl

theorem combine_resolved {all : List Value} {cur new : Option (List Value)}
    (h : Resolved (slot timeprop) modified all (cur.getD []))
    (hnone : cur = none → all = [] ∧ Clear (slot timeprop) (new.getD [])) :
    Resolved (slot timeprop) modified (all ++ new.getD []) ((combine timeprop false cur new).getD []) := by
  cases new with
  | none =>
      rw [Option.getD_none, List.append_nil]
      cases cur <;> exact h
  | some new =>
      cases cur with
      | none =>
          obtain ⟨rfl, hclear⟩ := hnone rfl
          exact hclear.resolved
      | some cur =>
          rw [combine, foldl_place_false, Option.getD_some, Option.getD_some]
          exact h.absorb new

/-- What is taken over whole being without conflict, the rest is settled one instance at a time. -/
theorem foldl_resolved (ls : List (Option (List Value))) {all : List Value} {cur : Option (List Value)}
    (h : Resolved (slot timeprop) modified all (cur.getD []))
    (hnone : cur = none → all = [] ∧ ∀ l ∈ ls, Clear (slot timeprop) (l.getD [])) :
    Resolved (slot timeprop) modified (all ++ ls.flatMap (fun l => l.getD []))
      ((ls.foldl (combine timeprop false) cur).getD []) := by
  induction ls generalizing all cur with
  | nil =>
      rw [List.flatMap_nil, List.append_nil]
      exact h
  | cons l ls ih =>
      have hstep := combine_resolved h fun hcur => ⟨(hnone hcur).1, (hnone hcur).2 l List.mem_cons_self⟩
      rw [List.foldl_cons, List.flatMap_cons, ← List.append_assoc]
      refine ih hstep fun hcombined => ?_
      cases l with
      | none =>
          have hcur : cur = none := by cases cur <;> exact hcombined
          exact ⟨by rw [(hnone hcur).1]; rfl, fun l hl => (hnone hcur).2 l (List.mem_cons_of_mem _ hl)⟩
      | some l => cases cur <;> cases hcombined

theorem clear_foldl_iff (ls : List (Option (List Value))) (cur : List Value) :
    Clear (slot timeprop) ((ls.foldl (combine timeprop false) (some cur)).getD []) ↔ Clear (slot timeprop) cur := by
  induction ls generalizing cur with
  | nil => exact Iff.rfl
  | cons l ls ih =>
      rw [List.foldl_cons]
      cases l with
      | none => exact ih cur
      | some l =>
          rw [combine, foldl_place_false, ih]
          exact clear_absorb_iff l

theorem mem_foldl_place {aux : Bool} {new cur : List Value} {i : Value} (hi : i ∈ new.foldl (place timeprop aux) cur) :
    i ∈ cur ∨ i ∈ new := by
  induction new generalizing cur with
  | nil => exact Or.inl hi
  | cons ni new ih =>
      rcases ih hi with hi | hi
      · rw [place] at hi
        split_ifs at hi
        · exact Or.inl hi
        · rcases mem_resolve hi with hi | rfl
          · exact Or.inl hi
          · exact Or.inr List.mem_cons_self
      · exact Or.inr (List.mem_cons_of_mem ni hi)

/-- The instants held are those of all sources. -/
theorem instants_foldl_place {aux : Bool} {new cur : List Value} {ts : List Char}
    (h : (∃ i ∈ cur, key timeprop i = some ts) ∨ ∃ i ∈ new, key timeprop i = some ts) :
    ∃ i ∈ new.foldl (place timeprop aux) cur, key timeprop i = some ts := by
  induction new generalizing cur with
  | nil => exact h.resolve_right fun ⟨i, hi, _⟩ => nomatch hi
  | cons ni new ih =>
      apply ih
      have hslot {i : Value} : key timeprop i = some ts ↔ slot timeprop i = some (ts, i.get "datasetId") := by
        rw [slot]
        cases key timeprop i <;> simp
      have hkey {i : Value} {d : Option Value} (hs : slot timeprop i = some (ts, d)) : key timeprop i = some ts := by
        obtain ⟨u, hu, heq⟩ := Option.map_eq_some_iff.mp hs
        rw [hu, (Prod.mk.inj heq).1]
      by_cases hskip : aux = true ∧ (key timeprop ni).isSome = true ∧ ∃ ci ∈ cur, key timeprop ci = key timeprop ni
      · rw [place, if_pos hskip]
        rcases h with h | ⟨i, hi, hts⟩
        · exact Or.inl h
        · rcases List.mem_cons.mp hi with rfl | hi
          · obtain ⟨ci, hci, heq⟩ := hskip.2.2
            exact Or.inl ⟨ci, hci, heq.trans hts⟩
          · exact Or.inr ⟨i, hi, hts⟩
      · rw [place, if_neg hskip]
        rcases h with ⟨i, hi, hts⟩ | ⟨i, hi, hts⟩
        · obtain ⟨j, hj, hjs⟩ := exists_slot_resolve modified ni cur (Or.inl ⟨i, hi, hslot.mp hts⟩)
          exact Or.inl ⟨j, hj, hkey hjs⟩
        · rcases List.mem_cons.mp hi with rfl | hi
          · obtain ⟨j, hj, hjs⟩ := exists_slot_resolve modified i cur (Or.inr (hslot.mp hts))
            exact Or.inl ⟨j, hj, hkey hjs⟩
          · exact Or.inr ⟨i, hi, hts⟩

variable (timeprop) in
/-- Auxiliary instances stand behind those there are, at instants of their own. -/
theorem foldl_place_true (new cur : List Value) : ∃ added, new.foldl (place timeprop true) cur = cur ++ added ∧
    ∀ i ∈ added, i ∈ new ∧ ∀ ts, key timeprop i = some ts → ∀ j ∈ cur, key timeprop j ≠ some ts := by
  induction new generalizing cur with
  | nil => exact ⟨[], (List.append_nil cur).symm, List.forall_mem_nil _⟩
  | cons ni new ih =>
      by_cases hskip : (key timeprop ni).isSome = true ∧ ∃ ci ∈ cur, key timeprop ci = key timeprop ni
      · obtain ⟨added, heq, hadded⟩ := ih cur
        refine ⟨added, ?_, fun i hi => (hadded i hi).imp_left (List.mem_cons_of_mem ni)⟩
        rw [List.foldl_cons, place, if_pos ⟨rfl, hskip⟩]
        exact heq
      · have hplace : place timeprop true cur ni = cur ++ [ni] := by
          rw [place, if_neg fun h => hskip h.2]
          by_cases hkey : key timeprop ni = none
          · exact resolve_none (by rw [slot, hkey]; rfl)
          · refine resolve_fresh fun i hi hslot => hskip ⟨Option.isSome_iff_ne_none.mpr hkey, i, hi, ?_⟩
            have hfst := congrArg (Option.map Prod.fst) hslot
            rw [slot, slot, Option.map_map, Option.map_map] at hfst
            simpa [Function.comp_def] using hfst
        obtain ⟨added, heq, hadded⟩ := ih (cur ++ [ni])
        refine ⟨ni :: added, ?_, List.forall_mem_cons.mpr ⟨⟨List.mem_cons_self, fun ts hts j hj hjs => ?_⟩, fun i hi => ?_⟩⟩
        · rw [List.foldl_cons, hplace, heq, List.append_assoc, List.singleton_append]
        · exact hskip ⟨by rw [hts]; rfl, j, hj, hjs.trans hts.symm⟩
        · obtain ⟨hmem, hfree⟩ := hadded i hi
          exact ⟨List.mem_cons_of_mem ni hmem, fun ts hts j hj => hfree ts hts j (List.mem_append_left _ hj)⟩

end Sources

section Merging

variable {timeprop : String} {base : Evolution} {rs rs' : List Evolution} {k : String}

theorem instances_merged (aux : Bool) (hk : k ∉ SHARED) (target : Map) (rs : List Evolution) :
    instances (merged timeprop aux (.object target) rs) k =
      ((rs.map (fun r => listed r.doc k)).foldl (combine timeprop aux) (listed (.object target) k)).getD [] := by
  rw [instances, listed_merged aux hk]

theorem sources_eq (base : Evolution) (rs : List Evolution) (k : String) :
    sources base rs k = (listed base.doc k).getD [] ++ (rs.map (fun r => listed r.doc k)).flatMap (fun l => l.getD []) := by
  rw [List.flatMap_map]
  rfl

theorem sources_perm (h : rs'.Perm rs) : (sources base rs' k).Perm (sources base rs k) :=
  (h.flatMap_right _).append_left _

theorem merged_resolved (hu : Unmixed timeprop base rs) (hperm : rs'.Perm rs) (hk : k ∉ SHARED) :
    Resolved (slot timeprop) modified (sources base rs k) (instances (merged timeprop false base.doc rs') k) := by
  refine Resolved.congr ?_ (sources_perm hperm)
  rw [sources_eq, Evolution.doc, instances_merged false hk]
  refine foldl_resolved _ (hu.own k hk).resolved fun hnone => ⟨by rw [← Evolution.doc] at hnone; rw [← Evolution.doc, hnone]; rfl, fun l hl => ?_⟩
  obtain ⟨r, hr, rfl⟩ := List.mem_map.mp hl
  exact hu.whole k hk hnone r (hperm.subset hr)

theorem mem_combine {aux : Bool} {cur new : Option (List Value)} {i : Value} (hi : i ∈ (combine timeprop aux cur new).getD []) :
    i ∈ cur.getD [] ∨ i ∈ new.getD [] := by
  cases new with
  | none => cases cur <;> exact Or.inl hi
  | some new =>
      cases cur with
      | none => exact Or.inr hi
      | some cur => exact mem_foldl_place hi

theorem instants_combine {aux : Bool} {cur new : Option (List Value)} {ts : List Char}
    (h : (∃ i ∈ cur.getD [], key timeprop i = some ts) ∨ ∃ i ∈ new.getD [], key timeprop i = some ts) :
    ∃ i ∈ (combine timeprop aux cur new).getD [], key timeprop i = some ts := by
  cases new with
  | none =>
      have hcur := h.resolve_right fun ⟨i, hi, _⟩ => by cases hi
      cases cur <;> exact hcur
  | some new =>
      cases cur with
      | none => exact h.resolve_left fun ⟨i, hi, _⟩ => by cases hi
      | some cur => exact instants_foldl_place h

theorem mem_merged {aux : Bool} (hk : k ∉ SHARED) {target : Map} {rs : List Evolution} {i : Value}
    (hi : i ∈ instances (merged timeprop aux (.object target) rs) k) :
    i ∈ instances (.object target) k ∨ ∃ r ∈ rs, i ∈ instances r.doc k := by
  induction rs generalizing target with
  | nil => exact Or.inl hi
  | cons r rs ih =>
      rcases ih hi with hi | ⟨r', hr', hi⟩
      · have hstep : i ∈ instances (merge_temporal_docs timeprop (.object target) r.doc aux) k := hi
        rw [instances, listed_merge aux hk] at hstep
        exact (mem_combine hstep).imp_right fun hi => ⟨r, List.mem_cons_self, hi⟩
      · exact Or.inr ⟨r', List.mem_cons_of_mem r hr', hi⟩

theorem instants_merged {aux : Bool} (hk : k ∉ SHARED) {target : Map} {rs : List Evolution} {ts : List Char}
    (h : (∃ i ∈ instances (.object target) k, key timeprop i = some ts) ∨
      ∃ r ∈ rs, ∃ i ∈ instances r.doc k, key timeprop i = some ts) :
    ∃ i ∈ instances (merged timeprop aux (.object target) rs) k, key timeprop i = some ts := by
  induction rs generalizing target with
  | nil => exact h.resolve_right fun ⟨r, hr, _⟩ => by cases hr
  | cons r rs ih =>
      have hstep (hin : (∃ i ∈ instances (.object target) k, key timeprop i = some ts) ∨
          ∃ i ∈ instances r.doc k, key timeprop i = some ts) :
          ∃ i ∈ instances (merge_temporal_docs timeprop (.object target) r.doc aux) k, key timeprop i = some ts := by
        rw [instances, listed_merge aux hk]
        exact instants_combine hin
      apply ih
      rcases h with h | ⟨r', hr', h⟩
      · exact Or.inl (hstep (Or.inl h))
      · rcases List.mem_cons.mp hr' with rfl | hr'
        · exact Or.inl (hstep (Or.inr h))
        · exact Or.inr ⟨r', hr', h⟩

variable (timeprop) in
/-- Whatever has been merged, an auxiliary evolution only adds, and only at instants without an instance. -/
theorem auxiliary_adds (hk : k ∉ SHARED) (target : Map) (a : Evolution) :
    ∃ added, instances (merge_temporal_docs timeprop (.object target) a.doc true) k = instances (.object target) k ++ added ∧
      ∀ i ∈ added, i ∈ instances a.doc k ∧ ∀ ts, key timeprop i = some ts →
        ∀ j ∈ instances (.object target) k, key timeprop j ≠ some ts := by
  rw [instances, listed_merge true hk, instances]
  cases hnew : listed a.doc k with
  | none =>
      refine ⟨[], ?_, List.forall_mem_nil _⟩
      rw [List.append_nil]
      cases listed (.object target) k <;> rfl
  | some new =>
      have hin : instances a.doc k = new := by rw [instances, hnew]; rfl
      cases hcur : listed (.object target) k with
      | none => exact ⟨new, rfl, fun i hi => ⟨hin ▸ hi, fun ts _ j hj => nomatch hj⟩⟩
      | some cur =>
          obtain ⟨added, heq, hadded⟩ := foldl_place_true timeprop new cur
          exact ⟨added, heq, fun i hi => ⟨hin ▸ (hadded i hi).1, (hadded i hi).2⟩⟩

theorem auxiliary_fills (hperm : rs'.Perm rs) (hk : k ∉ SHARED) (others : List Evolution) (a : Evolution) :
    ∃ added, instances (merged timeprop true (merged timeprop false base.doc rs') (others ++ [a])) k =
        instances (merged timeprop true (merged timeprop false base.doc rs') others) k ++ added ∧
      ∀ i ∈ added, i ∈ instances a.doc k ∧ ∀ ts, key timeprop i = some ts →
        ∀ j ∈ sources base (rs ++ others) k, key timeprop j ≠ some ts := by
  obtain ⟨first, hfirst⟩ := merged_object timeprop false base.members rs'
  obtain ⟨target, htarget⟩ := merged_object timeprop true first others
  rw [Evolution.doc, hfirst, htarget]
  obtain ⟨added, heq, hadded⟩ := auxiliary_adds timeprop hk target a
  refine ⟨added, ?_, fun i hi => ⟨(hadded i hi).1, fun ts hts j hj hjs => ?_⟩⟩
  · rw [← heq, ← htarget, merged, List.foldl_append]
    rfl
  · -- an instant of any source is one of what has been merged
    have hheld : ∃ i ∈ instances (.object target) k, key timeprop i = some ts := by
      rw [← htarget]
      refine instants_merged hk ?_
      rw [← hfirst]
      rcases List.mem_append.mp hj with hj | hj
      · exact Or.inl (instants_merged hk (Or.inl ⟨j, hj, hjs⟩))
      · obtain ⟨r, hr, hj⟩ := List.mem_flatMap.mp hj
        rcases List.mem_append.mp hr with hr | hr
        · exact Or.inl (instants_merged hk (Or.inr ⟨r, hperm.symm.subset hr, j, hj, hjs⟩))
        · exact Or.inr ⟨r, hr, j, hj, hjs⟩
    obtain ⟨c, hc, hcs⟩ := hheld
    exact (hadded i hi).2 ts hts c hc hcs

theorem slot_of_key {i : Value} (h : (key timeprop i).isSome = true) : ∃ s, slot timeprop i = some s := by
  obtain ⟨ts, hts⟩ := Option.isSome_iff_exists.mp h
  exact ⟨_, by rw [slot, hts]; rfl⟩

theorem resolves_of_unmixed (hd : ∀ k ∉ SHARED, Distinct (slot timeprop) modified (sources base rs k))
    (hu : Unmixed timeprop base rs) : Resolves timeprop base rs where
  any_order rs' hperm k hk := (merged_resolved hu hperm hk).mem_iff (hd k hk) (merged_resolved hu (List.Perm.refl rs) hk)
  one rs' hperm k hk j hj hkey := by
    have hres := merged_resolved hu hperm hk
    obtain ⟨s, hs⟩ := slot_of_key hkey
    obtain ⟨m, hm, hms⟩ := hres.covers j hj s hs
    rw [hs]
    exact ⟨m, hres.mem m hm, hres.clear.filter_eq hm hms, fun i hi his => hres.latest m hm s hms i hi his⟩
  untimed rs' hperm k hk := by
    have hres := (merged_resolved hu hperm hk).untimed
    simp only [key_isNone] at hres
    exact hres
  auxiliary rs' hperm others a k hk := auxiliary_fills hperm hk others a

theorem clear_of_resolves (h : Resolves timeprop base rs) (hperm : rs'.Perm rs) (hk : k ∉ SHARED) :
    Clear (slot timeprop) (instances (merged timeprop false base.doc rs') k) := by
  refine clear_of_filter fun i hi s his => ?_
  have hin : i ∈ sources base rs k := by
    rcases mem_merged hk hi with hi | ⟨r, hr, hi⟩
    · exact List.mem_append_left _ hi
    · exact List.mem_append_right _ (List.mem_flatMap.mpr ⟨r, hperm.subset hr, hi⟩)
  have hkey : (key timeprop i).isSome = true := by
    obtain ⟨ts, hts, -⟩ := Option.map_eq_some_iff.mp his
    rw [hts]
    rfl
  obtain ⟨m, -, hm, -⟩ := h.one rs' hperm k hk i hin hkey
  rw [his] at hm
  exact ⟨m, hm⟩

theorem unmixed_of_resolves (h : Resolves timeprop base rs) : Unmixed timeprop base rs where
  own k hk := by
    have hclear := clear_of_resolves h (List.Perm.refl rs) hk
    rw [Evolution.doc, instances_merged false hk] at hclear
    rw [instances, Evolution.doc]
    cases hbase : listed (.object base.members) k with
    | none => exact List.nodup_nil
    | some cur =>
        rw [hbase, clear_foldl_iff] at hclear
        exact hclear
  whole k hk hbase r hr := by
    obtain ⟨s, t, rfl⟩ := List.append_of_mem hr
    have hperm : (r :: (s ++ t)).Perm (s ++ r :: t) := List.perm_middle.symm
    have hclear := clear_of_resolves h hperm hk
    rw [Evolution.doc] at hbase hclear
    rw [instances_merged false hk, hbase, List.map_cons, List.foldl_cons] at hclear
    rw [instances]
    cases hr : listed r.doc k with
    | none => exact List.nodup_nil
    | some l =>
        rw [hr, combine, clear_foldl_iff] at hclear
        exact hclear

/-- Where instances of one slot differ in their time of modification, merging settles every
conflict exactly when none stands in a document whose instances are taken over whole. -/
theorem resolves_iff (hd : ∀ k ∉ SHARED, Distinct (slot timeprop) modified (sources base rs k)) :
    Resolves timeprop base rs ↔ Unmixed timeprop base rs :=
  ⟨unmixed_of_resolves, resolves_of_unmixed hd⟩

end Merging

section Readings

/-- The evolution of one attribute. -/
def single (k : String) (insts : List Value) : Evolution where
  members := [(k, .array insts)]
  sorted := List.pairwise_singleton _ _
  arrays p hp _ := ⟨insts, by rw [List.mem_singleton.mp hp]⟩

def TEMPERATURE : String := "https://example.org/temperature"

/-- A reading of one instant, however it is spelled. -/
def reading (observed modified : String) : Value :=
  .object [("type", .string "Property"), ("modifiedAt", .string modified), ("observedAt", .string observed)]

def first : Value := reading "2026-01-01T00:00:00Z" "2026-01-02T00:00:00Z"

def corrected : Value := reading "2026-01-01T00:00:00.0Z" "2026-01-03T00:00:00Z"

theorem listed_single (k : String) (insts : List Value) (l : String) :
    listed (single k insts).doc l = if l = k then some insts else none := by
  rw [listed, Evolution.doc, Value.get, single, SortedMap.lookup_cons]
  split_ifs <;> rfl

theorem instances_single (k : String) (insts : List Value) (l : String) :
    instances (single k insts).doc l = if l = k then insts else [] := by
  rw [instances, listed_single]
  split_ifs <;> rfl

theorem clear_of_length_le_one {l : List Value} (h : l.length ≤ 1) (timeprop : String) : Clear (slot timeprop) l := by
  match l, h with
  | [], _ => exact List.nodup_nil
  | [i], _ =>
      rw [Clear, List.filterMap_cons]
      cases slot timeprop i <;> simp

theorem distinct_pair : Distinct (slot "observedAt") modified [first, corrected] := by
  refine List.pairwise_pair.mpr fun s _ _ => ?_
  decide

/-- A reading and its correction by another source. -/
theorem correction_resolves : Resolves "observedAt" (single TEMPERATURE [first]) [single TEMPERATURE [corrected]] := by
  refine (resolves_iff fun k _ => ?_).mpr ⟨fun k _ => ?_, fun k _ _ r hr => ?_⟩
  · rw [sources, List.flatMap_singleton, instances_single, instances_single]
    split_ifs
    · exact distinct_pair
    · exact List.Pairwise.nil
  · rw [instances_single]
    split_ifs <;> exact clear_of_length_le_one (by decide) _
  · rw [List.mem_singleton.mp hr, instances_single]
    split_ifs <;> exact clear_of_length_le_one (by decide) _

/-- A source with a reading and its correction, for an attribute that the base has not. -/
theorem both_readings_kept :
    (∀ k ∉ SHARED, Distinct (slot "observedAt") modified (sources (single "https://example.org/level" []) [single TEMPERATURE [first, corrected]] k)) ∧
      ¬ Resolves "observedAt" (single "https://example.org/level" []) [single TEMPERATURE [first, corrected]] := by
  refine ⟨fun k _ => ?_, fun h => ?_⟩
  · rw [sources, List.flatMap_singleton, instances_single, instances_single]
    split_ifs
    · exact distinct_pair
    · exact List.Pairwise.nil
    · exact distinct_pair
    · exact List.Pairwise.nil
  · have hnone : listed (single "https://example.org/level" []).doc TEMPERATURE = none := by
      rw [listed_single, if_neg (by decide)]
    have hclear := (unmixed_of_resolves h).whole TEMPERATURE (by decide) hnone _ (List.mem_singleton.mpr rfl)
    rw [instances_single, if_pos rfl] at hclear
    exact absurd hclear (by decide)

end Readings

end AntaresBroker.TemporalMerge
