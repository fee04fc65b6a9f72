import AntaresBroker.BTreeMap
import Mathlib.Data.List.MinMax

namespace AntaresBroker.BTreeMap

variable {κ α σ : Type} [LinearOrder κ] [LinearOrder σ]

def len (m : BTreeMap κ α) : Nat := m.entries.length

theorem len_insert_le (m : BTreeMap κ α) (k : κ) (a : α) : (m.insert k a).len ≤ m.len + 1 := by
  have h (l : List (κ × α)) : (SortedMap.insert k a l).length ≤ l.length + 1 := by
    induction l with
    | nil => simp [SortedMap.insert]
    | cons p l ih =>
        unfold SortedMap.insert
        split_ifs
        · simp
        · simp
        · simpa using ih
  exact h m.entries

/-- A new value under a key that is there takes no room. -/
theorem len_insert (m : BTreeMap κ α) {k : κ} (hk : (m.get k).isSome) (a : α) : (m.insert k a).len = m.len := by
  have h (l : List (κ × α)) (hs : SortedMap.Sorted l) (hl : (l.lookup k).isSome) :
      (SortedMap.insert k a l).length = l.length := by
    induction l with
    | nil => simp at hl
    | cons p l ih =>
        obtain ⟨hp, hs⟩ := SortedMap.sorted_cons.mp hs
        unfold SortedMap.insert
        split_ifs with hlt heq
        · have hnone := SortedMap.lookup_eq_none_of_lt (k := k) (m := p :: l) (by
            rintro q (_ | ⟨_, hq⟩)
            · exact hlt
            · exact hlt.trans (hp q hq))
          rw [hnone] at hl
          cases hl
        · rfl
        · rw [SortedMap.lookup_cons, if_neg heq] at hl
          exact congrArg (· + 1) (ih hs hl)
  exact h m.entries m.sorted hk

theorem len_remove_le (m : BTreeMap κ α) (k : κ) : (m.remove k).len ≤ m.len := List.length_filter_le _ _

theorem len_remove_lt {m : BTreeMap κ α} {k : κ} (hk : (m.get k).isSome) : (m.remove k).len < m.len := by
  obtain ⟨a, ha⟩ := Option.isSome_iff_exists.mp hk
  exact List.length_filter_lt_length_iff_exists.mpr ⟨(k, a), mem_entries.mpr ha, by simp⟩

section Eviction

variable (max : Nat) (own : κ → Bool) (stamp : κ × α → σ)

/-- The entry of the least stamp among the own ones, among the others where there is none. -/
def victim (m : BTreeMap κ α) : Option κ :=
  let oldest := fun mine : Bool => ((m.entries.filter (fun e => own e.1 = mine)).argmin stamp).map Prod.fst
  (oldest true).or (oldest false)

variable {own stamp}

theorem victim_own {m : BTreeMap κ α} {k : κ} (h : victim own stamp m = some k) :
    (m.get k).isSome ∧ (own k = true ∨ ∀ l, (m.get l).isSome → own l = false) := by
  have hmem (mine : Bool) {e : κ × α} (he : e ∈ (m.entries.filter (fun e => own e.1 = mine)).argmin stamp) :
      (m.get e.1).isSome ∧ own e.1 = mine := by
    obtain ⟨hin, hown⟩ := List.mem_filter.mp (List.argmin_mem he)
    exact ⟨Option.isSome_iff_exists.mpr ⟨e.2, mem_entries.mp hin⟩, of_decide_eq_true hown⟩
  unfold victim at h
  cases hmine : (m.entries.filter (fun e => own e.1 = true)).argmin stamp with
  | some e =>
      simp only [hmine, Option.map_some, Option.some_or, Option.some.injEq] at h
      obtain ⟨hin, hown⟩ := hmem true hmine
      exact h ▸ ⟨hin, .inl hown⟩
  | none =>
      simp only [hmine, Option.map_none, Option.none_or, Option.map_eq_some_iff] at h
      obtain ⟨e, he, rfl⟩ := h
      refine ⟨(hmem false he).1, .inr fun l hl => ?_⟩
      obtain ⟨a, ha⟩ := Option.isSome_iff_exists.mp hl
      have hnil := List.argmin_eq_none.mp hmine
      have hno := List.filter_eq_nil_iff.mp hnil (l, a) (mem_entries.mpr ha)
      simpa using hno

variable (own stamp) in
theorem victim_isSome {m : BTreeMap κ α} (h : 0 < m.len) : (victim own stamp m).isSome := by
  obtain ⟨e, he⟩ := List.exists_mem_of_length_pos h
  have hargmin (mine : Bool) (hown : own e.1 = mine) :
      ((m.entries.filter (fun e => own e.1 = mine)).argmin stamp).isSome := by
    rw [← Option.ne_none_iff_isSome, Ne, List.argmin_eq_none]
    intro hnil
    exact List.filter_eq_nil_iff.mp hnil e he (decide_eq_true hown)
  simp only [victim, Option.isSome_or, Option.isSome_map, Bool.or_eq_true]
  cases hown : own e.1 with
  | true => exact .inl (hargmin true hown)
  | false => exact .inr (hargmin false hown)

variable (own stamp)

/-- Entries are dropped one by one while the map is full. -/
def evict (m : BTreeMap κ α) : BTreeMap κ α :=
  if max ≤ m.len then
    match _h : victim own stamp m with
    | none => m
    | some k => evict (m.remove k)
  else m
termination_by m.len
decreasing_by exact len_remove_lt (victim_own _h).1

variable {own stamp max}

theorem evict_of_lt {m : BTreeMap κ α} (h : m.len < max) : evict max own stamp m = m := by
  rw [evict, if_neg (Nat.not_le.mpr h)]

variable (own stamp) in
/-- A map that is just full loses one entry, an own one if there is any. -/
theorem evict_full {m : BTreeMap κ α} (hmax : 0 < max) (h : m.len = max) :
    ∃ k, evict max own stamp m = m.remove k ∧ (m.get k).isSome ∧
      (own k = true ∨ ∀ l, (m.get l).isSome → own l = false) := by
  obtain ⟨k, hk⟩ := Option.isSome_iff_exists.mp (victim_isSome own stamp (h ▸ hmax))
  obtain ⟨hin, hown⟩ := victim_own hk
  refine ⟨k, ?_, hin, hown⟩
  rw [evict, if_pos h.ge]
  have hlt := len_remove_lt hin
  split
  · rename_i hnone
    rw [hk] at hnone
    cases hnone
  · rename_i l hl
    rw [hk] at hl
    injection hl with hl
    subst hl
    exact evict_of_lt (h ▸ hlt)

theorem evict_len {m : BTreeMap κ α} (hmax : 0 < max) (h : m.len ≤ max) : (evict max own stamp m).len < max := by
  rcases h.lt_or_eq with hlt | heq
  · rw [evict_of_lt hlt]
    exact hlt
  · obtain ⟨k, hk, hin, -⟩ := evict_full own stamp hmax heq
    rw [hk]
    exact heq ▸ len_remove_lt hin

theorem evict_get {m : BTreeMap κ α} (hmax : 0 < max) (h : m.len ≤ max) {k : κ} {a : α}
    (hk : (evict max own stamp m).get k = some a) : m.get k = some a := by
  rcases h.lt_or_eq with hlt | heq
  · rwa [evict_of_lt hlt] at hk
  · obtain ⟨l, hl, -⟩ := evict_full own stamp hmax heq
    rw [hl, get_remove] at hk
    split_ifs at hk
    exact hk

/-- What an eviction took: the map was full, and the entry an own one or none of them is. -/
theorem evict_lost {m : BTreeMap κ α} (hmax : 0 < max) (h : m.len ≤ max) {k : κ} (hk : (m.get k).isSome)
    (hlost : (evict max own stamp m).get k = none) :
    m.len = max ∧ (own k = true ∨ ∀ l, (m.get l).isSome → own l = false) := by
  rcases h.lt_or_eq with hlt | heq
  · rw [evict_of_lt hlt] at hlost
    simp [hlost] at hk
  · obtain ⟨l, hl, -, hown⟩ := evict_full own stamp hmax heq
    rw [hl, get_remove] at hlost
    split_ifs at hlost with heq'
    · exact ⟨heq, heq' ▸ hown⟩
    · simp [hlost] at hk

end Eviction

end AntaresBroker.BTreeMap
