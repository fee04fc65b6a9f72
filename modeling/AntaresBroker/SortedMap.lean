import Mathlib.Data.List.Basic
import Mathlib.Data.String.Basic
import Mathlib.Order.Basic

namespace AntaresBroker.SortedMap

variable {κ α β : Type} [LinearOrder κ]

/-- Insertion into an association list ordered by key: a key occurs once, and
a second insertion under it replaces the value. -/
def insert (k : κ) (a : α) : List (κ × α) → List (κ × α)
  | [] => [(k, a)]
  | p :: m => if k < p.1 then (k, a) :: p :: m else if k = p.1 then (k, a) :: m else p :: insert k a m

def erase (k : κ) (m : List (κ × α)) : List (κ × α) := m.filter (fun p => p.1 ≠ k)

def Sorted (m : List (κ × α)) : Prop := m.Pairwise (fun p q => p.1 < q.1)

@[simp] theorem sorted_nil : Sorted ([] : List (κ × α)) := List.Pairwise.nil

theorem sorted_cons {p : κ × α} {m : List (κ × α)} :
    Sorted (p :: m) ↔ (∀ q ∈ m, p.1 < q.1) ∧ Sorted m := List.pairwise_cons

theorem lookup_cons (k : κ) (p : κ × α) (m : List (κ × α)) :
    (p :: m).lookup k = if k = p.1 then some p.2 else m.lookup k := by
  obtain ⟨l, a⟩ := p
  by_cases h : k = l
  · simp [h]
  · rw [List.lookup_cons, beq_false_of_ne h, if_neg h]

@[simp] theorem lookup_insert (k l : κ) (a : α) (m : List (κ × α)) :
    (insert k a m).lookup l = if l = k then some a else m.lookup l := by
  induction m with
  | nil => simp [insert, lookup_cons]
  | cons p m ih =>
      rw [insert]
      by_cases hlt : k < p.1
      · rw [if_pos hlt, lookup_cons]
      · by_cases heq : k = p.1
        · rw [if_neg hlt, if_pos heq, lookup_cons, lookup_cons]
          by_cases h : l = k
          · simp [h]
          · simp [h, heq ▸ h]
        · rw [if_neg hlt, if_neg heq, lookup_cons, ih, lookup_cons]
          by_cases h : l = k
          · subst h; simp [heq]
          · simp [h]

/-- A selection of keys, seen at one key. -/
theorem lookup_filter (q : κ → Bool) (m : List (κ × α)) (k : κ) :
    (m.filter (fun p => q p.1)).lookup k = if q k = true then m.lookup k else none := by
  induction m with
  | nil => simp
  | cons p m ih =>
      by_cases hp : q p.1 = true
      · rw [List.filter_cons, if_pos hp, lookup_cons, lookup_cons, ih]
        by_cases h : k = p.1
        · rw [if_pos h, if_pos h, h, if_pos hp]
        · rw [if_neg h, if_neg h]
      · rw [List.filter_cons, if_neg hp, lookup_cons, ih]
        by_cases h : k = p.1
        · rw [h, if_neg hp, if_neg hp]
        · rw [if_neg h]

@[simp] theorem lookup_erase (k l : κ) (m : List (κ × α)) :
    (erase k m).lookup l = if l = k then none else m.lookup l := by
  rw [erase, lookup_filter (fun l => l ≠ k)]
  by_cases h : l = k <;> simp [h]

theorem mem_insert {k : κ} {a : α} {m : List (κ × α)} {q : κ × α} (h : q ∈ insert k a m) :
    q = (k, a) ∨ q ∈ m := by
  induction m with
  | nil => simpa [insert] using h
  | cons p m ih =>
      rw [insert] at h
      split_ifs at h with hlt heq
      · simpa using h
      · rcases List.mem_cons.mp h with rfl | h
        · exact Or.inl rfl
        · exact Or.inr (List.mem_cons_of_mem _ h)
      · rcases List.mem_cons.mp h with rfl | h
        · exact Or.inr List.mem_cons_self
        · exact (ih h).imp_right (List.mem_cons_of_mem _)

theorem sorted_insert (k : κ) (a : α) {m : List (κ × α)} (hm : Sorted m) : Sorted (insert k a m) := by
  induction m with
  | nil => exact List.pairwise_singleton _ _
  | cons p m ih =>
      obtain ⟨hp, hm⟩ := sorted_cons.mp hm
      rw [insert]
      split_ifs with hlt heq
      · refine sorted_cons.mpr ⟨?_, sorted_cons.mpr ⟨hp, hm⟩⟩
        intro q hq
        rcases List.mem_cons.mp hq with rfl | hq
        · exact hlt
        · exact hlt.trans (hp q hq)
      · exact sorted_cons.mpr ⟨fun q hq => heq ▸ hp q hq, hm⟩
      · refine sorted_cons.mpr ⟨?_, ih hm⟩
        intro q hq
        rcases mem_insert hq with rfl | hq
        · exact lt_of_le_of_ne (not_lt.mp hlt) (Ne.symm heq)
        · exact hp q hq

theorem sorted_filter (f : κ × α → Bool) {m : List (κ × α)} (hm : Sorted m) : Sorted (m.filter f) :=
  List.Pairwise.filter f hm

theorem sorted_erase (k : κ) {m : List (κ × α)} (hm : Sorted m) : Sorted (erase k m) :=
  sorted_filter _ hm

theorem mem_of_lookup {k : κ} {a : α} {m : List (κ × α)} (h : m.lookup k = some a) : (k, a) ∈ m := by
  obtain ⟨before, after, he, _⟩ := List.lookup_eq_some_iff.mp h
  simp [he]

theorem lookup_of_mem {k : κ} {a : α} {m : List (κ × α)} (hm : Sorted m) (h : (k, a) ∈ m) :
    m.lookup k = some a := by
  induction m with
  | nil => simp at h
  | cons p m ih =>
      obtain ⟨hp, hm⟩ := sorted_cons.mp hm
      rcases List.mem_cons.mp h with rfl | h
      · simp
      · have hk : k ≠ p.1 := (hp _ h).ne'
        rw [lookup_cons, if_neg hk]
        exact ih hm h

theorem mem_iff_lookup {k : κ} {a : α} {m : List (κ × α)} (hm : Sorted m) :
    (k, a) ∈ m ↔ m.lookup k = some a :=
  ⟨lookup_of_mem hm, mem_of_lookup⟩

theorem lookup_eq_none_of_lt {k : κ} {m : List (κ × α)} (h : ∀ q ∈ m, k < q.1) : m.lookup k = none :=
  List.lookup_eq_none_iff.mpr (fun q hq => by simpa using (h q hq).ne)

/-- An ordered association list is determined by what it answers. -/
theorem ext {m n : List (κ × α)} (hm : Sorted m) (hn : Sorted n)
    (h : ∀ k, m.lookup k = n.lookup k) : m = n := by
  induction m generalizing n with
  | nil =>
      cases n with
      | nil => rfl
      | cons q n => simpa [lookup_cons] using h q.1
  | cons p m ih =>
      cases n with
      | nil => simpa [lookup_cons] using h p.1
      | cons q n =>
          obtain ⟨hp, hm⟩ := sorted_cons.mp hm
          obtain ⟨hq, hn⟩ := sorted_cons.mp hn
          have hkey : p.1 = q.1 := by
            rcases lt_trichotomy p.1 q.1 with hlt | heq | hlt
            · have hnone := lookup_eq_none_of_lt (m := q :: n) (k := p.1) (fun r hr => by
                rcases List.mem_cons.mp hr with rfl | hr
                · exact hlt
                · exact hlt.trans (hq r hr))
              simpa [lookup_cons, hnone] using h p.1
            · exact heq
            · have hnone := lookup_eq_none_of_lt (m := p :: m) (k := q.1) (fun r hr => by
                rcases List.mem_cons.mp hr with rfl | hr
                · exact hlt
                · exact hlt.trans (hp r hr))
              simpa [lookup_cons, hnone] using (h q.1).symm
          have hval : p.2 = q.2 := by simpa [lookup_cons, hkey] using h p.1
          have htail : m = n := by
            refine ih hm hn (fun k => ?_)
            by_cases hk : k = p.1
            · subst hk
              rw [lookup_eq_none_of_lt hp, lookup_eq_none_of_lt (hkey ▸ hq)]
            · have hk' : k ≠ q.1 := hkey ▸ hk
              simpa [lookup_cons, hk, hk'] using h k
          rw [htail, Prod.ext hkey hval]

theorem lookup_map_value (f : κ → α → β) (m : List (κ × α)) (k : κ) :
    (m.map (fun p => (p.1, f p.1 p.2))).lookup k = (m.lookup k).map (f k) := by
  induction m with
  | nil => rfl
  | cons p m ih =>
      rw [List.map_cons, lookup_cons, lookup_cons, ih]
      by_cases h : k = p.1
      · rw [if_pos h, if_pos h, h]
        rfl
      · rw [if_neg h, if_neg h]

/-- A fold that changes one key a step, seen at one key. -/
theorem lookup_foldl {f : List (κ × α) → κ × β → List (κ × α)} {g : κ → Option α → β → Option α}
    (hf : ∀ m p k, (f m p).lookup k = if k = p.1 then g k (m.lookup k) p.2 else m.lookup k) {ps : List (κ × β)}
    (hps : Sorted ps) (m : List (κ × α)) (k : κ) :
    (ps.foldl f m).lookup k = (ps.lookup k).elim (m.lookup k) (g k (m.lookup k)) := by
  induction ps generalizing m with
  | nil => rfl
  | cons p ps ih =>
      rw [sorted_cons] at hps
      rw [List.foldl_cons, ih hps.2, hf, lookup_cons]
      by_cases h : k = p.1
      · rw [if_pos h, if_pos h, h, lookup_eq_none_of_lt hps.1]
        rfl
      · rw [if_neg h, if_neg h]

theorem lookup_map_snd (f : α → β) (m : List (κ × α)) (k : κ) :
    (m.map (fun p => (p.1, f p.2))).lookup k = (m.lookup k).map f := by
  induction m with
  | nil => rfl
  | cons p m ih =>
      rw [List.map_cons, lookup_cons, lookup_cons, ih]
      split_ifs <;> rfl

theorem sorted_map_snd (f : α → β) {m : List (κ × α)} (hm : Sorted m) :
    Sorted (m.map (fun p => (p.1, f p.2))) :=
  List.pairwise_map.mpr hm

end AntaresBroker.SortedMap
