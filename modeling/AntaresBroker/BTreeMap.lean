import AntaresBroker.SortedMap
import Mathlib.Data.List.Induction

namespace AntaresBroker

/-- A finite map by its bindings in the order of their keys. -/
structure BTreeMap (κ α : Type) [LinearOrder κ] where
  entries : List (κ × α)
  sorted : SortedMap.Sorted entries
deriving DecidableEq

namespace BTreeMap

variable {κ α β : Type} [LinearOrder κ]

def empty : BTreeMap κ α := ⟨[], SortedMap.sorted_nil⟩

def get (m : BTreeMap κ α) (k : κ) : Option α := m.entries.lookup k

def insert (m : BTreeMap κ α) (k : κ) (a : α) : BTreeMap κ α :=
  ⟨SortedMap.insert k a m.entries, SortedMap.sorted_insert k a m.sorted⟩

def remove (m : BTreeMap κ α) (k : κ) : BTreeMap κ α :=
  ⟨SortedMap.erase k m.entries, SortedMap.sorted_erase k m.sorted⟩

def filter (p : κ × α → Bool) (m : BTreeMap κ α) : BTreeMap κ α :=
  ⟨m.entries.filter p, SortedMap.sorted_filter p m.sorted⟩

def keys (m : BTreeMap κ α) : List κ := m.entries.map Prod.fst

def values (m : BTreeMap κ α) : List α := m.entries.map Prod.snd

def is_empty (m : BTreeMap κ α) : Bool := m.entries.isEmpty

@[simp] theorem get_empty (k : κ) : (empty : BTreeMap κ α).get k = none := rfl

@[simp] theorem get_insert (m : BTreeMap κ α) (k l : κ) (a : α) :
    (m.insert k a).get l = if l = k then some a else m.get l := SortedMap.lookup_insert k l a m.entries

@[simp] theorem get_remove (m : BTreeMap κ α) (k l : κ) :
    (m.remove k).get l = if l = k then none else m.get l := SortedMap.lookup_erase k l m.entries

theorem mem_entries {m : BTreeMap κ α} {k : κ} {a : α} : (k, a) ∈ m.entries ↔ m.get k = some a :=
  SortedMap.mem_iff_lookup m.sorted

theorem mem_keys {m : BTreeMap κ α} {k : κ} : k ∈ m.keys ↔ (m.get k).isSome := by
  rw [keys, List.mem_map, Option.isSome_iff_exists]
  constructor
  · rintro ⟨⟨l, a⟩, h, rfl⟩
    exact ⟨a, mem_entries.mp h⟩
  · rintro ⟨a, h⟩
    exact ⟨(k, a), mem_entries.mpr h, rfl⟩

/-- A map is determined by what it answers. -/
theorem ext_get {m n : BTreeMap κ α} (h : ∀ k, m.get k = n.get k) : m = n := by
  have he := SortedMap.ext m.sorted n.sorted h
  cases m; cases n; subst he; rfl

theorem eq_empty_of_get {m : BTreeMap κ α} (h : ∀ k, m.get k = none) : m = empty := ext_get h

theorem is_empty_iff {m : BTreeMap κ α} : m.is_empty = true ↔ m = empty := by
  cases m with
  | mk entries sorted => cases entries <;> simp [is_empty, empty]

theorem get_filter (p : κ × α → Bool) (m : BTreeMap κ α) (k : κ) :
    (m.filter p).get k = (m.get k).filter (fun a => p (k, a)) := by
  have hmem (a : α) : (m.filter p).get k = some a ↔ m.get k = some a ∧ p (k, a) = true := by
    rw [← mem_entries, ← mem_entries]
    exact List.mem_filter
  cases h : m.get k with
  | none =>
      rw [Option.filter_none, Option.eq_none_iff_forall_ne_some]
      intro a ha
      simp [((hmem a).mp ha).1] at h
  | some a =>
      cases hp : p (k, a) with
      | true => rw [(hmem a).mpr ⟨h, hp⟩, Option.filter_some, hp, if_pos rfl]
      | false =>
          rw [Option.filter_some, hp, if_neg Bool.false_ne_true, Option.eq_none_iff_forall_ne_some]
          intro b hb
          obtain ⟨hb, hpb⟩ := (hmem b).mp hb
          rw [h] at hb
          injection hb with hb
          simp [← hb, hp] at hpb

section Least

variable {le : α → α → Bool}

/-- Keep, under each key, the first in the order of the values listed there. -/
def least (le : α → α → Bool) (pairs : List (κ × α)) : BTreeMap κ α :=
  pairs.foldl (fun m p =>
    match m.get p.1 with
    | some a => if le a p.2 then m else m.insert p.1 p.2
    | none => m.insert p.1 p.2) empty

/-- `m` holds the first of the values that `pairs` lists under each key. -/
def Least (le : α → α → Bool) (pairs : List (κ × α)) (m : BTreeMap κ α) : Prop :=
  ∀ k, match m.get k with
    | some a => (k, a) ∈ pairs ∧ ∀ b, (k, b) ∈ pairs → le a b
    | none => ∀ b, (k, b) ∉ pairs

theorem Least.keep {pairs : List (κ × α)} {m : BTreeMap κ α} (h : Least le pairs m) {k : κ} {a b : α}
    (ha : m.get k = some a) (hab : le a b) : Least le (pairs ++ [(k, b)]) m := by
  intro l
  have hl := h l
  by_cases hk : l = k
  · subst hk
    rw [ha] at hl ⊢
    refine ⟨List.mem_append_left _ hl.1, fun c hc => ?_⟩
    rcases List.mem_append.mp hc with hc | hc
    · exact hl.2 c hc
    · simp only [List.mem_singleton, Prod.mk.injEq, true_and] at hc
      exact hc ▸ hab
  · cases hm : m.get l with
    | none => rw [hm] at hl; simpa [hk] using hl
    | some c => rw [hm] at hl; simpa [hk] using hl

theorem Least.replace (trans : ∀ a b c, le a b → le b c → le a c) (refl : ∀ a, le a a)
    {pairs : List (κ × α)} {m : BTreeMap κ α} (h : Least le pairs m) {k : κ} {b : α}
    (hb : ∀ a, m.get k = some a → le b a) : Least le (pairs ++ [(k, b)]) (m.insert k b) := by
  intro l
  have hl := h l
  by_cases hk : l = k
  · subst hk
    rw [get_insert, if_pos rfl]
    refine ⟨by simp, fun c hc => ?_⟩
    rcases List.mem_append.mp hc with hc | hc
    · cases hm : m.get l with
      | none => rw [hm] at hl; exact absurd hc (hl c)
      | some a => rw [hm] at hl; exact trans _ _ _ (hb a hm) (hl.2 c hc)
    · simp only [List.mem_singleton, Prod.mk.injEq, true_and] at hc
      exact hc ▸ refl b
  · rw [get_insert, if_neg hk]
    cases hm : m.get l with
    | none => rw [hm] at hl; simpa [hk] using hl
    | some c => rw [hm] at hl; simpa [hk] using hl

theorem least_holds (total : ∀ a b, le a b = false → le b a) (trans : ∀ a b c, le a b → le b c → le a c)
    (pairs : List (κ × α)) : Least le pairs (least le pairs) := by
  have refl (a : α) : le a a := by
    by_contra h
    exact h (total a a (by simpa using h))
  induction pairs using List.reverseRecOn with
  | nil => intro k; simp [least]
  | append_singleton pairs p ih =>
      rw [least, List.foldl_append, List.foldl_cons, List.foldl_nil, ← least]
      cases hm : (least le pairs).get p.1 with
      | none => exact ih.replace trans refl (by simp [hm])
      | some a =>
          cases hle : le a p.2 with
          | true => simpa [hle] using ih.keep hm hle
          | false =>
              simp only [hle, Bool.false_eq_true, if_false]
              refine ih.replace trans refl (fun c hc => ?_)
              rw [hm] at hc
              injection hc with hc
              exact hc ▸ total a p.2 hle

end Least

end BTreeMap

end AntaresBroker
