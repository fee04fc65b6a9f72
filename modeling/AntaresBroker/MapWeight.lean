import AntaresBroker.BTreeMap
import Mathlib.Data.List.Sort
import Mathlib.Algebra.GroupWithZero.Nat
import Mathlib.Algebra.Order.BigOperators.Group.List

namespace AntaresBroker

namespace BTreeMap

variable {κ α : Type} [LinearOrder κ] {m n : BTreeMap κ α} {k : κ} {a : α}

theorem entries_nodup (m : BTreeMap κ α) : m.entries.Nodup := m.sorted.imp (fun h heq => absurd (heq ▸ h) (lt_irrefl _))

theorem perm_of_get (h : ∀ k a, m.get k = some a ↔ (k, a) ∈ n.entries) : m.entries.Perm n.entries :=
  (List.perm_ext_iff_of_nodup m.entries_nodup n.entries_nodup).mpr fun p => mem_entries.trans (h p.1 p.2)

/-- A binding stands before those of the other keys. -/
theorem perm_insert (m : BTreeMap κ α) (k : κ) (a : α) : (m.insert k a).entries.Perm ((k, a) :: (m.remove k).entries) := by
  have hnot : (k, a) ∉ (m.remove k).entries := fun h => by
    have hget := mem_entries.mp h
    rw [get_remove, if_pos rfl] at hget
    cases hget
  refine (List.perm_ext_iff_of_nodup (entries_nodup _) (List.nodup_cons.mpr ⟨hnot, entries_nodup _⟩)).mpr fun p => ?_
  obtain ⟨l, b⟩ := p
  rw [List.mem_cons, mem_entries, mem_entries, get_insert, get_remove, Prod.mk.injEq]
  by_cases hl : l = k
  · rw [if_pos hl, if_pos hl, Option.some_inj]
    exact ⟨fun h => .inl ⟨hl, h.symm⟩, fun h => h.elim (fun h => h.2.symm) (fun h => by cases h)⟩
  · rw [if_neg hl, if_neg hl]
    exact ⟨.inr, fun h => h.resolve_left fun h => hl h.1⟩

theorem perm_remove (h : m.get k = some a) : m.entries.Perm ((k, a) :: (m.remove k).entries) := by
  have hsame : m.insert k a = m := ext_get fun l => by
    rw [get_insert]
    split_ifs with hl
    · rw [hl, h]
    · rfl
  have hperm := perm_insert m k a
  rwa [hsame] at hperm

theorem remove_of_absent (h : m.get k = none) : m.remove k = m := ext_get fun l => by
  rw [get_remove]
  split_ifs with hl
  · rw [hl, h]
  · rfl

section Weight

variable (w : α → Nat)

/-- The sum of what the values weigh. -/
def weight (m : BTreeMap κ α) : Nat := (m.values.map w).sum

theorem weight_eq (m : BTreeMap κ α) : m.weight w = (m.entries.map (fun p => w p.2)).sum := by
  rw [weight, values, List.map_map]
  rfl

theorem weight_empty : (empty : BTreeMap κ α).weight w = 0 := rfl

theorem weight_insert (m : BTreeMap κ α) (k : κ) (a : α) : (m.insert k a).weight w = w a + (m.remove k).weight w := by
  rw [weight_eq, weight_eq, ((perm_insert m k a).map _).sum_eq, List.map_cons, List.sum_cons]

theorem weight_remove (h : m.get k = some a) : m.weight w = w a + (m.remove k).weight w := by
  rw [weight_eq, weight_eq, ((perm_remove h).map _).sum_eq, List.map_cons, List.sum_cons]

theorem weight_remove_le (m : BTreeMap κ α) (k : κ) : (m.remove k).weight w ≤ m.weight w := by
  cases h : m.get k with
  | none => rw [remove_of_absent h]
  | some a =>
      rw [weight_remove w h]
      exact Nat.le_add_left _ _

theorem weight_filter_le (p : κ × α → Bool) (m : BTreeMap κ α) : (m.filter p).weight w ≤ m.weight w := by
  rw [weight_eq, weight_eq]
  exact ((List.filter_sublist (l := m.entries)).map _).sum_le_sum fun _ _ => Nat.zero_le _

end Weight

theorem length_insert_le (m : BTreeMap κ α) (k : κ) (a : α) : (m.insert k a).entries.length ≤ m.entries.length + 1 := by
  rw [(perm_insert m k a).length_eq, List.length_cons]
  refine Nat.succ_le_succ ?_
  cases h : m.get k with
  | none => rw [remove_of_absent h]
  | some b =>
      rw [(perm_remove h).length_eq, List.length_cons]
      exact Nat.le_succ _

end BTreeMap

namespace Newest

variable {l : List Nat} {i : Nat}

/-- Above a place of a strictly sorted list stands the rest of it. -/
theorem countP_of_sorted (h : l.Pairwise (· < ·)) (hi : i < l.length) : l.countP (fun x => l[i] ≤ x) = l.length - i := by
  have hsplit : l = l.take i ++ l[i] :: l.drop (i + 1) := by
    rw [← List.drop_eq_getElem_cons hi, List.take_append_drop]
  obtain ⟨-, hrest, hbelow⟩ := List.pairwise_append.mp (hsplit ▸ h)
  have habove := (List.pairwise_cons.mp hrest).1
  have hfirst : (l.take i).countP (fun x => l[i] ≤ x) = 0 := by
    refine List.countP_eq_zero.mpr fun x hx => ?_
    have hlt := hbelow x hx _ List.mem_cons_self
    simpa using hlt
  have hlast : (l[i] :: l.drop (i + 1)).countP (fun x => l[i] ≤ x) = (l[i] :: l.drop (i + 1)).length := by
    refine List.countP_eq_length.mpr fun x hx => ?_
    rcases List.mem_cons.mp hx with rfl | hx
    · exact decide_eq_true (Nat.le_refl _)
    · exact decide_eq_true (habove x hx).le
  calc l.countP (fun x => l[i] ≤ x)
      = (l.take i ++ l[i] :: l.drop (i + 1)).countP (fun x => l[i] ≤ x) := congrArg _ hsplit
    _ = (l[i] :: l.drop (i + 1)).length := by rw [List.countP_append, hfirst, hlast, Nat.zero_add]
    _ = l.length - i := by
      rw [List.length_cons, List.length_drop]
      omega

theorem sorted_mergeSort (h : l.Nodup) : (l.mergeSort (· ≤ ·)).Pairwise (· < ·) := by
  have hle : (l.mergeSort (fun a b => decide (a ≤ b))).Pairwise (fun a b => decide (a ≤ b) = true) :=
    List.pairwise_mergeSort (fun a b c hab hbc => by
      rw [decide_eq_true_eq] at hab hbc ⊢
      exact hab.trans hbc) (fun a b => by
      rw [Bool.or_eq_true, decide_eq_true_eq, decide_eq_true_eq]
      exact Nat.le_total a b) l
  have hne : (l.mergeSort (· ≤ ·)).Pairwise (· ≠ ·) := (List.mergeSort_perm l _).nodup_iff.mpr h
  exact hle.imp₂ (fun a b hab hne => Nat.lt_of_le_of_ne (of_decide_eq_true hab) hne) hne

/-- As many are left as the place is from the end. -/
theorem countP_newest (h : l.Nodup) {cut : Nat} (hcut : (l.mergeSort (· ≤ ·))[i]? = some cut) :
    l.countP (fun x => cut ≤ x) = l.length - i := by
  obtain ⟨hi, rfl⟩ := List.getElem?_eq_some_iff.mp hcut
  rw [← (List.mergeSort_perm l (· ≤ ·)).countP_eq, countP_of_sorted (sorted_mergeSort h) hi, List.length_mergeSort]

end Newest

end AntaresBroker
