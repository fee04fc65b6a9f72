import Mathlib.Data.List.Sort
import Mathlib.Data.List.Perm.Subperm

namespace AntaresBroker.Compare

open Std

variable {α β : Type}

/-- By groups first, and inside a group by that group's own comparison. -/
def by_group [Ord β] (group : α → β) (within : β → α → α → Ordering) (a b : α) : Ordering :=
  (compare (group a) (group b)).then (within (group a) a b)

/-- Comparisons for each group make one for all values. -/
theorem by_group_transCmp [Ord β] [LawfulEqOrd β] [TransOrd β] (group : α → β) {within : β → α → α → Ordering}
    (h : ∀ g, TransCmp (within g)) : TransCmp (by_group group within) where
  eq_swap {a b} := by
    have hg : compare (group a) (group b) = (compare (group b) (group a)).swap := OrientedOrd.eq_swap
    unfold by_group
    cases hc : compare (group b) (group a) with
    | lt => simp [hg, hc]
    | gt => simp [hg, hc]
    | eq =>
        have hab : group b = group a := LawfulEqOrd.eq_of_compare hc
        simpa [hg, hc, hab] using (h (group a)).eq_swap
  isLE_trans {a b c} hab hbc := by
    unfold by_group at *
    rw [Ordering.isLE_then_iff_and] at *
    refine ⟨TransOrd.isLE_trans hab.1 hbc.1, ?_⟩
    rcases hab.2 with hlt | hw
    · exact .inl (TransCmp.lt_of_lt_of_isLE hlt hbc.1)
    · rcases hbc.2 with hlt | hw'
      · exact .inl (TransCmp.lt_of_isLE_of_lt hab.1 hlt)
      · cases hc : compare (group a) (group b) with
        | lt => exact .inl (TransCmp.lt_of_lt_of_isLE hc hbc.1)
        | gt => simp [hc] at hab
        | eq =>
            have heq : group a = group b := LawfulEqOrd.eq_of_compare hc
            rw [← heq] at hw'
            exact .inr ((h (group a)).isLE_trans hw hw')

theorem reverse_transCmp {cmp : α → α → Ordering} (h : TransCmp cmp) : TransCmp (fun a b => (cmp a b).swap) where
  eq_swap {a b} := congrArg Ordering.swap h.eq_swap
  isLE_trans {a b c} hab hbc := by
    rw [← h.eq_swap] at *
    exact h.isLE_trans hbc hab

theorem pull_transCmp {cmp : β → β → Ordering} (f : α → β) (h : TransCmp cmp) : TransCmp (fun a b => cmp (f a) (f b)) where
  eq_swap := h.eq_swap
  isLE_trans := h.isLE_trans

theorem const_transCmp : TransCmp (fun _ _ : α => Ordering.eq) where
  eq_swap := rfl
  isLE_trans := fun _ _ => rfl

def sort_by (cmp : α → α → Ordering) (items : List α) : List α := items.mergeSort (fun a b => (cmp a b).isLE)

section Sorting

variable {cmp : α → α → Ordering}

theorem sort_by_perm (items : List α) : (sort_by cmp items).Perm items := List.mergeSort_perm items _

variable (h : TransCmp cmp)
include h

theorem isLE_total (a b : α) : ((cmp a b).isLE || (cmp b a).isLE) = true := by
  rw [h.eq_swap (a := b)]
  cases cmp a b <;> rfl

theorem sort_by_ordered (items : List α) : (sort_by cmp items).Pairwise (fun a b => (cmp a b).isLE) := by
  apply List.pairwise_mergeSort
  · intro a b c
    exact h.isLE_trans
  · exact isLE_total h

/-- Values that tie keep their places among each other. -/
theorem sort_by_stable (items : List α) (a : α) :
    (sort_by cmp items).filter (fun b => cmp a b = .eq) = items.filter (fun b => cmp a b = .eq) := by
  have htied : (items.filter (fun b => cmp a b = .eq)).Pairwise (fun b c => (cmp b c).isLE) := by
    apply List.pairwise_of_forall_mem_list
    intro b hb c hc
    have hb' : cmp a b = .eq := by simpa using (List.mem_filter.mp hb).2
    have hc' : cmp a c = .eq := by simpa using (List.mem_filter.mp hc).2
    have hbc : cmp b c = .eq := h.eq_trans (h.eq_symm hb') hc'
    rw [hbc]
    rfl
  have hsub : (items.filter (fun b => cmp a b = .eq)).Sublist (sort_by cmp items) := by
    refine List.sublist_mergeSort ?_ (isLE_total h) htied List.filter_sublist
    intro a b c
    exact h.isLE_trans
  have hfilter := hsub.filter (fun b => decide (cmp a b = .eq))
  rw [List.filter_filter] at hfilter
  simp only [Bool.and_self] at hfilter
  exact (hfilter.eq_of_length ((sort_by_perm items).filter _).length_eq.symm).symm

end Sorting

section Members

/-- A comparison that is a total order on the members of a list. -/
structure TotalOn (cmp : α → α → Ordering) (l : List α) : Prop where
  swap : ∀ a ∈ l, ∀ b ∈ l, cmp b a = (cmp a b).swap
  trans : ∀ a ∈ l, ∀ b ∈ l, ∀ c ∈ l, (cmp a b).isLE → (cmp b c).isLE → (cmp a c).isLE
  eq : ∀ a ∈ l, ∀ b ∈ l, cmp a b = .eq → a = b

variable {cmp : α → α → Ordering} {l : List α}

theorem TotalOn.sort_by_ordered (h : TotalOn cmp l) : (sort_by cmp l).Pairwise (fun a b => (cmp a b).isLE) := by
  have hsub : TransCmp (fun a b : { a // a ∈ l } => cmp a.1 b.1) :=
    { eq_swap := fun {a b} => h.swap b.1 b.2 a.1 a.2
      isLE_trans := fun {a b c} => h.trans a.1 a.2 b.1 b.2 c.1 c.2 }
  have hmap : sort_by cmp l = (sort_by (fun a b : { a // a ∈ l } => cmp a.1 b.1) l.attach).map Subtype.val := by
    have hval : ∀ a ∈ l.attach, ∀ b ∈ l.attach, (cmp a.1 b.1).isLE = (cmp a.1 b.1).isLE := fun _ _ _ _ => rfl
    rw [sort_by, sort_by, List.map_mergeSort (s := fun a b => (cmp a b).isLE) hval, List.attach_map_subtype_val]
  rw [hmap, List.pairwise_map]
  exact Compare.sort_by_ordered hsub l.attach

/-- Whatever puts the members in order ends with the same list. -/
theorem TotalOn.arranged (h : TotalOn cmp l) {l' : List α} (hperm : l'.Perm l) (hordered : l'.Pairwise (fun a b => (cmp a b).isLE)) :
    l' = sort_by cmp l := by
  apply List.Perm.eq_of_pairwise ?_ hordered h.sort_by_ordered (hperm.trans (sort_by_perm l).symm)
  intro a b ha hb hab hba
  have ha' := hperm.subset ha
  have hb' := (sort_by_perm l).subset hb
  apply h.eq a ha' b hb'
  rw [h.swap a ha' b hb'] at hba
  cases hc : cmp a b <;> simp [hc] at hab hba ⊢

end Members

end AntaresBroker.Compare
