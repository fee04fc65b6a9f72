import Mathlib.Data.List.Basic
import Mathlib.Data.List.Count

namespace AntaresBroker.Paging

variable {α : Type} {limit : Nat} {full : α → Bool} {l : List α}

/-- What is read of a list in pages, up to the first page with fewer elements
that count than a page holds. -/
def walk (limit : Nat) (full : α → Bool) : Nat → List α → List α
  | 0, _ => []
  | fuel + 1, l =>
      if (l.take limit).countP full < limit then l.take limit
      else l.take limit ++ walk limit full fuel (l.drop limit)

theorem walk_subset (fuel : Nat) : ∀ a ∈ walk limit full fuel l, a ∈ l := by
  induction fuel generalizing l with
  | zero => exact fun a ha => absurd ha List.not_mem_nil
  | succ fuel ih =>
      intro a ha
      rw [walk] at ha
      split at ha
      · exact List.mem_of_mem_take ha
      · rcases List.mem_append.mp ha with ha | ha
        · exact List.mem_of_mem_take ha
        · exact List.mem_of_mem_drop (ih a ha)

theorem walk_sublist (fuel : Nat) : (walk limit full fuel l).Sublist l := by
  induction fuel generalizing l with
  | zero => exact List.nil_sublist l
  | succ fuel ih =>
      rw [walk]
      split
      · exact List.take_sublist limit l
      · exact (List.Sublist.append (List.Sublist.refl _) ih).trans (by rw [List.take_append_drop])

theorem length_drop_lt (hlimit : 0 < limit) (h : ¬(l.take limit).countP full < limit) : (l.drop limit).length < l.length := by
  have hcount : (l.take limit).countP full ≤ (l.take limit).length := List.countP_le_length
  rw [List.length_take] at hcount
  rw [List.length_drop]
  omega

/-- An element is read if every element of the pages before it counts. -/
theorem getElem?_walk (hlimit : 0 < limit) {fuel : Nat} (hfuel : l.length < fuel) {i : Nat} {a : α} :
    (walk limit full fuel l)[i]? = some a ↔
      l[i]? = some a ∧ ∀ j, j < i / limit * limit → ∀ b, l[j]? = some b → full b = true := by
  induction fuel generalizing l i with
  | zero => exact absurd hfuel (Nat.not_lt_zero _)
  | succ fuel ih =>
      rw [walk]
      by_cases hi : i < limit
      · -- the first page is always read
        have hzero : i / limit * limit = 0 := by rw [Nat.div_eq_of_lt hi, Nat.zero_mul]
        have htake : (l.take limit)[i]? = l[i]? := List.getElem?_take_of_lt hi
        rw [hzero]
        split
        · rw [htake]
          simp
        · rw [List.getElem?_append, List.length_take]
          split
          · rw [htake]
            simp
          · have hout : l.length ≤ i := by omega
            rw [List.getElem?_eq_none hout, List.drop_eq_nil_of_le (by omega : l.length ≤ limit)]
            have hnil : walk limit full fuel ([] : List α) = [] :=
              List.eq_nil_iff_forall_not_mem.mpr fun b hb => absurd (walk_subset fuel b hb) List.not_mem_nil
            rw [hnil]
            simp
      · rw [Nat.not_lt] at hi
        have hdiv : i / limit * limit = (i - limit) / limit * limit + limit := by
          rw [← Nat.add_one_mul, ← Nat.add_div_right (i - limit) hlimit, Nat.sub_add_cancel hi]
        have hdrop (j : Nat) : (l.drop limit)[j]? = l[limit + j]? := List.getElem?_drop
        split
        next hshort =>
          -- a page that stops the walk leaves an element out
          have hnone : (l.take limit)[i]? = none := List.getElem?_eq_none (by rw [List.length_take]; omega)
          rw [hnone]
          simp only [reduceCtorEq, false_iff, not_and]
          intro ha hall
          have hlen : i < l.length := (List.getElem?_eq_some_iff.mp ha).1
          have hcount : (l.take limit).countP full = (l.take limit).length := by
            rw [List.countP_eq_length]
            intro b hb
            obtain ⟨j, hj⟩ := List.mem_iff_getElem?.mp hb
            have hjlt : j < (l.take limit).length := (List.getElem?_eq_some_iff.mp hj).1
            rw [List.length_take] at hjlt
            rw [List.getElem?_take_of_lt (by omega)] at hj
            exact hall j (by omega) b hj
          rw [hcount, List.length_take] at hshort
          omega
        next hlong =>
          have hpage : limit ≤ l.length := by
            have hcount : (l.take limit).countP full ≤ (l.take limit).length := List.countP_le_length
            rw [List.length_take] at hcount
            omega
          have hlen : (l.take limit).length = limit := by rw [List.length_take]; omega
          rw [List.getElem?_append_right (by rw [hlen]; exact hi), hlen,
            ih (by have := length_drop_lt hlimit hlong; omega), hdrop, Nat.add_sub_cancel' hi]
          constructor
          · rintro ⟨ha, hall⟩
            refine ⟨ha, fun j hj b hb => ?_⟩
            by_cases hjl : j < limit
            · have hfull : (l.take limit).countP full = (l.take limit).length := by
                have hcount : (l.take limit).countP full ≤ (l.take limit).length := List.countP_le_length
                omega
              rw [List.countP_eq_length] at hfull
              exact hfull b (List.mem_iff_getElem?.mpr ⟨j, by rw [List.getElem?_take_of_lt hjl]; exact hb⟩)
            · refine hall (j - limit) (by omega) b ?_
              rw [hdrop, Nat.add_sub_cancel' (Nat.not_lt.mp hjl)]
              exact hb
          · rintro ⟨ha, hall⟩
            refine ⟨ha, fun j hj b hb => hall (limit + j) (by omega) b ?_⟩
            rw [← hdrop]
            exact hb

/-- Where every element counts all are read. -/
theorem walk_all (hlimit : 0 < limit) {fuel : Nat} (hfuel : l.length < fuel) (h : ∀ a ∈ l, full a = true) :
    walk limit full fuel l = l := by
  refine List.ext_getElem? fun i => Option.ext fun a => ?_
  rw [getElem?_walk hlimit hfuel]
  exact and_iff_left fun j _ b hb => h b (List.mem_of_getElem? hb)

end AntaresBroker.Paging
