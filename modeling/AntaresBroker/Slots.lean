import Mathlib

namespace AntaresBroker.Slots

variable {I S T : Type} (slot : I → Option S) (stamp : I → T)

/-- No two elements share a slot. -/
def Clear (l : List I) : Prop := (l.filterMap slot).Nodup

instance [DecidableEq S] (l : List I) : Decidable (Clear slot l) := inferInstanceAs (Decidable (l.filterMap slot).Nodup)

/-- Elements of one slot have stamps of their own. -/
def Distinct (l : List I) : Prop :=
  l.Pairwise (fun i j => ∀ s, slot i = some s → slot j = some s → stamp i ≠ stamp j)

variable {slot stamp}

section Slots

variable {l : List I}

theorem Clear.eq_of_slot {s : S} (h : Clear slot l) {i j : I} (hi : i ∈ l) (hj : j ∈ l) (his : slot i = some s)
    (hjs : slot j = some s) : i = j := by
  induction l with
  | nil => cases hi
  | cons a l ih =>
      have hnot {b : I} (ha : slot a = some s) (hb : b ∈ l) : slot b ≠ some s := by
        intro hbs
        rw [Clear, List.filterMap_cons_some ha, List.nodup_cons] at h
        exact h.1 (List.mem_filterMap.mpr ⟨b, hb, hbs⟩)
      have htail : Clear slot l := h.sublist ((List.sublist_cons_self a l).filterMap slot)
      rcases List.mem_cons.mp hi with rfl | hil <;> rcases List.mem_cons.mp hj with rfl | hjl
      · rfl
      · exact absurd hjs (hnot his hjl)
      · exact absurd his (hnot hjs hil)
      · exact ih htail hil hjl

theorem Clear.filter_eq [DecidableEq S] {s : S} (h : Clear slot l) {i : I} (hi : i ∈ l) (his : slot i = some s) :
    l.filter (fun j => slot j = some s) = [i] := by
  induction l with
  | nil => cases hi
  | cons a l ih =>
      have htail : Clear slot l := h.sublist ((List.sublist_cons_self a l).filterMap slot)
      by_cases ha : slot a = some s
      · obtain rfl := h.eq_of_slot hi List.mem_cons_self his ha
        rw [List.filter_cons, if_pos (decide_eq_true ha), List.filter_eq_nil_iff.mpr fun j hj hjs => ?_]
        rw [Clear, List.filterMap_cons_some ha, List.nodup_cons] at h
        exact h.1 (List.mem_filterMap.mpr ⟨j, hj, of_decide_eq_true hjs⟩)
      · have hia : i ∈ l := (List.mem_cons.mp hi).resolve_left (by rintro rfl; exact ha his)
        rw [List.filter_cons, if_neg (by simpa using ha)]
        exact ih htail hia

theorem clear_of_filter [DecidableEq S]
    (h : ∀ i ∈ l, ∀ s, slot i = some s → ∃ m, l.filter (fun j => slot j = some s) = [m]) : Clear slot l := by
  induction l with
  | nil => exact List.nodup_nil
  | cons a l ih =>
      have htail : Clear slot l := by
        refine ih fun i hi s his => ?_
        obtain ⟨m, hm⟩ := h i (List.mem_cons_of_mem a hi) s his
        by_cases ha : slot a = some s
        · rw [List.filter_cons, if_pos (decide_eq_true ha)] at hm
          have hnone := (List.cons.inj hm).2
          exact absurd his (by simpa using List.filter_eq_nil_iff.mp hnone i hi)
        · rw [List.filter_cons, if_neg (by simpa using ha)] at hm
          exact ⟨m, hm⟩
      rw [Clear]
      cases ha : slot a with
      | none =>
          rw [List.filterMap_cons_none ha]
          exact htail
      | some s =>
          obtain ⟨m, hm⟩ := h a List.mem_cons_self s ha
          rw [List.filter_cons, if_pos (decide_eq_true ha)] at hm
          have hnone := (List.cons.inj hm).2
          rw [List.filterMap_cons_some ha, List.nodup_cons]
          refine ⟨fun hin => ?_, htail⟩
          obtain ⟨i, hi, his⟩ := List.mem_filterMap.mp hin
          exact absurd his (by simpa using List.filter_eq_nil_iff.mp hnone i hi)

theorem Distinct.eq_of_stamp (h : Distinct slot stamp l) {i j : I} (hi : i ∈ l) (hj : j ∈ l) {s : S} (his : slot i = some s)
    (hjs : slot j = some s) (heq : stamp i = stamp j) : i = j := by
  by_contra hne
  have hsymm : Std.Symm (fun i j => ∀ s, slot i = some s → slot j = some s → stamp i ≠ stamp j) :=
    ⟨fun i j hij s hj hi => (hij s hi hj).symm⟩
  exact h.forall hi hj hne s his hjs heq

end Slots

variable [LinearOrder T] (slot stamp)

/-- What is left of `all` when each slot has gone to its latest element. -/
structure Resolved (all l : List I) : Prop where
  clear : Clear slot l
  mem : ∀ i ∈ l, i ∈ all
  latest : ∀ i ∈ l, ∀ s, slot i = some s → ∀ j ∈ all, slot j = some s → stamp j ≤ stamp i
  covers : ∀ j ∈ all, ∀ s, slot j = some s → ∃ i ∈ l, slot i = some s
  untimed : (l.filter (fun i => (slot i).isNone)).Perm (all.filter (fun i => (slot i).isNone))

variable {slot stamp}

section Left

variable {ni : I} {all l : List I}

theorem Clear.resolved (h : Clear slot l) : Resolved slot stamp l l where
  clear := h
  mem _ hi := hi
  latest i hi s his j hj hjs := by rw [h.eq_of_slot hi hj his hjs]
  covers j hj s hjs := ⟨j, hj, hjs⟩
  untimed := List.Perm.refl _

theorem Resolved.congr {all' : List I} (h : Resolved slot stamp all l) (hperm : all.Perm all') : Resolved slot stamp all' l where
  clear := h.clear
  mem i hi := hperm.subset (h.mem i hi)
  latest i hi s his j hj := h.latest i hi s his j (hperm.symm.subset hj)
  covers j hj := h.covers j (hperm.symm.subset hj)
  untimed := h.untimed.trans (hperm.filter _)

/-- What is left does not depend on the order in which it came. -/
theorem Resolved.mem_iff {l' : List I} (hd : Distinct slot stamp all) (h : Resolved slot stamp all l)
    (h' : Resolved slot stamp all l') (i : I) : i ∈ l ↔ i ∈ l' := by
  suffices hsub : ∀ {l l' : List I}, Resolved slot stamp all l → Resolved slot stamp all l' → i ∈ l → i ∈ l' from
    ⟨hsub h h', hsub h' h⟩
  intro l l' h h' hi
  cases hs : slot i with
  | none =>
      have hin : i ∈ l.filter (fun i => (slot i).isNone) := List.mem_filter.mpr ⟨hi, by rw [hs]; rfl⟩
      exact List.mem_of_mem_filter ((h.untimed.trans h'.untimed.symm).subset hin)
  | some s =>
      obtain ⟨j, hj, hjs⟩ := h'.covers i (h.mem i hi) s hs
      have heq := le_antisymm (h'.latest j hj s hjs i (h.mem i hi) hs) (h.latest i hi s hs j (h'.mem j hj) hjs)
      rwa [hd.eq_of_stamp (h.mem i hi) (h'.mem j hj) hs hjs heq]

theorem Resolved.push (h : Resolved slot stamp all l) (hfresh : ∀ s, slot ni = some s → ∀ i ∈ l, slot i ≠ some s)
    (hclear : Clear slot (l ++ [ni])) : Resolved slot stamp (all ++ [ni]) (l ++ [ni]) where
  clear := hclear
  mem i hi := by
    rcases List.mem_append.mp hi with hi | hi
    · exact List.mem_append_left _ (h.mem i hi)
    · exact List.mem_append_right _ hi
  latest i hi s his j hj hjs := by
    rcases List.mem_append.mp hi with hil | hin <;> rcases List.mem_append.mp hj with hja | hjn
    · exact h.latest i hil s his j hja hjs
    · obtain rfl := List.mem_singleton.mp hjn
      exact absurd his (hfresh s hjs i hil)
    · obtain rfl := List.mem_singleton.mp hin
      obtain ⟨k, hk, hks⟩ := h.covers j hja s hjs
      exact absurd hks (hfresh s his k hk)
    · rw [List.mem_singleton.mp hin, List.mem_singleton.mp hjn]
  covers j hj s hjs := by
    rcases List.mem_append.mp hj with hj | hj
    · obtain ⟨i, hi, his⟩ := h.covers j hj s hjs
      exact ⟨i, List.mem_append_left _ hi, his⟩
    · exact ⟨j, List.mem_append_right _ hj, hjs⟩
  untimed := by
    rw [List.filter_append, List.filter_append]
    exact h.untimed.append_right _

theorem Resolved.replace {pre post : List I} {c : I} {s : S} (h : Resolved slot stamp all (pre ++ c :: post))
    (hs : slot ni = some s) (hc : slot c = some s)
    (hclear : Clear slot (pre ++ (if stamp c < stamp ni then ni else c) :: post)) :
    Resolved slot stamp (all ++ [ni]) (pre ++ (if stamp c < stamp ni then ni else c) :: post) := by
  set w := if stamp c < stamp ni then ni else c with hw
  have hws : slot w = some s := by rw [hw]; split_ifs <;> assumption
  have hwc : stamp c ≤ stamp w := by rw [hw]; split_ifs with hlt; exacts [hlt.le, le_rfl]
  have hwn : stamp ni ≤ stamp w := by rw [hw]; split_ifs with hlt; exacts [le_rfl, not_lt.mp hlt]
  have hwmem : w ∈ pre ++ w :: post := List.mem_append_right _ List.mem_cons_self
  have hcmem : c ∈ pre ++ c :: post := List.mem_append_right _ List.mem_cons_self
  have hold {i : I} (hi : i ∈ pre ++ w :: post) : i = w ∨ i ∈ pre ++ c :: post := by
    simp only [List.mem_append, List.mem_cons] at hi ⊢
    tauto
  refine ⟨hclear, fun i hi => ?_, fun i hi s' his j hj hjs => ?_, fun j hj s' hjs => ?_, ?_⟩
  · rcases hold hi with rfl | hi
    · rw [hw]
      split_ifs
      · exact List.mem_append_right _ (List.mem_singleton.mpr rfl)
      · exact List.mem_append_left _ (h.mem c hcmem)
    · exact List.mem_append_left _ (h.mem i hi)
  · by_cases hss : s' = s
    · -- the one element of the slot is the later of the two
      obtain rfl := hss
      obtain rfl := hclear.eq_of_slot hi hwmem his hws
      rcases List.mem_append.mp hj with hj | hj
      · exact (h.latest c hcmem s' hc j hj hjs).trans hwc
      · rw [List.mem_singleton.mp hj]
        exact hwn
    · have hiw : i ≠ w := by
        rintro rfl
        exact hss (Option.some.inj (his.symm.trans hws))
      rcases List.mem_append.mp hj with hj | hj
      · exact h.latest i ((hold hi).resolve_left hiw) s' his j hj hjs
      · rw [List.mem_singleton.mp hj] at hjs
        exact absurd (Option.some.inj (hjs.symm.trans hs)) hss
  · by_cases hss : s' = s
    · exact ⟨w, hwmem, hss ▸ hws⟩
    · have hja : j ∈ all := by
        refine (List.mem_append.mp hj).resolve_right fun hj => ?_
        rw [List.mem_singleton.mp hj] at hjs
        exact hss (Option.some.inj (hjs.symm.trans hs))
      obtain ⟨i, hi, his⟩ := h.covers j hja s' hjs
      have hic : i ≠ c := by
        rintro rfl
        exact hss (Option.some.inj (his.symm.trans hc))
      refine ⟨i, ?_, his⟩
      simp only [List.mem_append, List.mem_cons] at hi ⊢
      tauto
  · have hold := h.untimed
    rw [List.filter_append, List.filter_cons_of_neg (by simp [hc])] at hold
    rw [List.filter_append, List.filter_cons_of_neg (by simp [hws]), List.filter_append, List.filter_cons_of_neg (by simp [hs]),
      List.filter_nil, List.append_nil]
    exact hold

end Left

variable [DecidableEq S] (slot stamp)

/-- A new element takes the place of an older one in its slot; without a slot it stands on its own. -/
def resolve (ni : I) : List I → List I
  | [] => [ni]
  | ci :: cur =>
      if (slot ni).isSome = true ∧ slot ci = slot ni then (if stamp ci < stamp ni then ni :: cur else ci :: cur)
      else ci :: resolve ni cur

/-- The elements of a second list one at a time. -/
def absorb (cur incoming : List I) : List I := incoming.foldl (fun cur ni => resolve slot stamp ni cur) cur

variable {slot stamp}

section Steps

variable {ni : I} {all l : List I}

theorem resolve_none (h : slot ni = none) : resolve slot stamp ni l = l ++ [ni] := by
  induction l with
  | nil => rfl
  | cons ci cur ih =>
      have hno : ¬ ((slot ni).isSome = true ∧ slot ci = slot ni) := fun hand => by
        rw [h] at hand
        cases hand.1
      rw [resolve, if_neg hno, ih, List.cons_append]

theorem resolve_fresh (h : ∀ i ∈ l, slot i ≠ slot ni) : resolve slot stamp ni l = l ++ [ni] := by
  induction l with
  | nil => rfl
  | cons ci cur ih =>
      rw [resolve, if_neg fun hand => h ci List.mem_cons_self hand.2, ih fun i hi => h i (List.mem_cons_of_mem ci hi),
        List.cons_append]

variable (stamp) in
/-- The first element of the slot gives way to a later one. -/
theorem resolve_taken {s : S} (hs : slot ni = some s) (h : ∃ i ∈ l, slot i = some s) :
    ∃ pre c post, l = pre ++ c :: post ∧ slot c = some s ∧ (∀ i ∈ pre, slot i ≠ some s) ∧
      resolve slot stamp ni l = pre ++ (if stamp c < stamp ni then ni else c) :: post := by
  induction l with
  | nil =>
      obtain ⟨i, hi, -⟩ := h
      cases hi
  | cons ci cur ih =>
      by_cases hci : slot ci = some s
      · refine ⟨[], ci, cur, rfl, hci, List.forall_mem_nil _, ?_⟩
        rw [resolve, if_pos ⟨by rw [hs]; rfl, hci.trans hs.symm⟩, List.nil_append]
        split_ifs <;> rfl
      · obtain ⟨i, hi, his⟩ := h
        have hin : i ∈ cur := (List.mem_cons.mp hi).resolve_left (by rintro rfl; exact hci his)
        obtain ⟨pre, c, post, rfl, hc, hpre, heq⟩ := ih ⟨i, hin, his⟩
        refine ⟨ci :: pre, c, post, rfl, hc, List.forall_mem_cons.mpr ⟨hci, hpre⟩, ?_⟩
        rw [resolve, if_neg fun hand => hci (hand.2.trans hs), heq, List.cons_append]

theorem mem_resolve {i : I} (hi : i ∈ resolve slot stamp ni l) : i ∈ l ∨ i = ni := by
  induction l with
  | nil => exact Or.inr (List.mem_singleton.mp hi)
  | cons ci cur ih =>
      rw [resolve] at hi
      split_ifs at hi
      · rcases List.mem_cons.mp hi with rfl | hi
        · exact Or.inr rfl
        · exact Or.inl (List.mem_cons_of_mem ci hi)
      · exact Or.inl hi
      · rcases List.mem_cons.mp hi with rfl | hi
        · exact Or.inl List.mem_cons_self
        · exact (ih hi).imp_left (List.mem_cons_of_mem ci)

variable (stamp ni l) in
theorem exists_slot_resolve {s : S} (h : (∃ i ∈ l, slot i = some s) ∨ slot ni = some s) :
    ∃ i ∈ resolve slot stamp ni l, slot i = some s := by
  by_cases hni : slot ni = some s
  · by_cases hin : ∃ i ∈ l, slot i = some s
    · obtain ⟨pre, c, post, rfl, hc, -, heq⟩ := resolve_taken stamp hni hin
      rw [heq]
      refine ⟨_, List.mem_append_right _ List.mem_cons_self, ?_⟩
      split_ifs
      · exact hni
      · exact hc
    · rw [resolve_fresh fun i hi his => hin ⟨i, hi, his.trans hni⟩]
      exact ⟨ni, List.mem_append_right _ (List.mem_singleton.mpr rfl), hni⟩
  · obtain ⟨i, hi, his⟩ := h.resolve_right hni
    induction l with
    | nil => cases hi
    | cons ci cur ih =>
        rw [resolve]
        rcases List.mem_cons.mp hi with rfl | hil
        · rw [if_neg fun hand => hni (hand.2.symm.trans his)]
          exact ⟨i, List.mem_cons_self, his⟩
        · split_ifs
          · exact ⟨i, List.mem_cons_of_mem ni hil, his⟩
          · exact ⟨i, List.mem_cons_of_mem ci hil, his⟩
          · obtain ⟨j, hj, hjs⟩ := ih (Or.inl ⟨i, hil, his⟩) hil
            exact ⟨j, List.mem_cons_of_mem ci hj, hjs⟩

variable (slot stamp ni l) in
/-- A step leaves the slots as they were or adds the new one. -/
theorem slots_resolve : (resolve slot stamp ni l).filterMap slot = l.filterMap slot ∨
    ∃ s, slot ni = some s ∧ (∀ i ∈ l, slot i ≠ some s) ∧ (resolve slot stamp ni l).filterMap slot = l.filterMap slot ++ [s] := by
  cases hs : slot ni with
  | none =>
      rw [resolve_none hs, List.filterMap_append]
      simp [hs]
  | some s =>
      by_cases h : ∃ i ∈ l, slot i = some s
      · obtain ⟨pre, c, post, rfl, hc, -, heq⟩ := resolve_taken stamp hs h
        refine Or.inl ?_
        rw [heq, List.filterMap_append, List.filterMap_append, List.filterMap_cons_some hc]
        split_ifs
        · rw [List.filterMap_cons_some hs]
        · rw [List.filterMap_cons_some hc]
      · have hfresh : ∀ i ∈ l, slot i ≠ some s := fun i hi his => h ⟨i, hi, his⟩
        refine Or.inr ⟨s, rfl, hfresh, ?_⟩
        rw [resolve_fresh (hs ▸ hfresh), List.filterMap_append]
        simp [hs]

theorem clear_resolve_iff : Clear slot (resolve slot stamp ni l) ↔ Clear slot l := by
  rw [Clear, Clear]
  rcases slots_resolve slot stamp ni l with heq | ⟨s, -, hfresh, heq⟩
  · rw [heq]
  · have hnot : s ∉ l.filterMap slot := fun hin => by
      obtain ⟨i, hi, his⟩ := List.mem_filterMap.mp hin
      exact hfresh i hi his
    rw [heq, List.nodup_append_comm, List.singleton_append, List.nodup_cons, and_iff_right hnot]

theorem Resolved.step (h : Resolved slot stamp all l) (ni : I) :
    Resolved slot stamp (all ++ [ni]) (resolve slot stamp ni l) := by
  have hclear : Clear slot (resolve slot stamp ni l) := clear_resolve_iff.mpr h.clear
  cases hs : slot ni with
  | none =>
      rw [resolve_none hs] at hclear ⊢
      exact h.push (fun s hns => by rw [hs] at hns; cases hns) hclear
  | some s =>
      by_cases hin : ∃ i ∈ l, slot i = some s
      · obtain ⟨pre, c, post, rfl, hc, -, heq⟩ := resolve_taken stamp hs hin
        rw [heq] at hclear ⊢
        exact h.replace hs hc hclear
      · have hfresh : ∀ i ∈ l, slot i ≠ some s := fun i hi his => hin ⟨i, hi, his⟩
        rw [resolve_fresh (hs ▸ hfresh)] at hclear ⊢
        exact h.push (fun s' hns => by rw [hs] at hns; exact Option.some.inj hns ▸ hfresh) hclear

theorem Resolved.absorb (h : Resolved slot stamp all l) (incoming : List I) :
    Resolved slot stamp (all ++ incoming) (absorb slot stamp l incoming) := by
  induction incoming generalizing all l with
  | nil =>
      rw [List.append_nil]
      exact h
  | cons ni incoming ih =>
      have hstep := ih (h.step ni)
      rw [List.append_assoc, List.singleton_append] at hstep
      exact hstep

theorem clear_absorb_iff (incoming : List I) : Clear slot (absorb slot stamp l incoming) ↔ Clear slot l := by
  induction incoming generalizing l with
  | nil => exact Iff.rfl
  | cons ni incoming ih => exact ih.trans clear_resolve_iff

end Steps

end AntaresBroker.Slots
