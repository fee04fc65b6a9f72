import Mathlib.Data.List.Nodup

namespace AntaresBroker.KeyedList

variable {α κ : Type} [DecidableEq κ] (key : α → κ)

def at_key (k : κ) (l : List α) : Option α := l.find? (fun o => key o = k)

/-- The element of a key edited, put in where there is none, or taken out. -/
def alter (k : κ) (f : Option α → Option α) : List α → List α
  | [] => (f none).toList
  | o :: l => if key o = k then (f (some o)).toList ++ l else o :: alter k f l

/-- An edit that gives an element of the key or none. -/
def Keyed (k : κ) (f : Option α → Option α) : Prop := ∀ o r, (∀ e ∈ o, key e = k) → f o = some r → key r = k

variable {key} {k : κ} {f : Option α → Option α} {l : List α}

theorem at_key_some {o : α} (h : at_key key k l = some o) : o ∈ l ∧ key o = k :=
  ⟨List.mem_of_find?_eq_some h, of_decide_eq_true (List.find?_some (p := fun o => decide (key o = k)) h)⟩

theorem at_key_none : at_key key k l = none ↔ k ∉ l.map key := by
  rw [at_key, List.find?_eq_none, List.mem_map]
  constructor
  · rintro h ⟨o, ho, hk⟩
    exact h o ho (decide_eq_true hk)
  · intro h o ho hk
    exact h ⟨o, ho, of_decide_eq_true hk⟩

theorem at_key_cons (o : α) : at_key key k (o :: l) = if key o = k then some o else at_key key k l := by
  rw [at_key, List.find?_cons]
  split_ifs with h <;> simp [at_key, h]

theorem at_key_mem (hl : (l.map key).Nodup) {o : α} (ho : o ∈ l) : at_key key (key o) l = some o := by
  induction l with
  | nil => cases ho
  | cons a l ih =>
      rw [List.map_cons, List.nodup_cons] at hl
      rw [at_key_cons]
      rcases List.mem_cons.mp ho with rfl | ho
      · exact if_pos rfl
      · rw [if_neg, ih hl.2 ho]
        intro heq
        exact hl.1 (heq ▸ List.mem_map_of_mem ho)

theorem mem_keys_alter (hf : Keyed key k f) {k' : κ} (h : k' ∈ (alter key k f l).map key) : k' = k ∨ k' ∈ l.map key := by
  induction l with
  | nil =>
      left
      obtain ⟨r, hr, rfl⟩ := List.mem_map.mp h
      exact hf none r (fun _ he => by cases he) (Option.mem_toList.mp hr)
  | cons o l ih =>
      rw [alter] at h
      split_ifs at h with ho
      · rw [List.map_append] at h
        rcases List.mem_append.mp h with h | h
        · obtain ⟨r, hr, rfl⟩ := List.mem_map.mp h
          left
          apply hf (some o) r _ (Option.mem_toList.mp hr)
          rintro e ⟨⟩
          exact ho
        · exact .inr (List.mem_cons_of_mem _ h)
      · rcases List.mem_cons.mp h with rfl | h
        · exact .inr List.mem_cons_self
        · exact (ih h).imp_right (List.mem_cons_of_mem _)

theorem nodup_alter (hf : Keyed key k f) (hl : (l.map key).Nodup) : ((alter key k f l).map key).Nodup := by
  induction l with
  | nil =>
      rw [alter]
      cases f none <;> simp
  | cons o l ih =>
      rw [List.map_cons, List.nodup_cons] at hl
      rw [alter]
      split_ifs with ho
      · cases hr : f (some o) with
        | none => exact hl.2
        | some r =>
            have hkey : key r = k := by
              apply hf (some o) r _ hr
              rintro e ⟨⟩
              exact ho
            rw [Option.toList_some, List.singleton_append, List.map_cons, List.nodup_cons, hkey, ← ho]
            exact hl
      · rw [List.map_cons, List.nodup_cons]
        refine ⟨fun hmem => ?_, ih hl.2⟩
        rcases mem_keys_alter hf hmem with heq | hmem
        · exact ho heq
        · exact hl.1 hmem

/-- What an edit leaves at each key. -/
theorem at_key_alter (hf : Keyed key k f) (hl : (l.map key).Nodup) (k' : κ) :
    at_key key k' (alter key k f l) = if k' = k then f (at_key key k l) else at_key key k' l := by
  induction l with
  | nil =>
      rw [alter, at_key, at_key, at_key, List.find?_nil, List.find?_nil]
      cases hr : f none with
      | none => split_ifs <;> rfl
      | some r =>
          have hkey : key r = k := hf none r (fun _ he => by cases he) hr
          rw [Option.toList_some, List.find?_cons, List.find?_nil, hkey]
          by_cases hk : k' = k
          · rw [if_pos hk, decide_eq_true hk.symm]
          · rw [if_neg hk, decide_eq_false (Ne.symm hk)]
  | cons o l ih =>
      rw [List.map_cons, List.nodup_cons] at hl
      rw [alter, at_key_cons, at_key_cons]
      by_cases ho : key o = k
      · rw [if_pos ho, if_pos ho]
        have hout : at_key key k l = none := at_key_none.mpr (ho ▸ hl.1)
        cases hr : f (some o) with
        | none =>
            by_cases hk : k' = k
            · rw [if_pos hk, hk]
              exact hout
            · rw [if_neg hk, if_neg (fun h => hk (h.symm.trans ho))]
              rfl
        | some r =>
            have hkey : key r = k := by
              apply hf (some o) r _ hr
              rintro e ⟨⟩
              exact ho
            rw [Option.toList_some, List.singleton_append, at_key_cons, hkey]
            by_cases hk : k' = k
            · rw [if_pos hk.symm, if_pos hk]
            · rw [if_neg (Ne.symm hk), if_neg hk, if_neg (fun h => hk (h.symm.trans ho))]
      · rw [if_neg ho, if_neg ho, at_key_cons, ih hl.2]
        by_cases hk : key o = k'
        · rw [if_pos hk, if_pos hk, if_neg (fun h => ho (hk.trans h))]
        · rw [if_neg hk, if_neg hk]

theorem alter_elements {P : α → Prop} (hf : ∀ o r, (∀ e ∈ o, P e) → f o = some r → P r) (hl : ∀ e ∈ l, P e) :
    ∀ e ∈ alter key k f l, P e := by
  induction l with
  | nil =>
      intro e he
      exact hf none e (fun _ h => by cases h) (Option.mem_toList.mp he)
  | cons o l ih =>
      rw [List.forall_mem_cons] at hl
      rw [alter]
      split_ifs with ho
      · intro e he
        rcases List.mem_append.mp he with he | he
        · apply hf (some o) e _ (Option.mem_toList.mp he)
          rintro _ ⟨⟩
          exact hl.1
        · exact hl.2 e he
      · exact List.forall_mem_cons.mpr ⟨hl.1, ih hl.2⟩

/-- With no element of the key, what the edit makes is the last. -/
theorem alter_fresh (h : k ∉ l.map key) : alter key k f l = l ++ (f none).toList := by
  induction l with
  | nil => rfl
  | cons o l ih =>
      rw [List.map_cons, List.mem_cons, not_or] at h
      rw [alter, if_neg (Ne.symm h.1), ih h.2]
      rfl

/-- An edit that gives back what it is given changes nothing. -/
theorem alter_eq_self (h : f (at_key key k l) = at_key key k l) : alter key k f l = l := by
  induction l with
  | nil =>
      rw [alter]
      exact congrArg Option.toList h
  | cons o l ih =>
      rw [at_key_cons] at h
      rw [alter]
      by_cases ho : key o = k
      · rw [if_pos ho] at h ⊢
        rw [h]
        rfl
      · rw [if_neg ho] at h ⊢
        rw [ih h]

section Fold

variable {β : Type} {kb : β → κ} {g : β → Option α → Option α}

/-- Edits of different keys, one after the other. -/
def alter_all (key : α → κ) (kb : β → κ) (g : β → Option α → Option α) (bs : List β) (l : List α) : List α :=
  bs.foldl (fun l b => alter key (kb b) (g b) l) l

theorem nodup_alter_all (hg : ∀ b, Keyed key (kb b) (g b)) {bs : List β} (hl : (l.map key).Nodup) :
    ((alter_all key kb g bs l).map key).Nodup := by
  induction bs generalizing l with
  | nil => exact hl
  | cons b bs ih => exact ih (nodup_alter (hg b) hl)

theorem at_key_alter_all (hg : ∀ b, Keyed key (kb b) (g b)) {bs : List β} (hbs : (bs.map kb).Nodup) (hl : (l.map key).Nodup)
    (k : κ) : at_key key k (alter_all key kb g bs l) =
      (at_key kb k bs).elim (at_key key k l) (fun b => g b (at_key key k l)) := by
  induction bs generalizing l with
  | nil => rfl
  | cons b bs ih =>
      rw [List.map_cons, List.nodup_cons] at hbs
      rw [alter_all, List.foldl_cons, ← alter_all, ih hbs.2 (nodup_alter (hg b) hl), at_key_cons, at_key_alter (hg b) hl]
      by_cases hk : k = kb b
      · rw [if_pos hk, if_pos hk.symm, hk, at_key_none.mpr hbs.1]
        rfl
      · rw [if_neg hk, if_neg (Ne.symm hk)]

theorem alter_all_eq_self {bs : List β} (h : ∀ b ∈ bs, g b (at_key key (kb b) l) = at_key key (kb b) l) :
    alter_all key kb g bs l = l := by
  induction bs with
  | nil => rfl
  | cons b bs ih =>
      rw [List.forall_mem_cons] at h
      rw [alter_all, List.foldl_cons, alter_eq_self h.1]
      exact ih h.2

theorem alter_all_elements {P : α → Prop} {bs : List β} (hg : ∀ b ∈ bs, ∀ o r, (∀ e ∈ o, P e) → g b o = some r → P r)
    (hl : ∀ e ∈ l, P e) : ∀ e ∈ alter_all key kb g bs l, P e := by
  induction bs generalizing l with
  | nil => exact hl
  | cons b bs ih =>
      rw [List.forall_mem_cons] at hg
      exact ih hg.2 (alter_elements hg.1 hl)

/-- Edits of keys that are not there add what they make. -/
theorem alter_all_fresh (hg : ∀ b, Keyed key (kb b) (g b)) {bs : List β} (hbs : (bs.map kb).Nodup)
    (h : ∀ b ∈ bs, kb b ∉ l.map key) : alter_all key kb g bs l = l ++ bs.filterMap (fun b => g b none) := by
  induction bs generalizing l with
  | nil => exact (List.append_nil l).symm
  | cons b bs ih =>
      rw [List.map_cons, List.nodup_cons] at hbs
      rw [List.forall_mem_cons] at h
      have hrest : ∀ c ∈ bs, kb c ∉ (alter key (kb b) (g b) l).map key := by
        intro c hc hmem
        rcases mem_keys_alter (hg b) hmem with heq | hmem
        · exact hbs.1 (heq ▸ List.mem_map_of_mem hc)
        · exact h.2 c hc hmem
      rw [alter_all, List.foldl_cons, ← alter_all, ih hbs.2 hrest, alter_fresh h.1, List.append_assoc]
      cases hb : g b none <;> simp [hb]

end Fold

end AntaresBroker.KeyedList
