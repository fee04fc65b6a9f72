import Mathlib.Data.List.Perm.Basic
import Mathlib.Data.List.Nodup
import Mathlib.Data.List.Induction

namespace AntaresBroker

/-- A fold makes a property hold just when it held before or one of the steps makes it hold. -/
theorem foldl_iff {α β : Type} {f : β → α → β} {P : β → Prop} {Q : α → Prop} (h : ∀ b a, P (f b a) ↔ P b ∨ Q a)
    (l : List α) (b : β) : P (l.foldl f b) ↔ P b ∨ ∃ a ∈ l, Q a := by
  induction l generalizing b with
  | nil => simp
  | cons a l ih => simp only [List.foldl_cons, ih, h, List.mem_cons, or_and_right, exists_or, exists_eq_left, or_assoc]

namespace Grouping

variable {α κ : Type} [DecidableEq κ] (key : α → κ) (absorb : α → α → α)

/-- The first element of the same key absorbs a new one. -/
def put (r : α) : List α → List α
  | [] => [r]
  | o :: out => if key o = key r then absorb o r :: out else o :: put r out

def group (l : List α) : List α := l.foldl (fun out r => put key absorb r out) []

theorem group_snoc (l : List α) (r : α) : group key absorb (l ++ [r]) = put key absorb r (group key absorb l) := by
  simp [group]

/-- What every element has and absorbing keeps, every group has. -/
theorem group_all {Q : α → Prop} (habsorb : ∀ o r, Q o → Q (absorb o r)) {l : List α} (hl : ∀ r ∈ l, Q r) :
    ∀ o ∈ group key absorb l, Q o := by
  induction l using List.reverseRecOn with
  | nil => exact fun _ h => by cases h
  | append_singleton l r ih =>
      rw [group_snoc]
      have hout := ih (fun r' hr' => hl r' (List.mem_append_left _ hr'))
      have hr := hl r (List.mem_append_right _ (List.mem_singleton.mpr rfl))
      generalize group key absorb l = out at hout
      induction out with
      | nil => simpa [put] using hr
      | cons o out ih =>
          rw [List.forall_mem_cons] at hout
          rw [put]
          split_ifs
          · exact List.forall_mem_cons.mpr ⟨habsorb o r hout.1, hout.2⟩
          · exact List.forall_mem_cons.mpr ⟨hout.1, ih hout.2⟩

variable {key absorb} (hkey : ∀ o r, key o = key r → key (absorb o r) = key o)

include hkey in
theorem keys_put (r : α) (out : List α) :
    (put key absorb r out).map key = if key r ∈ out.map key then out.map key else out.map key ++ [key r] := by
  induction out with
  | nil => rfl
  | cons o out ih =>
      by_cases h : key o = key r
      · have hin := hkey o r h
        simp [put, h, hin]
      · have hne : key r ≠ key o := Ne.symm h
        rw [put, if_neg h, List.map_cons, ih]
        by_cases hr : key r ∈ out.map key
        · rw [if_pos hr, List.map_cons, if_pos (List.mem_cons_of_mem _ hr)]
        · rw [if_neg hr, List.map_cons, if_neg (by rw [List.mem_cons, not_or]; exact ⟨hne, hr⟩), List.cons_append]

include hkey in
theorem mem_keys_group {k : κ} (l : List α) : k ∈ (group key absorb l).map key ↔ k ∈ l.map key := by
  induction l using List.reverseRecOn with
  | nil => rfl
  | append_singleton l r ih =>
      rw [group_snoc, keys_put hkey, List.map_append, List.mem_append, ← ih, List.map_singleton, List.mem_singleton]
      split_ifs with h
      · exact ⟨Or.inl, fun hk => hk.elim id (fun hk => hk ▸ h)⟩
      · rw [List.mem_append, List.mem_singleton]

include hkey in
/-- One element is left of each key. -/
theorem nodup_keys_group (l : List α) : ((group key absorb l).map key).Nodup := by
  induction l using List.reverseRecOn with
  | nil => exact List.nodup_nil
  | append_singleton l r ih =>
      rw [group_snoc, keys_put hkey]
      split_ifs with h
      · exact ih
      · exact List.nodup_append.mpr ⟨ih, List.nodup_singleton _, fun a ha b hb hab => h (List.mem_singleton.mp hb ▸ hab ▸ ha)⟩

include hkey in
theorem group_existsUnique {l : List α} {r : α} (hr : r ∈ l) : ∃! o, o ∈ group key absorb l ∧ key o = key r := by
  obtain ⟨o, ho, hk⟩ := List.mem_map.mp ((mem_keys_group hkey l).mpr (List.mem_map_of_mem hr))
  refine ⟨o, ⟨ho, hk⟩, fun o' ho' => ?_⟩
  exact List.inj_on_of_nodup_map (nodup_keys_group hkey l) ho'.1 ho (ho'.2.trans hk.symm)

include hkey in
/-- The keys that are left do not depend on the order. -/
theorem keys_group_perm {l l' : List α} (h : l.Perm l') :
    ((group key absorb l).map key).Perm ((group key absorb l').map key) := by
  refine (List.perm_ext_iff_of_nodup (nodup_keys_group hkey l) (nodup_keys_group hkey l')).mpr fun k => ?_
  rw [mem_keys_group hkey, mem_keys_group hkey]
  exact (h.map key).mem_iff

/-- Absorbing joins what a property says of the two. -/
def Joins (key : α → κ) (absorb : α → α → α) (P : α → Prop) : Prop := ∀ o r, key o = key r → (P (absorb o r) ↔ P o ∨ P r)

include hkey in
theorem put_iff {P : α → Prop} (hP : Joins key absorb P) {r o : α} {out : List α} (hout : (out.map key).Nodup)
    (ho : o ∈ put key absorb r out) : P o ↔ (∃ o' ∈ out, key o' = key o ∧ P o') ∨ (key r = key o ∧ P r) := by
  induction out with
  | nil =>
      obtain rfl := List.mem_singleton.mp ho
      simp
  | cons a out ih =>
      rw [List.map_cons, List.nodup_cons] at hout
      have hfresh : ∀ o' ∈ out, key o' ≠ key a := fun o' ho' h => hout.1 (h ▸ List.mem_map_of_mem ho')
      simp only [List.mem_cons, or_and_right, exists_or, exists_eq_left]
      by_cases h : key a = key r
      · rw [put, if_pos h] at ho
        rcases List.mem_cons.mp ho with rfl | ho
        · have hnone : ¬ ∃ o' ∈ out, key o' = key r ∧ P o' :=
            fun ⟨o', ho', hk, _⟩ => hfresh o' ho' (hk.trans h.symm)
          simp only [hkey a r h, hnone, or_false, h, true_and]
          exact hP a r h
        · have hne : key a ≠ key o := Ne.symm (hfresh o ho)
          have hr : key r ≠ key o := h ▸ hne
          simp only [hne, hr, false_and, false_or, or_false]
          refine ⟨fun hp => ⟨o, ho, rfl, hp⟩, fun ⟨o', ho', hk, hp⟩ => ?_⟩
          exact List.inj_on_of_nodup_map hout.2 ho' ho hk ▸ hp
      · rw [put, if_neg h] at ho
        rcases List.mem_cons.mp ho with rfl | ho
        · have hnone : ¬ ∃ o' ∈ out, key o' = key o ∧ P o' := fun ⟨o', ho', hk, _⟩ => hfresh o' ho' hk
          simp only [hnone, or_false, Ne.symm h, false_and, true_and]
        · have hne : key a ≠ key o := by
            intro hk
            have hmem : key o ∈ (put key absorb r out).map key := List.mem_map_of_mem ho
            rw [keys_put hkey] at hmem
            split_ifs at hmem with hr
            · exact hout.1 (hk ▸ hmem)
            · rcases List.mem_append.mp hmem with hmem | hmem
              · exact hout.1 (hk ▸ hmem)
              · exact h (hk.trans (List.mem_singleton.mp hmem))
          simp only [hne, false_and, false_or]
          exact ih hout.2 ho

include hkey in
/-- What joins under absorption is said of a group just when it is said of one of its members. -/
theorem group_iff {P : α → Prop} (hP : Joins key absorb P) {l : List α} {o : α} (ho : o ∈ group key absorb l) :
    P o ↔ ∃ r ∈ l, key r = key o ∧ P r := by
  induction l using List.reverseRecOn generalizing o with
  | nil => cases ho
  | append_singleton l r ih =>
      rw [group_snoc] at ho
      rw [put_iff hkey hP (nodup_keys_group hkey l) ho]
      have hgroup : (∃ o' ∈ group key absorb l, key o' = key o ∧ P o') ↔ ∃ r ∈ l, key r = key o ∧ P r := by
        constructor
        · rintro ⟨o', ho', hk, hp⟩
          obtain ⟨r, hr, hkr, hp⟩ := (ih ho').mp hp
          exact ⟨r, hr, hkr.trans hk, hp⟩
        · rintro ⟨r, hr, hk, hp⟩
          obtain ⟨o', ⟨ho', hk'⟩, -⟩ := group_existsUnique hkey hr
          exact ⟨o', ho', hk'.trans hk, (ih ho').mpr ⟨r, hr, hk'.symm, hp⟩⟩
      rw [hgroup]
      constructor
      · rintro (⟨r', hr', h⟩ | h)
        · exact ⟨r', List.mem_append_left _ hr', h⟩
        · exact ⟨r, List.mem_append_right _ (List.mem_singleton.mpr rfl), h⟩
      · rintro ⟨r', hr', h⟩
        rcases List.mem_append.mp hr' with hr' | hr'
        · exact .inl ⟨r', hr', h⟩
        · exact .inr (List.mem_singleton.mp hr' ▸ h)

include hkey in
theorem find_put (k : κ) (r : α) (out : List α) :
    (put key absorb r out).find? (fun o => key o = k) =
      if key r = k then some ((out.find? (fun o => key o = k)).elim r (fun o => absorb o r))
      else out.find? (fun o => key o = k) := by
  induction out with
  | nil =>
      rw [put, List.find?_cons]
      by_cases h : key r = k <;> simp [h]
  | cons o out ih =>
      rw [put]
      by_cases ho : key o = key r
      · have hin := hkey o r ho
        rw [if_pos ho, List.find?_cons, List.find?_cons, hin, ho]
        by_cases h : key r = k <;> simp [h]
      · rw [if_neg ho, List.find?_cons, List.find?_cons]
        by_cases h : key o = k
        · have hne : key r ≠ k := fun hr => ho (h.trans hr.symm)
          simp [h, hne]
        · rw [decide_eq_false h]
          exact ih

/-- What its group has absorbed already changes nothing. -/
theorem put_absorbed {r : α} {out : List α} (hmem : key r ∈ out.map key)
    (h : ∀ o ∈ out, key o = key r → absorb o r = o) : put key absorb r out = out := by
  induction out with
  | nil => cases hmem
  | cons o out ih =>
      rw [List.forall_mem_cons] at h
      rw [put]
      split_ifs with ho
      · rw [h.1 ho]
      · rw [ih ((List.mem_cons.mp hmem).resolve_left (Ne.symm ho)) h.2]

section Upsert

variable (key)

/-- A new element takes the place of the one of its key, or the last place. -/
def upsert (out : List α) (r : α) : List α := put key (fun _ r => r) r out

variable {key}

theorem keys_upsert (out : List α) (r : α) :
    (upsert key out r).map key = if key r ∈ out.map key then out.map key else out.map key ++ [key r] :=
  keys_put (fun _ _ h => h.symm) r out

theorem find_upsert (k : κ) (out : List α) (r : α) :
    (upsert key out r).find? (fun o => key o = k) = if key r = k then some r else out.find? (fun o => key o = k) := by
  rw [upsert, find_put fun _ _ h => h.symm]
  cases out.find? (fun o => key o = k) <;> rfl

/-- After a list of updates the last one of a key stands. -/
theorem find_foldl_upsert (k : κ) (l out : List α) : (l.foldl (upsert key) out).find? (fun o => key o = k) =
    (l.reverse.find? (fun o => key o = k)).or (out.find? (fun o => key o = k)) := by
  induction l using List.reverseRecOn with
  | nil => rfl
  | append_singleton l r ih =>
      rw [List.foldl_concat, find_upsert, ih, List.reverse_append, List.reverse_singleton, List.singleton_append,
        List.find?_cons]
      by_cases h : key r = k <;> simp [h]

theorem nodup_foldl_upsert (l : List α) {out : List α} (hout : (out.map key).Nodup) :
    ((l.foldl (upsert key) out).map key).Nodup := by
  induction l generalizing out with
  | nil => exact hout
  | cons r l ih =>
      refine ih ?_
      rw [keys_upsert]
      split_ifs with h
      · exact hout
      · exact List.nodup_append.mpr ⟨hout, List.nodup_singleton _, fun a ha b hb hab => h (List.mem_singleton.mp hb ▸ hab ▸ ha)⟩

theorem mem_keys_foldl_upsert {k : κ} (l out : List α) :
    k ∈ (l.foldl (upsert key) out).map key ↔ k ∈ out.map key ∨ k ∈ l.map key := by
  induction l generalizing out with
  | nil => simp
  | cons r l ih =>
      rw [List.foldl_cons, ih, keys_upsert, List.map_cons, List.mem_cons]
      split_ifs with h
      · exact ⟨fun hk => hk.imp_right .inr, fun hk => hk.elim .inl (fun hk => hk.elim (fun hk => .inl (hk ▸ h)) .inr)⟩
      · rw [List.mem_append, List.mem_singleton, or_assoc]

/-- Updates of keys that are there move nothing. -/
theorem keys_foldl_upsert_of_mem {l out : List α} (h : ∀ r ∈ l, key r ∈ out.map key) :
    (l.foldl (upsert key) out).map key = out.map key := by
  induction l generalizing out with
  | nil => rfl
  | cons r l ih =>
      rw [List.forall_mem_cons] at h
      have hone : (upsert key out r).map key = out.map key := by rw [keys_upsert, if_pos h.1]
      rw [List.foldl_cons, ih (fun r' hr' => hone ▸ h.2 r' hr'), hone]

theorem ext_find {xs ys : List α} (hkeys : xs.map key = ys.map key) (hnodup : (xs.map key).Nodup)
    (hfind : ∀ k, xs.find? (fun o => key o = k) = ys.find? (fun o => key o = k)) : xs = ys := by
  induction xs generalizing ys with
  | nil => exact (List.map_eq_nil_iff.mp hkeys.symm).symm
  | cons x xs ih =>
      cases ys with
      | nil => cases hkeys
      | cons y ys =>
          rw [List.map_cons, List.map_cons, List.cons.injEq] at hkeys
          rw [List.map_cons, List.nodup_cons] at hnodup
          have hhead : x = y := by
            have h := hfind (key x)
            rw [List.find?_cons, List.find?_cons, ← hkeys.1] at h
            simpa using h
          subst hhead
          refine congrArg (x :: ·) (ih hkeys.2 hnodup.2 fun k => ?_)
          by_cases hk : key x = k
          · have hnone : ∀ zs : List α, k ∉ zs.map key → zs.find? (fun o => key o = k) = none := by
              intro zs hzs
              refine List.find?_eq_none.mpr fun z hz => ?_
              rw [decide_eq_true_eq]
              exact fun hk => hzs (List.mem_map.mpr ⟨z, hz, hk⟩)
            rw [hnone xs (hk ▸ hnodup.1), hnone ys (hk ▸ hkeys.2 ▸ hnodup.1)]
          · have h := hfind k
            rwa [List.find?_cons_of_neg (by simpa using hk), List.find?_cons_of_neg (by simpa using hk)] at h

/-- The same updates once more change nothing. -/
theorem foldl_upsert_idem (l : List α) {out : List α} (hnodup : ((l.foldl (upsert key) out).map key).Nodup) :
    l.foldl (upsert key) (l.foldl (upsert key) out) = l.foldl (upsert key) out := by
  have hmem : ∀ r ∈ l, key r ∈ (l.foldl (upsert key) out).map key :=
    fun r hr => (mem_keys_foldl_upsert l out).mpr (.inr (List.mem_map_of_mem hr))
  have hkeys := keys_foldl_upsert_of_mem hmem
  refine ext_find hkeys (hkeys ▸ hnodup) fun k => ?_
  rw [find_foldl_upsert, find_foldl_upsert]
  cases l.reverse.find? (fun o => key o = k) <;> rfl

/-- Elements of distinct keys are put one after the other. -/
theorem foldl_upsert_fresh {l out : List α} (h : ((out ++ l).map key).Nodup) : l.foldl (upsert key) out = out ++ l := by
  induction l generalizing out with
  | nil => rw [List.append_nil]; rfl
  | cons r l ih =>
      have hr : key r ∉ out.map key := by
        rw [List.map_append, List.nodup_append] at h
        exact fun hr => h.2.2 _ hr _ List.mem_cons_self rfl
      have hone : upsert key out r = out ++ [r] := by
        clear h ih
        induction out with
        | nil => rfl
        | cons o out ih =>
            rw [List.map_cons, List.mem_cons, not_or] at hr
            rw [upsert, put, if_neg (Ne.symm hr.1), List.cons_append]
            exact congrArg (o :: ·) (ih hr.2)
      rw [List.foldl_cons, hone, ih (by rwa [List.append_assoc]), List.append_assoc]
      rfl

end Upsert

end Grouping

end AntaresBroker
