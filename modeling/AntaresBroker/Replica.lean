import Mathlib.Logic.Function.Basic
import Mathlib.Data.Set.Insert

namespace AntaresBroker.Replica

variable {Key Image : Type} [DecidableEq Key]

/-- An image with the number of the write that left it. -/
structure Stamped (Image : Type) where
  version : Nat
  image : Image

/-- An image of an earlier write, or the current one. -/
def Past (current old : Stamped Image) : Prop :=
  old.version ≤ current.version ∧ (old.version = current.version → old.image = current.image)

theorem Past.refl (m : Stamped Image) : Past m m := ⟨le_rfl, fun _ => rfl⟩

def next (m : Stamped Image) (x : Image) : Stamped Image := ⟨m.version + 1, x⟩

theorem Past.next {m old : Stamped Image} (h : Past m old) (x : Image) : Past (next m x) old :=
  ⟨Nat.le_succ_of_le h.1, fun heq => absurd h.1 (Nat.not_le.mpr (by rw [heq]; exact Nat.lt_succ_self _))⟩

/-- A copy that follows an original through images under way: what is under way
and what the copy holds are images the original had, and where the copy lags
behind, its current image is under way or owed. -/
structure Tracks (current copy : Key → Stamped Image) (carried : Set (Key × Stamped Image)) (owed : Set Key) :
    Prop where
  carried_past : ∀ k m, (k, m) ∈ carried → Past (current k) m
  copy_past : ∀ k, Past (current k) (copy k)
  ahead : ∀ k, k ∈ owed ∨ (copy k).version = (current k).version ∨
    ∃ m, (k, m) ∈ carried ∧ m.version = (current k).version

namespace Tracks

variable {current copy : Key → Stamped Image} {carried carried' : Set (Key × Stamped Image)} {owed owed' : Set Key}
  {k : Key} {m : Stamped Image}

omit [DecidableEq Key] in
theorem initial (current : Key → Stamped Image) : Tracks current current ∅ ∅ where
  carried_past _ _ h := absurd h (Set.notMem_empty _)
  copy_past k := Past.refl (current k)
  ahead _ := .inr (.inl rfl)

omit [DecidableEq Key] in
/-- With nothing under way and nothing owed the copy is the original. -/
theorem settled (h : Tracks current copy carried owed) (hc : (∀ m, (k, m) ∉ carried)) (ho : k ∉ owed) :
    (copy k).image = (current k).image := by
  rcases h.ahead k with howed | heq | ⟨m, hm, -⟩
  · exact absurd howed ho
  · exact (h.copy_past k).2 heq
  · exact absurd hm (hc m)

omit [DecidableEq Key] in
/-- Images may be added as they are now, and dropped where they are owed. -/
theorem change (h : Tracks current copy carried owed)
    (hnew : ∀ k m, (k, m) ∈ carried' → (k, m) ∈ carried ∨ m = current k)
    (hkept : ∀ k m, (k, m) ∈ carried → (k, m) ∈ carried' ∨ k ∈ owed' ∨ (copy k).version = (current k).version)
    (howed : ∀ k ∈ owed, k ∈ owed' ∨ (k, current k) ∈ carried') : Tracks current copy carried' owed' where
  carried_past k m hm := by
    rcases hnew k m hm with hm | rfl
    · exact h.carried_past k m hm
    · exact Past.refl _
  copy_past := h.copy_past
  ahead k := by
    rcases h.ahead k with ho | heq | ⟨m, hm, heq⟩
    · rcases howed k ho with ho | hm
      · exact .inl ho
      · exact .inr (.inr ⟨_, hm, rfl⟩)
    · exact .inr (.inl heq)
    · rcases hkept k m hm with hm | ho | hc
      · exact .inr (.inr ⟨m, hm, heq⟩)
      · exact .inl ho
      · exact .inr (.inl hc)

/-- A write: its image is under way from then on, or owed. -/
theorem write (h : Tracks current copy carried owed) (k : Key) (x : Image)
    (hnew : ∀ j m, (j, m) ∈ carried' → (j, m) ∈ carried ∨ (j, m) = (k, next (current k) x))
    (hkept : ∀ j m, j ≠ k → (j, m) ∈ carried → (j, m) ∈ carried')
    (howed : ∀ j ∈ owed, j ∈ owed') (hk : (k, next (current k) x) ∈ carried' ∨ k ∈ owed') :
    Tracks (Function.update current k (next (current k) x)) copy carried' owed' where
  carried_past j m hm := by
    by_cases hj : j = k
    · subst hj
      rw [Function.update_self]
      rcases hnew j m hm with hm | heq
      · exact (h.carried_past j m hm).next x
      · rw [(Prod.mk.inj heq).2]
        exact Past.refl _
    · rw [Function.update_of_ne hj]
      rcases hnew j m hm with hm | heq
      · exact h.carried_past j m hm
      · exact absurd (Prod.mk.inj heq).1 hj
  copy_past j := by
    by_cases hj : j = k
    · subst hj
      rw [Function.update_self]
      exact (h.copy_past j).next x
    · rw [Function.update_of_ne hj]
      exact h.copy_past j
  ahead j := by
    by_cases hj : j = k
    · subst hj
      rw [Function.update_self]
      exact hk.elim (fun hm => .inr (.inr ⟨_, hm, rfl⟩)) .inl
    · rw [Function.update_of_ne hj]
      rcases h.ahead j with ho | heq | ⟨m, hm, heq⟩
      · exact .inl (howed j ho)
      · exact .inr (.inl heq)
      · exact .inr (.inr ⟨m, hkept j m hj hm, heq⟩)

/-- The copy takes an image that is no older than the one it holds, or the
current one is still under way or owed. -/
theorem arrive (h : Tracks current copy carried owed) (hm : (k, m) ∈ carried)
    (hle : (copy k).version ≤ m.version ∨ k ∈ owed ∨ ∃ m', (k, m') ∈ carried' ∧ m'.version = (current k).version)
    (hsub : carried' ⊆ carried) (hkept : ∀ p ∈ carried, p ≠ (k, m) → p ∈ carried') :
    Tracks current (Function.update copy k m) carried' owed where
  carried_past j m' hm' := h.carried_past j m' (hsub hm')
  copy_past j := by
    by_cases hj : j = k
    · subst hj
      rw [Function.update_self]
      exact h.carried_past j m hm
    · rw [Function.update_of_ne hj]
      exact h.copy_past j
  ahead j := by
    by_cases hj : j = k
    · subst hj
      rw [Function.update_self]
      rcases hle with hle | ho | hcarried
      · rcases h.ahead j with ho | heq | ⟨m', hm', heq⟩
        · exact .inl ho
        · have hpast := (h.carried_past j m hm).1
          exact .inr (.inl (le_antisymm hpast (heq ▸ hle)))
        · by_cases hne : m' = m
          · exact .inr (.inl (hne ▸ heq))
          · exact .inr (.inr ⟨m', hkept _ hm' fun hp => hne (Prod.mk.inj hp).2, heq⟩)
      · exact .inl ho
      · exact .inr (.inr hcarried)
    · rw [Function.update_of_ne hj]
      rcases h.ahead j with ho | heq | ⟨m', hm', heq⟩
      · exact .inl ho
      · exact .inr (.inl heq)
      · exact .inr (.inr ⟨m', hkept _ hm' fun hp => hj (Prod.mk.inj hp).1, heq⟩)

omit [DecidableEq Key] in
/-- The copy is read anew where its images are owed. -/
theorem refresh {copy' : Key → Stamped Image} (h : Tracks current copy carried owed)
    (hpast : ∀ k ∈ owed, Past (current k) (copy' k)) (hsame : ∀ k ∉ owed, copy' k = copy k)
    (hpaid : ∀ k ∈ owed, k ∈ owed' ∨ (copy' k).version = (current k).version ∨
      ∃ m, (k, m) ∈ carried ∧ m.version = (current k).version) : Tracks current copy' carried owed' where
  carried_past := h.carried_past
  copy_past k := by
    by_cases hk : k ∈ owed
    · exact hpast k hk
    · rw [hsame k hk]
      exact h.copy_past k
  ahead k := by
    by_cases hk : k ∈ owed
    · exact hpaid k hk
    · rw [hsame k hk]
      exact .inr ((h.ahead k).resolve_left hk)

end Tracks

end AntaresBroker.Replica
