import Mathlib.Data.String.Basic
import Mathlib.Data.List.Basic
import Mathlib.Algebra.Ring.Nat

namespace AntaresBroker.Text

/-- A condition on the characters of a text is decided along the text, not over
every character there is. -/
instance decidableForallMem {p : Char → Prop} [DecidablePred p] (s : List Char) : Decidable (∀ c ∈ s, p c) :=
  List.decidableBAll p s

/-- The text before and after the first occurrence of a character. -/
def splitOnce (c : Char) : List Char → Option (List Char × List Char)
  | [] => none
  | d :: s => if d = c then some ([], s) else (splitOnce c s).map (fun p => (d :: p.1, p.2))

def split_once (c : Char) (s : String) : Option (String × String) :=
  (splitOnce c s.toList).map (fun p => (String.ofList p.1, String.ofList p.2))

def starts_with (s p : String) : Bool := p.toList.isPrefixOf s.toList

def strip_prefix (s p : String) : Option String :=
  if starts_with s p then some (String.ofList (s.toList.drop p.toList.length)) else none

/-- The text cut after `n` bytes, if that is between two characters. -/
def splitAtByte : Nat → List Char → Option (List Char × List Char)
  | 0, s => some ([], s)
  | _ + 1, [] => none
  | n + 1, c :: s =>
      if c.utf8Size ≤ n + 1 then (splitAtByte (n + 1 - c.utf8Size) s).map (fun p => (c :: p.1, p.2)) else none

def split_at_byte (n : Nat) (s : String) : Option (String × String) :=
  (splitAtByte n s.toList).map (fun p => (String.ofList p.1, String.ofList p.2))

def byteSize (s : List Char) : Nat := (s.map Char.utf8Size).sum

/-- The length of a text in bytes. -/
def len (s : String) : Nat := byteSize s.toList

theorem byteSize_append (s t : List Char) : byteSize (s ++ t) = byteSize s + byteSize t := by simp [byteSize]

theorem byteSize_cons (c : Char) (s : List Char) : byteSize (c :: s) = c.utf8Size + byteSize s := by simp [byteSize]

theorem byteSize_ascii {s : List Char} (h : ∀ c ∈ s, c.utf8Size = 1) : byteSize s = s.length := by
  induction s with
  | nil => rfl
  | cons c s ih =>
      obtain ⟨hc, hs⟩ := List.forall_mem_cons.mp h
      rw [byteSize_cons, hc, ih hs, List.length_cons, Nat.add_comm]

theorem splitOnce_eq_some {c : Char} {s a b : List Char} :
    splitOnce c s = some (a, b) ↔ s = a ++ c :: b ∧ c ∉ a := by
  induction s generalizing a with
  | nil => simp [splitOnce]
  | cons d s ih =>
      rw [splitOnce]
      by_cases hd : d = c
      · rw [if_pos hd]
        cases a with
        | nil => simp [hd, eq_comm]
        | cons e a =>
            subst hd
            constructor
            · intro h
              simp at h
            · rintro ⟨h, hn⟩
              injection h with h _
              simp [h] at hn
      · rw [if_neg hd]
        cases a with
        | nil => simp [hd]
        | cons e a =>
            constructor
            · intro h
              obtain ⟨⟨a', b'⟩, hp, he⟩ := Option.map_eq_some_iff.mp h
              simp only [Prod.mk.injEq, List.cons.injEq] at he
              obtain ⟨⟨rfl, rfl⟩, rfl⟩ := he
              obtain ⟨rfl, hn⟩ := ih.mp hp
              exact ⟨rfl, by simp [Ne.symm hd, hn]⟩
            · rintro ⟨h, hn⟩
              simp only [List.cons_append, List.cons.injEq] at h
              obtain ⟨rfl, rfl⟩ := h
              rw [ih.mpr ⟨rfl, fun hm => hn (List.mem_cons_of_mem _ hm)⟩]
              rfl

theorem splitOnce_eq_none {c : Char} {s : List Char} : splitOnce c s = none ↔ c ∉ s := by
  induction s with
  | nil => simp [splitOnce]
  | cons d s ih =>
      rw [splitOnce]
      by_cases hd : d = c
      · simp [hd]
      · simp [hd, ih, Ne.symm hd]

theorem split_once_eq_some {c : Char} {s a b : String} :
    split_once c s = some (a, b) ↔ s.toList = a.toList ++ c :: b.toList ∧ c ∉ a.toList := by
  rw [split_once, Option.map_eq_some_iff, ← splitOnce_eq_some]
  constructor
  · rintro ⟨⟨a', b'⟩, h, he⟩
    simp only [Prod.mk.injEq] at he
    rw [← he.1, ← he.2, String.toList_ofList, String.toList_ofList]
    exact h
  · intro h
    exact ⟨_, h, by simp⟩

theorem split_once_eq_none {c : Char} {s : String} : split_once c s = none ↔ c ∉ s.toList := by
  rw [split_once, Option.map_eq_none_iff, splitOnce_eq_none]

theorem starts_with_iff {s p : String} : starts_with s p = true ↔ ∃ r, s = p ++ r := by
  rw [starts_with, List.isPrefixOf_iff_prefix]
  constructor
  · rintro ⟨r, hr⟩
    exact ⟨String.ofList r, String.toList_inj.mp (by simp [hr])⟩
  · rintro ⟨r, rfl⟩
    exact ⟨r.toList, by simp⟩

theorem strip_prefix_eq_some {s p r : String} : strip_prefix s p = some r ↔ s = p ++ r := by
  unfold strip_prefix
  constructor
  · intro h
    split_ifs at h with hp
    obtain ⟨r', rfl⟩ := starts_with_iff.mp hp
    injection h with h
    rw [← h]
    simp
  · rintro rfl
    rw [if_pos (starts_with_iff.mpr ⟨r, rfl⟩)]
    simp

theorem strip_prefix_eq_none {s p : String} : strip_prefix s p = none ↔ ∀ r, s ≠ p ++ r := by
  constructor
  · intro h r hr
    rw [strip_prefix_eq_some.mpr hr] at h
    simp at h
  · intro h
    cases hs : strip_prefix s p with
    | none => rfl
    | some r => exact absurd (strip_prefix_eq_some.mp hs) (h r)

theorem splitAtByte_eq_some {n : Nat} {s a b : List Char} :
    splitAtByte n s = some (a, b) ↔ s = a ++ b ∧ byteSize a = n := by
  induction s generalizing n a with
  | nil =>
      cases n with
      | zero => cases a <;> simp [splitAtByte, byteSize, eq_comm]
      | succ n => cases a <;> simp [splitAtByte, byteSize]
  | cons c s ih =>
      have hc := Char.utf8Size_pos c
      cases n with
      | zero =>
          cases a with
          | nil => simp [splitAtByte, byteSize, eq_comm]
          | cons d a =>
              have hd := Char.utf8Size_pos d
              simp [splitAtByte, byteSize]
              omega
      | succ n =>
          rw [splitAtByte]
          cases a with
          | nil =>
              split_ifs <;> simp [byteSize]
          | cons d a =>
              constructor
              · intro h
                split_ifs at h with hle
                obtain ⟨⟨a', b'⟩, hp, he⟩ := Option.map_eq_some_iff.mp h
                simp only [Prod.mk.injEq, List.cons.injEq] at he
                obtain ⟨⟨rfl, rfl⟩, rfl⟩ := he
                obtain ⟨rfl, hn⟩ := ih.mp hp
                refine ⟨rfl, ?_⟩
                simp only [byteSize, List.map_cons, List.sum_cons] at hn ⊢
                omega
              · rintro ⟨h, hn⟩
                simp only [List.cons_append, List.cons.injEq] at h
                obtain ⟨rfl, rfl⟩ := h
                simp only [byteSize, List.map_cons, List.sum_cons] at hn
                rw [if_pos (by omega), ih.mpr ⟨rfl, by simp only [byteSize]; omega⟩]
                rfl

theorem len_append (s t : String) : len (s ++ t) = len s + len t := by simp [len, byteSize]

theorem len_pos_iff {s : String} : 0 < len s ↔ s ≠ "" := by
  rw [len, byteSize, ne_eq, ← String.toList_inj]
  cases s.toList with
  | nil => simp
  | cons c l => have hc := Char.utf8Size_pos c; simp; omega

theorem split_at_byte_eq_some {n : Nat} {s a b : String} :
    split_at_byte n s = some (a, b) ↔ s = a ++ b ∧ len a = n := by
  rw [split_at_byte, Option.map_eq_some_iff, ← String.toList_inj, String.toList_append, len,
    ← splitAtByte_eq_some]
  constructor
  · rintro ⟨⟨a', b'⟩, h, he⟩
    simp only [Prod.mk.injEq] at he
    rw [← he.1, ← he.2, String.toList_ofList, String.toList_ofList]
    exact h
  · intro h
    exact ⟨_, h, by simp⟩

end AntaresBroker.Text
