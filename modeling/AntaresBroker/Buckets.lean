import AntaresBroker.BTreeMap
import Mathlib.Data.Finset.Basic

namespace AntaresBroker

/-- An inverted index: the ids under each key, and those no key can exclude. -/
structure Buckets (κ ι : Type) [LinearOrder κ] where
  filed : BTreeMap κ (Finset ι)
  broad : Finset ι

namespace Buckets

variable {κ ι α : Type} [LinearOrder κ] [DecidableEq ι]

def empty : Buckets κ ι := ⟨BTreeMap.empty, ∅⟩

/-- The ids under one key. -/
def under (b : Buckets κ ι) (k : κ) : Finset ι := (b.filed.get k).getD ∅

def drop (id : ι) (m : BTreeMap κ (Finset ι)) (k : κ) : BTreeMap κ (Finset ι) :=
  match m.get k with
  | none => m
  | some set => if set.erase id = ∅ then m.remove k else m.insert k (set.erase id)

/-- Take an id out of the buckets of its keys; without keys it stands in the broad set. -/
def unfile (id : ι) (keys : Option (List κ)) (b : Buckets κ ι) : Buckets κ ι :=
  match keys with
  | none => { b with broad := b.broad.erase id }
  | some ks => { b with filed := ks.foldl (drop id) b.filed }

def file (id : ι) (keys : Option (List κ)) (b : Buckets κ ι) : Buckets κ ι :=
  match keys with
  | none => { b with broad := insert id b.broad }
  | some ks => { b with filed := ks.foldl (fun m k => m.insert k (insert id ((m.get k).getD ∅))) b.filed }

/-- The ids a set of keys reaches; without keys nothing is narrowed. -/
def bucketed (keys : Option (List κ)) (b : Buckets κ ι) : Option (Finset ι) :=
  keys.map (fun ks => ks.foldl (fun out k => out ∪ b.under k) b.broad)

/-- An id under these keys. -/
def Keyed (keys : Option (List κ)) (k : κ) : Prop := ∃ ks, keys = some ks ∧ k ∈ ks

theorem drop_get (id : ι) (m : BTreeMap κ (Finset ι)) (k l : κ) :
    ((drop id m k).get l).getD ∅ = if l = k then ((m.get l).getD ∅).erase id else (m.get l).getD ∅ := by
  unfold drop
  cases hk : m.get k with
  | none =>
      by_cases h : l = k
      · subst h; simp [hk]
      · simp [h]
  | some set =>
      by_cases h : l = k
      · subst h
        by_cases he : set.erase id = ∅
        · simp [hk, he]
        · simp [hk, he]
      · by_cases he : set.erase id = ∅
        · simp [he, h]
        · simp [he, h]

theorem mem_foldl_drop {id j : ι} {l : κ} (ks : List κ) (m : BTreeMap κ (Finset ι)) :
    j ∈ ((ks.foldl (drop id) m).get l).getD ∅ ↔ j ∈ (m.get l).getD ∅ ∧ ¬ (j = id ∧ l ∈ ks) := by
  induction ks generalizing m with
  | nil => simp
  | cons k ks ih =>
      rw [List.foldl_cons, ih, drop_get]
      by_cases h : l = k
      · subst h
        simp [Finset.mem_erase]
        tauto
      · simp [h]

theorem mem_unfile {id j : ι} {keys : Option (List κ)} {b : Buckets κ ι} {k : κ} :
    j ∈ (unfile id keys b).under k ↔ j ∈ b.under k ∧ ¬ (j = id ∧ Keyed keys k) := by
  cases keys with
  | none => simp [unfile, under, Keyed]
  | some ks =>
      unfold unfile under Keyed
      simp only [Option.some.injEq, exists_eq_left']
      exact mem_foldl_drop ks b.filed

theorem mem_unfile_broad {id j : ι} {keys : Option (List κ)} {b : Buckets κ ι} :
    j ∈ (unfile id keys b).broad ↔ j ∈ b.broad ∧ ¬ (j = id ∧ keys = none) := by
  cases keys with
  | none => simp [unfile, Finset.mem_erase, and_comm]
  | some ks => simp [unfile]

theorem mem_foldl_insert {id j : ι} {l : κ} (ks : List κ) (m : BTreeMap κ (Finset ι)) :
    j ∈ ((ks.foldl (fun m k => m.insert k (insert id ((m.get k).getD ∅))) m).get l).getD ∅ ↔
      j ∈ (m.get l).getD ∅ ∨ (j = id ∧ l ∈ ks) := by
  induction ks generalizing m with
  | nil => simp
  | cons k ks ih =>
      rw [List.foldl_cons, ih, BTreeMap.get_insert]
      by_cases h : l = k
      · subst h
        simp [Finset.mem_insert]
        tauto
      · simp [h]

theorem mem_file {id j : ι} {keys : Option (List κ)} {b : Buckets κ ι} {k : κ} :
    j ∈ (file id keys b).under k ↔ j ∈ b.under k ∨ (j = id ∧ Keyed keys k) := by
  cases keys with
  | none => simp [file, under, Keyed]
  | some ks =>
      unfold file under Keyed
      simp only [Option.some.injEq, exists_eq_left']
      exact mem_foldl_insert ks b.filed

theorem mem_file_broad {id j : ι} {keys : Option (List κ)} {b : Buckets κ ι} :
    j ∈ (file id keys b).broad ↔ j ∈ b.broad ∨ (j = id ∧ keys = none) := by
  cases keys with
  | none => simp [file, Finset.mem_insert, or_comm]
  | some ks => simp [file]

theorem mem_foldl_union {b : Buckets κ ι} {j : ι} (ks : List κ) (out : Finset ι) :
    j ∈ ks.foldl (fun out k => out ∪ b.under k) out ↔ j ∈ out ∨ ∃ k ∈ ks, j ∈ b.under k := by
  induction ks generalizing out with
  | nil => simp
  | cons k ks ih =>
      rw [List.foldl_cons, ih]
      simp [Finset.mem_union, or_assoc]

/-- The buckets file every document of a store under the keys `keys` reads off it, and nothing else. -/
structure Indexes (keys : α → Option (List κ)) (docs : ι → Option α) (b : Buckets κ ι) : Prop where
  under : ∀ j k, j ∈ b.under k ↔ ∃ d, docs j = some d ∧ Keyed (keys d) k
  broad : ∀ j, j ∈ b.broad ↔ ∃ d, docs j = some d ∧ keys d = none

omit [DecidableEq ι] in
theorem indexes_empty (keys : α → Option (List κ)) {docs : ι → Option α} (h : ∀ j, docs j = none) :
    Indexes keys docs (empty : Buckets κ ι) where
  under j k := by simp [Buckets.under, empty, h]
  broad j := by simp [empty, h]

/-- Taking a document's id out of its buckets unindexes the document. -/
theorem Indexes.unfile {keys : α → Option (List κ)} {docs docs' : ι → Option α} {b : Buckets κ ι} {id : ι} {d : α}
    (h : Indexes keys docs b) (hd : docs id = some d) (hid : docs' id = none)
    (hother : ∀ j, j ≠ id → docs' j = docs j) : Indexes keys docs' (unfile id (keys d) b) where
  under j k := by
    rw [mem_unfile, h.under]
    by_cases hj : j = id
    · subst hj
      simp [hd, hid]
    · simp [hj, hother j hj]
  broad j := by
    rw [mem_unfile_broad, h.broad]
    by_cases hj : j = id
    · subst hj
      simp [hd, hid]
    · simp [hj, hother j hj]

theorem Indexes.file {keys : α → Option (List κ)} {docs docs' : ι → Option α} {b : Buckets κ ι} {id : ι} {d : α}
    (h : Indexes keys docs b) (hnone : docs id = none) (hd : docs' id = some d)
    (hother : ∀ j, j ≠ id → docs' j = docs j) : Indexes keys docs' (file id (keys d) b) where
  under j k := by
    rw [mem_file, h.under]
    by_cases hj : j = id
    · subst hj
      simp [hd, hnone]
    · simp [hj, hother j hj]
  broad j := by
    rw [mem_file_broad, h.broad]
    by_cases hj : j = id
    · subst hj
      simp [hd, hnone]
    · simp [hj, hother j hj]

/-- What a set of keys reaches in an index of a store. -/
theorem Indexes.mem_bucketed {keys : α → Option (List κ)} {docs : ι → Option α} {b : Buckets κ ι}
    (h : Indexes keys docs b) {ks : List κ} {out : Finset ι} (hout : bucketed (some ks) b = some out) {j : ι} {d : α}
    (hd : docs j = some d) : j ∈ out ↔ keys d = none ∨ ∃ k ∈ ks, Keyed (keys d) k := by
  obtain rfl := Option.some.inj hout
  rw [mem_foldl_union, h.broad]
  simp [h.under, hd]

end Buckets

end AntaresBroker
