import AntaresBroker.KeyedList
import Mathlib.Data.Finset.Card
import Mathlib.Data.Finset.Dedup

namespace AntaresBroker.Fifo

open KeyedList

variable {κ ν : Type} [DecidableEq κ]

/-- Entries of different keys, the first admitted first, no more than there is room for. -/
structure Queue (κ ν : Type) (room : Nat) where
  entries : List (κ × ν)
  distinct : (entries.map Prod.fst).Nodup
  bounded : entries.length ≤ room

inductive Op (κ ν : Type)
  | put (k : κ) (v : ν)
  | drop (k : κ)
  | clear

variable {room : Nat}

def Queue.empty : Queue κ ν room := ⟨[], List.nodup_nil, Nat.zero_le _⟩

def Queue.keys (q : Queue κ ν room) : List κ := q.entries.map Prod.fst

def Queue.get (q : Queue κ ν room) (k : κ) : Option ν := (at_key Prod.fst k q.entries).map Prod.snd

/-- The keys of a queue that has made room for one more. -/
def admitted (room : Nat) (k : κ) (keys : List κ) : List κ := keys.drop (keys.length + 1 - room) ++ [k]

/-- A value takes the place of the old one under its key, or the place of the first
admitted, at the end. -/
def put_entries (room : Nat) (k : κ) (v : ν) (entries : List (κ × ν)) : List (κ × ν) :=
  if k ∈ entries.map Prod.fst then entries.map (fun e => if e.1 = k then (k, v) else e)
  else entries.drop (entries.length + 1 - room) ++ [(k, v)]

theorem keys_rewrite (k : κ) (v : ν) (entries : List (κ × ν)) :
    (entries.map (fun e => if e.1 = k then (k, v) else e)).map Prod.fst = entries.map Prod.fst := by
  rw [List.map_map]
  apply List.map_congr_left
  intro e _
  by_cases h : e.1 = k
  · simp [h]
  · simp [h]

theorem keys_put_entries (k : κ) (v : ν) (entries : List (κ × ν)) : (put_entries room k v entries).map Prod.fst =
    if k ∈ entries.map Prod.fst then entries.map Prod.fst else admitted room k (entries.map Prod.fst) := by
  unfold put_entries
  split_ifs with h
  · exact keys_rewrite k v entries
  · simp [admitted, List.map_drop]

omit [DecidableEq κ] in
theorem nodup_admitted {k : κ} {keys : List κ} (h : keys.Nodup) (hk : k ∉ keys) : (admitted room k keys).Nodup := by
  apply List.Nodup.append
  · exact h.sublist (List.drop_sublist _ _)
  · exact List.nodup_singleton k
  · intro a ha hak
    exact hk (List.mem_singleton.mp hak ▸ List.mem_of_mem_drop ha)

omit [DecidableEq κ] in
theorem length_admitted {k : κ} {keys : List κ} (hroom : room ≠ 0) : (admitted room k keys).length ≤ room := by
  rw [admitted, List.length_append, List.length_drop, List.length_singleton]
  omega

theorem nodup_put_entries {k : κ} {v : ν} {entries : List (κ × ν)} (h : (entries.map Prod.fst).Nodup) :
    ((put_entries room k v entries).map Prod.fst).Nodup := by
  rw [keys_put_entries]
  split_ifs with hk
  · exact h
  · exact nodup_admitted h hk

theorem length_put_entries {k : κ} {v : ν} {entries : List (κ × ν)} (hroom : room ≠ 0) (h : entries.length ≤ room) :
    (put_entries room k v entries).length ≤ room := by
  have hkeys := congrArg List.length (@keys_put_entries κ ν _ room k v entries)
  rw [List.length_map] at hkeys
  rw [hkeys]
  split_ifs
  · rwa [List.length_map]
  · exact length_admitted hroom

/-- A queue without room takes nothing. -/
def Queue.put (q : Queue κ ν room) (k : κ) (v : ν) : Queue κ ν room :=
  if hroom : room = 0 then q
  else ⟨put_entries room k v q.entries, nodup_put_entries q.distinct, length_put_entries hroom q.bounded⟩

def Queue.drop (q : Queue κ ν room) (k : κ) : Queue κ ν room :=
  ⟨q.entries.filter (fun e => decide (e.1 ≠ k)), q.distinct.sublist (List.filter_sublist.map _),
    le_trans (List.length_filter_le _ _) q.bounded⟩

def Queue.step (q : Queue κ ν room) : Op κ ν → Queue κ ν room
  | .put k v => q.put k v
  | .drop k => q.drop k
  | .clear => Queue.empty

def run (room : Nat) (ops : List (Op κ ν)) : Queue κ ν room := ops.foldl Queue.step Queue.empty

/-- What a list of operations last said under a key. -/
def said (k : κ) (before : Option ν) : Op κ ν → Option ν
  | .put k' v => if k' = k then some v else before
  | .drop k' => if k' = k then none else before
  | .clear => none

section Values

variable {q : Queue κ ν room} {k k' : κ} {v : ν}

theorem get_isSome : (q.get k).isSome ↔ k ∈ q.keys := by
  rw [Queue.get, Option.isSome_map]
  constructor
  · intro h
    obtain ⟨e, he⟩ := Option.isSome_iff_exists.mp h
    obtain ⟨hmem, rfl⟩ := at_key_some he
    exact List.mem_map_of_mem hmem
  · intro h
    apply Option.ne_none_iff_isSome.mp
    intro hnone
    exact at_key_none.mp hnone h

theorem get_eq_some : q.get k = some v ↔ (k, v) ∈ q.entries := by
  rw [Queue.get, Option.map_eq_some_iff]
  constructor
  · rintro ⟨e, he, rfl⟩
    obtain ⟨hmem, rfl⟩ := at_key_some he
    exact hmem
  · intro h
    exact ⟨(k, v), at_key_mem q.distinct h, rfl⟩

theorem entries_put (hroom : room ≠ 0) : (q.put k v).entries = put_entries room k v q.entries := by
  rw [Queue.put, dif_neg hroom]

theorem entries_put_there (hroom : room ≠ 0) (hk : k ∈ q.keys) :
    (q.put k v).entries = q.entries.map (fun e => if e.1 = k then (k, v) else e) := by
  rw [entries_put hroom, put_entries]
  exact if_pos hk

theorem entries_put_fresh (hroom : room ≠ 0) (hk : k ∉ q.keys) :
    (q.put k v).entries = q.entries.drop (q.entries.length + 1 - room) ++ [(k, v)] := by
  rw [entries_put hroom, put_entries]
  exact if_neg hk

theorem mem_put {e : κ × ν} (h : e ∈ (q.put k' v).entries) : e = (k', v) ∨ e.1 ≠ k' ∧ e ∈ q.entries := by
  by_cases hroom : room = 0
  · have hnil : q.entries = [] := List.eq_nil_of_length_eq_zero (by have := q.bounded; omega)
    rw [Queue.put, dif_pos hroom, hnil] at h
    cases h
  rw [entries_put hroom, put_entries] at h
  split_ifs at h with hk
  · obtain ⟨e', he', heq⟩ := List.mem_map.mp h
    by_cases hkey : e'.1 = k'
    · rw [if_pos hkey] at heq
      exact .inl heq.symm
    · rw [if_neg hkey] at heq
      exact .inr ⟨heq ▸ hkey, heq ▸ he'⟩
  · rcases List.mem_append.mp h with h | h
    · have hmem := List.mem_of_mem_drop h
      exact .inr ⟨fun heq => hk (heq ▸ List.mem_map_of_mem hmem), hmem⟩
    · exact .inl (List.mem_singleton.mp h)

/-- A value under a key that is there, or where there is room, moves nothing. -/
theorem get_put (hroom : room ≠ 0) (h : k ∈ q.keys ∨ q.entries.length < room) (a : κ) :
    (q.put k v).get a = if a = k then some v else q.get a := by
  ext w
  rw [get_eq_some]
  by_cases hk : k ∈ q.keys
  · rw [entries_put_there hroom hk, List.mem_map]
    split_ifs with ha
    · subst ha
      rw [Option.some.injEq]
      constructor
      · rintro ⟨e, -, heq⟩
        split_ifs at heq with he
        · cases heq
          rfl
        · cases heq
          exact absurd rfl he
      · rintro rfl
        obtain ⟨e, he, rfl⟩ := List.mem_map.mp hk
        exact ⟨e, he, if_pos rfl⟩
    · rw [get_eq_some]
      constructor
      · rintro ⟨e, he, heq⟩
        split_ifs at heq with hkey
        · cases heq
          exact absurd rfl ha
        · exact heq ▸ he
      · intro hmem
        exact ⟨(a, w), hmem, if_neg ha⟩
  · have hfits : q.entries.length + 1 - room = 0 := by
      have := h.resolve_left hk
      omega
    rw [entries_put_fresh hroom hk, hfits, List.drop_zero, List.mem_append, List.mem_singleton, Prod.mk.injEq]
    split_ifs with ha
    · subst ha
      rw [Option.some.injEq]
      constructor
      · rintro (hmem | ⟨-, rfl⟩)
        · exact absurd (List.mem_map_of_mem hmem) hk
        · rfl
      · rintro rfl
        exact .inr ⟨rfl, rfl⟩
    · rw [get_eq_some]
      constructor
      · rintro (hmem | ⟨heq, -⟩)
        · exact hmem
        · exact absurd heq ha
      · exact .inl

/-- A new key in a full queue takes the place of the first admitted. -/
theorem get_put_full {old : κ} {rest : List κ} (hkeys : q.keys = old :: rest) (hfull : q.entries.length = room)
    (hk : k ∉ q.keys) (a : κ) : (q.put k v).get a = if a = k then some v else if a = old then none else q.get a := by
  obtain ⟨entries, hdistinct, hbounded⟩ := q
  cases entries with
  | nil => cases hkeys
  | cons e entries =>
      obtain ⟨rfl, rfl⟩ : e.1 = old ∧ entries.map Prod.fst = rest := by simpa [Queue.keys] using hkeys
      have hroom : room ≠ 0 := by
        rintro rfl
        cases hfull
      have hout := (List.nodup_cons.mp hdistinct).1
      ext w
      rw [get_eq_some, entries_put_fresh hroom hk, hfull, Nat.add_sub_cancel_left, List.drop_one, List.tail_cons,
        List.mem_append, List.mem_singleton, Prod.mk.injEq]
      have hin (hmem : (a, w) ∈ entries) : a ≠ k ∧ a ≠ e.1 := by
        constructor
        · rintro rfl
          exact hk (List.mem_cons_of_mem _ (List.mem_map_of_mem hmem))
        · rintro rfl
          exact hout (List.mem_map.mpr ⟨_, hmem, rfl⟩)
      split_ifs with ha he
      · rw [Option.some.injEq]
        constructor
        · rintro (hmem | ⟨-, rfl⟩)
          · exact absurd ha (hin hmem).1
          · rfl
        · rintro rfl
          exact .inr ⟨ha, rfl⟩
      · constructor
        · rintro (hmem | ⟨heq, -⟩)
          · exact absurd he (hin hmem).2
          · exact absurd heq ha
        · intro h
          cases h
      · rw [get_eq_some, List.mem_cons]
        constructor
        · rintro (hmem | ⟨heq, -⟩)
          · exact .inr hmem
          · exact absurd heq ha
        · rintro (rfl | hmem)
          · exact absurd rfl he
          · exact .inl hmem

theorem get_drop (a : κ) : (q.drop k).get a = if a = k then none else q.get a := by
  ext w
  rw [get_eq_some]
  split_ifs with ha
  · subst ha
    constructor
    · intro h
      exact absurd rfl (of_decide_eq_true (List.mem_filter.mp h).2)
    · intro h
      cases h
  · rw [get_eq_some]
    exact ⟨fun h => (List.mem_filter.mp h).1, fun h => List.mem_filter.mpr ⟨h, decide_eq_true ha⟩⟩

/-- A value that is there is the last said. -/
theorem step_said {before : Option ν} {op : Op κ ν} (h : ∀ v, q.get k = some v → before = some v)
    (hget : (q.step op).get k = some v) : said k before op = some v := by
  rw [get_eq_some] at hget
  cases op with
  | put k' v' =>
      rw [said]
      rcases mem_put hget with heq | ⟨hne, hmem⟩
      · cases heq
        exact if_pos rfl
      · rw [if_neg (Ne.symm hne)]
        exact h v (get_eq_some.mpr hmem)
  | drop k' =>
      obtain ⟨hmem, hne⟩ := List.mem_filter.mp hget
      rw [said, if_neg (Ne.symm (of_decide_eq_true hne))]
      exact h v (get_eq_some.mpr hmem)
  | clear => cases hget

theorem run_said {ops : List (Op κ ν)} (h : (run room ops).get k = some v) : ops.foldl (said k) none = some v := by
  have hstep (ops : List (Op κ ν)) (q : Queue κ ν room) (before : Option ν) (hq : ∀ v, q.get k = some v → before = some v)
      (h : (ops.foldl Queue.step q).get k = some v) : ops.foldl (said k) before = some v := by
    induction ops generalizing q before with
    | nil => exact hq v h
    | cons op ops ih => exact ih (q.step op) (said k before op) (fun v hv => step_said hq hv) h
  apply hstep ops Queue.empty none _ h
  intro v hv
  cases hv

end Values

section Survival

/-- The keys of the queue that were admitted after one that is still there have been put since. -/
def Younger (q : Queue κ ν room) (k : κ) (s : Finset κ) : Prop :=
  ∃ older younger, q.keys = older ++ k :: younger ∧ ∀ a ∈ younger, a ∈ s

variable {q : Queue κ ν room} {k a : κ} {v : ν} {s : Finset κ}

theorem keys_put (hroom : room ≠ 0) :
    (q.put a v).keys = if a ∈ q.keys then q.keys else admitted room a q.keys := by
  rw [Queue.keys, entries_put hroom, keys_put_entries]
  rfl

omit [DecidableEq κ] in
theorem keys_nodup (q : Queue κ ν room) : q.keys.Nodup := q.distinct

omit [DecidableEq κ] in
theorem length_keys (q : Queue κ ν room) : q.keys.length ≤ room := by
  rw [Queue.keys, List.length_map]
  exact q.bounded

/-- A key newly admitted is the youngest. -/
theorem younger_put_fresh (hroom : room ≠ 0) (hk : k ∉ q.keys) : Younger (q.put k v) k ∅ := by
  unfold Younger
  rw [keys_put hroom, if_neg hk]
  exact ⟨_, [], rfl, fun a ha => by cases ha⟩

/-- One put takes out a key only after as many others as there is room for. -/
theorem younger_put (h : Younger q k s) (hfew : (insert a s).card < room) (hne : a ≠ k) :
    Younger (q.put a v) k (insert a s) := by
  have hroom : room ≠ 0 := by omega
  obtain ⟨older, younger, heq, hsince⟩ := h
  unfold Younger
  rw [keys_put hroom]
  split_ifs with ha
  · exact ⟨older, younger, heq, fun b hb => Finset.mem_insert_of_mem (hsince b hb)⟩
  have hnodup := keys_nodup q
  rw [heq] at hnodup ha
  -- the younger keys and the new one are among those put since
  have hcard : younger.length + 1 ≤ (insert a s).card := by
    have hdistinct : (a :: younger).Nodup := by
      apply List.nodup_cons.mpr
      constructor
      · intro hmem
        exact ha (by simp [hmem])
      · exact (List.nodup_cons.mp (List.nodup_append.mp hnodup).2.1).2
    rw [← List.length_cons (a := a), ← List.toFinset_card_of_nodup hdistinct]
    apply Finset.card_le_card
    intro b hb
    rcases List.mem_cons.mp (List.mem_toFinset.mp hb) with rfl | hb
    · exact Finset.mem_insert_self _ _
    · exact Finset.mem_insert_of_mem (hsince b hb)
  have hlength := length_keys q
  rw [heq, List.length_append, List.length_cons] at hlength
  refine ⟨older.drop (q.keys.length + 1 - room), younger ++ [a], ?_, ?_⟩
  · rw [admitted, heq, List.drop_append_of_le_length, List.append_assoc, List.cons_append]
    rw [List.length_append, List.length_cons]
    omega
  · intro b hb
    rcases List.mem_append.mp hb with hb | hb
    · exact Finset.mem_insert_of_mem (hsince b hb)
    · rw [List.mem_singleton.mp hb]
      exact Finset.mem_insert_self _ _

theorem younger_put_same (h : Younger q k s) (hroom : room ≠ 0) : Younger (q.put k v) k s := by
  obtain ⟨older, younger, heq, hsince⟩ := h
  unfold Younger
  rw [keys_put hroom, if_pos (by simp [heq])]
  exact ⟨older, younger, heq, hsince⟩

/-- A list of values put leaves a key that is there, while too few others have been put. -/
theorem younger_puts (puts : List (κ × ν)) (h : Younger q k s)
    (hfew : (s ∪ ((puts.map Prod.fst).toFinset.erase k)).card < room) :
    k ∈ (puts.foldl (fun q e => q.put e.1 e.2) q).keys := by
  induction puts generalizing q s with
  | nil =>
      obtain ⟨older, younger, heq, -⟩ := h
      rw [List.foldl_nil, heq]
      simp
  | cons e puts ih =>
      have hroom : room ≠ 0 := by omega
      by_cases hne : e.1 = k
      · apply ih (q := q.put e.1 e.2) (s := s)
        · rw [hne]
          exact younger_put_same h hroom
        · apply lt_of_le_of_lt (Finset.card_le_card _) hfew
          apply Finset.union_subset_union_right
          apply Finset.erase_subset_erase
          simp
      · have hset : insert e.1 s ∪ ((puts.map Prod.fst).toFinset.erase k) =
            s ∪ (((e :: puts).map Prod.fst).toFinset.erase k) := by
          ext b
          simp only [Finset.mem_union, Finset.mem_insert, Finset.mem_erase, List.mem_toFinset, List.map_cons, List.mem_cons]
          constructor
          · rintro ((rfl | hb) | hb)
            · exact .inr ⟨hne, .inl rfl⟩
            · exact .inl hb
            · exact .inr ⟨hb.1, .inr hb.2⟩
          · rintro (hb | ⟨hb, rfl | hmem⟩)
            · exact .inl (.inr hb)
            · exact .inl (.inl rfl)
            · exact .inr ⟨hb, hmem⟩
        apply ih (q := q.put e.1 e.2) (s := insert e.1 s)
        · apply younger_put h _ hne
          apply lt_of_le_of_lt (Finset.card_le_card _) (hset ▸ hfew)
          exact Finset.subset_union_left
        · exact hset ▸ hfew

end Survival

end AntaresBroker.Fifo
