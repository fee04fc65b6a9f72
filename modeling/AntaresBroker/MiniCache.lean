import AntaresBroker.Fifo
import Mathlib.Data.List.AList

namespace AntaresBroker.MiniCache

open Fifo

variable {K V : Type} [DecidableEq K]

/-- The resident entries, and their keys in the order in which they came. -/
structure Cache (K V : Type) where
  cap : Nat
  map : AList (fun _ : K => V)
  order : List K

def new (cap : Nat) : Cache K V := ⟨cap, ∅, []⟩

def len (map : AList (fun _ : K => V)) : Nat := map.entries.length

def Cache.get (c : Cache K V) (key : K) : Option V := c.map.lookup key

/-- The loop that takes keys from the front until there is room. -/
def make_room (cap : Nat) (map : AList (fun _ : K => V)) : List K → AList (fun _ : K => V) × List K
  | [] => (map, [])
  | old :: order => if cap ≤ len map then make_room cap (map.erase old) order else (map, old :: order)

def Cache.insert (c : Cache K V) (key : K) (value : V) : Cache K V :=
  if c.cap = 0 then c
  else if key ∈ c.map then { c with map := c.map.insert key value }
  else
    let room := make_room c.cap c.map c.order
    { c with map := room.1.insert key value, order := room.2 ++ [key] }

def Cache.invalidate (c : Cache K V) (key : K) : Cache K V :=
  let map := c.map.erase key
  { c with map, order := c.order.filter (fun k => decide (k ∈ map)) }

def Cache.invalidate_all (c : Cache K V) : Cache K V := { c with map := ∅, order := [] }

def Cache.iter (c : Cache K V) : List (K × V) := c.map.entries.map (fun e => (e.1, e.2))

def Cache.entry_count (c : Cache K V) : Nat := len c.map

def Cache.step (c : Cache K V) : Op K V → Cache K V
  | .put key value => c.insert key value
  | .drop key => c.invalidate key
  | .clear => c.invalidate_all

/-- A cache of a capacity after some calls. -/
def after (cap : Nat) (ops : List (Op K V)) : Cache K V := ops.foldl Cache.step (new cap)

/-- The cache holds the entries of the queue, under keys in its order. -/
structure Holds {cap : Nat} (c : Cache K V) (q : Queue K V cap) : Prop where
  cap : c.cap = cap
  order : c.order = q.keys
  get : ∀ k, c.get k = q.get k

section Holding

variable {cap : Nat} {c : Cache K V} {q : Queue K V cap} (h : Holds c q)

include h

theorem mem_map_iff (k : K) : k ∈ c.map ↔ k ∈ q.keys := by
  rw [← AList.lookup_isSome, ← get_isSome]
  exact Eq.to_iff (congrArg (fun o : Option V => o.isSome = true) (h.get k))

theorem keys_perm : c.map.keys.Perm q.keys :=
  (List.perm_ext_iff_of_nodup c.map.keys_nodup q.distinct).mpr (mem_map_iff h)

theorem len_eq : len c.map = q.entries.length := by
  have hlength := (keys_perm h).length_eq
  rwa [Queue.keys, List.length_map, AList.keys, List.keys, List.length_map] at hlength

theorem iter_perm : c.iter.Perm q.entries := by
  have hiter : c.iter.Nodup := by
    apply List.Nodup.map
    · rintro ⟨k, v⟩ ⟨k', v'⟩ heq
      cases heq
      rfl
    · exact List.NodupKeys.nodup c.map.nodupKeys
  apply (List.perm_ext_iff_of_nodup hiter (List.Nodup.of_map _ q.distinct)).mpr
  rintro ⟨k, v⟩
  rw [← get_eq_some, ← h.get k, Cache.get, ← Option.mem_def, AList.mem_lookup_iff, Cache.iter, List.mem_map]
  constructor
  · rintro ⟨e, he, heq⟩
    cases heq
    exact he
  · intro hmem
    exact ⟨⟨k, v⟩, hmem, rfl⟩

omit h in
theorem lookup_insert (map : AList (fun _ : K => V)) (key : K) (value : V) (k : K) :
    (map.insert key value).lookup k = if k = key then some value else map.lookup k := by
  split_ifs with hk
  · exact hk ▸ AList.lookup_insert map
  · exact AList.lookup_insert_ne hk

omit h in
theorem lookup_erase (map : AList (fun _ : K => V)) (key k : K) :
    (map.erase key).lookup k = if k = key then none else map.lookup k := by
  split_ifs with hk
  · exact hk ▸ AList.lookup_erase key map
  · exact AList.lookup_erase_ne hk

omit h in
theorem make_room_of_lt {map : AList (fun _ : K => V)} {order : List K} (hlt : len map < cap) :
    make_room cap map order = (map, order) := by
  cases order with
  | nil => rfl
  | cons old order => exact if_neg (by omega)

omit h in
theorem len_erase {map : AList (fun _ : K => V)} {key : K} (hkey : key ∈ map) : len (map.erase key) + 1 = len map := by
  have hlength := congrArg List.length (AList.keys_erase key map)
  rw [List.length_erase_of_mem hkey, AList.keys, List.keys, List.length_map, AList.keys, List.keys, List.length_map] at hlength
  have hpos : 0 < len map := by
    apply List.length_pos_of_mem (a := ⟨key, (map.lookup key).get (AList.lookup_isSome.mpr hkey)⟩)
    exact AList.mem_lookup_iff.mp (Option.get_mem _)
  rw [len, hlength]
  exact Nat.sub_add_cancel hpos

/-- Where the map is full, the key that came first makes the room. -/
theorem make_room_full {old : K} {rest : List K} (horder : c.order = old :: rest) (hfull : len c.map = cap) :
    make_room cap c.map c.order = (c.map.erase old, rest) := by
  have hold : old ∈ c.map := by
    rw [mem_map_iff h, ← h.order, horder]
    exact List.mem_cons_self
  have hlen := len_erase hold
  rw [horder, make_room, if_pos hfull.ge]
  exact make_room_of_lt (by omega)

theorem holds_insert (key : K) (value : V) : Holds (c.insert key value) (q.put key value) := by
  obtain rfl := h.cap
  unfold Cache.insert
  by_cases hcap : c.cap = 0
  · rw [if_pos hcap, Queue.put, dif_pos hcap]
    exact h
  rw [if_neg hcap]
  have hin := mem_map_iff h key
  by_cases hkey : key ∈ c.map
  · rw [if_pos hkey]
    refine ⟨rfl, ?_, fun k => ?_⟩
    · rw [keys_put hcap, if_pos (hin.mp hkey)]
      exact h.order
    · rw [get_put hcap (.inl (hin.mp hkey)), ← h.get k]
      exact lookup_insert c.map key value k
  rw [if_neg hkey]
  have hout : key ∉ q.keys := fun hmem => hkey (hin.mpr hmem)
  have hlen := len_eq h
  have hlength : q.keys.length = q.entries.length := List.length_map _
  rcases Nat.lt_or_eq_of_le q.bounded with hlt | hfull
  · rw [make_room_of_lt (hlen ▸ hlt)]
    refine ⟨rfl, ?_, fun k => ?_⟩
    · have hfits : q.keys.length + 1 - c.cap = 0 := by omega
      rw [keys_put hcap, if_neg hout, admitted, hfits, List.drop_zero, ← h.order]
    · rw [get_put hcap (.inr hlt), ← h.get k]
      exact lookup_insert c.map key value k
  · obtain ⟨old, rest, hkeys⟩ : ∃ old rest, q.keys = old :: rest := by
      apply List.exists_cons_of_length_pos
      omega
    have horder := h.order.trans hkeys
    rw [make_room_full h horder (hlen.trans hfull)]
    refine ⟨rfl, ?_, fun k => ?_⟩
    · have hone : q.keys.length + 1 - c.cap = 1 := by omega
      rw [keys_put hcap, if_neg hout, admitted, hone, hkeys]
      rfl
    · rw [get_put_full hkeys hfull hout, ← h.get k]
      exact (lookup_insert _ key value k).trans (congrArg (ite _ _) (lookup_erase c.map old k))

theorem holds_invalidate (key : K) : Holds (c.invalidate key) (q.drop key) := by
  refine ⟨h.cap, ?_, fun k => ?_⟩
  · have hkeep (k : K) (hk : k ∈ q.keys) : decide (k ∈ c.map.erase key) = decide (k ≠ key) := by
      rw [decide_eq_decide, AList.mem_erase, mem_map_iff h]
      exact and_iff_left hk
    rw [Cache.invalidate, h.order, List.filter_congr hkeep]
    exact List.filter_map.symm ▸ rfl
  · rw [get_drop, ← h.get k]
    exact lookup_erase c.map key k

theorem holds_step (op : Op K V) : Holds (c.step op) (q.step op) := by
  cases op with
  | put key value => exact holds_insert h key value
  | drop key => exact holds_invalidate h key
  | clear => exact ⟨h.cap, rfl, fun k => rfl⟩

end Holding

theorem holds_new (cap : Nat) : Holds (new cap : Cache K V) (Queue.empty : Queue K V cap) := ⟨rfl, rfl, fun _ => rfl⟩

theorem holds_after (cap : Nat) (ops : List (Op K V)) : Holds (after cap ops) (run cap ops) := by
  have hrun (ops : List (Op K V)) (c : Cache K V) (q : Queue K V cap) (h : Holds c q) :
      Holds (ops.foldl Cache.step c) (ops.foldl Queue.step q) := by
    induction ops generalizing c q with
    | nil => exact h
    | cons op ops ih => exact ih _ _ (holds_step h op)
  exact hrun ops _ _ (holds_new cap)

/-- Whatever the calls, the cache is a queue of entries in the order of their first insertion, within its capacity. -/
theorem cache_is_fifo (cap : Nat) (ops : List (Op K V)) : let c := after cap ops
    c.order = (run cap ops).keys ∧ (∀ k, c.get k = (run cap ops).get k) ∧ c.iter.Perm (run cap ops).entries ∧
      c.entry_count = (run cap ops).entries.length ∧ c.entry_count ≤ cap := by
  have h := holds_after cap ops
  have hlen := len_eq h
  exact ⟨h.order, h.get, iter_perm h, hlen, hlen.trans_le (run cap ops).bounded⟩

/-- An entry that is admitted stays until as many other keys as the capacity allows
have been inserted, and what is read under its key is what was last inserted. -/
theorem admitted_stays (cap : Nat) (before : List (Op K V)) (key : K) (value : V) (inserts : List (K × V))
    (hnew : (after cap before).get key = none) (hfew : ((inserts.map Prod.fst).toFinset.erase key).card < cap) :
    let ops := before ++ .put key value :: inserts.map (fun e => .put e.1 e.2)
    ((after cap ops).get key).isSome ∧ (after cap ops).get key = ops.foldl (said key) none := by
  intro ops
  have hstays : ((after cap ops).get key).isSome := by
    have hcap : cap ≠ 0 := by omega
    rw [(holds_after cap ops).get, get_isSome, run, List.foldl_append, List.foldl_cons, List.foldl_map]
    apply younger_puts inserts (s := ∅)
    · apply younger_put_fresh hcap
      rw [← get_isSome, ← run, ← (holds_after cap before).get, hnew]
      exact Bool.false_ne_true
    · rwa [Finset.empty_union]
  refine ⟨hstays, ?_⟩
  obtain ⟨v, hv⟩ := Option.isSome_iff_exists.mp hstays
  rw [hv]
  exact (run_said ((holds_after cap ops).get key ▸ hv)).symm

/-- In a cache of two, the third key stays while the second is overwritten. -/
theorem overwriting_evicts_nothing :
    let ops : List (Op Nat Nat) := [.put 0 10, .put 1 11] ++ .put 2 12 :: [(1, 13)].map (fun e => .put e.1 e.2)
    ((after 2 ops).get 2).isSome ∧ (after 2 ops).get 2 = ops.foldl (said 2) none :=
  admitted_stays 2 [.put 0 10, .put 1 11] 2 12 [(1, 13)] (by decide) (by decide)

end AntaresBroker.MiniCache
