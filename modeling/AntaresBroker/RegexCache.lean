import AntaresBroker.MapWeight

namespace AntaresBroker.RegexCache

open BTreeMap Newest

def MAX_REGEX_PROGRAM_BYTES : Nat := 256 * 1024
def MAX_REGEX_CACHE : Nat := 1024
def MAX_REGEX_CACHE_BYTES : Nat := 64 * 1024 * 1024
def PROGRAM_TIER_BYTES : Nat := 32 * 1024

/-- What an entry holds and when it was last handed out. -/
structure Entry (V : Type) where
  val : V
  stamp : Nat

/-- Drop the least recently used half. -/
def evict_lru_half {V : Type} (map : BTreeMap String (Entry V)) : BTreeMap String (Entry V) :=
  let keep := map.entries.length / 2
  if keep = 0 then BTreeMap.empty
  else
    let stamps := (map.values.map Entry.stamp).mergeSort (· ≤ ·)
    match stamps[stamps.length - keep]? with
    | some cut => map.filter (fun p => cut ≤ p.2.stamp)
    | none => map

section Compile

variable {ρ : Type}

/-- A compiled program, or the message of its refusal. -/
abbrev Outcome (ρ : Type) := Except String ρ

abbrev Cache (ρ : Type) := BTreeMap String (Entry (Outcome ρ × Nat))

def charge_of (e : Entry (Outcome ρ × Nat)) : Nat := e.val.2

variable (build : String → Nat → Except String ρ)

/-- The program of a pattern within the first limit that admits it. -/
def built (pattern : String) : Outcome ρ × Nat :=
  match build pattern PROGRAM_TIER_BYTES with
  | .ok re => (.ok re, PROGRAM_TIER_BYTES)
  | .error _ =>
      match build pattern MAX_REGEX_PROGRAM_BYTES with
      | .ok re => (.ok re, MAX_REGEX_PROGRAM_BYTES)
      | .error e => (.error e, 0)

def crowded (c : Cache ρ) (bytes charge : Nat) : Bool :=
  !c.is_empty && (MAX_REGEX_CACHE ≤ c.entries.length || MAX_REGEX_CACHE_BYTES < bytes + charge)

/-- The passes of the eviction loop, given the fuel of so many. -/
def make_room (charge : Nat) : Nat → Cache ρ → Nat → Option (Cache ρ × Nat)
  | 0, _, _ => none
  | fuel + 1, c, bytes =>
      if crowded c bytes charge then
        let c := evict_lru_half c
        make_room charge fuel c (c.weight charge_of)
      else some (c, bytes)

/-- What the threads share: the cache, its counter of bytes, how many stamps the
clock has handed out, the stamps that readers have taken and not yet set, and
the patterns being built. -/
structure Shared (ρ : Type) where
  cache : Cache ρ
  bytes : Nat
  handed : Nat
  touching : List (String × Nat)
  building : List String

def Shared.start : Shared ρ := ⟨BTreeMap.empty, 0, 0, [], []⟩

/-- What the clock reads. -/
def clock (s : Shared ρ) : Nat := s.handed % 2 ^ 64

/-- A step of one of the threads. -/
inductive Act
  | hit (pattern : String)
  | touch (pattern : String) (stamp : Nat)
  | miss (pattern : String)
  | insert (pattern : String)
  | give_up (pattern : String)
  | elsewhere

def restamp (c : Cache ρ) (pattern : String) (stamp : Nat) : Cache ρ :=
  match c.get pattern with
  | some e => c.insert pattern { e with stamp }
  | none => c

/-- The insertion of a pattern where room has been made. -/
def inserted (s : Shared ρ) (pattern : String) (room : Cache ρ × Nat) : Shared ρ :=
  { s with
    cache := room.1.insert pattern ⟨built build pattern, clock s⟩
    bytes := room.2 + (built build pattern).2
    handed := s.handed + 1
    building := s.building.erase pattern }

inductive Step : Shared ρ → Act → Shared ρ → Prop
  | hit {s : Shared ρ} {pattern : String} (h : (s.cache.get pattern).isSome) :
      Step s (.hit pattern) { s with touching := (pattern, clock s) :: s.touching, handed := s.handed + 1 }
  | touch {s : Shared ρ} {pattern : String} {stamp : Nat} (h : (pattern, stamp) ∈ s.touching) :
      Step s (.touch pattern stamp)
        { s with cache := restamp s.cache pattern stamp, touching := s.touching.erase (pattern, stamp) }
  | miss {s : Shared ρ} {pattern : String} (h : s.cache.get pattern = none) :
      Step s (.miss pattern) { s with building := pattern :: s.building }
  -- no reader holds the lock while a thread writes
  | insert {s : Shared ρ} {pattern : String} {fuel : Nat} {room : Cache ρ × Nat} (h : pattern ∈ s.building)
      (hlock : s.touching = []) (hroom : make_room (built build pattern).2 fuel s.cache s.bytes = some room) :
      Step s (.insert pattern) (inserted build s pattern room)
  | give_up {s : Shared ρ} {pattern : String} (h : pattern ∈ s.building) :
      Step s (.give_up pattern) { s with building := s.building.erase pattern }
  | elsewhere {s : Shared ρ} : Step s .elsewhere { s with handed := s.handed + 1 }

/-- The states of the runs all of whose steps meet a condition. -/
inductive Reached (meets : Shared ρ → Act → Prop) : Shared ρ → Prop
  | start : Reached meets .start
  | step {s s' : Shared ρ} {a : Act} : Reached meets s → meets s a → Step build s a s' → Reached meets s'

end Compile

section Eviction

variable {V : Type} {map : BTreeMap String (Entry V)}

/-- No two entries bear one stamp. -/
def Distinct (map : BTreeMap String (Entry V)) : Prop :=
  ∀ p q e f, map.get p = some e → map.get q = some f → e.stamp = f.stamp → p = q

theorem stamps_eq (map : BTreeMap String (Entry V)) :
    map.values.map Entry.stamp = map.entries.map (fun p => p.2.stamp) := List.map_map

theorem nodup_stamps (h : Distinct map) : (map.values.map Entry.stamp).Nodup := by
  rw [stamps_eq, List.Nodup, List.pairwise_map]
  refine map.sorted.imp_of_mem fun {p q} hp hq hlt heq => ?_
  exact hlt.ne (h p.1 q.1 p.2 q.2 (mem_entries.mp hp) (mem_entries.mp hq) heq)

theorem get_evict {p : String} {e : Entry V} (h : (evict_lru_half map).get p = some e) : map.get p = some e := by
  rw [evict_lru_half] at h
  split_ifs at h
  · cases h
  · dsimp only at h
    split at h
    · rw [get_filter] at h
      exact Option.eq_some_of_filter_eq_some h
    · exact h

/-- Where the stamps differ, half of the entries survive. -/
theorem length_evict (h : Distinct map) : (evict_lru_half map).entries.length = map.entries.length / 2 := by
  have hlength : (map.values.map Entry.stamp).length = map.entries.length := by rw [stamps_eq, List.length_map]
  rw [evict_lru_half]
  split_ifs with hkeep
  · exact hkeep.symm
  · dsimp only
    cases hcut : ((map.values.map Entry.stamp).mergeSort (· ≤ ·))[((map.values.map Entry.stamp).mergeSort (· ≤ ·)).length -
        map.entries.length / 2]? with
    | none =>
        rw [List.getElem?_eq_none_iff, List.length_mergeSort, hlength] at hcut
        omega
    | some cut =>
        have hcount := countP_newest (nodup_stamps h) hcut
        rw [stamps_eq, List.countP_map, List.length_mergeSort, List.length_map] at hcount
        have hhalf : (map.filter (fun p => cut ≤ p.2.stamp)).entries.length =
            map.entries.countP ((fun x => decide (cut ≤ x)) ∘ fun p => p.2.stamp) := List.countP_eq_length_filter.symm
        dsimp only
        rw [hhalf, hcount]
        omega

end Eviction

section Room

variable {ρ : Type} {c c' : Cache ρ} {charge bytes bytes' fuel : Nat}

theorem Distinct.sub (h : Distinct c) (hsub : ∀ p e, c'.get p = some e → c.get p = some e) : Distinct c' :=
  fun p q e f hp hq => h p q e f (hsub p e hp) (hsub q f hq)

/-- The passes end: each halves what is left. -/
theorem make_room_ends (h : Distinct c) (charge bytes : Nat) : ∃ fuel room, make_room charge fuel c bytes = some room := by
  induction hn : c.entries.length using Nat.strong_induction_on generalizing c bytes with
  | _ n ih =>
      cases hcrowded : crowded c bytes charge with
      | false => exact ⟨1, (c, bytes), by rw [make_room, hcrowded, if_neg Bool.false_ne_true]⟩
      | true =>
          have hlt : c.entries.length / 2 < n := by
            rw [crowded, Bool.and_eq_true] at hcrowded
            have hpos : 0 < c.entries.length := by
              refine List.length_pos_iff.mpr fun hnil => ?_
              rw [BTreeMap.is_empty, hnil] at hcrowded
              cases hcrowded.1
            omega
          obtain ⟨fuel, room, hroom⟩ := ih _ hlt (h.sub fun _ _ => get_evict) ((evict_lru_half c).weight charge_of)
            (length_evict h)
          exact ⟨fuel + 1, room, by rw [make_room, hcrowded, if_pos rfl]; exact hroom⟩

/-- Where the passes end there is room, and the counter is that of the map. -/
theorem make_room_spec (h : make_room charge fuel c bytes = some (c', bytes')) :
    (∀ p e, c'.get p = some e → c.get p = some e) ∧ crowded c' bytes' charge = false ∧
      ((c' = c ∧ bytes' = bytes) ∨ bytes' = c'.weight charge_of) := by
  induction fuel generalizing c bytes with
  | zero => cases h
  | succ fuel ih =>
      rw [make_room] at h
      split_ifs at h with hcrowded
      · obtain ⟨hsub, hroom, hbytes⟩ := ih h
        refine ⟨fun p e hp => get_evict (hsub p e hp), hroom, .inr ?_⟩
        rcases hbytes with ⟨rfl, rfl⟩ | hbytes
        · rfl
        · exact hbytes
      · cases h
        exact ⟨fun _ _ hp => hp, Bool.eq_false_iff.mpr hcrowded, .inl ⟨rfl, rfl⟩⟩

theorem not_crowded (h : crowded c bytes charge = false) :
    c = BTreeMap.empty ∨ (c.entries.length < MAX_REGEX_CACHE ∧ bytes + charge ≤ MAX_REGEX_CACHE_BYTES) := by
  rw [crowded, Bool.and_eq_false_iff, Bool.not_eq_false', is_empty_iff, Bool.or_eq_false_iff, decide_eq_false_iff_not,
    decide_eq_false_iff_not] at h
  exact h.imp_right fun h => ⟨Nat.lt_of_not_le h.1, Nat.le_of_not_lt h.2⟩

end Room

section Runs

variable {ρ : Type} {build : String → Nat → Except String ρ} {s s' : Shared ρ}

theorem charge_le (build : String → Nat → Except String ρ) (pattern : String) :
    (built build pattern).2 ≤ MAX_REGEX_CACHE_BYTES := by
  have htier : PROGRAM_TIER_BYTES ≤ MAX_REGEX_CACHE_BYTES := by decide
  have hwhole : MAX_REGEX_PROGRAM_BYTES ≤ MAX_REGEX_CACHE_BYTES := by decide
  rw [built]
  cases build pattern PROGRAM_TIER_BYTES with
  | ok re => exact htier
  | error e =>
      cases build pattern MAX_REGEX_PROGRAM_BYTES with
      | ok re => exact hwhole
      | error e => exact Nat.zero_le _

variable (build) in
/-- What every step keeps: each stamp is borne once, and what is retained stays
below the counter and the counter below its bound. -/
structure Inv (s : Shared ρ) : Prop where
  held : ∀ p e, s.cache.get p = some e → e.val = built build p
  below : ∀ p e, s.cache.get p = some e → e.stamp < s.handed
  distinct : Distinct s.cache
  taken : ∀ t ∈ s.touching, t.2 < s.handed
  apart : ∀ t ∈ s.touching, ∀ p e, s.cache.get p = some e → e.stamp ≠ t.2
  once : (s.touching.map Prod.snd).Nodup
  count : s.cache.entries.length ≤ MAX_REGEX_CACHE
  counted : s.cache.weight charge_of ≤ s.bytes
  bound : s.bytes ≤ MAX_REGEX_CACHE_BYTES
  blank : s.cache = BTreeMap.empty → s.bytes = 0

theorem inv_start : Inv build (.start : Shared ρ) where
  held _ _ h := by cases h
  below _ _ h := by cases h
  distinct _ _ _ _ h := by cases h
  taken _ h := absurd h List.not_mem_nil
  apart _ h := absurd h List.not_mem_nil
  once := List.nodup_nil
  count := Nat.zero_le _
  counted := Nat.le_refl _
  bound := Nat.zero_le _
  blank _ := rfl

section Restamp

variable {c : Cache ρ} {pattern : String} {stamp : Nat}

theorem get_restamp (c : Cache ρ) (pattern : String) (stamp : Nat) (q : String) : (restamp c pattern stamp).get q =
    if q = pattern then (c.get pattern).map (fun e => { e with stamp }) else c.get q := by
  rw [restamp]
  cases h : c.get pattern with
  | none =>
      split_ifs with hq
      · rw [hq, h, Option.map_none]
      · rfl
  | some e => rw [get_insert, Option.map_some]

theorem perm_restamp (c : Cache ρ) (pattern : String) (stamp : Nat) :
    (restamp c pattern stamp).entries.length = c.entries.length ∧
      (restamp c pattern stamp).weight charge_of = c.weight charge_of := by
  rw [restamp]
  cases h : c.get pattern with
  | none => exact ⟨rfl, rfl⟩
  | some e =>
      constructor
      · rw [(perm_insert c pattern _).length_eq, (perm_remove h).length_eq]
        rfl
      · rw [weight_insert, weight_remove charge_of h]
        rfl

end Restamp

theorem clock_eq (h : s.handed < 2 ^ 64) : clock s = s.handed := Nat.mod_eq_of_lt h

theorem Inv.hit (h : Inv build s) (hticks : s.handed < 2 ^ 64) (pattern : String) :
    Inv build { s with touching := (pattern, clock s) :: s.touching, handed := s.handed + 1 } where
  held := h.held
  below p e hp := Nat.lt_succ_of_lt (h.below p e hp)
  distinct := h.distinct
  taken t ht := by
    rcases List.mem_cons.mp ht with rfl | ht
    · rw [clock_eq hticks]
      exact Nat.lt_succ_self _
    · exact Nat.lt_succ_of_lt (h.taken t ht)
  apart t ht p e hp := by
    rcases List.mem_cons.mp ht with rfl | ht
    · rw [clock_eq hticks]
      exact (h.below p e hp).ne
    · exact h.apart t ht p e hp
  once := by
    rw [List.map_cons, List.nodup_cons]
    refine ⟨fun hmem => ?_, h.once⟩
    obtain ⟨t, ht, heq⟩ := List.mem_map.mp hmem
    rw [clock_eq hticks] at heq
    exact (h.taken t ht).ne heq
  count := h.count
  counted := h.counted
  bound := h.bound
  blank := h.blank

theorem Inv.touch (h : Inv build s) {pattern : String} {stamp : Nat} (hmem : (pattern, stamp) ∈ s.touching) :
    Inv build { s with cache := restamp s.cache pattern stamp, touching := s.touching.erase (pattern, stamp) } where
  held p e hp := by
    dsimp only at hp
    rw [get_restamp] at hp
    split_ifs at hp with heq
    · subst heq
      obtain ⟨e', he', rfl⟩ := Option.map_eq_some_iff.mp hp
      exact h.held _ e' he'
    · exact h.held p e hp
  below p e hp := by
    dsimp only at hp
    rw [get_restamp] at hp
    split_ifs at hp with heq
    · obtain ⟨e', he', rfl⟩ := Option.map_eq_some_iff.mp hp
      exact h.taken _ hmem
    · exact h.below p e hp
  distinct p q e f hp hq hstamp := by
    dsimp only at hp hq
    rw [get_restamp] at hp hq
    split_ifs at hp hq with hpp hqp hqp
    · exact hpp.trans hqp.symm
    · obtain ⟨e', he', rfl⟩ := Option.map_eq_some_iff.mp hp
      exact absurd hstamp.symm (h.apart _ hmem q f hq)
    · obtain ⟨f', hf', rfl⟩ := Option.map_eq_some_iff.mp hq
      exact absurd hstamp (h.apart _ hmem p e hp)
    · exact h.distinct p q e f hp hq hstamp
  taken t ht := h.taken t (List.mem_of_mem_erase ht)
  apart t ht p e hp := by
    dsimp only at hp ht
    rw [get_restamp] at hp
    split_ifs at hp with heq
    · obtain ⟨e', he', rfl⟩ := Option.map_eq_some_iff.mp hp
      -- the stamps taken are all different, and this one has been set
      have hnot : t ≠ (pattern, stamp) := fun h' => (h.once.of_map.mem_erase_iff.mp ht).1 h'
      exact fun hstamp => hnot (List.inj_on_of_nodup_map h.once (List.mem_of_mem_erase ht) hmem hstamp.symm)
    · exact h.apart t (List.mem_of_mem_erase ht) p e hp
  once := h.once.sublist (List.erase_sublist.map _)
  count := (perm_restamp s.cache pattern stamp).1.le.trans h.count
  counted := (perm_restamp s.cache pattern stamp).2.le.trans h.counted
  bound := h.bound
  blank hempty := by
    refine h.blank (is_empty_iff.mp ?_)
    have hlength := (perm_restamp s.cache pattern stamp).1
    change restamp s.cache pattern stamp = _ at hempty
    rw [hempty] at hlength
    exact List.isEmpty_iff.mpr (List.length_eq_zero_iff.mp hlength.symm)

theorem Inv.inserted (h : Inv build s) (hticks : s.handed < 2 ^ 64) (hlock : s.touching = []) {pattern : String} {fuel : Nat}
    {room : Cache ρ × Nat} (hroom : make_room (built build pattern).2 fuel s.cache s.bytes = some room) :
    Inv build (inserted build s pattern room) := by
  obtain ⟨c, bytes⟩ := room
  obtain ⟨hsub, hfree, hbytes⟩ := make_room_spec hroom
  have hweight : c.weight charge_of ≤ bytes := by
    rcases hbytes with ⟨rfl, rfl⟩ | rfl
    · exact h.counted
    · exact Nat.le_refl _
  have hzero : c = BTreeMap.empty → bytes = 0 := by
    rintro rfl
    rcases hbytes with ⟨hc, rfl⟩ | rfl
    · exact h.blank hc.symm
    · rfl
  have hget {q : String} {e : Entry (Outcome ρ × Nat)} (hq : (c.insert pattern ⟨built build pattern, clock s⟩).get q = some e) :
      (q = pattern ∧ e = ⟨built build pattern, s.handed⟩) ∨ (q ≠ pattern ∧ s.cache.get q = some e) := by
    rw [get_insert] at hq
    split_ifs at hq with heq
    · rw [clock_eq hticks] at hq
      exact .inl ⟨heq, (Option.some.inj hq).symm⟩
    · exact .inr ⟨heq, hsub q e hq⟩
  constructor
  · intro q e hq
    rcases hget hq with ⟨rfl, rfl⟩ | ⟨-, hq⟩
    · rfl
    · exact h.held q e hq
  · intro q e hq
    rcases hget hq with ⟨rfl, rfl⟩ | ⟨-, hq⟩
    · exact Nat.lt_succ_self _
    · exact Nat.lt_succ_of_lt (h.below q e hq)
  · intro p q e f hp hq hstamp
    rcases hget hp with ⟨rfl, rfl⟩ | ⟨-, hp'⟩ <;> rcases hget hq with ⟨rfl, rfl⟩ | ⟨-, hq'⟩
    · rfl
    · exact absurd hstamp.symm (h.below q f hq').ne
    · exact absurd hstamp (h.below p e hp').ne
    · exact h.distinct p q e f hp' hq' hstamp
  · intro t ht
    change t ∈ s.touching at ht
    rw [hlock] at ht
    exact absurd ht List.not_mem_nil
  · intro t ht
    change t ∈ s.touching at ht
    rw [hlock] at ht
    exact absurd ht List.not_mem_nil
  · exact h.once
  · refine (length_insert_le c pattern _).trans ?_
    rcases not_crowded hfree with rfl | ⟨hcount, -⟩
    · exact (by decide : 0 + 1 ≤ MAX_REGEX_CACHE)
    · exact hcount
  · change (c.insert pattern _).weight charge_of ≤ bytes + (built build pattern).2
    rw [weight_insert, Nat.add_comm]
    exact Nat.add_le_add ((weight_remove_le charge_of c pattern).trans hweight) (Nat.le_refl _)
  · change bytes + (built build pattern).2 ≤ _
    rcases not_crowded hfree with hempty | ⟨-, hbound⟩
    · rw [hzero hempty, Nat.zero_add]
      exact charge_le build pattern
    · exact hbound
  · intro hempty
    have hself : (c.insert pattern ⟨built build pattern, clock s⟩).get pattern = none := by
      change c.insert pattern _ = _ at hempty
      rw [hempty, get_empty]
    rw [get_insert, if_pos rfl] at hself
    cases hself

theorem step_inv {a : Act} (h : Inv build s) (hticks : s.handed < 2 ^ 64) (hstep : Step build s a s') : Inv build s' := by
  cases hstep with
  | hit hp => exact h.hit hticks _
  | touch hmem => exact h.touch hmem
  | miss hp => exact ⟨h.held, h.below, h.distinct, h.taken, h.apart, h.once, h.count, h.counted, h.bound, h.blank⟩
  | insert hp hlock hroom => exact h.inserted hticks hlock hroom
  | give_up hp => exact ⟨h.held, h.below, h.distinct, h.taken, h.apart, h.once, h.count, h.counted, h.bound, h.blank⟩
  | elsewhere =>
      exact ⟨h.held, fun p e hp => Nat.lt_succ_of_lt (h.below p e hp), h.distinct,
        fun t ht => Nat.lt_succ_of_lt (h.taken t ht), h.apart, h.once, h.count, h.counted, h.bound, h.blank⟩

/-- The clock has not come round. -/
def Ticking (s : Shared ρ) (_ : Act) : Prop := s.handed < 2 ^ 64

variable (build) in
/-- An insertion replaces no entry that is charged. -/
def Fresh (s : Shared ρ) : Act → Prop
  | .insert pattern => ∀ fuel room, make_room (built build pattern).2 fuel s.cache s.bytes = some room →
      room.1.get pattern = none ∨ (built build pattern).2 = 0
  | _ => True

variable (build) in
/-- The bounds at a state: whatever is inserted next, room is made for it. -/
structure Bounded (s : Shared ρ) : Prop where
  ends : ∀ pattern, ∃ fuel room, make_room (built build pattern).2 fuel s.cache s.bytes = some room
  count : s.cache.entries.length ≤ MAX_REGEX_CACHE
  bytes : s.cache.weight charge_of ≤ MAX_REGEX_CACHE_BYTES

theorem Reached.inv (h : Reached build Ticking s) : Inv build s := by
  induction h with
  | start => exact inv_start
  | step _ hticks hstep ih => exact step_inv ih hticks hstep

theorem Reached.mono {meets meets' : Shared ρ → Act → Prop} (hmeets : ∀ s a, meets s a → meets' s a)
    (h : Reached build meets s) : Reached build meets' s := by
  induction h with
  | start => exact .start
  | step _ hmeet hstep ih => exact .step ih (hmeets _ _ hmeet) hstep

/-- Where the counter told the sum, it tells it after an insertion exactly when
that replaced no charged entry. -/
theorem inserted_counted_iff (h : Inv build s) (heq : s.bytes = s.cache.weight charge_of) {pattern : String} {fuel : Nat}
    {room : Cache ρ × Nat} (hroom : make_room (built build pattern).2 fuel s.cache s.bytes = some room) :
    (inserted build s pattern room).bytes = (inserted build s pattern room).cache.weight charge_of ↔
      (room.1.get pattern = none ∨ (built build pattern).2 = 0) := by
  obtain ⟨c, bytes⟩ := room
  obtain ⟨hsub, -, hbytes⟩ := make_room_spec hroom
  have hweight : bytes = c.weight charge_of := by
    rcases hbytes with ⟨rfl, rfl⟩ | hbytes
    · exact heq
    · exact hbytes
  change bytes + (built build pattern).2 = (c.insert pattern _).weight charge_of ↔ _
  rw [weight_insert]
  change _ = (built build pattern).2 + _ ↔ _
  cases hget : c.get pattern with
  | none =>
      rw [remove_of_absent hget, hweight, Nat.add_comm]
      exact iff_of_true rfl (.inl rfl)
  | some e =>
      have hcharge : charge_of e = (built build pattern).2 := congrArg Prod.snd (h.held pattern e (hsub pattern e hget))
      have hsplit := weight_remove charge_of hget
      constructor
      · intro h'
        exact .inr (by omega)
      · rintro (hnone | hzero)
        · cases hnone
        · omega

/-- In every run the passes of the eviction end and the retained stay within
both bounds, and where no charged entry is replaced the counter tells their sum. -/
theorem retained_bounded (build : String → Nat → Except String ρ) (s : Shared ρ) :
    (Reached build Ticking s → Bounded build s) ∧
      (Reached build (fun s a => Ticking s a ∧ Fresh build s a) s → s.bytes = s.cache.weight charge_of) := by
  constructor
  · intro h
    have hinv := h.inv
    exact ⟨fun pattern => make_room_ends hinv.distinct _ _, hinv.count, hinv.counted.trans hinv.bound⟩
  · intro h
    induction h with
    | start => rfl
    | step hreached hmeets hstep ih =>
        have hinv := (hreached.mono fun _ _ hm => hm.1).inv
        cases hstep with
        | touch hmem => exact ih.trans (perm_restamp _ _ _).2.symm
        | insert hp hlock hroom => exact (inserted_counted_iff hinv ih hroom).mpr (hmeets.2 _ _ hroom)
        | _ => exact ih

/-- A builder that admits every pattern. -/
def admits (_ : String) (_ : Nat) : Except String Unit := .ok ()

/-- The state after one thread has inserted a pattern. -/
def one_inserted : Shared Unit :=
  ⟨BTreeMap.empty.insert "a" ⟨(.ok (), PROGRAM_TIER_BYTES), 0⟩, PROGRAM_TIER_BYTES, 1, [], ["a"]⟩

theorem one_inserted_reached (meets : Shared Unit → Act → Prop)
    (h : ∀ s a, s.cache = BTreeMap.empty → s.handed = 0 → meets s a) : Reached admits meets one_inserted := by
  have hmissed : Reached admits meets ⟨BTreeMap.empty, 0, 0, [], ["a", "a"]⟩ :=
    .step (.step .start (h _ _ rfl rfl) (.miss rfl)) (h _ _ rfl rfl) (.miss rfl)
  have hroom : make_room (built admits "a").2 1 (BTreeMap.empty : Cache Unit) 0 = some (BTreeMap.empty, 0) := rfl
  have hinsert := Step.insert (s := ⟨BTreeMap.empty, 0, 0, [], ["a", "a"]⟩) List.mem_cons_self rfl hroom
  exact .step hmissed (h _ _ rfl rfl) hinsert

theorem retained_bounded_one : Bounded admits one_inserted ∧ one_inserted.bytes = one_inserted.cache.weight charge_of := by
  have hticking (s : Shared Unit) (a : Act) (hs : s.handed = 0) : Ticking s a := by
    rw [Ticking, hs]
    exact Nat.two_pow_pos 64
  have hfresh (s : Shared Unit) (a : Act) (hs : s.cache = BTreeMap.empty) : Fresh admits s a := by
    cases a with
    | insert pattern =>
        intro fuel room hroom
        refine .inl (Option.eq_none_iff_forall_ne_some.mpr fun e he => ?_)
        have hheld := (make_room_spec hroom).1 pattern e he
        rw [hs] at hheld
        cases hheld
    | _ => trivial
  exact ⟨(retained_bounded admits one_inserted).1 (one_inserted_reached _ fun s a _ hs => hticking s a hs),
    (retained_bounded admits one_inserted).2
      (one_inserted_reached _ fun s a hempty hs => ⟨hticking s a hs, hfresh s a hempty⟩)⟩

/-- Two threads build one pattern, and it is charged twice. -/
theorem replaced_charged_twice : ∃ s : Shared Unit, Reached admits (fun _ _ => True) one_inserted ∧
    Step admits one_inserted (.insert "a") s ∧ s.bytes = 65536 ∧ s.cache.weight charge_of = 32768 := by
  have hroom : make_room (built admits "a").2 1 one_inserted.cache one_inserted.bytes =
      some (one_inserted.cache, one_inserted.bytes) := rfl
  exact ⟨_, one_inserted_reached _ fun _ _ _ _ => trivial, .insert List.mem_cons_self rfl hroom, rfl, rfl⟩

end Runs

end AntaresBroker.RegexCache
