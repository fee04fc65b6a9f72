import Mathlib.Data.List.Nodup

namespace AntaresBroker.DepthSearch

variable {ν π : Type} [DecidableEq ν]

/-- A node as it is met: the levels left below it, and how it is looked at. -/
structure Visit (ν π : Type) where
  node : ν
  left : Nat
  view : π

def nodes (log : List (Visit ν π)) : List ν := log.map Visit.node

section Recording

def record (log : List (Visit ν π)) (v : Visit ν π) : List (Visit ν π) := if v.node ∈ nodes log then log else log ++ [v]

/-- The visits that meet their node first. -/
def firsts (base visits : List (Visit ν π)) : List (Visit ν π) := visits.foldl record base

variable {base log visits : List (Visit ν π)} {v w : Visit ν π} {n : ν}

omit [DecidableEq ν] in
theorem mem_nodes : n ∈ nodes log ↔ ∃ v ∈ log, v.node = n := List.mem_map

theorem firsts_append (base visits rest : List (Visit ν π)) :
    firsts base (visits ++ rest) = firsts (firsts base visits) rest := List.foldl_append

theorem mem_nodes_record : n ∈ nodes (record log v) ↔ n ∈ nodes log ∨ n = v.node := by
  rw [record]
  split_ifs with h
  · exact ⟨.inl, fun hn => hn.elim id (fun heq => heq ▸ h)⟩
  · rw [nodes, List.map_append, List.mem_append, List.map_singleton, List.mem_singleton]
    rfl

theorem mem_nodes_firsts : n ∈ nodes (firsts base visits) ↔ n ∈ nodes base ∨ n ∈ nodes visits := by
  induction visits generalizing base with
  | nil => exact ⟨.inl, fun h => h.elim id (fun h => absurd h List.not_mem_nil)⟩
  | cons v visits ih =>
      have hcons : n ∈ nodes (v :: visits) ↔ n = v.node ∨ n ∈ nodes visits := List.mem_cons
      rw [firsts, List.foldl_cons, ← firsts, ih, mem_nodes_record, hcons, or_assoc]

/-- Visits of nodes known already change nothing. -/
theorem firsts_of_known (h : ∀ v ∈ visits, v.node ∈ nodes base) : firsts base visits = base := by
  induction visits with
  | nil => rfl
  | cons v visits ih =>
      rw [List.forall_mem_cons] at h
      rw [firsts, List.foldl_cons, record, if_pos h.1]
      exact ih h.2

theorem mem_firsts_of_mem (h : v ∈ base) : v ∈ firsts base visits := by
  induction visits generalizing base with
  | nil => exact h
  | cons w visits ih =>
      refine ih ?_
      rw [record]
      split_ifs
      · exact h
      · exact List.mem_append_left _ h

theorem nodup_firsts (h : (nodes base).Nodup) : (nodes (firsts base visits)).Nodup := by
  induction visits generalizing base with
  | nil => exact h
  | cons v visits ih =>
      refine ih ?_
      rw [record]
      split_ifs with hv
      · exact h
      · rw [nodes, List.map_append, List.nodup_append]
        refine ⟨h, List.nodup_singleton _, ?_⟩
        rintro a ha b hb rfl
        rw [List.map_singleton, List.mem_singleton] at hb
        exact hv (hb ▸ ha)

theorem find_firsts (base visits : List (Visit ν π)) (n : ν) :
    (firsts base visits).find? (fun v => v.node = n) = (base ++ visits).find? (fun v => v.node = n) := by
  induction visits generalizing base with
  | nil => rw [List.append_nil]; rfl
  | cons v visits ih =>
      rw [firsts, List.foldl_cons, ← firsts, ih, record]
      split_ifs with hv
      · rw [List.find?_append, List.find?_append, List.find?_cons]
        by_cases hn : v.node = n
        · obtain ⟨w, hw, hwn⟩ := mem_nodes.mp hv
          have hsome : (base.find? (fun v => v.node = n)).isSome := by
            rw [List.find?_isSome]
            exact ⟨w, hw, by rw [hwn, hn, decide_eq_true_eq]⟩
          obtain ⟨u, hu⟩ := Option.isSome_iff_exists.mp hsome
          rw [hu, Option.some_or, Option.some_or]
        · rw [decide_eq_false hn]
      · rw [List.append_assoc]
        rfl

/-- What is recorded is the first visit of its node. -/
theorem find_of_mem (h : (nodes base).Nodup) (hw : w ∈ firsts base visits) (rest : List (Visit ν π)) :
    (base ++ (visits ++ rest)).find? (fun v => v.node = w.node) = some w := by
  have hsome : ((firsts base visits).find? (fun v => v.node = w.node)).isSome := by
    rw [List.find?_isSome]
    exact ⟨w, hw, decide_eq_true rfl⟩
  obtain ⟨u, hu⟩ := Option.isSome_iff_exists.mp hsome
  have hnode := List.find?_some hu
  have huw : u = w :=
    List.inj_on_of_nodup_map (nodup_firsts h) (List.mem_of_find?_eq_some hu) hw (of_decide_eq_true hnode)
  rw [← List.append_assoc, List.find?_append, ← find_firsts, hu, huw, Option.some_or]

end Recording

section Search

variable (hops : ν → π → List (ν × π))

/-- Depth first, down so many levels, each node once. -/
def search : Nat → ν → π → List (Visit ν π) → List (Visit ν π)
  | 0, _, _, log => log
  | left + 1, x, p, log => (hops x p).foldl (fun log h =>
      if h.1 ∈ nodes log then log else search left h.1 h.2 (log ++ [⟨h.1, left, h.2⟩])) log

/-- Every visit below a node in the order of the search, where a node may be
met again and is entered again unless it stands above. -/
def unrolled : Nat → List ν → ν → π → List (Visit ν π)
  | 0, _, _, _ => []
  | left + 1, above, x, p => (hops x p).flatMap (fun h =>
      ⟨h.1, left, h.2⟩ :: if h.1 ∈ above then [] else unrolled left (h.1 :: above) h.1 h.2)

/-- What so many hops lead to. -/
inductive Reach (x : ν) (p : π) : Nat → ν → π → Prop
  | start : Reach x p 0 x p
  | hop {n : Nat} {y z : ν} {q r : π} : Reach x p n y q → (z, r) ∈ hops y q → Reach x p (n + 1) z r

variable {hops} {x y z : ν} {p q r : π} {n : Nat}

omit [DecidableEq ν] in
theorem Reach.after (hhop : (y, q) ∈ hops x p) (h : Reach hops y q n z r) : Reach hops x p (n + 1) z r := by
  induction h with
  | start => exact .hop .start hhop
  | hop _ hlast ih => exact .hop ih hlast

theorem mem_unrolled_of_hop (left : Nat) (above : List ν) {h : ν × π} (hh : h ∈ hops x p) :
    ⟨h.1, left, h.2⟩ ∈ unrolled hops (left + 1) above x p := by
  rw [unrolled, List.mem_flatMap]
  exact ⟨h, hh, List.mem_cons_self⟩

theorem left_lt_of_mem_unrolled {left : Nat} {above : List ν} {v : Visit ν π} (h : v ∈ unrolled hops left above x p) :
    v.left < left := by
  induction left generalizing above x p with
  | zero => exact absurd h List.not_mem_nil
  | succ left ih =>
      rw [unrolled, List.mem_flatMap] at h
      obtain ⟨hop, -, hv⟩ := h
      rcases List.mem_cons.mp hv with rfl | hv
      · exact Nat.lt_succ_self left
      · split_ifs at hv
        · exact absurd hv List.not_mem_nil
        · exact Nat.lt_succ_of_lt (ih hv)

theorem reach_of_mem_unrolled {left : Nat} {above : List ν} {v : Visit ν π} (h : v ∈ unrolled hops left above x p) :
    ∃ n ≤ left, Reach hops x p n v.node v.view := by
  induction left generalizing above x p with
  | zero => exact absurd h List.not_mem_nil
  | succ left ih =>
      rw [unrolled, List.mem_flatMap] at h
      obtain ⟨hop, hhop, hv⟩ := h
      rcases List.mem_cons.mp hv with rfl | hv
      · exact ⟨1, Nat.le_add_left 1 left, .hop .start hhop⟩
      · split_ifs at hv with habove
        · exact absurd hv List.not_mem_nil
        · obtain ⟨n, hn, hreach⟩ := ih hv
          exact ⟨n + 1, Nat.succ_le_succ hn, hreach.after hhop⟩

variable (hops) in
/-- No visit of a known node finds it with fewer levels left or looked at
otherwise than it was entered, but to reach what was known before. -/
def Fits (known visits : List (Visit ν π)) : Prop :=
  ∀ v ∈ visits, 0 < v.left → ∀ w, (known ++ visits).find? (fun w => w.node = v.node) = some w →
    (v.left ≤ w.left ∧ v.view = w.view) ∨ ∀ n ≤ v.left, ∀ z r, Reach hops v.node v.view n z r → z ∈ nodes known

section Closed

variable {known visits : List (Visit ν π)}

variable (hops known visits) in
/-- Where a node has been entered and left, all it leads to is known, and met below it. -/
def Closed (above : List ν) (log : List (Visit ν π)) : Prop :=
  ∀ w ∈ log, w.node ∉ above → ∀ l, w.left = l + 1 → ∀ h ∈ hops w.node w.view, h.1 ∈ nodes log ∧ ⟨h.1, l, h.2⟩ ∈ visits

omit [DecidableEq ν] in
theorem Closed.enter {above : List ν} {log : List (Visit ν π)} (h : Closed hops visits above log) (x : ν) :
    Closed hops visits (x :: above) log := fun w hw hnot => h w hw fun hmem => hnot (List.mem_cons_of_mem x hmem)

variable (hknown : (nodes known).Nodup) (hfits : Fits hops known visits)
include hknown hfits

/-- The search loses nothing below a node that it passes over. -/
theorem known_below {left : Nat} {above : List ν} {before rest : List (Visit ν π)} (hsplit : visits = before ++ rest)
    (hclosed : Closed hops visits above (firsts known before)) (hvisit : ⟨x, left, p⟩ ∈ visits)
    (hx : x ∈ nodes (firsts known before)) (habove : x ∉ above)
    (hbelow : ∀ v ∈ unrolled hops left (x :: above) x p, v ∈ visits) :
    ∀ v ∈ unrolled hops left (x :: above) x p, v.node ∈ nodes (firsts known before) := by
  induction left generalizing x p above with
  | zero => exact fun v hv => absurd hv List.not_mem_nil
  | succ left ih =>
      obtain ⟨w, hw, hwx⟩ := mem_nodes.mp hx
      have hfirst : (known ++ visits).find? (fun u => u.node = x) = some w := by
        rw [hsplit, ← hwx]
        exact find_of_mem hknown hw rest
      intro v hv
      rcases hfits _ hvisit (Nat.succ_pos left) w hfirst with ⟨hleft, hview⟩ | hharmless
      · obtain ⟨l, hl⟩ : ∃ l, w.left = l + 1 := ⟨w.left - 1, by dsimp only at hleft; omega⟩
        dsimp only at hview
        rw [unrolled, List.mem_flatMap] at hv
        obtain ⟨hop, hhop, hv⟩ := hv
        have htarget := (hclosed w hw (hwx ▸ habove) l hl hop (by rw [hwx, ← hview]; exact hhop)).1
        rcases List.mem_cons.mp hv with rfl | hv
        · exact htarget
        · split_ifs at hv with hstands
          · exact absurd hv List.not_mem_nil
          · refine ih (hclosed.enter x) (hbelow _ (mem_unrolled_of_hop left _ hhop)) htarget hstands ?_ v hv
            intro u hu
            refine hbelow u ?_
            rw [unrolled, List.mem_flatMap]
            exact ⟨hop, hhop, by rw [if_neg hstands]; exact List.mem_cons_of_mem _ hu⟩
      · obtain ⟨n, hn, hreach⟩ := reach_of_mem_unrolled hv
        exact mem_nodes_firsts.mpr (.inl (hharmless n hn _ _ hreach))

omit [DecidableEq ν] hknown hfits in
theorem nodes_concat (log : List (Visit ν π)) (v : Visit ν π) : nodes (log ++ [v]) = nodes log ++ [v.node] := List.map_append

/-- One hop of the search: passed over, or entered and left. -/
theorem entered {left : Nat} {above : List ν} {before rest : List (Visit ν π)} (h : ν × π)
    (ih : ∀ {x : ν} {p : π} {above : List ν} (before rest : List (Visit ν π)),
      visits = before ++ (unrolled hops left above x p ++ rest) → (∀ a ∈ above, a ∈ nodes (firsts known before)) →
      Closed hops visits above (firsts known before) →
      search hops left x p (firsts known before) = firsts known (before ++ unrolled hops left above x p) ∧
        Closed hops visits above (firsts known (before ++ unrolled hops left above x p)))
    (hsplit : visits = before ++
      ((⟨h.1, left, h.2⟩ :: if h.1 ∈ above then [] else unrolled hops left (h.1 :: above) h.1 h.2) ++ rest))
    (habove : ∀ a ∈ above, a ∈ nodes (firsts known before)) (hclosed : Closed hops visits above (firsts known before)) :
    (if h.1 ∈ nodes (firsts known before) then firsts known before
      else search hops left h.1 h.2 (firsts known before ++ [⟨h.1, left, h.2⟩])) =
        firsts known (before ++
          (⟨h.1, left, h.2⟩ :: if h.1 ∈ above then [] else unrolled hops left (h.1 :: above) h.1 h.2)) ∧
      Closed hops visits above (firsts known (before ++
          (⟨h.1, left, h.2⟩ :: if h.1 ∈ above then [] else unrolled hops left (h.1 :: above) h.1 h.2))) := by
  by_cases hseen : h.1 ∈ nodes (firsts known before)
  · have hkept : firsts known (before ++
        (⟨h.1, left, h.2⟩ :: if h.1 ∈ above then [] else unrolled hops left (h.1 :: above) h.1 h.2)) =
        firsts known before := by
      rw [firsts_append]
      refine firsts_of_known fun v hv => ?_
      rcases List.mem_cons.mp hv with rfl | hv
      · exact hseen
      · split_ifs at hv with hstands
        · exact absurd hv List.not_mem_nil
        · rw [if_neg hstands] at hsplit
          refine known_below hknown hfits hsplit hclosed ?_ hseen hstands (fun u hu => ?_) v hv
          · rw [hsplit]
            exact List.mem_append_right _ List.mem_cons_self
          · rw [hsplit]
            exact List.mem_append_right _ (List.mem_append_left _ (List.mem_cons_of_mem _ hu))
    rw [if_pos hseen, hkept]
    exact ⟨rfl, hclosed⟩
  · have hstands : h.1 ∉ above := fun hmem => hseen (habove _ hmem)
    have hrecord : firsts known before ++ [⟨h.1, left, h.2⟩] = firsts known (before ++ [⟨h.1, left, h.2⟩]) := by
      rw [firsts_append]
      exact (if_neg hseen).symm
    rw [if_neg hstands] at hsplit ⊢
    rw [if_neg hseen, hrecord, List.append_cons before _ (unrolled hops left (h.1 :: above) h.1 h.2)]
    have hsplit' : visits = (before ++ [⟨h.1, left, h.2⟩]) ++ (unrolled hops left (h.1 :: above) h.1 h.2 ++ rest) := by
      rw [hsplit, List.cons_append, List.append_cons before]
    have hmem : ∀ v ∈ unrolled hops left (h.1 :: above) h.1 h.2, v ∈ visits := fun v hv => by
      rw [hsplit']
      exact List.mem_append_right _ (List.mem_append_left _ hv)
    have habove' : ∀ a ∈ h.1 :: above, a ∈ nodes (firsts known (before ++ [⟨h.1, left, h.2⟩])) := by
      intro a ha
      rw [← hrecord, nodes_concat]
      rcases List.mem_cons.mp ha with rfl | ha
      · exact List.mem_append_right _ (List.mem_singleton_self _)
      · exact List.mem_append_left _ (habove a ha)
    have hclosed₁ : Closed hops visits (h.1 :: above) (firsts known (before ++ [⟨h.1, left, h.2⟩])) := by
      intro w hw hnot l hl hop hhop
      rw [← hrecord] at hw ⊢
      rcases List.mem_append.mp hw with hw | hw
      · obtain ⟨hmem, hvisit⟩ := hclosed w hw (fun hin => hnot (List.mem_cons_of_mem _ hin)) l hl hop hhop
        rw [nodes_concat]
        exact ⟨List.mem_append_left _ hmem, hvisit⟩
      · rw [List.mem_singleton] at hw
        rw [hw] at hnot
        exact absurd List.mem_cons_self hnot
    obtain ⟨hlog, hclosed₂⟩ := ih _ _ hsplit' habove' hclosed₁
    refine ⟨hlog, fun w hw hnot l hl hop hhop => ?_⟩
    by_cases hwx : w.node = h.1
    · have hself : ⟨h.1, left, h.2⟩ ∈ firsts known (before ++ [⟨h.1, left, h.2⟩]) := by
        rw [← hrecord]
        exact List.mem_append_right _ (List.mem_singleton_self _)
      rw [firsts_append] at hw ⊢
      have hfirst : w = ⟨h.1, left, h.2⟩ :=
        List.inj_on_of_nodup_map (nodup_firsts (nodup_firsts hknown)) hw (mem_firsts_of_mem hself) hwx
      subst hfirst
      dsimp only at hl hhop
      subst hl
      have htarget := mem_unrolled_of_hop l (h.1 :: above) hhop
      have hnode : hop.1 ∈ nodes (unrolled hops (l + 1) (h.1 :: above) h.1 h.2) := mem_nodes.mpr ⟨_, htarget, rfl⟩
      exact ⟨mem_nodes_firsts.mpr (.inr hnode), hmem _ htarget⟩
    · exact hclosed₂ w hw (fun hin => (List.mem_cons.mp hin).elim hwx hnot) l hl hop hhop

/-- The search records the first visits. -/
theorem search_firsts {left : Nat} {above : List ν} (before rest : List (Visit ν π))
    (hsplit : visits = before ++ (unrolled hops left above x p ++ rest))
    (habove : ∀ a ∈ above, a ∈ nodes (firsts known before)) (hclosed : Closed hops visits above (firsts known before)) :
    search hops left x p (firsts known before) = firsts known (before ++ unrolled hops left above x p) ∧
      Closed hops visits above (firsts known (before ++ unrolled hops left above x p)) := by
  induction left generalizing x p above before rest with
  | zero =>
      rw [unrolled, List.append_nil]
      exact ⟨rfl, hclosed⟩
  | succ left ih =>
      rw [search]
      rw [unrolled] at hsplit ⊢
      generalize hops x p = hs at hsplit ⊢
      induction hs generalizing before with
      | nil =>
          rw [List.flatMap_nil, List.append_nil]
          exact ⟨rfl, hclosed⟩
      | cons h hs ihs =>
          rw [List.flatMap_cons] at hsplit ⊢
          rw [List.foldl_cons]
          rw [List.append_assoc] at hsplit
          obtain ⟨hlog, hclosed'⟩ := entered hknown hfits h ih hsplit habove hclosed
          rw [hlog, ← List.append_assoc]
          refine ihs _ ?_ hclosed' ?_
          · intro a ha
            rw [firsts_append]
            exact mem_nodes_firsts.mpr (.inl (habove a ha))
          · rw [hsplit, List.append_assoc]

end Closed

section Complete

variable {others : List (Visit ν π)} {level : Nat}

variable (hops) in
/-- What a search that starts at a node has still to meet, or need not. -/
def Covered (known visits : List (Visit ν π)) (levels : Nat) (y : ν) (q : π) : Prop :=
  (∃ w ∈ firsts known visits, w.node = y ∧ w.view = q ∧ levels ≤ w.left ∧
    ∀ l, w.left = l + 1 → ∀ h ∈ hops y q, h.1 ∈ nodes (firsts known visits) ∧ ⟨h.1, l, h.2⟩ ∈ visits) ∨
  ∀ m ≤ levels, ∀ z r, Reach hops y q m z r → z ∈ nodes known

variable (hknown : (nodes (⟨x, level, p⟩ :: others)).Nodup)
  (hfits : Fits hops (⟨x, level, p⟩ :: others) (unrolled hops level [x] x p))
  (hothers : ∀ w ∈ others, w.left = 0)
include hknown hfits hothers

theorem search_root : search hops level x p (⟨x, level, p⟩ :: others) =
      firsts (⟨x, level, p⟩ :: others) (unrolled hops level [x] x p) ∧
    Closed hops (unrolled hops level [x] x p) [x] (firsts (⟨x, level, p⟩ :: others) (unrolled hops level [x] x p)) := by
  have hstart : Closed hops (unrolled hops level [x] x p) [x] (⟨x, level, p⟩ :: others) := by
    intro w hw hnot l hl
    rcases List.mem_cons.mp hw with rfl | hw
    · exact absurd (List.mem_singleton_self x) hnot
    · rw [hothers w hw] at hl
      cases hl
  refine search_firsts hknown hfits [] [] (List.append_nil _).symm (fun a ha => ?_) hstart
  rw [List.mem_singleton] at ha
  exact ha ▸ List.mem_cons_self

/-- All that so many hops lead to is met, and met with the levels that are left
after them, or leads only to what was known. -/
theorem covered_of_reach {n : Nat} {y : ν} {q : π} (h : Reach hops x p n y q) (hn : n ≤ level) :
    y ∈ nodes (firsts (⟨x, level, p⟩ :: others) (unrolled hops level [x] x p)) ∧
      (n < level → Covered hops (⟨x, level, p⟩ :: others) (unrolled hops level [x] x p) (level - n) y q) := by
  obtain ⟨-, hclosed⟩ := search_root hknown hfits hothers
  have hroot : (⟨x, level, p⟩ : Visit ν π) ∈ firsts (⟨x, level, p⟩ :: others) (unrolled hops level [x] x p) :=
    mem_firsts_of_mem List.mem_cons_self
  have hdown : ∀ l, level = l + 1 → ∀ h ∈ hops x p,
      h.1 ∈ nodes (firsts (⟨x, level, p⟩ :: others) (unrolled hops level [x] x p)) ∧
        ⟨h.1, l, h.2⟩ ∈ unrolled hops level [x] x p := by
    rintro l rfl h hh
    have hvisit := mem_unrolled_of_hop l [x] hh
    exact ⟨mem_nodes_firsts.mpr (.inr (mem_nodes.mpr ⟨_, hvisit, rfl⟩)), hvisit⟩
  induction h with
  | start => exact ⟨mem_nodes.mpr ⟨_, hroot, rfl⟩, fun _ => .inl ⟨_, hroot, rfl, rfl, Nat.sub_le _ _, hdown⟩⟩
  | @hop n y z q r _ hlast ih =>
      rcases (ih (Nat.le_of_succ_le hn)).2 hn with ⟨w, -, -, -, hleft, hbelow⟩ | hharmless
      · obtain ⟨l, hl⟩ : ∃ l, w.left = l + 1 := ⟨w.left - 1, by omega⟩
        obtain ⟨hz, hvisit⟩ := hbelow l hl (z, r) hlast
        refine ⟨hz, fun hlt => ?_⟩
        obtain ⟨u, hu, huz⟩ := mem_nodes.mp hz
        dsimp only at huz
        have hfirst : (⟨x, level, p⟩ :: others ++ unrolled hops level [x] x p).find? (fun v => v.node = z) = some u := by
          have h := find_of_mem hknown hu []
          rwa [List.append_nil, huz] at h
        rcases hfits ⟨z, l, r⟩ hvisit (by dsimp only; omega) u hfirst with ⟨hle, hview⟩ | hharmless
        · dsimp only at hle hview
          refine .inl ⟨u, hu, huz, hview.symm, by omega, fun l' hl' h hh => ?_⟩
          by_cases hzx : z = x
          · have hself : u = ⟨x, level, p⟩ :=
              List.inj_on_of_nodup_map (nodup_firsts hknown) hu hroot (huz.trans hzx)
            subst hself
            subst hzx
            dsimp only at hl' hview
            exact hdown l' hl' h (hview ▸ hh)
          · refine hclosed u hu ?_ l' hl' h (by rw [huz, ← hview]; exact hh)
            rw [huz, List.mem_singleton]
            exact hzx
        · refine .inr fun m hm z' r' hreach => hharmless m ?_ z' r' hreach
          dsimp only
          omega
      · refine ⟨mem_nodes_firsts.mpr (.inl (hharmless 1 (by omega) z r (.hop .start hlast))), fun _ => .inr ?_⟩
        intro m hm z' r' hreach
        exact hharmless (m + 1) (by omega) z' r' (hreach.after hlast)

/-- The search is complete. -/
theorem search_complete {n : Nat} {y : ν} {q : π} (h : Reach hops x p n y q) (hn : n ≤ level) :
    y ∈ nodes (search hops level x p (⟨x, level, p⟩ :: others)) := by
  rw [(search_root hknown hfits hothers).1]
  exact (covered_of_reach hknown hfits hothers h hn).1

end Complete

end Search

end AntaresBroker.DepthSearch
