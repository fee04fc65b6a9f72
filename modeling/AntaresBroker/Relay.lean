import Mathlib.Data.List.Nodup

namespace AntaresBroker.Relay

variable {α κ ι : Type}

/-- One entry of a list stands before another. -/
def Before (l : List α) (f e : α) : Prop := [f, e].Sublist l

theorem mem_takeWhile_of_before [DecidableEq ι] {name : α → ι} {l : List α} {f e : α} (hnd : (l.map name).Nodup)
    (h : Before l f e) : f ∈ l.takeWhile (fun a => name a ≠ name e) := by
  induction l with
  | nil => cases h
  | cons a l ih =>
      rw [List.map_cons, List.nodup_cons] at hnd
      have hne (hmem : e ∈ l) : name a ≠ name e := fun heq => hnd.1 (heq ▸ List.mem_map_of_mem hmem)
      rcases List.sublist_cons_iff.mp h with hl | ⟨r, hr, hl⟩
      · have hmem : e ∈ l := hl.subset (List.mem_cons_of_mem _ List.mem_cons_self)
        rw [List.takeWhile_cons, if_pos (decide_eq_true (hne hmem))]
        exact List.mem_cons_of_mem _ (ih hnd.2 hl)
      · obtain ⟨rfl, rfl⟩ := List.cons.inj hr
        rw [List.takeWhile_cons, if_pos (decide_eq_true (hne (List.singleton_sublist.mp hl)))]
        exact List.mem_cons_self

/-- A property no entry has after one that lacks it splits a list in two. -/
theorem filter_split {p : α → Bool} {l : List α} (h : ∀ f e, Before l f e → p e = true → p f = true) :
    l.filter p ++ l.filter (fun a => !p a) = l := by
  induction l with
  | nil => rfl
  | cons a l ih =>
      have htail := ih fun f e hb => h f e (hb.cons a)
      cases ha : p a with
      | true =>
          rw [List.filter_cons_of_pos ha, List.filter_cons_of_neg (by simp [ha]), List.cons_append, htail]
      | false =>
          have hnone : ∀ e ∈ l, p e = false := fun e he => by
            cases hp : p e with
            | false => rfl
            | true => rw [← h a e ((List.singleton_sublist.mpr he).cons_cons a) hp, ha]
          have hkept : ∀ e ∈ a :: l, (!p e) = true := fun e he => by
            rcases List.mem_cons.mp he with rfl | he
            · rw [ha]
              rfl
            · rw [hnone e he]
              rfl
          rw [List.filter_cons_of_neg (by simp [ha]), List.filter_eq_nil_iff.mpr fun e he => by simp [hnone e he],
            List.filter_eq_self.mpr hkept, List.nil_append]

variable [DecidableEq κ] (key : α → κ)

/-- Key by key, what has gone out and then what is held back make up the log. -/
def Relayed (out held log : List α) : Prop :=
  ∀ k, out.filter (fun a => key a = k) ++ held.filter (fun a => key a = k) = log.filter (fun a => key a = k)

variable {key} {out held log : List α}

theorem Relayed.hold (h : Relayed key out held log) (a : α) : Relayed key out (held ++ [a]) (log ++ [a]) := fun k => by
  rw [List.filter_append, List.filter_append, ← List.append_assoc, h k]

theorem Relayed.pass {a : α} (h : Relayed key out held log) (hnone : ∀ f ∈ held, key f ≠ key a) :
    Relayed key (out ++ [a]) held (log ++ [a]) := fun k => by
  rw [List.filter_append, List.filter_append, ← h k]
  by_cases hk : key a = k
  · have hnil : held.filter (fun f => key f = k) = [] :=
      List.filter_eq_nil_iff.mpr fun f hf => by simpa [← hk] using hnone f hf
    rw [hnil, List.append_nil, List.append_nil]
  · rw [List.filter_singleton, decide_eq_false hk, cond_false, List.append_nil, List.append_nil]

theorem Relayed.mem_held (h : Relayed key out held log) {f : α} (hf : f ∈ held) : f ∈ log := by
  have hmem : f ∈ log.filter (fun a => key a = key f) := by
    rw [← h (key f)]
    exact List.mem_append_right _ (List.mem_filter.mpr ⟨hf, decide_eq_true rfl⟩)
  exact (List.mem_filter.mp hmem).1

theorem Relayed.mem_out (h : Relayed key out held log) {f : α} (hf : f ∈ out) : f ∈ log := by
  have hmem : f ∈ log.filter (fun a => key a = key f) := by
    rw [← h (key f)]
    exact List.mem_append_left _ (List.mem_filter.mpr ⟨hf, decide_eq_true rfl⟩)
  exact (List.mem_filter.mp hmem).1

theorem Relayed.before (h : Relayed key out held log) {f e : α} (hb : Before held f e) (hkey : key f = key e) :
    Before log f e := by
  have hpair : ([f, e].filter (fun a => key a = key e)).Sublist (held.filter (fun a => key a = key e)) :=
    List.Sublist.filter _ hb
  rw [List.filter_eq_self.mpr (by simp [hkey])] at hpair
  have hheld : (held.filter (fun a => key a = key e)).Sublist (log.filter (fun a => key a = key e)) :=
    h (key e) ▸ List.sublist_append_right _ _
  exact (hpair.trans hheld).trans List.filter_sublist

/-- What is held back has not gone out. -/
theorem Relayed.apart {name : α → ι} (hnd : (log.map name).Nodup) (h : Relayed key out held log) {f g : α} (hf : f ∈ held)
    (hg : g ∈ out) : name f ≠ name g := fun heq => by
  obtain rfl := List.inj_on_of_nodup_map hnd (h.mem_held hf) (h.mem_out hg) heq
  have hnodup := (List.Nodup.of_map name hnd).filter (fun a => key a = key f)
  rw [← h (key f)] at hnodup
  exact (List.nodup_append.mp hnodup).2.2 f (List.mem_filter.mpr ⟨hg, decide_eq_true rfl⟩) f
    (List.mem_filter.mpr ⟨hf, decide_eq_true rfl⟩) rfl

/-- A part of what is held goes out when nothing left behind stands before it. -/
theorem Relayed.release (h : Relayed key out held log) {p : α → Bool}
    (hturn : ∀ f ∈ held, ∀ e ∈ held, Before log f e → key f = key e → p e = true → p f = true) :
    Relayed key (out ++ held.filter p) (held.filter (fun a => !p a)) log := fun k => by
  have hsplit : (held.filter (fun a => key a = k)).filter p ++ (held.filter (fun a => key a = k)).filter (fun a => !p a) =
      held.filter (fun a => key a = k) := filter_split fun f e hb => by
    have hf := List.mem_filter.mp (hb.subset List.mem_cons_self)
    have he := List.mem_filter.mp (hb.subset (List.mem_cons_of_mem _ List.mem_cons_self))
    have hkey : key f = key e := (of_decide_eq_true hf.2).trans (of_decide_eq_true he.2).symm
    exact hturn f hf.1 e he.1 (h.before (hb.trans List.filter_sublist) hkey) hkey
  rw [List.filter_append, List.append_assoc, ← h k, List.filter_comm (p := fun a => key a = k),
    List.filter_comm (p := fun a => key a = k), hsplit]

theorem Relayed.in_order (h : Relayed key out held log) (k : κ) :
    out.filter (fun a => key a = k) <+: log.filter (fun a => key a = k) :=
  ⟨_, h k⟩

end AntaresBroker.Relay
