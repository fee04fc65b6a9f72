import AntaresBroker.BTreeMap
import Mathlib.Data.Prod.Lex
import Mathlib.Order.WellFounded

namespace AntaresBroker

namespace BTreeMap

variable {κ α : Type} [LinearOrder κ]

/-- Every binding changed or dropped. -/
def edit (m : BTreeMap κ α) (g : κ → α → Option α) : BTreeMap κ α :=
  ⟨m.entries.filterMap (fun p => (g p.1 p.2).map (fun a => (p.1, a))), by
    refine List.Pairwise.filterMap _ ?_ m.sorted
    intro p q hpq p' hp q' hq
    obtain ⟨a, -, rfl⟩ := Option.map_eq_some_iff.mp hp
    obtain ⟨b, -, rfl⟩ := Option.map_eq_some_iff.mp hq
    exact hpq⟩

theorem get_edit (m : BTreeMap κ α) (g : κ → α → Option α) (k : κ) : (m.edit g).get k = (m.get k).bind (g k) := by
  apply Option.ext
  intro a
  rw [← Option.mem_def, ← Option.mem_def, Option.mem_def, Option.mem_def, ← mem_entries, Option.bind_eq_some_iff]
  rw [edit, List.mem_filterMap]
  constructor
  · rintro ⟨⟨k', b⟩, hmem, heq⟩
    obtain ⟨a', ha, heq⟩ := Option.map_eq_some_iff.mp heq
    cases heq
    exact ⟨b, mem_entries.mp hmem, ha⟩
  · rintro ⟨b, hb, ha⟩
    exact ⟨(k, b), mem_entries.mpr hb, by rw [ha]; rfl⟩

theorem nodup_entries (m : BTreeMap κ α) : m.entries.Nodup := m.sorted.imp (fun h heq => absurd (heq ▸ h) (lt_irrefl _))

end BTreeMap

namespace PagedWalk

variable {α : Type} (sel : α → Bool) (offset chunk : Nat)

/-- A page of the rows that are selected. -/
def page (l : List α) : List α := ((l.filter sel).drop offset).take chunk

variable {sel offset chunk} {l : List α} {f : α → Option α}

theorem mem_page {a : α} (h : a ∈ page sel offset chunk l) : a ∈ l ∧ sel a = true :=
  List.mem_filter.mp (List.mem_of_mem_drop (List.mem_of_mem_take h))

theorem page_sublist : (page sel offset chunk l).Sublist l :=
  ((List.take_sublist _ _).trans (List.drop_sublist _ _)).trans List.filter_sublist

variable (offset chunk) in
theorem split_selected (l : List α) : l.filter sel =
    (l.filter sel).take offset ++ (page sel offset chunk l ++ (l.filter sel).drop (offset + chunk)) := by
  rw [page, ← List.drop_drop, List.take_append_drop, List.take_append_drop]

/-- What an edit leaves alone stays selected. -/
theorem filter_fixed {part : List α} (hsel : ∀ a ∈ part, sel a = true) (hfix : ∀ a ∈ part, f a = some a) :
    (part.filterMap f).filter sel = part := by
  rw [List.filterMap_congr hfix, List.filterMap_some, List.filter_eq_self]
  exact hsel

theorem filter_filterMap (hfix : ∀ a ∈ l, sel a = false → f a = some a) :
    (l.filterMap f).filter sel = ((l.filter sel).filterMap f).filter sel := by
  induction l with
  | nil => rfl
  | cons a l ih =>
      rw [List.forall_mem_cons] at hfix
      have hrest := ih hfix.2
      cases hsel : sel a with
      | true =>
          rw [List.filter_cons_of_pos hsel, List.filterMap_cons, List.filterMap_cons]
          cases f a with
          | none => exact hrest
          | some b => rw [List.filter_cons, List.filter_cons, hrest]
      | false =>
          rw [List.filterMap_cons, hfix.1 hsel, List.filter_cons_of_neg (Bool.eq_false_iff.mp hsel),
            List.filter_cons_of_neg (Bool.eq_false_iff.mp hsel), hrest]

/-- An edit of a page alone: the rows before and after it are selected as before. -/
theorem selected_edit (hl : l.Nodup) (hfix : ∀ a ∈ l, a ∉ page sel offset chunk l → f a = some a) :
    (l.filterMap f).filter sel = (l.filter sel).take offset ++
      (((page sel offset chunk l).filterMap f).filter sel ++ (l.filter sel).drop (offset + chunk)) := by
  have hout : ∀ a ∈ l, sel a = false → f a = some a := by
    intro a ha hsel
    refine hfix a ha fun hpage => ?_
    rw [(mem_page hpage).2] at hsel
    cases hsel
  have hnodup := hl.filter sel
  rw [split_selected offset chunk] at hnodup
  rw [filter_filterMap hout]
  conv_lhs => rw [split_selected offset chunk l]
  rw [List.filterMap_append, List.filter_append, List.filterMap_append, List.filter_append]
  obtain ⟨-, hnodup', hbefore⟩ := List.nodup_append.mp hnodup
  obtain ⟨-, -, hafter⟩ := List.nodup_append.mp hnodup'
  have hselected {a : α} (ha : a ∈ l.filter sel) : a ∈ l ∧ sel a = true := List.mem_filter.mp ha
  congr 1
  · apply filter_fixed (fun a ha => (hselected (List.mem_of_mem_take ha)).2)
    intro a ha
    refine hfix a (hselected (List.mem_of_mem_take ha)).1 fun hpage => ?_
    exact hbefore a ha a (List.mem_append_left _ hpage) rfl
  · congr 1
    apply filter_fixed (fun a ha => (hselected (List.mem_of_mem_drop ha)).2)
    intro a ha
    refine hfix a (hselected (List.mem_of_mem_drop ha)).1 fun hpage => ?_
    exact hafter a hpage a ha rfl

section Counting

variable {q : α → Bool}

theorem countP_edit_le (h : ∀ a ∈ l, ∀ b, f a = some b → q b = true → q a = true) : (l.filterMap f).countP q ≤ l.countP q := by
  induction l with
  | nil => exact Nat.le_refl 0
  | cons a l ih =>
      rw [List.forall_mem_cons] at h
      have hrest := ih h.2
      rw [List.filterMap_cons, List.countP_cons]
      cases hf : f a with
      | none => exact hrest.trans (Nat.le_add_right _ _)
      | some b =>
          rw [List.countP_cons]
          refine Nat.add_le_add hrest ?_
          by_cases hb : q b = true
          · rw [if_pos hb, if_pos (h.1 b hf hb)]
          · rw [if_neg hb]
            exact Nat.zero_le _

/-- An edit that makes none of them and unmakes one leaves fewer. -/
theorem countP_edit_lt (h : ∀ a ∈ l, ∀ b, f a = some b → q b = true → q a = true) {a : α} (ha : a ∈ l) (hq : q a = true)
    (hf : ∀ b, f a = some b → q b = false) : (l.filterMap f).countP q < l.countP q := by
  obtain ⟨before, after, rfl⟩ := List.append_of_mem ha
  have hbefore := countP_edit_le fun c hc => h c (List.mem_append_left _ hc)
  have hafter := countP_edit_le fun c hc => h c (List.mem_append_right _ (List.mem_cons_of_mem a hc))
  have hgone : ((a :: after).filterMap f).countP q = (after.filterMap f).countP q := by
    rw [List.filterMap_cons]
    cases hfa : f a with
    | none => rfl
    | some b => rw [List.countP_cons_of_neg (Bool.eq_false_iff.mp (hf b hfa))]
  rw [List.filterMap_append, List.countP_append, List.countP_append, hgone, List.countP_cons_of_pos hq]
  omega

theorem length_le_survivors (hsel : ∀ a ∈ l, sel a = true) (hfix : ∀ a ∈ l, q a = false → f a = some a) :
    l.length ≤ ((l.filterMap f).filter sel).length + l.countP q := by
  induction l with
  | nil => exact Nat.le_refl 0
  | cons a l ih =>
      rw [List.forall_mem_cons] at hsel hfix
      have hrest := ih hsel.2 hfix.2
      rw [List.length_cons, List.filterMap_cons]
      cases hq : q a with
      | true =>
          rw [List.countP_cons_of_pos hq]
          cases f a with
          | none =>
              dsimp only
              omega
          | some b =>
              dsimp only
              rw [List.filter_cons]
              split_ifs
              · rw [List.length_cons]
                omega
              · omega
      | false =>
          rw [List.countP_cons_of_neg (Bool.eq_false_iff.mp hq), hfix.1 hq, List.filter_cons_of_pos hsel.1, List.length_cons]
          omega

end Counting

section Settled

variable {settled : α → Prop} (hl : l.Nodup) (hfix : ∀ a ∈ l, a ∉ page sel offset chunk l → f a = some a)
  (hset : ∀ a ∈ page sel offset chunk l, ∀ b, f a = some b → settled b)
  (hbefore : ∀ a ∈ (l.filter sel).take offset, settled a)
include hl hfix hset hbefore

/-- The rows before the next offset are settled, where the offset passes none
but those the page has left behind. -/
theorem settled_step {next : Nat} (hnext : next ≤ offset + (((page sel offset chunk l).filterMap f).filter sel).length) :
    ∀ a ∈ ((l.filterMap f).filter sel).take next, settled a := by
  intro a ha
  have hle : next ≤ offset ∨ ((l.filter sel).take offset).length = offset := by
    rcases Nat.le_total offset (l.filter sel).length with h | h
    · exact .inr (List.length_take_of_le h)
    · have hpage : page sel offset chunk l = [] := by rw [page, List.drop_eq_nil_of_le h, List.take_nil]
      rw [hpage] at hnext
      exact .inl hnext
  rw [selected_edit hl hfix, ← List.append_assoc] at ha
  have hin : a ∈ (l.filter sel).take offset ++ ((page sel offset chunk l).filterMap f).filter sel := by
    rcases hle with hle | hlen
    · rcases Nat.le_total offset (l.filter sel).length with h | h
      · rw [List.append_assoc, List.take_append_of_le_length (by rwa [List.length_take_of_le h])] at ha
        exact List.mem_append_left _ (List.mem_of_mem_take ha)
      · rw [List.drop_eq_nil_of_le (h.trans (Nat.le_add_right _ _)), List.append_nil] at ha
        exact List.mem_of_mem_take ha
    · rw [List.take_append_of_le_length (by rwa [List.length_append, hlen])] at ha
      exact List.mem_of_mem_take ha
  rcases List.mem_append.mp hin with hin | hin
  · exact hbefore a hin
  · obtain ⟨b, hb, hba⟩ := List.mem_filterMap.mp (List.mem_of_mem_filter hin)
    exact hset b hb a hba

/-- A short page is the last. -/
theorem settled_last (hshort : (page sel offset chunk l).length < chunk) : ∀ a ∈ (l.filterMap f).filter sel, settled a := by
  intro a ha
  have hend : (l.filter sel).drop (offset + chunk) = [] := by
    rw [page, List.length_take, List.length_drop] at hshort
    rw [List.drop_eq_nil_iff]
    omega
  rw [selected_edit hl hfix, hend, List.append_nil] at ha
  rcases List.mem_append.mp ha with ha | ha
  · exact hbefore a ha
  · obtain ⟨b, hb, hba⟩ := List.mem_filterMap.mp (List.mem_of_mem_filter ha)
    exact hset b hb a hba

end Settled

section Rounds

variable {σ ρ : Type} (step : Nat → σ → ρ ⊕ σ)

/-- Rounds are made until one ends the walk. -/
def rounds : Nat → Nat → σ → Option ρ
  | 0, _, _ => none
  | fuel + 1, n, s =>
      match step n s with
      | .inl r => some r
      | .inr s => rounds fuel (n + 1) s

variable {step}

/-- A walk whose rounds each get nearer to the end has one, and more fuel
changes nothing. -/
theorem rounds_end {μ : σ → Nat ×ₗ Nat} (hstep : ∀ n s s', step n s = .inr s' → μ s' < μ s) (n : Nat) (s : σ) :
    ∃ fuel r, ∀ k, rounds step (fuel + k) n s = some r := by
  induction hμ : μ s using WellFoundedLT.induction generalizing n s with
  | ind m ih =>
      cases h : step n s with
      | inl r =>
          refine ⟨1, r, fun k => ?_⟩
          rw [Nat.add_comm, rounds, h]
      | inr s' =>
          obtain ⟨fuel, r, hr⟩ := ih (μ s') (hμ ▸ hstep n s s' h) (n + 1) s' rfl
          refine ⟨fuel + 1, r, fun k => ?_⟩
          rw [Nat.add_right_comm, rounds, h]
          exact hr k

/-- What the rounds keep, and the last one turns into the result. -/
theorem rounds_post (inv : Nat → σ → Prop) (post : ρ → Prop)
    (hend : ∀ n s r, inv n s → step n s = .inl r → post r)
    (hstep : ∀ n s s', inv n s → step n s = .inr s' → inv (n + 1) s') {fuel n : Nat} {s : σ} {r : ρ}
    (hinv : inv n s) (h : rounds step fuel n s = some r) : post r := by
  induction fuel generalizing n s with
  | zero => cases h
  | succ fuel ih =>
      rw [rounds] at h
      cases hs : step n s with
      | inl r' =>
          rw [hs] at h
          cases h
          exact hend n s r hinv hs
      | inr s' =>
          rw [hs] at h
          exact ih (hstep n s s' hinv hs) h

end Rounds

end PagedWalk

end AntaresBroker
