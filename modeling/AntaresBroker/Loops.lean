import AntaresBroker.Parsed

namespace AntaresBroker.Ql

open Fallible JsonString Text

/-- A parser never gives back more text than it was given. -/
def Shrinks {α : Type} (p : Parser α) : Prop := ∀ s x r, p s = .ok (x, r) → r.length ≤ s.length

theorem length_eat {c : Char} {s r : List Char} (h : eat c s = some r) : r.length + 1 = s.length := by
  rw [eat_eq_some.mp h, List.length_cons]

theorem length_trim_start (s : List Char) : (trim_start s).length ≤ s.length := List.length_dropWhile_le _ _

/-- With the length of the text as fuel a loop ends only where no separator is left. -/
theorem while_eat_stops {α : Type} {c : Char} {item : Parser α} (hitem : Shrinks item) {fuel : Nat}
    {s r : List Char} {xs : List α} (hf : s.length ≤ fuel) (h : while_eat c item fuel s = .ok (xs, r)) :
    eat c r = none ∧ r.length ≤ s.length := by
  induction fuel generalizing s xs with
  | zero =>
      have hs : s = [] := List.length_eq_zero_iff.mp (Nat.le_zero.mp hf)
      rw [while_eat] at h
      simp only [Except.ok.injEq, Prod.mk.injEq] at h
      rw [← h.2, hs]
      exact ⟨rfl, le_rfl⟩
  | succ fuel ih =>
      rw [while_eat] at h
      cases he : eat c s with
      | none =>
          rw [he] at h
          simp only [Except.ok.injEq, Prod.mk.injEq] at h
          rw [← h.2]
          exact ⟨he, le_rfl⟩
      | some s₁ =>
          rw [he] at h
          obtain ⟨⟨x, s₂⟩, hx, h⟩ := bind_eq_ok.mp h
          obtain ⟨⟨xs', s₃⟩, hxs, h⟩ := bind_eq_ok.mp h
          simp only [Except.ok.injEq, Prod.mk.injEq] at h
          obtain ⟨-, rfl⟩ := h
          have hlen := length_eat he
          have hle := hitem _ _ _ hx
          obtain ⟨hnone, hr⟩ := ih (by omega) hxs
          exact ⟨hnone, by omega⟩

theorem shrinks_while {α : Type} {c : Char} {item : Parser α} (hitem : Shrinks item) :
    Shrinks (fun s => while_eat c item s.length s) :=
  fun _ _ _ h => (while_eat_stops hitem le_rfl h).2

theorem shrinks_sep_by {α : Type} {c : Char} {item : Parser α} (hitem : Shrinks item) :
    Shrinks (sep_by c item) := by
  intro s xs r h
  obtain ⟨⟨x, s₁⟩, hx, h⟩ := bind_eq_ok.mp h
  obtain ⟨⟨ys, s₂⟩, hys, h⟩ := bind_eq_ok.mp h
  simp only [Except.ok.injEq, Prod.mk.injEq] at h
  obtain ⟨-, rfl⟩ := h
  exact (shrinks_while hitem _ _ _ hys).trans (hitem _ _ _ hx)

theorem shrinks_name_token : Shrinks name_token := by
  intro s name r h
  unfold name_token at h
  dsimp only at h
  split_ifs at h
  · exact absurd h bad_ne_ok
  · simp only [Except.ok.injEq, Prod.mk.injEq] at h
    rw [← h.2]
    exact (length_trim_start _).trans ((List.length_dropWhile_le _ _).trans (length_trim_start s))

theorem shrinks_hints (inner : String) : Shrinks (hints inner) := by
  intro s x r h
  unfold hints at h
  split_ifs at h
  · obtain ⟨⟨more, s₁⟩, hmore, h⟩ := bind_eq_ok.mp h
    dsimp only at h
    cases he : eat ':' s₁ with
    | none => rw [he] at h; exact absurd h bad_ne_ok
    | some s₂ =>
        rw [he] at h
        obtain ⟨⟨name, s₃⟩, hname, h⟩ := bind_eq_ok.mp h
        simp only [Except.ok.injEq, Prod.mk.injEq] at h
        obtain ⟨-, rfl⟩ := h
        have h₁ := shrinks_while shrinks_name_token _ _ _ hmore
        have h₂ := length_eat he
        have h₃ := shrinks_name_token _ _ _ hname
        omega
  · simp only [Except.ok.injEq, Prod.mk.injEq] at h
    rw [← h.2]

theorem shrinks_hops (left : Nat) (name : String) : Shrinks (hops name left) := by
  induction left generalizing name with
  | zero =>
      intro s x r h
      rw [hops] at h
      cases he : eat '{' s with
      | none => rw [he] at h; simp only [Except.ok.injEq, Prod.mk.injEq] at h; rw [← h.2]
      | some s₁ => rw [he] at h; simp at h
  | succ left ih =>
      intro s x r h
      rw [hops] at h
      cases he : eat '{' s with
      | none => rw [he] at h; simp only [Except.ok.injEq, Prod.mk.injEq] at h; rw [← h.2]
      | some s₁ =>
          rw [he] at h
          obtain ⟨⟨inner, s₂⟩, hinner, h⟩ := bind_eq_ok.mp h
          obtain ⟨⟨⟨types, inner'⟩, s₃⟩, hhints, h⟩ := bind_eq_ok.mp h
          obtain ⟨⟨⟨links, last⟩, s₄⟩, hhops, h⟩ := bind_eq_ok.mp h
          simp only [Except.ok.injEq, Prod.mk.injEq] at h
          obtain ⟨-, rfl⟩ := h
          have h₁ := length_eat he
          have h₂ := shrinks_name_token _ _ _ hinner
          have h₃ := shrinks_hints _ _ _ _ hhints
          have h₄ := ih _ _ _ _ hhops
          omega

theorem shrinks_members : Shrinks members := by
  intro s x r h
  unfold members at h
  cases he : eat '*' s with
  | some s₁ =>
      rw [he] at h
      simp only [Except.ok.injEq, Prod.mk.injEq] at h
      have := length_eat he
      rw [← h.2]
      omega
  | none => rw [he] at h; exact shrinks_sep_by shrinks_name_token _ _ _ h

theorem shrinks_bracket : Shrinks bracket := by
  intro s x r h
  unfold bracket at h
  cases he : eat '[' s with
  | none => rw [he] at h; simp only [Except.ok.injEq, Prod.mk.injEq] at h; rw [← h.2]
  | some s₁ =>
      rw [he] at h
      obtain ⟨⟨b, s₂⟩, hb, h⟩ := bind_eq_ok.mp h
      dsimp only at h
      cases hc : eat ']' s₂ with
      | none => rw [hc] at h; exact absurd h bad_ne_ok
      | some s₃ =>
          rw [hc] at h
          simp only [Except.ok.injEq, Prod.mk.injEq] at h
          obtain ⟨-, rfl⟩ := h
          have h₁ := length_eat he
          have h₂ := shrinks_members _ _ _ hb
          have h₃ := length_eat hc
          omega

theorem length_close_braces {braces : Nat} {s r : List Char} (h : close_braces braces s = .ok r) :
    r.length ≤ s.length := by
  induction braces generalizing s with
  | zero => injection h with h; rw [h]
  | succ braces ih =>
      rw [close_braces] at h
      cases he : eat '}' s with
      | none => rw [he] at h; exact absurd h bad_ne_ok
      | some s₁ =>
          rw [he] at h
          have h₁ := length_eat he
          have h₂ := ih h
          omega

theorem shrinks_qpath : Shrinks qpath := by
  intro s p r h
  obtain ⟨⟨name, s₁⟩, hname, h⟩ := bind_eq_ok.mp h
  obtain ⟨⟨⟨links, last⟩, s₂⟩, hhops, h⟩ := bind_eq_ok.mp h
  obtain ⟨⟨more, s₃⟩, hmore, h⟩ := bind_eq_ok.mp h
  obtain ⟨⟨b, s₄⟩, hb, h⟩ := bind_eq_ok.mp h
  obtain ⟨s₅, hclose, h⟩ := bind_eq_ok.mp h
  simp only [Except.ok.injEq, Prod.mk.injEq] at h
  obtain ⟨-, rfl⟩ := h
  calc s₅.length ≤ s₄.length := length_close_braces hclose
    _ ≤ s₃.length := shrinks_bracket _ _ _ hb
    _ ≤ s₂.length := shrinks_while shrinks_name_token _ _ _ hmore
    _ ≤ s₁.length := shrinks_hops _ _ _ _ _ hhops
    _ ≤ s.length := shrinks_name_token _ _ _ hname

theorem length_unquoted (s : List Char) : (unquoted s).2.length ≤ s.length := by
  induction s with
  | nil => exact le_rfl
  | cons c s ih =>
      rw [unquoted]
      split_ifs
      · exact le_rfl
      · exact ih.trans (Nat.le_succ _)

theorem length_string_end {s lit r : List Char} (h : json_string_end s = some (lit, r)) : r.length ≤ s.length := by
  fun_induction json_string_end s generalizing lit r with
  | case1 => simp at h
  | case2 s => simp only [Option.some.injEq, Prod.mk.injEq] at h; rw [← h.2]; simp
  | case3 => simp at h
  | case4 c s ih =>
      obtain ⟨⟨lit', r'⟩, hp, he⟩ := Option.map_eq_some_iff.mp h
      simp only [Prod.mk.injEq] at he
      have := ih hp
      rw [← he.2, List.length_cons, List.length_cons]
      omega
  | case5 c s _ _ _ ih =>
      obtain ⟨⟨lit', r'⟩, hp, he⟩ := Option.map_eq_some_iff.mp h
      simp only [Prod.mk.injEq] at he
      have := ih hp
      rw [← he.2, List.length_cons]
      omega

theorem shrinks_scalar (regexp : Bool) : Shrinks (scalar regexp) := by
  intro s v r h
  have htrim := length_trim_start s
  unfold scalar at h
  dsimp only at h
  cases hq : eat '"' (trim_start s) with
  | some rest =>
      have hlen := length_eat hq
      rw [hq] at h
      dsimp only at h
      split_ifs at h
      · cases hs : splitOnce '"' rest with
        | none => rw [hs] at h; exact absurd h bad_ne_ok
        | some p =>
            rw [hs] at h
            simp only [Except.ok.injEq, Prod.mk.injEq] at h
            have heq := congrArg List.length (splitOnce_eq_some.mp hs).1
            rw [List.length_append, List.length_cons] at heq
            rw [← h.2]
            omega
      · cases hs : json_string_end rest with
        | none => rw [hs] at h; exact absurd h bad_ne_ok
        | some p =>
            rw [hs] at h
            dsimp only at h
            cases hu : unescape p.1 with
            | none => rw [hu] at h; exact absurd h bad_ne_ok
            | some text =>
                rw [hu] at h
                simp only [Except.ok.injEq, Prod.mk.injEq] at h
                have := length_string_end hs
                rw [← h.2]
                omega
  | none =>
      rw [hq] at h
      dsimp only at h
      split_ifs at h
      · exact absurd h bad_ne_ok
      · obtain ⟨w, -, hw⟩ := map_eq_ok.mp h
        simp only [Prod.mk.injEq] at hw
        rw [← hw.2]
        exact (length_unquoted _).trans htrim

theorem shrinks_list_item : Shrinks value.list_item := by
  intro s v r h
  obtain ⟨⟨w, s₁⟩, hw, h⟩ := map_eq_ok.mp h
  simp only [Prod.mk.injEq] at h
  rw [← h.2]
  exact (length_trim_start _).trans ((shrinks_scalar _ _ _ _ hw).trans (length_trim_start s))

theorem length_strip {token s r : List Char} (h : strip token s = some r) : r.length ≤ s.length := by
  unfold strip at h
  split_ifs at h
  injection h with h
  rw [← h, List.length_drop]
  omega

theorem shrinks_value (op : CmpOp) : Shrinks (value op) := by
  intro s v r h
  obtain ⟨⟨first, s₁⟩, hfirst, h⟩ := bind_eq_ok.mp h
  have h₁ := (length_trim_start s₁).trans (shrinks_scalar _ _ _ _ hfirst)
  dsimp only at h
  cases hr : strip "..".toList (trim_start s₁) with
  | some rest =>
      rw [hr] at h
      dsimp only at h
      split_ifs at h
      · exact absurd h bad_ne_ok
      · obtain ⟨⟨hi, s₂⟩, hhi, h⟩ := bind_eq_ok.mp h
        dsimp only at h
        split_ifs at h
        · simp only [Except.ok.injEq, Prod.mk.injEq] at h
          rw [← h.2]
          exact (shrinks_scalar _ _ _ _ hhi).trans ((length_trim_start _).trans ((length_strip hr).trans h₁))
        · exact absurd h bad_ne_ok
  | none =>
      rw [hr] at h
      dsimp only at h
      split_ifs at h
      · exact absurd h bad_ne_ok
      · obtain ⟨⟨items, s₂⟩, hitems, h⟩ := bind_eq_ok.mp h
        simp only [Except.ok.injEq, Prod.mk.injEq] at h
        rw [← h.2]
        exact (shrinks_while shrinks_list_item _ _ _ hitems).trans h₁
      · exact absurd h bad_ne_ok
      · simp only [Except.ok.injEq, Prod.mk.injEq] at h
        rw [← h.2]
        exact h₁

theorem length_cmp_op {s r : List Char} {op : CmpOp} (h : cmp_op s = some (op, r)) : r.length ≤ s.length := by
  obtain ⟨-, p, -, -, hp, -⟩ := List.findSome?_eq_some_iff.mp h
  obtain ⟨rest, hrest, he⟩ := Option.map_eq_some_iff.mp hp
  simp only [Prod.mk.injEq] at he
  exact he.2 ▸ length_strip hrest

theorem shrinks_leaf : Shrinks leaf := by
  intro s n r h
  obtain ⟨⟨path, s₁⟩, hpath, h⟩ := bind_eq_ok.mp h
  have hbang : ((eat '!' s).getD s).length ≤ s.length := by
    cases he : eat '!' s with
    | none => exact le_rfl
    | some s' => have := length_eat he; rw [Option.getD_some]; omega
  have h₁ := (shrinks_qpath _ _ _ hpath).trans hbang
  dsimp only at h
  cases hop : cmp_op s₁ with
  | none =>
      rw [hop] at h
      simp only [Except.ok.injEq, Prod.mk.injEq] at h
      exact h.2 ▸ h₁
  | some q =>
      obtain ⟨op, rest⟩ := q
      have h₂ := length_cmp_op hop
      rw [hop] at h
      dsimp only at h
      split_ifs at h
      · exact absurd h bad_ne_ok
      · obtain ⟨⟨v, s₂⟩, hv, h⟩ := bind_eq_ok.mp h
        simp only [Except.ok.injEq, Prod.mk.injEq] at h
        exact h.2 ▸ (shrinks_value _ _ _ _ hv).trans (h₂.trans h₁)

theorem shrinks_term {depth : Nat} (hin : Shrinks (inner depth)) : Shrinks (term (inner depth)) := by
  intro s n r h
  unfold term at h
  cases he : eat '(' s with
  | none => rw [he] at h; exact shrinks_leaf _ _ _ h
  | some s₁ =>
      rw [he] at h
      obtain ⟨⟨m, s₂⟩, hm, h⟩ := bind_eq_ok.mp h
      dsimp only at h
      cases hc : eat ')' s₂ with
      | none => rw [hc] at h; exact absurd h bad_ne_ok
      | some s₃ =>
          rw [hc] at h
          simp only [Except.ok.injEq, Prod.mk.injEq] at h
          have h₁ := length_eat he
          have h₂ := hin _ _ _ hm
          have h₃ := length_eat hc
          rw [← h.2]
          omega

theorem shrinks_grouped {mk : List QNode → QNode} {c : Char} {item : Parser QNode} (hitem : Shrinks item) :
    Shrinks (grouped mk c item) := by
  intro s n r h
  obtain ⟨⟨items, s₁⟩, hitems, h⟩ := map_eq_ok.mp h
  simp only [Prod.mk.injEq] at h
  exact h.2 ▸ shrinks_sep_by hitem _ _ _ hitems

/-- No loop of the expression grammar runs out of fuel. -/
theorem shrinks_or_expr (depth : Nat) : Shrinks (or_expr depth) := by
  induction depth with
  | zero =>
      rw [or_expr_eq]
      exact shrinks_grouped (shrinks_grouped (shrinks_term (fun _ _ _ h => by simp [inner] at h)))
  | succ depth ih =>
      rw [or_expr_eq]
      exact shrinks_grouped (shrinks_grouped (shrinks_term ih))

/-- Every loop of the parser ends where its separator is missing. -/
theorem loops_stop {depth : Nat} {s r : List Char} {xs : List QNode} :
    (while_eat '|' (and_expr (inner depth)) s.length s = .ok (xs, r) → eat '|' r = none) ∧
      (while_eat ';' (term (inner depth)) s.length s = .ok (xs, r) → eat ';' r = none) := by
  have hin : Shrinks (inner depth) := by
    cases depth with
    | zero => exact fun _ _ _ h => by simp [inner] at h
    | succ depth => exact shrinks_or_expr depth
  exact ⟨fun h => (while_eat_stops (shrinks_grouped (shrinks_term hin)) le_rfl h).1,
    fun h => (while_eat_stops (shrinks_term hin) le_rfl h).1⟩

end AntaresBroker.Ql
