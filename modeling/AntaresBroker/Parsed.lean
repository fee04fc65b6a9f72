import AntaresBroker.Fallible
import AntaresBroker.Render

namespace AntaresBroker.Ql

open Fallible JsonString Number Text

/-- A name the parser reads: not empty, no delimiter in it, no blank before it. -/
structure Name (s : String) : Prop where
  ne_nil : s.toList ≠ []
  plain : ∀ c ∈ s.toList, delimiter c = false
  head : ∀ c ∈ s.toList.head?, is_whitespace c = false

structure PathFormed (p : QPath) : Prop where
  links_le : p.links.length ≤ MAX_Q_LINKS
  attrs : ∀ l ∈ p.links, Name l.attr ∧ ∀ t ∈ l.types, Name t
  path_ne : p.path ≠ []
  names : ∀ name ∈ p.path, Name name
  bracket : ∀ b, p.bracket = some b → b ≠ [] ∧ ∀ name ∈ b, Name name

/-- Literals that go with the operator. -/
def ValueFormed (op : CmpOp) : QValue → Prop
  | .scalar v => op.ordering = true → is_bool v = false
  | .List items => op.equality = true ∧ 2 ≤ items.length
  | .Range lo hi => op.equality = true ∧ comparable lo hi = true

def is_and : QNode → Bool
  | .And _ => true
  | _ => false

/-- The parentheses left inside an item of a group: around an `Or` one pair is open. -/
def item_depth (depth : Nat) (n : QNode) : Nat := if is_or n then depth - 1 else depth

/-- Trees the parser builds with so many parentheses still allowed to open. -/
inductive Formed : Nat → QNode → Prop
  | and {depth : Nat} {items : List QNode} (two : 2 ≤ items.length)
      (left : ∀ n ∈ items, is_or n = true → 0 < depth)
      (formed : ∀ n ∈ items, Formed (item_depth depth n) n) : Formed depth (.And items)
  | or {depth : Nat} {items : List QNode} (two : 2 ≤ items.length)
      (left : ∀ n ∈ items, is_or n = true → 0 < depth)
      (formed : ∀ n ∈ items, Formed (item_depth depth n) n) : Formed depth (.Or items)
  | cmp {depth : Nat} {path : QPath} {op : CmpOp} {v : QValue} (hp : PathFormed path)
      (hv : ValueFormed op v) : Formed depth (.Cmp path op v)
  | exist {depth : Nat} {path : QPath} {negated : Bool} (hp : PathFormed path) :
      Formed depth (.Exists path negated)

/-- A tree as an item of a group. -/
def Item (depth : Nat) (n : QNode) : Prop :=
  (is_or n = true → 0 < depth) ∧ Formed (item_depth depth n) n

theorem Formed.mono {d e : Nat} {n : QNode} (h : Formed d n) (hde : d ≤ e) : Formed e n := by
  induction h generalizing e with
  | and two left _ ih =>
      refine .and two (fun n hn ho => (left n hn ho).trans_le hde) (fun n hn => ih n hn ?_)
      unfold item_depth
      split_ifs <;> omega
  | or two left _ ih =>
      refine .or two (fun n hn ho => (left n hn ho).trans_le hde) (fun n hn => ih n hn ?_)
      unfold item_depth
      split_ifs <;> omega
  | cmp hp hv => exact .cmp hp hv
  | exist hp => exact .exist hp

theorem bad_ne_ok {α : Type} {input : List Char} {why : String} {x : α} : bad input why ≠ .ok x := by
  simp [bad]

theorem eat_eq_some {c : Char} {s r : List Char} : eat c s = some r ↔ s = c :: r := by
  cases s with
  | nil => simp [eat]
  | cons d s => simp [eat]

theorem while_eat_all {α : Type} {P : α → Prop} {c : Char} {item : Parser α}
    (hitem : ∀ s x r, item s = .ok (x, r) → P x) {fuel : Nat} {s r : List Char} {xs : List α}
    (h : while_eat c item fuel s = .ok (xs, r)) : ∀ x ∈ xs, P x := by
  induction fuel generalizing s r xs with
  | zero =>
      rw [while_eat] at h
      simp only [Except.ok.injEq, Prod.mk.injEq] at h
      simp [← h.1]
  | succ fuel ih =>
      rw [while_eat] at h
      cases he : eat c s with
      | none =>
          rw [he] at h
          simp only [Except.ok.injEq, Prod.mk.injEq] at h
          simp [← h.1]
      | some s' =>
          rw [he] at h
          obtain ⟨⟨y, s₁⟩, hy, h⟩ := bind_eq_ok.mp h
          obtain ⟨⟨ys, s₂⟩, hys, h⟩ := bind_eq_ok.mp h
          simp only [Except.ok.injEq, Prod.mk.injEq] at h
          rw [← h.1]
          exact List.forall_mem_cons.mpr ⟨hitem _ _ _ hy, ih hys⟩

theorem sep_by_all {α : Type} {P : α → Prop} {c : Char} {item : Parser α}
    (hitem : ∀ s x r, item s = .ok (x, r) → P x) {s r : List Char} {xs : List α}
    (h : sep_by c item s = .ok (xs, r)) : xs ≠ [] ∧ ∀ x ∈ xs, P x := by
  obtain ⟨⟨y, s₁⟩, hy, h⟩ := bind_eq_ok.mp h
  obtain ⟨⟨ys, s₂⟩, hys, h⟩ := bind_eq_ok.mp h
  simp only [Except.ok.injEq, Prod.mk.injEq] at h
  rw [← h.1]
  exact ⟨by simp, List.forall_mem_cons.mpr ⟨hitem _ _ _ hy, while_eat_all hitem hys⟩⟩

theorem trim_start_head {s : List Char} {c : Char} (h : (trim_start s).head? = some c) : is_whitespace c = false := by
  have := List.head?_dropWhile_not is_whitespace s
  unfold trim_start at h
  rw [h] at this
  simpa using this

theorem name_token_name {s r : List Char} {name : String} (h : name_token s = .ok (name, r)) : Name name := by
  unfold name_token at h
  dsimp only at h
  split_ifs at h with hne
  · exact absurd h bad_ne_ok
  · simp only [Except.ok.injEq, Prod.mk.injEq] at h
    obtain ⟨rfl, -⟩ := h
    refine ⟨by simpa using hne, fun c hc => ?_, fun c hc => ?_⟩
    · rw [String.toList_ofList] at hc
      simpa using List.mem_takeWhile_imp hc
    · rw [String.toList_ofList] at hc
      cases ht : trim_start s with
      | nil => rw [ht] at hc; simp at hc
      | cons d t =>
          rw [ht, List.takeWhile_cons] at hc
          split_ifs at hc with hd
          · simp only [List.head?_cons, Option.mem_def, Option.some.injEq] at hc
            exact trim_start_head (s := s) (by rw [ht, List.head?_cons, hc])
          · simp at hc

theorem hints_names {inner name : String} {types : List String} {s r : List Char} (hi : Name inner)
    (h : hints inner s = .ok ((types, name), r)) : Name name ∧ ∀ t ∈ types, Name t := by
  unfold hints at h
  split_ifs at h with hc
  · obtain ⟨⟨more, s₁⟩, hmore, h⟩ := bind_eq_ok.mp h
    dsimp only at h
    cases he : eat ':' s₁ with
    | none => rw [he] at h; exact absurd h bad_ne_ok
    | some s₂ =>
        rw [he] at h
        obtain ⟨⟨name', s₃⟩, hname, h⟩ := bind_eq_ok.mp h
        simp only [Except.ok.injEq, Prod.mk.injEq] at h
        obtain ⟨⟨rfl, rfl⟩, -⟩ := h
        exact ⟨name_token_name hname,
          List.forall_mem_cons.mpr ⟨hi, while_eat_all (fun _ _ _ => name_token_name) hmore⟩⟩
  · simp only [Except.ok.injEq, Prod.mk.injEq] at h
    obtain ⟨⟨rfl, rfl⟩, -⟩ := h
    exact ⟨hi, by simp⟩

theorem hops_names {left : Nat} {name last : String} {links : List Link} {s r : List Char} (hn : Name name)
    (h : hops name left s = .ok ((links, last), r)) :
    Name last ∧ links.length ≤ left ∧ ∀ l ∈ links, Name l.attr ∧ ∀ t ∈ l.types, Name t := by
  induction left generalizing name links s with
  | zero =>
      rw [hops] at h
      cases he : eat '{' s with
      | none =>
          rw [he] at h
          simp only [Except.ok.injEq, Prod.mk.injEq] at h
          obtain ⟨⟨rfl, rfl⟩, -⟩ := h
          exact ⟨hn, by simp⟩
      | some s₁ => rw [he] at h; simp at h
  | succ left ih =>
      rw [hops] at h
      cases he : eat '{' s with
      | none =>
          rw [he] at h
          simp only [Except.ok.injEq, Prod.mk.injEq] at h
          obtain ⟨⟨rfl, rfl⟩, -⟩ := h
          exact ⟨hn, by simp⟩
      | some s₁ =>
          rw [he] at h
          obtain ⟨⟨inner, s₂⟩, hinner, h⟩ := bind_eq_ok.mp h
          obtain ⟨⟨⟨types, inner'⟩, s₃⟩, hhints, h⟩ := bind_eq_ok.mp h
          obtain ⟨⟨⟨links', last'⟩, s₄⟩, hhops, h⟩ := bind_eq_ok.mp h
          simp only [Except.ok.injEq, Prod.mk.injEq] at h
          obtain ⟨⟨rfl, rfl⟩, rfl⟩ := h
          obtain ⟨hname, htypes⟩ := hints_names (name_token_name hinner) hhints
          obtain ⟨hlast, hle, hlinks⟩ := ih hname hhops
          exact ⟨hlast, by simpa using hle, List.forall_mem_cons.mpr ⟨⟨hn, htypes⟩, hlinks⟩⟩

theorem name_star : Name "*" := ⟨by decide, by decide, by simp [is_whitespace]⟩

theorem bracket_names {s r : List Char} {b : Option (List String)} (h : bracket s = .ok (b, r)) :
    ∀ names, b = some names → names ≠ [] ∧ ∀ name ∈ names, Name name := by
  unfold bracket at h
  cases he : eat '[' s with
  | none =>
      rw [he] at h
      simp only [Except.ok.injEq, Prod.mk.injEq] at h
      simp [← h.1]
  | some s₁ =>
      rw [he] at h
      obtain ⟨⟨names, s₂⟩, hnames, h⟩ := bind_eq_ok.mp h
      have hok : names ≠ [] ∧ ∀ name ∈ names, Name name := by
        unfold members at hnames
        cases hstar : eat '*' s₁ with
        | some s' =>
            rw [hstar] at hnames
            simp only [Except.ok.injEq, Prod.mk.injEq] at hnames
            rw [← hnames.1]
            exact ⟨by simp, by simpa using name_star⟩
        | none =>
            rw [hstar] at hnames
            exact sep_by_all (fun _ _ _ => name_token_name) hnames
      dsimp only at h
      cases hclose : eat ']' s₂ with
      | none => rw [hclose] at h; exact absurd h bad_ne_ok
      | some s₃ =>
          rw [hclose] at h
          simp only [Except.ok.injEq, Prod.mk.injEq] at h
          rintro names' rfl
          simp only [Option.some.injEq] at h
          exact h.1 ▸ hok

theorem qpath_formed {s r : List Char} {p : QPath} (h : qpath s = .ok (p, r)) : PathFormed p := by
  obtain ⟨⟨name, s₁⟩, hname, h⟩ := bind_eq_ok.mp h
  obtain ⟨⟨⟨links, last⟩, s₂⟩, hhops, h⟩ := bind_eq_ok.mp h
  obtain ⟨⟨more, s₃⟩, hmore, h⟩ := bind_eq_ok.mp h
  obtain ⟨⟨b, s₄⟩, hb, h⟩ := bind_eq_ok.mp h
  obtain ⟨s₅, hclose, h⟩ := bind_eq_ok.mp h
  simp only [Except.ok.injEq, Prod.mk.injEq] at h
  obtain ⟨rfl, -⟩ := h
  obtain ⟨hlast, hle, hlinks⟩ := hops_names (name_token_name hname) hhops
  exact ⟨hle, hlinks, by simp,
    List.forall_mem_cons.mpr ⟨hlast, while_eat_all (fun _ _ _ => name_token_name) hmore⟩, bracket_names hb⟩

theorem while_eat_ne_nil {α : Type} {c : Char} {item : Parser α} {s r : List Char} {xs : List α}
    (hs : s.head? = some c) (h : while_eat c item s.length s = .ok (xs, r)) : xs ≠ [] := by
  cases s with
  | nil => simp at hs
  | cons d s =>
      simp only [List.head?_cons, Option.some.injEq] at hs
      subst hs
      rw [List.length_cons, while_eat, eat, if_pos rfl] at h
      obtain ⟨⟨y, s₁⟩, -, h⟩ := bind_eq_ok.mp h
      obtain ⟨⟨ys, s₂⟩, -, h⟩ := bind_eq_ok.mp h
      simp only [Except.ok.injEq, Prod.mk.injEq] at h
      simp [← h.1]

theorem value_formed {op : CmpOp} {s r : List Char} {v : QValue} (h : value op s = .ok (v, r)) :
    ValueFormed op v := by
  obtain ⟨⟨first, s₁⟩, -, h⟩ := bind_eq_ok.mp h
  dsimp only at h
  cases hr : strip "..".toList (trim_start s₁) with
  | some rest =>
      rw [hr] at h
      dsimp only at h
      split_ifs at h with heq
      · exact absurd h bad_ne_ok
      · obtain ⟨⟨hi, s₂⟩, -, h⟩ := bind_eq_ok.mp h
        dsimp only at h
        split_ifs at h with hcmp
        · simp only [Except.ok.injEq, Prod.mk.injEq] at h
          rw [← h.1]
          exact ⟨by simpa using heq, hcmp⟩
        · exact absurd h bad_ne_ok
  | none =>
      rw [hr] at h
      dsimp only at h
      split_ifs at h with hcomma heq hbool
      · exact absurd h bad_ne_ok
      · obtain ⟨⟨items, s₂⟩, hitems, h⟩ := bind_eq_ok.mp h
        simp only [Except.ok.injEq, Prod.mk.injEq] at h
        rw [← h.1]
        have hne := while_eat_ne_nil hcomma hitems
        have hpos := List.length_pos_of_ne_nil hne
        exact ⟨by simpa using heq, by rw [List.length_cons]; omega⟩
      · exact absurd h bad_ne_ok
      · simp only [Except.ok.injEq, Prod.mk.injEq] at h
        rw [← h.1]
        intro ho
        simpa [ho] using hbool

theorem leaf_formed {s r : List Char} {n : QNode} (h : leaf s = .ok (n, r)) (depth : Nat) :
    is_or n = false ∧ is_and n = false ∧ Formed depth n := by
  obtain ⟨⟨path, s₁⟩, hpath, h⟩ := bind_eq_ok.mp h
  dsimp only at h
  cases hop : cmp_op s₁ with
  | none =>
      rw [hop] at h
      simp only [Except.ok.injEq, Prod.mk.injEq] at h
      rw [← h.1]
      exact ⟨rfl, rfl, .exist (qpath_formed hpath)⟩
  | some q =>
      obtain ⟨op, rest⟩ := q
      rw [hop] at h
      dsimp only at h
      split_ifs at h with hneg
      · exact absurd h bad_ne_ok
      · obtain ⟨⟨v, s₂⟩, hv, h⟩ := bind_eq_ok.mp h
        simp only [Except.ok.injEq, Prod.mk.injEq] at h
        rw [← h.1]
        exact ⟨rfl, rfl, .cmp (qpath_formed hpath) (value_formed hv)⟩

/-- The parser behind an open parenthesis, with so many still allowed. -/
def inner : Nat → Parser QNode
  | 0 => fun _ => .error (.TooComplexQuery "q expression nests deeper than 64")
  | depth + 1 => or_expr depth

theorem or_expr_eq (depth : Nat) : or_expr depth = grouped .Or '|' (and_expr (inner depth)) := by
  cases depth <;> rfl

theorem item_of_formed {depth : Nat} {n : QNode} (h : Formed depth n) (ho : is_or n = false) : Item depth n := by
  refine ⟨by simp [ho], ?_⟩
  rw [item_depth, ho]
  exact h

theorem item_of_inner {depth : Nat} {n : QNode} (hpos : 0 < depth) (h : Formed (depth - 1) n) : Item depth n := by
  refine ⟨fun _ => hpos, ?_⟩
  unfold item_depth
  split_ifs
  · exact h
  · exact h.mono (Nat.sub_le _ _)

theorem Item.formed {depth : Nat} {n : QNode} (h : Item depth n) : Formed depth n := by
  refine h.2.mono ?_
  unfold item_depth
  split_ifs <;> omega

theorem term_item {depth : Nat} (hin : ∀ s n r, inner depth s = .ok (n, r) → 0 < depth ∧ Formed (depth - 1) n)
    {s r : List Char} {n : QNode} (h : term (inner depth) s = .ok (n, r)) : Item depth n := by
  unfold term at h
  cases he : eat '(' s with
  | none =>
      rw [he] at h
      obtain ⟨ho, -, hf⟩ := leaf_formed h depth
      exact item_of_formed hf ho
  | some s₁ =>
      rw [he] at h
      obtain ⟨⟨n', s₂⟩, hn, h⟩ := bind_eq_ok.mp h
      dsimp only at h
      cases hclose : eat ')' s₂ with
      | none => rw [hclose] at h; exact absurd h bad_ne_ok
      | some s₃ =>
          rw [hclose] at h
          simp only [Except.ok.injEq, Prod.mk.injEq] at h
          obtain ⟨hpos, hf⟩ := hin _ _ _ hn
          exact h.1 ▸ item_of_inner hpos hf

theorem grouped_cases {mk : List QNode → QNode} {c : Char} {item : Parser QNode} {P : QNode → Prop}
    (hitem : ∀ s n r, item s = .ok (n, r) → P n) {s r : List Char} {n : QNode}
    (h : grouped mk c item s = .ok (n, r)) :
    P n ∨ ∃ items, n = mk items ∧ 2 ≤ items.length ∧ ∀ m ∈ items, P m := by
  obtain ⟨⟨items, s₁⟩, hitems, h⟩ := map_eq_ok.mp h
  obtain ⟨hne, hall⟩ := sep_by_all hitem hitems
  simp only [Prod.mk.injEq] at h
  obtain ⟨rfl, -⟩ := h
  rcases items with _ | ⟨a, _ | ⟨b, items⟩⟩
  · exact absurd rfl hne
  · exact Or.inl (hall a (by simp))
  · exact Or.inr ⟨_, rfl, by simp, hall⟩

theorem or_group_formed {depth : Nat}
    (hin : ∀ s n r, inner depth s = .ok (n, r) → 0 < depth ∧ Formed (depth - 1) n) {s r : List Char} {n : QNode}
    (h : grouped .Or '|' (and_expr (inner depth)) s = .ok (n, r)) : Formed depth n := by
  have hand (s : List Char) (n : QNode) (r : List Char) (h : and_expr (inner depth) s = .ok (n, r)) :
      Item depth n := by
    rcases grouped_cases (fun _ _ _ => term_item hin) h with hi | ⟨items, rfl, htwo, hall⟩
    · exact hi
    · exact item_of_formed (.and htwo (fun m hm => (hall m hm).1) (fun m hm => (hall m hm).2)) rfl
  rcases grouped_cases hand h with hi | ⟨items, rfl, htwo, hall⟩
  · exact hi.formed
  · exact .or htwo (fun m hm => (hall m hm).1) (fun m hm => (hall m hm).2)

/-- Every tree the expression grammar yields is formed. -/
theorem or_expr_formed {depth : Nat} {s r : List Char} {n : QNode} (h : or_expr depth s = .ok (n, r)) :
    Formed depth n := by
  induction depth generalizing s n r with
  | zero =>
      rw [or_expr_eq] at h
      exact or_group_formed (by simp [inner]) h
  | succ depth ih =>
      rw [or_expr_eq] at h
      exact or_group_formed (fun _ _ _ hn => ⟨Nat.succ_pos _, ih hn⟩) h

end AntaresBroker.Ql
