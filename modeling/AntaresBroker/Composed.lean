import AntaresBroker.RoundTrip

namespace AntaresBroker.Ql

open Fallible JsonString Number Text

section Depth

/-- What one parser reads the other reads too. -/
def Extends {α : Type} (p q : Parser α) : Prop := ∀ s x, p s = .ok x → q s = .ok x

theorem while_eat_extends {α : Type} {c : Char} {p q : Parser α} (h : Extends p q) (fuel : Nat) :
    Extends (while_eat c p fuel) (while_eat c q fuel) := by
  induction fuel with
  | zero => exact fun _ _ hx => hx
  | succ fuel ih =>
      intro s x hx
      rw [while_eat] at hx ⊢
      cases he : eat c s with
      | none =>
          rw [he] at hx
          exact hx
      | some r =>
          rw [he] at hx
          obtain ⟨⟨y, s₁⟩, hy, hx⟩ := bind_eq_ok.mp hx
          obtain ⟨⟨ys, s₂⟩, hys, hx⟩ := bind_eq_ok.mp hx
          exact bind_eq_ok.mpr ⟨(y, s₁), h _ _ hy, bind_eq_ok.mpr ⟨(ys, s₂), ih _ _ hys, hx⟩⟩

theorem grouped_extends {mk : List QNode → QNode} {c : Char} {p q : Parser QNode} (h : Extends p q) :
    Extends (grouped mk c p) (grouped mk c q) := by
  intro s x hx
  obtain ⟨y, hy, hx⟩ := map_eq_ok.mp hx
  obtain ⟨⟨z, s₁⟩, hz, hy⟩ := bind_eq_ok.mp hy
  obtain ⟨⟨zs, s₂⟩, hzs, hy⟩ := bind_eq_ok.mp hy
  exact map_eq_ok.mpr ⟨y, bind_eq_ok.mpr ⟨(z, s₁), h _ _ hz, bind_eq_ok.mpr ⟨(zs, s₂), while_eat_extends h _ _ _ hzs, hy⟩⟩, hx⟩

theorem term_extends {p q : Parser QNode} (h : Extends p q) : Extends (term p) (term q) := by
  intro s x hx
  rw [term] at hx ⊢
  cases he : eat '(' s with
  | none =>
      rw [he] at hx
      exact hx
  | some r =>
      rw [he] at hx
      obtain ⟨y, hy, hx⟩ := bind_eq_ok.mp hx
      exact bind_eq_ok.mpr ⟨y, h _ _ hy, hx⟩

/-- More parentheses allowed change nothing of what is read. -/
theorem or_expr_extends (depth : Nat) : Extends (or_expr depth) (or_expr (depth + 1)) := by
  induction depth with
  | zero =>
      rw [or_expr_eq, or_expr_eq]
      exact grouped_extends (grouped_extends (term_extends nofun))
  | succ depth ih =>
      rw [or_expr_eq, or_expr_eq (depth + 1 + 1)]
      exact grouped_extends (grouped_extends (term_extends ih))

theorem or_expr_mono {d e : Nat} (h : d ≤ e) : Extends (or_expr d) (or_expr e) := by
  induction h with
  | refl => exact fun _ _ hx => hx
  | step _ ih => exact fun s x hx => or_expr_extends _ s x (ih s x hx)

end Depth

section Leaves

/-- What the parser leaves of every comparison and check it can read leaves every tree. -/
theorem or_expr_all {P : QNode → Prop} (hand : ∀ items, P (.And items)) (hor : ∀ items, P (.Or items))
    (hleaf : ∀ s n r, leaf s = .ok (n, r) → All P n) {depth : Nat} {s r : List Char} {n : QNode}
    (h : or_expr depth s = .ok (n, r)) : All P n := by
  have hgroup {inner : Parser QNode} (hin : ∀ s n r, inner s = .ok (n, r) → All P n) {s r : List Char} {n : QNode}
      (h : grouped .Or '|' (and_expr inner) s = .ok (n, r)) : All P n := by
    have hterm (s : List Char) (n : QNode) (r : List Char) (h : term inner s = .ok (n, r)) : All P n := by
      rw [term] at h
      cases he : eat '(' s with
      | none =>
          rw [he] at h
          exact hleaf _ _ _ h
      | some s₁ =>
          rw [he] at h
          obtain ⟨⟨m, s₂⟩, hm, h⟩ := bind_eq_ok.mp h
          dsimp only at h
          cases hclose : eat ')' s₂ with
          | none => rw [hclose] at h; exact absurd h bad_ne_ok
          | some s₃ =>
              rw [hclose] at h
              simp only [Except.ok.injEq, Prod.mk.injEq] at h
              exact h.1 ▸ hin _ _ _ hm
    have hand' (s : List Char) (n : QNode) (r : List Char) (h : and_expr inner s = .ok (n, r)) : All P n := by
      rcases grouped_cases hterm h with hn | ⟨items, rfl, -, hall⟩
      · exact hn
      · exact all_and.mpr ⟨hand _, hall⟩
    rcases grouped_cases hand' h with hn | ⟨items, rfl, -, hall⟩
    · exact hn
    · exact all_or.mpr ⟨hor _, hall⟩
  induction depth generalizing s n r with
  | zero =>
      rw [or_expr_eq] at h
      exact hgroup (fun _ _ _ hn => by cases hn) h
  | succ depth ih =>
      rw [or_expr_eq] at h
      exact hgroup (fun _ _ _ hn => ih hn) h

/-- A pattern with a quote in it was written without quotes around it. -/
def Operand : QNode → Prop
  | .Cmp _ op (.scalar (.Str s)) =>
      op.regexp = true → '"' ∈ s.toList → ∀ c ∈ s.toList, stops c = false
  | _ => True

theorem unquoted_plain {s : List Char} : ∀ c ∈ (unquoted s).1, stops c = false := by
  induction s with
  | nil => simp [unquoted]
  | cons d s ih =>
      rw [unquoted]
      split_ifs with hd
      · simp
      · rw [Bool.or_eq_true, not_or] at hd
        exact List.forall_mem_cons.mpr ⟨Bool.not_eq_true _ ▸ hd.1, ih⟩

theorem mem_of_trim {s : List Char} {c : Char} (h : c ∈ trim s) : c ∈ s :=
  List.dropWhile_subset _ (List.rdropWhile_prefix _ _ |>.subset h)

theorem word_text {raw : List Char} {s : String} (h : word raw = .ok (.Str s)) : s.toList = raw := by
  unfold word at h
  split_ifs at h
  · cases h
  · cases h
  · cases hp : NumberText.parse raw with
    | none =>
        rw [hp] at h
        cases h
        exact String.toList_ofList
    | some x =>
        rw [hp] at h
        cases h
  · exact absurd h bad_ne_ok
  · cases h
    exact String.toList_ofList

theorem scalar_operand {s r : List Char} {t : String} (h : scalar true s = .ok (.Str t, r)) (hq : '"' ∈ t.toList) :
    ∀ c ∈ t.toList, stops c = false := by
  unfold scalar at h
  dsimp only at h
  cases he : eat '"' (trim_start s) with
  | some rest =>
      rw [he] at h
      dsimp only at h
      rw [if_pos rfl] at h
      cases hsplit : splitOnce '"' rest with
      | none =>
          rw [hsplit] at h
          exact absurd h bad_ne_ok
      | some p =>
          rw [hsplit] at h
          simp only [Except.ok.injEq, Prod.mk.injEq, Scalar.Str.injEq] at h
          obtain ⟨a, b⟩ := p
          have ha := (splitOnce_eq_some.mp hsplit).2
          rw [← h.1, String.toList_ofList] at hq
          exact absurd hq ha
  | none =>
      rw [he] at h
      simp only [Bool.not_true, Bool.false_and, Bool.false_eq_true, if_false] at h
      obtain ⟨v, hv, h⟩ := map_eq_ok.mp h
      simp only [Prod.mk.injEq] at h
      rw [h.1] at hv
      rw [word_text hv]
      exact fun c hc => unquoted_plain c (mem_of_trim hc)

theorem leaf_operand (s : List Char) (n : QNode) (r : List Char) (h : leaf s = .ok (n, r)) : All Operand n := by
  obtain ⟨⟨path, s₁⟩, -, h⟩ := bind_eq_ok.mp h
  dsimp only at h
  cases hop : cmp_op s₁ with
  | none =>
      rw [hop] at h
      simp only [Except.ok.injEq, Prod.mk.injEq] at h
      rw [← h.1]
      trivial
  | some q =>
      obtain ⟨op, rest⟩ := q
      rw [hop] at h
      dsimp only at h
      split_ifs at h with hneg
      · exact absurd h bad_ne_ok
      · obtain ⟨⟨v, s₂⟩, hv, h⟩ := bind_eq_ok.mp h
        simp only [Except.ok.injEq, Prod.mk.injEq] at h
        rw [← h.1]
        obtain ⟨⟨first, s₃⟩, hfirst, hv⟩ := bind_eq_ok.mp hv
        dsimp only at hv
        cases hr : strip "..".toList (trim_start s₃) with
        | some rest' =>
            rw [hr] at hv
            dsimp only at hv
            split_ifs at hv
            · exact absurd hv bad_ne_ok
            · obtain ⟨⟨hi, s₄⟩, -, hv⟩ := bind_eq_ok.mp hv
              dsimp only at hv
              split_ifs at hv
              · simp only [Except.ok.injEq, Prod.mk.injEq] at hv
                rw [← hv.1]
                trivial
              · exact absurd hv bad_ne_ok
        | none =>
            rw [hr] at hv
            dsimp only at hv
            split_ifs at hv
            · exact absurd hv bad_ne_ok
            · obtain ⟨⟨items, s₄⟩, -, hv⟩ := bind_eq_ok.mp hv
              simp only [Except.ok.injEq, Prod.mk.injEq] at hv
              rw [← hv.1]
              trivial
            · exact absurd hv bad_ne_ok
            · simp only [Except.ok.injEq, Prod.mk.injEq] at hv
              rw [← hv.1]
              cases first with
              | Num x => trivial
              | Bool b => trivial
              | Str t =>
                  intro hregexp hquote
                  rw [hregexp] at hfirst
                  exact scalar_operand hfirst hquote

end Leaves

section Spoiling

/-- Something is left that neither ends a term nor separates two. -/
def Stuck (r : List Char) : Prop := ∃ c t, r = c :: t ∧ c ∉ after_term.toList

def Spoils {α : Type} (p : Parser α) (s : List Char) : Prop := ∀ x r, p s = .ok (x, r) → Stuck r

theorem Stuck.eat {r : List Char} (h : Stuck r) {c : Char} (hc : c ∈ after_term.toList) : eat c r = none := by
  obtain ⟨d, t, rfl, hd⟩ := h
  exact if_neg (by rintro rfl; exact hd hc)

theorem spoils_of_reads {α : Type} {p : Parser α} {s : List Char} (h : (p s).toOption = none) : Spoils p s := by
  intro x r hp
  rw [hp] at h
  cases h

theorem while_eat_stuck {α : Type} {c : Char} {item : Parser α} {r : List Char} (h : Ql.eat c r = none) (fuel : Nat) :
    while_eat c item fuel r = .ok ([], r) := by
  cases fuel with
  | zero => rfl
  | succ fuel => rw [while_eat, h]

variable {β : Type}

/-- A text that is read to its end, or refused, or spoils what follows. -/
def ReadOrSpoilt {α : Type} (item : Parser α) (c : Char) (tail : List Char) (text : List Char) : Prop :=
  ∀ t, (t = tail ∨ ∃ s, t = c :: s) →
    (∃ o : Option α, (item (text ++ t)).toOption = o.map (·, t)) ∨ Spoils item (text ++ t)

/-- After a spoilt text the loop stops where the text left it. -/
theorem next_spoils {α : Type} {c : Char} (hc : c ∈ after_term.toList) {item : Parser α} (text : β → List Char)
    {tail : List Char} {b : β} {items : List β} (hitem : ReadOrSpoilt item c tail (text b))
    (hbad : (∀ t, (t = tail ∨ ∃ s, t = c :: s) → Spoils item (text b ++ t)) ∨
      ∃ b' ∈ items, ∀ t, (t = tail ∨ ∃ s, t = c :: s) → Spoils item (text b' ++ t)) {fuel : Nat}
    {y : α} {ys : List α} {s₁ s₂ : List Char}
    (hrest : s₁ = (items.map text).flatMap (c :: ·) ++ tail →
      (∃ b' ∈ items, ∀ t, (t = tail ∨ ∃ s, t = c :: s) → Spoils item (text b' ++ t)) →
      Spoils (while_eat c item fuel) s₁)
    (hy : item (text b ++ ((items.map text).flatMap (c :: ·) ++ tail)) = .ok (y, s₁))
    (hys : while_eat c item fuel s₁ = .ok (ys, s₂)) : Stuck s₂ := by
  have hnext : ((items.map text).flatMap (c :: ·) ++ tail = tail ∨
      ∃ s, (items.map text).flatMap (c :: ·) ++ tail = c :: s) := by
    cases items with
    | nil => exact Or.inl rfl
    | cons b' items => exact Or.inr ⟨_, rfl⟩
  have hstuck (hs : Stuck s₁) : Stuck s₂ := by
    rw [while_eat_stuck (hs.eat hc)] at hys
    simp only [Except.ok.injEq, Prod.mk.injEq] at hys
    exact hys.2 ▸ hs
  rcases hitem _ hnext with ⟨o, ho⟩ | hspoil
  · rw [hy] at ho
    obtain ⟨a, -, ha⟩ := Option.map_eq_some_iff.mp ho.symm
    simp only [Prod.mk.injEq] at ha
    rcases hbad with hhere | hlater
    · exact hstuck (hhere _ hnext _ _ hy)
    · exact hrest ha.2.symm hlater _ _ hys
  · exact hstuck (hspoil _ _ hy)

theorem while_eat_spoils {α : Type} {c : Char} (hc : c ∈ after_term.toList) {item : Parser α} (text : β → List Char)
    {tail : List Char} {items : List β} (hitem : ∀ b ∈ items, ReadOrSpoilt item c tail (text b))
    (hbad : ∃ b ∈ items, ∀ t, (t = tail ∨ ∃ s, t = c :: s) → Spoils item (text b ++ t)) {fuel : Nat}
    (hfuel : items.length ≤ fuel) : Spoils (while_eat c item fuel) ((items.map text).flatMap (c :: ·) ++ tail) := by
  induction items generalizing fuel with
  | nil =>
      obtain ⟨b, hb, -⟩ := hbad
      exact absurd hb List.not_mem_nil
  | cons b items ih =>
      cases fuel with
      | zero => simp at hfuel
      | succ fuel =>
          intro x r h
          rw [List.map_cons, List.flatMap_cons, List.append_assoc, List.cons_append, while_eat, eat_cons] at h
          obtain ⟨⟨y, s₁⟩, hy, h⟩ := bind_eq_ok.mp h
          obtain ⟨⟨ys, s₂⟩, hys, h⟩ := bind_eq_ok.mp h
          simp only [Except.ok.injEq, Prod.mk.injEq] at h
          rw [← h.2]
          refine next_spoils hc text (hitem b List.mem_cons_self) ((List.exists_mem_cons_iff _ b items).mp hbad) ?_ hy hys
          rintro rfl hlater
          exact ih (fun b' hb' => hitem b' (List.mem_cons_of_mem _ hb')) hlater (Nat.le_of_succ_le_succ hfuel)

theorem sep_by_spoils {α : Type} {c : Char} (hc : c ∈ after_term.toList) {item : Parser α} (text : β → List Char)
    {tail : List Char} {items : List β} (hitem : ∀ b ∈ items, ReadOrSpoilt item c tail (text b))
    (hbad : ∃ b ∈ items, ∀ t, (t = tail ∨ ∃ s, t = c :: s) → Spoils item (text b ++ t)) :
    Spoils (sep_by c item) (sep_text c (items.map text) ++ tail) := by
  cases items with
  | nil =>
      obtain ⟨b, hb, -⟩ := hbad
      exact absurd hb List.not_mem_nil
  | cons b items =>
      intro x r h
      rw [List.map_cons, sep_text, List.append_assoc] at h
      obtain ⟨⟨y, s₁⟩, hy, h⟩ := bind_eq_ok.mp h
      obtain ⟨⟨ys, s₂⟩, hys, h⟩ := bind_eq_ok.mp h
      simp only [Except.ok.injEq, Prod.mk.injEq] at h
      rw [← h.2]
      refine next_spoils hc text (hitem b List.mem_cons_self) ((List.exists_mem_cons_iff _ b items).mp hbad) ?_ hy hys
      rintro rfl hlater
      refine while_eat_spoils hc text (fun b' hb' => hitem b' (List.mem_cons_of_mem _ hb')) hlater ?_
      have := length_le_texts c (items.map text) tail
      rwa [List.length_map] at this

theorem spoils_term_of_leaf {n : QNode} {depth : Nat} {tail : List Char} (ho : is_or n = false)
    (hhead : ∃ c s, render n ++ tail = c :: s ∧ c ≠ '(') (h : Spoils leaf (render n ++ tail)) :
    Spoils (term (inner depth)) (item_text n ++ tail) := by
  obtain ⟨c, s, hs, hc⟩ := hhead
  rw [item_text_of_not_or ho, Spoils, term, hs, eat, if_neg hc, ← hs]
  exact h

theorem spoils_single {mk : List QNode → QNode} {c : Char} (hc : c ∈ after_term.toList) {item : Parser QNode}
    {s : List Char} (h : Spoils item s) : Spoils (grouped mk c item) s := by
  intro x r hx
  obtain ⟨⟨items, r'⟩, hitems, hx⟩ := map_eq_ok.mp hx
  obtain ⟨⟨y, s₁⟩, hy, hitems⟩ := bind_eq_ok.mp hitems
  obtain ⟨⟨ys, s₂⟩, hys, hitems⟩ := bind_eq_ok.mp hitems
  have hs := h _ _ hy
  rw [while_eat_stuck (hs.eat hc)] at hys
  simp only [Except.ok.injEq, Prod.mk.injEq] at hys hitems hx
  rw [← hx.2, ← hitems.2, ← hys.2]
  exact hs

theorem spoils_grouped {mk : List QNode → QNode} {c : Char} (hc : c ∈ after_term.toList) {item : Parser QNode}
    {tail : List Char} {items : List QNode} (hitem : ∀ n ∈ items, ReadOrSpoilt item c tail (item_text n))
    (hbad : ∃ n ∈ items, ∀ t, (t = tail ∨ ∃ s, t = c :: s) → Spoils item (item_text n ++ t)) :
    Spoils (grouped mk c item) (sep_text c (items.map item_text) ++ tail) := by
  intro x r hx
  obtain ⟨⟨ms, r'⟩, hitems, hx⟩ := map_eq_ok.mp hx
  simp only [Prod.mk.injEq] at hx
  exact hx.2 ▸ sep_by_spoils hc item_text hitem hbad _ _ hitems

/-- What a quote in a pattern does to each production. -/
structure Spoilt (n : QNode) : Prop where
  or_expr : ∀ depth, Formed depth n → ∀ tail, Stop ")" tail → Spoils (or_expr depth) (render n ++ tail)
  and_expr : ∀ depth, Item depth n → ∀ tail, Stop "|)" tail → Spoils (and_expr (inner depth)) (item_text n ++ tail)
  term : ∀ depth, is_and n = false → Item depth n → ∀ tail, Stop after_term tail →
    Spoils (term (inner depth)) (item_text n ++ tail)

theorem trim_start_quoted (b tail : List Char) :
    ∃ c t, trim_start (b ++ '"' :: tail) = c :: t ∧ (c ∈ b ∨ c = '"') := by
  induction b with
  | nil => exact ⟨'"', tail, trim_start_quote tail, Or.inr rfl⟩
  | cons d b ih =>
      by_cases hd : is_whitespace d = true
      · obtain ⟨c, t, htrim, hc⟩ := ih
        refine ⟨c, t, ?_, hc.imp_left (List.mem_cons_of_mem _)⟩
        rw [← htrim, trim_start, trim_start, List.cons_append, List.dropWhile_cons_of_pos hd]
      · exact ⟨d, b ++ '"' :: tail, List.dropWhile_cons_of_neg hd, Or.inl List.mem_cons_self⟩

/-- A pattern with a quote in it is read up to that quote, and what follows stays behind. -/
theorem value_spoils {op : CmpOp} {s : String} (hr : op.regexp = true) (hq : '"' ∈ s.toList)
    (hs : ∀ c ∈ s.toList, stops c = false) (tail : List Char) :
    Spoils (value op) (render_operand op (.scalar (.Str s)) ++ tail) := by
  obtain ⟨a, b, hab, ha⟩ := List.eq_append_cons_of_mem hq
  have heq : op.equality = false := by cases op <;> first | rfl | exact absurd hr (by decide)
  have hscalar : scalar true ('"' :: (s.toList ++ ['"']) ++ tail) = .ok (.Str (String.ofList a), b ++ '"' :: tail) := by
    unfold scalar
    rw [List.cons_append, List.append_assoc, List.singleton_append, hab, List.append_assoc, List.cons_append]
    simp only [trim_start_quote, eat_cons, if_true, splitOnce_eq_some.mpr ⟨rfl, ha⟩]
  obtain ⟨c, t, htrim, hc⟩ := trim_start_quoted b tail
  have hstop : c ∉ ";|(),".toList := by
    rcases hc with hc | rfl
    · have := hs c (hab ▸ List.mem_append_right _ (List.mem_cons_of_mem _ hc))
      simpa [stops] using this
    · decide
  intro x r h
  rw [render_operand, if_pos hr, value, hr, hscalar] at h
  simp only [bind, Except.bind, htrim, heq, Bool.not_false, if_true] at h
  cases hdots : strip "..".toList (c :: t) with
  | some rest =>
      rw [hdots] at h
      exact absurd h bad_ne_ok
  | none =>
      rw [hdots] at h
      dsimp only at h
      split_ifs at h
      · exact absurd h bad_ne_ok
      · exact absurd h bad_ne_ok
      · simp only [Except.ok.injEq, Prod.mk.injEq] at h
        have hsub : ∀ d ∈ after_term.toList, d ∈ ";|(),".toList := by decide
        exact ⟨c, t, h.2.symm, fun hmem => hstop (hsub c hmem)⟩

theorem leaf_spoils {path : QPath} {op : CmpOp} {s : String} (hp : PathFormed path) (hr : op.regexp = true)
    (hq : '"' ∈ s.toList) (hs : ∀ c ∈ s.toList, stops c = false) (tail : List Char) :
    Spoils leaf (render (.Cmp path op (.scalar (.Str s))) ++ tail) := by
  have htext : render_operand op (.scalar (.Str s)) ++ tail = '"' :: (s.toList ++ ['"'] ++ tail) := by
    rw [render_operand, if_pos hr, List.cons_append]
  have htail := render_op_stop op (render_operand op (.scalar (.Str s)) ++ tail)
  have hcmp : cmp_op (render_op op ++ (render_operand op (.scalar (.Str s)) ++ tail)) =
      some (op, render_operand op (.scalar (.Str s)) ++ tail) := by
    rw [htext]
    exact cmp_op_reads op (by decide)
  obtain ⟨d, u, hd, hdelim, -⟩ := render_path_head hp (render_op op ++ (render_operand op (.scalar (.Str s)) ++ tail))
  have hbang : eat '!' (render_path path ++ (render_op op ++ (render_operand op (.scalar (.Str s)) ++ tail))) = none := by
    rw [hd, eat, if_neg]
    rintro rfl
    exact absurd hdelim (by decide)
  rw [render, List.append_assoc, List.append_assoc]
  by_cases hk : PathKept path
  · intro x r h
    rw [leaf, hbang] at h
    simp only [Option.isSome_none, Option.getD_none, qpath_reads hp hk htail, bind, Except.bind, hcmp,
      Bool.false_eq_true, if_false] at h
    obtain ⟨⟨v, s₂⟩, hv, h⟩ := bind_eq_ok.mp h
    simp only [Except.ok.injEq, Prod.mk.injEq] at h
    exact h.2 ▸ value_spoils hr hq hs tail _ _ hv
  · apply spoils_of_reads
    rw [leaf, hbang, Option.isSome_none, Option.getD_none, toOption_bind, qpath_refused hp hk htail]
    rfl

/-- A tree of the parser with a quote in one of its patterns is not read back to the end of its rendering. -/
theorem spoilt (n : QNode) (hflat : All Flat n) (hop : All Operand n) (hq : ¬ All Unquoted n) : Spoilt n := by
  induction n using QNode.induction with
  | and items ih =>
      obtain ⟨hno, hflat⟩ := all_and.mp hflat
      obtain ⟨-, hop⟩ := all_and.mp hop
      obtain ⟨bad, hbad, hqbad⟩ : ∃ n ∈ items, ¬ All Unquoted n := by
        by_contra hall
        exact hq (all_and.mpr ⟨trivial, fun n hn => by_contra fun hn' => hall ⟨n, hn, hn'⟩⟩)
      have hand (depth : Nat) (hf : Formed depth (.And items)) (tail : List Char) (ht : Stop "|)" tail) :
          Spoils (and_expr (inner depth)) (item_text (.And items) ++ tail) := by
        have hstop {t : List Char} (h : t = tail ∨ ∃ s, t = ';' :: s) : Stop after_term t := by
          rcases h with rfl | ⟨s, rfl⟩
          · exact ht.mono (by decide)
          · exact stop_cons (by decide)
        cases hf with
        | and htwo hleft hformed =>
            rw [item_text_of_not_or rfl, render, render_items_eq, and_expr]
            refine spoils_grouped (by decide) (fun n hn t h => ?_) ⟨bad, hbad, fun t h => ?_⟩
            · by_cases hqn : All Unquoted n
              · exact Or.inl ⟨_, (readable n (hflat n hn) hqn).term depth (hno n hn) ⟨hleft n hn, hformed n hn⟩ t (hstop h)⟩
              · exact Or.inr ((ih n hn (hflat n hn) (hop n hn) hqn).term depth (hno n hn)
                  ⟨hleft n hn, hformed n hn⟩ t (hstop h))
            · exact (ih bad hbad (hflat bad hbad) (hop bad hbad) hqbad).term depth (hno bad hbad)
                ⟨hleft bad hbad, hformed bad hbad⟩ t (hstop h)
      refine ⟨fun depth hf tail ht => ?_, fun depth hi tail ht => hand depth hi.2 tail ht,
        fun depth hterm => absurd (show true = false from hterm) (by decide)⟩
      rw [or_expr_eq, ← item_text_of_not_or rfl]
      exact spoils_single (by decide) (hand depth hf tail (ht.mono (by decide)))
  | or items ih =>
      obtain ⟨-, hflat⟩ := all_or.mp hflat
      obtain ⟨-, hop⟩ := all_or.mp hop
      obtain ⟨bad, hbad, hqbad⟩ : ∃ n ∈ items, ¬ All Unquoted n := by
        by_contra hall
        exact hq (all_or.mpr ⟨trivial, fun n hn => by_contra fun hn' => hall ⟨n, hn, hn'⟩⟩)
      have hor (depth : Nat) (hf : Formed depth (.Or items)) (tail : List Char) (ht : Stop ")" tail) :
          Spoils (or_expr depth) (render (.Or items) ++ tail) := by
        have hstop {t : List Char} (h : t = tail ∨ ∃ s, t = '|' :: s) : Stop "|)" t := by
          rcases h with rfl | ⟨s, rfl⟩
          · exact ht.mono (by decide)
          · exact stop_cons (by decide)
        cases hf with
        | or htwo hleft hformed =>
            rw [render, render_items_eq, or_expr_eq]
            refine spoils_grouped (by decide) (fun n hn t h => ?_) ⟨bad, hbad, fun t h => ?_⟩
            · by_cases hqn : All Unquoted n
              · exact Or.inl ⟨_, (readable n (hflat n hn) hqn).and_expr depth ⟨hleft n hn, hformed n hn⟩ t (hstop h)⟩
              · exact Or.inr ((ih n hn (hflat n hn) (hop n hn) hqn).and_expr depth ⟨hleft n hn, hformed n hn⟩ t (hstop h))
            · exact (ih bad hbad (hflat bad hbad) (hop bad hbad) hqbad).and_expr depth
                ⟨hleft bad hbad, hformed bad hbad⟩ t (hstop h)
      have hterm (depth : Nat) (hi : Item depth (.Or items)) (tail : List Char) :
          Spoils (term (inner depth)) (item_text (.Or items) ++ tail) := by
        obtain ⟨d, rfl⟩ := Nat.exists_eq_add_of_lt (hi.1 rfl)
        intro x r h
        rw [item_text, is_or, parenthesize, if_pos rfl, List.cons_append, List.append_assoc, List.singleton_append,
          term, eat_cons, Nat.zero_add, inner] at h
        obtain ⟨⟨m, s₁⟩, hm, h⟩ := bind_eq_ok.mp h
        have hformed : Formed d (.Or items) := by
          have := hi.2
          rwa [item_depth, is_or, if_pos rfl, Nat.zero_add, Nat.add_sub_cancel] at this
        have hs := hor d hformed (')' :: tail) (stop_cons (by decide)) _ _ hm
        dsimp only at h
        rw [hs.eat (by decide)] at h
        exact absurd h bad_ne_ok
      exact ⟨hor, fun depth hi tail _ => spoils_single (by decide) (hterm depth hi tail), fun depth _ hi tail _ => hterm depth hi tail⟩
  | cmp path op v =>
      have hterm (depth : Nat) (hf : Formed depth (.Cmp path op v)) (tail : List Char) :
          Spoils (term (inner depth)) (item_text (.Cmp path op v) ++ tail) := by
        cases hf with
        | cmp hp hv =>
            obtain ⟨c, s, hs, hd, -⟩ := render_path_head hp (render_op op ++ render_operand op v ++ tail)
            refine spoils_term_of_leaf rfl ⟨c, s, by simpa [render] using hs, by rintro rfl; exact absurd hd (by decide)⟩ ?_
            cases v with
            | List items => exact absurd trivial hq
            | Range lo hi => exact absurd trivial hq
            | scalar v =>
                cases v with
                | Num x => exact absurd trivial hq
                | Bool b => exact absurd trivial hq
                | Str t =>
                    have hbad : op.regexp = true ∧ '"' ∈ t.toList := by
                      by_contra hno
                      exact hq (fun hr hmem => hno ⟨hr, hmem⟩)
                    exact leaf_spoils hp hbad.1 hbad.2 (hop hbad.1 hbad.2) tail
      refine ⟨fun depth hf tail _ => ?_, fun depth hi tail _ => ?_, fun depth _ hi tail _ => hterm depth hi.formed tail⟩
      · rw [or_expr_eq, ← item_text_of_not_or rfl]
        exact spoils_single (by decide) (spoils_single (by decide) (hterm depth hf tail))
      · exact spoils_single (by decide) (hterm depth hi.formed tail)
  | exist path negated => exact absurd trivial hq

end Spoiling

theorem all_of_terms {P : QNode → Prop} (hand : ∀ items, P (.And items)) {n : QNode} (h : ∀ m ∈ terms n, All P m) :
    All P n := by
  cases n with
  | And items => exact all_and.mpr ⟨hand items, h⟩
  | Or items => exact h _ (List.mem_singleton.mpr rfl)
  | Cmp path op v => exact h _ (List.mem_singleton.mpr rfl)
  | Exists path negated => exact h _ (List.mem_singleton.mpr rfl)

theorem all_of_flatten {P : QNode → Prop} (hand : ∀ items, P (.And items)) (hor : ∀ items, P (.Or items)) {n : QNode}
    (h : All P (flatten n)) : All P n := by
  induction n using QNode.induction with
  | and items ih =>
      rw [flatten, flatten_terms_eq, all_and] at h
      refine all_and.mpr ⟨hand items, fun n hn => ih n hn (all_of_terms hand fun m hm => ?_)⟩
      exact h.2 m (List.mem_flatMap.mpr ⟨n, hn, hm⟩)
  | or items ih =>
      rw [flatten, flatten_items_eq, all_or] at h
      exact all_or.mpr ⟨hor items, fun n hn => ih n hn (h.2 _ (List.mem_map.mpr ⟨n, hn, rfl⟩))⟩
  | cmp path op v => exact h
  | exist path negated => exact h

theorem all_of_trim_last {P : QNode → Prop} (hand : ∀ items, P (.And items)) (hor : ∀ items, P (.Or items))
    (hexists : ∀ path negated, P (.Exists path negated)) {n : QNode} (h : All P (trim_last n)) : All P n := by
  have hitems {init : List QNode} {n : QNode} (hn : All P (trim_last n) → All P n)
      (hall : ∀ m ∈ init ++ [trim_item n], All P m) : ∀ m ∈ init ++ [n], All P m := by
    intro m hm
    rcases List.mem_append.mp hm with hm | hm
    · exact hall m (List.mem_append_left _ hm)
    · rw [List.mem_singleton.mp hm]
      have hlast := hall (trim_item n) (List.mem_append_right _ (List.mem_singleton.mpr rfl))
      rw [trim_item] at hlast
      split_ifs at hlast
      · exact hlast
      · exact hn hlast
  induction n using QNode.induction with
  | and items ih =>
      rcases List.eq_nil_or_concat items with rfl | ⟨init, n, rfl⟩
      · exact h
      · rw [List.concat_eq_append] at h ih ⊢
        rw [trim_last, trim_last_item_eq, all_and] at h
        exact all_and.mpr ⟨hand _, hitems (ih n (by simp)) h.2⟩
  | or items ih =>
      rcases List.eq_nil_or_concat items with rfl | ⟨init, n, rfl⟩
      · exact h
      · rw [List.concat_eq_append] at h ih ⊢
        rw [trim_last, trim_last_item_eq, all_or] at h
        exact all_or.mpr ⟨hor _, hitems (ih n (by simp)) h.2⟩
  | cmp path op v => exact h
  | exist path negated => exact hexists _ _

/-- What is accepted of the rendering of a tree of any depth: no pattern has a quote in it, and the tree is the
reread one. -/
theorem parse_q_rendered {depth : Nat} {n m : QNode} (h : Formed depth n) (hop : All Operand n)
    (hm : parse_q (to_string n) = .ok m) : All Unquoted n ∧ reread (flatten (trim_last n)) = some m := by
  unfold parse_q at hm
  split_ifs at hm
  obtain ⟨⟨m', rest⟩, hread, hm⟩ := bind_eq_ok.mp hm
  dsimp only at hm
  split_ifs at hm with hrest
  · exact absurd hm bad_ne_ok
  · obtain rfl := not_not.mp hrest
    rw [Except.ok.injEq] at hm
    subst hm
    rw [to_string, String.toList_ofList] at hread
    have hdeep := or_expr_mono (Nat.le_max_left MAX_Q_DEPTH depth) _ _ hread
    have hf := h.mono (Nat.le_max_right MAX_Q_DEPTH depth)
    have hq : All Unquoted n := by
      by_contra hno
      have hop' : All Operand (flatten (trim_last n)) := all_flatten (fun _ => trivial) (fun _ => trivial)
        (all_trim_last (fun _ => trivial) (fun _ => trivial) (fun _ _ => trivial) hop)
      have hno' : ¬ All Unquoted (flatten (trim_last n)) := fun hall =>
        hno (all_of_trim_last (fun _ => trivial) (fun _ => trivial) (fun _ _ => trivial)
          (all_of_flatten (fun _ => trivial) (fun _ => trivial) hall))
      have hspoil := (spoilt _ (flat_flatten _) hop' hno').or_expr _ (flatten_spec (formed_trim_last hf)).1 [] (stop_nil _)
      rw [List.append_nil, ← trim_render hf] at hspoil
      obtain ⟨c, t, hstuck, -⟩ := hspoil _ _ hdeep
      cases hstuck
    refine ⟨hq, ?_⟩
    have := or_expr_render hf hq
    rw [hdeep] at this
    obtain ⟨a, ha, hp⟩ := Option.map_eq_some_iff.mp this.symm
    simp only [Prod.mk.injEq, and_true] at hp
    rw [ha, hp]

end AntaresBroker.Ql
