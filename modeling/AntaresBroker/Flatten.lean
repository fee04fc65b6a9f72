import AntaresBroker.Reread

namespace AntaresBroker.Ql

open JsonString Number Text

mutual
/-- Every node of the tree has the property. -/
def All (P : QNode → Prop) : QNode → Prop
  | .And items => P (.And items) ∧ AllItems P items
  | .Or items => P (.Or items) ∧ AllItems P items
  | .Cmp path op v => P (.Cmp path op v)
  | .Exists path negated => P (.Exists path negated)
def AllItems (P : QNode → Prop) : List QNode → Prop
  | [] => True
  | n :: items => All P n ∧ AllItems P items
end

mutual
def reread : QNode → Option QNode
  | .And items => (reread_items items).map .And
  | .Or items => (reread_items items).map .Or
  | .Cmp path op v => reread_leaf (.Cmp path op v)
  | .Exists path negated => reread_leaf (.Exists path negated)
def reread_items : List QNode → Option (List QNode)
  | [] => some []
  | n :: items => (reread n).bind (fun m => (reread_items items).map (m :: ·))
end

/-- No `And` directly inside an `And`. -/
def Flat : QNode → Prop
  | .And items => ∀ n ∈ items, is_and n = false
  | _ => True

theorem allItems_iff {P : QNode → Prop} {items : List QNode} : AllItems P items ↔ ∀ n ∈ items, All P n := by
  induction items with
  | nil => simp [AllItems]
  | cons n items ih => simp [AllItems, ih]

theorem all_and {P : QNode → Prop} {items : List QNode} :
    All P (.And items) ↔ P (.And items) ∧ ∀ n ∈ items, All P n := by rw [All, allItems_iff]

theorem all_or {P : QNode → Prop} {items : List QNode} :
    All P (.Or items) ↔ P (.Or items) ∧ ∀ n ∈ items, All P n := by rw [All, allItems_iff]

theorem All.here {P : QNode → Prop} {n : QNode} (h : All P n) : P n := by
  cases n with
  | And items => exact (all_and.mp h).1
  | Or items => exact (all_or.mp h).1
  | Cmp path op v => exact h
  | Exists path negated => exact h

theorem reread_items_eq (items : List QNode) : reread_items items = items.mapM reread := by
  induction items with
  | nil => rfl
  | cons n items ih =>
      rw [reread_items, ih, List.mapM_cons]
      cases reread n with
      | none => rfl
      | some m => cases items.mapM reread <;> rfl

theorem length_mapM {α β : Type} {f : α → Option β} {xs : List α} {ys : List β} (h : xs.mapM f = some ys) :
    ys.length = xs.length := by
  induction xs generalizing ys with
  | nil => simp at h; simp [h]
  | cons a xs ih =>
      rw [List.mapM_cons] at h
      cases ha : f a with
      | none => simp [ha] at h
      | some b =>
          cases hx : xs.mapM f with
          | none => simp [ha, hx] at h
          | some bs =>
              simp [ha, hx] at h
              rw [← h, List.length_cons, List.length_cons, ih hx]

section Reading

def ReadsTerm (depth : Nat) (n : QNode) : Prop :=
  ∀ tail, Stop after_term tail → (term (inner depth) (item_text n ++ tail)).toOption = (reread n).map (·, tail)

def ReadsAnd (depth : Nat) (n : QNode) : Prop :=
  ∀ tail, Stop "|)" tail → (and_expr (inner depth) (item_text n ++ tail)).toOption = (reread n).map (·, tail)

def ReadsOr (depth : Nat) (n : QNode) : Prop :=
  ∀ tail, Stop ")" tail → (or_expr depth (render n ++ tail)).toOption = (reread n).map (·, tail)

theorem item_text_of_not_or {n : QNode} (h : is_or n = false) : item_text n = render n := by
  rw [item_text, h]; rfl

theorem grouped_reads {mk : List QNode → QNode} {c : Char} {item : Parser QNode} {tail : List Char}
    (htail : eat c tail = none) {items : List QNode} (hne : items ≠ [])
    (hitem : ∀ n ∈ items, ∀ t, (t = tail ∨ ∃ s, t = c :: s) → (item (item_text n ++ t)).toOption = (reread n).map (·, t)) :
    (grouped mk c item (sep_text c (items.map item_text) ++ tail)).toOption =
      ((items.mapM reread).map (group mk)).map (·, tail) := by
  rw [grouped, toOption_map, sep_by_reads item_text reread htail hne hitem]
  cases items.mapM reread <;> rfl

theorem group_of_two {mk : List QNode → QNode} {xs : List QNode} (h : 2 ≤ xs.length) : group mk xs = mk xs := by
  rcases xs with _ | ⟨a, _ | ⟨b, xs⟩⟩
  · simp at h
  · simp at h
  · rfl

theorem grouped_single {mk : List QNode → QNode} {c : Char} {item : Parser QNode} {n : QNode} {tail : List Char}
    (htail : eat c tail = none) (h : (item (item_text n ++ tail)).toOption = (reread n).map (·, tail)) :
    (grouped mk c item (item_text n ++ tail)).toOption = (reread n).map (·, tail) := by
  have hw : while_eat c item tail.length tail = .ok ([], tail) := by
    cases tail.length <;> simp [while_eat, htail]
  rw [grouped, toOption_map, sep_by, toOption_bind, h]
  cases reread n with
  | none => rfl
  | some m =>
      simp only [Option.map_some, Option.bind_some, hw, bind, Except.bind]
      rfl

theorem and_of_term {depth : Nat} {n : QNode} (h : ReadsTerm depth n) : ReadsAnd depth n := fun tail ht =>
  grouped_single (ht.eat_none (by decide)) (h tail (ht.mono (by decide)))

theorem or_of_and {depth : Nat} {n : QNode} (ho : is_or n = false) (h : ReadsAnd depth n) : ReadsOr depth n := by
  intro tail ht
  rw [or_expr_eq, ← item_text_of_not_or ho]
  exact grouped_single (ht.eat_none (by decide)) (h tail (ht.mono (by decide)))

theorem and_of_items {depth : Nat} {items : List QNode} (htwo : 2 ≤ items.length)
    (h : ∀ n ∈ items, ReadsTerm depth n) : ReadsAnd depth (.And items) := by
  intro tail ht
  have hne : items ≠ [] := by rintro rfl; simp at htwo
  rw [item_text_of_not_or rfl, render, render_items_eq, and_expr, grouped_reads (ht.eat_none (by decide)) hne]
  · rw [reread, reread_items_eq]
    cases hm : items.mapM reread with
    | none => rfl
    | some xs => simp [group_of_two (by rw [length_mapM hm]; exact htwo)]
  · rintro n hn t (rfl | ⟨s, rfl⟩)
    · exact h n hn _ (ht.mono (by decide))
    · exact h n hn _ (stop_cons (by decide))

theorem or_of_items {depth : Nat} {items : List QNode} (htwo : 2 ≤ items.length)
    (h : ∀ n ∈ items, ReadsAnd depth n) : ReadsOr depth (.Or items) := by
  intro tail ht
  have hne : items ≠ [] := by rintro rfl; simp at htwo
  rw [render, render_items_eq, or_expr_eq, grouped_reads (ht.eat_none (by decide)) hne]
  · rw [reread, reread_items_eq]
    cases hm : items.mapM reread with
    | none => rfl
    | some xs => simp [group_of_two (by rw [length_mapM hm]; exact htwo)]
  · rintro n hn t (rfl | ⟨s, rfl⟩)
    · exact h n hn _ (ht.mono (by decide))
    · exact h n hn _ (stop_cons (by decide))

theorem term_of_or {depth : Nat} {n : QNode} (ho : is_or n = true) (hpos : 0 < depth)
    (h : ReadsOr (depth - 1) n) : ReadsTerm depth n := by
  intro tail ht
  obtain ⟨d, rfl⟩ := Nat.exists_eq_add_of_lt hpos
  have hread := h (')' :: tail) (stop_cons (by decide))
  rw [Nat.zero_add, Nat.add_sub_cancel] at hread
  rw [item_text, ho, parenthesize, if_pos rfl, List.cons_append, List.append_assoc, List.singleton_append, term,
    eat_cons, Nat.zero_add, inner]
  dsimp only
  rw [toOption_bind, hread]
  cases reread n with
  | none => rfl
  | some m => simp [eat_cons, Except.toOption]

theorem term_of_leaf {depth : Nat} {n : QNode} (ho : is_or n = false)
    (hhead : ∀ tail, ∃ c s, render n ++ tail = c :: s ∧ c ≠ '(')
    (h : ∀ tail, Stop after_term tail → (leaf (render n ++ tail)).toOption = (reread n).map (·, tail)) :
    ReadsTerm depth n := by
  intro tail ht
  obtain ⟨c, s, hs, hc⟩ := hhead tail
  rw [item_text_of_not_or ho, term, ← h tail ht, hs, eat, if_neg hc]

structure Readable (n : QNode) : Prop where
  or_expr : ∀ depth, Formed depth n → ReadsOr depth n
  and_expr : ∀ depth, Item depth n → ReadsAnd depth n
  term : ∀ depth, is_and n = false → Item depth n → ReadsTerm depth n

theorem readable_leaf {n : QNode} (ho : is_or n = false) (h : ∀ depth, Formed depth n → ReadsTerm depth n) :
    Readable n :=
  ⟨fun depth hf => or_of_and ho (and_of_term (h depth hf)), fun depth hi => and_of_term (h depth hi.formed),
    fun depth _ hi => h depth hi.formed⟩

/-- Each production reads the rendering of a flat tree as `reread` says. -/
theorem readable (n : QNode) (hflat : All Flat n) (hq : All Unquoted n) : Readable n := by
  induction n using QNode.induction with
  | and items ih =>
      obtain ⟨hno, hflat⟩ := all_and.mp hflat
      obtain ⟨-, hq⟩ := all_and.mp hq
      have hand (depth : Nat) (hf : Formed depth (.And items)) : ReadsAnd depth (.And items) := by
        cases hf with
        | and htwo hleft hformed =>
            exact and_of_items htwo (fun n hn =>
              (ih n hn (hflat n hn) (hq n hn)).term depth (hno n hn) ⟨hleft n hn, hformed n hn⟩)
      exact ⟨fun depth hf => or_of_and rfl (hand depth hf), fun depth hi => hand depth hi.formed, nofun⟩
  | or items ih =>
      obtain ⟨-, hflat⟩ := all_or.mp hflat
      obtain ⟨-, hq⟩ := all_or.mp hq
      have hor (depth : Nat) (hf : Formed depth (.Or items)) : ReadsOr depth (.Or items) := by
        cases hf with
        | or htwo hleft hformed =>
            exact or_of_items htwo (fun n hn =>
              (ih n hn (hflat n hn) (hq n hn)).and_expr depth ⟨hleft n hn, hformed n hn⟩)
      have hterm (depth : Nat) (hi : Item depth (.Or items)) : ReadsTerm depth (.Or items) :=
        term_of_or rfl (hi.1 rfl) (hor _ hi.2)
      exact ⟨hor, fun depth hi => and_of_term (hterm depth hi), fun depth _ hi => hterm depth hi⟩
  | cmp path op v =>
      refine readable_leaf rfl (fun depth hf => ?_)
      cases hf with
      | cmp hp hv =>
          refine term_of_leaf rfl (fun tail => ?_) (fun tail ht => leaf_cmp hp hv hq ht)
          obtain ⟨c, s, hs, hd, -⟩ := render_path_head hp (render_op op ++ render_operand op v ++ tail)
          exact ⟨c, s, by simpa [render] using hs, by rintro rfl; exact absurd hd (by decide)⟩
  | exist path negated =>
      refine readable_leaf rfl (fun depth hf => ?_)
      cases hf with
      | exist hp =>
          refine term_of_leaf rfl (fun tail => ?_) (fun tail ht => leaf_exists hp ht)
          obtain ⟨c, s, hs, hd, -⟩ := render_path_head hp tail
          cases negated with
          | true => exact ⟨'!', _, by rw [render, if_pos rfl]; rfl, by decide⟩
          | false => exact ⟨c, s, by simpa [render] using hs, by rintro rfl; exact absurd hd (by decide)⟩

end Reading

section Flattening

def terms : QNode → List QNode
  | .And items => items
  | n => [n]

mutual
/-- The tree the parser builds of `a;b;c`, wherever an `And` of the original had
an `And` among its items. -/
def flatten : QNode → QNode
  | .And items => .And (flatten_terms items)
  | .Or items => .Or (flatten_items items)
  | .Cmp path op v => .Cmp path op v
  | .Exists path negated => .Exists path negated
def flatten_terms : List QNode → List QNode
  | [] => []
  | n :: items => terms (flatten n) ++ flatten_terms items
def flatten_items : List QNode → List QNode
  | [] => []
  | n :: items => flatten n :: flatten_items items
end

theorem flatten_terms_eq (items : List QNode) :
    flatten_terms items = items.flatMap (fun n => terms (flatten n)) := by
  induction items with
  | nil => rfl
  | cons n items ih => rw [flatten_terms, ih, List.flatMap_cons]

theorem flatten_items_eq (items : List QNode) : flatten_items items = items.map flatten := by
  induction items with
  | nil => rfl
  | cons n items ih => rw [flatten_items, ih, List.map_cons]

theorem is_or_flatten (n : QNode) : is_or (flatten n) = is_or n := by cases n <;> rfl

theorem sep_text_flatMap {c : Char} {items : List QNode} {pieces : QNode → List QNode}
    (h : ∀ n ∈ items, pieces n ≠ [] ∧ sep_text c ((pieces n).map item_text) = item_text n) :
    sep_text c ((items.flatMap pieces).map item_text) = sep_text c (items.map item_text) := by
  induction items with
  | nil => rfl
  | cons n items ih =>
      obtain ⟨hne, htext⟩ := h n (by simp)
      have ih := ih (fun m hm => h m (List.mem_cons_of_mem _ hm))
      rw [List.flatMap_cons, List.map_append, sep_text_append c (by simpa using hne), htext, List.map_cons, sep_text]
      congr 1
      cases items with
      | nil => rfl
      | cons m items =>
          have hne' : ((m :: items).flatMap pieces).map item_text ≠ [] := by
            simp [(h m (by simp)).1]
          cases hp : ((m :: items).flatMap pieces).map item_text with
          | nil => exact absurd hp hne'
          | cons t ts =>
              rw [hp] at ih
              simp only [List.map_cons, sep_text] at ih
              simp [ih]

theorem terms_ne_nil {depth : Nat} {n : QNode} (h : Formed depth n) : terms n ≠ [] := by
  cases h with
  | and htwo => rintro rfl; simp at htwo
  | or => simp [terms]
  | cmp => simp [terms]
  | exist => simp [terms]

theorem terms_text (n : QNode) : sep_text ';' ((terms n).map item_text) = item_text n := by
  cases n with
  | And items => rw [terms, item_text_of_not_or rfl, render, render_items_eq]
  | Or items => simp [terms, sep_text]
  | Cmp path op v => simp [terms, sep_text]
  | Exists path negated => simp [terms, sep_text]

theorem terms_items {depth : Nat} {n : QNode} (h : Formed (item_depth depth n) n) (hpos : is_or n = true → 0 < depth) :
    ∀ m ∈ terms n, Item depth m := by
  cases n with
  | And items =>
      cases h with
      | and _ left formed => exact fun m hm => ⟨left m hm, formed m hm⟩
  | Or items => simpa [terms] using ⟨hpos, h⟩
  | Cmp path op v => simpa [terms] using ⟨hpos, h⟩
  | Exists path negated => simpa [terms] using ⟨hpos, h⟩

theorem item_depth_flatten (depth : Nat) (n : QNode) : item_depth depth (flatten n) = item_depth depth n := by
  rw [item_depth, is_or_flatten, item_depth]

theorem length_flatMap_terms {items : List QNode} (h : ∀ n ∈ items, terms (flatten n) ≠ []) :
    items.length ≤ (items.flatMap (fun n => terms (flatten n))).length := by
  induction items with
  | nil => simp
  | cons n items ih =>
      have hn := List.length_pos_of_ne_nil (h n (by simp))
      have := ih (fun m hm => h m (List.mem_cons_of_mem _ hm))
      rw [List.flatMap_cons, List.length_append, List.length_cons]
      omega

/-- Splicing an inner `And` changes neither what the parser may build nor the text. -/
theorem flatten_spec {depth : Nat} {n : QNode} (h : Formed depth n) :
    Formed depth (flatten n) ∧ render (flatten n) = render n := by
  induction h with
  | @and depth items two left _ ih =>
      have hne : ∀ n ∈ items, terms (flatten n) ≠ [] := fun n hn => terms_ne_nil (ih n hn).1
      have hitem : ∀ n ∈ items, ∀ m ∈ terms (flatten n), Item depth m := fun n hn =>
        terms_items (by rw [item_depth_flatten]; exact (ih n hn).1) (by rw [is_or_flatten]; exact left n hn)
      have hall : ∀ m ∈ items.flatMap (fun n => terms (flatten n)), Item depth m := fun m hm => by
        obtain ⟨n, hn, hm⟩ := List.mem_flatMap.mp hm
        exact hitem n hn m hm
      rw [flatten, flatten_terms_eq]
      refine ⟨.and (two.trans (length_flatMap_terms hne)) (fun m hm => (hall m hm).1) (fun m hm => (hall m hm).2), ?_⟩
      rw [render, render, render_items_eq, render_items_eq]
      refine sep_text_flatMap (fun n hn => ⟨hne n hn, ?_⟩)
      rw [terms_text, item_text, is_or_flatten, (ih n hn).2, item_text]
  | @or depth items two left _ ih =>
      rw [flatten, flatten_items_eq]
      constructor
      · refine .or (by simpa using two) (fun m hm => ?_) (fun m hm => ?_) <;> obtain ⟨n, hn, rfl⟩ := List.mem_map.mp hm
        · rw [is_or_flatten]; exact left n hn
        · rw [item_depth_flatten]; exact (ih n hn).1
      · rw [render, render, render_items_eq, render_items_eq, List.map_map]
        congr 1
        refine List.map_congr_left (fun n hn => ?_)
        rw [Function.comp_apply, item_text, is_or_flatten, (ih n hn).2, item_text]
  | cmp hp hv => exact ⟨.cmp hp hv, rfl⟩
  | exist hp => exact ⟨.exist hp, rfl⟩

theorem terms_not_and {n : QNode} (h : Flat n) : ∀ m ∈ terms n, is_and m = false := by
  cases n with
  | And items => exact h
  | Or items => simp [terms, is_and]
  | Cmp path op v => simp [terms, is_and]
  | Exists path negated => simp [terms, is_and]

theorem all_terms {P : QNode → Prop} {n : QNode} (h : All P n) : ∀ m ∈ terms n, All P m := by
  cases n with
  | And items => exact (all_and.mp h).2
  | Or items => simpa [terms] using h
  | Cmp path op v => simpa [terms] using h
  | Exists path negated => simpa [terms] using h

theorem flat_flatten (n : QNode) : All Flat (flatten n) := by
  induction n using QNode.induction with
  | and items ih =>
      rw [flatten, flatten_terms_eq, all_and]
      refine ⟨fun m hm => ?_, fun m hm => ?_⟩ <;> obtain ⟨n, hn, hm⟩ := List.mem_flatMap.mp hm
      · exact terms_not_and (ih n hn).here m hm
      · exact all_terms (ih n hn) m hm
  | or items ih =>
      rw [flatten, flatten_items_eq, all_or]
      refine ⟨trivial, fun m hm => ?_⟩
      obtain ⟨n, hn, rfl⟩ := List.mem_map.mp hm
      exact ih n hn
  | cmp path op v => trivial
  | exist path negated => trivial

/-- A property of the comparisons and checks alone survives flattening. -/
theorem all_flatten {P : QNode → Prop} (hand : ∀ items, P (.And items)) (hor : ∀ items, P (.Or items)) {n : QNode}
    (h : All P n) : All P (flatten n) := by
  induction n using QNode.induction with
  | and items ih =>
      rw [flatten, flatten_terms_eq, all_and]
      refine ⟨hand _, fun m hm => ?_⟩
      obtain ⟨n, hn, hm⟩ := List.mem_flatMap.mp hm
      exact all_terms (ih n hn ((all_and.mp h).2 n hn)) m hm
  | or items ih =>
      rw [flatten, flatten_items_eq, all_or]
      refine ⟨hor _, fun m hm => ?_⟩
      obtain ⟨n, hn, rfl⟩ := List.mem_map.mp hm
      exact ih n hn ((all_or.mp h).2 n hn)
  | cmp path op v => exact h
  | exist path negated => exact h

theorem flatten_of_flat {n : QNode} (h : All Flat n) : flatten n = n := by
  induction n using QNode.induction with
  | and items ih =>
      obtain ⟨hno, hall⟩ := all_and.mp h
      rw [flatten, flatten_terms_eq]
      congr 1
      have hsingle : ∀ n ∈ items, terms (flatten n) = [n] := fun n hn => by
        rw [ih n hn (hall n hn)]
        cases n with
        | And items' => exact absurd (hno _ hn) (by simp [is_and])
        | Or items' => rfl
        | Cmp path op v => rfl
        | Exists path negated => rfl
      rw [List.flatMap_congr hsingle, List.flatMap_singleton']
  | or items ih =>
      have hid : ∀ n ∈ items, flatten n = id n := fun n hn => ih n hn ((all_or.mp h).2 n hn)
      rw [flatten, flatten_items_eq, List.map_congr_left hid, List.map_id]
  | cmp path op v => rfl
  | exist path negated => rfl

theorem q_nodes_all_append (xs ys : List QNode) : q_nodes_all (xs ++ ys) = q_nodes_all xs + q_nodes_all ys := by
  induction xs with
  | nil => simp [q_nodes_all]
  | cons n xs ih => rw [List.cons_append, q_nodes_all, q_nodes_all, ih, Nat.add_assoc]

theorem q_nodes_terms (n : QNode) : q_nodes_all (terms n) ≤ q_nodes n := by
  cases n <;> simp [terms, q_nodes, q_nodes_all]

theorem q_nodes_flatten (n : QNode) : q_nodes (flatten n) ≤ q_nodes n := by
  induction n using QNode.induction with
  | and items ih =>
      rw [flatten, flatten_terms_eq, q_nodes, q_nodes]
      refine Nat.add_le_add_left ?_ 1
      induction items with
      | nil => exact le_rfl
      | cons n items ihs =>
          rw [List.flatMap_cons, q_nodes_all_append, q_nodes_all]
          exact Nat.add_le_add ((q_nodes_terms _).trans (ih n (by simp)))
            (ihs (fun m hm => ih m (List.mem_cons_of_mem _ hm)))
  | or items ih =>
      rw [flatten, flatten_items_eq, q_nodes, q_nodes]
      refine Nat.add_le_add_left ?_ 1
      induction items with
      | nil => exact le_rfl
      | cons n items ihs =>
          rw [List.map_cons, q_nodes_all, q_nodes_all]
          exact Nat.add_le_add (ih n (by simp)) (ihs (fun m hm => ih m (List.mem_cons_of_mem _ hm)))
  | cmp path op v => exact le_rfl
  | exist path negated => exact le_rfl

end Flattening

end AntaresBroker.Ql
