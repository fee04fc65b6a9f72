import AntaresBroker.Flatten

namespace AntaresBroker.Ql

open JsonString Number Text

section Trimming

def trim_name (name : String) : String := String.ofList (trim_end name.toList)

def trim_last_name : List String → List String
  | [] => []
  | [name] => [trim_name name]
  | name :: names => name :: trim_last_name names

/-- The path with the blanks at the end of its text gone. -/
def trim_path (p : QPath) : QPath :=
  if p.links = [] ∧ p.bracket = none then { p with path := trim_last_name p.path } else p

mutual
/-- The tree whose text is that of `n` without the blanks at its end. -/
def trim_last : QNode → QNode
  | .And items => .And (trim_last_item items)
  | .Or items => .Or (trim_last_item items)
  | .Cmp path op v => .Cmp path op v
  | .Exists path negated => .Exists (trim_path path) negated
def trim_last_item : List QNode → List QNode
  | [] => []
  | n :: items =>
      if items.isEmpty then [if is_or n then n else trim_last n] else n :: trim_last_item items
end

mutual
/-- The name that ends the text of the tree, if a name does. -/
def last_name : QNode → Option String
  | .And items => last_item_name items
  | .Or items => last_item_name items
  | .Cmp _ _ _ => none
  | .Exists path _ => if path.links = [] ∧ path.bracket = none then path.path.getLast? else none
def last_item_name : List QNode → Option String
  | [] => none
  | n :: items => if items.isEmpty then (if is_or n then none else last_name n) else last_item_name items
end

theorem trim_end_append {s t : List Char} (h : trim_end t ≠ []) : trim_end (s ++ t) = s ++ trim_end t := by
  unfold trim_end List.rdropWhile at *
  rw [List.reverse_append, List.dropWhile_append, if_neg (by simpa using h), List.reverse_append, List.reverse_reverse]

theorem trim_end_of_last {s : List Char} {c : Char} (h : is_whitespace c = false) : trim_end (s ++ [c]) = s ++ [c] := by
  rw [trim_end, List.rdropWhile_concat_neg _ _ _ (by simp [h])]

theorem trim_end_ne_nil {s : List Char} {c : Char} (hm : c ∈ s) (h : is_whitespace c = false) : trim_end s ≠ [] := by
  intro he
  rw [trim_end, List.rdropWhile_eq_nil_iff] at he
  exact absurd (he c hm) (by simp [h])

theorem Name.solid {name : String} (h : Name name) : trim_end name.toList ≠ [] := by
  obtain ⟨c, l, hl⟩ := List.exists_cons_of_ne_nil h.ne_nil
  exact trim_end_ne_nil (c := c) (by simp [hl]) (h.head c (by simp [hl]))

theorem trim_name_name {name : String} (h : Name name) : Name (trim_name name) := by
  obtain ⟨c, l, hl⟩ := List.exists_cons_of_ne_nil h.ne_nil
  have hpre : (trim_end name.toList) <+: name.toList := List.rdropWhile_prefix _ _
  refine ⟨?_, fun d hd => ?_, fun d hd => ?_⟩
  · rw [trim_name, String.toList_ofList]
    exact h.solid
  · rw [trim_name, String.toList_ofList] at hd
    exact h.plain d (hpre.subset hd)
  · rw [trim_name, String.toList_ofList] at hd
    obtain ⟨t, ht⟩ := hpre
    cases hs : trim_end name.toList with
    | nil => exact absurd hs h.solid
    | cons e u =>
        rw [hs] at hd ht
        refine h.head d ?_
        rw [← ht]
        exact hd

theorem trim_last_name_text {names : List String} (hne : names ≠ []) (h : ∀ name ∈ names, Name name) :
    trim_end (join '.' names) = join '.' (trim_last_name names) ∧ trim_end (join '.' names) ≠ [] := by
  induction names with
  | nil => exact absurd rfl hne
  | cons name names ih =>
      cases names with
      | nil => simpa [join, trim_last_name, trim_name] using (h name (by simp)).solid
      | cons name' names =>
          obtain ⟨heq, hsolid⟩ := ih (by simp) (fun n hn => h n (List.mem_cons_of_mem _ hn))
          have htail : trim_end ('.' :: join '.' (name' :: names)) = '.' :: join '.' (trim_last_name (name' :: names)) := by
            rw [← heq]
            exact trim_end_append (s := ['.']) hsolid
          have happ := trim_end_append (s := name.toList) (t := '.' :: join '.' (name' :: names)) (by simp [htail])
          have htl : ∃ m ms, trim_last_name (name' :: names) = m :: ms := by
            cases names <;> exact ⟨_, _, rfl⟩
          obtain ⟨m, ms, hms⟩ := htl
          have hjoin : join '.' (name :: name' :: names) = name.toList ++ '.' :: join '.' (name' :: names) := rfl
          have hcons : trim_last_name (name :: name' :: names) = name :: m :: ms := by rw [← hms]; rfl
          rw [hjoin, happ, htail, hcons, hms]
          exact ⟨rfl, by simp⟩

theorem trim_path_text {p : QPath} (hp : PathFormed p) :
    trim_end (render_path p) = render_path (trim_path p) ∧ trim_end (render_path p) ≠ [] := by
  obtain ⟨links, path, b⟩ := p
  have hlast {s t : List Char} {c : Char} (hs : s = t ++ [c]) (hc : is_whitespace c = false) :
      trim_end s = s ∧ trim_end s ≠ [] := by
    subst hs
    exact ⟨trim_end_of_last hc, by rw [trim_end_of_last hc]; simp⟩
  cases links with
  | cons l links =>
      have h := hlast (s := render_path ⟨l :: links, path, b⟩)
        (t := (l :: links).flatMap render_link ++ join '.' path ++ render_bracket b ++ List.replicate links.length '}')
        (c := '}') (by rw [render_path, List.length_cons, List.replicate_succ']; simp) (by decide)
      rw [trim_path, if_neg (by simp)]
      exact h
  | nil =>
      cases b with
      | some b =>
          have h := hlast (s := render_path ⟨[], path, some b⟩) (t := join '.' path ++ '[' :: join '.' b) (c := ']')
            (by simp [render_path, render_bracket]) (by decide)
          rw [trim_path, if_neg (by simp)]
          exact h
      | none =>
          have htext (names : List String) : render_path ⟨[], names, none⟩ = join '.' names := by
            simp [render_path, render_bracket]
          rw [trim_path, if_pos ⟨rfl, rfl⟩, htext, htext]
          exact trim_last_name_text hp.path_ne hp.names

theorem trim_last_name_names {names : List String} (h : ∀ name ∈ names, Name name) :
    ∀ name ∈ trim_last_name names, Name name := by
  induction names with
  | nil => exact h
  | cons name names ih =>
      cases names with
      | nil => simpa [trim_last_name] using trim_name_name (h name (by simp))
      | cons name' names =>
          have hcons : trim_last_name (name :: name' :: names) = name :: trim_last_name (name' :: names) := rfl
          rw [hcons]
          exact List.forall_mem_cons.mpr ⟨h name (by simp), ih (fun n hn => h n (List.mem_cons_of_mem _ hn))⟩

theorem trim_path_formed {p : QPath} (hp : PathFormed p) : PathFormed (trim_path p) := by
  unfold trim_path
  split_ifs
  · refine ⟨hp.links_le, hp.attrs, ?_, trim_last_name_names hp.names, hp.bracket⟩
    obtain ⟨name, names, hn⟩ := List.exists_cons_of_ne_nil hp.path_ne
    rw [hn]
    cases names <;> simp [trim_last_name]
  · exact hp

theorem render_scalar_last (v : Scalar) : ∃ s c, render_scalar v = s ++ [c] ∧ is_whitespace c = false := by
  have hbare {w : List Char} (hw : Bare w) : ∃ s c, w = s ++ [c] ∧ is_whitespace c = false := by
    refine ⟨w.dropLast, w.getLast hw.ne_nil, (List.dropLast_append_getLast hw.ne_nil).symm, ?_⟩
    exact (hw.plain _ (List.getLast_mem hw.ne_nil)).1
  cases v with
  | Str t => exact ⟨'"' :: escape t.toList, '"', rfl, by decide⟩
  | Num x => exact hbare (bare_display x)
  | Bool b => exact hbare (bare_bool b)

theorem render_operand_last {op : CmpOp} {v : QValue} (hv : ValueFormed op v) :
    ∃ s c, render_operand op v = s ++ [c] ∧ is_whitespace c = false := by
  have happend (t : List Char) (w : Scalar) : ∃ s c, t ++ render_scalar w = s ++ [c] ∧ is_whitespace c = false := by
    obtain ⟨s, c, h, hc⟩ := render_scalar_last w
    exact ⟨t ++ s, c, by rw [h, List.append_assoc], hc⟩
  cases v with
  | scalar w =>
      cases w with
      | Str s =>
          rw [render_operand]
          split_ifs
          · exact ⟨'"' :: s.toList, '"', rfl, by decide⟩
          · exact render_scalar_last _
      | Num x => exact render_scalar_last (.Num x)
      | Bool b => exact render_scalar_last (.Bool b)
  | List items =>
      obtain ⟨w, ws, rfl⟩ : ∃ ws w, items = ws ++ [w] := by
        rcases List.eq_nil_or_concat items with rfl | ⟨ws, w, h⟩
        · exact absurd hv.2 (by simp)
        · exact ⟨ws, w, by rw [h, List.concat_eq_append]⟩
      cases w with
      | nil => simpa [render_operand, render_value, render_scalars] using render_scalar_last ws
      | cons w' w =>
          have := happend (sep_text ',' ((w' :: w).map render_scalar) ++ [',']) ws
          simpa [render_operand, render_value, render_scalars_eq, sep_text] using this
  | Range lo hi => simpa [render_operand, render_value] using happend (render_scalar lo ++ "..".toList) hi

theorem trim_last_item_eq (items : List QNode) (n : QNode) :
    trim_last_item (items ++ [n]) = items ++ [if is_or n then n else trim_last n] := by
  induction items with
  | nil => rfl
  | cons m items ih => rw [List.cons_append, trim_last_item, ih]; simp

theorem last_item_name_eq (items : List QNode) (n : QNode) :
    last_item_name (items ++ [n]) = if is_or n then none else last_name n := by
  induction items with
  | nil => rfl
  | cons m items ih => rw [List.cons_append, last_item_name, ih]; simp

theorem is_or_trim_last (n : QNode) : is_or (trim_last n) = is_or n := by cases n <;> rfl

theorem is_and_trim_last (n : QNode) : is_and (trim_last n) = is_and n := by cases n <;> rfl

theorem exists_last {items : List QNode} (h : 2 ≤ items.length) : ∃ init n, items = init ++ [n] := by
  rcases List.eq_nil_or_concat items with rfl | ⟨init, n, h⟩
  · simp at h
  · exact ⟨init, n, by rw [h, List.concat_eq_append]⟩

theorem render_snoc {c : Char} {init : List QNode} (h : init ≠ []) (n : QNode) :
    render_items c (init ++ [n]) = sep_text c (init.map item_text) ++ [c] ++ item_text n := by
  rw [render_items_eq, List.map_append, sep_text_append c (by simpa using h)]
  simp

def trim_item (n : QNode) : QNode := if is_or n then n else trim_last n

theorem is_or_trim_item (n : QNode) : is_or (trim_item n) = is_or n := by
  unfold trim_item
  split_ifs
  · rfl
  · exact is_or_trim_last n

/-- What `trim_last` is for. -/
def Trims (n : QNode) : Prop :=
  trim_end (render n) = render (trim_last n) ∧ trim_end (render n) ≠ []

theorem trim_item_text {n : QNode} (h : Trims n) :
    trim_end (item_text n) = item_text (trim_item n) ∧ trim_end (item_text n) ≠ [] := by
  cases ho : is_or n with
  | true =>
      have hs : trim_end (item_text n) = item_text n := by
        rw [item_text, ho, parenthesize, if_pos rfl]
        exact trim_end_of_last (s := '(' :: render n) (by decide)
      rw [hs, trim_item, if_pos ho]
      exact ⟨rfl, by simp [item_text, ho, parenthesize]⟩
  | false =>
      have ho' := is_or_trim_last n
      rw [trim_item, ho, if_neg Bool.false_ne_true, item_text, item_text, ho', ho]
      exact h

theorem trims_items {c : Char} {init : List QNode} {n : QNode} (hne : init ≠ []) (h : Trims n) :
    trim_end (render_items c (init ++ [n])) = render_items c (init ++ [trim_item n]) ∧
      trim_end (render_items c (init ++ [n])) ≠ [] := by
  obtain ⟨htext, hsolid⟩ := trim_item_text h
  rw [render_snoc hne, render_snoc hne, trim_end_append hsolid, htext]
  exact ⟨rfl, by simp⟩

theorem length_init {init : List QNode} {n : QNode} (h : 2 ≤ (init ++ [n]).length) : init ≠ [] := by
  rintro rfl
  simp at h

theorem trims {depth : Nat} {n : QNode} (h : Formed depth n) : Trims n := by
  induction h with
  | and two _ _ ih =>
      obtain ⟨init, n, rfl⟩ := exists_last two
      rw [Trims, trim_last, trim_last_item_eq, render, render]
      exact trims_items (length_init two) (ih n (by simp))
  | or two _ _ ih =>
      obtain ⟨init, n, rfl⟩ := exists_last two
      rw [Trims, trim_last, trim_last_item_eq, render, render]
      exact trims_items (length_init two) (ih n (by simp))
  | @cmp depth path op v hp hv =>
      obtain ⟨s, c, hs, hc⟩ := render_operand_last hv
      have htext : render (.Cmp path op v) = (render_path path ++ render_op op ++ s) ++ [c] := by
        rw [render, hs, List.append_assoc _ s]
      rw [Trims, trim_last, htext, trim_end_of_last hc]
      exact ⟨rfl, by simp⟩
  | @exist depth path negated hp =>
      obtain ⟨htext, hsolid⟩ := trim_path_text hp
      rw [Trims, trim_last, render, render, trim_end_append hsolid, htext]
      exact ⟨rfl, by rw [← htext]; simp [hsolid]⟩

theorem formed_items {depth : Nat} {init : List QNode} {n : QNode}
    (hleft : ∀ m ∈ init ++ [n], is_or m = true → 0 < depth)
    (hformed : ∀ m ∈ init ++ [n], Formed (item_depth depth m) m) (hn : Formed (item_depth depth n) (trim_last n)) :
    ∀ m ∈ init ++ [trim_item n], Item depth m := by
  intro m hm
  rcases List.mem_append.mp hm with hm | hm
  · exact ⟨hleft m (by simp [hm]), hformed m (by simp [hm])⟩
  · rw [List.mem_singleton] at hm
    subst hm
    refine ⟨by rw [is_or_trim_item]; exact hleft n (by simp), ?_⟩
    rw [item_depth, is_or_trim_item, ← item_depth]
    unfold trim_item
    split_ifs
    · exact hformed n (by simp)
    · exact hn

theorem formed_trim_last {depth : Nat} {n : QNode} (h : Formed depth n) : Formed depth (trim_last n) := by
  induction h with
  | and two left formed ih =>
      obtain ⟨init, n, rfl⟩ := exists_last two
      have hall := formed_items left formed (ih n (by simp))
      rw [trim_last, trim_last_item_eq]
      exact .and (by simpa using two) (fun m hm => (hall m hm).1) (fun m hm => (hall m hm).2)
  | or two left formed ih =>
      obtain ⟨init, n, rfl⟩ := exists_last two
      have hall := formed_items left formed (ih n (by simp))
      rw [trim_last, trim_last_item_eq]
      exact .or (by simpa using two) (fun m hm => (hall m hm).1) (fun m hm => (hall m hm).2)
  | cmp hp hv => exact .cmp hp hv
  | exist hp => exact .exist (trim_path_formed hp)

/-- A property of comparisons alone survives trimming. -/
theorem all_trim_last {P : QNode → Prop} (hand : ∀ items, P (.And items)) (hor : ∀ items, P (.Or items))
    (hexists : ∀ path negated, P (.Exists path negated)) {n : QNode} (h : All P n) : All P (trim_last n) := by
  have hitems {init : List QNode} {n : QNode} (hall : ∀ m ∈ init ++ [n], All P m) (hn : All P (trim_last n)) :
      ∀ m ∈ init ++ [trim_item n], All P m := by
    intro m hm
    rcases List.mem_append.mp hm with hm | hm
    · exact hall m (by simp [hm])
    · rw [List.mem_singleton.mp hm, trim_item]
      split_ifs
      · exact hall n (by simp)
      · exact hn
  induction n using QNode.induction with
  | and items ih =>
      rcases List.eq_nil_or_concat items with rfl | ⟨init, n, rfl⟩
      · exact h
      · rw [List.concat_eq_append] at h ih ⊢
        rw [trim_last, trim_last_item_eq, all_and]
        have hall := (all_and.mp h).2
        exact ⟨hand _, hitems hall (ih n (by simp) (hall n (by simp)))⟩
  | or items ih =>
      rcases List.eq_nil_or_concat items with rfl | ⟨init, n, rfl⟩
      · exact h
      · rw [List.concat_eq_append] at h ih ⊢
        rw [trim_last, trim_last_item_eq, all_or]
        have hall := (all_or.mp h).2
        exact ⟨hor _, hitems hall (ih n (by simp) (hall n (by simp)))⟩
  | cmp path op v => exact h
  | exist path negated => exact hexists _ _

theorem q_nodes_trim_last (n : QNode) : q_nodes (trim_last n) = q_nodes n := by
  have hitems {init : List QNode} {n : QNode} (hn : q_nodes (trim_last n) = q_nodes n) :
      q_nodes_all (init ++ [trim_item n]) = q_nodes_all (init ++ [n]) := by
    rw [q_nodes_all_append, q_nodes_all_append, trim_item]
    split_ifs
    · rfl
    · simp only [q_nodes_all, hn]
  induction n using QNode.induction with
  | and items ih =>
      rcases List.eq_nil_or_concat items with rfl | ⟨init, n, rfl⟩
      · rfl
      · rw [List.concat_eq_append] at ih ⊢
        rw [trim_last, trim_last_item_eq, q_nodes, q_nodes, ← trim_item, hitems (ih n (by simp))]
  | or items ih =>
      rcases List.eq_nil_or_concat items with rfl | ⟨init, n, rfl⟩
      · rfl
      · rw [List.concat_eq_append] at ih ⊢
        rw [trim_last, trim_last_item_eq, q_nodes, q_nodes, ← trim_item, hitems (ih n (by simp))]
  | cmp path op v => rfl
  | exist path negated => rfl

end Trimming

section Ends

/-- No blank ends the name. -/
def Unblanked (name : String) : Prop := ∀ c ∈ name.toList.getLast?, is_whitespace c = false

theorem trim_name_eq_iff {name : String} : trim_name name = name ↔ Unblanked name := by
  rw [trim_name, ← String.toList_inj, String.toList_ofList, trim_end, List.rdropWhile_eq_self_iff, Unblanked]
  constructor
  · intro h c hc
    obtain ⟨hne, hlast⟩ := List.mem_getLast?_eq_getLast hc
    have := h hne
    rw [← hlast] at this
    simpa using this
  · intro h hne
    simp [h _ (List.getLast?_eq_getLast_of_ne_nil hne)]

def EndKept (n : QNode) : Prop := ∀ name, last_name n = some name → Unblanked name

theorem getLast_trim_last_name (names : List String) :
    (trim_last_name names).getLast? = names.getLast?.map trim_name := by
  induction names with
  | nil => rfl
  | cons name names ih =>
      cases names with
      | nil => rfl
      | cons name' names =>
          have hcons : trim_last_name (name :: name' :: names) = name :: trim_last_name (name' :: names) := rfl
          rw [hcons, List.getLast?_cons, ih, List.getLast?_cons_cons]
          cases h : (name' :: names).getLast? with
          | none => simp at h
          | some last => rfl

theorem last_name_trim_last {depth : Nat} {n : QNode} (h : Formed depth n) :
    last_name (trim_last n) = (last_name n).map trim_name := by
  have hitems {init : List QNode} {n : QNode} (hn : last_name (trim_last n) = (last_name n).map trim_name) :
      last_item_name (init ++ [trim_item n]) = (last_item_name (init ++ [n])).map trim_name := by
    rw [last_item_name_eq, last_item_name_eq, is_or_trim_item, trim_item]
    split_ifs
    · rfl
    · exact hn
  induction h with
  | and two _ _ ih =>
      obtain ⟨init, n, rfl⟩ := exists_last two
      rw [trim_last, trim_last_item_eq, last_name, last_name]
      exact hitems (ih n (by simp))
  | or two _ _ ih =>
      obtain ⟨init, n, rfl⟩ := exists_last two
      rw [trim_last, trim_last_item_eq, last_name, last_name]
      exact hitems (ih n (by simp))
  | cmp hp hv => rfl
  | @exist depth path negated hp =>
      rw [trim_last, last_name, last_name, trim_path]
      by_cases hb : path.links = [] ∧ path.bracket = none
      · rw [if_pos hb, if_pos hb, if_pos hb]
        exact getLast_trim_last_name path.path
      · rw [if_neg hb, if_neg hb]
        rfl

theorem last_item_name_append {xs ys : List QNode} (h : ys ≠ []) : last_item_name (xs ++ ys) = last_item_name ys := by
  rcases List.eq_nil_or_concat ys with rfl | ⟨init, n, rfl⟩
  · exact absurd rfl h
  · rw [List.concat_eq_append, ← List.append_assoc, last_item_name_eq, last_item_name_eq]

theorem last_name_terms (n : QNode) : last_item_name (terms n) = if is_or n then none else last_name n := by
  cases n <;> rfl

theorem last_name_flatten {depth : Nat} {n : QNode} (h : Formed depth n) : last_name (flatten n) = last_name n := by
  induction h with
  | and two left formed ih =>
      obtain ⟨init, n, rfl⟩ := exists_last two
      have hne := terms_ne_nil (flatten_spec (formed n (by simp))).1
      rw [flatten, flatten_terms_eq, last_name, last_name, List.flatMap_append, List.flatMap_singleton,
        last_item_name_append hne, last_name_terms, last_item_name_eq, is_or_flatten, ih n (by simp)]
  | or two _ _ ih =>
      obtain ⟨init, n, rfl⟩ := exists_last two
      rw [flatten, flatten_items_eq, last_name, last_name, List.map_append, List.map_singleton, last_item_name_eq,
        last_item_name_eq, is_or_flatten, ih n (by simp)]
  | cmp hp hv => rfl
  | exist hp => rfl

theorem reread_leaf_shape {n m : QNode} (h : reread_leaf n = some m) :
    is_or m = is_or n ∧ is_and m = is_and n ∧ last_name m = last_name n ∧ q_nodes m = q_nodes n := by
  cases n with
  | And items => simp [reread_leaf] at h
  | Or items => simp [reread_leaf] at h
  | Cmp path op v =>
      rw [reread_leaf] at h
      split_ifs at h
      obtain ⟨w, -, rfl⟩ := Option.map_eq_some_iff.mp h
      exact ⟨rfl, rfl, rfl, rfl⟩
  | Exists path negated =>
      rw [reread_leaf] at h
      split_ifs at h
      injection h with h
      rw [← h]
      exact ⟨rfl, rfl, rfl, rfl⟩

theorem reread_kind {n m : QNode} (h : reread n = some m) : is_or m = is_or n ∧ is_and m = is_and n := by
  cases n with
  | And items =>
      obtain ⟨ms, -, rfl⟩ := Option.map_eq_some_iff.mp h
      exact ⟨rfl, rfl⟩
  | Or items =>
      obtain ⟨ms, -, rfl⟩ := Option.map_eq_some_iff.mp h
      exact ⟨rfl, rfl⟩
  | Cmp path op v =>
      rw [reread] at h
      exact ⟨(reread_leaf_shape h).1, (reread_leaf_shape h).2.1⟩
  | Exists path negated =>
      rw [reread] at h
      exact ⟨(reread_leaf_shape h).1, (reread_leaf_shape h).2.1⟩

theorem reread_items_cons {n : QNode} {items ms : List QNode} (h : reread_items (n :: items) = some ms) :
    ∃ m ms', ms = m :: ms' ∧ reread n = some m ∧ reread_items items = some ms' := by
  obtain ⟨m, hm, h⟩ := Option.bind_eq_some_iff.mp h
  obtain ⟨ms', hms, rfl⟩ := Option.map_eq_some_iff.mp h
  exact ⟨m, ms', rfl, hm, hms⟩

/-- Rereading keeps the shape: the kinds of the nodes, their number and the last name. -/
theorem reread_shape {n m : QNode} (h : reread n = some m) :
    last_name m = last_name n ∧ q_nodes m = q_nodes n ∧ (All Flat n → All Flat m) := by
  have hitems {items : List QNode} (ih : ∀ n ∈ items, ∀ m, reread n = some m →
      last_name m = last_name n ∧ q_nodes m = q_nodes n ∧ (All Flat n → All Flat m)) {ms : List QNode}
      (h : reread_items items = some ms) :
      last_item_name ms = last_item_name items ∧ q_nodes_all ms = q_nodes_all items ∧
        ((∀ n ∈ items, All Flat n) → ∀ m ∈ ms, All Flat m) ∧
        ((∀ n ∈ items, is_and n = false) → ∀ m ∈ ms, is_and m = false) := by
    induction items generalizing ms with
    | nil =>
        rw [reread_items, Option.some.injEq] at h
        subst h
        exact ⟨rfl, rfl, id, id⟩
    | cons n items ihs =>
        obtain ⟨m, ms', rfl, hm, hms⟩ := reread_items_cons h
        obtain ⟨hname, hnodes, hflat⟩ := ih n (by simp) m hm
        obtain ⟨hnames, hall, hflats, hands⟩ := ihs (fun n' hn' => ih n' (List.mem_cons_of_mem _ hn')) hms
        have hempty : ms'.isEmpty = items.isEmpty := by
          rw [reread_items_eq] at hms
          rw [Bool.eq_iff_iff, List.isEmpty_iff_length_eq_zero, List.isEmpty_iff_length_eq_zero, length_mapM hms]
        refine ⟨?_, by rw [q_nodes_all, q_nodes_all, hnodes, hall], fun hf => ?_, fun ha => ?_⟩
        · rw [last_item_name, last_item_name, hempty, hname, hnames, (reread_kind hm).1]
        · obtain ⟨hn, hrest⟩ := List.forall_mem_cons.mp hf
          exact List.forall_mem_cons.mpr ⟨hflat hn, hflats hrest⟩
        · obtain ⟨hn, hrest⟩ := List.forall_mem_cons.mp ha
          exact List.forall_mem_cons.mpr ⟨(reread_kind hm).2.trans hn, hands hrest⟩
  induction n using QNode.induction generalizing m with
  | and items ih =>
      obtain ⟨ms, hms, rfl⟩ := Option.map_eq_some_iff.mp h
      obtain ⟨hname, hnodes, hflat, hands⟩ := hitems (fun n hn m hm => ih n hn hm) hms
      refine ⟨hname, by rw [q_nodes, q_nodes, hnodes], fun hf => ?_⟩
      obtain ⟨hno, hall⟩ := all_and.mp hf
      exact all_and.mpr ⟨hands hno, hflat hall⟩
  | or items ih =>
      obtain ⟨ms, hms, rfl⟩ := Option.map_eq_some_iff.mp h
      obtain ⟨hname, hnodes, hflat, -⟩ := hitems (fun n hn m hm => ih n hn hm) hms
      exact ⟨hname, by rw [q_nodes, q_nodes, hnodes], fun hf => all_or.mpr ⟨trivial, hflat (all_or.mp hf).2⟩⟩
  | cmp path op v =>
      rw [reread] at h
      obtain ⟨-, -, hname, hnodes⟩ := reread_leaf_shape h
      refine ⟨hname, hnodes, fun _ => ?_⟩
      rw [reread_leaf] at h
      split_ifs at h
      obtain ⟨w, -, rfl⟩ := Option.map_eq_some_iff.mp h
      trivial
  | exist path negated =>
      rw [reread] at h
      obtain ⟨-, -, hname, hnodes⟩ := reread_leaf_shape h
      refine ⟨hname, hnodes, fun _ => ?_⟩
      rw [reread_leaf] at h
      split_ifs at h
      injection h with h
      rw [← h]
      trivial

theorem trim_last_name_id (names : List String) (h : ∀ name ∈ names.getLast?, trim_name name = name) :
    trim_last_name names = names := by
  induction names with
  | nil => rfl
  | cons name names ih =>
      cases names with
      | nil => rw [trim_last_name, h name rfl]
      | cons name' names =>
          have hcons : trim_last_name (name :: name' :: names) = name :: trim_last_name (name' :: names) := rfl
          rw [hcons, ih (fun n hn => h n (by rw [List.getLast?_cons_cons]; exact hn))]

theorem trim_last_of_end_kept {depth : Nat} {n : QNode} (h : Formed depth n) (hk : EndKept n) : trim_last n = n := by
  have hitems {init : List QNode} {n : QNode} (hn : EndKept n → trim_last n = n)
      (hk : ∀ name, last_item_name (init ++ [n]) = some name → Unblanked name) :
      init ++ [trim_item n] = init ++ [n] := by
    rw [trim_item]
    split_ifs with ho
    · rfl
    · rw [hn (fun name hname => hk name (by rw [last_item_name_eq, if_neg ho]; exact hname))]
  induction h with
  | and two _ _ ih =>
      obtain ⟨init, n, rfl⟩ := exists_last two
      rw [trim_last, trim_last_item_eq, ← trim_item, hitems (ih n (by simp)) hk]
  | or two _ _ ih =>
      obtain ⟨init, n, rfl⟩ := exists_last two
      rw [trim_last, trim_last_item_eq, ← trim_item, hitems (ih n (by simp)) hk]
  | cmp hp hv => rfl
  | @exist depth path negated hp =>
      rw [trim_last, trim_path]
      split_ifs with hb
      · have hid := trim_last_name_id path.path (fun name hname =>
          trim_name_eq_iff.mpr (hk name (by rw [last_name, if_pos hb]; exact hname)))
        rw [hid]
      · rfl

end Ends

end AntaresBroker.Ql
