import AntaresBroker.Trim

namespace AntaresBroker.Ql

open Fallible JsonString Number Text

def scalars : QValue → List Scalar
  | .scalar v => [v]
  | .List items => items
  | .Range lo hi => [lo, hi]

/-- What the rendering of a node keeps: a group as it is when no `And` stands
directly in an `And`, a bracket unless it begins with a star and says more, and
every number but the infinities. -/
def Kept : QNode → Prop
  | .And items => ∀ n ∈ items, is_and n = false
  | .Or _ => True
  | .Cmp path _ v => PathKept path ∧ ∀ x, Scalar.Num x ∈ scalars v → is_finite x
  | .Exists path _ => PathKept path

section Size

def names_width (names : List String) : Nat := (names.map (fun name => len name + 1)).sum

/-- A character of a quoted text, in bytes: two for a short escape, six for
another control character. -/
def escaped_width (c : Char) : Nat :=
  if c ∈ ['"', '\\', '\x08', '\x0c', '\n', '\r', '\t'] then 2 else if c.toNat < 32 then 6 else c.utf8Size

def scalar_width : Scalar → Nat
  | .Str s => (s.toList.map escaped_width).sum + 2
  | .Num x => (NumberText.display x).length
  | .Bool b => if b then 4 else 5

def operand_width (op : CmpOp) : QValue → Nat
  | .scalar (.Str s) => if op.regexp then len s + 2 else scalar_width (.Str s)
  | .scalar v => scalar_width v
  | .List items => (items.map (fun v => scalar_width v + 1)).sum - 1
  | .Range lo hi => scalar_width lo + 2 + scalar_width hi

def op_width : CmpOp → Nat
  | .Gt | .Lt => 1
  | .NotPattern => 3
  | _ => 2

def bracket_width : Option (List String) → Nat
  | some b => names_width b - 1 + 2
  | none => 0

def path_width (p : QPath) : Nat :=
  (p.links.map (fun l => len l.attr + 2 + names_width l.types)).sum + (names_width p.path - 1) + bracket_width p.bracket

mutual
/-- The number of bytes of the rendering. -/
def width : QNode → Nat
  | .And items => items_width items - 1
  | .Or items => items_width items - 1
  | .Cmp path op v => path_width path + op_width op + operand_width op v
  | .Exists path negated => (if negated then 1 else 0) + path_width path
def items_width : List QNode → Nat
  | [] => 0
  | n :: items => width n + (if is_or n then 2 else 0) + 1 + items_width items
end

theorem byteSize_sep {c : Char} (hc : c.utf8Size = 1) (ts : List (List Char)) :
    byteSize (sep_text c ts) = (ts.map (fun t => byteSize t + 1)).sum - 1 := by
  have hrest (us : List (List Char)) : byteSize (us.flatMap (c :: ·)) = (us.map (fun t => byteSize t + 1)).sum := by
    induction us with
    | nil => rfl
    | cons t us ih =>
        rw [List.flatMap_cons, byteSize_append, byteSize_cons, ih, hc, List.map_cons, List.sum_cons]
        omega
  cases ts with
  | nil => rfl
  | cons t ts =>
      rw [sep_text, byteSize_append, hrest, List.map_cons, List.sum_cons]
      omega

theorem byteSize_join {c : Char} (hc : c.utf8Size = 1) (names : List String) :
    byteSize (join c names) = names_width names - 1 := by
  rw [join_eq, byteSize_sep hc, List.map_map]
  rfl

theorem utf8Size_ascii {n : Nat} (h : n < 128) : (Char.ofNat n).utf8Size = 1 := by
  interval_cases n <;> rfl

theorem byteSize_control (n : Nat) (h : n < 32) :
    byteSize (escape_char (Char.ofNat n)) = escaped_width (Char.ofNat n) := by
  interval_cases n <;> rfl

theorem byteSize_escape_char (c : Char) : byteSize (escape_char c) = escaped_width c := by
  rcases escape_char_cases c with ⟨n, hn, rfl⟩ | rfl | rfl | ⟨he, hq, hb, hlt⟩
  · exact byteSize_control n hn
  · rfl
  · rfl
  · have hne (d : Char) (hd : d.toNat < 32) : c ≠ d := fun h => hlt (h ▸ hd)
    have hnot : c ∉ ['"', '\\', '\x08', '\x0c', '\n', '\r', '\t'] := by
      simp only [List.mem_cons, List.not_mem_nil, or_false, not_or]
      exact ⟨hq, hb, hne _ (by decide), hne _ (by decide), hne _ (by decide), hne _ (by decide), hne _ (by decide)⟩
    rw [he, escaped_width, if_neg hnot, if_neg hlt, byteSize, List.map_singleton, List.sum_singleton]

theorem byteSize_escape (s : List Char) : byteSize (escape s) = (s.map escaped_width).sum := by
  induction s with
  | nil => rfl
  | cons c s ih => rw [escape, List.flatMap_cons, byteSize_append, ← escape, ih, byteSize_escape_char]; simp

theorem utf8Size_display (x : F64) : ∀ c ∈ NumberText.display x, c.utf8Size = 1 := by
  have hdigit {c : Char} (h : c.isDigit = true) : c.utf8Size = 1 := by
    rw [Char.isDigit_iff_toNat] at h
    have hsize := utf8Size_ascii (show c.toNat < 128 from lt_of_le_of_lt h.2 (by decide))
    rwa [Char.ofNat_toNat] at hsize
  have hsign : ∀ c ∈ NumberText.sign x.neg, c.utf8Size = 1 := by cases x.neg <;> decide
  intro c hc
  by_cases hx : is_finite x
  · obtain ⟨m, fs, hfs, hd⟩ := NumberText.display_eq hx
    rw [hd] at hc
    rcases List.mem_append.mp hc with hc | hc
    · exact hsign c hc
    · rcases List.mem_append.mp hc with hc | hc
      · exact hdigit (NumberText.isDigit_of_mem_digits hc)
      · split_ifs at hc
        · simp at hc
        · rcases List.mem_cons.mp hc with rfl | hc
          · rfl
          · exact hdigit (hfs c hc)
  · rw [NumberText.display, if_neg hx] at hc
    rcases List.mem_append.mp hc with hc | hc
    · exact hsign c hc
    · exact (by decide : ∀ c ∈ ['i', 'n', 'f'], c.utf8Size = 1) c hc

theorem byteSize_scalar (v : Scalar) : byteSize (render_scalar v) = scalar_width v := by
  cases v with
  | Str s =>
      rw [render_scalar, byteSize_cons, byteSize_append, byteSize_escape, scalar_width, Nat.add_comm]
      rfl
  | Num x => exact byteSize_ascii (utf8Size_display x)
  | Bool b => cases b <;> rfl

theorem byteSize_operand (op : CmpOp) (v : QValue) : byteSize (render_operand op v) = operand_width op v := by
  cases v with
  | scalar v =>
      cases v with
      | Str s =>
          rw [render_operand, operand_width]
          split_ifs
          · rw [byteSize_cons, byteSize_append, ← len, Nat.add_comm]
            rfl
          · exact byteSize_scalar (.Str s)
      | Num x => exact byteSize_scalar (.Num x)
      | Bool b => exact byteSize_scalar (.Bool b)
  | List items =>
      have htext : render_operand op (.List items) = sep_text ',' (items.map render_scalar) := by
        rw [render_operand, render_value, render_scalars_eq]
        simp
      rw [htext, byteSize_sep rfl, List.map_map, operand_width]
      congr 3
      funext v
      exact congrArg (· + 1) (byteSize_scalar v)
  | Range lo hi =>
      have htext : render_operand op (.Range lo hi) = render_scalar lo ++ "..".toList ++ render_scalar hi := by
        rw [render_operand, render_value]
        simp
      rw [htext, byteSize_append, byteSize_append, byteSize_scalar, byteSize_scalar, operand_width]
      rfl

theorem byteSize_op (op : CmpOp) : byteSize (render_op op) = op_width op := by cases op <;> rfl

theorem byteSize_link (l : Link) : byteSize (render_link l) = len l.attr + 1 + names_width l.types := by
  rw [render_link, byteSize_append, byteSize_cons, ← len]
  cases ht : l.types with
  | nil => rfl
  | cons t types =>
      rw [if_neg (by simp), byteSize_append, byteSize_join rfl, names_width, List.map_cons, List.sum_cons]
      have hbrace : '{'.utf8Size = 1 := rfl
      have hcolon : byteSize [':'] = 1 := rfl
      omega

theorem byteSize_path (p : QPath) : byteSize (render_path p) = path_width p := by
  obtain ⟨links, path, b⟩ := p
  have hlinks : byteSize (links.flatMap render_link) + links.length =
      (links.map (fun l => len l.attr + 2 + names_width l.types)).sum := by
    induction links with
    | nil => rfl
    | cons l links ih =>
        rw [List.flatMap_cons, byteSize_append, byteSize_link, List.map_cons, List.sum_cons, ← ih, List.length_cons]
        omega
  have hbraces : byteSize (List.replicate links.length '}') = links.length := by
    rw [byteSize_ascii (fun c hc => by rw [List.eq_of_mem_replicate hc]; rfl), List.length_replicate]
  have hbracket : byteSize (render_bracket b) = bracket_width b := by
    cases b with
    | none => rfl
    | some b =>
        rw [render_bracket, byteSize_cons, byteSize_append, byteSize_join rfl, bracket_width]
        have hopen : '['.utf8Size = 1 := rfl
        have hclose : byteSize [']'] = 1 := rfl
        omega
  rw [render_path, path_width, byteSize_append, byteSize_append, byteSize_append, byteSize_join rfl, hbraces, hbracket]
  dsimp only
  omega

theorem byteSize_item_text (n : QNode) : byteSize (item_text n) = byteSize (render n) + (if is_or n then 2 else 0) := by
  rw [item_text]
  cases is_or n with
  | true =>
      rw [parenthesize, if_pos rfl, if_pos rfl, byteSize_cons, byteSize_append]
      have hopen : '('.utf8Size = 1 := rfl
      have hclose : byteSize [')'] = 1 := rfl
      omega
  | false => rfl

theorem byteSize_render (n : QNode) : byteSize (render n) = width n := by
  have hitems {c : Char} (hc : c.utf8Size = 1) {items : List QNode}
      (ih : ∀ n ∈ items, byteSize (render n) = width n) : byteSize (render_items c items) = items_width items - 1 := by
    rw [render_items_eq, byteSize_sep hc, List.map_map]
    congr 1
    induction items with
    | nil => rfl
    | cons n items ihs =>
        rw [List.map_cons, List.sum_cons, ihs (fun m hm => ih m (List.mem_cons_of_mem _ hm)), items_width,
          Function.comp_apply, byteSize_item_text, ih n (by simp)]
  induction n using QNode.induction with
  | and items ih => exact hitems rfl ih
  | or items ih => exact hitems rfl ih
  | cmp path op v =>
      rw [render, byteSize_append, byteSize_append, byteSize_path, byteSize_op, byteSize_operand, width]
  | exist path negated =>
      rw [render, byteSize_append, byteSize_path, width]
      cases negated <;> rfl

end Size

section RoundTrip

theorem reread_scalar_eq_iff (v : Scalar) : reread_scalar v = v ↔ ∀ x, Scalar.Num x = v → is_finite x := by
  cases v with
  | Str s => simp [reread_scalar]
  | Bool b => simp [reread_scalar]
  | Num x =>
      rw [reread_scalar]
      split_ifs with hx
      · simpa using hx
      · simpa using hx

theorem map_eq_self {α : Type} {f : α → α} {xs : List α} : xs.map f = xs ↔ ∀ a ∈ xs, f a = a := by
  induction xs with
  | nil => simp
  | cons a xs ih => simp [ih]

theorem reread_value_eq_iff {op : CmpOp} {v : QValue} (hv : ValueFormed op v) :
    reread_value v = some v ↔ ∀ x, Scalar.Num x ∈ scalars v → is_finite x := by
  cases v with
  | scalar w =>
      rw [reread_value, Option.some.injEq, QValue.scalar.injEq, reread_scalar_eq_iff]
      simp [scalars]
  | List items =>
      rw [reread_value, Option.some.injEq, QValue.List.injEq, map_eq_self, scalars]
      constructor
      · intro h x hx
        exact (reread_scalar_eq_iff _).mp (h _ hx) x rfl
      · intro h w hw
        exact (reread_scalar_eq_iff w).mpr (fun x hx => h x (hx ▸ hw))
  | Range lo hi =>
      rw [reread_value, scalars]
      constructor
      · intro h x hx
        split_ifs at h
        simp only [Option.some.injEq, QValue.Range.injEq, reread_scalar_eq_iff] at h
        simp only [List.mem_cons, List.not_mem_nil, or_false] at hx
        exact hx.elim (h.1 x) (h.2 x)
      · intro h
        have hlo := (reread_scalar_eq_iff lo).mpr (fun x hx => h x (by simp [hx]))
        have hhi := (reread_scalar_eq_iff hi).mpr (fun x hx => h x (by simp [hx]))
        rw [hlo, hhi, if_pos hv.2]

theorem mapM_eq_self {α : Type} {f : α → Option α} {xs : List α} :
    xs.mapM f = some xs ↔ ∀ a ∈ xs, f a = some a := by
  induction xs with
  | nil => simp
  | cons a xs ih =>
      rw [List.mapM_cons, List.forall_mem_cons, ← ih]
      cases f a with
      | none => simp
      | some b => cases xs.mapM f <;> simp

/-- A tree without nested `And` is reread as it is exactly when its nodes are kept. -/
theorem reread_eq_iff {depth : Nat} {n : QNode} (h : Formed depth n) (hflat : All Flat n) :
    reread n = some n ↔ All Kept n := by
  induction h with
  | @and depth items _ _ _ ih =>
      obtain ⟨hno, hall⟩ := all_and.mp hflat
      rw [reread, reread_items_eq, all_and]
      simp only [Option.map_eq_some_iff, QNode.And.injEq, exists_eq_right, mapM_eq_self]
      exact ⟨fun hr => ⟨hno, fun n hn => (ih n hn (hall n hn)).mp (hr n hn)⟩,
        fun hk n hn => (ih n hn (hall n hn)).mpr (hk.2 n hn)⟩
  | @or depth items _ _ _ ih =>
      have hall := (all_or.mp hflat).2
      rw [reread, reread_items_eq, all_or]
      simp only [Option.map_eq_some_iff, QNode.Or.injEq, exists_eq_right, mapM_eq_self]
      exact ⟨fun hr => ⟨trivial, fun n hn => (ih n hn (hall n hn)).mp (hr n hn)⟩,
        fun hk n hn => (ih n hn (hall n hn)).mpr (hk.2 n hn)⟩
  | @cmp depth path op v hp hv =>
      rw [reread, reread_leaf, All, Kept, ← reread_value_eq_iff hv]
      split_ifs with hk
      · simp [hk]
      · simp [hk]
  | @exist depth path negated hp =>
      rw [reread, reread_leaf, All, Kept]
      split_ifs with hk
      · simp [hk]
      · simp [hk]

theorem All.imp {P Q : QNode → Prop} (hpq : ∀ n, P n → Q n) {n : QNode} (h : All P n) : All Q n := by
  induction n using QNode.induction with
  | and items ih => exact all_and.mpr ⟨hpq _ (all_and.mp h).1, fun n hn => ih n hn ((all_and.mp h).2 n hn)⟩
  | or items ih => exact all_or.mpr ⟨hpq _ (all_or.mp h).1, fun n hn => ih n hn ((all_or.mp h).2 n hn)⟩
  | cmp path op v => exact hpq _ h
  | exist path negated => exact hpq _ h

theorem flat_of_kept (n : QNode) (h : Kept n) : Flat n := by
  cases n with
  | And items => exact h
  | Or items => trivial
  | Cmp path op v => trivial
  | Exists path negated => trivial

theorem render_head {depth : Nat} {n : QNode} (h : Formed depth n) :
    ∃ c s, render n = c :: s ∧ is_whitespace c = false := by
  have hitems {c : Char} {items : List QNode} (htwo : 2 ≤ items.length)
      (ih : ∀ n ∈ items, ∃ c s, render n = c :: s ∧ is_whitespace c = false) :
      ∃ d s, render_items c items = d :: s ∧ is_whitespace d = false := by
    cases items with
    | nil => simp at htwo
    | cons n items =>
        obtain ⟨d, s, hs, hd⟩ := ih n (by simp)
        rw [render_items, hs]
        cases is_or n with
        | true => exact ⟨'(', _, rfl, by decide⟩
        | false => exact ⟨d, _, rfl, hd⟩
  induction h with
  | and htwo _ _ ih => exact hitems htwo ih
  | or htwo _ _ ih => exact hitems htwo ih
  | @cmp depth path op v hp hv =>
      obtain ⟨c, s, hs, -, hc⟩ := render_path_head hp (render_op op ++ render_operand op v)
      exact ⟨c, s, by rw [render, List.append_assoc, hs], hc⟩
  | @exist depth path negated hp =>
      obtain ⟨c, s, hs, -, hc⟩ := render_path_head hp []
      rw [List.append_nil] at hs
      cases negated with
      | true => exact ⟨'!', _, rfl, by decide⟩
      | false => exact ⟨c, s, hs, hc⟩

/-- The blanks at the ends of a rendering are the blanks at the end of its last name. -/
theorem trim_render {depth : Nat} {n : QNode} (h : Formed depth n) : trim (render n) = render (flatten (trim_last n)) := by
  obtain ⟨c, s, hs, hc⟩ := render_head h
  have hstart : trim_start (render n) = render n := trim_start_of_head (fun d hd => by
    rw [hs, List.head?_cons, Option.mem_def, Option.some.injEq] at hd
    exact hd ▸ hc)
  rw [trim, hstart, (trims h).1, (flatten_spec (formed_trim_last h)).2]

/-- What the grammar reads in the rendering of a tree it has built, once the
blanks at the ends of the text are cut off. -/
theorem or_expr_render {depth : Nat} {n : QNode} (h : Formed depth n) (hq : All Unquoted n) :
    (or_expr depth (trim (render n))).toOption = (reread (flatten (trim_last n))).map (·, []) := by
  have htrimmed : All Unquoted (trim_last n) :=
    all_trim_last (fun _ => trivial) (fun _ => trivial) (fun _ _ => trivial) hq
  have hunq : All Unquoted (flatten (trim_last n)) := all_flatten (fun _ => trivial) (fun _ => trivial) htrimmed
  have hread := (readable _ (flat_flatten _) hunq).or_expr _ (flatten_spec (formed_trim_last h)).1 [] (stop_nil _)
  rw [trim_render h]
  simpa using hread

theorem parse_q_formed {s : String} {n : QNode} (h : parse_q s = .ok n) :
    Formed MAX_Q_DEPTH n ∧ q_nodes n ≤ MAX_Q_NODES := by
  unfold parse_q at h
  split_ifs at h with hlen
  obtain ⟨⟨m, rest⟩, hm, h⟩ := bind_eq_ok.mp h
  dsimp only at h
  split_ifs at h with hrest hnodes
  · exact absurd h bad_ne_ok
  · injection h with h
    exact ⟨h ▸ or_expr_formed hm, h ▸ not_lt.mp hnodes⟩

/-- The whole parser on the rendering of a tree it has built. -/
theorem parse_q_render {n : QNode} (h : Formed MAX_Q_DEPTH n) (hnodes : q_nodes n ≤ MAX_Q_NODES)
    (hq : All Unquoted n) :
    (parse_q (to_string n)).toOption =
      if MAX_Q_BYTES < width n then none else reread (flatten (trim_last n)) := by
  have hlen : len (to_string n) = width n := by
    rw [len, to_string, String.toList_ofList, byteSize_render]
  rw [parse_q, hlen]
  split_ifs with hw
  · rfl
  · have hread := or_expr_render h hq
    rw [toOption_bind, to_string, String.toList_ofList, hread]
    cases hm : reread (flatten (trim_last n)) with
    | none => rfl
    | some m =>
        have hle : q_nodes m ≤ MAX_Q_NODES :=
          calc q_nodes m = q_nodes (flatten (trim_last n)) := (reread_shape hm).2.1
            _ ≤ q_nodes (trim_last n) := q_nodes_flatten _
            _ = q_nodes n := q_nodes_trim_last n
            _ ≤ MAX_Q_NODES := hnodes
        simp [not_lt.mpr hle, Except.toOption]

theorem reread_flatten_trim_iff {n : QNode} (h : Formed MAX_Q_DEPTH n) :
    reread (flatten (trim_last n)) = some n ↔ All Kept n ∧ EndKept n := by
  have hf := formed_trim_last h
  constructor
  · intro hr
    obtain ⟨hname, -, hflat⟩ := reread_shape hr
    have hflat : All Flat n := hflat (flat_flatten _)
    have hend : EndKept n := fun name hn => by
      rw [last_name_flatten hf, last_name_trim_last h, hn] at hname
      rw [Option.map_some, Option.some.injEq] at hname
      exact trim_name_eq_iff.mp hname.symm
    rw [trim_last_of_end_kept h hend, flatten_of_flat hflat] at hr
    exact ⟨(reread_eq_iff h hflat).mp hr, hend⟩
  · rintro ⟨hk, hend⟩
    have hflat : All Flat n := hk.imp flat_of_kept
    rw [trim_last_of_end_kept h hend, flatten_of_flat hflat]
    exact (reread_eq_iff h hflat).mpr hk

/-- A parsed expression without quotes in its patterns is what the parser reads in
its rendering exactly when every node is kept, no blank ends the last name of the
text, and the text is within the limit. -/
theorem render_round_trip (s : String) (n : QNode) (hs : parse_q s = .ok n) (hq : All Unquoted n) :
    parse_q (to_string n) = .ok n ↔ All Kept n ∧ EndKept n ∧ width n ≤ MAX_Q_BYTES := by
  obtain ⟨hf, hnodes⟩ := parse_q_formed hs
  have hoption : parse_q (to_string n) = .ok n ↔ (parse_q (to_string n)).toOption = some n :=
    ⟨fun h => by rw [h]; rfl, ok_of_toOption⟩
  rw [hoption, parse_q_render hf hnodes hq, ← and_assoc, ← reread_flatten_trim_iff hf, Option.ite_none_left_eq_some,
    not_lt, and_comm]

def named (name : String) : QPath := ⟨[], [name], none⟩

theorem render_round_trip_and :
    parse_q "a ==\"x\";! b" = .ok (.And [.Cmp (named "a") .Eq (.scalar (.Str "x")), .Exists (named "b") true]) ∧
      parse_q (to_string (.And [.Cmp (named "a") .Eq (.scalar (.Str "x")), .Exists (named "b") true])) =
        .ok (.And [.Cmp (named "a") .Eq (.scalar (.Str "x")), .Exists (named "b") true]) := by
  have hs : parse_q "a ==\"x\";! b" =
      .ok (.And [.Cmp (named "a") .Eq (.scalar (.Str "x")), .Exists (named "b") true]) := by decide +kernel
  refine ⟨hs, (render_round_trip _ _ hs ?_).mpr ⟨?_, ?_, ?_⟩⟩
  · simp [All, AllItems, Unquoted, CmpOp.regexp]
  · simp [All, AllItems, Kept, is_and, PathKept, named, scalars]
  · simp [EndKept, last_name, last_item_name, is_or, named, Unblanked]
    decide
  · decide

/-- An `And` in an `And` loses its parentheses. -/
theorem render_merges_and :
    ∃ n m, parse_q "(a;b);c" = .ok n ∧ All Unquoted n ∧ parse_q (to_string n) = .ok m ∧ m ≠ n :=
  ⟨.And [.And [.Exists (named "a") false, .Exists (named "b") false], .Exists (named "c") false],
    .And [.Exists (named "a") false, .Exists (named "b") false, .Exists (named "c") false],
    by decide +kernel, by simp [All, AllItems, Unquoted], by decide +kernel, by decide⟩

end RoundTrip

end AntaresBroker.Ql
