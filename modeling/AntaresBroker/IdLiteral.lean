import AntaresBroker.RegexSyntax
import Mathlib.Data.List.Infix

namespace AntaresBroker.Filter

open Regex RegexSyntax

/-- The characters every match of a pattern carries: at its start, or somewhere. -/
structure IdLiteral where
  text : String
  anchored : Bool
deriving DecidableEq

def SPECIAL : List Char := ".^$*+?()[]\x7b\x7d|\\".toList

def QUANTIFIERS : List Char := ['*', '+', '?', '\x7b']

/-- A leading anchor, taken off. -/
def strip_anchor : List Char → List Char × Bool
  | '^' :: rest => (rest, true)
  | s => (s, false)

/-- The ordinary characters a text begins with, and what stops them. -/
def run_of (body : List Char) : List Char := body.takeWhile (fun c => !SPECIAL.contains c)

def rest_of (body : List Char) : List Char := body.dropWhile (fun c => !SPECIAL.contains c)

/-- A quantifier stands behind the run. -/
def quantified (body : List Char) : Bool := (rest_of body).head?.any QUANTIFIERS.contains

/-- A quantifier applies to the last character before it, which is then not required. -/
def id_pattern_literal (pattern : String) : Option IdLiteral :=
  if pattern.toList.contains '|' then none
  else
    let (body, anchored) := strip_anchor pattern.toList
    if quantified body && (run_of body).isEmpty then none
    else
      let text := if quantified body then (run_of body).dropLast else run_of body
      if text = [] then none else some ⟨String.ofList text, anchored⟩

def IdLiteral.Allows (l : IdLiteral) (id : String) : Prop :=
  if l.anchored then l.text.toList <+: id.toList else l.text.toList <:+: id.toList

/-- Where a repetition may come next. -/
def Repeats : Mode → Prop
  | .plain | .repeated _ | .boundary | .counted _ _ | .comment => True
  | _ => False

/-- The pattern begins with these items, and no repetition will reach them. -/
structure Steady (base : List Item) (s : State) : Prop where
  based : s.groups.Based base
  beyond : Repeats s.mode → s.groups.Beyond base

section Steps

variable {t : Tables} {base : List Item} {s s' : State} {c : Char}

theorem steady_of_beyond (h : s.groups.Beyond base) : Steady base s := ⟨h.based, fun _ => h⟩

theorem steady_item (h : s.groups.Based base) (r : Re) : Steady base (s.item r) := steady_of_beyond (h.push _)

theorem steady_go (h : s.groups.Based base) {mode : Mode} (hm : ¬ Repeats mode) : Steady base (s.go mode) :=
  ⟨h, fun hr => absurd hr hm⟩

theorem steady_repeat (h : s.groups.Beyond base) {counted : Bool} {f : Re → Re}
    (hr : s.repeat_last counted f = some s') : Steady base s' := by
  obtain ⟨g, hg, rfl⟩ := Option.map_eq_some_iff.mp hr
  exact steady_of_beyond (h.modify hg)

theorem steady_close (h : s.groups.Based base) (hr : s.close_group = some s') : Steady base s' := by
  unfold State.close_group at hr
  split at hr
  · exact nomatch hr
  · obtain ⟨g, hg, rfl⟩ := Option.map_eq_some_iff.mp hr
    exact steady_of_beyond (h.closing hg)

theorem steady_open (h : s.groups.Based base) (flags : Flags) : Steady base (s.open_group flags) :=
  steady_of_beyond h.opening

/-- Outside a repetition a character cannot take the last item back. -/
theorem read_plain_steady (h : s.groups.Based base) (hc : c ≠ '|')
    (hrep : s.groups.Beyond base ∨ (s.verbose = false ∧ c ∉ QUANTIFIERS)) (hr : read_plain t s c = some s') :
    Steady base s' := by
  have hquant (hq : c ∈ QUANTIFIERS) : s.groups.Beyond base := hrep.resolve_right (fun hn => hn.2 hq)
  have hverbose (hv : s.verbose = true) : s.groups.Beyond base :=
    hrep.resolve_right (fun hn => Bool.false_ne_true (hn.1.symm.trans hv))
  unfold read_plain at hr
  split_ifs at hr with hspace hremark
  · obtain rfl := Option.some.inj hr
    exact steady_of_beyond (hverbose (Bool.and_eq_true_iff.mp hspace).1)
  · obtain rfl := Option.some.inj hr
    exact steady_of_beyond (hverbose (Bool.and_eq_true_iff.mp hremark).1)
  · split at hr
    · obtain rfl := Option.some.inj hr
      exact steady_go h id
    · obtain rfl := Option.some.inj hr
      exact steady_go h id
    · obtain rfl := Option.some.inj hr
      exact steady_go h id
    · exact steady_close h hr
    · exact absurd rfl hc
    · exact steady_repeat (hquant (by decide)) hr
    · exact steady_repeat (hquant (by decide)) hr
    · exact steady_repeat (hquant (by decide)) hr
    · obtain rfl := Option.some.inj hr
      exact steady_of_beyond (hquant (by decide))
    · obtain rfl := Option.some.inj hr
      exact steady_item h _
    · obtain rfl := Option.some.inj hr
      exact steady_item h _
    · obtain rfl := Option.some.inj hr
      exact steady_item h _
    · obtain rfl := Option.some.inj hr
      exact steady_item h _

theorem read_counted_steady (h : s.groups.Beyond base) {text : List Char} {boundary : Bool}
    (hr : read_counted t s text boundary c = some s') : Steady base s' := by
  unfold read_counted at hr
  by_cases hend : c = '\x7d'
  · rw [if_pos hend] at hr
    split at hr
    · obtain ⟨s₁, hs₁, rfl⟩ := Option.map_eq_some_iff.mp hr
      exact steady_of_beyond ((steady_repeat h hs₁).beyond (by
        obtain ⟨g, -, rfl⟩ := Option.map_eq_some_iff.mp hs₁
        exact trivial))
    · obtain ⟨⟨lo, hi⟩, -, hs₁⟩ := Option.bind_eq_some_iff.mp hr
      exact steady_repeat h hs₁
  · rw [if_neg hend] at hr
    obtain rfl := Option.some.inj hr
    exact steady_of_beyond h

theorem read_escaped_steady (h : s.groups.Based base) (hr : read_escaped t s c = some s') : Steady base s' := by
  unfold read_escaped at hr
  split at hr
  all_goals first
    | (obtain rfl := Option.some.inj hr
       first
         | exact steady_item h _
         | exact steady_go h id
         | exact steady_of_beyond (h.push _))
    | skip
  split at hr
  · obtain rfl := Option.some.inj hr
    exact steady_item h _
  · split_ifs at hr
    obtain rfl := Option.some.inj hr
    exact steady_item h _

theorem read_digits_steady (h : s.groups.Based base) {text : List Char} {left : Nat}
    (hr : read_digits t s text left = some s') : Steady base s' := by
  unfold read_digits at hr
  split at hr
  · obtain ⟨d, -, rfl⟩ := Option.map_eq_some_iff.mp hr
    exact steady_item h _
  · obtain rfl := Option.some.inj hr
    exact steady_go h id

theorem read_set_steady (h : s.groups.Based base) {depth : Nat} {phase : Phase} {text : List Char}
    (hr : read_set t s depth phase text c = some s') : Steady base s' := by
  unfold read_set at hr
  split at hr
  · obtain rfl := Option.some.inj hr
    exact steady_go h id
  · obtain rfl := Option.some.inj hr
    exact steady_go h id
  · split_ifs at hr <;> (obtain rfl := Option.some.inj hr; exact steady_go h id)
  · split_ifs at hr with hremark hescaped hopen hclose hlast
    · obtain rfl := Option.some.inj hr
      exact steady_go h id
    · obtain rfl := Option.some.inj hr
      exact steady_go h id
    · obtain rfl := Option.some.inj hr
      exact steady_go h id
    · obtain ⟨set, -, rfl⟩ := Option.map_eq_some_iff.mp hr
      exact steady_item h _
    · obtain rfl := Option.some.inj hr
      exact steady_go h id
    · obtain rfl := Option.some.inj hr
      exact steady_go h id

theorem read_flags_steady (h : s.groups.Based base) {flags : Flags} {on any : Bool}
    (hr : read_flags s flags on any c = some s') : Steady base s' := by
  unfold read_flags at hr
  split_ifs at hr
  · obtain rfl := Option.some.inj hr
    exact steady_open h _
  · obtain rfl := Option.some.inj hr
    exact steady_of_beyond (h.push _)
  · obtain rfl := Option.some.inj hr
    exact steady_go h id
  · obtain rfl := Option.some.inj hr
    exact steady_go h id

/-- One character of a pattern without alternatives. -/
theorem read_char_steady (h : Steady base s) (hc : c ≠ '|') (hr : read_char t s c = some s') : Steady base s' := by
  have hplain (hm : Repeats s.mode) (hr : read_plain t s c = some s') : Steady base s' :=
    read_plain_steady h.based hc (Or.inl (h.beyond hm)) hr
  unfold read_char at hr
  split at hr <;> rename_i hmode <;> rw [hmode] at hplain
  · exact hplain trivial hr
  · split_ifs at hr
    · obtain rfl := Option.some.inj hr
      exact steady_of_beyond (h.beyond (hmode ▸ trivial))
    · obtain rfl := Option.some.inj hr
      exact h
    · exact hplain trivial hr
  · split_ifs at hr
    · obtain rfl := Option.some.inj hr
      exact steady_of_beyond (h.beyond (hmode ▸ trivial))
    · exact hplain trivial hr
  · exact read_counted_steady (h.beyond (hmode ▸ trivial)) hr
  · obtain rfl := Option.some.inj hr
    exact steady_of_beyond (h.beyond (hmode ▸ trivial))
  · exact read_escaped_steady h.based hr
  · split_ifs at hr
    · obtain rfl := Option.some.inj hr
      exact steady_go h.based id
    · exact read_digits_steady h.based hr
  · exact read_digits_steady h.based hr
  · split_ifs at hr
    · obtain ⟨d, -, rfl⟩ := Option.map_eq_some_iff.mp hr
      exact steady_item h.based _
    · obtain rfl := Option.some.inj hr
      exact steady_go h.based id
  · split_ifs at hr
    · obtain rfl := Option.some.inj hr
      exact steady_go h.based id
    · obtain ⟨set, -, rfl⟩ := Option.map_eq_some_iff.mp hr
      exact steady_item h.based _
  · split_ifs at hr
    · obtain ⟨set, -, rfl⟩ := Option.map_eq_some_iff.mp hr
      exact steady_item h.based _
    · obtain rfl := Option.some.inj hr
      exact steady_go h.based id
  · exact read_set_steady h.based hr
  · obtain rfl := Option.some.inj hr
    exact steady_go h.based id
  · split_ifs at hr
    · obtain rfl := Option.some.inj hr
      exact steady_go h.based id
    · obtain rfl := Option.some.inj hr
      exact h
    · obtain rfl := Option.some.inj hr
      exact steady_go h.based id
    · exact read_plain_steady h.based.opening.based hc (Or.inl h.based.opening) hr
  · split_ifs at hr
    · obtain rfl := Option.some.inj hr
      exact steady_go h.based id
    · obtain rfl := Option.some.inj hr
      exact steady_go h.based id
    · exact read_flags_steady h.based hr
  · split_ifs at hr
    obtain rfl := Option.some.inj hr
    exact steady_go h.based id
  · split_ifs at hr
    obtain rfl := Option.some.inj hr
    exact steady_go h.based id
  · split_ifs at hr
    · obtain rfl := Option.some.inj hr
      exact steady_open h.based _
    · obtain rfl := Option.some.inj hr
      exact h
  · exact read_flags_steady h.based hr

theorem reads_steady {cs : List Char} (h : Steady base s) (hc : '|' ∉ cs) (hr : cs.foldlM (read_char t) s = some s') :
    Steady base s' := by
  induction cs generalizing s with
  | nil => exact Option.some.inj hr ▸ h
  | cons c cs ih =>
      rw [List.foldlM_cons] at hr
      obtain ⟨s₁, hs₁, hr⟩ := Option.bind_eq_some_iff.mp hr
      rw [List.mem_cons, not_or] at hc
      exact ih (read_char_steady h (Ne.symm hc.1) hs₁) hc.2 hr

end Steps

section Literal

variable {t : Tables}

/-- The reader behind these items of the whole text. -/
def behind (items : List Item) : State := ⟨.plain, Flags.default, [], ⟨⟨[], items.reverse⟩, []⟩⟩

theorem behind_item (items : List Item) (r : Re) : (behind items).item r = behind (items ++ [.expr r]) := by
  unfold behind
  rw [List.reverse_append]
  rfl

theorem read_ordinary (items : List Item) {c : Char} (hc : SPECIAL.contains c = false) :
    read_char t (behind items) c = some (behind (items ++ [.expr (.char c)])) := by
  have hread : read_char t (behind items) c = some ((behind items).item (.char c)) := by
    unfold read_char behind
    dsimp only
    unfold read_plain
    rw [if_neg (by simp [State.verbose, Flags.default]), if_neg (by simp [State.verbose, Flags.default])]
    split <;> first | rfl | exact absurd hc (by decide)
  rw [hread, behind_item]

theorem read_hat (items : List Item) : read_char t (behind items) '^' = some (behind (items ++ [.expr .bol])) := by
  have hread : read_char t (behind items) '^' = some ((behind items).item .bol) := by
    unfold read_char behind
    dsimp only
    unfold read_plain
    rw [if_neg (by simp [State.verbose, Flags.default]), if_neg (by simp [State.verbose, Flags.default])]
    rfl
  rw [hread, behind_item]

theorem reads_ordinary (items : List Item) {cs : List Char} (hcs : ∀ c ∈ cs, SPECIAL.contains c = false) :
    cs.foldlM (read_char t) (behind items) = some (behind (items ++ cs.map (fun c => .expr (.char c)))) := by
  induction cs generalizing items with
  | nil => rw [List.map_nil, List.append_nil]; rfl
  | cons c cs ih =>
      obtain ⟨hc, hcs⟩ := List.forall_mem_cons.mp hcs
      have hrest := ih (items ++ [.expr (.char c)]) hcs
      rw [List.append_assoc, List.singleton_append] at hrest
      rw [List.foldlM_cons, read_ordinary items hc, List.map_cons]
      exact hrest

theorem based_behind (items more : List Item) : (behind (items ++ more)).groups.Based items :=
  ⟨more.reverse, by rw [behind, List.reverse_append]; rfl⟩

/-- The items a quantifier behind them leaves alone. -/
def forced (items : List Item) (rest : List Char) : List Item :=
  if rest.head?.any QUANTIFIERS.contains then items.dropLast else items

theorem reads_rest {items : List Item} {rest : List Char} {s : State} (hbar : '|' ∉ rest)
    (hne : rest.head?.any QUANTIFIERS.contains = true → items ≠ [])
    (hr : rest.foldlM (read_char t) (behind items) = some s) : s.groups.Based (forced items rest) := by
  unfold forced
  cases rest with
  | nil =>
      obtain rfl := Option.some.inj hr
      have hbased := based_behind items []
      rwa [List.append_nil] at hbased
  | cons c rest =>
      split_ifs with hquant
      · have hsplit := List.dropLast_concat_getLast (hne hquant)
        rw [← hsplit] at hr
        have hbeyond : (behind (items.dropLast ++ [items.getLast (hne hquant)])).groups.Beyond items.dropLast :=
          ⟨[items.getLast (hne hquant)], by rw [behind, List.reverse_append]; rfl, fun _ => List.cons_ne_nil _ _⟩
        exact (reads_steady (steady_of_beyond hbeyond) hbar hr).based
      · rw [List.foldlM_cons] at hr
        obtain ⟨s₁, hs₁, hr⟩ := Option.bind_eq_some_iff.mp hr
        rw [List.mem_cons, not_or] at hbar
        have hbased := based_behind items []
        rw [List.append_nil] at hbased
        have hplain : read_plain t (behind items) c = some s₁ := hs₁
        have hfirst := read_plain_steady hbased (Ne.symm hbar.1)
          (Or.inr ⟨by simp [behind, State.verbose, Flags.default], by simpa using hquant⟩) hplain
        exact (reads_steady hfirst hbar.2 hr).based

theorem based_of_parse {items : List Item} {cs rest : List Char} {r : Re}
    (hcs : cs.foldlM (read_char t) State.start = some (behind items)) (hbar : '|' ∉ rest)
    (hne : rest.head?.any QUANTIFIERS.contains = true → items ≠ []) (hr : parse t (cs ++ rest) = some r) :
    ∃ rs, r = Re.seq ((forced items rest).map Item.re ++ rs) := by
  rw [parse, List.foldlM_append, hcs] at hr
  obtain ⟨s, hs, hfinish⟩ := Option.bind_eq_some_iff.mp hr
  have hbased := reads_rest hbar hne hs
  have hclose : s.groups.finish = some r := by
    revert hfinish
    split <;> first | exact id | exact nofun
  exact hbased.finish hclose

theorem run_ordinary (body : List Char) : ∀ c ∈ run_of body, SPECIAL.contains c = false := by
  intro c hc
  simpa using List.mem_takeWhile_imp hc

theorem matches_literal {text : List Char} {rs : List Re} {s : List Char}
    (h : Finds (Re.seq (text.map Re.char ++ rs)) s) : text <:+: s := by
  obtain ⟨a, m, b, rfl, hm⟩ := h
  obtain ⟨n, rfl⟩ := Matches.of_literal hm
  exact ⟨a, n ++ b, by simp⟩

theorem matches_anchored {text : List Char} {rs : List Re} {s : List Char}
    (h : Finds (Re.seq (.bol :: (text.map Re.char ++ rs))) s) : text <+: s := by
  obtain ⟨a, m, b, rfl, hm⟩ := h
  obtain ⟨m₁, m₂, rfl, hbol, hrest⟩ := Matches.cat_iff.mp hm
  obtain ⟨rfl, hstart⟩ := Matches.look_iff.mp hbol
  obtain rfl := List.isEmpty_iff.mp hstart
  obtain ⟨n, rfl⟩ := Matches.of_literal hrest
  exact ⟨n ++ b, by simp⟩

theorem forced_map (hat : List Item) {run rest : List Char} (hne : rest.head?.any QUANTIFIERS.contains = true → run ≠ []) :
    forced (hat ++ run.map (fun c => .expr (.char c))) rest =
      hat ++ (if rest.head?.any QUANTIFIERS.contains then run.dropLast else run).map (fun c => .expr (.char c)) := by
  unfold forced
  split_ifs with hquant
  · rw [List.dropLast_append_of_ne_nil (by simpa using hne hquant), List.map_dropLast]
  · rfl

theorem strip_anchor_eq (s : List Char) : s = (if (strip_anchor s).2 then ['^'] else []) ++ (strip_anchor s).1 := by
  unfold strip_anchor
  split <;> rfl

/-- How the literal was read off the pattern. -/
theorem id_pattern_literal_some {pattern : String} {l : IdLiteral} (hl : id_pattern_literal pattern = some l) :
    '|' ∉ pattern.toList ∧ ∃ body, pattern.toList = (if l.anchored then ['^'] else []) ++ body ∧
      (quantified body = true → run_of body ≠ []) ∧
      l.text.toList = if quantified body then (run_of body).dropLast else run_of body := by
  have hpattern := strip_anchor_eq pattern.toList
  unfold id_pattern_literal at hl
  split_ifs at hl with hbar
  generalize strip_anchor pattern.toList = stripped at hl hpattern
  obtain ⟨body, anchored⟩ := stripped
  dsimp only at hl
  by_cases hnone : (quantified body && (run_of body).isEmpty) = true
  · rw [if_pos hnone] at hl
    exact nomatch hl
  · rw [if_neg hnone] at hl
    refine ⟨fun hin => hbar (List.contains_iff_mem.mpr hin), body, ?_⟩
    generalize (if quantified body then (run_of body).dropLast else run_of body) = text at hl ⊢
    split_ifs at hl with hempty
    obtain rfl := Option.some.inj hl
    refine ⟨hpattern, fun hq hrun => hnone ?_, String.toList_ofList⟩
    rw [hq, hrun]
    rfl

/-- Every id that a pattern matches carries the literal taken from the pattern. -/
theorem id_pattern_literal_required (t : Tables) {pattern id : String} {l : IdLiteral} {r : Re}
    (hl : id_pattern_literal pattern = some l) (hr : parse t pattern.toList = some r) (hid : Finds r id.toList) :
    l.Allows id := by
  obtain ⟨hbar, body, hpattern, hne, htext⟩ := id_pattern_literal_some hl
  have hsplit : run_of body ++ rest_of body = body := List.takeWhile_append_dropWhile
  have hrest : '|' ∉ rest_of body := by
    intro hin
    refine hbar ?_
    rw [hpattern, ← hsplit]
    simp [hin]
  have hrun := run_ordinary body
  rw [hpattern, ← hsplit, ← List.append_assoc] at hr
  unfold IdLiteral.Allows
  rw [htext]
  cases hanchor : l.anchored with
  | true =>
      rw [hanchor, if_pos rfl] at hr
      have hread : (['^'] ++ run_of body).foldlM (read_char t) State.start =
          some (behind ([.expr .bol] ++ (run_of body).map (fun c => .expr (.char c)))) := by
        have hhat : ['^'].foldlM (read_char t) (behind []) = some (behind [.expr .bol]) := by
          rw [List.foldlM_cons, read_hat]
          rfl
        rw [List.foldlM_append, show State.start = behind [] from rfl, hhat]
        exact reads_ordinary [.expr .bol] hrun
      obtain ⟨rs, rfl⟩ := based_of_parse hread hrest (fun _ => List.cons_ne_nil _ _) hr
      rw [forced_map [.expr .bol] hne, List.map_append, List.map_map] at hid
      exact matches_anchored hid
  | false =>
      rw [hanchor, if_neg Bool.false_ne_true] at hr
      have hread : ([] ++ run_of body).foldlM (read_char t) State.start =
          some (behind ([] ++ (run_of body).map (fun c => .expr (.char c)))) := reads_ordinary [] hrun
      obtain ⟨rs, rfl⟩ := based_of_parse hread hrest (fun hq => by simpa using hne hq) hr
      rw [forced_map [] hne, List.nil_append, List.map_map] at hid
      exact matches_literal hid

/-- The tables of the engine on ASCII, without classes. -/
def ascii : Tables where
  white_space c := c.isWhitespace
  alphabetic c := c.isAlpha
  alphanumeric c := c.isAlphanum
  perl _ c :=
    match c with
    | 'd' => some Char.isDigit
    | 's' => some Char.isWhitespace
    | 'w' => some (fun c => c.isAlphanum || c = '_')
    | _ => none
  property _ _ := none
  folds _ c d := c.toLower = d.toLower
  class_set _ _ := none

theorem id_pattern_literal_required_optional :
    ∃ l, id_pattern_literal "^urn?:" = some l ∧ l.text = "ur" ∧ l.Allows "ur:x" := by
  have hl : id_pattern_literal "^urn?:" = some ⟨"ur", true⟩ := by decide
  have hread : parse ascii "^urn?:".toList =
      some (Re.seq [.bol, .char 'u', .char 'r', (Re.char 'n').opt, .char ':']) := rfl
  have hmatch : Matches (Re.seq [.bol, .char 'u', .char 'r', (Re.char 'n').opt, .char ':']) []
      ([] ++ (['u'] ++ (['r'] ++ ([] ++ ([':'] ++ []))))) ['x'] :=
    .cat Matches.bol_start (.cat Matches.char_self (.cat Matches.char_self
      (.cat Matches.opt_none (.cat Matches.char_self .empty))))
  exact ⟨_, hl, rfl, id_pattern_literal_required ascii hl hread ⟨[], _, ['x'], rfl, hmatch⟩⟩

end Literal

end AntaresBroker.Filter
