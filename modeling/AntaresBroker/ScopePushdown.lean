import AntaresBroker.Ere
import AntaresBroker.ScopeQ

namespace AntaresBroker.Ql.Scope

open Json Text Regex Ere

section Compile

/-- What follows the leading slashes; a separator stands before every level but the first. -/
def pattern_tail (first : Bool) : List (List Char) → Option (List Char)
  | [] => some "/*$".toList
  | seg :: segs =>
      if seg = ['#'] then (if segs = [] then some "(/+.*)?/*$".toList else none)
      else (pattern_tail false segs).map (fun tail =>
        (if first then [] else "/+".toList) ++ ((if seg = ['+'] then "[^/]+".toList else escape seg) ++ tail))

/-- One scope pattern as an anchored expression over a stored scope; none for a
`#` that is not at the end. -/
def pattern_regex (pat : List Char) : Option (List Char) :=
  let segs := segments pat
  if segs = [] ∨ segs = [['#']] then some "^.*$".toList else (pattern_tail true segs).map ("^/*".toList ++ ·)

/-- A disjunction of conjunctions of `EXISTS (SELECT 1 FROM unnest(col) AS s WHERE s ~ $n)`,
each by the number of its placeholder. -/
structure CompiledScope where
  sql : List (List Nat)
  binds : List String

def compile_patterns (first_bind : Nat) : List (List Char) → List String → Option (List Nat × List String)
  | [], binds => some ([], binds)
  | pat :: pats, binds =>
      (pattern_regex (trim pat)).bind fun re =>
        (compile_patterns first_bind pats (binds ++ [String.ofList re])).map fun r => ((first_bind + binds.length) :: r.1, r.2)

def compile_groups (first_bind : Nat) : List (List Char) → List String → Option (List (List Nat) × List String)
  | [], binds => some ([], binds)
  | and_group :: and_groups, binds =>
      (compile_patterns first_bind ((strip_parens (trim and_group)).splitOn ';') binds).bind fun (and_parts, binds) =>
        if and_parts = [] then none
        else (compile_groups first_bind and_groups binds).map fun r => (and_parts :: r.1, r.2)

/-- None for what the caller has to filter in memory. -/
def compile_scope_q (scope_q : String) (first_bind : Nat) : Option CompiledScope :=
  if MAX_SCOPE_Q_BYTES < len scope_q ∨ '\x00' ∈ scope_q.toList then none
  else (compile_groups first_bind (alternatives scope_q) []).bind fun (or_parts, binds) =>
    if or_parts = [] then none else some ⟨or_parts, binds⟩

end Compile

section Meaning

variable (first_bind : Nat) (binds : List String) (scopes : List String)

/-- Some scope matches what the placeholder is bound to. -/
def SomeScope (n : Nat) : Prop := first_bind ≤ n ∧ ∃ re ∈ binds[n - first_bind]?, ∃ s ∈ scopes, matches_ere s re

def CompiledScope.Holds (c : CompiledScope) : Prop := ∃ and_parts ∈ c.sql, ∀ n ∈ and_parts, SomeScope first_bind c.binds scopes n

end Meaning

section Segments

theorem segments_slash (s : List Char) : segments ('/' :: s) = segments s := by
  rw [segments, List.splitOn_cons_eq_if_modifyHead, if_pos (by decide), List.filter_cons_of_neg (by simp), segments]

/-- The piece before the first separator, and the segments of what comes after it. -/
theorem splitOn_slash (s : List Char) :
    ∃ ps, s.splitOn '/' = s.takeWhile (· ≠ '/') :: ps ∧ ps.filter (· ≠ []) = segments (s.dropWhile (· ≠ '/')) := by
  induction s with
  | nil => exact ⟨[], rfl, rfl⟩
  | cons c s ih =>
      by_cases hc : c = '/'
      · subst hc
        refine ⟨s.splitOn '/', ?_, ?_⟩
        · rw [List.splitOn_cons_eq_if_modifyHead, if_pos (by decide), List.takeWhile_cons_of_neg (by simp)]
        · rw [List.dropWhile_cons_of_neg (by simp), segments_slash, segments]
      · obtain ⟨ps, hps, hfilter⟩ := ih
        refine ⟨ps, ?_, ?_⟩
        · rw [List.splitOn_cons_eq_if_modifyHead, if_neg (by simpa using hc), hps, List.modifyHead_cons,
            List.takeWhile_cons_of_pos (by simpa using hc)]
        · rw [List.dropWhile_cons_of_pos (by simpa using hc)]
          exact hfilter

theorem segments_cons {c : Char} (hc : c ≠ '/') (s : List Char) :
    segments (c :: s) = (c :: s.takeWhile (· ≠ '/')) :: segments (s.dropWhile (· ≠ '/')) := by
  obtain ⟨ps, hps, hfilter⟩ := splitOn_slash s
  rw [segments, List.splitOn_cons_eq_if_modifyHead, if_neg (by simpa using hc), hps, List.modifyHead_cons,
    List.filter_cons_of_pos (by simp), hfilter]

theorem slashes_of_segments {s : List Char} (h : segments s = []) : ∀ c ∈ s, c = '/' := by
  induction s with
  | nil => exact fun _ hc => nomatch hc
  | cons c s ih =>
      by_cases hc : c = '/'
      · subst hc
        rw [segments_slash] at h
        exact List.forall_mem_cons.mpr ⟨rfl, ih h⟩
      · rw [segments_cons hc] at h
        exact nomatch h

/-- The first segment of a text, the slashes before it and the text after it. -/
theorem first_segment {s g : List Char} {gs : List (List Char)} (h : segments s = g :: gs) :
    ∃ slashes rest, s = slashes ++ (g ++ rest) ∧ (∀ c ∈ slashes, c = '/') ∧ g ≠ [] ∧ (∀ c ∈ g, c ≠ '/') ∧
      segments rest = gs ∧ (rest = [] ∨ rest.head? = some '/') := by
  induction s with
  | nil => exact nomatch h
  | cons c s ih =>
      by_cases hc : c = '/'
      · subst hc
        rw [segments_slash] at h
        obtain ⟨slashes, rest, rfl, hslashes, hrest⟩ := ih h
        exact ⟨'/' :: slashes, rest, rfl, List.forall_mem_cons.mpr ⟨rfl, hslashes⟩, hrest⟩
      · rw [segments_cons hc, List.cons.injEq] at h
        obtain ⟨rfl, rfl⟩ := h
        refine ⟨[], s.dropWhile (· ≠ '/'), ?_, nofun, List.cons_ne_nil _ _, ?_, rfl, ?_⟩
        · rw [List.nil_append, List.cons_append, List.takeWhile_append_dropWhile]
        · refine List.forall_mem_cons.mpr ⟨hc, fun d hd => ?_⟩
          simpa using List.mem_takeWhile_imp hd
        · cases hdrop : s.dropWhile (· ≠ '/') with
          | nil => exact Or.inl rfl
          | cons d rest =>
              have hhead := List.head?_dropWhile_not (· ≠ '/') s
              rw [hdrop] at hhead
              exact Or.inr (by simpa using hhead)

end Segments

section Pattern

def slash : Re := .char '/'

/-- The items that match one level. -/
def level_items (seg : List Char) : List Re :=
  if seg = ['+'] then [(Re.one (fun d => true ^^ ['/'].contains d)).plus] else seg.map Re.char

/-- The items `pattern_tail` writes after the first level. -/
def tail_items : List (List Char) → List Re
  | [] => [slash.star, .eol]
  | seg :: segs =>
      if seg = ['#'] then [(Re.seq [slash.plus, Re.any.star]).opt, slash.star, .eol]
      else [slash.plus] ++ (level_items seg ++ tail_items segs)

theorem reads_level (seg : List Char) :
    Reads (if seg = ['+'] then "[^/]+".toList else escape seg) (level_items seg) := by
  unfold level_items
  split_ifs
  · exact fun _ => rfl
  · exact reads_escape seg

theorem reads_tail {segs : List (List Char)} {text : List Char} (h : pattern_tail false segs = some text) :
    Reads text (tail_items segs) := by
  induction segs generalizing text with
  | nil =>
      obtain rfl := Option.some.inj h
      exact fun _ => rfl
  | cons seg segs ih =>
      rw [pattern_tail] at h
      rw [tail_items]
      by_cases hseg : seg = ['#']
      · rw [if_pos hseg] at h ⊢
        split_ifs at h
        obtain rfl := Option.some.inj h
        exact fun _ => rfl
      · rw [if_neg hseg] at h ⊢
        obtain ⟨tail, htail, rfl⟩ := Option.map_eq_some_iff.mp h
        have hsep : Reads "/+".toList [slash.plus] := fun _ => rfl
        exact hsep.append ((reads_level seg).append (ih htail))

theorem slashes_match {s : List Char} (h : ∀ c ∈ s, c = '/') (a b : List Char) : Matches slash.star a s b :=
  Matches.star_one (fun c hc => decide_eq_true (h c hc))

theorem ending_matches {s : List Char} (h : ∀ c ∈ s, c = '/') (a : List Char) :
    Matches (.seq [slash.star, .eol]) a s [] := by
  have hseq : Matches (.seq [slash.star, .eol]) a (s ++ ([] ++ [])) [] :=
    .cat (slashes_match h a _) (.cat Matches.eol_end .empty)
  rwa [List.append_nil, List.append_nil] at hseq

/-- A level reads the segment it matches. -/
theorem level_matches {seg g : List Char} {rs : List Re} {a rest : List Char} (hmatch : seg = ['+'] ∨ seg = g)
    (hne : g ≠ []) (hplain : ∀ c ∈ g, c ≠ '/') (h : Matches (.seq rs) (a ++ g) rest []) :
    Matches (.seq (level_items seg ++ rs)) a (g ++ rest) [] := by
  unfold level_items
  split_ifs with hplus
  · refine .cat (Matches.plus_one hne fun c hc => ?_) h
    simpa using hplain c hc
  · obtain rfl := hmatch.resolve_left hplus
    exact Matches.literals h

/-- The levels after the first match what follows the first segment. -/
theorem tail_matches {segs : List (List Char)} {u : List Char} (a : List Char)
    (hmatch : levels_match segs (segments u) = true) (hu : u = [] ∨ u.head? = some '/') :
    Matches (.seq (tail_items segs)) a u [] := by
  induction segs generalizing u a with
  | nil =>
      refine ending_matches (slashes_of_segments ?_) a
      exact List.isEmpty_iff.mp hmatch
  | cons seg segs ih =>
      unfold levels_match at hmatch
      rw [tail_items]
      by_cases hseg : seg = ['#']
      · rw [if_pos hseg]
        rcases hu with rfl | hu
        · exact .cat (m := []) Matches.opt_none (ending_matches (s := []) (List.forall_mem_nil _) _)
        · obtain ⟨d, v, rfl⟩ := List.exists_cons_of_ne_nil (l := u) (by rintro rfl; cases hu)
          obtain rfl := Option.some.inj hu
          have hrest : Matches (Re.seq [slash.plus, Re.any.star]) a ('/' :: v) [] := by
            have hcat : Matches (Re.seq [slash.plus, Re.any.star]) a (['/'] ++ (v ++ [])) [] :=
              .cat (Matches.plus_one (List.cons_ne_nil _ _) (by simp))
                (.cat (Matches.star_one fun _ _ => rfl) .empty)
            rwa [List.append_nil] at hcat
          have hopt := Matches.cat (n := []) (b := []) (Matches.opt_some hrest) (ending_matches (s := []) (List.forall_mem_nil _) _)
          rwa [List.append_nil] at hopt
      · rw [if_neg hseg] at hmatch ⊢
        cases hsegs : segments u with
        | nil => rw [hsegs] at hmatch; cases hmatch
        | cons g gs =>
            rw [hsegs] at hmatch
            dsimp only at hmatch
            split_ifs at hmatch with hno
            obtain ⟨slashes, rest, rfl, hslashes, hne, hplain, rfl, hrest⟩ := first_segment hsegs
            have hsep : slashes ≠ [] := by
              rintro rfl
              rw [List.nil_append] at hu
              obtain ⟨c, g', rfl⟩ := List.exists_cons_of_ne_nil hne
              exact hplain c List.mem_cons_self (Option.some.inj (hu.resolve_left (by simp)))
            refine .cat (Matches.plus_one hsep fun c hc => decide_eq_true (hslashes c hc)) ?_
            refine level_matches ?_ hne hplain (ih _ hmatch hrest)
            tauto

theorem pattern_regex_matches {pat re : List Char} {s : String} (hre : pattern_regex pat = some re)
    (h : scope_pattern_matches pat s.toList = true) : matches_ere s (String.ofList re) := by
  rw [matches_ere, String.toList_ofList]
  unfold pattern_regex at hre
  dsimp only at hre
  split_ifs at hre with hany
  · obtain rfl := Option.some.inj hre
    have hread : Reads "^.*$".toList [.bol, Re.any.star, .eol] := fun _ => rfl
    refine ⟨_, hread.parse, [], s.toList, [], by simp, ?_⟩
    have hcat : Matches (Re.seq [.bol, Re.any.star, .eol]) [] ([] ++ (s.toList ++ ([] ++ []))) [] :=
      .cat Matches.bol_start (.cat (Matches.star_one fun _ _ => rfl) (.cat Matches.eol_end .empty))
    simpa using hcat
  · obtain ⟨text, htext, rfl⟩ := Option.map_eq_some_iff.mp hre
    rw [not_or] at hany
    cases hsegs : segments pat with
    | nil => exact absurd hsegs hany.1
    | cons seg segs =>
        rw [hsegs, pattern_tail] at htext
        have hseg : seg ≠ ['#'] := by
          rintro rfl
          rw [if_pos rfl] at htext
          split_ifs at htext with hsegs'
          exact hany.2 (by rw [hsegs, hsegs'])
        have hpat : pat ≠ ANY_SCOPE := by
          rintro rfl
          exact hany.2 (by decide)
        rw [if_neg hseg] at htext
        obtain ⟨tail, htail, rfl⟩ := Option.map_eq_some_iff.mp htext
        have hlead : Reads "^/*".toList [.bol, slash.star] := fun _ => rfl
        refine ⟨_, (hlead.append (Reads.nil.append ((reads_level seg).append (reads_tail htail)))).parse,
          [], s.toList, [], by simp, ?_⟩
        rw [scope_pattern_matches, if_neg hpat, hsegs] at h
        unfold levels_match at h
        rw [if_neg hseg] at h
        cases hscope : segments s.toList with
        | nil => rw [hscope] at h; cases h
        | cons g gs =>
            rw [hscope] at h
            dsimp only at h
            split_ifs at h with hno
            obtain ⟨slashes, rest, hs, hslashes, hne, hplain, rfl, hrest⟩ := first_segment hscope
            rw [hs]
            refine .cat (m := []) Matches.bol_start (.cat (slashes_match hslashes _ _) ?_)
            refine level_matches ?_ hne hplain (tail_matches _ h hrest)
            tauto

end Pattern

section Pushdown

variable {first_bind : Nat} {scopes : List String}

theorem compile_patterns_some {pats : List (List Char)} {binds binds' : List String} {ns : List Nat}
    (h : compile_patterns first_bind pats binds = some (ns, binds')) :
    binds <+: binds' ∧ ∀ final, binds' <+: final →
      (∀ pat ∈ pats, scopes.any (fun s => scope_pattern_matches (trim pat) s.toList) = true) →
      ∀ n ∈ ns, SomeScope first_bind final scopes n := by
  induction pats generalizing binds ns with
  | nil =>
      obtain ⟨rfl, rfl⟩ := Prod.mk.inj (Option.some.inj h)
      exact ⟨List.prefix_rfl, fun _ _ _ _ hn => nomatch hn⟩
  | cons pat pats ih =>
      rw [compile_patterns] at h
      obtain ⟨re, hre, h⟩ := Option.bind_eq_some_iff.mp h
      obtain ⟨⟨ns', last⟩, hrec, heq⟩ := Option.map_eq_some_iff.mp h
      obtain ⟨rfl, rfl⟩ := Prod.mk.inj heq
      obtain ⟨hpre, hall⟩ := ih hrec
      refine ⟨(List.prefix_append _ _).trans hpre, fun final hfinal hpats => ?_⟩
      refine List.forall_mem_cons.mpr ⟨⟨Nat.le_add_right _ _, String.ofList re, ?_, ?_⟩,
        hall final hfinal fun p hp => hpats p (List.mem_cons_of_mem _ hp)⟩
      · obtain ⟨more, hmore⟩ := hpre.trans hfinal
        rw [Nat.add_sub_cancel_left, ← hmore]
        simp
      · obtain ⟨s, hs, hmatch⟩ := List.any_eq_true.mp (hpats pat List.mem_cons_self)
        exact ⟨s, hs, pattern_regex_matches hre hmatch⟩

theorem compile_groups_some {and_groups : List (List Char)} {binds binds' : List String} {parts : List (List Nat)}
    (h : compile_groups first_bind and_groups binds = some (parts, binds')) :
    binds <+: binds' ∧ ∀ final, binds' <+: final →
      ∀ g ∈ and_groups, group_matches scopes (strip_parens (trim g)) = true →
        ∃ ns ∈ parts, ∀ n ∈ ns, SomeScope first_bind final scopes n := by
  induction and_groups generalizing binds parts with
  | nil =>
      obtain ⟨rfl, rfl⟩ := Prod.mk.inj (Option.some.inj h)
      exact ⟨List.prefix_rfl, fun _ _ _ hg => nomatch hg⟩
  | cons and_group and_groups ih =>
      rw [compile_groups] at h
      obtain ⟨⟨ns, next⟩, hgroup, h⟩ := Option.bind_eq_some_iff.mp h
      dsimp only at h
      split_ifs at h
      obtain ⟨⟨parts', last⟩, hrec, heq⟩ := Option.map_eq_some_iff.mp h
      obtain ⟨rfl, rfl⟩ := Prod.mk.inj heq
      obtain ⟨hfirst, hmeets⟩ := compile_patterns_some hgroup
      obtain ⟨hrest, hother⟩ := ih hrec
      refine ⟨hfirst.trans hrest, fun final hfinal => List.forall_mem_cons.mpr ⟨fun hmatch => ?_, fun g hg hmatch => ?_⟩⟩
      · exact ⟨ns, List.mem_cons_self, hmeets final (hrest.trans hfinal) (List.all_eq_true.mp hmatch)⟩
      · obtain ⟨ms, hms, hsome⟩ := hother final hfinal g hg hmatch
        exact ⟨ms, List.mem_cons_of_mem _ hms, hsome⟩

/-- The compiled predicate holds of every entity the Scope Query matches. -/
theorem compile_scope_q_keeps {scope_q : String} {c : CompiledScope} (hc : compile_scope_q scope_q first_bind = some c)
    {doc : Value} (h : scope_matches scope_q doc = true) : c.Holds first_bind (scopes_of doc) := by
  rw [compile_scope_q] at hc
  split_ifs at hc
  obtain ⟨⟨parts, binds⟩, hgroups, hc⟩ := Option.bind_eq_some_iff.mp hc
  dsimp only at hc
  split_ifs at hc
  obtain rfl := Option.some.inj hc
  obtain ⟨g, hg, hmatch⟩ := List.any_eq_true.mp h
  exact (compile_groups_some hgroups).2 binds List.prefix_rfl g hg hmatch

def gardens : Value :=
  .object [("id", .string "urn:ngsi-ld:Park:1"), ("scope", .array [.string "/Madrid//Gardens/", .string "/Cities"])]

theorem compile_scope_q_keeps_gardens :
    ∃ c, compile_scope_q "/Rome,(/Madrid/+;/Cities/#)" 3 = some c ∧ c.Holds 3 (scopes_of gardens) := by
  obtain ⟨c, hc⟩ := Option.isSome_iff_exists.mp
    (by decide : (compile_scope_q "/Rome,(/Madrid/+;/Cities/#)" 3).isSome = true)
  exact ⟨c, hc, compile_scope_q_keeps hc (by decide)⟩

end Pushdown

end AntaresBroker.Ql.Scope
