import AntaresBroker.Json
import AntaresBroker.Ql

namespace AntaresBroker.Ql.Scope

open Json Text

def separates (c : Char) : Bool := c = ',' || c = '|'

/-- The alternatives of a Scope Query. -/
def alternatives (scope_q : String) : List (List Char) := scope_q.toList.splitOnP separates

def strip_parens (s : List Char) : List Char := (s.dropWhile (· = '(')).rdropWhile (· = ')')

def segments (s : List Char) : List (List Char) := (s.splitOn '/').filter (· ≠ [])

/-- Levels in order, `+` for any one level and a `#` at the end for the rest. -/
def levels_match : List (List Char) → List (List Char) → Bool
  | [], sseg => sseg.isEmpty
  | p :: pseg, sseg =>
      if p = ['#'] then pseg.isEmpty
      else match sseg with
        | [] => false
        | s :: sseg => if p ≠ ['+'] ∧ p ≠ s then false else levels_match pseg sseg

/-- The Scope Query of every entity that has a scope. -/
def ANY_SCOPE : List Char := ['/', '#']

def scope_pattern_matches (pat scope : List Char) : Bool :=
  if pat = ANY_SCOPE then true else levels_match (segments pat) (segments scope)

def scopes_of (doc : Value) : List String :=
  match doc.get "scope" with
  | some (.array a) => a.filterMap Value.as_str
  | some (.string s) => [s]
  | _ => []

/-- A conjunction of patterns, each met by some scope. -/
def group_matches (scopes : List String) (group : List Char) : Bool :=
  (group.splitOn ';').all (fun pat => scopes.any (fun s => scope_pattern_matches (trim pat) s.toList))

def scope_matches (scope_q : String) (doc : Value) : Bool :=
  (alternatives scope_q).any (fun and_group => group_matches (scopes_of doc) (strip_parens (trim and_group)))

def MAX_SCOPE_Q_BYTES : Nat := 4096

def group_of (g : List Char) : List Char := trim (strip_parens (trim g))

def groups (s : String) : List (List Char) := ((alternatives s).map group_of).filter (· ≠ [])

/-- One term of the product; `/#` adds nothing to a term that names a scope. -/
def both (l r : List Char) : List Char :=
  if l = ANY_SCOPE then r
  else if r = ANY_SCOPE then l
  else '(' :: (l ++ ';' :: (r ++ [')']))

def push_term (out term : List Char) : Option (List Char) :=
  let out := if out = [] then term else out ++ ',' :: term
  if MAX_SCOPE_Q_BYTES < byteSize out then none else some out

/-- The Scope Query that selects what both select, if there is one to write down. -/
def intersect_scope_q (a b : String) : Option String :=
  if groups a = [] ∨ groups b = [] then none
  else (((groups a).flatMap (fun x => (groups b).map (both x))).foldlM push_term []).map String.ofList

section Trimming

theorem trim_end_cons (c : Char) (s : List Char) :
    trim_end (c :: s) = if trim_end s = [] then (if is_whitespace c then [] else [c]) else c :: trim_end s := by
  unfold trim_end List.rdropWhile
  rw [List.reverse_cons, List.dropWhile_append]
  by_cases h : List.dropWhile is_whitespace s.reverse = []
  · rw [h]
    by_cases hc : is_whitespace c = true <;> simp [hc]
  · have : (List.dropWhile is_whitespace s.reverse).isEmpty = false := by simpa using h
    simp [h]

theorem trim_end_trim_start (s : List Char) : trim_end (trim_start s) = trim_start (trim_end s) := by
  induction s with
  | nil => rfl
  | cons c s ih =>
      by_cases hc : is_whitespace c = true
      · have hstart : trim_start (c :: s) = trim_start s := List.dropWhile_cons_of_pos hc
        rw [hstart, ih, trim_end_cons]
        by_cases hs : trim_end s = []
        · rw [if_pos hs, if_pos hc, hs]
        · rw [if_neg hs, trim_start, trim_start, List.dropWhile_cons_of_pos hc]
      · have hstart : trim_start (c :: s) = c :: s := List.dropWhile_cons_of_neg hc
        rw [hstart, trim_end_cons]
        by_cases hs : trim_end s = []
        · rw [if_pos hs, if_neg hc, trim_start, List.dropWhile_cons_of_neg hc]
        · rw [if_neg hs, trim_start, List.dropWhile_cons_of_neg hc]

theorem trim_congr {s t : List Char} (h : trim_end s = trim_end t) : trim s = trim t := by
  rw [trim, trim, trim_end_trim_start, trim_end_trim_start, h]

theorem trim_start_cons {c : Char} (hc : is_whitespace c = true) (s : List Char) : trim (c :: s) = trim s := by
  rw [trim, trim_start, List.dropWhile_cons_of_pos hc, trim, trim_start]

theorem trim_end_idem (s : List Char) : trim_end (trim_end s) = trim_end s := List.rdropWhile_idempotent _ _

theorem trim_trim (s : List Char) : trim (trim s) = trim s := by
  rw [trim, trim, ← trim_end_trim_start, trim_end_idem, trim_start, trim_start, List.dropWhile_idempotent]

end Trimming

section Groups

/-- The patterns of a group. -/
def patterns (group : List Char) : List (List Char) := (group.splitOn ';').map trim

theorem group_matches_eq (scopes : List String) (group : List Char) :
    group_matches scopes group =
      (patterns group).all (fun pat => scopes.any (fun s => scope_pattern_matches pat s.toList)) := by
  rw [group_matches, patterns, List.all_map]
  rfl

theorem patterns_append (l r : List Char) : patterns (l ++ ';' :: r) = patterns l ++ patterns r := by
  rw [patterns, List.splitOn_append_cons_self, List.map_append, patterns, patterns]

theorem patterns_trim_start (s : List Char) : patterns (trim_start s) = patterns s := by
  induction s with
  | nil => rfl
  | cons c s ih =>
      by_cases hc : is_whitespace c = true
      · have hne : ¬ (c == ';') = true := by
          rintro h
          rw [beq_iff_eq.mp h] at hc
          exact absurd hc (by decide)
        rw [trim_start, List.dropWhile_cons_of_pos hc, ← trim_start, ih, patterns, patterns,
          List.splitOn_cons_eq_if_modifyHead, if_neg hne]
        cases s.splitOn ';' with
        | nil => rfl
        | cons p ps => rw [List.modifyHead_cons, List.map_cons, List.map_cons, trim_start_cons hc]
      · rw [trim_start, List.dropWhile_cons_of_neg hc]

theorem splitOn_trim_end (s : List Char) (c : Char) (hc : is_whitespace c = true) :
    ((s ++ [c]).splitOn ';').map trim_end = (s.splitOn ';').map trim_end := by
  have hne : ¬ (c == ';') = true := by
    rintro h
    rw [beq_iff_eq.mp h] at hc
    exact absurd hc (by decide)
  induction s with
  | nil =>
      rw [List.nil_append, List.splitOn_cons_eq_if_modifyHead, if_neg hne]
      simp [hc, trim_end]
  | cons d s ih =>
      rw [List.cons_append, List.splitOn_cons_eq_if_modifyHead, List.splitOn_cons_eq_if_modifyHead]
      by_cases hd : (d == ';') = true
      · rw [if_pos hd, if_pos hd, List.map_cons, List.map_cons, ih]
      · rw [if_neg hd, if_neg hd]
        cases hs : s.splitOn ';' with
        | nil => exact absurd hs (List.splitOn_ne_nil _ _)
        | cons p ps =>
            cases hs' : (s ++ [c]).splitOn ';' with
            | nil => exact absurd hs' (List.splitOn_ne_nil _ _)
            | cons q qs =>
                rw [hs, hs', List.map_cons, List.map_cons, List.cons.injEq] at ih
                rw [List.modifyHead_cons, List.modifyHead_cons, List.map_cons, List.map_cons, trim_end_cons, ih.1, ih.2,
                  ← trim_end_cons]

theorem patterns_trim_end (s : List Char) : patterns (trim_end s) = patterns s := by
  induction s using List.reverseRecOn with
  | nil => rfl
  | append_singleton s c ih =>
      by_cases hc : is_whitespace c = true
      · rw [trim_end, List.rdropWhile_concat_pos _ _ _ hc, ← trim_end, ih, patterns, patterns]
        have hmap (xs : List (List Char)) : xs.map trim = (xs.map trim_end).map trim_start := by
          rw [List.map_map]
          apply List.map_congr_left
          intro x _
          rw [Function.comp_apply, trim, trim_end_trim_start]
        rw [hmap, hmap, splitOn_trim_end s c hc]
      · rw [trim_end, List.rdropWhile_concat_neg _ _ _ hc]

/-- The blanks around a group are not part of its patterns. -/
theorem patterns_trim (s : List Char) : patterns (trim s) = patterns s := by
  rw [trim, patterns_trim_end, patterns_trim_start]

theorem group_matches_trim (scopes : List String) (s : List Char) :
    group_matches scopes (trim s) = group_matches scopes s := by
  rw [group_matches_eq, group_matches_eq, patterns_trim]

theorem group_matches_append (scopes : List String) (l r : List Char) :
    group_matches scopes (l ++ ';' :: r) = (group_matches scopes l && group_matches scopes r) := by
  rw [group_matches_eq, patterns_append, List.all_append, group_matches_eq, group_matches_eq]

/-- Every scope meets the pattern that asks for any. -/
theorem group_matches_any (scopes : List String) : group_matches scopes ANY_SCOPE = !scopes.isEmpty := by
  have hpat : patterns ANY_SCOPE = [ANY_SCOPE] := by decide
  rw [group_matches_eq, hpat]
  cases scopes with
  | nil => rfl
  | cons s scopes => simp [scope_pattern_matches]

theorem group_matches_nil (group : List Char) : group_matches [] group = false := by
  rw [group_matches]
  cases h : group.splitOn ';' with
  | nil => exact absurd h (List.splitOn_ne_nil _ _)
  | cons p ps => rfl

/-- Asking for any scope adds nothing to a group, since every pattern needs one. -/
theorem group_matches_any_and (scopes : List String) (group : List Char) :
    (group_matches scopes ANY_SCOPE && group_matches scopes group) = group_matches scopes group := by
  rw [group_matches_any]
  cases scopes with
  | nil => rw [group_matches_nil, Bool.and_false]
  | cons s scopes => rfl

end Groups

section Product

/-- No parenthesis at either end. -/
def Unparenthesized (g : List Char) : Prop := g.head? ≠ some '(' ∧ g.getLast? ≠ some ')'

/-- The parentheses at the ends of the term are the ones `both` wrote. -/
def Spliceable (l r : List Char) : Prop :=
  if l = ANY_SCOPE then Unparenthesized r
  else if r = ANY_SCOPE then Unparenthesized l
  else l.head? ≠ some '(' ∧ r.getLast? ≠ some ')'

instance (l r : List Char) : Decidable (Spliceable l r) := by
  unfold Spliceable Unparenthesized
  infer_instance

theorem dropWhile_open {g : List Char} (h : g.head? ≠ some '(') : g.dropWhile (· = '(') = g := by
  cases g with
  | nil => rfl
  | cons c g => exact List.dropWhile_cons_of_neg (by simpa using h)

theorem rdropWhile_close {g : List Char} (h : g.getLast? ≠ some ')') : g.rdropWhile (· = ')') = g := by
  induction g using List.reverseRecOn with
  | nil => rfl
  | append_singleton g c => exact List.rdropWhile_concat_neg _ _ _ (by simpa using h)

theorem strip_parens_bare {g : List Char} (h : Unparenthesized g) : strip_parens g = g := by
  rw [strip_parens, dropWhile_open h.1, rdropWhile_close h.2]

theorem strip_parens_both {l r : List Char} (hl : l ≠ []) (hr : r ≠ []) (hhead : l.head? ≠ some '(')
    (hlast : r.getLast? ≠ some ')') : strip_parens ('(' :: (l ++ ';' :: (r ++ [')']))) = l ++ ';' :: r := by
  have hhead' : (l ++ ';' :: (r ++ [')'])).head? ≠ some '(' := by
    rwa [List.head?_append_of_ne_nil _ hl]
  have hlast' : (l ++ ';' :: r).getLast? ≠ some ')' := by
    obtain ⟨c, r', rfl⟩ := List.exists_cons_of_ne_nil hr
    rwa [List.getLast?_append_of_ne_nil _ (by simp), List.getLast?_cons_cons]
  have hassoc : l ++ ';' :: (r ++ [')']) = (l ++ ';' :: r) ++ [')'] := by simp
  rw [strip_parens, List.dropWhile_cons_of_pos (by simp), dropWhile_open hhead', hassoc,
    List.rdropWhile_concat_pos _ _ _ (by simp), rdropWhile_close hlast']

theorem trim_both (l r : List Char) :
    trim ('(' :: (l ++ ';' :: (r ++ [')']))) = '(' :: (l ++ ';' :: (r ++ [')'])) := by
  have hassoc : '(' :: (l ++ ';' :: (r ++ [')'])) = ('(' :: (l ++ ';' :: r)) ++ [')'] := by simp
  rw [trim, trim_start, List.dropWhile_cons_of_neg (by decide), hassoc, trim_end,
    List.rdropWhile_concat_neg _ _ _ (by decide)]

/-- A term of the product is met by what meets both of its sides. -/
theorem group_matches_both (scopes : List String) {l r : List Char} (hl : l ≠ []) (hr : r ≠ []) (htl : trim l = l)
    (htr : trim r = r) (h : Spliceable l r) :
    group_matches scopes (strip_parens (trim (both l r))) = (group_matches scopes l && group_matches scopes r) := by
  rw [Spliceable] at h
  rw [both]
  by_cases hla : l = ANY_SCOPE
  · rw [if_pos hla] at h ⊢
    rw [htr, strip_parens_bare h, hla, group_matches_any_and]
  · rw [if_neg hla] at h ⊢
    by_cases hra : r = ANY_SCOPE
    · rw [if_pos hra] at h ⊢
      rw [htl, strip_parens_bare h, hra, Bool.and_comm, group_matches_any_and]
    · rw [if_neg hra] at h ⊢
      rw [trim_both, strip_parens_both hl hr h.1 h.2, group_matches_append]

/-- What the terms are joined into is split into the terms again. -/
theorem alternatives_of_push {terms : List (List Char)} {out out' : List Char}
    (hsep : ∀ t ∈ terms, ∀ c ∈ t, separates c = false) (hne : ∀ t ∈ terms, t ≠ []) (hout : out ≠ [])
    (h : terms.foldlM push_term out = some out') :
    out'.splitOnP separates = out.splitOnP separates ++ terms := by
  induction terms generalizing out with
  | nil =>
      rw [List.foldlM_nil, Option.pure_def, Option.some.injEq] at h
      rw [h, List.append_nil]
  | cons t terms ih =>
      rw [List.foldlM_cons] at h
      obtain ⟨next, hnext, h⟩ := Option.bind_eq_some_iff.mp h
      rw [push_term, if_neg hout] at hnext
      split_ifs at hnext
      rw [Option.some.injEq] at hnext
      rw [ih (fun t ht => hsep t (List.mem_cons_of_mem _ ht)) (fun t ht => hne t (List.mem_cons_of_mem _ ht))
        (by rw [← hnext]; simp) h, ← hnext, List.splitOnP_append_cons _ _ (by decide),
        List.splitOnP_eq_singleton (hsep t List.mem_cons_self), List.append_assoc, List.singleton_append]

/-- A piece has no separator in it. -/
theorem separates_piece {s piece : List Char} (h : piece ∈ s.splitOnP separates) : ∀ c ∈ piece, separates c = false := by
  induction s generalizing piece with
  | nil =>
      rw [List.splitOnP_nil, List.mem_singleton] at h
      rw [h]
      exact fun _ hc => absurd hc List.not_mem_nil
  | cons d s ih =>
      rw [List.splitOnP_cons_eq_if_modifyHead] at h
      by_cases hd : separates d = true
      · rw [if_pos hd, List.mem_cons] at h
        rcases h with rfl | h
        · exact fun _ hc => absurd hc List.not_mem_nil
        · exact ih h
      · rw [if_neg hd] at h
        obtain ⟨q, qs, hq⟩ := List.exists_cons_of_ne_nil (List.splitOnP_ne_nil separates s)
        rw [hq, List.modifyHead_cons, List.mem_cons] at h
        rcases h with rfl | h
        · have hrest := ih (hq ▸ List.mem_cons_self)
          exact List.forall_mem_cons.mpr ⟨by simpa using hd, hrest⟩
        · exact ih (hq ▸ List.mem_cons_of_mem _ h)

theorem mem_strip_parens {s : List Char} {c : Char} (h : c ∈ strip_parens s) : c ∈ s :=
  List.dropWhile_subset _ ((List.rdropWhile_prefix _ _).subset h)

theorem mem_trim {s : List Char} {c : Char} (h : c ∈ trim s) : c ∈ s :=
  List.dropWhile_subset _ ((List.rdropWhile_prefix _ _).subset h)

structure Group (g : List Char) : Prop where
  ne_nil : g ≠ []
  trimmed : trim g = g
  plain : ∀ c ∈ g, separates c = false

theorem groups_group {s : String} {g : List Char} (h : g ∈ groups s) : Group g := by
  obtain ⟨hg, hne⟩ := List.mem_filter.mp h
  obtain ⟨piece, hpiece, rfl⟩ := List.mem_map.mp hg
  refine ⟨by simpa using hne, trim_trim _, fun c hc => ?_⟩
  have hmem : c ∈ piece := mem_trim (mem_strip_parens (mem_trim hc))
  exact separates_piece hpiece c hmem

theorem both_plain {l r : List Char} (hl : Group l) (hr : Group r) : both l r ≠ [] ∧ ∀ c ∈ both l r, separates c = false := by
  rw [both]
  split_ifs
  · exact ⟨hr.ne_nil, hr.plain⟩
  · exact ⟨hl.ne_nil, hl.plain⟩
  · refine ⟨by simp, fun c hc => ?_⟩
    simp only [List.mem_cons, List.mem_append, List.not_mem_nil, or_false] at hc
    rcases hc with rfl | hc | rfl | hc | rfl
    · decide
    · exact hl.plain c hc
    · decide
    · exact hr.plain c hc
    · decide

/-- No alternative is empty, or no scope of the entity is the root an empty one asks for. -/
def Whole (scope_q : String) (doc : Value) : Prop :=
  (∃ g ∈ alternatives scope_q, group_of g = []) → ∀ s ∈ scopes_of doc, segments s.toList ≠ []

instance (scope_q : String) (doc : Value) : Decidable (Whole scope_q doc) := by
  unfold Whole
  infer_instance

theorem group_matches_empty {scopes : List String} (h : ∀ s ∈ scopes, segments s.toList ≠ []) :
    group_matches scopes [] = false := by
  have hpat : patterns [] = [[]] := by decide
  rw [group_matches_eq, hpat, List.all_cons, List.all_nil, Bool.and_true, List.any_eq_false]
  intro s hs
  have hne : ([] : List Char) ≠ ANY_SCOPE := by decide
  rw [scope_pattern_matches, if_neg hne]
  have hseg : segments [] = [] := by decide
  rw [hseg, levels_match]
  simpa using h s hs

/-- A group of the entity's scopes, or an empty alternative and the root for it. -/
theorem scope_matches_iff (scope_q : String) (doc : Value) :
    scope_matches scope_q doc = true ↔ (groups scope_q).any (group_matches (scopes_of doc)) = true ∨
      ((∃ g ∈ alternatives scope_q, group_of g = []) ∧ ∃ s ∈ scopes_of doc, segments s.toList = []) := by
  have hgroup (g : List Char) :
      group_matches (scopes_of doc) (strip_parens (trim g)) = group_matches (scopes_of doc) (group_of g) :=
    (group_matches_trim _ _).symm
  rw [scope_matches, groups, List.any_filter, List.any_map, List.any_eq_true, List.any_eq_true]
  constructor
  · rintro ⟨g, hg, hmatch⟩
    rw [hgroup] at hmatch
    by_cases hempty : group_of g = []
    · rw [hempty] at hmatch
      refine .inr ⟨⟨g, hg, hempty⟩, ?_⟩
      by_contra hnone
      rw [group_matches_empty fun s hs hseg => hnone ⟨s, hs, hseg⟩] at hmatch
      cases hmatch
    · exact .inl ⟨g, hg, by simpa [hempty] using hmatch⟩
  · rintro (⟨g, hg, hmatch⟩ | ⟨⟨g, hg, hempty⟩, s, hs, hseg⟩)
    · rw [Function.comp_apply, Bool.and_eq_true] at hmatch
      exact ⟨g, hg, by rw [hgroup]; exact hmatch.2⟩
    · refine ⟨g, hg, ?_⟩
      have hpat : patterns [] = [[]] := by decide
      have hne : ([] : List Char) ≠ ANY_SCOPE := by decide
      rw [hgroup, hempty, group_matches_eq, hpat, List.all_cons, List.all_nil, Bool.and_true, List.any_eq_true]
      refine ⟨s, hs, ?_⟩
      rw [scope_pattern_matches, if_neg hne, hseg]
      rfl

theorem scope_matches_groups {scope_q : String} {doc : Value} (h : Whole scope_q doc) :
    scope_matches scope_q doc = (groups scope_q).any (group_matches (scopes_of doc)) := by
  rw [Bool.eq_iff_iff, scope_matches_iff]
  refine ⟨fun hmatch => hmatch.resolve_right ?_, .inl⟩
  rintro ⟨hempty, s, hs, hseg⟩
  exact h hempty s hs hseg

/-- The product of two Scope Queries selects what a group of each selects. -/
theorem scope_matches_product {a b out : String} {doc : Value} (h : intersect_scope_q a b = some out)
    (hs : ∀ x ∈ groups a, ∀ y ∈ groups b, Spliceable x y) :
    scope_matches out doc =
      ((groups a).any (group_matches (scopes_of doc)) && (groups b).any (group_matches (scopes_of doc))) := by
  rw [intersect_scope_q] at h
  split_ifs at h with hempty
  rw [not_or] at hempty
  obtain ⟨text, htext, rfl⟩ := Option.map_eq_some_iff.mp h
  have hterm : ∀ t ∈ (groups a).flatMap (fun x => (groups b).map (both x)), t ≠ [] ∧ ∀ c ∈ t, separates c = false := by
    intro t ht
    obtain ⟨x, hx, ht⟩ := List.mem_flatMap.mp ht
    obtain ⟨y, hy, rfl⟩ := List.mem_map.mp ht
    exact both_plain (groups_group hx) (groups_group hy)
  have halt : alternatives (String.ofList text) = (groups a).flatMap (fun x => (groups b).map (both x)) := by
    rw [alternatives, String.toList_ofList]
    cases hterms : (groups a).flatMap (fun x => (groups b).map (both x)) with
    | nil =>
        obtain ⟨x, xs, hx⟩ := List.exists_cons_of_ne_nil hempty.1
        obtain ⟨y, ys, hy⟩ := List.exists_cons_of_ne_nil hempty.2
        rw [hx, hy] at hterms
        simp at hterms
    | cons t ts =>
        rw [hterms] at htext hterm
        rw [List.foldlM_cons] at htext
        obtain ⟨next, hnext, htext⟩ := Option.bind_eq_some_iff.mp htext
        rw [push_term, if_pos rfl] at hnext
        split_ifs at hnext
        rw [Option.some.injEq] at hnext
        subst hnext
        have ht := hterm t List.mem_cons_self
        rw [alternatives_of_push (fun t ht => (hterm t (List.mem_cons_of_mem _ ht)).2)
          (fun t ht => (hterm t (List.mem_cons_of_mem _ ht)).1) ht.1 htext, List.splitOnP_eq_singleton ht.2]
        rfl
  rw [scope_matches, halt, Bool.eq_iff_iff, Bool.and_eq_true,
    List.any_eq_true, List.any_eq_true, List.any_eq_true]
  have hboth {x y : List Char} (hx : x ∈ groups a) (hy : y ∈ groups b) :=
    group_matches_both (scopes_of doc) (groups_group hx).ne_nil (groups_group hy).ne_nil
      (groups_group hx).trimmed (groups_group hy).trimmed (hs x hx y hy)
  constructor
  · rintro ⟨t, ht, hmatch⟩
    obtain ⟨x, hx, ht⟩ := List.mem_flatMap.mp ht
    obtain ⟨y, hy, rfl⟩ := List.mem_map.mp ht
    rw [hboth hx hy, Bool.and_eq_true] at hmatch
    exact ⟨⟨x, hx, hmatch.1⟩, ⟨y, hy, hmatch.2⟩⟩
  · rintro ⟨⟨x, hx, hmx⟩, ⟨y, hy, hmy⟩⟩
    refine ⟨both x y, List.mem_flatMap.mpr ⟨x, hx, List.mem_map.mpr ⟨y, hy, rfl⟩⟩, ?_⟩
    rw [hboth hx hy, hmx, hmy]
    rfl

/-- The product of two Scope Queries selects what both select. -/
theorem scope_matches_intersect {a b out : String} {doc : Value} (h : intersect_scope_q a b = some out)
    (hs : ∀ x ∈ groups a, ∀ y ∈ groups b, Spliceable x y) (ha : Whole a doc) (hb : Whole b doc) :
    scope_matches out doc = (scope_matches a doc && scope_matches b doc) := by
  rw [scope_matches_product h hs, scope_matches_groups ha, scope_matches_groups hb]

/-- No group selects the entity, only an alternative without a pattern: the
entity carries the root. -/
def OnlyRoot (scope_q : String) (doc : Value) : Prop :=
  (groups scope_q).any (group_matches (scopes_of doc)) = false ∧
    (∃ g ∈ alternatives scope_q, group_of g = []) ∧ ∃ s ∈ scopes_of doc, segments s.toList = []

theorem scope_matches_or_root (scope_q : String) (doc : Value) :
    scope_matches scope_q doc = true ↔
      (groups scope_q).any (group_matches (scopes_of doc)) = true ∨ OnlyRoot scope_q doc := by
  rw [scope_matches_iff, OnlyRoot]
  cases (groups scope_q).any (group_matches (scopes_of doc)) <;> simp

/-- Where no group keeps a parenthesis at the end the product writes its own to,
the product is exact but for an entity that one side selects by the root alone
and the other side selects too. -/
theorem intersect_exact_iff {a b out : String} (h : intersect_scope_q a b = some out)
    (hs : ∀ x ∈ groups a, ∀ y ∈ groups b, Spliceable x y) (doc : Value) :
    (scope_matches out doc = true ↔ scope_matches a doc = true ∧ scope_matches b doc = true) ↔
      ¬(OnlyRoot a doc ∧ scope_matches b doc = true) ∧ ¬(scope_matches a doc = true ∧ OnlyRoot b doc) := by
  have hroot {q : String} (hq : OnlyRoot q doc) : (groups q).any (group_matches (scopes_of doc)) = false := hq.1
  rw [scope_matches_product h hs, Bool.and_eq_true, scope_matches_or_root a, scope_matches_or_root b]
  constructor
  · intro hexact
    constructor
    · rintro ⟨hra, hb⟩
      have hboth := hexact.mpr ⟨.inr hra, hb⟩
      rw [hroot hra] at hboth
      exact absurd hboth.1 Bool.false_ne_true
    · rintro ⟨ha, hrb⟩
      have hboth := hexact.mpr ⟨ha, .inr hrb⟩
      rw [hroot hrb] at hboth
      exact absurd hboth.2 Bool.false_ne_true
  · rintro ⟨hna, hnb⟩
    refine ⟨fun hboth => ⟨.inl hboth.1, .inl hboth.2⟩, fun ⟨ha, hb⟩ => ⟨?_, ?_⟩⟩
    · exact ha.resolve_right fun hra => hna ⟨hra, hb⟩
    · exact hb.resolve_right fun hrb => hnb ⟨ha, hrb⟩

def quay : Value := .object [("scope", .array [.string "/A", .string "/B"])]

/-- Two groups and the product of them with a conjunction. -/
theorem intersect_exact_quay :
    intersect_scope_q "/A,/C" "(/A;/B)" = some "(/A;/A;/B),(/C;/A;/B)" ∧
      (scope_matches "(/A;/A;/B),(/C;/A;/B)" quay = true ↔
        scope_matches "/A,/C" quay = true ∧ scope_matches "(/A;/B)" quay = true) := by
  have hproduct : intersect_scope_q "/A,/C" "(/A;/B)" = some "(/A;/A;/B),(/C;/A;/B)" := by decide
  have hroot : ∀ q : String, ¬OnlyRoot q quay := by
    rintro q ⟨-, -, s, hs, hseg⟩
    revert hseg
    exact (show ∀ s ∈ scopes_of quay, segments s.toList ≠ [] by decide) s hs
  exact ⟨hproduct, (intersect_exact_iff hproduct (by decide) quay).mpr ⟨fun h => hroot _ h.1, fun h => hroot _ h.2⟩⟩

/-- A group that begins with a parenthesis behind a blank loses it in the product. -/
theorem intersect_widens_quay :
    intersect_scope_q "( (/A" "/B" = some "((/A;/B)" ∧ scope_matches "((/A;/B)" quay = true ∧
      scope_matches "( (/A" quay = false := by decide

end Product

end AntaresBroker.Ql.Scope
