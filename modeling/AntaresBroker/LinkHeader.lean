import AntaresBroker.LangSelect
import AntaresBroker.Reread
import AntaresBroker.Scanner

namespace AntaresBroker.LinkHeader

open Ql (is_whitespace trim trim_start trim_end trim_start_of_head)
open LangSelect (eq_ignore_ascii_case)

def JSONLD_CONTEXT_REL : List Char := "http://www.w3.org/ns/json-ld#context".toList

inductive NgsiError
  | BadRequestData (detail : String)
deriving DecidableEq

/-- The text of a field line, where it is one of visible characters and tabs. -/
def to_str (line : List Char) : Option (List Char) :=
  if line.all (fun c => c = '\t' ∨ (32 ≤ c.toNat ∧ c.toNat < 127)) then some line else none

/-- Where the scanner stands: inside the brackets of a target, inside a
quoted-string, behind a backslash. -/
structure Scan where
  angle : Bool
  quoted : Bool
  escaped : Bool
deriving DecidableEq

def Scan.start : Scan := ⟨false, false, false⟩

/-- The scanner behind one more character, unless that separates. -/
def advance (sep : Char) (q : Scan) (c : Char) : Option Scan :=
  if q.escaped then some { q with escaped := false }
  else if c = '\\' ∧ q.quoted then some { q with escaped := true }
  else if c = '"' then some { q with quoted := !q.quoted }
  else if c = '<' ∧ !q.quoted then some { q with angle := true }
  else if c = '>' ∧ !q.quoted then some { q with angle := false }
  else if c = sep ∧ !q.quoted ∧ !q.angle then none
  else some q

def split_unquoted (sep : Char) (s : List Char) : List (List Char) := Scanner.split (advance sep) .start s

/-- What stands between two characters at the ends of a text. -/
def strip_around (first last : Char) : List Char → Option (List Char)
  | c :: s => if c = first ∧ s.getLast? = some last then some s.dropLast else none
  | [] => none

def unquote (v : List Char) : List Char := (strip_around '"' '"' v).getD v

def is_ascii_whitespace (c : Char) : Bool := "\t\n\x0c\r ".toList.contains c

def split_ascii_whitespace (s : List Char) : List (List Char) :=
  (s.splitOnP is_ascii_whitespace).filter (· ≠ [])

/-- Whether a parameter as it stands in the field is a `rel` that lists the relation. -/
def is_context (p : List Char) : Bool :=
  match Text.splitOnce '=' p with
  | none => false
  | some (k, v) =>
      eq_ignore_ascii_case (trim k) "rel".toList &&
        (split_ascii_whitespace (unquote (trim v))).contains JSONLD_CONTEXT_REL

/-- The target of a link-value that is a link to a context. -/
def context_target (value : List Char) : Option (List Char) :=
  match split_unquoted ';' value with
  | [] => none
  | part :: parts => (strip_around '<' '>' (trim part)).filter (fun _ => parts.any is_context)

def ambiguous : NgsiError := .BadRequestData "two Link headers name different @context documents (6.3.5)"

/-- What is found once another link to a context has been read. -/
def find (found : Option (List Char)) (target : List Char) : Except NgsiError (Option (List Char)) :=
  match found with
  | some first => if first ≠ target then .error ambiguous else .ok found
  | none => .ok (some target)

def link_context (headers : List (List Char)) : Except NgsiError (Option (List Char)) :=
  headers.foldlM (fun found link =>
    match to_str link with
    | none => .ok found
    | some s => (split_unquoted ',' s).foldlM (fun found value =>
        match context_target value with
        | none => .ok found
        | some target => find found target) found) none

section Fields

/-- Optional white space. -/
abbrev Ows := {s : List Char // ∀ c ∈ s, c = ' ' ∨ c = '\t'}

abbrev Target := {s : List Char // '<' ∉ s ∧ '>' ∉ s}

/-- A character that a token may hold, and those of a bare URI. -/
def bare (c : Char) : Bool := !is_whitespace c && !"\"<>,;".toList.contains c

abbrev Name := {s : List Char // ∀ c ∈ s, bare c ∧ c ≠ '='}

abbrev Token := {s : List Char // ∀ c ∈ s, bare c}

/-- A character of a quoted-string, a backslash before it or not. -/
structure Quoted where
  escaped : Bool
  char : Char
  plain : escaped = false → char ≠ '"' ∧ char ≠ '\\'

def Quoted.text (c : Quoted) : List Char := if c.escaped then ['\\', c.char] else [c.char]

inductive ParamValue
  | token (s : Token)
  | quoted (cs : List Quoted)

def ParamValue.text : ParamValue → List Char
  | .token s => s.val
  | .quoted cs => '"' :: (cs.flatMap Quoted.text ++ ['"'])

/-- A parameter and the white space around its parts. -/
structure Param where
  before : Ows
  name : Name
  between : Ows
  gap : Ows
  value : Option ParamValue
  after : Ows

def Param.text (p : Param) : List Char :=
  p.before.val ++ p.name.val ++ p.between.val ++
    match p.value with
    | none => []
    | some v => '=' :: (p.gap.val ++ v.text ++ p.after.val)

structure LinkValue where
  before : Ows
  target : Target
  after : Ows
  params : List Param

def LinkValue.text (v : LinkValue) : List Char :=
  [';'].intercalate ((v.before.val ++ ('<' :: (v.target.val ++ ['>'])) ++ v.after.val) :: v.params.map Param.text)

/-- A field line of link-values. -/
def line (vs : List LinkValue) : List Char := [','].intercalate (vs.map LinkValue.text)

def ParamValue.read : ParamValue → List Char
  | .token s => s.val
  | .quoted cs => cs.map Quoted.char

def Param.is_rel (p : Param) : Bool := eq_ignore_ascii_case p.name.val "rel".toList

/-- The relation types of a link-value: those of its first `rel`. -/
def LinkValue.rels (v : LinkValue) : List (List Char) :=
  match (v.params.find? Param.is_rel).bind Param.value with
  | none => []
  | some value => value.read.splitOn ' '

/-- Relation types are compared without regard to case. -/
def LinkValue.lists (v : LinkValue) : Bool := v.rels.any (fun rel => eq_ignore_ascii_case rel JSONLD_CONTEXT_REL)

/-- The answer where these are the targets of the links to a context. -/
def answer : List (List Char) → Except NgsiError (Option (List Char))
  | [] => .ok none
  | target :: more => if ∀ other ∈ more, other = target then .ok (some target) else .error ambiguous

/-- The context that field lines of link-values designate. -/
def designated (lines : List (List LinkValue)) : Except NgsiError (Option (List Char)) :=
  answer ((lines.flatten.filter LinkValue.lists).map fun v => v.target.val)

end Fields

section Reading

theorem foldlM_flatMap {α β γ ε : Type} (f : α → List β) (g : γ → β → Except ε γ) (l : List α) (c : γ) :
    (l.flatMap f).foldlM g c = l.foldlM (fun c a => (f a).foldlM g c) c := by
  induction l generalizing c with
  | nil => rfl
  | cons a l ih =>
      rw [List.flatMap_cons, List.foldlM_append, List.foldlM_cons]
      exact congrArg _ (funext ih)

theorem find_same (t : List Char) (ts : List (List Char)) :
    ts.foldlM find (some t) = if ∀ other ∈ ts, other = t then .ok (some t) else .error ambiguous := by
  induction ts with
  | nil => rfl
  | cons u ts ih =>
      rw [List.foldlM_cons, find]
      by_cases hu : u = t
      · subst hu
        rw [if_neg (not_not.mpr rfl)]
        refine ih.trans (if_congr ?_ rfl rfl)
        rw [List.forall_mem_cons, and_iff_right rfl]
      · rw [if_pos (Ne.symm hu), if_neg fun h => hu (h u List.mem_cons_self)]
        rfl

theorem find_answer (ts : List (List Char)) : ts.foldlM find none = answer ts := by
  cases ts with
  | nil => rfl
  | cons t ts => exact find_same t ts

def targets_of (header : List Char) : List (List Char) :=
  match to_str header with
  | none => []
  | some s => (split_unquoted ',' s).filterMap context_target

theorem link_context_eq (headers : List (List Char)) : link_context headers = answer (headers.flatMap targets_of) := by
  rw [← find_answer, foldlM_flatMap, link_context]
  congr 1
  funext found header
  rw [targets_of]
  cases to_str header with
  | none => rfl
  | some s =>
      dsimp only
      rw [List.foldlM_filterMap]
      congr 1
      funext found value
      cases context_target value <;> rfl

end Reading

section Scanning

variable {sep : Char}

/-- Whether a quoted-string is open, and a backslash with it, behind one more character. -/
def quotes : Bool × Bool → Char → Bool × Bool
  | (quoted, escaped), c =>
      if escaped then (quoted, false)
      else if c = '\\' ∧ quoted then (quoted, true)
      else if c = '"' then (!quoted, false)
      else (quoted, false)

/-- The quotes in a text pair up. -/
def paired (s : List Char) : Prop := s.foldl quotes (false, false) = (false, false)

/-- A separator, which is none of the characters that the scanner heeds. -/
def Separates (sep : Char) : Prop := sep = ',' ∨ sep = ';'

theorem advance_plain {c : Char} (hquote : c ≠ '"') (hopen : c ≠ '<') (hclose : c ≠ '>') (hc : c ≠ sep) :
    advance sep .start c = some .start := by
  rw [Scan.start, advance, if_neg Bool.false_ne_true, if_neg fun h => Bool.false_ne_true h.2, if_neg hquote,
    if_neg fun h => hopen h.1, if_neg fun h => hclose h.1, if_neg fun h => hc h.1]

theorem bare_ne {c d : Char} (h : bare c) (hd : "\"<>,;".toList.contains d) : c ≠ d := by
  rintro rfl
  rw [bare, hd, Bool.not_true, Bool.and_false] at h
  exact Bool.false_ne_true h

theorem run_bare (hsep : Separates sep) {s : List Char} (h : ∀ c ∈ s, bare c) :
    Scanner.run (advance sep) .start s = some .start := by
  refine Scanner.run_still fun c hc => ?_
  have hc := h c hc
  refine advance_plain (bare_ne hc rfl) (bare_ne hc rfl) (bare_ne hc rfl) ?_
  rcases hsep with rfl | rfl
  · exact bare_ne hc rfl
  · exact bare_ne hc rfl

theorem run_ows (hsep : Separates sep) (b : Ows) : Scanner.run (advance sep) .start b.val = some .start := by
  refine Scanner.run_still fun c hc => ?_
  rcases b.property c hc with rfl | rfl <;> rcases hsep with rfl | rfl <;> rfl

/-- Inside the brackets nothing separates, and only the quotes are heeded. -/
theorem advance_target {c : Char} (hopen : c ≠ '<') (hclose : c ≠ '>') (quoted escaped : Bool) :
    advance sep ⟨true, quoted, escaped⟩ c =
      some ⟨true, (quotes (quoted, escaped) c).1, (quotes (quoted, escaped) c).2⟩ := by
  cases escaped with
  | true => rfl
  | false =>
      rw [advance, quotes, if_neg Bool.false_ne_true, if_neg Bool.false_ne_true]
      split_ifs with _ _ hlt hgt hin
      · rfl
      · rfl
      · exact absurd hlt.1 hopen
      · exact absurd hgt.1 hclose
      · exact absurd hin.2.2 Bool.false_ne_true
      · rfl

theorem run_target {s : List Char} (hopen : '<' ∉ s) (hclose : '>' ∉ s) (quoted escaped : Bool) :
    Scanner.run (advance sep) ⟨true, quoted, escaped⟩ s =
      some ⟨true, (s.foldl quotes (quoted, escaped)).1, (s.foldl quotes (quoted, escaped)).2⟩ := by
  induction s generalizing quoted escaped with
  | nil => rfl
  | cons c s ih =>
      rw [List.mem_cons, not_or] at hopen hclose
      rw [Scanner.run_cons, advance_target (Ne.symm hopen.1) (Ne.symm hclose.1)]
      exact ih hopen.2 hclose.2 _ _

theorem run_quoted_text (c : Quoted) :
    Scanner.run (advance sep) ⟨false, true, false⟩ c.text = some ⟨false, true, false⟩ := by
  rw [Quoted.text]
  split_ifs with hescaped
  · rfl
  · obtain ⟨hquote, hback⟩ := c.plain (Bool.eq_false_iff.mpr hescaped)
    apply Scanner.run_singleton
    rw [advance, if_neg Bool.false_ne_true, if_neg fun h => hback h.1, if_neg hquote, if_neg fun h => Bool.false_ne_true h.2,
      if_neg fun h => Bool.false_ne_true h.2, if_neg fun h => Bool.false_ne_true h.2.1]

/-- Inside a quoted-string nothing but a bare quote ends it. -/
theorem run_quoted (cs : List Quoted) :
    Scanner.run (advance sep) ⟨false, true, false⟩ (cs.flatMap Quoted.text) = some ⟨false, true, false⟩ := by
  induction cs with
  | nil => rfl
  | cons c cs ih =>
      rw [List.flatMap_cons]
      exact Scanner.run_append (run_quoted_text c) ih

theorem run_value (hsep : Separates sep) (v : ParamValue) : Scanner.run (advance sep) .start v.text = some .start := by
  cases v with
  | token s => exact run_bare hsep s.property
  | quoted cs =>
      have hopen : advance sep .start '"' = some ⟨false, true, false⟩ := rfl
      have hclose : advance sep ⟨false, true, false⟩ '"' = some .start := rfl
      rw [ParamValue.text, Scanner.run_cons, hopen]
      exact Scanner.run_append (run_quoted cs) (Scanner.run_singleton hclose)

theorem run_param (hsep : Separates sep) (p : Param) : Scanner.run (advance sep) .start p.text = some .start := by
  rw [Param.text]
  refine Scanner.run_append (Scanner.run_append (Scanner.run_append (run_ows hsep _) ?_) (run_ows hsep _)) ?_
  · exact run_bare hsep fun c hc => (p.name.property c hc).1
  · cases p.value with
    | none => rfl
    | some v =>
        have hassign : advance sep .start '=' = some .start := by rcases hsep with rfl | rfl <;> rfl
        dsimp only
        rw [Scanner.run_cons, hassign]
        exact Scanner.run_append (Scanner.run_append (run_ows hsep _) (run_value hsep v)) (run_ows hsep _)

theorem run_bracketed {t : Target} (h : paired t.val) :
    Scanner.run (advance sep) .start ('<' :: (t.val ++ ['>'])) = some .start := by
  have hopen : advance sep .start '<' = some ⟨true, false, false⟩ := rfl
  have hclose : advance sep ⟨true, false, false⟩ '>' = some .start := rfl
  have htarget := @run_target sep _ t.property.1 t.property.2 false false
  rw [paired] at h
  rw [h] at htarget
  rw [Scanner.run_cons, hopen]
  exact Scanner.run_append htarget (Scanner.run_singleton hclose)

def LinkValue.pieces (v : LinkValue) : List (List Char) :=
  (v.before.val ++ ('<' :: (v.target.val ++ ['>'])) ++ v.after.val) :: v.params.map Param.text

theorem run_piece (hsep : Separates sep) {v : LinkValue} (h : paired v.target.val) {p : List Char} (hp : p ∈ v.pieces) :
    Scanner.run (advance sep) .start p = some .start := by
  rcases List.mem_cons.mp hp with rfl | hp
  · exact Scanner.run_append (Scanner.run_append (run_ows hsep _) (run_bracketed h)) (run_ows hsep _)
  · obtain ⟨param, -, rfl⟩ := List.mem_map.mp hp
    exact run_param hsep param

theorem split_link_value {v : LinkValue} (h : paired v.target.val) : split_unquoted ';' v.text = v.pieces :=
  Scanner.split_intercalate rfl (List.cons_ne_nil _ _) fun _ hp => run_piece (.inr rfl) h hp

theorem run_link_value {v : LinkValue} (h : paired v.target.val) :
    Scanner.run (advance ',') .start v.text = some .start := by
  refine Scanner.run_intercalate rfl fun _ hp => run_piece (.inl rfl) h hp

theorem split_line {vs : List LinkValue} (h : ∀ v ∈ vs, paired v.target.val) (hne : vs ≠ []) :
    split_unquoted ',' (line vs) = vs.map LinkValue.text := by
  refine Scanner.split_intercalate rfl (mt List.map_eq_nil_iff.mp hne) fun p hp => ?_
  obtain ⟨v, hv, rfl⟩ := List.mem_map.mp hp
  exact run_link_value (h v hv)

end Scanning

section Parts

theorem blank (b : Ows) : ∀ c ∈ b.val, is_whitespace c := by
  intro c hc
  rcases b.property c hc with rfl | rfl <;> rfl

theorem trim_start_append {b s : List Char} (hb : ∀ c ∈ b, is_whitespace c) : trim_start (b ++ s) = trim_start s :=
  List.dropWhile_append_of_pos hb

theorem trim_end_append {s b : List Char} (hb : ∀ c ∈ b, is_whitespace c) : trim_end (s ++ b) = trim_end s := by
  rw [trim_end, List.rdropWhile, List.reverse_append, List.dropWhile_append_of_pos]
  · rfl
  · exact fun c hc => hb c (List.mem_reverse.mp hc)

/-- A text between white space that neither begins nor ends with any. -/
theorem trim_padded (b b' : Ows) {s : List Char} (hhead : ∀ c ∈ s.head?, is_whitespace c = false)
    (hlast : ∀ c ∈ s.getLast?, is_whitespace c = false) : trim (b.val ++ s ++ b'.val) = s := by
  rw [trim, List.append_assoc, trim_start_append (blank b)]
  cases s with
  | nil =>
      have hnil : trim_start b'.val = [] := List.dropWhile_eq_nil_iff.mpr (blank b')
      rw [List.nil_append, hnil]
      rfl
  | cons c s =>
      have hstart : trim_start (c :: s ++ b'.val) = c :: s ++ b'.val := trim_start_of_head hhead
      rw [hstart, trim_end_append (blank b'), trim_end, List.rdropWhile_eq_self_iff]
      intro hne hlast'
      exact Bool.eq_false_iff.mp (hlast _ (List.getLast_mem_getLast? hne)) hlast'

theorem strip_around_eq (first last : Char) (s : List Char) : strip_around first last (first :: (s ++ [last])) = some s := by
  rw [strip_around, if_pos ⟨rfl, List.getLast?_concat⟩, List.dropLast_concat]

theorem getLast_around (first last : Char) (s : List Char) : (first :: (s ++ [last])).getLast? = some last := by
  rw [← List.cons_append, List.getLast?_concat]

theorem unquote_bare {s : List Char} (h : ∀ c ∈ s, bare c) : unquote s = s := by
  cases s with
  | nil => rfl
  | cons c s =>
      have hc : c ≠ '"' := bare_ne (h c List.mem_cons_self) rfl
      rw [unquote, strip_around, if_neg fun h => hc h.1]
      rfl

theorem bare_head {s : List Char} (h : ∀ c ∈ s, bare c) :
    (∀ c ∈ s.head?, is_whitespace c = false) ∧ ∀ c ∈ s.getLast?, is_whitespace c = false := by
  have hbare {c : Char} (hc : bare c) : is_whitespace c = false := by
    rw [bare, Bool.and_eq_true, Bool.not_eq_true'] at hc
    exact hc.1
  exact ⟨fun c hc => hbare (h c (List.mem_of_mem_head? hc)), fun c hc => hbare (h c (List.mem_of_mem_getLast? hc))⟩

theorem trim_name (p : Param) : trim (p.before.val ++ p.name.val ++ p.between.val) = p.name.val := by
  have hname := bare_head fun c hc => (p.name.property c hc).1
  exact trim_padded _ _ hname.1 hname.2

/-- A value with its quotes removed, its backslashes kept. -/
def ParamValue.written : ParamValue → List Char
  | .token s => s.val
  | .quoted cs => cs.flatMap Quoted.text

theorem unquote_value (b b' : Ows) (v : ParamValue) : unquote (trim (b.val ++ v.text ++ b'.val)) = v.written := by
  cases v with
  | token s =>
      have hs := bare_head s.property
      rw [ParamValue.text, trim_padded _ _ hs.1 hs.2, unquote_bare s.property, ParamValue.written]
  | quoted cs =>
      rw [ParamValue.text, trim_padded, unquote, strip_around_eq]
      · rfl
      · rintro c ⟨⟩
        rfl
      · rw [getLast_around]
        rintro c ⟨⟩
        rfl

def Param.written_lists (p : Param) : Bool :=
  p.is_rel && p.value.any fun v => (split_ascii_whitespace v.written).contains JSONLD_CONTEXT_REL

theorem is_context_text (p : Param) : is_context p.text = p.written_lists := by
  have hname : '=' ∉ p.before.val ++ p.name.val ++ p.between.val := by
    have hblank (b : Ows) : '=' ∉ b.val := fun h => by simpa using b.property _ h
    rw [List.mem_append, List.mem_append, not_or, not_or]
    exact ⟨⟨hblank _, fun h => (p.name.property _ h).2 rfl⟩, hblank _⟩
  rw [is_context, Param.text, Param.written_lists]
  cases hvalue : p.value with
  | none =>
      dsimp only
      rw [List.append_nil, Text.splitOnce_eq_none.mpr hname]
      exact (Bool.and_false _).symm
  | some v =>
      dsimp only
      rw [Text.splitOnce_eq_some.mpr ⟨rfl, hname⟩]
      dsimp only
      rw [trim_name, unquote_value]
      rfl

def LinkValue.written_lists (v : LinkValue) : Bool := v.params.any Param.written_lists

theorem context_target_text {v : LinkValue} (h : paired v.target.val) :
    context_target v.text = if v.written_lists then some v.target.val else none := by
  rw [context_target, split_link_value h, LinkValue.pieces]
  dsimp only
  have hcontext : is_context ∘ Param.text = Param.written_lists := funext is_context_text
  rw [trim_padded, strip_around_eq, Option.filter_some, List.any_map, hcontext, LinkValue.written_lists]
  · rintro c ⟨⟩
    rfl
  · rw [getLast_around]
    rintro c ⟨⟩
    rfl

end Parts

section Answer

/-- A line that is read as it is meant: of visible characters, the quotes in its
targets paired, the relations of each link-value listed as they are written. -/
structure Plain (vs : List LinkValue) : Prop where
  visible : (to_str (line vs)).isSome
  paired : ∀ v ∈ vs, paired v.target.val
  literal : ∀ v ∈ vs, v.written_lists = v.lists

/-- A line that is passed over and has no link to a context. -/
structure Skipped (vs : List LinkValue) : Prop where
  hidden : to_str (line vs) = none
  none : ∀ v ∈ vs, v.lists = false

theorem to_str_eq {s t : List Char} (h : to_str s = some t) : t = s := by
  rw [to_str] at h
  split_ifs at h
  exact (Option.some.inj h).symm

/-- The targets that are read off a line of paired targets. -/
theorem targets_of_line {vs : List LinkValue} (hvisible : (to_str (line vs)).isSome)
    (hpaired : ∀ v ∈ vs, paired v.target.val) :
    targets_of (line vs) = (vs.filter LinkValue.written_lists).map fun v => v.target.val := by
  obtain ⟨s, hs⟩ := Option.isSome_iff_exists.mp hvisible
  rw [targets_of, hs, to_str_eq hs]
  dsimp only
  by_cases hne : vs = []
  · subst hne
    rfl
  · rw [split_line hpaired hne, List.filterMap_map, ← List.filterMap_eq_map, List.filterMap_filter]
    refine List.filterMap_congr fun v hv => ?_
    exact context_target_text (hpaired v hv)

theorem targets_of_plain {vs : List LinkValue} (h : Plain vs ∨ Skipped vs) :
    targets_of (line vs) = (vs.filter LinkValue.lists).map fun v => v.target.val := by
  rcases h with h | h
  · rw [targets_of_line h.visible h.paired, List.filter_congr h.literal]
  · have hnone : vs.filter LinkValue.lists = [] := List.filter_eq_nil_iff.mpr fun v hv => Bool.eq_false_iff.mp (h.none v hv)
    rw [targets_of, h.hidden, hnone]
    rfl

/-- The context that the field lines designate is the one that is found. -/
theorem link_context_designated (lines : List (List LinkValue)) (h : ∀ vs ∈ lines, Plain vs ∨ Skipped vs) :
    link_context (lines.map line) = designated lines := by
  rw [link_context_eq, designated, List.flatMap_map]
  congr 1
  induction lines with
  | nil => rfl
  | cons vs lines ih =>
      rw [List.flatMap_cons, List.flatten_cons, List.filter_append, List.map_append, targets_of_plain (h vs List.mem_cons_self),
        ih fun us hus => h us (List.mem_cons_of_mem vs hus)]

theorem answer_single (written lists : Bool) (v : LinkValue) :
    answer (([v].filter fun _ => written).map fun v => v.target.val) =
      answer (([v].filter fun _ => lists).map fun v => v.target.val) ↔ written = lists := by
  cases written <;> cases lists <;> simp [answer]

/-- One link-value, the quotes of its target paired, is read as it is meant
only where it is plain or skipped. -/
theorem alone_iff {v : LinkValue} (hpaired : paired v.target.val) :
    link_context [line [v]] = designated [[v]] ↔ Plain [v] ∨ Skipped [v] := by
  have hsingle (p : LinkValue → Bool) : [v].filter p = [v].filter fun _ => p v := rfl
  have hpairs : ∀ u ∈ [v], paired u.target.val := List.forall_mem_singleton.mpr hpaired
  rw [link_context_eq, List.flatMap_singleton, designated, List.flatten_singleton, hsingle LinkValue.lists]
  cases hvisible : to_str (line [v]) with
  | none =>
      have hhidden : targets_of (line [v]) = ([v].filter fun _ => false).map fun v => v.target.val := by
        rw [targets_of, hvisible]
        rfl
      rw [hhidden, answer_single]
      constructor
      · exact fun hlists => .inr ⟨hvisible, List.forall_mem_singleton.mpr hlists.symm⟩
      · rintro (hplain | hskipped)
        · have hsome := hplain.visible
          rw [hvisible] at hsome
          cases hsome
        · exact (hskipped.none v List.mem_cons_self).symm
  | some s =>
      have hsome : (to_str (line [v])).isSome := Option.isSome_iff_exists.mpr ⟨s, hvisible⟩
      rw [targets_of_line hsome hpairs, hsingle LinkValue.written_lists, answer_single]
      constructor
      · exact fun hliteral => .inl ⟨hsome, hpairs, List.forall_mem_singleton.mpr hliteral⟩
      · rintro (hplain | hskipped)
        · exact hplain.literal v List.mem_cons_self
        · rw [hskipped.hidden] at hvisible
          cases hvisible

def no_ows : Ows := ⟨[], fun _ h => absurd h List.not_mem_nil⟩

/-- A character as a quoted-string spells it. -/
def quote (c : Char) : Quoted := ⟨decide (c = '"' ∨ c = '\\'), c, fun h => not_or.mp (of_decide_eq_false h)⟩

/-- The same, with a backslash before a number sign. -/
def quote_escaped (c : Char) : Quoted :=
  if c = '#' then ⟨true, c, fun h => absurd h.symm Bool.false_ne_true⟩ else quote c

theorem rel_bare : ∀ c ∈ "rel".toList, bare c ∧ c ≠ '=' := by decide

theorem plain_unbracketed : '<' ∉ "http://a/c".toList ∧ '>' ∉ "http://a/c".toList := by decide

theorem quote_unbracketed : '<' ∉ "http://a/\"c".toList ∧ '>' ∉ "http://a/\"c".toList := by decide

/-- A link to a context whose relation is spelled so. -/
def context_link (target : Target) (cs : List Quoted) : LinkValue :=
  ⟨no_ows, target, no_ows, [⟨no_ows, ⟨"rel".toList, rel_bare⟩, no_ows, no_ows, some (.quoted cs), no_ows⟩]⟩

def plain_target : Target := ⟨"http://a/c".toList, plain_unbracketed⟩

def quote_target : Target := ⟨"http://a/\"c".toList, quote_unbracketed⟩

theorem link_context_plain :
    link_context ([[context_link plain_target (JSONLD_CONTEXT_REL.map quote)]].map line) =
      designated [[context_link plain_target (JSONLD_CONTEXT_REL.map quote)]] := by
  refine link_context_designated _ (List.forall_mem_singleton.mpr (.inl ⟨?_, ?_, ?_⟩))
  · decide
  · exact List.forall_mem_singleton.mpr rfl
  · exact List.forall_mem_singleton.mpr (by decide)

/-- A backslash in the relation, or a quote in the target, hides the link. -/
theorem escaped_relation_missed :
    (link_context [line [context_link plain_target (JSONLD_CONTEXT_REL.map quote_escaped)]] = .ok none ∧
      designated [[context_link plain_target (JSONLD_CONTEXT_REL.map quote_escaped)]] = .ok (some plain_target.val)) ∧
    (link_context [line [context_link quote_target (JSONLD_CONTEXT_REL.map quote)]] = .ok none ∧
      designated [[context_link quote_target (JSONLD_CONTEXT_REL.map quote)]] = .ok (some quote_target.val)) := by
  decide

end Answer

end AntaresBroker.LinkHeader
