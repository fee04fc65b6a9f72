import AntaresBroker.Compare
import AntaresBroker.Json
import AntaresBroker.Ql
import AntaresBroker.Text

namespace AntaresBroker.LangSelect

open Json Number Binary64 Ql Text Compare

/-- A weight as it is parsed, which may be no number. -/
inductive Weight
  | nan
  | num (x : F64)
deriving DecidableEq

section Parsing

def digits (s : List Char) : Nat := s.foldl (fun n c => 10 * n + (c.toNat - 48)) 0

def sign (s : List Char) : Bool × List Char :=
  match s with
  | '-' :: r => (true, r)
  | '+' :: r => (false, r)
  | r => (false, r)

/-- The exponent after the digits: nothing, or a mark, a sign and digits to the end. -/
def exponent (s : List Char) : Option Int :=
  match s with
  | [] => some 0
  | c :: r =>
      let (neg, ds) := sign r
      if c.toLower = 'e' ∧ ds ≠ [] ∧ ds.all Char.isDigit = true then
        some (if neg then -(digits ds : Int) else digits ds)
      else none

/-- The text of a 64-bit float: a sign, and a decimal, an infinity or no number. -/
def parse_f64 (s : List Char) : Option Weight :=
  let (neg, r) := sign s
  let lower := r.map Char.toLower
  if lower = "nan".toList then some .nan
  else if lower = "inf".toList ∨ lower = "infinity".toList then some (.num ⟨neg, infBits, le_refl _⟩)
  else
    let int := r.takeWhile Char.isDigit
    let point := r.dropWhile Char.isDigit
    let frac := if point.head? = some '.' then point.tail.takeWhile Char.isDigit else []
    let rest := if point.head? = some '.' then point.tail.dropWhile Char.isDigit else point
    if int = [] ∧ frac = [] then none
    else (exponent rest).map (fun e => .num (ofDecimal ⟨neg, digits (int ++ frac), e - frac.length⟩))

structure Range where
  q : Weight
  pos : Nat
  tag : List Char
deriving DecidableEq

/-- The first parameter that is a weight; without one it is 1. -/
def weight (params : List (List Char)) : Weight :=
  (params.findSome? (fun p => match trim p with
    | 'q' :: '=' :: v => parse_f64 v
    | _ => none)).getD (.num (ofDecimal ⟨false, 1, 0⟩))

def parse_range (part : List Char × Nat) : Option Range :=
  match (trim part.1).splitOn ';' with
  | [] => none
  | tag :: params => if trim tag = [] then none else some ⟨weight params, part.2, trim tag⟩

def ranges (lang : String) : List Range := ((lang.toList.splitOn ',').zipIdx).filterMap parse_range

end Parsing

section Order

def partial_cmp : Weight → Weight → Option Ordering
  | .num x, .num y => some (compare (key x) (key y))
  | _, _ => none

/-- Greater weights first, then the place in the list. -/
def cmp_range (a b : Range) : Ordering := ((partial_cmp b.q a.q).getD .eq).then (compare a.pos b.pos)

/-- Weights up to zero rule a range out; what is no number does not. -/
def unacceptable : Weight → Bool
  | .nan => false
  | .num x => key x ≤ 0

end Order

section Selection

def eq_ignore_ascii_case (k want : List Char) : Bool := k.map Char.toLower = want.map Char.toLower

def exact (want : List Char) (k : String) : Bool := eq_ignore_ascii_case k.toList want

/-- A longer tag: the wanted one and a hyphen. -/
def longer (want : List Char) (k : String) : Bool :=
  (splitAtByte (byteSize want) k.toList).any (fun p => p.2.head? = some '-' && eq_ignore_ascii_case p.1 want)

/-- From the end of a text: what stands before each hyphen, the longest first. -/
def cuts_rev : List Char → List (List Char)
  | [] => []
  | c :: r => if c = '-' then r.reverse :: cuts_rev r else cuts_rev r

/-- The wanted tag cut at its last hyphen, and again. -/
def cuts (want : List Char) : List (List Char) := cuts_rev want.reverse

variable (lm : Map)

def find (p : String → Bool) : Option (String × Value) := List.find? (fun e => p e.1) lm

def find_range (want : List Char) : Option (String × Value) :=
  (find lm (exact want)).or ((find lm (longer want)).or ((cuts want).findSome? (fun w => find lm (exact w))))

/-- Any language, the one without a tag if there is one. -/
def default_entry : Option (String × Value) :=
  match lm.lookup "@none" with
  | some v => some ("@none", v)
  | none => lm.head?

/-- The entry for ranges that are in order. -/
def select_ordered (ordered : List Range) : Option (String × Value) :=
  ((ordered.filter (fun r => !unacceptable r.q && r.tag ≠ ['*'])).findSome? (fun r => find_range lm r.tag)).or
    (default_entry lm)

def select_lang (lang : String) : Option (String × Value) := select_ordered lm (sort_by cmp_range (ranges lang))

end Selection

section Specification

def value : Weight → Int
  | .nan => 0
  | .num x => key x

def Matches (want : List Char) (k : String) : Prop :=
  exact want k = true ∨ longer want k = true ∨ ∃ w ∈ cuts want, exact w k = true

/-- A key that a range takes: an exact tag, without one a longer one, and without that a shorter one. -/
def Best (lm : Map) (want : List Char) (k : String) : Prop :=
  exact want k = true ∨ (∀ e ∈ lm, exact want e.1 = false) ∧
    (longer want k = true ∨ (∀ e ∈ lm, longer want e.1 = false) ∧ ∃ w ∈ cuts want, exact w k = true)

variable (lm : Map)

/-- A range with a weight above zero that matches a tag of the map. -/
structure Eligible (r : Range) : Prop where
  named : r.tag ≠ ['*']
  weighed : 0 < value r.q
  found : ∃ e ∈ lm, Matches r.tag e.1

/-- The first of them by weight and place. -/
structure First (rs : List Range) (r : Range) : Prop where
  mem : r ∈ rs
  eligible : Eligible lm r
  least : ∀ r' ∈ rs, Eligible lm r' → value r'.q < value r.q ∨ value r'.q = value r.q ∧ r.pos ≤ r'.pos

structure Selects (lang : String) : Prop where
  total : TotalOn cmp_range (ranges lang)
  arranged : ∀ l, l.Perm (ranges lang) → l.Pairwise (fun a b => (cmp_range a b).isLE) →
    select_ordered lm l = select_lang lm lang
  none_iff : select_lang lm lang = none ↔ lm = []
  entry : ∀ e, select_lang lm lang = some e → e ∈ lm
  first : ∀ r, First lm (ranges lang) r → ∃ e, select_lang lm lang = some e ∧ Best lm r.tag e.1

/-- A range without a number for a weight that matches before any other of its kind. -/
structure Unweighed (rs : List Range) (n : Range) : Prop where
  mem : n ∈ rs
  nan : n.q = .nan
  named : n.tag ≠ ['*']
  found : ∃ e ∈ lm, Matches n.tag e.1
  least : ∀ n' ∈ rs, n'.q = .nan → n'.tag ≠ ['*'] → (∃ e ∈ lm, Matches n'.tag e.1) → n.pos ≤ n'.pos

/-- What is no number for a weight stands between no two ranges the weights
would turn round, and takes no tag from the first range with a weight. -/
structure Harmless (rs : List Range) : Prop where
  between : ∀ a ∈ rs, ∀ n ∈ rs, ∀ b ∈ rs, a.q ≠ .nan → n.q = .nan → b.q ≠ .nan →
    a.pos < n.pos → n.pos < b.pos → value b.q ≤ value a.q
  ahead : ∀ r n, First lm rs r → Unweighed lm rs n → n.pos < r.pos → ∀ e, find_range lm n.tag = some e → Best lm r.tag e.1

end Specification

section Comparison

theorem mem_ranges {lang : String} {r : Range} (h : r ∈ ranges lang) :
    ∃ part, (lang.toList.splitOn ',')[r.pos]? = some part ∧ parse_range (part, r.pos) = some r := by
  obtain ⟨⟨part, i⟩, hmem, hparse⟩ := List.mem_filterMap.mp h
  have hpos : r.pos = i := by
    unfold parse_range at hparse
    split at hparse
    · cases hparse
    · split_ifs at hparse
      injection hparse with hparse
      exact hparse ▸ rfl
  refine ⟨part, ?_, hpos ▸ hparse⟩
  rw [hpos]
  exact List.mem_zipIdx_iff_getElem?.mp hmem

/-- A range is known by its place. -/
theorem eq_of_pos {lang : String} {a b : Range} (ha : a ∈ ranges lang) (hb : b ∈ ranges lang) (h : a.pos = b.pos) :
    a = b := by
  obtain ⟨p, hp, hpa⟩ := mem_ranges ha
  obtain ⟨p', hp', hpb⟩ := mem_ranges hb
  rw [h, hp'] at hp
  injection hp with hp
  rw [h, ← hp, hpb] at hpa
  exact (Option.some.inj hpa).symm

theorem cmp_range_swap (a b : Range) : cmp_range b a = (cmp_range a b).swap := by
  unfold cmp_range
  rw [Ordering.swap_then]
  congr 1
  · cases a.q with
    | nan => cases b.q <;> rfl
    | num x =>
        cases b.q with
        | nan => rfl
        | num y => exact Std.OrientedOrd.eq_swap
  · exact Std.OrientedOrd.eq_swap

/-- Weights are compared where both are numbers, places otherwise. -/
theorem cmp_range_isLE {a b : Range} : (cmp_range a b).isLE = true ↔
    (a.q ≠ .nan ∧ b.q ≠ .nan ∧ value b.q < value a.q) ∨
      ((a.q ≠ .nan → b.q ≠ .nan → value b.q = value a.q) ∧ a.pos ≤ b.pos) := by
  have hplace : (compare a.pos b.pos).isLE = true ↔ a.pos ≤ b.pos := Nat.isLE_compare
  unfold cmp_range
  rw [Ordering.isLE_then_iff_and, hplace]
  cases ha : a.q with
  | nan => cases hb : b.q <;> simp [partial_cmp]
  | num x =>
      cases hb : b.q with
      | nan => simp [partial_cmp]
      | num y =>
          have hle : (compare (key y) (key x)).isLE = true ↔ key y ≤ key x := Int.isLE_compare
          have hlt : compare (key y) (key x) = .lt ↔ key y < key x := Int.compare_eq_lt
          simp only [partial_cmp, Option.getD_some, hle, hlt, value, ne_eq, reduceCtorEq, not_false_eq_true, true_and,
            forall_const]
          omega

variable {lang : String}

/-- The comparison is a total order just where nothing without a number stands in between. -/
theorem totalOn_iff : TotalOn cmp_range (ranges lang) ↔
    ∀ a ∈ ranges lang, ∀ n ∈ ranges lang, ∀ b ∈ ranges lang, a.q ≠ .nan → n.q = .nan → b.q ≠ .nan →
      a.pos < n.pos → n.pos < b.pos → value b.q ≤ value a.q := by
  constructor
  · intro h a ha n hn b hb haq hnq hbq han hnb
    have han' : (cmp_range a n).isLE = true := cmp_range_isLE.mpr (.inr ⟨fun _ h => absurd hnq h, han.le⟩)
    have hnb' : (cmp_range n b).isLE = true := cmp_range_isLE.mpr (.inr ⟨fun h => absurd hnq h, hnb.le⟩)
    rcases cmp_range_isLE.mp (h.trans a ha n hn b hb han' hnb') with ⟨-, -, hlt⟩ | ⟨heq, -⟩
    · exact hlt.le
    · exact (heq haq hbq).le
  · intro h
    refine ⟨fun a _ b _ => cmp_range_swap a b, ?_, ?_⟩
    · intro a ha b hb c hc hab hbc
      rw [cmp_range_isLE] at hab hbc ⊢
      have hplace {r s : Range} (hr : r ∈ ranges lang) (hs : s ∈ ranges lang) (hq : r.q = .nan) (hq' : s.q ≠ .nan) :
          r.pos ≠ s.pos := fun heq => hq' (eq_of_pos hr hs heq ▸ hq)
      by_cases haq : a.q = .nan <;> by_cases hbq : b.q = .nan <;> by_cases hcq : c.q = .nan <;>
        simp only [haq, hbq, hcq, ne_eq, not_true_eq_false, not_false_eq_true, true_and, false_and, and_false, false_or,
          forall_const, IsEmpty.forall_iff] at hab hbc ⊢
      · exact hab.trans hbc
      · exact hab.trans hbc
      · exact hab.trans hbc
      · -- c before a before b by place would turn the weights of c and b round
        by_contra hca
        have hne := hplace ha hb haq hbq
        have hle := h c hc a ha b hb hcq haq hbq (by omega) (by omega)
        omega
      · exact hab.trans hbc
      · have hab' := hplace hb ha hbq haq
        have hbc' := hplace hb hc hbq hcq
        have hle := h a ha b hb c hc haq hbq hcq (by omega) (by omega)
        omega
      · by_contra hca
        have hne := hplace hc hb hcq hbq
        have hle := h b hb c hc a ha hbq hcq haq (by omega) (by omega)
        omega
      · omega
    · intro a ha b hb heq
      exact eq_of_pos ha hb (Nat.compare_eq_eq.mp (Ordering.then_eq_eq.mp heq).2)

end Comparison

section Finding

variable {lm : Map} {want : List Char}

theorem find_eq_none {p : String → Bool} : find lm p = none ↔ ∀ e ∈ lm, p e.1 = false := by
  simp [find, List.find?_eq_none]

theorem find_some {p : String → Bool} {e : String × Value} (h : find lm p = some e) : e ∈ lm ∧ p e.1 = true :=
  ⟨List.mem_of_find?_eq_some h, List.find?_some (p := fun e : String × Value => p e.1) h⟩

theorem find_range_best {e : String × Value} (h : find_range lm want = some e) : e ∈ lm ∧ Best lm want e.1 := by
  unfold find_range at h
  cases hexact : find lm (exact want) with
  | some e' =>
      rw [hexact, Option.some_or] at h
      cases h
      exact ⟨(find_some hexact).1, .inl (find_some hexact).2⟩
  | none =>
      rw [hexact, Option.none_or] at h
      cases hlonger : find lm (longer want) with
      | some e' =>
          rw [hlonger, Option.some_or] at h
          cases h
          exact ⟨(find_some hlonger).1, .inr ⟨find_eq_none.mp hexact, .inl (find_some hlonger).2⟩⟩
      | none =>
          rw [hlonger, Option.none_or] at h
          obtain ⟨w, hw, hfound⟩ := List.exists_of_findSome?_eq_some h
          obtain ⟨hmem, hshort⟩ := find_some hfound
          exact ⟨hmem, .inr ⟨find_eq_none.mp hexact, .inr ⟨find_eq_none.mp hlonger, w, hw, hshort⟩⟩⟩

theorem find_range_isSome : (find_range lm want).isSome = true ↔ ∃ e ∈ lm, Matches want e.1 := by
  constructor
  · intro h
    obtain ⟨e, he⟩ := Option.isSome_iff_exists.mp h
    obtain ⟨hmem, hbest⟩ := find_range_best he
    refine ⟨e, hmem, ?_⟩
    rcases hbest with hexact | ⟨-, hlonger | ⟨-, hshort⟩⟩
    · exact .inl hexact
    · exact .inr (.inl hlonger)
    · exact .inr (.inr hshort)
  · rintro ⟨e, hmem, hmatch⟩
    by_contra hnone
    rw [Option.not_isSome_iff_eq_none, find_range, Option.or_eq_none_iff, Option.or_eq_none_iff, find_eq_none,
      find_eq_none, List.findSome?_eq_none_iff] at hnone
    obtain ⟨hexact, hlonger, hshort⟩ := hnone
    rcases hmatch with h | h | ⟨w, hw, h⟩
    · rw [hexact e hmem] at h
      cases h
    · rw [hlonger e hmem] at h
      cases h
    · rw [find_eq_none.mp (hshort w hw) e hmem] at h
      cases h

theorem select_ordered_none (l : List Range) : select_ordered lm l = none ↔ lm = [] := by
  constructor
  · intro h
    have hdefault := (Option.or_eq_none_iff.mp h).2
    unfold default_entry at hdefault
    split at hdefault
    · cases hdefault
    · exact List.head?_eq_none_iff.mp hdefault
  · rintro rfl
    have hnone (r : Range) : find_range [] r.tag = none := by
      rw [← Option.not_isSome_iff_eq_none, find_range_isSome]
      simp
    rw [select_ordered, Option.or_eq_none_iff, List.findSome?_eq_none_iff]
    exact ⟨fun r _ => hnone r, rfl⟩

theorem select_ordered_mem {l : List Range} {e : String × Value} (h : select_ordered lm l = some e) : e ∈ lm := by
  rcases Option.or_eq_some_iff.mp h with h | ⟨-, h⟩
  · obtain ⟨r, -, hr⟩ := List.exists_of_findSome?_eq_some h
    exact (find_range_best hr).1
  · unfold default_entry at h
    split at h
    · rename_i v hv
      cases h
      exact SortedMap.mem_of_lookup hv
    · exact List.mem_of_head? h

/-- A range that is tried and finds something. -/
structure Tried (lm : Map) (r : Range) : Prop where
  acceptable : unacceptable r.q = false
  named : r.tag ≠ ['*']
  found : ∃ e ∈ lm, Matches r.tag e.1

/-- The first range in order that is tried and finds something decides. -/
theorem select_ordered_first {l : List Range} {r : Range} (hr : r ∈ l) (ht : Tried lm r)
    (hordered : l.Pairwise (fun a b => (cmp_range a b).isLE)) :
    ∃ a ∈ l, Tried lm a ∧ select_ordered lm l = find_range lm a.tag ∧
      ∀ b ∈ l, Tried lm b → a = b ∨ (cmp_range a b).isLE = true := by
  have htried {b : Range} : (b ∈ l.filter (fun r => !unacceptable r.q && r.tag ≠ ['*']) ∧ (find_range lm b.tag).isSome = true) ↔
      b ∈ l ∧ Tried lm b := by
    rw [List.mem_filter, find_range_isSome]
    constructor
    · rintro ⟨⟨hmem, hb⟩, hfound⟩
      simp only [Bool.and_eq_true, Bool.not_eq_true', decide_eq_true_eq] at hb
      exact ⟨hmem, hb.1, hb.2, hfound⟩
    · rintro ⟨hmem, hacc, hnamed, hfound⟩
      exact ⟨⟨hmem, by simp [hacc, hnamed]⟩, hfound⟩
  obtain ⟨hin, hsome⟩ := htried.mpr ⟨hr, ht⟩
  obtain ⟨e, he⟩ := Option.isSome_iff_exists.mp
    (List.findSome?_isSome_iff.mpr ⟨r, hin, hsome⟩ :
      ((l.filter (fun r => !unacceptable r.q && r.tag ≠ ['*'])).findSome? (fun r => find_range lm r.tag)).isSome)
  obtain ⟨before, a, after, hsplit, ha, hbefore⟩ := List.findSome?_eq_some_iff.mp he
  have hmem : a ∈ l.filter (fun r => !unacceptable r.q && r.tag ≠ ['*']) := by rw [hsplit]; simp
  obtain ⟨hal, hat⟩ := htried.mp ⟨hmem, by simp [ha]⟩
  refine ⟨a, hal, hat, ?_, ?_⟩
  · rw [select_ordered, he, ha, Option.some_or]
  · intro b hb hbt
    obtain ⟨hbin, hbsome⟩ := htried.mpr ⟨hb, hbt⟩
    rw [hsplit, List.mem_append, List.mem_cons] at hbin
    rcases hbin with hbin | rfl | hbin
    · rw [hbefore b hbin] at hbsome
      cases hbsome
    · exact .inl rfl
    · have hpair := hordered.filter (fun r => !unacceptable r.q && r.tag ≠ ['*'])
      rw [hsplit, List.pairwise_append] at hpair
      exact .inr ((List.pairwise_cons.mp hpair.2.1).1 b hbin)

end Finding

section Selecting

variable (lm : Map) (lang : String)

theorem Eligible.tried {r : Range} (h : Eligible lm r) : Tried lm r where
  acceptable := by
    have hw := h.weighed
    cases hq : r.q with
    | nan => rw [hq] at hw; exact absurd hw (lt_irrefl 0)
    | num x =>
        rw [hq] at hw
        exact decide_eq_false (not_le.mpr hw)
  named := h.named
  found := h.found

theorem Tried.eligible {r : Range} (h : Tried lm r) (hq : r.q ≠ .nan) : Eligible lm r where
  named := h.named
  weighed := by
    have hacc := h.acceptable
    cases hr : r.q with
    | nan => exact absurd hr hq
    | num x =>
        rw [hr] at hacc
        exact not_le.mp (of_decide_eq_false hacc)
  found := h.found

theorem Eligible.weight {r : Range} (h : Eligible lm r) : r.q ≠ .nan := by
  intro hq
  have hw := h.weighed
  rw [hq] at hw
  exact absurd hw (lt_irrefl 0)

theorem Unweighed.tried {rs : List Range} {n : Range} (h : Unweighed lm rs n) : Tried lm n :=
  ⟨by rw [h.nan]; rfl, h.named, h.found⟩

variable {lm lang}

/-- What decides: the first range with a weight, or one without a number that stands before it. -/
theorem select_lang_first (hb : TotalOn cmp_range (ranges lang)) {r : Range} (hr : First lm (ranges lang) r) :
    ∃ a, select_lang lm lang = find_range lm a.tag ∧ (∃ e ∈ lm, Matches a.tag e.1) ∧
      (a = r ∧ (∀ n, Unweighed lm (ranges lang) n → r.pos ≤ n.pos) ∨ Unweighed lm (ranges lang) a ∧ a.pos < r.pos) := by
  have hperm : (sort_by cmp_range (ranges lang)).Perm (ranges lang) := sort_by_perm _
  obtain ⟨a, ha, hat, hsel, hfirst⟩ :=
    select_ordered_first (hperm.mem_iff.mpr hr.mem) (hr.eligible.tried lm) hb.sort_by_ordered
  have ha' := hperm.mem_iff.mp ha
  refine ⟨a, hsel, hat.found, ?_⟩
  have hnone {n : Range} (h : a = r) (hn : Unweighed lm (ranges lang) n) : r.pos ≤ n.pos := by
    subst h
    rcases hfirst n (hperm.mem_iff.mpr hn.mem) (hn.tried lm) with heq | hle
    · exact heq ▸ le_refl _
    · rcases cmp_range_isLE.mp hle with ⟨-, h, -⟩ | ⟨-, hpos⟩
      · exact absurd hn.nan h
      · exact hpos
  have hlast (h : a = r) : a = r ∧ ∀ n, Unweighed lm (ranges lang) n → r.pos ≤ n.pos := ⟨h, fun _ => hnone h⟩
  rcases hfirst r (hperm.mem_iff.mpr hr.mem) (hr.eligible.tried lm) with heq | hle
  · exact .inl (hlast heq)
  · by_cases haq : a.q = .nan
    · right
      rcases cmp_range_isLE.mp hle with ⟨h, -⟩ | ⟨-, hpos⟩
      · exact absurd haq h
      · refine ⟨⟨ha', haq, hat.named, hat.found, ?_⟩, ?_⟩
        · intro n hn hnq hnamed hfound
          rcases hfirst n (hperm.mem_iff.mpr hn) ⟨by rw [hnq]; rfl, hnamed, hfound⟩ with heq | hle
          · exact heq ▸ le_refl _
          · rcases cmp_range_isLE.mp hle with ⟨h, -⟩ | ⟨-, hpos⟩
            · exact absurd haq h
            · exact hpos
        · apply lt_of_le_of_ne hpos
          intro heq
          exact hr.eligible.weight lm (eq_of_pos ha' hr.mem heq ▸ haq)
    · refine .inl (hlast ?_)
      have hrq := hr.eligible.weight lm
      rcases hr.least a ha' (hat.eligible lm haq) with hlt | ⟨hval, hpos⟩
      · rcases cmp_range_isLE.mp hle with ⟨-, -, h⟩ | ⟨h, -⟩
        · omega
        · have := h haq hrq
          omega
      · rcases cmp_range_isLE.mp hle with ⟨-, -, h⟩ | ⟨-, h⟩
        · omega
        · exact eq_of_pos ha' hr.mem (by omega)

/-- A selection is as it should be just where what is no number does no harm. -/
theorem select_lang_iff (lm : Map) (lang : String) : Selects lm lang ↔ Harmless lm (ranges lang) := by
  constructor
  · intro h
    refine ⟨totalOn_iff.mp h.total, ?_⟩
    intro r n hr hn hpos e he
    obtain ⟨a, hsel, -, ⟨-, hlate⟩ | ⟨ha, -⟩⟩ := select_lang_first h.total hr
    · exact absurd (hlate n hn) (not_le.mpr hpos)
    · have hle := ha.least n hn.mem hn.nan hn.named hn.found
      have hge := hn.least a ha.mem ha.nan ha.named ha.found
      have heq := eq_of_pos ha.mem hn.mem (le_antisymm hle hge)
      obtain ⟨e', he', hbest⟩ := h.first r hr
      rw [hsel, heq, he] at he'
      cases he'
      exact hbest
  · rintro ⟨hbetween, hahead⟩
    have htotal := totalOn_iff.mpr hbetween
    refine ⟨htotal, ?_, select_ordered_none _, fun e => select_ordered_mem, ?_⟩
    · intro l hperm hordered
      rw [htotal.arranged hperm hordered]
      rfl
    · intro r hr
      obtain ⟨a, hsel, hfound, hcase⟩ := select_lang_first htotal hr
      obtain ⟨e, he⟩ := Option.isSome_iff_exists.mp (find_range_isSome.mpr hfound)
      refine ⟨e, hsel.trans he, ?_⟩
      rcases hcase with ⟨rfl, -⟩ | ⟨ha, hpos⟩
      · exact (find_range_best he).2
      · exact hahead r a hr ha hpos e he

end Selecting

section Unnumbered

def greetings : Map := [("de", .string "Guten Tag"), ("en", .string "Hello"), ("fr", .string "Bonjour")]

def one : F64 := ofDecimal ⟨false, 1, 0⟩

theorem unnumbered_ranges : ranges "en;q=nan,fr" = [⟨.nan, 0, "en".toList⟩, ⟨.num one, 1, "fr".toList⟩] := by
  decide +kernel

def half : F64 := ofDecimal ⟨false, 5, -1⟩

def most : F64 := ofDecimal ⟨false, 9, -1⟩

theorem turned_ranges : ranges "fr;q=0.5,en;q=nan,de;q=0.9" =
    [⟨.num half, 0, "fr".toList⟩, ⟨.nan, 1, "en".toList⟩, ⟨.num most, 2, "de".toList⟩] := by
  decide +kernel

/-- A weight that is no number wins, and between two others leaves no order. -/
theorem nan_weight_misselects :
    ¬ Selects greetings "en;q=nan,fr" ∧ ¬ Selects greetings "fr;q=0.5,en;q=nan,de;q=0.9" := by
  constructor
  · intro h
    have hfirst : First greetings (ranges "en;q=nan,fr") ⟨.num one, 1, "fr".toList⟩ := by
      refine ⟨by rw [unnumbered_ranges]; exact List.mem_cons_of_mem _ List.mem_cons_self, ⟨by decide, by decide +kernel, ?_⟩, ?_⟩
      · exact ⟨("fr", .string "Bonjour"), by simp [greetings], .inl (by decide)⟩
      · intro r hr heligible
        rw [unnumbered_ranges] at hr
        rcases List.mem_cons.mp hr with rfl | hr
        · exact absurd heligible.weighed (lt_irrefl 0)
        · rw [List.mem_singleton.mp hr]
          exact .inr ⟨rfl, le_refl _⟩
    obtain ⟨e, he, hbest⟩ := h.first _ hfirst
    have hordered : (ranges "en;q=nan,fr").Pairwise (fun a b => (cmp_range a b).isLE) := by
      rw [unnumbered_ranges]
      exact List.pairwise_pair.mpr rfl
    have hsel : select_ordered greetings (ranges "en;q=nan,fr") = some ("en", .string "Hello") := by
      rw [unnumbered_ranges]
      decide
    rw [← h.arranged _ (List.Perm.refl _) hordered, hsel] at he
    cases he
    rcases hbest with hexact | ⟨hnone, -⟩
    · exact absurd hexact (by decide)
    · have := hnone ("fr", .string "Bonjour") (by simp [greetings])
      exact absurd this (by decide)
  · intro h
    have hle := totalOn_iff.mp h.total
    rw [turned_ranges] at hle
    have := hle ⟨.num half, 0, "fr".toList⟩ (by simp) ⟨.nan, 1, "en".toList⟩ (by simp) ⟨.num most, 2, "de".toList⟩ (by simp)
      (by simp) rfl (by simp) (by decide) (by decide)
    exact absurd this (by decide +kernel)

end Unnumbered

end AntaresBroker.LangSelect
