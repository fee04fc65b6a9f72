import AntaresBroker.Json
import AntaresBroker.NumberText
import AntaresBroker.QueryText
import Mathlib.Data.String.Basic

namespace AntaresBroker.PageLinks

open Json NumberText QueryText

/-- The page size of a request that names none, and the largest one; pages are
counted in machine words, which the ceiling stays far below. -/
structure AppState where
  default_limit : Nat
  max_limit : Nat
  bounded : max_limit + 1 < 2 ^ 63

abbrev Params := BTreeMap String String

/-- What a request for a page is refused for. -/
inductive PageError
  | invalid_limit (l : String)
  | too_many_results (limit max_limit : Nat)
  | limit_zero
  | invalid_offset (o : String)
  | offset_out_of_range (offset : Nat)
deriving DecidableEq

def strip_plus : List Char → List Char
  | '+' :: ds => ds
  | ds => ds

/-- The number grammar of a machine word: digits, a plus sign before them allowed. -/
def parse_usize (s : String) : Option Nat :=
  let ds := strip_plus s.toList
  if ds ≠ [] ∧ ds.all Char.isDigit ∧ value ds < 2 ^ 64 then some (value ds) else none

def limit_of (st : AppState) (params : Params) : Except PageError Nat :=
  match params.get "limit" with
  | none => .ok st.default_limit
  | some l =>
      match parse_usize l with
      | some limit => .ok limit
      | none => .error (.invalid_limit l)

def offset_of (params : Params) : Except PageError Nat :=
  match params.get "offset" with
  | none => .ok 0
  | some o =>
      match parse_usize o with
      | some offset => .ok offset
      | none => .error (.invalid_offset o)

/-- The offset, the limit, and whether the total is asked for. -/
def page_params (st : AppState) (params : Params) : Except PageError (Nat × Nat × Bool) :=
  let count := decide (params.get "count" = some "true")
  match limit_of st params with
  | .error e => .error e
  | .ok limit =>
      if st.max_limit < limit then .error (.too_many_results limit st.max_limit)
      else if limit = 0 ∧ count = false then .error .limit_zero
      else match offset_of params with
        | .error e => .error e
        | .ok offset =>
            if 2 ^ 63 ≤ offset then .error (.offset_out_of_range offset) else .ok (offset, limit, count)

def KEPT : List UInt8 := "-._~!$'()*,;:@/?".toList.map (fun c => UInt8.ofNat c.toNat)

/-- A value as it stands in a query string. -/
def query_value (s : String) : List Char := pct_encode s.toList KEPT.contains

inductive Accept
  | Json
  | LdJson
  | GeoJson

def Accept.text : Accept → String
  | .Json => "application/json"
  | .LdJson => "application/ld+json"
  | .GeoJson => "application/geo+json"

/-- The text of a link and the relation it states. -/
structure Link where
  rel : String
  text : List Char

/-- The resources whose links keep the limit and the offset last, the limit as it was given. -/
def csource_style (path : String) : Bool := decide ("csource".toList <:+: path.toList)

def member (p : String × String) : List Char := p.1.toList ++ '=' :: query_value p.2

def sort (qp : List (List Char)) : List (List Char) :=
  qp.mergeSort (fun a b => decide (String.ofList a ≤ String.ofList b))

/-- The members of the query of a link. -/
def query_members (params : Params) (path : String) (off : Nat) : List (List Char) :=
  let offset := "offset=".toList ++ digits off
  if csource_style path then
    sort ((params.entries.filter (fun p => p.1 ≠ "offset" ∧ p.1 ≠ "limit")).map member) ++
      (((params.get "limit").toList.map (fun l => "limit=".toList ++ l.toList)) ++ [offset])
  else sort ((params.entries.filter (fun p => p.1 ≠ "offset")).map member ++ [offset])

def mk (params : Params) (path : String) (accept : Accept) (off : Nat) (rel : String) : Link :=
  let ty := if csource_style path then Accept.LdJson else accept
  ⟨rel, '<' :: (path.toList ++ '?' :: (['&'].intercalate (query_members params path off) ++
    '>' :: ("; rel=\"" ++ rel ++ "\";type=\"" ++ ty.text ++ "\"").toList))⟩

/-- `next` where elements remain, `prev` behind the first page. -/
def page_links (params : Params) (path : String) (accept : Accept) (offset limit total : Nat) : List Link :=
  (if offset + limit < total ∧ 0 < limit then [mk params path accept (offset + limit) "next"] else []) ++
    (if 0 < offset then [mk params path accept (offset - max limit 1) "prev"] else [])

def paginate_impl (st : AppState) (params : Params) (found : List Value) (path : String) (accept : Accept)
    (pre : Option Nat) : Except PageError (List Value × Option Nat × List Link) :=
  match page_params st params with
  | .error e => .error e
  | .ok (offset, limit, count) =>
      let total := pre.getD found.length
      let page := if pre.isSome then found else (found.drop offset).take limit
      .ok (page, if count then some total else none, page_links params path accept offset limit total)

section Following

def parse_pair (p : List Char) : Option (String × String) :=
  (decode (p.takeWhile (· ≠ '='))).bind fun k =>
    (decode ((p.dropWhile (· ≠ '=')).drop 1)).map fun v => (String.ofList k, String.ofList v)

/-- A query string, read back. -/
def read_query (q : List Char) : Option Params :=
  (((q.splitOn '&').filter (· ≠ [])).mapM parse_pair).map (fun ps => ps.foldl (fun m p => m.insert p.1 p.2) BTreeMap.empty)

/-- The query of the target of a link: what stands behind the path, up to the end of
the target or a fragment. -/
def read_link (path : String) (link : Link) : Option Params :=
  read_query ((link.text.drop (path.toList.length + 2)).takeWhile (fun c => !(['>', '#'].contains c)))

/-- The pages met by following the `next` links; none if one is refused or cannot
be read, or if there are more than `fuel`. -/
def walk (st : AppState) (found : List Value) (path : String) (accept : Accept) : Nat → Params → Option (List (List Value))
  | 0, _ => none
  | fuel + 1, params =>
      match paginate_impl st params found path accept none with
      | .error _ => none
      | .ok (page, _, links) =>
          match links.find? (fun l => l.rel = "next") with
          | none => some [page]
          | some link =>
              match read_link path link with
              | none => none
              | some params => (walk st found path accept fuel params).map (page :: ·)

/-- The link leads to the page at `off` of the same request. -/
def LeadsTo (st : AppState) (params : Params) (path : String) (limit : Nat) (count : Bool) (off : Nat) (link : Link) : Prop :=
  ∃ params', read_link path link = some params' ∧ (∀ k, k ≠ "offset" → params'.get k = params.get k) ∧
    page_params st params' = .ok (off, limit, count)

/-- The links of every page of every list lead to the pages next to it, and the
`next` links visit the list once. -/
structure Visits (st : AppState) (params : Params) (path : String) (accept : Accept) (offset limit : Nat) (count : Bool) :
    Prop where
  next : ∀ found : List Value, found.length < 2 ^ 63 → ∃ page total links,
    paginate_impl st params found path accept none = .ok (page, total, links) ∧ page = (found.drop offset).take limit ∧
    ((∃ link ∈ links, link.rel = "next") ↔ offset + limit < found.length) ∧
    ∀ link ∈ links, link.rel = "next" → LeadsTo st params path limit count (offset + limit) link
  prev : ∀ found : List Value, found.length < 2 ^ 63 → 0 < offset → ∃ page total links,
    paginate_impl st params found path accept none = .ok (page, total, links) ∧
    ∃ link ∈ links, link.rel = "prev" ∧ ∃ off, off < offset ∧ offset ≤ off + limit ∧
      LeadsTo st params path limit count off link
  visit : ∀ found : List Value, found.length < 2 ^ 63 →
    ∃ pages, walk st found path accept (found.length + 1) (params.insert "offset" "0") = some pages ∧ pages.flatten = found

/-- The characters that end a member, its name or the target of a link, and the plus sign. -/
def RESERVED : List Char := ['&', '=', '>', '#', '+']

/-- A name that a query string reads as itself. -/
def PlainName (k : String) : Prop := (∀ c ∈ k.toList, c ∉ RESERVED) ∧ Unescaped k.toList

def PlainNames (params : Params) : Prop := ∀ k, k ≠ "offset" → (params.get k).isSome = true → PlainName k

/-- No `limit` that a link repeats as it was given has a plus sign. -/
def PlainLimit (params : Params) (path : String) : Prop :=
  csource_style path = true → ∀ l, params.get "limit" = some l → l.toList.head? ≠ some '+'

end Following

section Params

variable {st : AppState} {params : Params} {path : String} {accept : Accept}

theorem strip_plus_digits {ds : List Char} (h : ∀ c ∈ ds, c.isDigit = true) : strip_plus ds = ds := by
  unfold strip_plus
  split
  · exact absurd (h '+' List.mem_cons_self) (by decide)
  · rfl

theorem parse_digits {n : Nat} (h : n < 2 ^ 64) : parse_usize (String.ofList (digits n)) = some n := by
  have hdigits : ∀ c ∈ digits n, c.isDigit = true := fun c hc => isDigit_of_mem_digits hc
  unfold parse_usize
  rw [String.toList_ofList, strip_plus_digits hdigits]
  dsimp only
  rw [value_digits]
  exact if_pos ⟨digits_ne_nil n, List.all_eq_true.mpr hdigits, h⟩

/-- A machine word is written with digits, and a plus sign before them at most. -/
theorem digits_of_parse {s : String} {n : Nat} (h : parse_usize s = some n) :
    ∃ ds, (s.toList = ds ∨ s.toList = '+' :: ds) ∧ ∀ c ∈ ds, c.isDigit = true := by
  unfold parse_usize at h
  dsimp only at h
  split_ifs at h with hds
  refine ⟨strip_plus s.toList, ?_, fun c hc => List.all_eq_true.mp hds.2.1 c hc⟩
  unfold strip_plus
  split
  · rename_i ds hs
    exact Or.inr hs
  · exact Or.inl rfl

theorem page_params_bounds {offset limit : Nat} {count : Bool} (h : page_params st params = .ok (offset, limit, count)) :
    offset < 2 ^ 63 ∧ limit ≤ st.max_limit := by
  unfold page_params at h
  dsimp only at h
  split at h
  · exact nomatch h
  · split_ifs at h
    split at h
    · exact nomatch h
    · split_ifs at h
      obtain ⟨rfl, rfl, -⟩ := by simpa using h
      omega

/-- Another offset asks for another page of the same size. -/
theorem page_params_insert {offset limit : Nat} {count : Bool} (h : page_params st params = .ok (offset, limit, count))
    {off : Nat} (hoff : off < 2 ^ 63) :
    page_params st (params.insert "offset" (String.ofList (digits off))) = .ok (off, limit, count) := by
  have hlimit : limit_of st (params.insert "offset" (String.ofList (digits off))) = limit_of st params := by
    unfold limit_of
    rw [BTreeMap.get_insert, if_neg (by decide)]
  have hcount : (params.insert "offset" (String.ofList (digits off))).get "count" = params.get "count" := by
    rw [BTreeMap.get_insert, if_neg (by decide)]
  have hoffset : offset_of (params.insert "offset" (String.ofList (digits off))) = .ok off := by
    unfold offset_of
    rw [BTreeMap.get_insert, if_pos rfl]
    dsimp only
    rw [parse_digits (by omega)]
  unfold page_params at h ⊢
  dsimp only at h ⊢
  rw [hlimit, hcount, hoffset]
  split at h
  · exact nomatch h
  · split_ifs at h with hmax hzero
    rw [if_neg hmax, if_neg hzero]
    split at h
    · exact nomatch h
    · split_ifs at h
      rw [if_neg (by omega)]
      simp only [Except.ok.injEq, Prod.mk.injEq] at h ⊢
      exact ⟨trivial, h.2⟩

end Params

section Reading

theorem not_mem_digits {n : Nat} {c : Char} (hc : c.isDigit = false) : c ∉ digits n :=
  fun h => absurd (isDigit_of_mem_digits h) (by rw [hc]; exact Bool.false_ne_true)

theorem map_plus {s : List Char} (h : '+' ∉ s) : s.map plus_to_space = s := by
  refine (List.map_congr_left fun c hc => ?_).trans (List.map_id s)
  have hne : c ≠ '+' := fun he => h (he ▸ hc)
  exact if_neg hne

theorem parse_pair_member {k v raw : List Char} (hk : '=' ∉ k) (hname : decode k = some k) (hraw : decode raw = some v) :
    parse_pair (k ++ '=' :: raw) = some (String.ofList k, String.ofList v) := by
  have hne : ∀ c ∈ k, decide (c ≠ '=') = true := fun c hc => decide_eq_true (fun he => hk (he ▸ hc))
  rw [parse_pair, List.takeWhile_append_of_pos hne, List.takeWhile_cons_of_neg (by simp), List.append_nil, hname,
    List.dropWhile_append_of_pos hne, List.dropWhile_cons_of_neg (by simp), List.drop_one, List.tail_cons, Option.bind_some,
    hraw, Option.map_some]

theorem get_foldl_of_not_mem {ps : List (String × String)} {k : String} (h : k ∉ ps.map Prod.fst) (m : Params) :
    (ps.foldl (fun m p => m.insert p.1 p.2) m).get k = m.get k := by
  induction ps generalizing m with
  | nil => rfl
  | cons p ps ih =>
      rw [List.map_cons, List.mem_cons, not_or] at h
      rw [List.foldl_cons, ih h.2, BTreeMap.get_insert, if_neg h.1]

theorem get_foldl_of_mem {ps : List (String × String)} (hnodup : (ps.map Prod.fst).Nodup) {k v : String}
    (h : (k, v) ∈ ps) (m : Params) : (ps.foldl (fun m p => m.insert p.1 p.2) m).get k = some v := by
  induction ps generalizing m with
  | nil => exact nomatch h
  | cons p ps ih =>
      rw [List.map_cons, List.nodup_cons] at hnodup
      rw [List.foldl_cons]
      rcases List.mem_cons.mp h with rfl | h
      · rw [get_foldl_of_not_mem hnodup.1, BTreeMap.get_insert, if_pos rfl]
      · exact ih hnodup.2 h _

/-- Members with different names are read as the map they write down. -/
theorem read_members {qp : List (List Char)} {ps : List (String × String)} (hne : qp ≠ [])
    (hqp : ∀ e ∈ qp, e ≠ [] ∧ '&' ∉ e ∧ (parse_pair e).isSome = true) (hperm : (qp.filterMap parse_pair).Perm ps)
    (hnodup : (ps.map Prod.fst).Nodup) {m : Params} (hm : ∀ k v, (k, v) ∈ ps ↔ m.get k = some v) :
    read_query (['&'].intercalate qp) = some m := by
  have hsplit : (['&'].intercalate qp).splitOn '&' = qp := List.splitOn_intercalate '&' (fun e he => (hqp e he).2.1) hne
  have hfilter : qp.filter (· ≠ []) = qp := List.filter_eq_self.mpr (fun e he => decide_eq_true (hqp e he).1)
  have hmap : qp.mapM parse_pair = some (qp.filterMap parse_pair) := by
    have hsome : ∀ e ∈ qp, (parse_pair e).isSome = true := fun e he => (hqp e he).2.2
    clear hne hqp hperm hsplit hfilter
    induction qp with
    | nil => rfl
    | cons e qp ih =>
        obtain ⟨p, hp⟩ := Option.isSome_iff_exists.mp (hsome e List.mem_cons_self)
        rw [List.mapM_cons, hp, List.filterMap_cons_some hp, ih fun d hd => hsome d (List.mem_cons_of_mem e hd)]
        rfl
  rw [read_query, hsplit, hfilter, hmap, Option.map_some, Option.some.injEq]
  have hkeys : ((qp.filterMap parse_pair).map Prod.fst).Nodup := (hperm.map Prod.fst).nodup_iff.mpr hnodup
  refine BTreeMap.ext_get fun k => ?_
  by_cases hk : k ∈ (qp.filterMap parse_pair).map Prod.fst
  · obtain ⟨⟨k', v⟩, hmem, rfl⟩ := List.mem_map.mp hk
    rw [get_foldl_of_mem hkeys hmem, ((hm _ _).mp (hperm.subset hmem))]
  · rw [get_foldl_of_not_mem hk, BTreeMap.get_empty]
    cases hget : m.get k with
    | none => rfl
    | some v => exact absurd (List.mem_map_of_mem (hperm.symm.subset ((hm k v).mpr hget))) hk

theorem kept_plain (b : UInt8) (h : KEPT.contains b = true) : b.toNat < 128 ∧ b ≠ 37 ∧ b ≠ 43 := by
  have hall : ∀ b ∈ KEPT, b.toNat < 128 ∧ b ≠ 37 ∧ b ≠ 43 := by decide +kernel
  exact hall b (List.contains_iff_mem.mp h)

theorem not_reserved_of_all {s : List Char} (h : s.all (fun c => !RESERVED.contains c) = true) : ∀ c ∈ s, c ∉ RESERVED := by
  intro c hc hin
  have hout := List.all_eq_true.mp h c hc
  rw [List.contains_iff_mem.mpr hin] at hout
  cases hout

theorem encoded_plain (b : UInt8) : ∀ c ∈ encode_byte KEPT.contains b, c ∉ RESERVED := by
  have hescaped : ∀ r ∈ RESERVED.map Char.toNat, (is_ascii_alphanumeric (UInt8.ofNat r) || KEPT.contains (UInt8.ofNat r)) = false := by
    decide +kernel
  have hhex : ∀ n < 16, hex_digit n ∉ RESERVED := by decide +kernel
  have hpercent : '%' ∉ RESERVED := by decide
  intro c hc
  rw [encode_byte] at hc
  split_ifs at hc with hkeep
  · intro hin
    obtain rfl := List.mem_singleton.mp hc
    have hascii : b.toNat < 128 := by
      rcases Bool.or_eq_true _ _ ▸ hkeep with h | h
      · exact of_decide_eq_true (Bool.and_eq_true _ _ ▸ h).1
      · exact (kept_plain b h).1
    have hout := hescaped _ (List.mem_map_of_mem hin)
    rw [QueryText.toNat_ofNat hascii, UInt8.ofNat_toNat, hkeep] at hout
    cases hout
  · simp only [List.mem_cons, List.not_mem_nil, or_false] at hc
    rcases hc with rfl | rfl | rfl
    · exact hpercent
    · exact hhex _ (by have := b.toNat_lt; omega)
    · exact hhex _ (Nat.mod_lt _ (by omega))

theorem query_value_plain {v : String} {c : Char} (h : c ∈ query_value v) : c ∉ RESERVED := by
  obtain ⟨b, -, hc⟩ := List.mem_flatMap.mp h
  exact encoded_plain b c hc

theorem decode_query_value (v : String) : decode (query_value v) = some v.toList := decode_pct_encode kept_plain v.toList

theorem PlainName.decode {k : String} (h : PlainName k) : QueryText.decode k.toList = some k.toList := by
  rw [decode_unescaped h.2, map_plus fun hin => h.1 '+' hin (by decide)]

theorem plain_offset : PlainName "offset" :=
  ⟨not_reserved_of_all (by decide), unescaped_of_not_mem (by decide)⟩

theorem plain_limit : PlainName "limit" :=
  ⟨not_reserved_of_all (by decide), unescaped_of_not_mem (by decide)⟩

theorem parse_pair_plain {k : String} (hk : PlainName k) {v raw : List Char} (hraw : QueryText.decode raw = some v) :
    parse_pair (k.toList ++ '=' :: raw) = some (k, String.ofList v) := by
  have hpair := parse_pair_member (fun h => hk.1 '=' h (by decide)) hk.decode hraw
  rwa [String.ofList_toList] at hpair

theorem parse_pair_of_member {p : String × String} (hk : PlainName p.1) : parse_pair (member p) = some p := by
  have hpair := parse_pair_plain hk (decode_query_value p.2)
  rwa [String.ofList_toList] at hpair

theorem member_plain {p : String × String} (hk : PlainName p.1) {c : Char} (hc : c ∈ member p) (heq : c ≠ '=') :
    c ∉ RESERVED := by
  rcases List.mem_append.mp hc with hname | hvalue
  · exact hk.1 c hname
  · rcases List.mem_cons.mp hvalue with rfl | hvalue
    · exact absurd rfl heq
    · exact query_value_plain hvalue

theorem mem_intercalate {qp : List (List Char)} {c : Char} (h : c ∈ ['&'].intercalate qp) : c = '&' ∨ ∃ e ∈ qp, c ∈ e := by
  induction qp with
  | nil => exact nomatch h
  | cons e qp ih =>
      cases qp with
      | nil =>
          rw [List.intercalate_singleton] at h
          exact Or.inr ⟨e, List.mem_cons_self, h⟩
      | cons d qp =>
          rw [List.intercalate_cons_cons, List.mem_append, List.mem_append, List.mem_singleton] at h
          rcases h with (h | h) | h
          · exact Or.inr ⟨e, List.mem_cons_self, h⟩
          · exact Or.inl h
          · exact (ih h).imp_right fun ⟨d', hd', hc⟩ => ⟨d', List.mem_cons_of_mem e hd', hc⟩

theorem mem_sort {qp : List (List Char)} {e : List Char} : e ∈ sort qp ↔ e ∈ qp := (List.mergeSort_perm qp _).mem_iff

/-- A member that is read as a pair and ends neither itself nor the target of its link. -/
structure Reads (e : List Char) (p : String × String) : Prop where
  ne_nil : e ≠ []
  pair : parse_pair e = some p
  plain : ∀ c ∈ e, c ∉ ['&', '>', '#']

theorem reads_raw {k : String} (hk : PlainName k) {raw v : List Char} (hraw : QueryText.decode raw = some v)
    (hplain : ∀ c ∈ raw, c ∉ ['&', '>', '#']) : Reads (k.toList ++ '=' :: raw) (k, String.ofList v) where
  ne_nil := List.append_ne_nil_of_right_ne_nil _ (List.cons_ne_nil _ _)
  pair := parse_pair_plain hk hraw
  plain c hc := by
    rcases List.mem_append.mp hc with hname | hvalue
    · have hnot := hk.1 c hname
      simp only [RESERVED, List.mem_cons, not_or] at hnot ⊢
      tauto
    · rcases List.mem_cons.mp hvalue with rfl | hvalue
      · decide
      · exact hplain c hvalue

theorem reads_member {p : String × String} (hk : PlainName p.1) : Reads (member p) p := by
  have hreads := reads_raw hk (decode_query_value p.2) fun c hc => ?_
  · rwa [String.ofList_toList] at hreads
  · have hnot := query_value_plain hc
    simp only [RESERVED, List.mem_cons, not_or] at hnot ⊢
    tauto

/-- A digit text, a plus sign before it allowed, stands in a query as it is; the plus
sign is read as a space. -/
theorem reads_digits {k : String} (hk : PlainName k) {s ds : List Char} (hs : s = ds ∨ s = '+' :: ds)
    (hds : ∀ c ∈ ds, c.isDigit = true) : Reads (k.toList ++ '=' :: s) (k, String.ofList (s.map plus_to_space)) := by
  have hchars : ∀ c ∈ s, c.isDigit = true ∨ c = '+' := by
    rintro c hc
    rcases hs with rfl | rfl
    · exact Or.inl (hds c hc)
    · rcases List.mem_cons.mp hc with rfl | hc
      · exact Or.inr rfl
      · exact Or.inl (hds c hc)
  have hnot (d : Char) (hd : d.isDigit = false) (hplus : d ≠ '+') : d ∉ s := by
    intro hin
    rcases hchars d hin with h | h
    · exact absurd h (by rw [hd]; exact Bool.false_ne_true)
    · exact hplus h
  refine reads_raw hk (decode_unescaped (unescaped_of_not_mem (hnot '%' (by decide) (by decide)))) ?_
  intro c hc hin
  simp only [List.mem_cons, List.not_mem_nil, or_false] at hin
  rcases hin with rfl | rfl | rfl
  · exact hnot '&' (by decide) (by decide) hc
  · exact hnot '>' (by decide) (by decide) hc
  · exact hnot '#' (by decide) (by decide) hc

/-- What stands in a link behind its path. -/
theorem drop_mk (params : Params) (path : String) (accept : Accept) (off : Nat) (rel : String) :
    ∃ rest, (mk params path accept off rel).text.drop (path.toList.length + 2) =
      ['&'].intercalate (query_members params path off) ++ '>' :: rest := by
  have hdrop (rest : List Char) : ('<' :: (path.toList ++ '?' :: rest)).drop (path.toList.length + 2) = rest := by
    rw [List.drop_succ_cons, List.append_cons]
    exact List.drop_left' (by simp)
  rw [mk]
  dsimp only
  rw [hdrop]
  exact ⟨_, rfl⟩

/-- The query of a link, cut where its target ends, is the members it was made of. -/
theorem read_link_of_members {params : Params} {path : String} (accept : Accept) {off : Nat} (rel : String)
    (ps : List (String × String)) {m : Params} (hreads : ∀ e ∈ query_members params path off, ∃ p, Reads e p)
    (hne : query_members params path off ≠ []) (hperm : ((query_members params path off).filterMap parse_pair).Perm ps)
    (hnodup : (ps.map Prod.fst).Nodup) (hm : ∀ k v, (k, v) ∈ ps ↔ m.get k = some v) :
    read_link path (mk params path accept off rel) = some m := by
  have hcut : ∀ c ∈ ['&'].intercalate (query_members params path off), (!(['>', '#'].contains c)) = true := by
    intro c hc
    rcases mem_intercalate hc with rfl | ⟨e, he, hce⟩
    · decide
    · obtain ⟨p, hp⟩ := hreads e he
      have hnot := hp.plain c hce
      rw [Bool.not_eq_true', ← Bool.not_eq_true, List.contains_iff_mem]
      simp only [List.mem_cons, not_or] at hnot ⊢
      tauto
  obtain ⟨rest, hrest⟩ := drop_mk params path accept off rel
  rw [read_link, hrest, List.takeWhile_append_of_pos hcut, List.takeWhile_cons_of_neg (by decide), List.append_nil]
  refine read_members hne (fun e he => ?_) hperm hnodup hm
  obtain ⟨p, hp⟩ := hreads e he
  exact ⟨hp.ne_nil, fun hin => hp.plain '&' hin (by decide), by rw [hp.pair]; rfl⟩

/-- The parameters as a link repeats them: the limit of some resources as it was
given, so that a plus sign in it is read as a space. -/
def reread (params : Params) (path : String) : Params :=
  match params.get "limit" with
  | none => params
  | some l => if csource_style path then params.insert "limit" (String.ofList (l.toList.map plus_to_space)) else params

theorem filterMap_members {entries : List (String × String)} (h : ∀ p ∈ entries, PlainName p.1) :
    (entries.map member).filterMap parse_pair = entries := by
  rw [List.filterMap_map]
  refine (List.filterMap_congr fun p hp => ?_).trans List.filterMap_some
  exact parse_pair_of_member (h p hp)

theorem names_nodup (params : Params) : (params.entries.map Prod.fst).Nodup :=
  List.pairwise_map.mpr (params.sorted.imp fun h => ne_of_lt h)

theorem mem_params {params : Params} {p : String × String} : p ∈ params.entries ↔ params.get p.1 = some p.2 :=
  BTreeMap.mem_entries

theorem reads_offset (off : Nat) : Reads ("offset=".toList ++ digits off) ("offset", String.ofList (digits off)) := by
  have hdigits : ∀ c ∈ digits off, c.isDigit = true := fun c hc => isDigit_of_mem_digits hc
  have hreads := reads_digits plain_offset (Or.inl rfl) hdigits
  rwa [map_plus (not_mem_digits (by decide))] at hreads

/-- The members of a link: those of the parameters but for some names, and `extra` ones for these. -/
theorem read_parts {params m : Params} {path : String} (accept : Accept) {off : Nat} (rel : String) (skip : List String)
    (extra : List (List Char × String × String))
    (hqp : (query_members params path off).Perm
      ((params.entries.filter (fun p => !skip.contains p.1)).map member ++ extra.map Prod.fst))
    (hplain : ∀ k, k ∉ skip → (params.get k).isSome = true → PlainName k)
    (hextra : ∀ x ∈ extra, Reads x.1 x.2 ∧ x.2.1 ∈ skip) (hne : extra ≠ [])
    (hnodup : (extra.map (fun x => x.2.1)).Nodup) (hkeep : ∀ k, k ∉ skip → m.get k = params.get k)
    (hskip : ∀ k ∈ skip, ∀ v, (∃ x ∈ extra, x.2 = (k, v)) ↔ m.get k = some v) :
    read_link path (mk params path accept off rel) = some m := by
  have hkept {p : String × String} :
      p ∈ params.entries.filter (fun p => !skip.contains p.1) ↔ params.get p.1 = some p.2 ∧ p.1 ∉ skip := by
    rw [List.mem_filter, mem_params, Bool.not_eq_true', ← Bool.not_eq_true, List.contains_iff_mem]
  have hentries : ∀ p ∈ params.entries.filter (fun p => !skip.contains p.1), PlainName p.1 := by
    intro p hp
    obtain ⟨hget, hnot⟩ := hkept.mp hp
    exact hplain p.1 hnot (by rw [hget]; rfl)
  have hpairs : (extra.map Prod.fst).filterMap parse_pair = extra.map Prod.snd := by
    rw [List.filterMap_map, ← List.filterMap_eq_map]
    exact List.filterMap_congr fun x hx => (hextra x hx).1.pair
  refine read_link_of_members accept rel (params.entries.filter (fun p => !skip.contains p.1) ++ extra.map Prod.snd)
    ?_ ?_ ?_ ?_ ?_
  · intro e he
    rcases List.mem_append.mp (hqp.subset he) with he | he
    · obtain ⟨p, hp, rfl⟩ := List.mem_map.mp he
      exact ⟨p, reads_member (hentries p hp)⟩
    · obtain ⟨x, hx, rfl⟩ := List.mem_map.mp he
      exact ⟨x.2, (hextra x hx).1⟩
  · intro hnil
    rw [hnil] at hqp
    exact hne (List.map_eq_nil_iff.mp (List.append_eq_nil_iff.mp (List.nil_perm.mp hqp)).2)
  · refine (hqp.filterMap parse_pair).trans (List.Perm.of_eq ?_)
    rw [List.filterMap_append, filterMap_members hentries, hpairs]
  · rw [List.map_append, List.nodup_append', List.map_map]
    refine ⟨(names_nodup params).sublist (List.filter_sublist.map _), hnodup, ?_⟩
    intro k hk hk'
    obtain ⟨p, hp, rfl⟩ := List.mem_map.mp hk
    obtain ⟨x, hx, hxk⟩ := List.mem_map.mp hk'
    have hxs : x.2.1 ∈ skip := (hextra x hx).2
    exact (hkept.mp hp).2 (hxk ▸ hxs)
  · intro k v
    rw [List.mem_append, hkept, List.mem_map]
    by_cases hk : k ∈ skip
    · rw [← hskip k hk v]
      exact or_iff_right fun h => h.2 hk
    · rw [hkeep k hk]
      refine ⟨?_, fun h => Or.inl ⟨h, hk⟩⟩
      rintro (h | ⟨x, hx, hxk⟩)
      · exact h.1
      · have hxs : x.2.1 ∈ skip := (hextra x hx).2
        rw [hxk] at hxs
        exact absurd hxs hk

theorem reads_limit {l : String} (h : ∃ n, parse_usize l = some n) :
    Reads ("limit=".toList ++ l.toList) ("limit", String.ofList (l.toList.map plus_to_space)) := by
  obtain ⟨n, hn⟩ := h
  obtain ⟨ds, hs, hdigits⟩ := digits_of_parse hn
  exact reads_digits plain_limit hs hdigits

theorem read_mk_csource {params : Params} {path : String} (accept : Accept) (off : Nat) (rel : String)
    (hnames : PlainNames params) (hlimit : ∀ l, params.get "limit" = some l → ∃ n, parse_usize l = some n)
    (hstyle : csource_style path = true) :
    read_link path (mk params path accept off rel) =
      some ((reread params path).insert "offset" (String.ofList (digits off))) := by
  have hfilter : (fun p : String × String => decide (p.1 ≠ "offset" ∧ p.1 ≠ "limit")) =
      fun p => !(["offset", "limit"].contains p.1) := by
    funext p
    simp
  have hmembers : query_members params path off =
      sort ((params.entries.filter (fun p => !(["offset", "limit"].contains p.1))).map member) ++
        ((params.get "limit").toList.map (fun l => "limit=".toList ++ l.toList) ++ ["offset=".toList ++ digits off]) := by
    rw [query_members, if_pos hstyle, hfilter]
  have hplain : ∀ k, k ∉ ["offset", "limit"] → (params.get k).isSome = true → PlainName k := by
    intro k hk hsome
    rw [List.mem_cons, not_or] at hk
    exact hnames k hk.1 hsome
  cases hget : params.get "limit" with
  | none =>
      have hreread : reread params path = params := by
        unfold reread
        rw [hget]
      rw [hget] at hmembers
      rw [hreread]
      refine read_parts accept rel ["offset", "limit"]
        [("offset=".toList ++ digits off, "offset", String.ofList (digits off))] ?_ hplain ?_ (List.cons_ne_nil _ _)
        (List.nodup_singleton _) ?_ ?_
      · rw [hmembers]
        exact (List.mergeSort_perm _ _).append_right _
      · intro x hx
        obtain rfl := List.mem_singleton.mp hx
        exact ⟨reads_offset off, List.mem_cons_self⟩
      · intro k hk
        rw [List.mem_cons, not_or] at hk
        rw [BTreeMap.get_insert, if_neg hk.1]
      · intro k hk v
        rw [BTreeMap.get_insert]
        rcases List.mem_cons.mp hk with rfl | hk
        · simp
        · obtain rfl := List.mem_singleton.mp hk
          simp [hget]
  | some l =>
      have hreread : reread params path = params.insert "limit" (String.ofList (l.toList.map plus_to_space)) := by
        unfold reread
        rw [hget]
        exact if_pos hstyle
      rw [hget] at hmembers
      rw [hreread]
      refine read_parts accept rel ["offset", "limit"]
        [("limit=".toList ++ l.toList, "limit", String.ofList (l.toList.map plus_to_space)),
          ("offset=".toList ++ digits off, "offset", String.ofList (digits off))] ?_ hplain ?_ (List.cons_ne_nil _ _)
        (by simp) ?_ ?_
      · rw [hmembers]
        exact (List.mergeSort_perm _ _).append_right _
      · intro x hx
        rcases List.mem_cons.mp hx with rfl | hx
        · exact ⟨reads_limit (hlimit l hget), List.mem_cons_of_mem _ List.mem_cons_self⟩
        · obtain rfl := List.mem_singleton.mp hx
          exact ⟨reads_offset off, List.mem_cons_self⟩
      · intro k hk
        rw [List.mem_cons, List.mem_singleton, not_or] at hk
        rw [BTreeMap.get_insert, if_neg hk.1, BTreeMap.get_insert, if_neg hk.2]
      · intro k hk v
        rw [BTreeMap.get_insert, BTreeMap.get_insert]
        rcases List.mem_cons.mp hk with rfl | hk
        · simp
        · obtain rfl := List.mem_singleton.mp hk
          simp

/-- A link repeats the parameters and sets the offset. -/
theorem read_mk {params : Params} {path : String} (accept : Accept) (off : Nat) (rel : String) (hnames : PlainNames params)
    (hlimit : ∀ l, params.get "limit" = some l → ∃ n, parse_usize l = some n) :
    read_link path (mk params path accept off rel) =
      some ((reread params path).insert "offset" (String.ofList (digits off))) := by
  by_cases hstyle : csource_style path = true
  · exact read_mk_csource accept off rel hnames hlimit hstyle
  · have hfilter : (fun p : String × String => decide (p.1 ≠ "offset")) = fun p => !(["offset"].contains p.1) := by
      funext p
      simp
    have hmembers : query_members params path off =
        sort ((params.entries.filter (fun p => !(["offset"].contains p.1))).map member ++ ["offset=".toList ++ digits off]) := by
      rw [query_members, if_neg hstyle, hfilter]
    have hreread : reread params path = params := by
      unfold reread
      split
      · rfl
      · exact if_neg hstyle
    rw [hreread]
    refine read_parts accept rel ["offset"] [("offset=".toList ++ digits off, "offset", String.ofList (digits off))]
      ?_ ?_ ?_ (List.cons_ne_nil _ _) (List.nodup_singleton _) ?_ ?_
    · rw [hmembers]
      exact List.mergeSort_perm _ _
    · intro k hk
      exact hnames k (fun he => hk (List.mem_singleton.mpr he))
    · intro x hx
      obtain rfl := List.mem_singleton.mp hx
      exact ⟨reads_offset off, List.mem_cons_self⟩
    · intro k hk
      rw [BTreeMap.get_insert, if_neg fun he => hk (List.mem_singleton.mpr he)]
    · intro k hk v
      obtain rfl := List.mem_singleton.mp hk
      rw [BTreeMap.get_insert]
      simp

end Reading

section Visiting

variable {st : AppState} {params : Params} {path : String} {accept : Accept} {offset limit : Nat} {count : Bool}

theorem limit_parses (h : page_params st params = .ok (offset, limit, count)) :
    ∀ l, params.get "limit" = some l → ∃ n, parse_usize l = some n := by
  intro l hl
  cases hn : parse_usize l with
  | some n => exact ⟨n, rfl⟩
  | none =>
      have hlimit : limit_of st params = .error (.invalid_limit l) := by
        rw [limit_of, hl]
        dsimp only
        rw [hn]
      unfold page_params at h
      rw [hlimit] at h
      exact nomatch h

/-- Parameters whose links read back. -/
structure Linkable (params : Params) (path : String) : Prop where
  names : PlainNames params
  limit : PlainLimit params path
  parses : ∀ l, params.get "limit" = some l → ∃ n, parse_usize l = some n

theorem Linkable.insert (h : Linkable params path) (o : String) : Linkable (params.insert "offset" o) path where
  names k hk hsome := h.names k hk (by rwa [BTreeMap.get_insert, if_neg hk] at hsome)
  limit hstyle l hl := h.limit hstyle l (by rwa [BTreeMap.get_insert, if_neg (by decide)] at hl)
  parses l hl := h.parses l (by rwa [BTreeMap.get_insert, if_neg (by decide)] at hl)

theorem Linkable.reread (h : Linkable params path) : reread params path = params := by
  unfold PageLinks.reread
  cases hl : params.get "limit" with
  | none => rfl
  | some l =>
      dsimp only
      split_ifs with hstyle
      · obtain ⟨n, hn⟩ := h.parses l hl
        obtain ⟨ds, hs, hdigits⟩ := digits_of_parse hn
        have hdigit : l.toList = ds := by
          refine hs.resolve_right fun hplus => ?_
          exact h.limit hstyle l hl (by rw [hplus]; rfl)
        have hplus : '+' ∉ l.toList := by
          rw [hdigit]
          exact fun hin => absurd (hdigits '+' hin) (by decide)
        rw [map_plus hplus, String.ofList_toList]
        refine BTreeMap.ext_get fun k => ?_
        rw [BTreeMap.get_insert]
        split_ifs with hk
        · rw [hk, hl]
        · rfl
      · rfl

theorem Linkable.read (h : Linkable params path) (accept : Accept) (off : Nat) (rel : String) :
    read_link path (PageLinks.mk params path accept off rel) = some (params.insert "offset" (String.ofList (digits off))) := by
  rw [read_mk accept off rel h.names h.parses, h.reread]

theorem Linkable.leads_to (h : Linkable params path) (hp : page_params st params = .ok (offset, limit, count))
    {off : Nat} (hoff : off < 2 ^ 63) (accept : Accept) (rel : String) :
    LeadsTo st params path limit count off (PageLinks.mk params path accept off rel) := by
  refine ⟨_, h.read accept off rel, fun k hk => ?_, page_params_insert hp hoff⟩
  rw [BTreeMap.get_insert, if_neg hk]

theorem paginate_ok (hp : page_params st params = .ok (offset, limit, count)) (found : List Value) :
    paginate_impl st params found path accept none = .ok ((found.drop offset).take limit,
      if count then some found.length else none, page_links params path accept offset limit found.length) := by
  unfold paginate_impl
  rw [hp]
  rfl

theorem next_links {total : Nat} {link : Link} (h : link ∈ page_links params path accept offset limit total)
    (hrel : link.rel = "next") : offset + limit < total ∧ link = mk params path accept (offset + limit) "next" := by
  unfold page_links at h
  rcases List.mem_append.mp h with h | h
  · split_ifs at h with hnext
    · exact ⟨hnext.1, List.mem_singleton.mp h⟩
    · exact nomatch h
  · split_ifs at h
    · rw [List.mem_singleton.mp h] at hrel
      have hne : ¬ ("prev" = "next") := by decide
      exact absurd hrel hne
    · exact nomatch h

theorem next_mem {total : Nat} (h : offset + limit < total) (hl : 0 < limit) :
    mk params path accept (offset + limit) "next" ∈ page_links params path accept offset limit total := by
  rw [page_links, if_pos ⟨h, hl⟩]
  exact List.mem_append_left _ (List.mem_singleton_self _)

theorem prev_mem {total : Nat} (h : 0 < offset) :
    mk params path accept (offset - max limit 1) "prev" ∈ page_links params path accept offset limit total := by
  rw [page_links, if_pos h]
  exact List.mem_append_right _ (List.mem_singleton_self _)

/-- One step of the walk. -/
theorem walk_succ (hp : page_params st params = .ok (offset, limit, count)) (found : List Value) (fuel : Nat) :
    walk st found path accept (fuel + 1) params =
      if offset + limit < found.length ∧ 0 < limit then
        (read_link path (mk params path accept (offset + limit) "next")).bind (fun params =>
          (walk st found path accept fuel params).map ((found.drop offset).take limit :: ·))
      else some [(found.drop offset).take limit] := by
  have hnext : (page_links params path accept offset limit found.length).find? (fun l => l.rel = "next") =
      if offset + limit < found.length ∧ 0 < limit then some (mk params path accept (offset + limit) "next") else none := by
    unfold page_links
    split_ifs <;> rfl
  rw [walk, paginate_ok hp found]
  dsimp only
  rw [hnext]
  split_ifs
  · dsimp only
    cases read_link path (mk params path accept (offset + limit) "next") <;> rfl
  · rfl

/-- Following the links from a page on visits the rest of the list. -/
theorem walk_visits (h : Linkable params path) (hp : page_params st params = .ok (offset, limit, count)) (hl : 0 < limit)
    {found : List Value} (hlen : found.length < 2 ^ 63) {fuel off : Nat} (hoff : off < 2 ^ 63)
    (hfuel : found.length ≤ fuel + off) :
    ∃ pages, walk st found path accept (fuel + 1) (params.insert "offset" (String.ofList (digits off))) = some pages ∧
      pages.flatten = found.drop off := by
  induction fuel generalizing off with
  | zero =>
      refine ⟨[(found.drop off).take limit], ?_, ?_⟩
      · rw [walk_succ (page_params_insert hp hoff) found, if_neg (by omega)]
      · rw [List.flatten_cons, List.flatten_nil, List.append_nil]
        exact List.take_of_length_le (by rw [List.length_drop]; omega)
  | succ fuel ih =>
      rw [walk_succ (page_params_insert hp hoff) found]
      by_cases hnext : off + limit < found.length
      · have hlater : off + limit < 2 ^ 63 := by omega
        obtain ⟨pages, hpages, hflat⟩ := ih hlater (by omega)
        have hread := (h.insert (String.ofList (digits off))).read accept (off + limit) "next"
        have hinsert : (params.insert "offset" (String.ofList (digits off))).insert "offset" (String.ofList (digits (off + limit))) =
            params.insert "offset" (String.ofList (digits (off + limit))) := by
          refine BTreeMap.ext_get fun k => ?_
          rw [BTreeMap.get_insert, BTreeMap.get_insert, BTreeMap.get_insert]
          split_ifs <;> rfl
        rw [hinsert] at hread
        rw [if_pos ⟨hnext, hl⟩, hread, Option.bind_some, hpages]
        exact ⟨_, rfl, by rw [List.flatten_cons, hflat, ← List.drop_drop, List.take_append_drop]⟩
      · rw [if_neg fun hn => hnext hn.1]
        refine ⟨_, rfl, ?_⟩
        rw [List.flatten_cons, List.flatten_nil, List.append_nil]
        exact List.take_of_length_le (by rw [List.length_drop]; omega)

/-- Where the links read back, they visit the list once. -/
theorem visits_of_linkable (h : Linkable params path) (hp : page_params st params = .ok (offset, limit, count)) (hl : 0 < limit) :
    Visits st params path accept offset limit count where
  next found hlen := by
    refine ⟨_, _, _, paginate_ok hp found, rfl, ?_, fun link hlink hrel => ?_⟩
    · constructor
      · rintro ⟨link, hlink, hrel⟩
        exact (next_links hlink hrel).1
      · exact fun hnext => ⟨_, next_mem hnext hl, rfl⟩
    · obtain ⟨hnext, rfl⟩ := next_links hlink hrel
      exact h.leads_to hp (by omega) accept "next"
  prev found hlen hoff := by
    have hbound := (page_params_bounds hp).1
    exact ⟨_, _, _, paginate_ok hp found, _, prev_mem hoff, rfl, offset - max limit 1, by omega, by omega,
      h.leads_to hp (by omega) accept "prev"⟩
  visit found hlen := by
    have hstart : String.ofList (digits 0) = "0" := by decide
    rw [← hstart]
    exact walk_visits h hp hl hlen (Nat.two_pow_pos 63) (by omega)

end Visiting

section Pieces

/-- The pieces of the beginning of a text: those of the text, the last one cut. -/
theorem splitOn_prefix {c : Char} {s t : List Char} (h : s <+: t) :
    ∃ ps l l' es, s.splitOn c = ps ++ [l] ∧ t.splitOn c = ps ++ l' :: es ∧ l <+: l' := by
  induction s generalizing t with
  | nil =>
      obtain ⟨l', es, ht⟩ := List.exists_cons_of_ne_nil (List.splitOn_ne_nil c t)
      exact ⟨[], [], l', es, rfl, ht, List.nil_prefix⟩
  | cons a s ih =>
      obtain ⟨r, rfl⟩ := h
      obtain ⟨ps, l, l', es, hs, ht, hl⟩ := ih (List.prefix_append s r)
      rw [List.cons_append, List.splitOn_cons_eq_if_modifyHead, List.splitOn_cons_eq_if_modifyHead, hs, ht]
      by_cases ha : (a == c) = true
      · rw [if_pos ha, if_pos ha]
        exact ⟨[] :: ps, l, l', es, rfl, rfl, hl⟩
      · rw [if_neg ha, if_neg ha]
        cases ps with
        | nil => exact ⟨[], a :: l, a :: l', es, rfl, rfl, (List.prefix_cons_inj a).mpr hl⟩
        | cons p ps => exact ⟨(a :: p) :: ps, l, l', es, rfl, rfl, hl⟩

theorem piece_of_prefix {c : Char} {s t p : List Char} (h : s <+: t) (hp : p ∈ s.splitOn c) : ∃ e ∈ t.splitOn c, p <+: e := by
  obtain ⟨ps, l, l', es, hs, ht, hl⟩ := splitOn_prefix (c := c) h
  rw [hs, List.mem_append, List.mem_singleton] at hp
  rw [ht]
  rcases hp with hp | rfl
  · exact ⟨p, List.mem_append_left _ hp, List.prefix_rfl⟩
  · exact ⟨l', List.mem_append_right _ List.mem_cons_self, hl⟩

theorem piece_of_intercalate {c : Char} {qp : List (List Char)} {e : List Char} (h : e ∈ ([c].intercalate qp).splitOn c)
    (hne : qp ≠ []) : ∃ d ∈ qp, e ∈ d.splitOn c := by
  induction qp with
  | nil => exact absurd rfl hne
  | cons d qp ih =>
      cases qp with
      | nil =>
          rw [List.intercalate_singleton] at h
          exact ⟨d, List.mem_cons_self, h⟩
      | cons d' qp =>
          rw [List.intercalate_cons_cons, List.append_assoc, List.singleton_append, List.splitOn_append_cons_self,
            List.mem_append] at h
          rcases h with h | h
          · exact ⟨d, List.mem_cons_self, h⟩
          · obtain ⟨d₁, hd₁, he⟩ := ih h (List.cons_ne_nil _ _)
            exact ⟨d₁, List.mem_cons_of_mem d hd₁, he⟩

theorem piece_chars {c : Char} {s p : List Char} (h : p ∈ s.splitOn c) : ∀ d ∈ p, d ∈ s ∧ d ≠ c := by
  induction s generalizing p with
  | nil =>
      rw [List.splitOn_nil, List.mem_singleton] at h
      rw [h]
      exact fun _ hd => nomatch hd
  | cons a s ih =>
      rw [List.splitOn_cons_eq_if_modifyHead] at h
      by_cases ha : (a == c) = true
      · rw [if_pos ha, List.mem_cons] at h
        rcases h with rfl | h
        · exact fun _ hd => nomatch hd
        · exact fun d hd => (ih h d hd).imp_left (List.mem_cons_of_mem a)
      · rw [if_neg ha] at h
        obtain ⟨q, qs, hq⟩ := List.exists_cons_of_ne_nil (List.splitOn_ne_nil c s)
        rw [hq, List.modifyHead_cons, List.mem_cons] at h
        rcases h with rfl | h
        · have hrest := ih (hq ▸ List.mem_cons_self)
          exact List.forall_mem_cons.mpr ⟨⟨List.mem_cons_self, fun he => ha (beq_iff_eq.mpr he)⟩,
            fun d hd => (hrest d hd).imp_left (List.mem_cons_of_mem a)⟩
        · exact fun d hd => (ih (hq ▸ List.mem_cons_of_mem _ h) d hd).imp_left (List.mem_cons_of_mem a)

def name_of (p : List Char) : List Char := p.takeWhile (· ≠ '=')

/-- The name in a piece of a member is a part of the member's name. -/
theorem name_of_piece (k : List Char) {raw : List Char} (hraw : '&' ∉ raw) :
    ∃ h t, (k ++ '=' :: raw).splitOn '&' = h :: t ∧ (∀ p, p <+: h → name_of p <+: k) ∧
      ∀ e ∈ t, ∀ p, p <+: e → name_of p <:+: k := by
  induction k with
  | nil =>
      refine ⟨'=' :: raw, [], ?_, ?_, nofun⟩
      · refine List.splitOn_eq_singleton fun hin => ?_
        rcases List.mem_cons.mp hin with he | hin
        · exact absurd he (by decide)
        · exact hraw hin
      · intro p hp
        cases p with
        | nil => exact List.nil_prefix
        | cons c p =>
            obtain ⟨rfl, -⟩ := List.cons_prefix_cons.mp hp
            exact List.nil_prefix
  | cons a k ih =>
      obtain ⟨h, t, hsplit, hhead, htail⟩ := ih
      rw [List.cons_append, List.splitOn_cons_eq_if_modifyHead, hsplit]
      by_cases ha : (a == '&') = true
      · rw [if_pos ha]
        refine ⟨[], h :: t, rfl, ?_, ?_⟩
        · intro p hp
          rw [List.prefix_nil.mp hp]
          exact List.nil_prefix
        · intro e he p hp
          rcases List.mem_cons.mp he with rfl | he
          · exact List.infix_cons (hhead p hp).isInfix
          · exact List.infix_cons (htail e he p hp)
      · rw [if_neg ha]
        refine ⟨a :: h, t, rfl, ?_, fun e he p hp => List.infix_cons (htail e he p hp)⟩
        intro p hp
        cases p with
        | nil => exact List.nil_prefix
        | cons c p =>
            obtain ⟨rfl, hrest⟩ := List.cons_prefix_cons.mp hp
            rw [name_of]
            by_cases hc : c = '='
            · rw [List.takeWhile_cons_of_neg (by simpa using hc)]
              exact List.nil_prefix
            · rw [List.takeWhile_cons_of_pos (by simpa using hc)]
              exact List.cons_prefix_cons.mpr ⟨rfl, hhead p hrest⟩

end Pieces

section Failing

variable {st : AppState} {params params' : Params} {path : String} {accept : Accept} {off : Nat} {rel : String}

theorem unescaped_map_plus {s : List Char} (h : Unescaped s) : Unescaped (s.map plus_to_space) := by
  intro a b ha hb ⟨x, y, hxy⟩
  obtain ⟨xm, ys, hs, hx, -⟩ := List.map_eq_append_iff.mp hxy.symm
  obtain ⟨xs, ms, hxm, -, hm⟩ := List.map_eq_append_iff.mp hx
  obtain ⟨c, ms₁, rfl, hc, hm₁⟩ := List.map_eq_cons_iff.mp hm
  obtain ⟨d, ms₂, rfl, rfl, hm₂⟩ := List.map_eq_cons_iff.mp hm₁
  obtain ⟨e, ms₃, rfl, rfl, hm₃⟩ := List.map_eq_cons_iff.mp hm₂
  obtain rfl := List.map_eq_nil_iff.mp hm₃
  rw [hex_val_plus] at ha hb
  have hpercent : c = '%' := by
    unfold plus_to_space at hc
    split_ifs at hc
    · exact absurd hc (by decide)
    · exact hc
  rw [hpercent] at hxm
  exact h d e ha hb ⟨xs, ys, by rw [hs, hxm]⟩

/-- A name that is read comes from a piece of the query. -/
theorem name_read {q : List Char} (hread : read_query q = some params') {k : String} (hk : (params'.get k).isSome = true) :
    ∃ p ∈ q.splitOn '&', decode (name_of p) = some k.toList := by
  obtain ⟨ps, hps, rfl⟩ := Option.map_eq_some_iff.mp hread
  have hmem : k ∈ ps.map Prod.fst := by
    by_contra hnot
    rw [get_foldl_of_not_mem hnot, BTreeMap.get_empty] at hk
    exact nomatch hk
  obtain ⟨⟨k', v⟩, hp, rfl⟩ := List.mem_map.mp hmem
  have hpiece : ∃ p ∈ (q.splitOn '&').filter (· ≠ []), parse_pair p = some (k', v) := by
    clear hread hk hmem
    generalize (q.splitOn '&').filter (· ≠ []) = pieces at hps
    induction pieces generalizing ps with
    | nil =>
        obtain rfl := Option.some.inj hps
        exact nomatch hp
    | cons e pieces ih =>
        rw [List.mapM_cons] at hps
        obtain ⟨p, he, hrest⟩ := Option.bind_eq_some_iff.mp hps
        obtain ⟨ps', hps', hcons⟩ := Option.bind_eq_some_iff.mp hrest
        obtain rfl := Option.some.inj hcons
        rcases List.mem_cons.mp hp with rfl | hp
        · exact ⟨e, List.mem_cons_self, he⟩
        · obtain ⟨p', hp', heq⟩ := ih ps' hp hps'
          exact ⟨p', List.mem_cons_of_mem e hp', heq⟩
  obtain ⟨p, hp, hpair⟩ := hpiece
  refine ⟨p, (List.mem_filter.mp hp).1, ?_⟩
  obtain ⟨name, hname, hrest⟩ := Option.bind_eq_some_iff.mp hpair
  obtain ⟨value, -, heq⟩ := Option.map_eq_some_iff.mp hrest
  obtain ⟨rfl, -⟩ := Prod.mk.inj heq
  rw [String.toList_ofList]
  exact hname

theorem member_of_query {e : List Char} (hlimit : ∀ l, params.get "limit" = some l → ∃ n, parse_usize l = some n)
    (he : e ∈ query_members params path off) :
    ∃ k raw, e = k.toList ++ '=' :: raw ∧ '&' ∉ raw ∧ (k = "offset" ∨ (params.get k).isSome = true) := by
  have hentry {p : String × String} (hp : p ∈ params.entries) :
      ∃ k raw, member p = k.toList ++ '=' :: raw ∧ '&' ∉ raw ∧ (k = "offset" ∨ (params.get k).isSome = true) :=
    ⟨p.1, query_value p.2, rfl, fun hin => query_value_plain hin (by decide), Or.inr (by rw [mem_params.mp hp]; rfl)⟩
  have hoffset : ∃ k raw, "offset=".toList ++ digits off = k.toList ++ '=' :: raw ∧ '&' ∉ raw ∧
      (k = "offset" ∨ (params.get k).isSome = true) :=
    ⟨"offset", digits off, rfl, not_mem_digits (by decide), Or.inl rfl⟩
  unfold query_members at he
  dsimp only at he
  split_ifs at he
  · rcases List.mem_append.mp he with he | he
    · obtain ⟨p, hp, rfl⟩ := List.mem_map.mp (mem_sort.mp he)
      exact hentry (List.mem_filter.mp hp).1
    · rcases List.mem_append.mp he with he | he
      · obtain ⟨l, hl, rfl⟩ := List.mem_map.mp he
        have hget := Option.mem_toList.mp hl
        obtain ⟨n, hn⟩ := hlimit l hget
        obtain ⟨ds, hs, hdigits⟩ := digits_of_parse hn
        refine ⟨"limit", l.toList, rfl, fun hin => ?_, Or.inr (by rw [hget]; rfl)⟩
        rcases hs with hs | hs
        · rw [hs] at hin
          exact absurd (hdigits '&' hin) (by decide)
        · rw [hs, List.mem_cons] at hin
          exact absurd (hdigits '&' (hin.resolve_left (by decide))) (by decide)
      · obtain rfl := List.mem_singleton.mp he
        exact hoffset
  · rcases List.mem_append.mp (mem_sort.mp he) with he | he
    · obtain ⟨p, hp, rfl⟩ := List.mem_map.mp he
      exact hentry (List.mem_filter.mp hp).1
    · obtain rfl := List.mem_singleton.mp he
      exact hoffset

theorem query_members_ne_nil (params : Params) (path : String) (off : Nat) : query_members params path off ≠ [] := by
  have hoffset : "offset=".toList ++ digits off ∈ query_members params path off := by
    unfold query_members
    dsimp only
    split_ifs
    · exact List.mem_append_right _ (List.mem_append_right _ (List.mem_singleton_self _))
    · exact mem_sort.mpr (List.mem_append_right _ (List.mem_singleton_self _))
  exact List.ne_nil_of_mem hoffset

/-- A piece of the query a link is read with: a part of the members it was made of. -/
theorem read_link_piece {p : List Char}
    (hp : p ∈ (((mk params path accept off rel).text.drop (path.toList.length + 2)).takeWhile
      (fun c => !(['>', '#'].contains c))).splitOn '&') :
    (∀ c ∈ p, c ∉ ['&', '>', '#']) ∧ ∃ d ∈ query_members params path off, ∃ e ∈ d.splitOn '&', p <+: e := by
  have hchars := piece_chars hp
  constructor
  · intro c hc
    obtain ⟨hin, hne⟩ := hchars c hc
    have hnot := List.mem_takeWhile_imp hin
    rw [Bool.not_eq_true', ← Bool.not_eq_true, List.contains_iff_mem] at hnot
    exact List.not_mem_cons_of_ne_of_not_mem hne hnot
  · obtain ⟨rest, hrest⟩ := drop_mk params path accept off rel
    rw [hrest] at hp
    have hprefix : (['&'].intercalate (query_members params path off) ++ '>' :: rest).takeWhile
        (fun c => !(['>', '#'].contains c)) <+: ['&'].intercalate (query_members params path off) := by
      rw [List.takeWhile_append]
      split_ifs
      · rw [List.takeWhile_cons_of_neg (by decide), List.append_nil]
      · exact List.takeWhile_prefix _
    obtain ⟨e, he, hpe⟩ := piece_of_prefix hprefix hp
    obtain ⟨d, hd, hed⟩ := piece_of_intercalate he (query_members_ne_nil params path off)
    exact ⟨d, hd, e, hed, hpe⟩

/-- A name that a link is read with is plain, or shorter than a name that is not. -/
theorem name_shrinks (hlimit : ∀ l, params.get "limit" = some l → ∃ n, parse_usize l = some n)
    (hread : read_link path (mk params path accept off rel) = some params') {k : String} (hk : (params'.get k).isSome = true) :
    PlainName k ∨ ∃ k', k' ≠ "offset" ∧ (params.get k').isSome = true ∧ ¬ PlainName k' ∧
      (utf8 k.toList).length < (utf8 k'.toList).length := by
  obtain ⟨p, hp, hdecode⟩ := name_read hread hk
  obtain ⟨hchars, d, hd, e, he, hprefix⟩ := read_link_piece hp
  obtain ⟨k', raw, rfl, hraw, hk'⟩ := member_of_query hlimit hd
  have hname : name_of p <:+: k'.toList := by
    obtain ⟨h, t, hsplit, hhead, htail⟩ := name_of_piece k'.toList hraw
    rw [hsplit] at he
    rcases List.mem_cons.mp he with rfl | he
    · exact (hhead p hprefix).isInfix
    · exact htail e he p hprefix
  have hplain (hun : Unescaped (name_of p)) (hmap : k.toList = (name_of p).map plus_to_space) : PlainName k := by
    refine ⟨fun c hc => ?_, hmap ▸ unescaped_map_plus hun⟩
    rw [hmap] at hc
    obtain ⟨c', hc', rfl⟩ := List.mem_map.mp hc
    have hnot := hchars c' (List.takeWhile_subset _ hc')
    have heq : c' ≠ '=' := by simpa using List.mem_takeWhile_imp hc'
    unfold plus_to_space
    split_ifs with hplus
    · decide
    · simp only [RESERVED, List.mem_cons, not_or] at hnot ⊢
      tauto
  rcases decode_length hdecode with hlt | ⟨hun, hmap⟩
  · by_cases hbad : PlainName k'
    · have hself := decode_unescaped (hbad.2.part hname)
      rw [hdecode, Option.some.injEq] at hself
      exact Or.inl (hplain (hbad.2.part hname) hself)
    · refine Or.inr ⟨k', ?_, hk'.resolve_left ?_, hbad, ?_⟩
      · rintro rfl
        exact hbad plain_offset
      · rintro rfl
        exact hbad plain_offset
      · obtain ⟨x, y, hxy⟩ := hname
        have hlen : (utf8 k'.toList).length = (utf8 x).length + (utf8 (name_of p)).length + (utf8 y).length := by
          rw [← hxy, utf8_append, utf8_append, List.length_append, List.length_append]
        omega
  · exact Or.inl (hplain hun hmap)

/-- Where a link reads back, every name is plain. -/
theorem plain_of_read (hlimit : ∀ l, params.get "limit" = some l → ∃ n, parse_usize l = some n)
    (hread : read_link path (mk params path accept off rel) = some params')
    (hsame : ∀ k, k ≠ "offset" → params'.get k = params.get k) : PlainNames params := by
  -- a name that is not plain would have to be read from a longer one that is not plain either
  have hgrow {k : String} (hk : k ≠ "offset" ∧ (params.get k).isSome = true ∧ ¬ PlainName k) (n : Nat) :
      ∃ k', (k' ≠ "offset" ∧ (params.get k').isSome = true ∧ ¬ PlainName k') ∧ n ≤ (utf8 k'.toList).length := by
    induction n with
    | zero => exact ⟨k, hk, Nat.zero_le _⟩
    | succ n ih =>
        obtain ⟨k', ⟨hne, hsome, hbad⟩, hlen⟩ := ih
        have hget : (params'.get k').isSome = true := by rwa [hsame k' hne]
        obtain hplain | ⟨k'', hne', hsome', hbad', hlt⟩ := name_shrinks hlimit hread hget
        · exact absurd hplain hbad
        · exact ⟨k'', ⟨hne', hsome', hbad'⟩, by omega⟩
  intro k hne hsome
  by_contra hbad
  obtain ⟨k', ⟨-, hk', -⟩, hlen⟩ := hgrow ⟨hne, hsome, hbad⟩ ((params.entries.map (fun p => (utf8 p.1.toList).length)).sum + 1)
  obtain ⟨v, hv⟩ := Option.isSome_iff_exists.mp hk'
  have hle : (utf8 k'.toList).length ≤ (params.entries.map (fun p => (utf8 p.1.toList).length)).sum :=
    List.le_sum_of_mem (List.mem_map.mpr ⟨(k', v), mem_params.mpr hv, rfl⟩)
  omega

/-- Where a link reads back, a limit that is repeated as it was given has no plus sign. -/
theorem limit_of_read (hnames : PlainNames params) (hlimit : ∀ l, params.get "limit" = some l → ∃ n, parse_usize l = some n)
    (hread : read_link path (mk params path accept off rel) = some params')
    (hsame : ∀ k, k ≠ "offset" → params'.get k = params.get k) : PlainLimit params path := by
  intro hstyle l hl hhead
  rw [read_mk accept off rel hnames hlimit, Option.some.injEq] at hread
  have hget := hsame "limit" (by decide)
  have hreread : reread params path = params.insert "limit" (String.ofList (l.toList.map plus_to_space)) := by
    unfold reread
    rw [hl]
    exact if_pos hstyle
  rw [← hread, BTreeMap.get_insert, if_neg (by decide), hreread, BTreeMap.get_insert, if_pos rfl, hl, Option.some.injEq] at hget
  obtain ⟨ds, hds⟩ := List.head?_eq_some_iff.mp hhead
  have hlist := congrArg String.toList hget
  rw [String.toList_ofList, hds, List.map_cons] at hlist
  exact absurd (List.cons.inj hlist).1 (by decide)

theorem link_of_page {total offset limit : Nat} {link : Link} (h : link ∈ page_links params path accept offset limit total) :
    ∃ off rel, link = mk params path accept off rel := by
  unfold page_links at h
  rcases List.mem_append.mp h with h | h
  · split_ifs at h
    · exact ⟨_, _, List.mem_singleton.mp h⟩
    · exact nomatch h
  · split_ifs at h
    · exact ⟨_, _, List.mem_singleton.mp h⟩
    · exact nomatch h

/-- Whichever page is asked for, some list has a link on it. -/
theorem link_of_visits {offset limit : Nat} {count : Bool} (hp : page_params st params = .ok (offset, limit, count))
    (h : Visits st params path accept offset limit count) :
    ∃ off rel params', read_link path (mk params path accept off rel) = some params' ∧
      ∀ k, k ≠ "offset" → params'.get k = params.get k := by
  obtain ⟨hoff, hmax⟩ := page_params_bounds hp
  have hbound := st.bounded
  by_cases hzero : offset = 0
  · have hlen : (List.replicate (limit + 1) Value.null).length < 2 ^ 63 := by
      rw [List.length_replicate]
      omega
    obtain ⟨page, total, links, hpage, -, hnext, hleads⟩ := h.next _ hlen
    obtain ⟨link, hlink, hrel⟩ := hnext.mpr (by rw [List.length_replicate]; omega)
    obtain ⟨params', hread, hsame, -⟩ := hleads link hlink hrel
    rw [paginate_ok hp, Except.ok.injEq] at hpage
    obtain ⟨-, -, rfl⟩ := by simpa using hpage
    obtain ⟨off, rel, rfl⟩ := link_of_page hlink
    exact ⟨off, rel, params', hread, hsame⟩
  · obtain ⟨page, total, links, hpage, link, hlink, -, -, -, -, params', hread, hsame, -⟩ :=
      h.prev [] (by simp) (Nat.pos_of_ne_zero hzero)
    rw [paginate_ok hp, Except.ok.injEq] at hpage
    obtain ⟨-, -, rfl⟩ := by simpa using hpage
    obtain ⟨off, rel, rfl⟩ := link_of_page hlink
    exact ⟨off, rel, params', hread, hsame⟩

theorem linkable_of_visits {offset limit : Nat} {count : Bool} (hp : page_params st params = .ok (offset, limit, count))
    (h : Visits st params path accept offset limit count) : Linkable params path := by
  obtain ⟨off, rel, params', hread, hsame⟩ := link_of_visits hp h
  have hnames := plain_of_read (limit_parses hp) hread hsame
  exact ⟨hnames, limit_of_read hnames (limit_parses hp) hread hsame, limit_parses hp⟩

/-- The links of a request visit every list once, page by page, exactly when its parameter
names and its limit are read back from a link as they are. -/
theorem visits_iff {offset limit : Nat} {count : Bool} (hp : page_params st params = .ok (offset, limit, count)) (hl : 0 < limit) :
    Visits st params path accept offset limit count ↔ PlainNames params ∧ PlainLimit params path := by
  constructor
  · intro h
    have hlinkable := linkable_of_visits hp h
    exact ⟨hlinkable.names, hlinkable.limit⟩
  · rintro ⟨hnames, hlimit⟩
    exact visits_of_linkable ⟨hnames, hlimit, limit_parses hp⟩ hp hl

/-- The sizes a broker starts with. -/
def standard : AppState := ⟨1000, 1000, by decide⟩

def vehicles (limit : String) : Params := (BTreeMap.empty.insert "limit" limit).insert "type" "Vehicle"

theorem visits_vehicles :
    page_params standard (vehicles "2") = .ok (0, 2, false) ∧
      Visits standard (vehicles "2") "/ngsi-ld/v1/entities" .Json 0 2 false := by
  have hp : page_params standard (vehicles "2") = .ok (0, 2, false) := by decide
  refine ⟨hp, (visits_iff hp (by decide)).mpr ⟨fun k _ hsome => ?_, fun hstyle => ?_⟩⟩
  · have htype : PlainName "type" := ⟨not_reserved_of_all (by decide), unescaped_of_not_mem (by decide)⟩
    rw [vehicles, BTreeMap.get_insert, BTreeMap.get_insert] at hsome
    split_ifs at hsome with hk hk
    · exact hk ▸ htype
    · exact hk ▸ plain_limit
    · exact nomatch hsome
  · exact absurd hstyle (by decide)

/-- A limit with a plus sign is taken, and the link to the next page has a space for it. -/
theorem registrations_not_visited :
    page_params standard (vehicles "+5") = .ok (0, 5, false) ∧
      ¬ Visits standard (vehicles "+5") "/ngsi-ld/v1/csourceRegistrations" .Json 0 5 false := by
  have hp : page_params standard (vehicles "+5") = .ok (0, 5, false) := by decide
  refine ⟨hp, fun h => ?_⟩
  exact (linkable_of_visits hp h).limit (by decide) "+5" (by decide) (by decide)

end Failing

end AntaresBroker.PageLinks
