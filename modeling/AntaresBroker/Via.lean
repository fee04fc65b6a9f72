import AntaresBroker.FedReg
import AntaresBroker.Mem

namespace AntaresBroker.Federation

open Json Ql Text Mem

/-- The values of a request's `Via` fields, a byte to a character. -/
abbrev Headers := List String

def is_visible_ascii (c : Char) : Bool := (32 ≤ c.toNat && c.toNat < 127) || c = '\t'

/-- A field value as text, if it is visible ASCII. -/
def to_str (v : String) : Option (List Char) := if v.toList.all is_visible_ascii then some v.toList else none

/-- The full inbound chain, joined across the fields. -/
def inbound_via (headers : Headers) : Option (List Char) :=
  match headers.filterMap to_str with
  | [] => none
  | fields => some (", ".toList.intercalate fields)

def alias_for (host_alias : String) (tenant : TenantId) : String :=
  if tenant.name = DEFAULT then host_alias else host_alias ++ "~" ++ tenant.name

def split_whitespace (s : List Char) : List (List Char) := (s.splitOnP is_whitespace).filter (fun w => w ≠ [])

/-- The pseudonym of a chain element: its second word, its first when it has no protocol. -/
def received_by (words : List (List Char)) : Option String := (words[1]?.or words[0]?).map String.ofList

def via_tokens (headers : Headers) : List String :=
  match inbound_via headers with
  | none => []
  | some v => (v.splitOn ',').filterMap (fun t => received_by (split_whitespace t))

def MAX_VIA_HOPS : Nat := 32

def via_hops (headers : Headers) : Nat := ((headers.filterMap to_str).map (fun v => (v.splitOn ',').length)).sum

def via_loop (headers : Headers) (host : String) : Bool :=
  MAX_VIA_HOPS < via_hops headers || (via_tokens headers).contains host

/-- The registrations left by the loop rule, and whether it answers 508 itself. -/
def handle_via_loop (headers : Headers) (host : String) (regs : List FedReg) : Bool × List FedReg :=
  if MAX_VIA_HOPS < via_hops headers then (true, [])
  else if regs = [] || !via_loop headers host then (false, regs)
  else if regs.length = 1 && regs.all FedReg.is_proxy then (true, regs)
  else (false, [])

def outbound_via (headers : Headers) (host : String) : String :=
  match inbound_via headers with
  | some v => String.ofList v ++ ", 1.1 " ++ host
  | none => "1.1 " ++ host

/-- A host alias: a token without the separator of tenants. -/
structure HostAlias where
  name : String
  shape : name ≠ "" ∧ ∀ c ∈ name.toList, c.isAlphanum = true ∨ c ∈ "!#$%&'*+-.^_\x60|".toList

section Words

theorem split_whitespace_append_cons (s t : List Char) {c : Char} (hc : is_whitespace c = true) :
    split_whitespace (s ++ c :: t) = split_whitespace s ++ split_whitespace t := by
  rw [split_whitespace, List.splitOnP_append_cons _ _ hc, List.filter_append]
  rfl

theorem split_whitespace_cons {c : Char} (hc : is_whitespace c = true) (t : List Char) :
    split_whitespace (c :: t) = split_whitespace t :=
  split_whitespace_append_cons [] t hc

theorem split_whitespace_word {w : List Char} (hw : ∀ c ∈ w, is_whitespace c = false) (hne : w ≠ []) :
    split_whitespace w = [w] := by
  rw [split_whitespace, List.splitOnP_eq_singleton hw, List.filter_cons_of_pos (by simpa using hne), List.filter_nil]

/-- The elements of a list header, each as its words. -/
def pieces (s : List Char) : List (List (List Char)) := ((s.splitOn ',').map split_whitespace).filter (fun ws => ws ≠ [])

theorem pieces_append_comma (s t : List Char) : pieces (s ++ ',' :: t) = pieces s ++ pieces t := by
  rw [pieces, List.splitOn_append_cons_self, List.map_append, List.filter_append]
  rfl

theorem pieces_blank (t : List Char) : pieces (' ' :: t) = pieces t := by
  unfold pieces
  rw [List.splitOn_cons_eq_if_modifyHead, if_neg (by decide)]
  cases h : t.splitOn ',' with
  | nil => exact absurd h (List.splitOn_ne_nil _ _)
  | cons u us =>
      rw [List.modifyHead_cons, List.map_cons, List.map_cons, split_whitespace_cons (by decide)]

theorem pieces_intercalate (fields : List (List Char)) : pieces (", ".toList.intercalate fields) = fields.flatMap pieces := by
  induction fields with
  | nil => rfl
  | cons f fields ih =>
      cases fields with
      | nil => simp
      | cons g fields =>
          have hjoin : ", ".toList.intercalate (f :: g :: fields) =
              f ++ ',' :: ' ' :: ", ".toList.intercalate (g :: fields) := by
            rw [List.intercalate_cons_cons]
            simp
          rw [hjoin, pieces_append_comma, pieces_blank, ih]
          rfl

end Words

/-- The elements of a chain, over all fields that can be read. -/
def elements (headers : Headers) : List (List (List Char)) := (headers.filterMap to_str).flatMap pieces

theorem filterMap_pieces (s : List Char) :
    (s.splitOn ',').filterMap (fun t => received_by (split_whitespace t)) = (pieces s).filterMap received_by := by
  unfold pieces
  generalize s.splitOn ',' = us
  induction us with
  | nil => rfl
  | cons u us ih =>
      rw [List.map_cons, List.filterMap_cons, ih]
      by_cases h : split_whitespace u = []
      · rw [h, List.filter_cons_of_neg (by simp)]
        rfl
      · rw [List.filter_cons_of_pos (by simpa using h), List.filterMap_cons]

/-- The pseudonyms do not depend on how the chain is cut into fields. -/
theorem via_tokens_eq (headers : Headers) : via_tokens headers = (elements headers).filterMap received_by := by
  unfold via_tokens inbound_via elements
  cases h : headers.filterMap to_str with
  | nil => rfl
  | cons f fields => rw [← pieces_intercalate, ← filterMap_pieces]

/-- Every element counts as a hop. -/
theorem length_elements_le (headers : Headers) : (elements headers).length ≤ via_hops headers := by
  unfold elements via_hops
  induction headers.filterMap to_str with
  | nil => exact le_rfl
  | cons f fields ih =>
      have hf : (pieces f).length ≤ (f.splitOn ',').length := by
        have h := List.length_filter_le (fun ws => decide (ws ≠ [])) ((f.splitOn ',').map split_whitespace)
        rwa [List.length_map] at h
      rw [List.flatMap_cons, List.length_append, List.map_cons, List.sum_cons]
      exact Nat.add_le_add hf ih

section Pseudonym

/-- What a pseudonym is made of: no blank, no comma, and nothing a header field cannot hold. -/
def Token (s : List Char) : Prop := s ≠ [] ∧ ∀ c ∈ s, 33 ≤ c.toNat ∧ c.toNat < 127 ∧ c ≠ ','

theorem isAlphanum_range {c : Char} (h : c.isAlphanum = true) : 48 ≤ c.toNat ∧ c.toNat ≤ 122 := by
  change ((decide (c.val ≥ 'A'.val ∧ c.val ≤ 'Z'.val) || (decide (c.val ≥ 'a'.val) && decide (c.val ≤ 'z'.val))) ||
    (decide (c.val ≥ '0'.val) && decide (c.val ≤ '9'.val))) = true at h
  simp only [Bool.or_eq_true, Bool.and_eq_true, decide_eq_true_eq, ge_iff_le, UInt32.le_iff_toNat_le] at h
  change 48 ≤ c.val.toNat ∧ c.val.toNat ≤ 122
  have hup : 'A'.val.toNat = 65 ∧ 'Z'.val.toNat = 90 := ⟨rfl, rfl⟩
  have hlow : 'a'.val.toNat = 97 ∧ 'z'.val.toNat = 122 := ⟨rfl, rfl⟩
  have hdigit : '0'.val.toNat = 48 ∧ '9'.val.toNat = 57 := ⟨rfl, rfl⟩
  omega

theorem token_char {c : Char} (h : c.isAlphanum = true ∨ c ∈ "!#$%&'*+-.^_\x60|~".toList) :
    33 ≤ c.toNat ∧ c.toNat < 127 ∧ c ≠ ',' := by
  rcases h with h | h
  · have hr := isAlphanum_range h
    refine ⟨by omega, by omega, ?_⟩
    rintro rfl
    exact absurd hr.1 (by decide)
  · revert c
    decide

theorem token_alias_for (host : HostAlias) (tenant : TenantId) : Token (alias_for host.name tenant).toList := by
  have hname : host.name.toList ≠ [] := fun h => host.shape.1 (String.toList_eq_nil_iff.mp h)
  have hchars : ∀ c ∈ host.name.toList, 33 ≤ c.toNat ∧ c.toNat < 127 ∧ c ≠ ',' := by
    intro c hc
    refine token_char ((host.shape.2 c hc).imp_right fun h => ?_)
    exact List.mem_append_left ['~'] h
  unfold alias_for
  split_ifs
  · exact ⟨hname, hchars⟩
  · rw [String.toList_append, String.toList_append]
    refine ⟨by simp, fun c hc => ?_⟩
    rcases List.mem_append.mp hc with hc | hc
    · rcases List.mem_append.mp hc with hc | hc
      · exact hchars c hc
      · exact token_char (.inr (by rw [List.mem_singleton.mp hc]; decide))
    · rcases tenant.shape.2.2 c hc with h | rfl | rfl
      · exact token_char (.inl h)
      · decide
      · decide

/-- The tenant is cut off a pseudonym at the first separator, so no two pairs share one. -/
theorem alias_for_inj {host host' : HostAlias} {tenant tenant' : TenantId}
    (h : alias_for host.name tenant = alias_for host'.name tenant') : host.name = host'.name ∧ tenant = tenant' := by
  have hfree : ∀ host : HostAlias, '~' ∉ host.name.toList := by
    intro host hc
    rcases host.shape.2 _ hc with h | h
    · exact absurd h (by decide)
    · exact absurd h (by decide)
  have hext : ∀ t t' : TenantId, t.name = t'.name → t = t' := by
    rintro ⟨n, _⟩ ⟨n', _⟩ rfl
    rfl
  have hlist := congrArg String.toList h
  unfold alias_for at hlist
  split_ifs at hlist with hd hd' hd'
  · exact ⟨String.toList_inj.mp hlist, hext _ _ (hd.trans hd'.symm)⟩
  · refine absurd ?_ (hfree host)
    rw [hlist, String.toList_append, String.toList_append]
    simp
  · refine absurd ?_ (hfree host')
    rw [← hlist, String.toList_append, String.toList_append]
    simp
  · have hsplit : ∀ (host : HostAlias) (t : TenantId),
        splitOnce '~' (host.name ++ "~" ++ t.name).toList = some (host.name.toList, t.name.toList) := by
      intro host t
      refine splitOnce_eq_some.mpr ⟨?_, hfree host⟩
      simp [String.toList_append]
    have heq := (hsplit host tenant).symm.trans ((congrArg (splitOnce '~') hlist).trans (hsplit host' tenant'))
    simp only [Option.some.injEq, Prod.mk.injEq, String.toList_inj] at heq
    exact ⟨heq.1, hext _ _ heq.2⟩

theorem token_blank_free {s : List Char} (h : Token s) : ∀ c ∈ s, is_whitespace c = false := by
  intro c hc
  have hr := h.2 c hc
  unfold is_whitespace
  simp only [decide_eq_false_iff_not]
  omega

/-- The element a broker adds is its own pseudonym, whatever chain it adds it to. -/
theorem pieces_element {s : List Char} (h : Token s) : pieces ("1.1 ".toList ++ s) = [["1.1".toList, s]] := by
  have hcomma : ',' ∉ "1.1 ".toList ++ s := by
    rw [List.mem_append, not_or]
    exact ⟨by decide, fun hc => (h.2 _ hc).2.2 rfl⟩
  have hwords : split_whitespace ("1.1 ".toList ++ s) = ["1.1".toList, s] := by
    have hcut : "1.1 ".toList ++ s = "1.1".toList ++ ' ' :: s := rfl
    rw [hcut, split_whitespace_append_cons _ _ (by decide), split_whitespace_word (token_blank_free h) h.1]
    rfl
  rw [pieces, List.splitOn_eq_singleton hcomma, List.map_singleton, hwords]
  rfl

theorem received_by_element (s : List Char) : received_by ["1.1".toList, s] = some (String.ofList s) := rfl

theorem to_str_visible {v : String} {s : List Char} (h : to_str v = some s) : ∀ c ∈ s, is_visible_ascii c = true := by
  unfold to_str at h
  split_ifs at h with hall
  obtain rfl := Option.some.inj h
  exact List.all_eq_true.mp hall

theorem forall_mem_intercalate {P : Char → Prop} {sep : List Char} (hsep : ∀ c ∈ sep, P c) {fields : List (List Char)}
    (h : ∀ f ∈ fields, ∀ c ∈ f, P c) : ∀ c ∈ sep.intercalate fields, P c := by
  induction fields with
  | nil => exact fun _ hc => by cases hc
  | cons f fields ih =>
      rw [List.forall_mem_cons] at h
      cases fields with
      | nil => simpa using h.1
      | cons g fields =>
          rw [List.intercalate_cons_cons]
          intro c hc
          rcases List.mem_append.mp hc with hc | hc
          · rcases List.mem_append.mp hc with hc | hc
            · exact h.1 c hc
            · exact hsep c hc
          · exact ih h.2 c hc

theorem inbound_via_visible {headers : Headers} {v : List Char} (h : inbound_via headers = some v) :
    ∀ c ∈ v, is_visible_ascii c = true := by
  have hfields : ∀ f ∈ headers.filterMap to_str, ∀ c ∈ f, is_visible_ascii c = true := by
    intro f hf
    obtain ⟨raw, -, hraw⟩ := List.mem_filterMap.mp hf
    exact to_str_visible hraw
  unfold inbound_via at h
  cases hv : headers.filterMap to_str with
  | nil => rw [hv] at h; cases h
  | cons f fields =>
      rw [hv] at h hfields
      obtain rfl := Option.some.inj h
      exact forall_mem_intercalate (by decide) hfields

/-- Everything a broker writes can be read back. -/
theorem to_str_outbound (headers : Headers) {host : String} (h : Token host.toList) :
    to_str (outbound_via headers host) = some (outbound_via headers host).toList := by
  have hhost : ∀ c ∈ host.toList, is_visible_ascii c = true := by
    intro c hc
    have hr := h.2 c hc
    simp only [is_visible_ascii, Bool.or_eq_true, Bool.and_eq_true, decide_eq_true_eq]
    omega
  refine if_pos (List.all_eq_true.mpr fun c hc => ?_)
  unfold outbound_via at hc
  cases hv : inbound_via headers with
  | none =>
      rw [hv, String.toList_append] at hc
      rcases List.mem_append.mp hc with hc | hc
      · exact List.all_eq_true.mp (by decide : "1.1 ".toList.all is_visible_ascii = true) c hc
      · exact hhost c hc
  | some v =>
      rw [hv, String.toList_append, String.toList_append, String.toList_ofList] at hc
      rcases List.mem_append.mp hc with hc | hc
      · rcases List.mem_append.mp hc with hc | hc
        · exact inbound_via_visible hv c hc
        · exact List.all_eq_true.mp (by decide : ", 1.1 ".toList.all is_visible_ascii = true) c hc
      · exact hhost c hc

/-- Forwarding adds one element to the chain and keeps those before it. -/
theorem elements_outbound (headers : Headers) {host : String} (h : Token host.toList) :
    elements [outbound_via headers host] = elements headers ++ [["1.1".toList, host.toList]] := by
  have hone : elements [outbound_via headers host] = pieces (outbound_via headers host).toList := by
    rw [elements, List.filterMap_cons, to_str_outbound headers h]
    simp
  rw [hone, elements, outbound_via, inbound_via]
  cases hv : headers.filterMap to_str with
  | nil => rw [String.toList_append, pieces_element h]; rfl
  | cons f fields =>
      have hcut : (String.ofList (", ".toList.intercalate (f :: fields)) ++ ", 1.1 " ++ host).toList =
          ", ".toList.intercalate (f :: fields) ++ ',' :: ' ' :: ("1.1 ".toList ++ host.toList) := by
        simp [String.toList_append]
      rw [hcut, pieces_append_comma, pieces_blank, pieces_element h, pieces_intercalate]

end Pseudonym

end AntaresBroker.Federation
