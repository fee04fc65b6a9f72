import AntaresBroker.Json
import AntaresBroker.JsonString
import Mathlib.Order.Basic

namespace AntaresBroker.Bounds

open Json JsonString

def MAX_JSON_DEPTH : Nat := 64

/-- Where the scan stands. -/
structure Scan where
  depth : Nat
  max : Nat
  in_str : Bool
  esc : Bool

def Scan.start : Scan := ⟨0, 0, false, false⟩

def scan (s : Scan) (b : Char) : Scan :=
  if s.in_str then
    if s.esc then { s with esc := false }
    else if b = '\\' then { s with esc := true }
    else if b = '"' then { s with in_str := false }
    else s
  else if b = '"' then { s with in_str := true }
  else if b = '{' ∨ b = '[' then { s with depth := s.depth + 1, max := Nat.max s.max (s.depth + 1) }
  else if b = '}' ∨ b = ']' then { s with depth := s.depth - 1 }
  else s

/-- The nesting of braces and brackets in a JSON text. -/
def json_depth (text : List Char) : Nat := (text.foldl scan .start).max

/-- How deep arrays and objects stand one inside the other. -/
def nesting : Value → Nat
  | .array items => nesting_items items + 1
  | .object members => nesting_members members + 1
  | _ => 0
where
  nesting_items : List Value → Nat
    | [] => 0
    | item :: items => Nat.max (nesting item) (nesting_items items)
  nesting_members : List (String × Value) → Nat
    | [] => 0
    | (_, v) :: members => Nat.max (nesting v) (nesting_members members)

section Grammar

def Ws (t : List Char) : Prop := ∀ c ∈ t, c ∈ " \t\n\r".toList

/-- A value as it stands in an array or behind a key, between blanks. -/
structure Piece where
  before : List Char
  value : Value
  text : List Char
  after : List Char

def Piece.whole (p : Piece) : List Char := p.before ++ (p.text ++ p.after)

def Piece.Spaced (p : Piece) : Prop := Ws p.before ∧ Ws p.after

/-- A member of an object; `body` is what stands between the quotes of its key. -/
structure Member where
  before : List Char
  key : String
  body : List Char
  between : List Char
  piece : Piece

def quoted (body : List Char) : List Char := '"' :: (body ++ ['"'])

def Member.whole (m : Member) : List Char := m.before ++ (quoted m.body ++ (m.between ++ (':' :: m.piece.whole)))

def Member.Spaced (m : Member) : Prop := Ws m.before ∧ Ws m.between ∧ m.piece.Spaced

/-- The texts of a document, with any blanks and any escapes. -/
inductive Written : Value → List Char → Prop
  | null : Written .null "null".toList
  | bool (b : Bool) : Written (.bool b) (if b then "true".toList else "false".toList)
  | number (n : JsonNumber) {t : List Char} (ht : ∀ c ∈ t, c ∈ "0123456789+-.eE".toList) : Written (.number n) t
  | string {s : String} {body : List Char} (h : unescape body = some s.toList) : Written (.string s) (quoted body)
  | empty_array {w : List Char} (hw : Ws w) : Written (.array []) ('[' :: (w ++ [']']))
  | array {pieces : List Piece} (hne : pieces ≠ []) (hspaced : ∀ p ∈ pieces, p.Spaced)
      (h : ∀ p ∈ pieces, Written p.value p.text) :
      Written (.array (pieces.map Piece.value)) ('[' :: ([','].intercalate (pieces.map Piece.whole) ++ [']']))
  | empty_object {w : List Char} (hw : Ws w) : Written (.object []) ('{' :: (w ++ ['}']))
  | object {members : List Member} (hne : members ≠ []) (hspaced : ∀ m ∈ members, m.Spaced)
      (hkeys : ∀ m ∈ members, unescape m.body = some m.key.toList) (h : ∀ m ∈ members, Written m.piece.value m.piece.text) :
      Written (.object (members.map (fun m => (m.key, m.piece.value))))
        ('{' :: ([','].intercalate (members.map Member.whole) ++ ['}']))

end Grammar

section Scanning

/-- A text after which the scan is as deep as before, having been `n` deeper. -/
def Balanced (n : Nat) (t : List Char) : Prop :=
  ∀ d m, d ≤ m → t.foldl scan ⟨d, m, false, false⟩ = ⟨d, Nat.max m (d + n), false, false⟩

theorem balanced_nil : Balanced 0 [] := by
  intro d m h
  have hmax : Nat.max m (d + 0) = m := Nat.max_eq_left h
  rw [hmax]
  rfl

theorem Balanced.append {n k : Nat} {t u : List Char} (ht : Balanced n t) (hu : Balanced k u) :
    Balanced (Nat.max n k) (t ++ u) := by
  intro d m h
  have hmax : Nat.max (Nat.max m (d + n)) (d + k) = Nat.max m (d + Nat.max n k) := by
    simp only [Nat.max_def]
    split_ifs <;> omega
  rw [List.foldl_append, ht d m h, hu d _ (le_trans h (Nat.le_max_left _ _)), hmax]

/-- A character that is none of those the scan looks for. -/
def plain (c : Char) : Bool := c ≠ '"' && c ≠ '{' && c ≠ '[' && c ≠ '}' && c ≠ ']'

theorem scan_plain {c : Char} (h : plain c = true) (d m : Nat) : scan ⟨d, m, false, false⟩ c = ⟨d, m, false, false⟩ := by
  simp only [plain, Bool.and_eq_true, decide_eq_true_eq] at h
  obtain ⟨⟨⟨⟨hq, ho⟩, hb⟩, hc⟩, hd⟩ := h
  simp [scan, hq, ho, hb, hc, hd]

theorem balanced_plain {t : List Char} (h : ∀ c ∈ t, plain c = true) : Balanced 0 t := by
  intro d m hdm
  have hmax : Nat.max m (d + 0) = m := Nat.max_eq_left hdm
  rw [hmax]
  induction t with
  | nil => rfl
  | cons c t ih =>
      rw [List.forall_mem_cons] at h
      rw [List.foldl_cons, scan_plain h.1]
      exact ih h.2

theorem balanced_of_mem {t l : List Char} (ht : ∀ c ∈ t, c ∈ l) (hl : l.all plain = true) : Balanced 0 t := by
  apply balanced_plain
  intro c hc
  exact List.all_eq_true.mp hl c (ht c hc)

theorem balanced_ws {w : List Char} (h : Ws w) : Balanced 0 w := balanced_of_mem h (by decide)

theorem Balanced.before {n : Nat} {w t : List Char} (ht : Balanced n t) (hw : Balanced 0 w) : Balanced n (w ++ t) := by
  have happend := hw.append ht
  rwa [show Nat.max 0 n = n from Nat.zero_max n] at happend

theorem Balanced.after {n : Nat} {w t : List Char} (ht : Balanced n t) (hw : Balanced 0 w) : Balanced n (t ++ w) := by
  have happend := ht.append hw
  rwa [show Nat.max n 0 = n from Nat.max_zero n] at happend

/-- Brackets around a text make it one deeper. -/
theorem Balanced.bracketed {n : Nat} {t : List Char} (ht : Balanced n t) {o c : Char} (ho : o = '{' ∨ o = '[')
    (hc : c = '}' ∨ c = ']') : Balanced (n + 1) (o :: (t ++ [c])) := by
  intro d m h
  have hopen : scan ⟨d, m, false, false⟩ o = ⟨d + 1, Nat.max m (d + 1), false, false⟩ := by
    rcases ho with rfl | rfl <;> rfl
  have hclose (m' : Nat) : scan ⟨d + 1, m', false, false⟩ c = ⟨d, m', false, false⟩ := by
    rcases hc with rfl | rfl <;> rfl
  have hmax : Nat.max (Nat.max m (d + 1)) (d + 1 + n) = Nat.max m (d + (n + 1)) := by
    simp only [Nat.max_def]
    split_ifs <;> omega
  rw [List.foldl_cons, hopen, List.foldl_append, ht _ _ (Nat.le_max_right _ _), hmax]
  exact hclose _

/-- Whether the reader of a string stands behind a backslash. -/
def escaped : Reading → Bool
  | .backslash | .low_u _ => true
  | _ => false

theorem hex_value_plain {c : Char} {n : Nat} (h : hex_value c = some n) : c ≠ '"' ∧ c ≠ '\\' := by
  constructor
  · rintro rfl
    cases h
  · rintro rfl
    cases h

/-- The scan follows the reader of a string to its closing quote. -/
theorem scan_read {r r' : Reading} {c : Char} {o : Option Char} (h : JsonString.read r c = some (o, r')) (d m : Nat) :
    scan ⟨d, m, true, escaped r⟩ c = ⟨d, m, true, escaped r'⟩ := by
  cases r with
  | text =>
      rw [JsonString.read] at h
      split_ifs at h with hb hq
      · cases h
        subst hb
        rfl
      · cases h
        have hquote : c ≠ '"' := fun heq => hq (.inl heq)
        simp [scan, escaped, hb, hquote]
  | backslash =>
      rw [JsonString.read] at h
      split_ifs at h with hu
      · cases h
        rfl
      · obtain ⟨e, -, heq⟩ := Option.map_eq_some_iff.mp h
        cases heq
        rfl
  | hex high left value =>
      rw [JsonString.read] at h
      obtain ⟨n, hn, h⟩ := Option.bind_eq_some_iff.mp h
      obtain ⟨hq, hb⟩ := hex_value_plain hn
      have hstill : escaped r' = false := by
        split_ifs at h with hleft
        · cases h
          rfl
        · rw [unicode.eq_def] at h
          cases high with
          | none =>
              dsimp only at h
              split_ifs at h
              · cases h
                rfl
              · cases h
                rfl
          | some hi =>
              dsimp only at h
              split_ifs at h
              cases h
              rfl
      rw [hstill]
      simp [scan, escaped, hq, hb]
  | low high =>
      rw [JsonString.read] at h
      split_ifs at h with hb
      cases h
      subst hb
      rfl
  | low_u high =>
      rw [JsonString.read] at h
      split_ifs at h with hu
      cases h
      rfl

theorem scan_decode {body : List Char} {r : Reading} {s : List Char} (h : decode r body = some s) (d m : Nat) :
    body.foldl scan ⟨d, m, true, escaped r⟩ = ⟨d, m, true, false⟩ := by
  induction body generalizing r s with
  | nil =>
      cases r with
      | text => rfl
      | _ => cases h
  | cons c body ih =>
      rw [decode] at h
      obtain ⟨⟨o, r'⟩, hread, h⟩ := Option.bind_eq_some_iff.mp h
      rw [List.foldl_cons, scan_read hread]
      cases o with
      | none => exact ih h
      | some e =>
          obtain ⟨s', hs', -⟩ := Option.map_eq_some_iff.mp h
          exact ih hs'

theorem balanced_quoted {body s : List Char} (h : unescape body = some s) : Balanced 0 (quoted body) := by
  intro d m hdm
  have hmax : Nat.max m (d + 0) = m := Nat.max_eq_left hdm
  have hbody := scan_decode h d m
  rw [hmax, quoted, List.foldl_cons, List.foldl_append]
  have hopen : scan ⟨d, m, false, false⟩ '"' = ⟨d, m, true, escaped .text⟩ := rfl
  rw [hopen, hbody]
  rfl

theorem Balanced.piece {p : Piece} (hspaced : p.Spaced) (h : Balanced (nesting p.value) p.text) :
    Balanced (nesting p.value) p.whole := (h.after (balanced_ws hspaced.2)).before (balanced_ws hspaced.1)

theorem balanced_items {α : Type} {whole : α → List Char} {depth : α → Nat} (total : List α → Nat)
    (htotal : ∀ a l, total (a :: l) = Nat.max (depth a) (total l)) (hnil : total [] = 0) {l : List α}
    (h : ∀ a ∈ l, Balanced (depth a) (whole a)) : Balanced (total l) ([','].intercalate (l.map whole)) := by
  induction l with
  | nil =>
      rw [hnil]
      exact balanced_nil
  | cons a l ih =>
      rw [List.forall_mem_cons] at h
      cases l with
      | nil =>
          have hmax : Nat.max (depth a) 0 = depth a := Nat.max_zero _
          rw [htotal, hnil, hmax, List.map_cons, List.map_nil, List.intercalate_singleton]
          exact h.1
      | cons b l =>
          have hcomma : Balanced 0 [','] := balanced_of_mem (fun c hc => hc) (by decide)
          rw [List.map_cons, List.map_cons, List.intercalate_cons_cons, htotal, ← List.map_cons]
          exact (h.1.after hcomma).append (ih h.2)

theorem balanced_written {v : Value} {t : List Char} (h : Written v t) : Balanced (nesting v) t := by
  induction h with
  | null => exact balanced_of_mem (fun c hc => hc) (by decide)
  | bool b =>
      cases b with
      | false => exact balanced_of_mem (fun c hc => hc) (by decide)
      | true => exact balanced_of_mem (fun c hc => hc) (by decide)
  | number n ht => exact balanced_of_mem ht (by decide)
  | string h => exact balanced_quoted h
  | empty_array hw => exact (balanced_ws hw).bracketed (.inr rfl) (.inr rfl)
  | @array pieces hne hspaced h ih =>
      have hitems := @balanced_items _ Piece.whole (fun p => nesting p.value)
        (fun l => nesting.nesting_items (l.map Piece.value)) (fun a l => rfl) rfl pieces
        (fun p hp => (ih p hp).piece (hspaced p hp))
      exact hitems.bracketed (.inr rfl) (.inr rfl)
  | empty_object hw => exact (balanced_ws hw).bracketed (.inl rfl) (.inl rfl)
  | @object members hne hspaced hkeys h ih =>
      have hmember (m : Member) (hm : m ∈ members) : Balanced (nesting m.piece.value) m.whole := by
        have hcolon : Balanced 0 [':'] := balanced_of_mem (fun c hc => hc) (by decide)
        obtain ⟨hbefore, hbetween, hpiece⟩ := hspaced m hm
        have hvalue := ((ih m hm).piece hpiece).before hcolon
        exact ((hvalue.before (balanced_ws hbetween)).before (balanced_quoted (hkeys m hm))).before (balanced_ws hbefore)
      have hitems := @balanced_items _ Member.whole (fun m => nesting m.piece.value)
        (fun l => nesting.nesting_members (l.map (fun m => (m.key, m.piece.value)))) (fun a l => rfl) rfl members hmember
      exact hitems.bracketed (.inl rfl) (.inl rfl)

/-- However a document is written, the scan finds the nesting of its value. -/
theorem json_depth_is_nesting {v : Value} {t : List Char} (h : Written v t) : json_depth t = nesting v := by
  rw [json_depth, Scan.start, balanced_written h 0 0 (Nat.le_refl 0)]
  exact (Nat.zero_max _).trans (Nat.zero_add _)

/-- A bracket that stands in a string is none. -/
theorem bracket_in_string : json_depth "[\"[\"]".toList = nesting (.array [.string "["]) :=
  json_depth_is_nesting (@Written.array [⟨[], .string "[", "\"[\"".toList, []⟩] (by decide)
    (fun p hp => by
      rw [List.mem_singleton.mp hp]
      constructor <;> intro c hc <;> cases hc)
    (fun p hp => by
      rw [List.mem_singleton.mp hp]
      exact @Written.string "[" ['['] (by decide)))

end Scanning

end AntaresBroker.Bounds
