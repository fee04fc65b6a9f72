import AntaresBroker.BTreeMap
import Mathlib.Data.List.Basic
import Mathlib.Data.String.Basic
import Mathlib.Tactic.IntervalCases

namespace AntaresBroker.QueryText

section Bytes

def utf8 (s : List Char) : List UInt8 := s.flatMap String.utf8EncodeChar

/-- The text of which these are the bytes. -/
def of_utf8 (bytes : List UInt8) : Option (List Char) := bytes.toByteArray.utf8Decode?.map Array.toList

theorem utf8_append (s t : List Char) : utf8 (s ++ t) = utf8 s ++ utf8 t := List.flatMap_append

theorem utf8_cons (c : Char) (s : List Char) : utf8 (c :: s) = String.utf8EncodeChar c ++ utf8 s := List.flatMap_cons

@[simp] theorem of_utf8_utf8 (s : List Char) : of_utf8 (utf8 s) = some s := by
  have h : (utf8 s).toByteArray.utf8Decode? = some s.toArray := List.utf8Decode?_utf8Encode
  rw [of_utf8, h]
  rfl

theorem utf8_of_utf8 {bytes : List UInt8} {s : List Char} (h : of_utf8 bytes = some s) : utf8 s = bytes := by
  obtain ⟨chars, hchars, rfl⟩ := Option.map_eq_some_iff.mp h
  have hsome : bytes.toByteArray.utf8Decode?.isSome = true := by rw [hchars]; rfl
  have hget := ByteArray.utf8Encode_get_utf8Decode? (b := bytes.toByteArray) (h := hsome)
  simp only [hchars, Option.get_some] at hget
  have hdata := congrArg (fun b => b.data.toList) hget
  simpa [List.utf8Encode, utf8] using hdata

theorem utf8_injective {s t : List Char} (h : utf8 s = utf8 t) : s = t := by
  have hs := of_utf8_utf8 s
  rw [h, of_utf8_utf8] at hs
  exact (Option.some.inj hs).symm

theorem toNat_ofNat {n : Nat} (h : n < 128) : (Char.ofNat n).toNat = n := by
  rw [Char.ofNat, dif_pos (Or.inl (by omega))]
  rfl

theorem utf8_ascii {b : UInt8} (h : b.toNat < 128) : String.utf8EncodeChar (Char.ofNat b.toNat) = [b] := by
  have hval : (Char.ofNat b.toNat).val.toNat = b.toNat := by
    exact toNat_ofNat h
  rw [String.utf8EncodeChar, hval, if_pos (by omega)]
  simp

theorem utf8EncodeChar_ne_nil (c : Char) : 0 < (String.utf8EncodeChar c).length := by
  rw [String.length_utf8EncodeChar]
  exact c.utf8Size_pos

end Bytes

section Escapes

def hex_val (c : Char) : Option Nat :=
  if c.isDigit then some (c.toNat - '0'.toNat)
  else if 'a' ≤ c ∧ c ≤ 'f' then some (c.toNat - 'a'.toNat + 10)
  else if 'A' ≤ c ∧ c ≤ 'F' then some (c.toNat - 'A'.toNat + 10)
  else none

def hex_digit (n : Nat) : Char := Char.ofNat (if n < 10 then '0'.toNat + n else 'A'.toNat + (n - 10))

def is_ascii_alphanumeric (b : UInt8) : Bool := b.toNat < 128 && (Char.ofNat b.toNat).isAlphanum

def encode_byte (keep : UInt8 → Bool) (b : UInt8) : List Char :=
  if is_ascii_alphanumeric b || keep b then [Char.ofNat b.toNat]
  else ['%', hex_digit (b.toNat / 16), hex_digit (b.toNat % 16)]

/-- Every byte the caller does not keep becomes its percent-encoded triplet. -/
def pct_encode (s : List Char) (keep : UInt8 → Bool) : List Char := (utf8 s).flatMap (encode_byte keep)

/-- The bytes of a text whose escapes are undone, a plus read as a space. -/
def unescape : List Char → List UInt8
  | [] => []
  | '%' :: a :: b :: s =>
      match hex_val a, hex_val b with
      | some x, some y => UInt8.ofNat (16 * x + y) :: unescape s
      | _, _ => String.utf8EncodeChar '%' ++ unescape (a :: b :: s)
  | c :: s => String.utf8EncodeChar (if c = '+' then ' ' else c) ++ unescape s

def decode (s : List Char) : Option (List Char) := of_utf8 (unescape s)

/-- No percent sign stands before two hexadecimal digits. -/
def Unescaped (s : List Char) : Prop :=
  ∀ a b, (hex_val a).isSome = true → (hex_val b).isSome = true → ¬ ['%', a, b] <:+: s

def plus_to_space (c : Char) : Char := if c = '+' then ' ' else c

theorem Unescaped.part {s t : List Char} (h : Unescaped t) (hs : s <:+: t) : Unescaped s :=
  fun a b ha hb hin => h a b ha hb (hin.trans hs)

theorem unescaped_of_not_mem {s : List Char} (h : '%' ∉ s) : Unescaped s :=
  fun _ _ _ _ hin => h (hin.subset List.mem_cons_self)

theorem hex_val_hex_digit {n : Nat} (h : n < 16) : hex_val (hex_digit n) = some n := by
  interval_cases n <;> rfl

theorem hex_val_plus (c : Char) : hex_val (plus_to_space c) = hex_val c := by
  unfold plus_to_space
  split_ifs with h
  · subst h; rfl
  · rfl

/-- A character that starts no escape. -/
theorem unescape_cons {c : Char} (hc : c ≠ '%') (s : List Char) :
    unescape (c :: s) = String.utf8EncodeChar (plus_to_space c) ++ unescape s := by
  rw [unescape]
  · rfl
  · rintro a b t rfl
    exact absurd rfl hc

theorem unescape_triplet {a b : Char} {x y : Nat} (ha : hex_val a = some x) (hb : hex_val b = some y) (s : List Char) :
    unescape ('%' :: a :: b :: s) = UInt8.ofNat (16 * x + y) :: unescape s := by
  rw [unescape, ha, hb]

theorem unescape_encode_byte {keep : UInt8 → Bool} (hkeep : ∀ b, keep b = true → b.toNat < 128 ∧ b ≠ 37 ∧ b ≠ 43)
    (b : UInt8) (s : List Char) : unescape (encode_byte keep b ++ s) = b :: unescape s := by
  have hlt := b.toNat_lt
  unfold encode_byte
  split_ifs with h
  · have hplain : b.toNat < 128 ∧ b ≠ 37 ∧ b ≠ 43 := by
      rcases Bool.or_eq_true_iff.mp h with halnum | hk
      · obtain ⟨hascii, halpha⟩ := Bool.and_eq_true_iff.mp halnum
        refine ⟨of_decide_eq_true hascii, ?_, ?_⟩ <;> (rintro rfl; exact absurd halpha (by decide))
      · exact hkeep b hk
    obtain ⟨hascii, hpercent, hplus⟩ := hplain
    have hne {d : UInt8} (hd : d.toNat < 128) (hb : b ≠ d) : Char.ofNat b.toNat ≠ Char.ofNat d.toNat := by
      intro he
      refine hb (UInt8.toNat_inj.mp ?_)
      have hval := congrArg Char.toNat he
      rwa [toNat_ofNat hascii, toNat_ofNat hd] at hval
    have hspace : plus_to_space (Char.ofNat b.toNat) = Char.ofNat b.toNat := if_neg (hne (d := 43) (by decide) hplus)
    rw [List.singleton_append, unescape_cons (hne (d := 37) (by decide) hpercent), hspace, utf8_ascii hascii]
    rfl
  · rw [List.cons_append, List.cons_append, List.cons_append, List.nil_append,
      unescape_triplet (hex_val_hex_digit (by omega)) (hex_val_hex_digit (Nat.mod_lt _ (by decide)))]
    refine congrArg (· :: unescape s) (UInt8.toNat_inj.mp ?_)
    rw [UInt8.toNat_ofNat', Nat.mod_eq_of_lt (by omega)]
    omega

/-- What is encoded reads back. -/
theorem decode_pct_encode {keep : UInt8 → Bool} (hkeep : ∀ b, keep b = true → b.toNat < 128 ∧ b ≠ 37 ∧ b ≠ 43)
    (s : List Char) : decode (pct_encode s keep) = some s := by
  have hbytes (bytes : List UInt8) : unescape (bytes.flatMap (encode_byte keep)) = bytes := by
    induction bytes with
    | nil => rfl
    | cons b bytes ih => rw [List.flatMap_cons, unescape_encode_byte hkeep, ih]
  rw [decode, pct_encode, hbytes, of_utf8_utf8]

theorem unescaped_cons {c : Char} {s : List Char} (h : Unescaped s)
    (hc : ∀ a b t, c = '%' → s = a :: b :: t → ¬ ((hex_val a).isSome = true ∧ (hex_val b).isSome = true)) :
    Unescaped (c :: s) := by
  intro a b ha hb hin
  rcases List.infix_cons_iff.mp hin with hhead | hrest
  · obtain ⟨t, ht⟩ := hhead
    obtain ⟨rfl, hs⟩ := List.cons.inj ht
    exact hc a b t rfl hs.symm ⟨ha, hb⟩
  · exact h a b ha hb hrest

theorem length_cons (c : Char) (s : List Char) : (utf8 (c :: s)).length = (String.utf8EncodeChar c).length + (utf8 s).length := by
  rw [utf8_cons, List.length_append]

theorem length_plus (c : Char) : (String.utf8EncodeChar (plus_to_space c)).length = (String.utf8EncodeChar c).length := by
  unfold plus_to_space
  split_ifs with h
  · subst h; rfl
  · rfl

/-- Undoing the escapes shortens a text unless it has none. -/
theorem unescape_length (s : List Char) :
    (unescape s).length ≤ (utf8 s).length ∧
      ((unescape s).length = (utf8 s).length → Unescaped s ∧ unescape s = utf8 (s.map plus_to_space)) := by
  fun_induction unescape s with
  | case1 => exact ⟨Nat.le_refl _, fun _ => ⟨fun a b _ _ h => by simpa using h.length_le, rfl⟩⟩
  | case2 a b s x ha y hb ih =>
      have hpos := utf8EncodeChar_ne_nil a
      rw [length_cons, length_cons, length_cons, List.length_cons]
      have hpercent : (String.utf8EncodeChar '%').length = 1 := rfl
      have hlt := ih.1
      exact ⟨by omega, fun h => by omega⟩
  | case3 a b s hnone ih =>
      rw [length_cons, List.length_append]
      refine ⟨Nat.add_le_add_left ih.1 _, fun h => ?_⟩
      obtain ⟨hun, heq⟩ := ih.2 (Nat.add_left_cancel h)
      refine ⟨unescaped_cons hun ?_, ?_⟩
      · rintro a' b' t - hs ⟨ha, hb⟩
        simp only [List.cons.injEq] at hs
        rw [← hs.1] at ha
        rw [← hs.2.1] at hb
        obtain ⟨x, hx⟩ := Option.isSome_iff_exists.mp ha
        obtain ⟨y, hy⟩ := Option.isSome_iff_exists.mp hb
        exact hnone x y hx hy
      · rw [heq, List.map_cons, utf8_cons]
        rfl
  | case4 c s hother ih =>
      rw [length_cons, List.length_append]
      have hlen : (String.utf8EncodeChar (if c = '+' then ' ' else c)).length = (String.utf8EncodeChar c).length := length_plus c
      rw [hlen]
      refine ⟨Nat.add_le_add_left ih.1 _, fun h => ?_⟩
      obtain ⟨hun, heq⟩ := ih.2 (Nat.add_left_cancel h)
      refine ⟨unescaped_cons hun fun a b t hc hs => absurd hs (hother a b t hc), ?_⟩
      rw [heq, List.map_cons, utf8_cons]
      rfl

/-- A text without escapes reads as itself, but for its plus signs. -/
theorem decode_unescaped {s : List Char} (h : Unescaped s) : decode s = some (s.map plus_to_space) := by
  have hbytes : unescape s = utf8 (s.map plus_to_space) := by
    induction s with
    | nil => rfl
    | cons c s ih =>
        have hrest := ih (h.part (List.infix_cons (List.infix_refl s)))
        rw [List.map_cons, utf8_cons, ← hrest]
        by_cases hc : c = '%'
        · subst hc
          match s with
          | [] => rfl
          | [a] => rfl
          | a :: b :: s =>
              rw [unescape]
              have hnot := h a b
              cases ha : hex_val a with
              | none => rfl
              | some x =>
                  cases hb : hex_val b with
                  | none => rfl
                  | some y =>
                      exact absurd (List.prefix_append ['%', a, b] s).isInfix
                        (hnot (by rw [ha]; rfl) (by rw [hb]; rfl))
        · rw [unescape_cons hc]
  rw [decode, hbytes, of_utf8_utf8]

/-- What a text reads as is shorter, or the text has no escapes. -/
theorem decode_length {s t : List Char} (h : decode s = some t) :
    (utf8 t).length < (utf8 s).length ∨ Unescaped s ∧ t = s.map plus_to_space := by
  have hbytes := utf8_of_utf8 h
  obtain ⟨hle, heq⟩ := unescape_length s
  rw [← hbytes] at hle heq
  rcases Nat.lt_or_eq_of_le hle with hlt | hlen
  · exact Or.inl hlt
  · obtain ⟨hun, hplus⟩ := heq hlen
    exact Or.inr ⟨hun, utf8_injective hplus⟩

end Escapes

end AntaresBroker.QueryText
