import AntaresBroker.Context

namespace AntaresBroker.JsonLd.Context

open Text

def base (c : Context) : String := vocab_or_default c.vocab

def Named (c : Context) (iri : String) : Prop := ∃ t d, c.terms.get t = some d ∧ d.iri = iri

/-- `rest` is an unbound bare name that `v` completes to `iri`. -/
def ShortUnder (c : Context) (v iri rest : String) : Prop :=
  iri = v ++ rest ∧ rest ≠ "" ∧ ':' ∉ rest.toList ∧ c.terms.get rest = none

/-- One of the two bases shortens `iri`: the own one, or where that does not
even start it, the default one. -/
def Shortened (c : Context) (iri rest : String) : Prop :=
  c.ShortUnder c.base iri rest ∨ (∀ r, iri ≠ c.base ++ r) ∧ c.ShortUnder DEFAULT_VOCAB iri rest

/-- The term `a` may be used as a prefix, for the IRI `q`. -/
def Usable (c : Context) (a q : String) : Prop :=
  ∃ d, c.terms.get a = some d ∧ d.prefix_ok = true ∧ d.iri = q

/-- `t` is the first of the prefixes for the nonempty IRI `p`. -/
def Prefix (c : Context) (p t : String) : Prop :=
  c.Usable t p ∧ p ≠ "" ∧ ∀ t', c.Usable t' p → shorter t t'

/-- `t` is the prefix for `p`, the longest proper beginning of `iri` that has one. -/
def Longest (c : Context) (iri p t s : String) : Prop :=
  iri = p ++ s ∧ s ≠ "" ∧ c.Prefix p t ∧
    ∀ p' t' s', iri = p' ++ s' → s' ≠ "" → c.Prefix p' t' → len p' ≤ len p

/-- What expansion puts before `s` in a name `t:s` that uses no prefix. -/
def own_base (c : Context) (t s : String) : String :=
  if is_absolute_iri (t ++ ":" ++ s) then t ++ ":" else c.base ++ t ++ ":"

/-- No term has the name `t:s`, and the part of it before the first colon
completes the rest to `p ++ s`, whether `t` has a colon itself or not. -/
def Recovers (c : Context) (p t s : String) : Prop :=
  c.terms.get (t ++ ":" ++ s) = none ∧
    match split_once ':' t with
    | none => starts_with s "//" → p = c.own_base t s
    | some (a, u) =>
        if starts_with u "//" then p = c.own_base t s
        else (∀ q, c.Usable a q → p = q ++ u ++ ":") ∧ ((∀ q, ¬ c.Usable a q) → p = c.own_base t s)

/-- No term has the name `iri`, and its scheme is no prefix, unless `//` follows. -/
def Whole (c : Context) (iri : String) : Prop :=
  c.terms.get iri = none ∧
    ∀ a s q, iri = a ++ ":" ++ s → ':' ∉ a.toList → c.Usable a q → starts_with s "//"

/-- The IRIs whose short form expansion reads back. -/
def Reads (c : Context) (iri : String) : Prop :=
  c.Named iri ∨ (∃ rest, c.ShortUnder c.base iri rest) ∨
    (∀ rest, ¬ c.Shortened iri rest) ∧
      ((∃ p t s, c.Longest iri p t s ∧ c.Recovers p t s) ∨ (∀ p t s, ¬ c.Longest iri p t s) ∧ c.Whole iri)

theorem shorter_total (a b : String) (h : shorter a b = false) : shorter b a := by
  simp only [shorter, Bool.or_eq_false_iff, decide_eq_false_iff_not, not_lt, Bool.and_eq_false_iff,
    beq_eq_false_iff_ne, Bool.or_eq_true, decide_eq_true_eq, Bool.and_eq_true, beq_iff_eq] at h ⊢
  obtain ⟨hlen, hne | hgt⟩ := h
  · exact Or.inl (by omega)
  · rcases Nat.lt_or_ge (len b) (len a) with hlt | hge
    · exact Or.inl hlt
    · exact Or.inr ⟨by omega, le_of_lt (not_le.mp hgt)⟩

theorem shorter_iff {a b : String} : shorter a b = true ↔ len a < len b ∨ len a = len b ∧ a ≤ b := by
  simp [shorter]

theorem shorter_trans (a b c : String) (hab : shorter a b) (hbc : shorter b c) : shorter a c := by
  rw [shorter_iff] at *
  rcases hab with hab | ⟨hab, hle⟩
  · exact Or.inl (by omega)
  · rcases hbc with hbc | ⟨hbc, hle'⟩
    · exact Or.inl (by omega)
    · exact Or.inr ⟨by omega, hle.trans hle'⟩

theorem shorter_antisymm {a b : String} (hab : shorter a b) (hba : shorter b a) : a = b := by
  rw [shorter_iff] at *
  rcases hab with hab | ⟨hab, hle⟩ <;> rcases hba with hba | ⟨hba, hge⟩
  · omega
  · omega
  · omega
  · exact le_antisymm hle hge

/-- What the indexes of a frozen context hold. -/
structure Frozen (c : Context) : Prop where
  inverse_some : ∀ iri t, c.inverse.get iri = some t → ∃ d, c.terms.get t = some d ∧ d.iri = iri
  inverse_none : ∀ iri, c.inverse.get iri = none → ¬ c.Named iri
  prefixes_iff : ∀ p t, c.prefixes.get p = some t ↔ c.Prefix p t
  prefixes_none : ∀ p t, c.prefixes.get p = none → c.Usable t p → p = ""
  lens_iff : ∀ n, n ∈ c.prefix_lens ↔ ∃ p t, c.Prefix p t ∧ len p = n
  lens_sorted : c.prefix_lens.Pairwise (· > ·)

theorem mem_terms_by_iri {c : Context} {iri t : String} :
    (iri, t) ∈ c.terms_by_iri ↔ ∃ d, c.terms.get t = some d ∧ d.iri = iri := by
  rw [terms_by_iri, List.mem_map]
  constructor
  · rintro ⟨⟨t', d⟩, h, he⟩
    simp only [Prod.mk.injEq] at he
    obtain ⟨hd, rfl⟩ := he
    exact ⟨d, BTreeMap.mem_entries.mp h, hd⟩
  · rintro ⟨d, h, rfl⟩
    exact ⟨(t, d), BTreeMap.mem_entries.mpr h, rfl⟩

theorem mem_prefixes_by_iri {c : Context} {p t : String} :
    (p, t) ∈ c.prefixes_by_iri ↔ c.Usable t p ∧ p ≠ "" := by
  rw [prefixes_by_iri, List.mem_map]
  constructor
  · rintro ⟨⟨t', d⟩, h, he⟩
    simp only [Prod.mk.injEq] at he
    obtain ⟨rfl, rfl⟩ := he
    obtain ⟨h, hd⟩ := List.mem_filter.mp h
    simp only [Bool.and_eq_true, decide_eq_true_eq] at hd
    exact ⟨⟨d, BTreeMap.mem_entries.mp h, hd.1, rfl⟩, hd.2⟩
  · rintro ⟨⟨d, h, hok, rfl⟩, hp⟩
    exact ⟨(t, d), List.mem_filter.mpr ⟨BTreeMap.mem_entries.mpr h, by simp [hok, hp]⟩, rfl⟩

theorem mem_lens {l : List Nat} {n : Nat} : n ∈ (l.insertionSort (· ≤ ·)).dedup.reverse ↔ n ∈ l := by
  rw [List.mem_reverse, List.mem_dedup, List.mem_insertionSort]

theorem pairwise_lens (l : List Nat) : ((l.insertionSort (· ≤ ·)).dedup.reverse).Pairwise (· > ·) := by
  have hle := (List.pairwise_insertionSort (· ≤ ·) l).sublist (List.dedup_sublist (l.insertionSort (· ≤ ·)))
  have hne := List.nodup_dedup (l.insertionSort (· ≤ ·))
  rw [List.pairwise_reverse]
  exact (hle.and hne).imp (fun h => lt_of_le_of_ne h.1 h.2)

/-- Freezing builds both indexes from the terms. -/
theorem freeze_frozen (c : Context) : Frozen c.freeze := by
  have hinv := BTreeMap.least_holds shorter_total shorter_trans c.terms_by_iri
  have hpfx := BTreeMap.least_holds shorter_total shorter_trans c.prefixes_by_iri
  have hown (p t : String) :
      (BTreeMap.least shorter c.prefixes_by_iri).get p = some t ↔ c.Prefix p t := by
    have hp := hpfx p
    constructor
    · intro h
      rw [h] at hp
      obtain ⟨hu, hne⟩ := mem_prefixes_by_iri.mp hp.1
      exact ⟨hu, hne, fun t' ht' => hp.2 t' (mem_prefixes_by_iri.mpr ⟨ht', hne⟩)⟩
    · rintro ⟨hu, hne, hmin⟩
      have hmem := mem_prefixes_by_iri.mpr ⟨hu, hne⟩
      cases h : (BTreeMap.least shorter c.prefixes_by_iri).get p with
      | none =>
          rw [h] at hp
          exact absurd hmem (hp t)
      | some t' =>
          rw [h] at hp
          rw [shorter_antisymm (hp.2 t hmem) (hmin t' (mem_prefixes_by_iri.mp hp.1).1)]
  refine ⟨fun iri t h => ?_, fun iri h => ?_, hown, fun p t h hu => ?_, fun n => ?_,
    pairwise_lens _⟩
  · have hi := hinv iri
    rw [show (BTreeMap.least shorter c.terms_by_iri).get iri = some t from h] at hi
    exact mem_terms_by_iri.mp hi.1
  · have hi := hinv iri
    rw [show (BTreeMap.least shorter c.terms_by_iri).get iri = none from h] at hi
    rintro ⟨t, d, ht, hd⟩
    exact hi t (mem_terms_by_iri.mpr ⟨d, ht, hd⟩)
  · have hp := hpfx p
    rw [show (BTreeMap.least shorter c.prefixes_by_iri).get p = none from h] at hp
    by_contra hne
    exact hp t (mem_prefixes_by_iri.mpr ⟨hu, hne⟩)
  · rw [freeze, mem_lens, List.mem_map]
    constructor
    · rintro ⟨p, hp, rfl⟩
      obtain ⟨t, ht⟩ := Option.isSome_iff_exists.mp (BTreeMap.mem_keys.mp hp)
      exact ⟨p, t, (hown p t).mp ht, rfl⟩
    · rintro ⟨p, t, hp, rfl⟩
      exact ⟨p, BTreeMap.mem_keys.mpr (by simp [(hown p t).mpr hp]), rfl⟩

section Longest

variable {c : Context} (hc : Frozen c)
include hc

theorem compact_with_eq_some {iri k : String} {n : Nat} :
    c.compact_with iri n = some k ↔
      ∃ p t s, iri = p ++ s ∧ s ≠ "" ∧ c.Prefix p t ∧ len p = n ∧ k = t ++ ":" ++ s := by
  unfold compact_with
  constructor
  · intro h
    split_ifs at h with hn
    obtain ⟨⟨p, s⟩, hs, h⟩ := Option.bind_eq_some_iff.mp h
    obtain ⟨t, ht, rfl⟩ := Option.map_eq_some_iff.mp h
    obtain ⟨rfl, rfl⟩ := split_at_byte_eq_some.mp hs
    rw [len_append] at hn
    exact ⟨p, t, s, rfl, len_pos_iff.mp (by omega), (hc.prefixes_iff p t).mp ht, rfl, rfl⟩
  · rintro ⟨p, t, s, rfl, hs, hp, rfl, rfl⟩
    have hpos := len_pos_iff.mpr hs
    rw [len_append, if_neg (by omega), split_at_byte_eq_some.mpr ⟨rfl, rfl⟩, Option.bind_some,
      (hc.prefixes_iff p t).mpr hp, Option.map_some]

theorem find_longest {iri k : String} (h : c.prefix_lens.findSome? (c.compact_with iri) = some k) :
    ∃ p t s, c.Longest iri p t s ∧ k = t ++ ":" ++ s := by
  obtain ⟨before, n, after, hl, hn, hnone⟩ := List.findSome?_eq_some_iff.mp h
  obtain ⟨p, t, s, hi, hs, hp, rfl, rfl⟩ := (compact_with_eq_some hc).mp hn
  refine ⟨p, t, s, ⟨hi, hs, hp, fun p' t' s' hi' hs' hp' => ?_⟩, rfl⟩
  have hsome := (compact_with_eq_some hc).mpr ⟨p', t', s', hi', hs', hp', rfl, rfl⟩
  have hmem := (hc.lens_iff _).mpr ⟨p', t', hp', rfl⟩
  have hsorted := hc.lens_sorted
  rw [hl] at hmem hsorted
  -- a length probed before `n` finds nothing, one after it is smaller
  rcases List.mem_append.mp hmem with hmem | hmem
  · simp [hnone _ hmem] at hsome
  · rcases List.mem_cons.mp hmem with he | hmem
    · omega
    · have hgt := (List.pairwise_cons.mp (List.pairwise_append.mp hsorted).2.1).1 _ hmem
      omega

theorem find_longest_none {iri : String} (h : c.prefix_lens.findSome? (c.compact_with iri) = none)
    (p t s : String) : ¬ c.Longest iri p t s := by
  rintro ⟨hi, hs, hp, -⟩
  have hnone := List.findSome?_eq_none_iff.mp h _ ((hc.lens_iff _).mpr ⟨p, t, hp, rfl⟩)
  rw [(compact_with_eq_some hc).mpr ⟨p, t, s, hi, hs, hp, rfl, rfl⟩] at hnone
  simp at hnone

end Longest

theorem Longest.unique {c : Context} {iri p t s p' t' s' : String} (h : c.Longest iri p t s)
    (h' : c.Longest iri p' t' s') : p = p' ∧ t = t' ∧ s = s' := by
  obtain ⟨hi, hs, hp, hmax⟩ := h
  obtain ⟨hi', hs', hp', hmax'⟩ := h'
  have hlen : len p = len p' := le_antisymm (hmax' p t s hi hs hp) (hmax p' t' s' hi' hs' hp')
  have hsplit := (split_at_byte_eq_some.mpr ⟨hi, hlen⟩).symm.trans (split_at_byte_eq_some.mpr ⟨hi', rfl⟩)
  simp only [Option.some.injEq, Prod.mk.injEq] at hsplit
  obtain ⟨rfl, rfl⟩ := hsplit
  exact ⟨rfl, shorter_antisymm (hp.2.2 t' hp'.1) (hp'.2.2 t hp.1), rfl⟩

theorem bare_of_unnamed {c : Context} {iri rest : String} (hn : ¬ c.Named iri) :
    (c.terms.get rest).all (fun d => d.iri == iri) = true ↔ c.terms.get rest = none := by
  cases h : c.terms.get rest with
  | none => simp
  | some d => simpa using fun he => hn ⟨rest, d, h, he⟩

theorem shorten_eq_some {c : Context} {iri rest : String} (hn : ¬ c.Named iri) :
    c.shorten iri = some rest ↔ c.Shortened iri rest := by
  have hbare := @bare_of_unnamed c iri
  rw [shorten, Shortened, List.findSome?_cons, List.findSome?_cons, List.findSome?_nil, ← base]
  cases hb : strip_prefix iri c.base with
  | some r =>
      rw [strip_prefix_eq_some] at hb
      subst hb
      simp only [Option.ite_none_right_eq_some, Bool.and_eq_true, decide_eq_true_eq, Bool.not_eq_true',
        List.contains_eq_mem, decide_eq_false_iff_not, hbare hn, Option.some.injEq]
      constructor
      · rintro ⟨⟨⟨hne, hcolon⟩, hnone⟩, rfl⟩
        exact Or.inl ⟨rfl, hne, hcolon, hnone⟩
      · rintro (⟨he, hne, hcolon, hnone⟩ | ⟨hno, -⟩)
        · rw [String.append_right_inj] at he
          subst he
          exact ⟨⟨⟨hne, hcolon⟩, hnone⟩, rfl⟩
        · exact absurd rfl (hno r)
  | none =>
      rw [strip_prefix_eq_none] at hb
      cases hd : strip_prefix iri DEFAULT_VOCAB with
      | none =>
          rw [strip_prefix_eq_none] at hd
          simp only [reduceCtorEq, false_iff, not_or, not_and]
          exact ⟨fun h => hb rest h.1, fun _ h => hd rest h.1⟩
      | some r =>
          rw [strip_prefix_eq_some] at hd
          simp only [Option.ite_none_right_eq_some, Bool.and_eq_true, decide_eq_true_eq, Bool.not_eq_true',
            List.contains_eq_mem, decide_eq_false_iff_not, hbare hn, Option.some.injEq]
          constructor
          · rintro ⟨⟨⟨hne, hcolon⟩, hnone⟩, rfl⟩
            exact Or.inr ⟨hb, hd, hne, hcolon, hnone⟩
          · rintro (h | ⟨-, he, hne, hcolon, hnone⟩)
            · exact absurd h.1 (hb rest)
            · rw [hd, String.append_right_inj] at he
              subst he
              exact ⟨⟨⟨hne, hcolon⟩, hnone⟩, rfl⟩

theorem Usable.unique {c : Context} {a q q' : String} (h : c.Usable a q) (h' : c.Usable a q') : q = q' := by
  obtain ⟨d, hd, -, rfl⟩ := h
  obtain ⟨d', hd', -, rfl⟩ := h'
  rw [hd] at hd'
  injection hd' with hd'
  rw [hd']

theorem prefixed_eq_some {c : Context} {key q suffix : String} :
    c.prefixed key = some (q, suffix) ↔
      ∃ a, split_once ':' key = some (a, suffix) ∧ starts_with suffix "//" = false ∧ c.Usable a q := by
  unfold prefixed Usable
  cases h : split_once ':' key with
  | none => simp
  | some p =>
      obtain ⟨a, b⟩ := p
      by_cases hs : starts_with b "//" = true
      · simp only [if_pos hs, reduceCtorEq, false_iff, not_exists, not_and, Option.some.injEq, Prod.mk.injEq]
        rintro a' ⟨-, rfl⟩ hf
        simp [hs] at hf
      · simp only [if_neg hs]
        cases hg : c.terms.get a with
        | none => simp +contextual [hg]
        | some d =>
            simp only [Option.ite_none_right_eq_some, Option.some.injEq, Prod.mk.injEq]
            constructor
            · rintro ⟨hok, rfl, rfl⟩
              exact ⟨a, ⟨rfl, rfl⟩, by simpa using hs, d, hg, hok, rfl⟩
            · rintro ⟨a', ⟨rfl, rfl⟩, -, d', hd', hok, rfl⟩
              rw [hg] at hd'
              injection hd' with hd'
              exact ⟨hd' ▸ hok, by rw [hd'], rfl⟩

theorem expand_key_term {c : Context} {key : String} {d : TermDef} (h : c.terms.get key = some d) :
    c.expand_key key = d.iri := by
  rw [expand_key, h]

theorem expand_key_prefixed {c : Context} {key q suffix : String} (h : c.terms.get key = none)
    (hp : c.prefixed key = some (q, suffix)) : c.expand_key key = q ++ suffix := by
  rw [expand_key, h, hp]

theorem expand_key_own {c : Context} {key : String} (h : c.terms.get key = none)
    (hp : c.prefixed key = none) :
    c.expand_key key = if is_absolute_iri key then key else c.base ++ key := by
  rw [expand_key, h, hp, base]

/-- A name without a colon is completed by the context's own base. -/
theorem expand_key_bare {c : Context} {key : String} (h : c.terms.get key = none)
    (hcolon : ':' ∉ key.toList) : c.expand_key key = c.base ++ key := by
  have hsplit := split_once_eq_none.mpr hcolon
  have habs : is_absolute_iri key = false := by rw [is_absolute_iri, hsplit]
  rw [expand_key_own h (by rw [prefixed, hsplit]), habs, if_neg Bool.false_ne_true]

theorem own_base_append (c : Context) (t s : String) :
    c.own_base t s ++ s =
      if is_absolute_iri (t ++ ":" ++ s) then t ++ ":" ++ s else c.base ++ (t ++ ":" ++ s) := by
  rw [own_base]
  split_ifs
  · rfl
  · simp only [String.append_assoc]

theorem starts_with_slashes {u s : String} : starts_with (u ++ ":" ++ s) "//" = starts_with u "//" := by
  simp only [starts_with, String.toList_append]
  cases u.toList with
  | nil => rfl
  | cons c l => cases l <;> simp [List.isPrefixOf]

theorem split_once_name {t s : String} (h : ':' ∉ t.toList) : split_once ':' (t ++ ":" ++ s) = some (t, s) :=
  split_once_eq_some.mpr ⟨by simp, h⟩

theorem split_once_nested {t s a u : String} (h : split_once ':' t = some (a, u)) :
    split_once ':' (t ++ ":" ++ s) = some (a, u ++ ":" ++ s) := by
  obtain ⟨he, ha⟩ := split_once_eq_some.mp h
  exact split_once_eq_some.mpr ⟨by simp [he], ha⟩

/-- The name `t:s` reads back exactly when nothing captures it on the way. -/
theorem expand_key_prefix_name {c : Context} {p t s : String} (hn : ¬ c.Named (p ++ s)) (hu : c.Usable t p) :
    c.expand_key (t ++ ":" ++ s) = p ++ s ↔ c.Recovers p t s := by
  rw [Recovers]
  cases hg : c.terms.get (t ++ ":" ++ s) with
  | some d =>
      rw [expand_key_term hg]
      simpa using fun he => hn ⟨_, d, hg, he⟩
  | none =>
      have hown : c.prefixed (t ++ ":" ++ s) = none →
          (c.expand_key (t ++ ":" ++ s) = p ++ s ↔ p = c.own_base t s) := fun h => by
        rw [expand_key_own hg h, ← own_base_append, String.append_left_inj, eq_comm]
      simp only [true_and]
      cases ht : split_once ':' t with
      | none =>
          have hname := split_once_name (s := s) (split_once_eq_none.mp ht)
          by_cases hs : starts_with s "//" = true
          · simp only [hs, true_implies]
            exact hown (by rw [prefixed, hname]; simp [hs])
          · rw [expand_key_prefixed hg (prefixed_eq_some.mpr ⟨t, hname, by simpa using hs, hu⟩)]
            simp [hs]
      | some q =>
          obtain ⟨a, u⟩ := q
          have hname := split_once_nested (s := s) ht
          have hslash := starts_with_slashes (u := u) (s := s)
          by_cases hs : starts_with u "//" = true
          · simp only [hs, if_true]
            exact hown (by rw [prefixed, hname]; simp [hslash, hs])
          · simp only [if_neg hs]
            by_cases ha : ∃ q, c.Usable a q
            · obtain ⟨q, hq⟩ := ha
              have hp := prefixed_eq_some.mpr ⟨a, hname, by rw [hslash]; simpa using hs, hq⟩
              rw [expand_key_prefixed hg hp, ← String.append_assoc, String.append_left_inj, ← String.append_assoc]
              constructor
              · intro h
                exact ⟨fun q' hq' => by rw [← h, hq.unique hq'], fun hno => absurd hq (hno q)⟩
              · intro h
                exact (h.1 q hq).symm
            · have hnone : c.prefixed (t ++ ":" ++ s) = none := by
                rw [Option.eq_none_iff_forall_ne_some]
                rintro ⟨q, rest⟩ hp
                obtain ⟨a', hsplit, -, hq⟩ := prefixed_eq_some.mp hp
                rw [hname] at hsplit
                simp only [Option.some.injEq, Prod.mk.injEq] at hsplit
                exact ha ⟨q, hsplit.1 ▸ hq⟩
              rw [hown hnone]
              push Not at ha
              exact ⟨fun h => ⟨fun q hq => absurd hq (ha q), fun _ => h⟩, fun h => h.2 ha⟩

theorem is_absolute_iri_suffix {a s : String} (h : is_absolute_iri (a ++ ":" ++ s)) (ha : ':' ∉ a.toList) : s ≠ "" := by
  rw [is_absolute_iri, split_once_name ha] at h
  simp only [Bool.and_eq_true, decide_eq_true_eq] at h
  exact h.1.1

/-- The prefixes that start `iri` properly have a longest one. -/
theorem exists_longest {c : Context} (hc : Frozen c) {iri p t s : String} (hi : iri = p ++ s) (hs : s ≠ "")
    (hp : c.Prefix p t) : ∃ p t s, c.Longest iri p t s := by
  cases h : c.prefix_lens.findSome? (c.compact_with iri) with
  | none =>
      have hnone := List.findSome?_eq_none_iff.mp h _ ((hc.lens_iff _).mpr ⟨p, t, hp, rfl⟩)
      rw [(compact_with_eq_some hc).mpr ⟨p, t, s, hi, hs, hp, rfl, rfl⟩] at hnone
      simp at hnone
  | some k =>
      obtain ⟨p, t, s, hl, -⟩ := find_longest hc h
      exact ⟨p, t, s, hl⟩

theorem expand_key_whole {c : Context} (hc : Frozen c) {iri : String} (habs : is_absolute_iri iri)
    (hn : ¬ c.Named iri) (hl : ∀ p t s, ¬ c.Longest iri p t s) : c.expand_key iri = iri ↔ c.Whole iri := by
  rw [Whole]
  cases hg : c.terms.get iri with
  | some d =>
      rw [expand_key_term hg]
      simpa using fun he => hn ⟨_, d, hg, he⟩
  | none =>
      simp only [true_and]
      cases hp : c.prefixed iri with
      | none =>
          rw [expand_key_own hg hp, if_pos habs]
          refine iff_of_true rfl (fun a s q hi ha hq => ?_)
          by_contra hs
          rw [prefixed_eq_some.mpr ⟨a, hi ▸ split_once_name ha, by simpa using hs, hq⟩] at hp
          simp at hp
      | some p =>
          obtain ⟨q, s⟩ := p
          obtain ⟨a, hsplit, hs, hq⟩ := prefixed_eq_some.mp hp
          obtain ⟨hi, ha⟩ := split_once_eq_some.mp hsplit
          replace hi : iri = a ++ ":" ++ s := String.toList_inj.mp (by simp [hi])
          rw [expand_key_prefixed hg hp]
          refine iff_of_false (fun he => ?_) (fun h => by simp [h a s q hi ha hq] at hs)
          -- a prefix that reads back starts the IRI itself, so it would have been used
          have hne : s ≠ "" := is_absolute_iri_suffix (hi ▸ habs) ha
          have hq0 : q ≠ "" := by
            rintro rfl
            have hlen := congrArg len (he.trans hi)
            have hcolon : 0 < len ":" := by decide
            simp only [len_append] at hlen
            have : len "" = 0 := rfl
            omega
          cases hget : c.prefixes.get q with
          | none => exact hq0 (hc.prefixes_none q a hget hq)
          | some t =>
              obtain ⟨p', t', s', hlong⟩ := exists_longest hc he.symm hne ((hc.prefixes_iff q t).mp hget)
              exact hl p' t' s' hlong

theorem compact_iri_named {c : Context} (hc : Frozen c) {iri : String} (h : c.Named iri) :
    c.expand_key (c.compact_iri iri) = iri := by
  rw [compact_iri]
  cases hi : c.inverse.get iri with
  | none => exact absurd h (hc.inverse_none iri hi)
  | some t =>
      obtain ⟨d, ht, hd⟩ := hc.inverse_some iri t hi
      exact (expand_key_term ht).trans hd

theorem compact_iri_unnamed {c : Context} (hc : Frozen c) {iri : String} (h : ¬ c.Named iri) :
    c.compact_iri iri =
      (c.shorten iri).getD ((c.prefix_lens.findSome? (c.compact_with iri)).getD iri) := by
  rw [compact_iri]
  cases hi : c.inverse.get iri with
  | none => cases c.shorten iri <;> rfl
  | some t =>
      obtain ⟨d, ht, hd⟩ := hc.inverse_some iri t hi
      exact absurd ⟨t, d, ht, hd⟩ h

/-- Of the two bases only the context's own one gives a name that reads back. -/
theorem expand_key_shortened {c : Context} {iri rest : String} (h : c.Shortened iri rest) :
    c.expand_key rest = iri ↔ c.ShortUnder c.base iri rest := by
  rcases h with h | ⟨hno, -, -, hcolon, hnone⟩
  · exact iff_of_true ((expand_key_bare h.2.2.2 h.2.2.1).trans h.1.symm) h
  · exact iff_of_false (fun he => hno rest (he.symm.trans (expand_key_bare hnone hcolon))) (fun h => hno rest h.1)

theorem Shortened.own {c : Context} {iri rest rest' : String} (h : c.Shortened iri rest)
    (h' : c.ShortUnder c.base iri rest') : rest = rest' := by
  rcases h with h | ⟨hno, -⟩
  · exact (String.append_right_inj _).mp (h.1.symm.trans h'.1)
  · exact absurd h'.1 (hno rest')

theorem expand_key_compact_iri_iff {c : Context} (hc : Frozen c) {iri : String} (habs : is_absolute_iri iri) :
    c.expand_key (c.compact_iri iri) = iri ↔ c.Reads iri := by
  rw [Reads]
  by_cases hn : c.Named iri
  · exact iff_of_true (compact_iri_named hc hn) (Or.inl hn)
  rw [compact_iri_unnamed hc hn]
  simp only [hn, false_or]
  cases hs : c.shorten iri with
  | some rest =>
      have hsh := (shorten_eq_some hn).mp hs
      rw [Option.getD_some, expand_key_shortened hsh]
      constructor
      · intro h
        exact Or.inl ⟨rest, h⟩
      · rintro (⟨rest', h⟩ | ⟨hno, -⟩)
        · exact hsh.own h ▸ h
        · exact absurd hsh (hno rest)
  | none =>
      have hno (rest : String) : ¬ c.Shortened iri rest := by
        rw [← shorten_eq_some hn, hs]
        simp
      have hown : ¬ ∃ rest, c.ShortUnder c.base iri rest := fun ⟨rest, h⟩ => hno rest (Or.inl h)
      simp only [Option.getD_none, hown, false_or, hno, not_false_eq_true, implies_true, true_and]
      cases hl : c.prefix_lens.findSome? (c.compact_with iri) with
      | some k =>
          obtain ⟨p, t, s, hlong, rfl⟩ := find_longest hc hl
          obtain ⟨rfl, -, hp, -⟩ := id hlong
          rw [Option.getD_some, expand_key_prefix_name hn hp.1]
          constructor
          · intro h
            exact Or.inl ⟨p, t, s, hlong, h⟩
          · rintro (⟨p', t', s', hlong', h⟩ | ⟨h, -⟩)
            · obtain ⟨rfl, rfl, rfl⟩ := hlong.unique hlong'
              exact h
            · exact absurd hlong (h p t s)
      | none =>
          have hnone := find_longest_none hc hl
          rw [Option.getD_none, expand_key_whole hc habs hn hnone]
          constructor
          · intro h
            exact Or.inr ⟨hnone, h⟩
          · rintro (⟨p, t, s, h, -⟩ | ⟨-, h⟩)
            · exact absurd h (hnone p t s)
            · exact h

/-- Expansion undoes the compaction of an absolute IRI exactly for the IRIs of
`Reads`, and no two of these compact to one key. -/
theorem compaction_round_trip (objs : List (Json.Map × Bool)) (c : Context) (hb : build objs = .ok c) :
    (∀ iri, is_absolute_iri iri → (c.expand_key (c.compact_iri iri) = iri ↔ c.Reads iri)) ∧
      ∀ iri iri', is_absolute_iri iri → is_absolute_iri iri' → c.Reads iri → c.Reads iri' →
        c.compact_iri iri = c.compact_iri iri' → iri = iri' := by
  have hc : Frozen c := by
    rw [build] at hb
    cases hm : merge_all objs with
    | error e => simp [hm, Except.map] at hb
    | ok c₀ =>
        rw [hm] at hb
        injection hb with hb
        exact hb ▸ freeze_frozen c₀
  refine ⟨fun iri habs => expand_key_compact_iri_iff hc habs, fun iri iri' habs habs' hr hr' he => ?_⟩
  rw [← (expand_key_compact_iri_iff hc habs).mpr hr, he, (expand_key_compact_iri_iff hc habs').mpr hr']

theorem compaction_round_trip_prefixed :
    ∃ c, build [([("ex", .string "https://ex.org/")], true)] = .ok c ∧
      is_absolute_iri "https://ex.org/a" = true ∧ is_absolute_iri "https://ex.org/b" = true ∧
      c.Reads "https://ex.org/a" ∧ c.Reads "https://ex.org/b" ∧ c.compact_iri "https://ex.org/a" = "ex:a" ∧
      (c.compact_iri "https://ex.org/a" = c.compact_iri "https://ex.org/b" →
        "https://ex.org/a" = "https://ex.org/b") := by
  have h := compaction_round_trip [([("ex", .string "https://ex.org/")], true)] _ rfl
  have ha := (h.1 "https://ex.org/a" (by decide)).mp (by decide)
  have hb := (h.1 "https://ex.org/b" (by decide)).mp (by decide)
  exact ⟨_, rfl, by decide, by decide, ha, hb, by decide,
    h.2 _ _ (by decide) (by decide) ha hb⟩

/-- A term named like the compact form of another IRI captures it. -/
theorem compaction_captured :
    ∃ c, build [([("ex", .string "https://ex.org/"), ("ex:speed", .string "https://other.org/v")], true)] = .ok c ∧
      is_absolute_iri "https://ex.org/speed" = true ∧ is_absolute_iri "https://other.org/v" = true ∧
      c.expand_key (c.compact_iri "https://ex.org/speed") ≠ "https://ex.org/speed" ∧
      c.compact_iri "https://ex.org/speed" = c.compact_iri "https://other.org/v" :=
  ⟨_, rfl, by decide⟩

end AntaresBroker.JsonLd.Context
