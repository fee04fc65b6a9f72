import AntaresBroker.Crawl

namespace AntaresBroker.JsonLd

open Json Text Fallible

namespace Context

/-- A context that a document's definitions are about to be added to. -/
def prepared (c : Context) (obj : Map) : Context :=
  obj.foldl seed (match (obj.lookup "@vocab").bind Value.as_str with
    | some v => { c with vocab := v }
    | none => c)

/-- The IRI a definition is charged for. -/
def charged_iri (c : Context) (p : String × Value) : String :=
  match p.2 with
  | .string s => c.expand_iri_for_def s
  | .object o => (c.definition_id p.1 o).getD ""
  | _ => ""

/-- The definitions of a Core document up to the first that is refused. -/
def merge_until : Map → Context → Context
  | [], c => c
  | p :: obj, c =>
      match define_term false c p with
      | .ok c => merge_until obj c
      | .error _ => { c with bytes := c.bytes + len (c.charged_iri p) }

end Context

open Context

mutual
/-- The merge of a Core document, whose errors are dropped. -/
def merge_context_value (c : Context) : Value → Context
  | .object o => merge_until o (c.prepared o)
  | .array items => merge_context_values c items
  | _ => c

def merge_context_values (c : Context) : List Value → Context
  | [] => c
  | item :: items => merge_context_values (merge_context_value c item) items
end

/-- The context of a request: the user's, and the Core context last. -/
def completed (core : Value) (ctx : Context) : Context := (merge_context_value ctx core).freeze

section Settling

/-- The name whose expansion a definition object takes. -/
def object_reads (t : String) (o : Map) : Option String :=
  match (o.lookup "@id").bind Value.as_str with
  | some id => some id
  | none => if (o.lookup "@container").isSome || (o.lookup "@type").isSome then some t else none

def object_iri (t : String) (o : Map) (iri vocab : String) : String :=
  if ((o.lookup "@id").bind Value.as_str).isSome || is_absolute_iri iri then iri else vocab_or_default vocab ++ t

theorem definition_id_eq (c : Context) (t : String) (o : Map) : c.definition_id t o =
    (object_reads t o).map (fun s => object_iri t o (c.expand_iri_for_def s) c.vocab) := by
  rw [definition_id, object_reads]
  unfold object_iri
  cases hid : (o.lookup "@id").bind Value.as_str with
  | some id => rfl
  | none =>
      dsimp only [Option.isSome_none, Bool.false_or]
      split_ifs with hmem habs
      · simp [habs]
      · simp [habs]
      · rfl

def reads (p : String × Value) : Option String :=
  match p.2 with
  | .string s => some s
  | .object o => object_reads p.1 o
  | _ => none

/-- What a definition makes of the expansion. -/
def made (p : String × Value) (iri vocab : String) : TermDef :=
  match p.2 with
  | .object o =>
      { iri := object_iri p.1 o iri vocab
        type_is_id := member_str o "@type" = "@id"
        type_is_vocab := member_str o "@type" = "@vocab"
        container_list := member_str o "@container" = "@list"
        prefix_ok := ((o.lookup "@prefix").bind Value.as_bool).getD false }
  | _ => .simple iri

def is_null_def (v : Value) : Bool :=
  match v with
  | .null => true
  | _ => false

/-- The terms after a definition. -/
def redefined (c : Context) (p : String × Value) : BTreeMap String TermDef :=
  if starts_with p.1 "@" then c.terms
  else if is_null_def p.2 then c.terms.remove p.1
  else match reads p with
    | some s => c.terms.insert p.1 (made p (c.expand_iri_for_def s) c.vocab)
    | none => c.terms

theorem charge_ok {c c' : Context} {iri : String} (h : c.charge iri = .ok c') :
    c'.terms = c.terms ∧ c'.vocab = c.vocab := by
  rw [charge] at h
  split_ifs at h
  cases h
  exact ⟨rfl, rfl⟩

/-- All that a definition of a Core document does. -/
theorem define_term_ok {c c' : Context} {p : String × Value} (h : define_term false c p = .ok c') :
    c'.terms = redefined c p ∧ c'.vocab = c.vocab := by
  obtain ⟨t, v⟩ := p
  rw [define_term] at h
  rw [redefined]
  by_cases hat : starts_with t "@" = true
  · rw [if_pos hat] at h
    cases h
    exact ⟨(if_pos hat).symm, rfl⟩
  rw [if_neg hat] at h ⊢
  cases v with
  | string s =>
      obtain ⟨c₁, hc, rfl⟩ := map_eq_ok.mp h
      obtain ⟨hterms, hvocab⟩ := charge_ok hc
      refine ⟨?_, hvocab⟩
      rw [Context.insert, hterms]
      rfl
  | object o =>
      dsimp only at h
      rw [Bool.false_and, if_neg Bool.false_ne_true, definition_id_eq] at h
      have hreads : reads (t, .object o) = object_reads t o := rfl
      rw [hreads]
      cases hname : object_reads t o with
      | none =>
          rw [hname] at h
          cases h
          exact ⟨rfl, rfl⟩
      | some s =>
          rw [hname] at h
          obtain ⟨c₁, hc, rfl⟩ := map_eq_ok.mp h
          obtain ⟨hterms, hvocab⟩ := charge_ok hc
          refine ⟨?_, hvocab⟩
          rw [Context.insert, hterms]
          rfl
  | null =>
      cases h
      exact ⟨rfl, rfl⟩
  | bool b =>
      cases h
      exact ⟨rfl, rfl⟩
  | number n =>
      cases h
      exact ⟨rfl, rfl⟩
  | array items =>
      cases h
      exact ⟨rfl, rfl⟩

/-- The contexts have one vocabulary and give some terms the same meaning. -/
structure Agree (known : List String) (c₁ c₂ : Context) : Prop where
  vocab : c₁.vocab = c₂.vocab
  terms : ∀ t ∈ known, c₁.terms.get t = c₂.terms.get t

/-- A name that expands to one IRI in all contexts that agree on the known terms. -/
def fixed (known : List String) (s : String) : Bool :=
  starts_with s "@" ||
    match split_once ':' s with
    | some (before, suffix) =>
        (starts_with suffix "//" || decide (before ∈ known)) && (is_absolute_iri s || decide (s ∈ known))
    | none => decide (s ∈ known)

theorem expand_fixed {known : List String} {c₁ c₂ : Context} (h : Agree known c₁ c₂) {s : String}
    (hs : fixed known s = true) : c₁.expand_iri_for_def s = c₂.expand_iri_for_def s := by
  rw [expand_iri_for_def, expand_iri_for_def]
  by_cases hat : starts_with s "@" = true
  · rw [if_pos hat, if_pos hat]
  rw [if_neg hat, if_neg hat]
  rw [Bool.not_eq_true] at hat
  rw [fixed, hat, Bool.false_or] at hs
  have hprefixed : c₁.prefixed s = c₂.prefixed s := by
    rw [prefixed, prefixed]
    cases hsplit : split_once ':' s with
    | none => rfl
    | some p =>
        rw [hsplit, Bool.and_eq_true, Bool.or_eq_true] at hs
        obtain ⟨before, suffix⟩ := p
        dsimp only at hs ⊢
        rcases hs.1 with hslash | hknown
        · rw [if_pos hslash, if_pos hslash]
        · rw [h.terms before (of_decide_eq_true hknown)]
  rw [hprefixed]
  cases c₂.prefixed s with
  | some q => rfl
  | none =>
      dsimp only
      by_cases habs : is_absolute_iri s = true
      · rw [if_pos habs, if_pos habs]
      rw [if_neg habs, if_neg habs]
      have hknown : s ∈ known := by
        cases hsplit : split_once ':' s with
        | none =>
            rw [hsplit] at hs
            exact of_decide_eq_true hs
        | some p =>
            rw [Bool.not_eq_true] at habs
            rw [hsplit, habs, Bool.false_or, Bool.and_eq_true] at hs
            exact of_decide_eq_true hs.2
      rw [h.terms s hknown, h.vocab]

/-- The terms known after a definition. -/
def settle (known : List String) (p : String × Value) : List String :=
  if starts_with p.1 "@" then known
  else if is_null_def p.2 then p.1 :: known
  else match reads p with
    | some s => if fixed known s then p.1 :: known else known.filter (fun t => decide (t ≠ p.1))
    | none => known

def seed_known (known : List String) (p : String × Value) : List String :=
  if starts_with p.1 "@" then known
  else if p.2.as_str.any is_absolute_iri then p.1 :: known
  else known

/-- The terms whose meaning a Core document settles. -/
def settled (obj : Map) : List String := obj.foldl settle (obj.foldl seed_known [])

theorem Agree.redefined {known : List String} {c₁ c₂ c₁' c₂' : Context} (h : Agree known c₁ c₂) {p : String × Value}
    (h₁ : define_term false c₁ p = .ok c₁') (h₂ : define_term false c₂ p = .ok c₂') : Agree (settle known p) c₁' c₂' := by
  obtain ⟨hterms₁, hvocab₁⟩ := define_term_ok h₁
  obtain ⟨hterms₂, hvocab₂⟩ := define_term_ok h₂
  refine ⟨hvocab₁.trans (h.vocab.trans hvocab₂.symm), ?_⟩
  rw [hterms₁, hterms₂, settle, JsonLd.redefined, JsonLd.redefined]
  by_cases hat : starts_with p.1 "@" = true
  · rw [if_pos hat, if_pos hat, if_pos hat]
    exact h.terms
  rw [if_neg hat, if_neg hat, if_neg hat]
  by_cases hnull : is_null_def p.2 = true
  · rw [if_pos hnull, if_pos hnull, if_pos hnull]
    intro t ht
    rw [BTreeMap.get_remove, BTreeMap.get_remove]
    split_ifs with heq
    · rfl
    · exact h.terms t ((List.mem_cons.mp ht).resolve_left heq)
  rw [if_neg hnull, if_neg hnull, if_neg hnull]
  cases reads p with
  | none => exact h.terms
  | some s =>
      dsimp only
      intro t ht
      rw [BTreeMap.get_insert, BTreeMap.get_insert]
      by_cases hs : fixed known s = true
      · rw [if_pos hs] at ht
        split_ifs with heq
        · rw [expand_fixed h hs, h.vocab]
        · exact h.terms t ((List.mem_cons.mp ht).resolve_left heq)
      · rw [if_neg hs] at ht
        obtain ⟨hmem, hne⟩ := List.mem_filter.mp ht
        rw [if_neg (of_decide_eq_true hne), if_neg (of_decide_eq_true hne)]
        exact h.terms t hmem

theorem Agree.run {known : List String} {c₁ c₂ c₁' c₂' : Context} (h : Agree known c₁ c₂) {obj : Map}
    (h₁ : obj.foldlM (define_term false) c₁ = .ok c₁') (h₂ : obj.foldlM (define_term false) c₂ = .ok c₂') :
    Agree (obj.foldl settle known) c₁' c₂' := by
  induction obj generalizing known c₁ c₂ with
  | nil =>
      cases h₁
      cases h₂
      exact h
  | cons p obj ih =>
      rw [List.foldlM_cons] at h₁ h₂
      obtain ⟨d₁, hd₁, h₁⟩ := bind_eq_ok.mp h₁
      obtain ⟨d₂, hd₂, h₂⟩ := bind_eq_ok.mp h₂
      exact ih (h.redefined hd₁ hd₂) h₁ h₂

theorem Agree.seed {known : List String} {c₁ c₂ : Context} (h : Agree known c₁ c₂) (p : String × Value) :
    Agree (seed_known known p) (c₁.seed p) (c₂.seed p) := by
  rw [seed_known, Context.seed, Context.seed]
  split_ifs with hat hstr
  · exact h
  · cases hs : p.2.as_str with
    | none =>
        rw [hs] at hstr
        cases hstr
    | some s =>
        rw [hs, Option.any_some] at hstr
        dsimp only
        rw [if_pos hstr, if_pos hstr]
        refine ⟨h.vocab, fun t ht => ?_⟩
        rw [Context.insert, Context.insert, BTreeMap.get_insert, BTreeMap.get_insert]
        split_ifs with heq
        · rfl
        · exact h.terms t ((List.mem_cons.mp ht).resolve_left heq)
  · cases hs : p.2.as_str with
    | none => exact h
    | some s =>
        rw [hs, Option.any_some] at hstr
        dsimp only
        rw [if_neg hstr, if_neg hstr]
        exact h

theorem Agree.seeds {known : List String} {c₁ c₂ : Context} (h : Agree known c₁ c₂) (obj : Map) :
    Agree (obj.foldl seed_known known) (obj.foldl Context.seed c₁) (obj.foldl Context.seed c₂) := by
  induction obj generalizing known c₁ c₂ with
  | nil => exact h
  | cons p obj ih => exact ih (h.seed p)

/-- Two contexts agree on what a document settles that names its vocabulary. -/
theorem agree_merged {obj : Map} {v : String} (hv : (obj.lookup "@vocab").bind Value.as_str = some v)
    {c₁ c₂ c₁' c₂' : Context} (h₁ : c₁.merge_core_object obj = .ok c₁') (h₂ : c₂.merge_core_object obj = .ok c₂') :
    Agree (settled obj) c₁' c₂' := by
  apply Agree.run _ h₁ h₂
  rw [hv]
  apply Agree.seeds
  exact ⟨rfl, fun t ht => by cases ht⟩

theorem merge_until_ok {obj : Map} {c c' : Context} (h : obj.foldlM (define_term false) c = .ok c') :
    merge_until obj c = c' := by
  induction obj generalizing c with
  | nil =>
      cases h
      rfl
  | cons p obj ih =>
      rw [List.foldlM_cons] at h
      obtain ⟨d, hd, h⟩ := bind_eq_ok.mp h
      rw [merge_until, hd]
      exact ih h

theorem merge_context_value_ok {obj : Map} {c c' : Context} (h : c.merge_core_object obj = .ok c') :
    merge_context_value c (.object obj) = c' := by
  rw [merge_context_value]
  exact merge_until_ok h

theorem merges {obj : Map} {c : Context} (h : (c.merge_core_object obj).toOption.isSome = true) :
    c.merge_core_object obj = .ok (merge_context_value c (.object obj)) := by
  cases hm : c.merge_core_object obj with
  | error e =>
      rw [hm] at h
      cases h
  | ok c' => rw [merge_context_value_ok hm]

/-- Whatever a user `@context` defines, a term that the Core context settles has
the Core meaning, as long as all of the Core context is merged. -/
theorem core_terms_win {core : Map} {v : String} (hv : (core.lookup "@vocab").bind Value.as_str = some v) {alone : Context}
    (halone : Context.default.merge_core_object core = .ok alone) {user merged : Context}
    (hroom : user.merge_core_object core = .ok merged) {t : String} (ht : t ∈ settled core) :
    (completed (.object core) user).terms.get t = alone.terms.get t := by
  rw [completed, merge_context_value_ok hroom]
  exact (agree_merged hv hroom halone).terms t ht

end Settling

section Unsettled

variable {c c' : Context} {t : String}

/-- The first pass gives the term a meaning of its own. -/
def Seeded (core : Map) (t : String) : Prop := ∃ p ∈ core, p.1 = t ∧ p.2.as_str.any is_absolute_iri = true

theorem seed_keeps {p : String × Value} (h : ¬ (p.1 = t ∧ p.2.as_str.any is_absolute_iri = true)) :
    (c.seed p).terms.get t = c.terms.get t := by
  rw [Context.seed]
  split_ifs with hat
  · rfl
  · cases hs : p.2.as_str with
    | none => rfl
    | some s =>
        dsimp only
        split_ifs with habs
        · rw [hs, Option.any_some] at h
          rw [Context.insert, BTreeMap.get_insert, if_neg]
          intro heq
          exact h ⟨heq.symm, habs⟩
        · rfl

theorem prepared_keeps {core : Map} (h : ¬ Seeded core t) : (c.prepared core).terms.get t = c.terms.get t := by
  have hseeds (obj : Map) (hobj : ∀ p ∈ obj, p ∈ core) (c : Context) :
      (obj.foldl Context.seed c).terms.get t = c.terms.get t := by
    induction obj generalizing c with
    | nil => rfl
    | cons p obj ih =>
        rw [List.forall_mem_cons] at hobj
        rw [List.foldl_cons, ih hobj.2]
        apply seed_keeps
        intro hp
        exact h ⟨p, hobj.1, hp⟩
  rw [Context.prepared, hseeds core (fun _ hp => hp)]
  cases (core.lookup "@vocab").bind Value.as_str <;> rfl

theorem define_keeps {p : String × Value} (h : define_term false c p = .ok c') (hne : p.1 ≠ t) :
    c'.terms.get t = c.terms.get t := by
  rw [(define_term_ok h).1, redefined]
  split_ifs
  · rfl
  · rw [BTreeMap.get_remove, if_neg (Ne.symm hne)]
  · cases reads p with
    | none => rfl
    | some s => rw [BTreeMap.get_insert, if_neg (Ne.symm hne)]

theorem define_all_keep {obj : Map} (h : obj.foldlM (define_term false) c = .ok c') (ht : t ∉ obj.map Prod.fst) :
    c'.terms.get t = c.terms.get t := by
  induction obj generalizing c with
  | nil =>
      cases h
      rfl
  | cons p obj ih =>
      rw [List.map_cons, List.mem_cons, not_or] at ht
      rw [List.foldlM_cons] at h
      obtain ⟨d, hd, h⟩ := bind_eq_ok.mp h
      rw [ih h ht.2, define_keeps hd (Ne.symm ht.1)]

/-- Where the definitions are refused, some are merged and the first refused is not. -/
theorem refused_at {obj : Map} {e : NgsiError} (h : obj.foldlM (define_term false) c = .error e) :
    ∃ pre p post c₁, obj = pre ++ p :: post ∧ pre.foldlM (define_term false) c = .ok c₁ ∧
      (merge_until obj c).terms = c₁.terms := by
  induction obj generalizing c with
  | nil => cases h
  | cons p obj ih =>
      rw [List.foldlM_cons] at h
      cases hp : define_term false c p with
      | error e' =>
          refine ⟨[], p, obj, c, rfl, rfl, ?_⟩
          rw [merge_until, hp]
      | ok d =>
          rw [hp] at h
          obtain ⟨pre, q, post, c₁, rfl, hpre, hterms⟩ := ih h
          refine ⟨p :: pre, q, post, c₁, rfl, ?_, ?_⟩
          · rw [List.foldlM_cons, hp]
            exact hpre
          · rw [merge_until, hp]
            exact hterms

/-- A Core term that is defined by its own bare name is left the IRI that the user gives it. -/
theorem bare_term_is_the_users {core : Map} (hkeys : (core.map Prod.fst).Nodup) (ht : (t, .string t) ∈ core)
    (hat : starts_with t "@" = false) (hcolon : split_once ':' t = none) {user merged : Context}
    (hroom : user.merge_core_object core = .ok merged) {d : TermDef} (hd : user.terms.get t = some d) :
    (completed (.object core) user).terms.get t = some (.simple d.iri) := by
  have habs : is_absolute_iri t = false := by
    rw [is_absolute_iri, hcolon]
  obtain ⟨pre, post, rfl⟩ := List.append_of_mem ht
  rw [List.map_append, List.map_cons, List.nodup_append] at hkeys
  have hpre : t ∉ pre.map Prod.fst := fun hmem => hkeys.2.2 t hmem t List.mem_cons_self rfl
  have hpost : t ∉ post.map Prod.fst := (List.nodup_cons.mp hkeys.2.1).1
  have hseed : ¬ Seeded (pre ++ (t, .string t) :: post) t := by
    rintro ⟨p, hp, rfl, hstr⟩
    rcases List.mem_append.mp hp with hp | hp
    · exact hpre (List.mem_map_of_mem hp)
    rcases List.mem_cons.mp hp with heq | hp
    · rw [heq] at hstr
      exact absurd hstr (by simp [Value.as_str, habs])
    · exact hpost (List.mem_map_of_mem hp)
  have hrun : (pre ++ (t, .string t) :: post).foldlM (define_term false) (user.prepared (pre ++ (t, .string t) :: post)) =
      .ok merged := hroom
  rw [List.foldlM_append] at hrun
  obtain ⟨c₁, h₁, hrun⟩ := bind_eq_ok.mp hrun
  rw [List.foldlM_cons] at hrun
  obtain ⟨c₂, h₂, hrun⟩ := bind_eq_ok.mp hrun
  have hget : c₁.terms.get t = some d := by
    rw [define_all_keep h₁ hpre, prepared_keeps hseed, hd]
  have hexpand : c₁.expand_iri_for_def t = d.iri := by
    simp [expand_iri_for_def, hat, prefixed, hcolon, habs, hget]
  rw [completed, merge_context_value_ok hroom]
  have hafter : merged.terms.get t = c₂.terms.get t := define_all_keep hrun hpost
  refine hafter.trans ?_
  have hnull : is_null_def (.string t) = false := rfl
  have hreads : reads (t, .string t) = some t := rfl
  rw [(define_term_ok h₂).1, redefined, hreads]
  dsimp only
  rw [hat, if_neg Bool.false_ne_true, hnull, if_neg Bool.false_ne_true, BTreeMap.get_insert, if_pos rfl, hexpand]
  rfl

end Unsettled

section Core

/-- A Core context of a prefix, a term under it and a term that stands for itself. -/
def a_core : Map := [
  ("@vocab", .string "urn:v:"),
  ("Property", .string "ngsi-ld:Property"),
  ("attributeCount", .string "attributeCount"),
  ("ngsi-ld", .string "urn:n:")]

/-- A context that gives two of these terms and their prefix meanings of its own. -/
def a_user (bytes : Nat) : Context :=
  { Context.default with
    terms := ((BTreeMap.empty.insert "Property" (.simple "urn:mine")).insert "attributeCount" (.simple "urn:count")).insert
      "ngsi-ld" (.simple "urn:other:")
    bytes }

def alone : Context := merge_context_value .default (.object a_core)

theorem alone_merges : Context.default.merge_core_object a_core = .ok alone := merges (by decide)

def merged_last : Context := merge_context_value (a_user 0) (.object a_core)

theorem merged_last_merges : (a_user 0).merge_core_object a_core = .ok merged_last := merges (by decide)

theorem property_is_the_cores :
    (completed (.object a_core) (a_user 0)).terms.get "Property" = alone.terms.get "Property" :=
  core_terms_win rfl alone_merges merged_last_merges (by decide)

theorem count_is_the_users :
    (completed (.object a_core) (a_user 0)).terms.get "attributeCount" = some (.simple "urn:count") :=
  bare_term_is_the_users (by decide) (by decide) (by decide) (by decide) merged_last_merges (d := .simple "urn:count") (by decide)

theorem no_room : (a_user MAX_CONTEXT_BYTES).merge_core_object a_core = .error .ExceedsMaximumSize := by decide

end Core

end AntaresBroker.JsonLd
