import AntaresBroker.EntityQuery

namespace AntaresBroker.Policy

open Fallible Json Entities Ql Ql.Eval Ql.Scope

def ENGINE_FAILED : String := "the policy engine failed"

/-- The Scope Queries have no product that can be written down. -/
def SCOPE_NOT_NARROWABLE : String := "the request's own scope query cannot be narrowed by the policy engine"

structure Denied where
  reason : String
deriving DecidableEq

/-- How much less than it asked for an operation is allowed over. -/
structure Filter where
  q : Option QNode
  scope_q : Option String
  omitted : List String
  pick : List String
  restricted : Bool

def narrow_q (f : Filter) (params : Params) : Except Denied Params :=
  match f.q with
  | none => .ok params
  | some extra =>
      match (params "q").map parse_q with
      | none => .ok (insert_param params "q" (to_string extra))
      | some (.ok own) => .ok (insert_param params "q" (to_string (.And [own, extra])))
      | some (.error _) => .error ⟨ENGINE_FAILED⟩

def narrow_scope (f : Filter) (params : Params) : Except Denied Params :=
  match f.scope_q with
  | none => .ok params
  | some scope =>
      match params "scopeQ" with
      | none => .ok (insert_param params "scopeQ" scope)
      | some own =>
          match intersect_scope_q own scope with
          | none => .error ⟨SCOPE_NOT_NARROWABLE⟩
          | some product => .ok (insert_param params "scopeQ" product)

/-- The request's own parameters, narrowed by the decision. -/
def narrow_params (f : Filter) (params : Params) : Except Denied Params := (narrow_q f params).bind (narrow_scope f)

section Narrowing

variable {Instant : Type} [LinearOrder Instant] (env : Env Instant)

/-- What the decision asks of an entity. -/
def admits (f : Filter) (doc : Value) : Bool :=
  f.q.all (fun q => eval_q env.chrono env.toEnv q doc) && f.scope_q.all (fun s => scope_matches s doc)

def own_q (params : Params) : Option QNode := (params "q").bind (fun q => (parse_q q).toOption)

/-- The attributes whose values the request asks to have expanded. -/
def expanded (params : Params) : Option String := expansion_list (params "expandValues") (params "jsonKeys")

/-- Nothing of the conjunction is lost on its way through the text, and the request expands nothing of the decision. -/
structure Verbatim (f : Filter) (params : Params) : Prop where
  finite : ∀ extra ∈ f.q, All FiniteLiterals (conjoined (own_q params) extra)
  ending : ∀ extra ∈ f.q, EndKept (conjoined (own_q params) extra)
  unexpanded : ∀ extra ∈ f.q, apply_expand_values env.expand extra (expanded params) = extra

/-- For one entity: the lookups of both expressions fit in the budget of one, and the Scope Queries can be multiplied. -/
structure Intact (f : Filter) (params : Params) (doc : Value) : Prop extends Verbatim env f params where
  lookups : ∀ extra ∈ f.q, ∀ own ∈ own_q params,
    lookups_bought env.chrono env.toEnv (apply_expand_values env.expand own (expanded params)) doc +
      lookups_bought env.chrono env.toEnv extra doc ≤ MAX_Q_LINK_LOOKUPS
  splices : ∀ scope ∈ f.scope_q, ∀ own ∈ params "scopeQ", ∀ x ∈ groups own, ∀ y ∈ groups scope, Spliceable x y
  whole : ∀ scope ∈ f.scope_q, ∀ own ∈ params "scopeQ", Whole own doc ∧ Whole scope doc

variable {env}

theorem q_ast_own {params : Params} {own : Option QNode} (h : q_ast env params = .ok own) :
    own = (own_q params).map (apply_expand_values env.expand · (expanded params)) := by
  rw [q_ast] at h
  rw [own_q]
  cases hq : params "q" with
  | none =>
      rw [hq, Except.ok.injEq] at h
      exact h.symm
  | some q =>
      rw [hq] at h
      obtain ⟨node, hnode, rfl⟩ := map_eq_ok.mp h
      rw [Option.bind_some, hnode]
      rfl

theorem own_q_parsed {params : Params} {n : QNode} (h : n ∈ own_q params) : ∃ s, parse_q s = .ok n := by
  obtain ⟨s, -, hs⟩ := Option.bind_eq_some_iff.mp h
  cases hp : parse_q s with
  | error e =>
      rw [hp] at hs
      cases hs
  | ok m =>
      rw [hp] at hs
      cases hs
      exact ⟨s, hp⟩

theorem narrow_q_ok {f : Filter} {params p : Params} (h : narrow_q f params = .ok p) :
    (f.q = none ∧ p = params) ∨ ∃ extra, f.q = some extra ∧
      p = insert_param params "q" (to_string (conjoined (own_q params) extra)) ∧
      (params "q" = none ∨ ∃ q own, params "q" = some q ∧ parse_q q = .ok own) := by
  rw [narrow_q] at h
  cases hf : f.q with
  | none =>
      rw [hf, Except.ok.injEq] at h
      exact Or.inl ⟨rfl, h.symm⟩
  | some extra =>
      rw [hf] at h
      refine Or.inr ⟨extra, rfl, ?_⟩
      rw [own_q]
      cases hq : params "q" with
      | none =>
          rw [hq, Option.map_none, Except.ok.injEq] at h
          exact ⟨h.symm, Or.inl rfl⟩
      | some q =>
          cases hp : parse_q q with
          | error e =>
              rw [hq, Option.map_some, hp] at h
              cases h
          | ok own =>
              rw [hq, Option.map_some, hp, Except.ok.injEq] at h
              rw [Option.bind_some, hp]
              exact ⟨h.symm, Or.inr ⟨q, own, rfl, hp⟩⟩

theorem narrow_scope_ok {f : Filter} {params p : Params} (h : narrow_scope f params = .ok p) :
    (f.scope_q = none ∧ p = params) ∨ ∃ scope text, f.scope_q = some scope ∧ p = insert_param params "scopeQ" text ∧
      ((params "scopeQ" = none ∧ text = scope) ∨
        ∃ own, params "scopeQ" = some own ∧ intersect_scope_q own scope = some text) := by
  rw [narrow_scope] at h
  cases hf : f.scope_q with
  | none =>
      rw [hf, Except.ok.injEq] at h
      exact Or.inl ⟨rfl, h.symm⟩
  | some scope =>
      rw [hf] at h
      refine Or.inr ⟨scope, ?_⟩
      cases hs : params "scopeQ" with
      | none =>
          rw [hs, Except.ok.injEq] at h
          exact ⟨scope, rfl, h.symm, Or.inl ⟨rfl, rfl⟩⟩
      | some own =>
          cases hi : intersect_scope_q own scope with
          | none =>
              rw [hs] at h
              dsimp only at h
              rw [hi] at h
              cases h
          | some text =>
              rw [hs] at h
              dsimp only at h
              rw [hi, Except.ok.injEq] at h
              exact ⟨text, rfl, h.symm, Or.inr ⟨own, rfl, hi⟩⟩

/-- The conjunction that runs is the request's own and the decision's, word for word, exactly when the text keeps it. -/
theorem narrowed_q_ast {f : Filter} {params p : Params} {final : Option QNode} {extra : QNode} (hf : f.q = some extra)
    (hparsed : ∃ s, parse_q s = .ok extra) (h : narrow_q f params = .ok p) (hfinal : q_ast env p = .ok final) :
    ∃ own, q_ast env params = .ok own ∧
      (final = some (flatten (conjoined own extra)) ↔ Verbatim env f params) := by
  rcases narrow_q_ok h with ⟨hnone, -⟩ | ⟨extra', hsome, hp, hq⟩
  · rw [hnone] at hf
    cases hf
  · rw [hf, Option.some.injEq] at hsome
    subst hsome
    have hown : q_ast env params = .ok ((own_q params).map (apply_expand_values env.expand · (expanded params))) := by
      rw [q_ast, own_q]
      rcases hq with hq | ⟨q, own, hq, hown⟩
      · rw [hq]
        rfl
      · rw [hq, Option.bind_some, hown]
        dsimp only
        rw [hown]
        rfl
    refine ⟨_, hown, ?_⟩
    have hlists : expansion_list (p "expandValues") (p "jsonKeys") = expanded params := by
      rw [hp, insert_param_of_ne _ _ (by decide), insert_param_of_ne _ _ (by decide), expanded]
    have htext : p "q" = some (to_string (conjoined (own_q params) extra)) := by
      rw [hp, insert_param_self]
    rw [q_ast, htext] at hfinal
    obtain ⟨m, hm, rfl⟩ := map_eq_ok.mp hfinal
    rw [hlists, Option.some.injEq, runs_as_conjoined (fun n hn => own_q_parsed hn) hparsed hm]
    refine ⟨fun hk => ⟨fun e he => ?_, fun e he => ?_, fun e he => ?_⟩, fun hk => ⟨hk.finite extra hf, hk.ending extra hf, hk.unexpanded extra hf⟩⟩
    · rw [hf, Option.mem_some_iff] at he
      exact he ▸ hk.1
    · rw [hf, Option.mem_some_iff] at he
      exact he ▸ hk.2.1
    · rw [hf, Option.mem_some_iff] at he
      exact he ▸ hk.2.2

theorem narrowed_q_selects {f : Filter} {params p : Params} {final : Option QNode}
    (hparsed : ∀ extra ∈ f.q, ∃ s, parse_q s = .ok extra) (h : narrow_q f params = .ok p)
    (hfinal : q_ast env p = .ok final) (doc : Value) :
    ∃ own, q_ast env params = .ok own ∧ (Intact env f params doc →
      final.all (fun ast => eval_q env.chrono env.toEnv ast doc) =
        (own.all (fun ast => eval_q env.chrono env.toEnv ast doc) && f.q.all (fun q => eval_q env.chrono env.toEnv q doc))) := by
  cases hf : f.q with
  | none =>
      rcases narrow_q_ok h with ⟨-, rfl⟩ | ⟨extra, hsome, -, -⟩
      · exact ⟨final, hfinal, fun _ => by rw [Option.all_none, Bool.and_true]⟩
      · rw [hf] at hsome
        cases hsome
  | some extra =>
      obtain ⟨own, hown, hiff⟩ := narrowed_q_ast hf (hparsed extra hf) h hfinal
      refine ⟨own, hown, fun hk => ?_⟩
      rw [hiff.mpr hk.toVerbatim, Option.all_some, eval_q, eval_flatten, ← eval_q, Option.all_some]
      cases ho : own with
      | none => rw [conjoined, Option.all_none, Bool.true_and]
      | some tree =>
          have htree := q_ast_own hown
          rw [ho] at htree
          obtain ⟨raw, hraw, rfl⟩ := Option.map_eq_some_iff.mp htree.symm
          rw [conjoined, eval_q_both env.chrono env.toEnv (hk.lookups extra hf raw hraw), Option.all_some]

theorem narrowed_scope_selects {f : Filter} {params p : Params} (doc : Value) (h : narrow_scope f params = .ok p)
    (hsplice : ∀ scope ∈ f.scope_q, ∀ own ∈ params "scopeQ", ∀ x ∈ groups own, ∀ y ∈ groups scope, Spliceable x y)
    (hwhole : ∀ scope ∈ f.scope_q, ∀ own ∈ params "scopeQ", Whole own doc ∧ Whole scope doc) :
    (p "scopeQ").all (fun s => scope_matches s doc) =
      ((params "scopeQ").all (fun s => scope_matches s doc) && f.scope_q.all (fun s => scope_matches s doc)) := by
  rcases narrow_scope_ok h with ⟨hnone, rfl⟩ | ⟨scope, text, hscope, rfl, hown⟩
  · rw [hnone, Option.all_none, Bool.and_true]
  · rw [insert_param_self, Option.all_some, hscope, Option.all_some]
    rcases hown with ⟨hnone, rfl⟩ | ⟨own, hsome, hproduct⟩
    · rw [hnone, Option.all_none, Bool.true_and]
    · rw [hsome, Option.all_some]
      have hw := hwhole scope hscope own hsome
      exact scope_matches_intersect hproduct (hsplice scope hscope own hsome) hw.1 hw.2

theorem narrow_q_scope {f : Filter} {params p : Params} (h : narrow_q f params = .ok p) : p "scopeQ" = params "scopeQ" := by
  rcases narrow_q_ok h with ⟨-, rfl⟩ | ⟨extra, -, rfl, -⟩
  · rfl
  · exact insert_param_of_ne _ _ (by decide)

theorem narrow_scope_other {f : Filter} {params p : Params} {name : String} (h : narrow_scope f params = .ok p)
    (hs : name ≠ "scopeQ") : p name = params name := by
  rcases narrow_scope_ok h with ⟨-, rfl⟩ | ⟨scope, text, -, rfl, -⟩
  · rfl
  · exact insert_param_of_ne _ _ hs

theorem narrow_scope_q_ast {f : Filter} {params p : Params} (h : narrow_scope f params = .ok p) :
    q_ast env p = q_ast env params := by
  rw [q_ast, q_ast, narrow_scope_other h (by decide), narrow_scope_other h (by decide), narrow_scope_other h (by decide)]

theorem selection_ok {params : Params} {sel : Selection} (h : selection env params = .ok sel) :
    q_ast env params = .ok sel.q ∧ sel.scope_q = params "scopeQ" := by
  obtain ⟨ids, -, h⟩ := bind_eq_ok.mp h
  obtain ⟨pat, -, h⟩ := bind_eq_ok.mp h
  obtain ⟨q, hq, h⟩ := bind_eq_ok.mp h
  obtain ⟨geo, -, rfl⟩ := map_eq_ok.mp h
  exact ⟨hq, rfl⟩

/-- The request's own selection differs from the narrowed one in the expression and the Scope Query alone. -/
theorem selection_own {f : Filter} {params p : Params} {sel : Selection} {own : Option QNode}
    (hn : narrow_params f params = .ok p) (h : selection env p = .ok sel) (hown : q_ast env params = .ok own) :
    selection env params = .ok { sel with q := own, scope_q := params "scopeQ" } := by
  have hother (name : String) (hq : name ≠ "q") (hs : name ≠ "scopeQ") : p name = params name := by
    obtain ⟨p₁, h₁, h₂⟩ := bind_eq_ok.mp hn
    rw [narrow_scope_other h₂ hs]
    rcases narrow_q_ok h₁ with ⟨-, rfl⟩ | ⟨extra, -, rfl, -⟩
    · rfl
    · exact insert_param_of_ne _ _ hq
  obtain ⟨ids, hids, h⟩ := bind_eq_ok.mp h
  obtain ⟨pat, hpat, h⟩ := bind_eq_ok.mp h
  obtain ⟨q, -, h⟩ := bind_eq_ok.mp h
  obtain ⟨geo, hgeo, rfl⟩ := map_eq_ok.mp h
  rw [selected_ids, hother _ (by decide) (by decide)] at hids
  rw [id_pattern, hother _ (by decide) (by decide)] at hpat
  rw [hother _ (by decide) (by decide), hother _ (by decide) (by decide), hother _ (by decide) (by decide),
    hother _ (by decide) (by decide)] at hgeo
  rw [hother "type" (by decide) (by decide), hother "attrs" (by decide) (by decide)]
  exact bind_eq_ok.mpr ⟨ids, hids, bind_eq_ok.mpr ⟨pat, hpat, bind_eq_ok.mpr ⟨own, hown, map_eq_ok.mpr ⟨geo, hgeo, rfl⟩⟩⟩⟩

/-- An entity is selected by the expression, by the Scope Query and by all else. -/
theorem selects_split (sel : Selection) (q : Option QNode) (scope_q : Option String) (doc : Value) :
    Selection.selects env { sel with q, scope_q } doc =
      (Selection.selects env { sel with q := none, scope_q := none } doc &&
        (q.all (fun ast => eval_q env.chrono env.toEnv ast doc) && scope_q.all (fun s => scope_matches s doc))) := by
  rw [Selection.selects, Selection.selects, Option.all_none, Option.all_none, Bool.and_true, Bool.and_true]
  ac_rfl

theorem narrowed_selects {f : Filter} {params p : Params} {sel : Selection}
    (hparsed : ∀ extra ∈ f.q, ∃ s, parse_q s = .ok extra) (hn : narrow_params f params = .ok p)
    (h : selection env p = .ok sel) :
    ∃ own, selection env params = .ok own ∧
      ∀ doc, Intact env f params doc → sel.selects env doc = (own.selects env doc && admits env f doc) := by
  obtain ⟨p₁, h₁, h₂⟩ := bind_eq_ok.mp hn
  obtain ⟨hfinal, hscope⟩ := selection_ok h
  rw [narrow_scope_q_ast h₂] at hfinal
  obtain ⟨own, hown, -⟩ := narrowed_q_selects hparsed h₁ hfinal .null
  refine ⟨_, selection_own hn h hown, fun doc hk => ?_⟩
  obtain ⟨own', hown', hq⟩ := narrowed_q_selects hparsed h₁ hfinal doc
  rw [hown, Except.ok.injEq] at hown'
  subst hown'
  have hs := narrowed_scope_selects doc h₂ (narrow_q_scope h₁ ▸ hk.splices) (narrow_q_scope h₁ ▸ hk.whole)
  rw [← hscope, narrow_q_scope h₁] at hs
  have hsel : sel.selects env doc = Selection.selects env { sel with q := sel.q, scope_q := sel.scope_q } doc := rfl
  rw [hsel, selects_split sel sel.q, selects_split sel own, admits, hq hk, hs]
  ac_rfl

/-- Narrowing is an exact intersection where the text keeps the conjunction, the request expands nothing of the
decision, the lookups of both fit in one budget and the Scope Queries can be multiplied. What cannot be read again or
multiplied is refused. -/
theorem narrow_params_exact {f : Filter} (hparsed : ∀ extra ∈ f.q, ∃ s, parse_q s = .ok extra) (params : Params)
    (rows : List Value) :
    (∀ p out, narrow_params f params = .ok p → filter_entities env p rows = .ok out →
      ∃ own, filter_entities env params rows = .ok own ∧
        (∀ doc, Intact env f params doc → (doc ∈ out ↔ doc ∈ own ∧ admits env f doc = true)) ∧
        (∀ extra ∈ f.q, ∃ own_ast, q_ast env params = .ok own_ast ∧
          (q_ast env p = .ok (some (flatten (conjoined own_ast extra))) ↔ Verbatim env f params))) ∧
    (∀ scope ∈ f.scope_q, ∀ own ∈ params "scopeQ", intersect_scope_q own scope = none →
      ∀ p, narrow_params f params ≠ .ok p) ∧
    (∀ p text, narrow_params f params = .ok p → p "q" = some text → (∀ m, parse_q text ≠ .ok m) →
      ∀ out, filter_entities env p rows ≠ .ok out) := by
  refine ⟨fun p out hn hf => ?_, fun scope hscope own hown hproduct p hn => ?_, fun p text _ hq htext out hf => ?_⟩
  · obtain ⟨sel, hsel, rfl⟩ := map_eq_ok.mp hf
    obtain ⟨own, hown, hselects⟩ := narrowed_selects hparsed hn hsel
    refine ⟨_, map_eq_ok.mpr ⟨own, hown, rfl⟩, fun doc hk => ?_, fun extra hextra => ?_⟩
    · rw [List.mem_filter, List.mem_filter, hselects doc hk, Bool.and_eq_true, and_assoc]
    · obtain ⟨p₁, h₁, h₂⟩ := bind_eq_ok.mp hn
      obtain ⟨hfinal, -⟩ := selection_ok hsel
      rw [narrow_scope_q_ast h₂] at hfinal ⊢
      obtain ⟨own', hown', hiff⟩ := narrowed_q_ast hextra (hparsed extra hextra) h₁ hfinal
      exact ⟨own', hown', by rw [hfinal, Except.ok.injEq, hiff]⟩
  · obtain ⟨p₁, h₁, h₂⟩ := bind_eq_ok.mp hn
    rw [Option.mem_def] at hscope hown
    rcases narrow_scope_ok h₂ with ⟨hnone, -⟩ | ⟨scope', text, hsome, -, ⟨hnone, -⟩ | ⟨own', hsome', hp⟩⟩
    · rw [hnone] at hscope
      cases hscope
    · rw [narrow_q_scope h₁, hown] at hnone
      cases hnone
    · rw [hscope, Option.some.injEq] at hsome
      rw [narrow_q_scope h₁, hown, Option.some.injEq] at hsome'
      rw [← hsome, ← hsome', hproduct] at hp
      cases hp
  · obtain ⟨sel, hsel, -⟩ := map_eq_ok.mp hf
    obtain ⟨hfinal, -⟩ := selection_ok hsel
    rw [q_ast, hq] at hfinal
    obtain ⟨m, hm, -⟩ := map_eq_ok.mp hfinal
    exact htext m hm

end Narrowing

def of_owner (id owner : String) : Value := .object [
  ("id", .string id), ("scope", .array [.string "/a/b"]), ("type", .array [.string "urn:T"]),
  ("urn:owner", .array [.object [("type", .string "Property"), ("value", .string owner)]])]

def owner_is (op : CmpOp) (owner : String) : QNode := .Cmp ⟨[], ["owner"], none⟩ op (.scalar (.Str owner))

/-- Everything but what bob owns. -/
def not_of_bob : Filter := ⟨some (owner_is .Ne "bob"), none, [], [], false⟩

def expanding : Params := insert_param (insert_param (fun _ => none) "type" "T") "expandValues" "owner"

theorem narrow_params_widened :
    parse_q "owner!=\"bob\"" = .ok (owner_is .Ne "bob") ∧
      ∃ p, narrow_params not_of_bob expanding = .ok p ∧
        filter_entities plain_env p [of_owner "urn:1" "bob"] = .ok [of_owner "urn:1" "bob"] ∧
        admits plain_env not_of_bob (of_owner "urn:1" "bob") = false :=
  ⟨by decide +kernel, _, rfl, by decide +kernel, by decide +kernel⟩

/-- What bob owns somewhere under `/a`. -/
def of_bob : Filter := ⟨some (owner_is .Eq "bob"), some "/a/#", [], [], false⟩

def asking : Params := insert_param (insert_param (insert_param (fun _ => none) "type" "T") "q" "owner!=\"eve\"") "scopeQ" "/+/b"

theorem intact_asking : Intact plain_env of_bob asking (of_owner "urn:1" "bob") := by
  have hown : own_q asking = some (owner_is .Ne "eve") := by decide +kernel
  have hextra {extra : QNode} (h : extra ∈ of_bob.q) : extra = owner_is .Eq "bob" := (Option.some.inj h).symm
  have hscope {scope : String} (h : scope ∈ of_bob.scope_q) : scope = "/a/#" := (Option.some.inj h).symm
  have hwanted {own : String} (h : own ∈ asking "scopeQ") : own = "/+/b" := by
    rw [asking, insert_param_self] at h
    exact (Option.some.inj h).symm
  refine ⟨⟨fun extra h => ?_, fun extra h => ?_, fun extra h => ?_⟩, fun extra h own ho => ?_, fun scope hs own ho => ?_,
    fun scope hs own ho => ?_⟩
  · rw [hextra h, hown]
    simp [conjoined, All, AllItems, FiniteLiterals, owner_is, scalars]
  · rw [hextra h, hown]
    intro name hname
    cases hname
  · rw [hextra h]
    decide +kernel
  · rw [hown] at ho
    rw [hextra h, ← Option.some.inj ho]
    decide +kernel
  · rw [hscope hs, hwanted ho]
    decide +kernel
  · rw [hscope hs, hwanted ho]
    decide +kernel

/-- A request for what eve does not own at a scope, answered with what of it bob owns. -/
theorem narrow_params_exact_asking :
    ∃ p out own, narrow_params of_bob asking = .ok p ∧
      filter_entities plain_env p [of_owner "urn:1" "bob", of_owner "urn:2" "ann"] = .ok out ∧
      filter_entities plain_env asking [of_owner "urn:1" "bob", of_owner "urn:2" "ann"] = .ok own ∧
      (of_owner "urn:1" "bob" ∈ out ↔
        of_owner "urn:1" "bob" ∈ own ∧ admits plain_env of_bob (of_owner "urn:1" "bob") = true) := by
  have hparsed : ∀ extra ∈ of_bob.q, ∃ s, parse_q s = .ok extra :=
    fun extra h => ⟨"owner==\"bob\"", by rw [← Option.some.inj h]; decide +kernel⟩
  have hq : parse_q "owner!=\"eve\"" = .ok (owner_is .Ne "eve") := by decide +kernel
  have htext : to_string (.And [owner_is .Ne "eve", owner_is .Eq "bob"]) = "owner!=\"eve\";owner==\"bob\"" := by decide +kernel
  have hscope : intersect_scope_q "/+/b" "/a/#" = some "(/+/b;/a/#)" := by decide +kernel
  have hask : asking "q" = some "owner!=\"eve\"" := by decide +kernel
  have hscopes : (insert_param asking "q" "owner!=\"eve\";owner==\"bob\"") "scopeQ" = some "/+/b" := by decide +kernel
  have hn : narrow_params of_bob asking = .ok (insert_param
      (insert_param asking "q" "owner!=\"eve\";owner==\"bob\"") "scopeQ" "(/+/b;/a/#)") := by
    refine bind_eq_ok.mpr ⟨insert_param asking "q" "owner!=\"eve\";owner==\"bob\"", ?_, ?_⟩
    · rw [narrow_q, hask, Option.map_some, hq, ← htext]
      rfl
    · rw [narrow_scope, hscopes]
      dsimp only [of_bob]
      rw [hscope]
  have hf : filter_entities plain_env (insert_param (insert_param asking "q" "owner!=\"eve\";owner==\"bob\"") "scopeQ"
      "(/+/b;/a/#)") [of_owner "urn:1" "bob", of_owner "urn:2" "ann"] = .ok [of_owner "urn:1" "bob"] := by decide +kernel
  obtain ⟨own, hown, hexact, -⟩ := (narrow_params_exact hparsed asking _).1 _ _ hn hf
  exact ⟨_, _, own, hn, hf, hown, hexact _ intact_asking⟩

end AntaresBroker.Policy
