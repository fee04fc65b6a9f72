import AntaresBroker.AttrArrays

namespace AntaresBroker.Attrs

open Fallible Json JsonLd JsonLd.Instance Patch SortedMap Federation Merge KeyedList

section Stages

variable {ts : String} {frag doc : Map} {a : Appended}

theorem union_values_extra (cur new : List Value) :
    ∃ extra, union_values cur new = cur ++ extra ∧ (extra = [] ↔ ∀ t ∈ new, t ∈ cur) := by
  induction new generalizing cur with
  | nil => exact ⟨[], by simp [union_values], by simp⟩
  | cons t new ih =>
      by_cases ht : t ∈ cur
      · obtain ⟨extra, heq, hnil⟩ := ih cur
        refine ⟨extra, ?_, ?_⟩
        · rw [← heq, union_values, List.foldl_cons, if_pos ht]
          rfl
        · rw [hnil, List.forall_mem_cons]
          exact ⟨fun h => ⟨ht, h⟩, And.right⟩
      · obtain ⟨extra, heq, -⟩ := ih (cur ++ [t])
        refine ⟨t :: extra, ?_, ?_⟩
        · rw [List.append_cons, ← heq, union_values, List.foldl_cons, if_neg ht]
          rfl
        · rw [List.forall_mem_cons]
          exact ⟨fun h => absurd h (List.cons_ne_nil _ _), fun h => absurd h.1 ht⟩

theorem union_values_grows {cur new : List Value} :
    cur.length < (union_values cur new).length ↔ ¬ ∀ t ∈ new, t ∈ cur := by
  obtain ⟨extra, heq, hnil⟩ := union_values_extra cur new
  rw [heq, ← hnil, List.length_append, ← List.length_eq_zero_iff]
  omega

/-- A longer list than a member has is another member. -/
theorem lookup_ne_union {m : Map} {k : String} {new : List Value} (h : ¬ ∀ t ∈ new, t ∈ items_of m k) :
    some (Value.array (union_values (items_of m k) new)) ≠ m.lookup k := by
  intro heq
  have hitems : items_of m k = union_values (items_of m k) new := by
    conv_lhs => rw [items_of, ← heq]
    rfl
  have hlt := union_values_grows.mpr h
  rw [← hitems] at hlt
  exact Nat.lt_irrefl _ hlt

/-- A step that writes one member: when it leaves it, and when it books nothing. -/
structure Stage (key : String) (known quiet : Prop) (a a' : Appended) : Prop where
  sorted : Sorted a.target → Sorted a'.target
  other : ∀ k, k ≠ key → a'.target.lookup k = a.target.lookup k
  same : a'.target.lookup key = a.target.lookup key ↔ known
  told : a'.updated = [] ↔ a.updated = [] ∧ quiet

theorem Stage.stay {key : String} {known quiet : Prop} {not_updated : List String} (hknown : known) (hquiet : quiet) :
    Stage key known quiet a ⟨a.target, a.updated, not_updated⟩ :=
  ⟨id, fun _ _ => rfl, ⟨fun _ => hknown, fun _ => rfl⟩, ⟨fun h => ⟨h, hquiet⟩, And.left⟩⟩

theorem Stage.write {key : String} {known quiet : Prop} {v : Value} {updated : List String}
    (hsame : some v = a.target.lookup key ↔ known) (hquiet : ¬ quiet) (hne : updated ≠ []) :
    Stage key known quiet a ⟨insert key v a.target, updated, a.not_updated⟩ := by
  refine ⟨sorted_insert _ _, fun k hk => by rw [lookup_insert, if_neg hk], ?_, ?_⟩
  · rw [lookup_insert, if_pos rfl]
    exact hsame
  · exact ⟨fun h => absurd h hne, fun h => absurd h.2 hquiet⟩

theorem append_types_stage (frag : Map) (a : Appended) :
    Stage "type" (TypesKnown frag a.target) (TypesKnown frag a.target) a (append_types frag a) := by
  rw [append_types]
  cases hnew : (frag.lookup "type").bind Value.as_array with
  | none =>
      have hknown : TypesKnown frag a.target := by
        intro t ht
        rw [items_of, hnew] at ht
        cases ht
      exact .stay hknown hknown
  | some new_types =>
      have hitems : items_of frag "type" = new_types := by
        rw [items_of, hnew]
        rfl
      dsimp only
      split_ifs with hlt
      · rw [union_values_grows] at hlt
        have hnot : ¬ TypesKnown frag a.target := by
          rw [TypesKnown, hitems]
          exact hlt
        refine .write ?_ hnot (by simp)
        exact ⟨fun h => absurd h (lookup_ne_union hlt), fun h => absurd h hnot⟩
      · rw [union_values_grows, not_not] at hlt
        have hknown : TypesKnown frag a.target := by
          rw [TypesKnown, hitems]
          exact hlt
        exact .stay hknown hknown

/-- The scope is not there to be updated, or the same. -/
def ScopeSame (frag doc : Map) : Prop := ∀ s s', frag.lookup "scope" = some s → doc.lookup "scope" = some s' → s' = s

theorem update_scope_stage (frag : Map) (a : Appended) :
    Stage "scope" (ScopeSame frag a.target)
      (¬ ((frag.lookup "scope").isSome = true ∧ (a.target.lookup "scope").isSome = true)) a (update_scope frag a) := by
  rw [update_scope]
  cases hnew : frag.lookup "scope" with
  | none =>
      refine .stay ?_ (by simp)
      intro s s' hs
      rw [hnew] at hs
      cases hs
  | some s =>
      dsimp only
      cases hold : a.target.lookup "scope" with
      | none =>
          refine .stay ?_ (fun h => Bool.false_ne_true h.2)
          intro s s' _ hs'
          rw [hold] at hs'
          cases hs'
      | some s' =>
          refine .write ?_ (by simp) (by simp)
          rw [hold, Option.some.injEq]
          constructor
          · rintro rfl t t' ht ht'
            rw [hnew, Option.some.injEq] at ht
            rw [hold, Option.some.injEq] at ht'
            rw [← ht, ← ht']
          · exact fun h => (h s s' hnew hold).symm

/-- The scopes to be appended are there. -/
def ScopeKnown (no_overwrite : Bool) (frag doc : Map) : Prop :=
  ∀ s, frag.lookup "scope" = some s → if no_overwrite = true ∧ (doc.lookup "scope").isSome = true then
    ∀ v ∈ s.as_array.getD [], v ∈ items_of doc "scope" else doc.lookup "scope" = some s

theorem append_scope_stage (no_overwrite : Bool) (frag : Map) (a : Appended) :
    Stage "scope" (ScopeKnown no_overwrite frag a.target)
      (∀ s, frag.lookup "scope" = some s → (no_overwrite = true ∧ (a.target.lookup "scope").isSome = true) ∧
        ∀ v ∈ s.as_array.getD [], v ∈ items_of a.target "scope") a (append_scope no_overwrite frag a) := by
  rw [append_scope]
  cases hnew : frag.lookup "scope" with
  | none =>
      refine .stay ?_ (fun s hs => by cases hs)
      intro s hs
      rw [hnew] at hs
      cases hs
  | some s =>
      have hknown {q : Prop} (h : (if no_overwrite = true ∧ (a.target.lookup "scope").isSome = true then
          ∀ v ∈ s.as_array.getD [], v ∈ items_of a.target "scope" else a.target.lookup "scope" = some s) ↔ q) :
          ScopeKnown no_overwrite frag a.target ↔ q := by
        rw [← h, ScopeKnown, hnew]
        exact ⟨fun h => h s rfl, fun h t ht => by cases ht; exact h⟩
      dsimp only
      by_cases hunion : ((a.target.lookup "scope").isSome && no_overwrite) = true
      · have hboth : no_overwrite = true ∧ (a.target.lookup "scope").isSome = true := by
          rw [Bool.and_eq_true] at hunion
          exact hunion.symm
        have hiff := hknown (Iff.of_eq (if_pos hboth))
        rw [if_pos hunion]
        split_ifs with hlt
        · rw [union_values_grows] at hlt
          refine .write ?_ (fun h => hlt (h s rfl).2) (by simp)
          exact ⟨fun h => absurd h (lookup_ne_union hlt), fun h => absurd (hiff.mp h) hlt⟩
        · rw [union_values_grows, not_not] at hlt
          refine .stay (hiff.mpr hlt) ?_
          rintro _ ⟨⟩
          exact ⟨hboth, hlt⟩
      · have hnot : ¬ (no_overwrite = true ∧ (a.target.lookup "scope").isSome = true) := by
          rw [Bool.and_eq_true] at hunion
          exact fun h => hunion h.symm
        rw [if_neg hunion]
        refine .write ?_ (fun h => hnot (h s rfl).1) (by simp)
        rw [hknown (Iff.of_eq (if_neg hnot))]
        exact eq_comm

/-- A fold that writes one member a step: what a member has become, and whether anything is booked. -/
theorem foldl_told {f : Appended → String × Value → Appended} (g : String → Option Value → Value → Option Value)
    (told : String → Option Value → Value → Bool) (hsort : ∀ a p, Sorted a.target → Sorted (f a p).target)
    (hf : ∀ a p k, (f a p).target.lookup k = if k = p.1 then g k (a.target.lookup k) p.2 else a.target.lookup k)
    (ht : ∀ a p, (f a p).updated = [] ↔ a.updated = [] ∧ told p.1 (a.target.lookup p.1) p.2 = false)
    (hs : Sorted frag) (a : Appended) :
    (Sorted a.target → Sorted (frag.foldl f a).target) ∧
      (∀ k, (frag.foldl f a).target.lookup k = (frag.lookup k).elim (a.target.lookup k) (g k (a.target.lookup k))) ∧
      ((frag.foldl f a).updated = [] ↔
        a.updated = [] ∧ ∀ k v, frag.lookup k = some v → told k (a.target.lookup k) v = false) := by
  induction frag generalizing a with
  | nil => exact ⟨id, fun _ => rfl, ⟨fun h => ⟨h, fun _ _ h => by cases h⟩, And.left⟩⟩
  | cons p frag ih =>
      obtain ⟨hlt, hs⟩ := sorted_cons.mp hs
      obtain ⟨hsorted, hlookup, hupdated⟩ := ih hs (f a p)
      have hp : frag.lookup p.1 = none := lookup_eq_none_of_lt hlt
      refine ⟨fun h => hsorted (hsort a p h), fun k => ?_, ?_⟩
      · rw [List.foldl_cons, hlookup, hf, lookup_cons]
        by_cases hk : k = p.1
        · rw [if_pos hk, if_pos hk, hk, hp]
          rfl
        · rw [if_neg hk, if_neg hk]
      · rw [List.foldl_cons, hupdated, ht, and_assoc]
        apply and_congr_right
        intro _
        constructor
        · rintro ⟨hself, hrest⟩ k v hv
          rw [lookup_cons] at hv
          by_cases hk : k = p.1
          · rw [if_pos hk, Option.some.injEq] at hv
            rw [hk, ← hv]
            exact hself
          · rw [if_neg hk] at hv
            have hlater := hrest k v hv
            rwa [hf, if_neg hk] at hlater
        · intro h
          refine ⟨h p.1 p.2 (by rw [lookup_cons, if_pos rfl]), fun k v hv => ?_⟩
          have hk : k ≠ p.1 := by
            rintro rfl
            rw [hp] at hv
            cases hv
          rw [hf, if_neg hk]
          exact h k v (by rw [lookup_cons, if_neg hk, hv])

end Stages

section Update

variable {ts : String} {frag doc : Map}

theorem lookup_set (k l : String) (v : Option Value) (m : Map) : (set k v m).lookup l = if l = k then v else m.lookup l := by
  rw [set]
  cases v with
  | none =>
      rw [Option.elim_none, lookup_erase]
  | some v => rw [Option.elim_some, lookup_insert]

theorem sorted_set (k : String) (v : Option Value) {m : Map} (hm : Sorted m) : Sorted (set k v m) := by
  cases v with
  | none => exact sorted_erase k hm
  | some v => exact sorted_insert k v hm

def update_member (ts k : String) (cur : Option Value) (v : Value) : Option Value :=
  if is_fragment_meta k then cur else update_instances cur (stamp_instances ts v)

theorem update_attr_ok (ts : String) (a : Appended) (p : String × Value) :
    (Sorted a.target → Sorted (update_attr ts a p).target) ∧
      (∀ k, (update_attr ts a p).target.lookup k =
        if k = p.1 then update_member ts k (a.target.lookup k) p.2 else a.target.lookup k) ∧
      ((update_attr ts a p).updated = [] ↔ a.updated = [] ∧ (!is_fragment_meta p.1) = false) := by
  rw [update_attr]
  cases hmeta : is_fragment_meta p.1 with
  | true =>
      refine ⟨id, fun k => ?_, by simp⟩
      rw [if_pos rfl]
      split_ifs with hk
      · rw [hk, update_member, if_pos hmeta]
      · rfl
  | false =>
      refine ⟨sorted_set _ _, fun k => ?_, by simp⟩
      rw [if_neg Bool.false_ne_true, lookup_set]
      split_ifs with hk
      · rw [hk, update_member, hmeta, if_neg Bool.false_ne_true]
      · rfl

def append_member (no_overwrite : Bool) (ts k : String) (cur : Option Value) (v : Value) : Option Value :=
  if is_fragment_meta k then cur
  else match cur with
    | none => some (stamp_instances ts v)
    | some existing => some (merge_instance_sets existing (stamp_instances ts v) no_overwrite).1

def append_told (no_overwrite : Bool) (ts k : String) (cur : Option Value) (v : Value) : Bool :=
  if is_fragment_meta k then false
  else match cur with
    | none => true
    | some existing => (merge_instance_sets existing (stamp_instances ts v) no_overwrite).2

theorem append_attr_ok (no_overwrite : Bool) (ts : String) (a : Appended) (p : String × Value) :
    (Sorted a.target → Sorted (append_attr no_overwrite ts a p).target) ∧
      (∀ k, (append_attr no_overwrite ts a p).target.lookup k =
        if k = p.1 then append_member no_overwrite ts k (a.target.lookup k) p.2 else a.target.lookup k) ∧
      ((append_attr no_overwrite ts a p).updated = [] ↔
        a.updated = [] ∧ append_told no_overwrite ts p.1 (a.target.lookup p.1) p.2 = false) := by
  have hmember {k : String} (hk : k = p.1) (hmeta : is_fragment_meta p.1 = false) :
      append_member no_overwrite ts k (a.target.lookup k) p.2 = match a.target.lookup p.1 with
        | none => some (stamp_instances ts p.2)
        | some existing => some (merge_instance_sets existing (stamp_instances ts p.2) no_overwrite).1 := by
    rw [hk, append_member.eq_def, hmeta]
    rfl
  have htold (hmeta : is_fragment_meta p.1 = false) :
      append_told no_overwrite ts p.1 (a.target.lookup p.1) p.2 = match a.target.lookup p.1 with
        | none => true
        | some existing => (merge_instance_sets existing (stamp_instances ts p.2) no_overwrite).2 := by
    rw [append_told.eq_def, hmeta]
    rfl
  rw [append_attr]
  cases hmeta : is_fragment_meta p.1 with
  | true =>
      refine ⟨id, fun k => ?_, ?_⟩
      · rw [if_pos rfl]
        split_ifs with hk
        · rw [hk, append_member.eq_def, if_pos hmeta]
        · rfl
      · rw [append_told.eq_def, if_pos hmeta]
        simp
  | false =>
      rw [if_neg Bool.false_ne_true, htold hmeta]
      cases hcur : a.target.lookup p.1 with
      | none =>
          refine ⟨sorted_insert _ _, fun k => ?_, by simp⟩
          rw [lookup_insert]
          split_ifs with hk
          · rw [hmember hk hmeta, hcur]
          · rfl
      | some existing =>
          have htarget {k : String} : (insert p.1 (merge_instance_sets existing (stamp_instances ts p.2) no_overwrite).1
              a.target).lookup k = if k = p.1 then append_member no_overwrite ts k (a.target.lookup k) p.2
                else a.target.lookup k := by
            rw [lookup_insert]
            split_ifs with hk
            · rw [hmember hk hmeta, hcur]
            · rfl
          dsimp only
          cases hflag : (merge_instance_sets existing (stamp_instances ts p.2) no_overwrite).2 with
          | true => exact ⟨sorted_insert _ _, fun k => htarget, by simp⟩
          | false => exact ⟨sorted_insert _ _, fun k => htarget, by simp⟩

end Update

section Applied

variable {no_overwrite : Bool} {ts : String} {frag doc : Map} {known quiet : Prop} {expires : Option Value} {a : Appended}

/-- A fragment written to an entity, before the entity is stamped: whether the scope stayed,
what expiry it has, and whether nothing was booked. -/
structure Applied (no_overwrite : Bool) (ts : String) (frag doc : Map) (known quiet : Prop) (expires : Option Value)
    (a : Appended) : Prop where
  merged : Merged no_overwrite ts frag doc a.target
  fixed : ∀ k ∈ ["id", "createdAt", "modifiedAt", "deletedAt"], a.target.lookup k = doc.lookup k
  types : a.target.lookup "type" = doc.lookup "type" ↔ TypesKnown frag doc
  scope : a.target.lookup "scope" = doc.lookup "scope" ↔ known
  expires : a.target.lookup "expiresAt" = expires
  told : a.updated = [] ↔ quiet

/-- An entity to which something is booked is stamped. -/
def finished (ts : String) (a : Appended) : Map :=
  if a.updated = [] then a.target else insert "modifiedAt" (.string ts) a.target

theorem lookup_finished {k : String} (hk : k ≠ "modifiedAt") : (finished ts a).lookup k = a.target.lookup k := by
  rw [finished]
  split_ifs
  · rfl
  · rw [lookup_insert, if_neg hk]

theorem not_meta_ne {k l : String} (hk : k ∉ META) (hl : l ∈ META) : k ≠ l := by
  rintro rfl
  exact hk hl

theorem Applied.finish (h : Applied no_overwrite ts frag doc known quiet expires a) :
    Merged no_overwrite ts frag doc (finished ts a) where
  sorted := by
    rw [finished]
    split_ifs
    · exact h.merged.sorted
    · exact sorted_insert _ _ h.merged.sorted
  expires v hv := by
    rw [lookup_finished (by decide)] at hv
    exact h.merged.expires v hv
  attrs k hk := by rw [lookup_finished (not_meta_ne hk (by decide)), h.merged.attrs k hk]

theorem meta_cases {k : String} (hk : k ∈ META) :
    k ∈ ["id", "createdAt", "modifiedAt", "deletedAt"] ∨ k = "type" ∨ k = "scope" ∨ k = "expiresAt" := by
  simp only [META, List.mem_cons, List.not_mem_nil, or_false] at hk ⊢
  tauto

/-- When a write that leaves attributes, types and scope as they are does not leave the entity. -/
theorem Applied.still {opts : ExpandOpts} (h : Applied no_overwrite ts frag doc known quiet expires a)
    (hf : Fragment opts frag) (hd : Formed doc) : (Unchanged doc (finished ts a) → finished ts a = doc) ↔
      ¬ (TypesKnown frag doc ∧ known ∧ AttrsSettled no_overwrite ts frag doc ∧
        (expires ≠ doc.lookup "expiresAt" ∨ ¬ quiet ∧ Unstamped ts doc)) := by
  have hunchanged : Unchanged doc (finished ts a) ↔
      TypesKnown frag doc ∧ known ∧ AttrsSettled no_overwrite ts frag doc := by
    rw [← h.types, ← h.scope, ← h.finish.unchanged hf hd]
    constructor
    · rintro ⟨hattrs, htypes, hscope⟩
      rw [lookup_finished (by decide)] at htypes hscope
      exact ⟨htypes, hscope, hattrs⟩
    · rintro ⟨htypes, hscope, hattrs⟩
      refine ⟨hattrs, ?_, ?_⟩
      · rw [lookup_finished (by decide), htypes]
      · rw [lookup_finished (by decide), hscope]
  have hsame (hu : Unchanged doc (finished ts a)) : finished ts a = doc ↔
      expires = doc.lookup "expiresAt" ∧ (quiet ∨ ¬ Unstamped ts doc) := by
    have htarget (hexp : expires = doc.lookup "expiresAt") {k : String} (hk : k ≠ "modifiedAt") :
        (finished ts a).lookup k = doc.lookup k := by
      by_cases hmeta : k ∈ META
      · rcases meta_cases hmeta with hfix | rfl | rfl | rfl
        · rw [lookup_finished hk, h.fixed k hfix]
        · exact hu.types
        · exact hu.scope
        · rw [lookup_finished hk, h.expires, hexp]
      · exact hu.attrs k hmeta
    constructor
    · intro heq
      refine ⟨?_, ?_⟩
      · rw [← h.expires, ← lookup_finished (by decide), heq]
      · by_contra hnot
        rw [not_or, not_not, ← h.told] at hnot
        apply hnot.2
        rw [← heq, finished, if_neg hnot.1, lookup_insert, if_pos rfl]
    · rintro ⟨hexp, hstamp⟩
      refine SortedMap.ext h.finish.sorted hd.sorted fun k => ?_
      by_cases hk : k = "modifiedAt"
      · rw [hk, finished]
        split_ifs with hquiet
        · exact h.fixed "modifiedAt" (by decide)
        · have hstamped := hstamp.resolve_left (fun hq => hquiet (h.told.mpr hq))
          rw [lookup_insert, if_pos rfl]
          exact (not_not.mp hstamped).symm
      · exact htarget hexp hk
  constructor
  · rintro hstill ⟨htypes, hknown, hattrs, hmoved⟩
    have hu := hunchanged.mpr ⟨htypes, hknown, hattrs⟩
    obtain ⟨hexp, hstamp⟩ := (hsame hu).mp (hstill hu)
    rcases hmoved with hne | ⟨hloud, hun⟩
    · exact hne hexp
    · exact hstamp.elim hloud (fun h => h hun)
  · intro hnot hu
    obtain ⟨htypes, hknown, hattrs⟩ := hunchanged.mp hu
    rw [hsame hu]
    by_contra hmoved
    apply hnot
    refine ⟨htypes, hknown, hattrs, ?_⟩
    tauto

end Applied

section Fragments

variable {no_overwrite : Bool} {ts : String} {frag doc : Map} {opts : ExpandOpts}

theorem meta_of_fragment_meta {k : String} (h : is_fragment_meta k = true) : k ∈ META := by
  have hsub : ∀ k ∈ ["id", "type", "scope", "createdAt", "modifiedAt"], k ∈ META := by decide
  exact hsub k (List.contains_iff_mem.mp h)

theorem not_fragment_meta {k : String} (h : k ∉ META) : is_fragment_meta k = false := by
  cases hk : is_fragment_meta k with
  | true => exact absurd (meta_of_fragment_meta hk) h
  | false => rfl

/-- What a fragment carries beside its attributes. -/
theorem fragment_meta_or {k : String} {v : Value} (hf : Fragment opts frag) (hv : frag.lookup k = some v)
    (hmeta : is_fragment_meta k = false) : k = "expiresAt" ∨ k ∉ META := by
  by_cases hent : k ∈ ENTITY_MEMBERS
  · left
    have hsub : ∀ k ∈ ENTITY_MEMBERS, is_fragment_meta k = false → k = "expiresAt" := by decide
    exact hsub k hent hmeta
  · exact .inr (hf.attrs k v hent hv).1

theorem expires_array {v : Value} (h : v.is_string = true) : ∃ s, v = .string s := by
  cases v with
  | string s => exact ⟨s, rfl⟩
  | null | bool _ | number _ | array _ | object _ => cases h

theorem lookup_deletedAt (hf : Fragment opts frag) : frag.lookup "deletedAt" = none := by
  cases hv : frag.lookup "deletedAt" with
  | none => rfl
  | some v => exact absurd (by decide) (hf.attrs "deletedAt" v (by decide) hv).1

theorem items_of_none {k : String} (h : frag.lookup k = none) : items_of frag k = [] := by
  rw [items_of, h]
  rfl

theorem written_nil (cur : List Value) : written no_overwrite ts [] cur = cur := rfl

/-- The instances an update leaves of an attribute. -/
theorem update_instances_eq {inc cur : List Value} (hinc : (inc.map dataset_id).Nodup) :
    update_instances (arr cur) (stamp_instances ts (.array inc)) = arr (written false ts inc cur) := by
  rw [arr]
  split_ifs with hcur
  · have hfresh : written false ts inc [] = (stamp_items ts inc).filter (fun i => !is_deletion_instance i) := by
      rw [written, alter_all_fresh (settle_keyed false) ((keys_stamped ts inc).symm ▸ hinc) (fun _ _ h => by cases h),
        List.nil_append, ← List.filterMap_eq_filter]
      apply List.filterMap_congr
      intro i _
      rw [settle.eq_def, Option.guard]
      cases is_deletion_instance i <;> rfl
    have hupdate : update_instances none (stamp_instances ts (.array inc)) =
        let live := (stamp_items ts inc).filter (fun i => !is_deletion_instance i)
        if live.isEmpty then none else some (.array live) := rfl
    rw [hcur, hfresh, hupdate, arr]
    simp only [List.isEmpty_iff]
  · have hupdate : update_instances (some (.array cur)) (stamp_instances ts (.array inc)) =
        let merged := (merge_instance_sets (.array cur) (stamp_instances ts (.array inc)) false).1
        if merged = .array [] then none else some merged := rfl
    rw [hupdate, merged_items, arr]
    simp only [Value.array.injEq]

/-- Where no instance deletes, an append leaves instances. -/
theorem written_ne_nil {inc cur : List Value} (hlive : ∀ i ∈ inc, is_deletion_instance i = false) (hcur : cur ≠ [])
    (hinc : (inc.map dataset_id).Nodup) (hcurs : (cur.map dataset_id).Nodup) : written no_overwrite ts inc cur ≠ [] := by
  obtain ⟨ci, hci⟩ := List.exists_mem_of_ne_nil cur hcur
  have hat := @at_key_written no_overwrite ts inc cur hinc hcurs (dataset_id ci)
  intro hnil
  rw [hnil, at_key_mem hcurs hci] at hat
  cases hni : at_key dataset_id (dataset_id ci) (stamp_items ts inc) with
  | none =>
      rw [hni] at hat
      cases hat
  | some ni =>
      have hmem := (at_key_some hni).1
      rw [stamp_items_eq] at hmem
      obtain ⟨i, hi, rfl⟩ := List.mem_map.mp hmem
      rw [hni, Option.elim_some, settle.eq_def, live_stamped, hlive i hi, if_neg Bool.false_ne_true] at hat
      cases no_overwrite <;> cases hat

theorem append_instances_eq {inc cur : List Value} {k : String} (hk : k ∉ META)
    (hlive : ∀ i ∈ inc, is_deletion_instance i = false) (hne : inc ≠ []) (hinc : (inc.map dataset_id).Nodup)
    (hcurs : (cur.map dataset_id).Nodup) :
    append_member no_overwrite ts k (arr cur) (.array inc) = arr (written no_overwrite ts inc cur) := by
  rw [append_member.eq_def, not_fragment_meta hk, if_neg Bool.false_ne_true, arr]
  by_cases hcur : cur = []
  · have hfresh : written no_overwrite ts inc [] = stamp_items ts inc := by
      rw [written, alter_all_fresh (settle_keyed no_overwrite) ((keys_stamped ts inc).symm ▸ hinc)
        (fun _ _ h => by cases h), List.nil_append]
      have hsome : ∀ i ∈ stamp_items ts inc, settle no_overwrite i none = some i := by
        rw [stamp_items_eq]
        intro i hi
        obtain ⟨j, hj, rfl⟩ := List.mem_map.mp hi
        rw [settle.eq_def, live_stamped, hlive j hj]
        rfl
      rw [List.filterMap_congr hsome, List.filterMap_some]
    have hstamped : stamp_items ts inc ≠ [] := by
      rw [stamp_items_eq, Ne, List.map_eq_nil_iff]
      exact hne
    rw [hcur, if_pos rfl, hfresh, arr, if_neg hstamped]
    rfl
  · rw [if_neg hcur, arr, if_neg (written_ne_nil hlive hcur hinc hcurs)]
    exact congrArg some (merged_items no_overwrite ts inc cur)

/-- An entity with the types and the scope of a fragment, its attributes not yet. -/
structure Staged (frag doc : Map) (known quiet : Prop) (a : Appended) : Prop where
  sorted : Sorted a.target
  other : ∀ k, k ≠ "type" → k ≠ "scope" → a.target.lookup k = doc.lookup k
  types : a.target.lookup "type" = doc.lookup "type" ↔ TypesKnown frag doc
  scope : a.target.lookup "scope" = doc.lookup "scope" ↔ known
  told : a.updated = [] ↔ TypesKnown frag doc ∧ quiet

theorem Staged.of_stage {known quiet : Prop} {a : Appended} (hd : Formed doc)
    (h : Stage "scope" known quiet (append_types frag ⟨doc, [], []⟩) a) : Staged frag doc known quiet a := by
  have htypes := append_types_stage frag ⟨doc, [], []⟩
  refine ⟨h.sorted (htypes.sorted hd.sorted), fun k ht hs => ?_, ?_, ?_, ?_⟩
  · rw [h.other k hs, htypes.other k ht]
  · rw [h.other "type" (by decide)]
    exact htypes.same
  · rw [← h.same, htypes.other "scope" (by decide)]
  · rw [h.told, htypes.told]
    exact ⟨fun hp => ⟨hp.1.2, hp.2⟩, fun hp => ⟨⟨rfl, hp.1⟩, hp.2⟩⟩

theorem update_staged (frag : Map) (hd : Formed doc) : Staged frag doc (ScopeSame frag doc)
    (¬ ((frag.lookup "scope").isSome = true ∧ (doc.lookup "scope").isSome = true))
    (update_scope frag (append_types frag ⟨doc, [], []⟩)) := by
  have hscope := update_scope_stage frag (append_types frag ⟨doc, [], []⟩)
  rw [ScopeSame, (append_types_stage frag ⟨doc, [], []⟩).other "scope" (by decide)] at hscope
  exact .of_stage hd hscope

/-- Nothing of the scope is booked. -/
def ScopeQuiet (no_overwrite : Bool) (frag doc : Map) : Prop :=
  ∀ s, frag.lookup "scope" = some s → (no_overwrite = true ∧ (doc.lookup "scope").isSome = true) ∧
    ∀ v ∈ s.as_array.getD [], v ∈ items_of doc "scope"

theorem append_staged (no_overwrite : Bool) (frag : Map) (hd : Formed doc) :
    Staged frag doc (ScopeKnown no_overwrite frag doc) (ScopeQuiet no_overwrite frag doc)
      (append_scope no_overwrite frag (append_types frag ⟨doc, [], []⟩)) := by
  have hscope := append_scope_stage no_overwrite frag (append_types frag ⟨doc, [], []⟩)
  rw [ScopeKnown, items_of, (append_types_stage frag ⟨doc, [], []⟩).other "scope" (by decide)] at hscope
  exact .of_stage hd hscope

/-- The attributes written to a staged entity, member by member. -/
theorem Staged.applied {known quiet : Prop} {expires : Option Value} {a a' : Appended}
    (g : String → Option Value → Value → Option Value) (told : String → Option Value → Value → Bool)
    (h : Staged frag doc known quiet a) (hf : Fragment opts frag) (hd : Formed doc) (hsorted : Sorted a'.target)
    (hlookup : ∀ k, a'.target.lookup k = (frag.lookup k).elim (a.target.lookup k) (g k (a.target.lookup k)))
    (htold : a'.updated = [] ↔ a.updated = [] ∧ ∀ k v, frag.lookup k = some v → told k (a.target.lookup k) v = false)
    (hmeta : ∀ k cur v, is_fragment_meta k = true → g k cur v = cur ∧ told k cur v = false)
    (hattr : ∀ k inc, k ∉ META → Instances inc → (∀ i ∈ inc, Expansion opts i) →
      g k (arr (items_of doc k)) (.array inc) = arr (written no_overwrite ts inc (items_of doc k)))
    (hexpires : (frag.lookup "expiresAt").elim (doc.lookup "expiresAt") (g "expiresAt" (doc.lookup "expiresAt")) = expires)
    (hstring : ∀ v, expires = some v → v.is_string = true) :
    Applied no_overwrite ts frag doc known
      ((TypesKnown frag doc ∧ quiet) ∧ ∀ k v, frag.lookup k = some v → told k (doc.lookup k) v = false) expires a' := by
  have hfixed {k : String} (hk : is_fragment_meta k = true) : a'.target.lookup k = a.target.lookup k := by
    rw [hlookup]
    cases hv : frag.lookup k with
    | none => rfl
    | some v => exact (hmeta k _ v hk).1
  have hexp : a'.target.lookup "expiresAt" = expires := by
    rw [hlookup, h.other "expiresAt" (by decide) (by decide)]
    exact hexpires
  refine ⟨⟨hsorted, fun v hv => hstring v (hexp ▸ hv), fun k hk => ?_⟩, fun k hk => ?_, ?_, ?_, hexp, ?_⟩
  · rw [hlookup, h.other k (not_meta_ne hk (by decide)) (not_meta_ne hk (by decide)), lookup_of_formed hd hk]
    cases hv : frag.lookup k with
    | none => rw [items_of_none hv, written_nil]; rfl
    | some v =>
        have hent : k ∉ ENTITY_MEMBERS := fun hmem => hk ((show ∀ k ∈ ENTITY_MEMBERS, k ∈ META by decide) k hmem)
        obtain ⟨-, items, rfl, hitems, hall⟩ := hf.attrs k v hent hv
        have hitems' : items_of frag k = items := by rw [items_of, hv]; rfl
        rw [hitems']
        exact hattr k items hk hitems hall
  · simp only [List.mem_cons, List.not_mem_nil, or_false] at hk
    rcases hk with rfl | rfl | rfl | rfl
    · rw [hfixed (by decide), h.other _ (by decide) (by decide)]
    · rw [hfixed (by decide), h.other _ (by decide) (by decide)]
    · rw [hfixed (by decide), h.other _ (by decide) (by decide)]
    · rw [hlookup, lookup_deletedAt hf]
      exact h.other _ (by decide) (by decide)
  · rw [hfixed (by decide)]
    exact h.types
  · rw [hfixed (by decide)]
    exact h.scope
  · rw [htold, h.told]
    apply and_congr_right
    intro _
    have hsame {k : String} {v : Value} : told k (a.target.lookup k) v = false ↔ told k (doc.lookup k) v = false := by
      by_cases hk : is_fragment_meta k = true
      · rw [(hmeta k _ v hk).2, (hmeta k _ v hk).2]
      · have ht : k ≠ "type" := by rintro rfl; exact hk (by decide)
        have hs : k ≠ "scope" := by rintro rfl; exact hk (by decide)
        rw [h.other k ht hs]
    exact ⟨fun hall k v hv => hsame.mp (hall k v hv), fun hall k v hv => hsame.mpr (hall k v hv)⟩

theorem update_applied (ts : String) (hf : Fragment opts frag) (hd : Formed doc) :
    Applied false ts frag doc (ScopeSame frag doc)
      ((TypesKnown frag doc ∧ ¬ ((frag.lookup "scope").isSome = true ∧ (doc.lookup "scope").isSome = true)) ∧
        ∀ k v, frag.lookup k = some v → (!is_fragment_meta k) = false) (doc.lookup "expiresAt")
      (frag.foldl (update_attr ts) (update_scope frag (append_types frag ⟨doc, [], []⟩))) := by
  have hstaged := update_staged frag hd
  obtain ⟨hsorted, hlookup, htold⟩ := foldl_told (update_member ts) (fun k _ _ => !is_fragment_meta k)
    (fun a p => (update_attr_ok ts a p).1) (fun a p => (update_attr_ok ts a p).2.1)
    (fun a p => (update_attr_ok ts a p).2.2) hf.sorted (update_scope frag (append_types frag ⟨doc, [], []⟩))
  refine hstaged.applied (update_member ts) (fun k _ _ => !is_fragment_meta k) hf hd (hsorted hstaged.sorted) hlookup htold
    ?_ ?_ ?_ hd.expires
  · intro k cur v hk
    exact ⟨if_pos hk, by rw [hk]; rfl⟩
  · intro k inc hk hinc _
    rw [update_member, not_fragment_meta hk, if_neg Bool.false_ne_true, update_instances_eq hinc.nodup]
  · cases hv : frag.lookup "expiresAt" with
    | none => rfl
    | some v =>
        obtain ⟨s, rfl⟩ := expires_array (hf.expires v hv)
        rw [Option.elim_some, update_member, if_neg (by decide)]
        cases hcur : doc.lookup "expiresAt" with
        | none => rfl
        | some w =>
            obtain ⟨s', rfl⟩ := expires_array (hd.expires w hcur)
            rfl

theorem append_applied (ts : String) (hf : Fragment opts frag) (hallow : opts.allow_null = false) (hd : Formed doc) :
    Applied no_overwrite ts frag doc (ScopeKnown no_overwrite frag doc)
      ((TypesKnown frag doc ∧ ScopeQuiet no_overwrite frag doc) ∧
        ∀ k v, frag.lookup k = some v → append_told no_overwrite ts k (doc.lookup k) v = false)
      ((doc.lookup "expiresAt").or (frag.lookup "expiresAt"))
      (frag.foldl (append_attr no_overwrite ts) (append_scope no_overwrite frag (append_types frag ⟨doc, [], []⟩))) := by
  have hstaged := append_staged no_overwrite frag hd
  obtain ⟨hsorted, hlookup, htold⟩ := foldl_told (append_member no_overwrite ts)
    (append_told no_overwrite ts) (fun a p => (append_attr_ok no_overwrite ts a p).1)
    (fun a p => (append_attr_ok no_overwrite ts a p).2.1) (fun a p => (append_attr_ok no_overwrite ts a p).2.2) hf.sorted
    (append_scope no_overwrite frag (append_types frag ⟨doc, [], []⟩))
  refine hstaged.applied (append_member no_overwrite ts) (append_told no_overwrite ts) hf hd (hsorted hstaged.sorted)
    hlookup htold ?_ ?_ ?_ ?_
  · intro k cur v hk
    exact ⟨by rw [append_member.eq_def, if_pos hk], by rw [append_told.eq_def, if_pos hk]⟩
  · intro k inc hk hinc hall
    exact append_instances_eq hk (fun i hi => (hall i hi).live hallow) hinc.ne_nil hinc.nodup (instances_of_formed hd hk).2
  · cases hv : frag.lookup "expiresAt" with
    | none => rw [Option.or_none]; rfl
    | some v =>
        obtain ⟨s, rfl⟩ := expires_array (hf.expires v hv)
        rw [Option.elim_some, append_member.eq_def, if_neg (by decide)]
        cases hcur : doc.lookup "expiresAt" with
        | none => rfl
        | some w =>
            obtain ⟨s', rfl⟩ := expires_array (hd.expires w hcur)
            rfl
  · intro v hv
    cases hcur : doc.lookup "expiresAt" with
    | none =>
        rw [hcur, Option.none_or] at hv
        exact hf.expires v hv
    | some w =>
        rw [hcur, Option.some_or, ← hcur] at hv
        exact hd.expires v hv

theorem update_target (ts : String) (frag doc : Map) : (update_fragment ts frag doc).target = finished ts
    (frag.foldl (update_attr ts) (update_scope frag (append_types frag ⟨doc, [], []⟩))) := by
  rw [update_fragment, finished]
  split_ifs <;> rfl

theorem append_target (no_overwrite : Bool) (ts : String) (frag doc : Map) :
    (append_fragment no_overwrite ts frag doc).target = finished ts (frag.foldl (append_attr no_overwrite ts)
      (append_scope no_overwrite frag (append_types frag ⟨doc, [], []⟩))) := by
  rw [append_fragment, finished]
  split_ifs <;> rfl

theorem update_sound (ts : String) (hf : Fragment opts frag) (hd : Formed doc) :
    Sound (.Update frag) doc (update_fragment ts frag doc).target := by
  have hmerged := (update_applied ts hf hd).finish
  rw [update_target]
  exact ⟨hmerged.formed hf hd, fun k hk ds hds => hmerged.frame hf hd hk hds,
    fun k hk ds ci ci' hci hci' c hc => hmerged.created hf hd hk hci hci' hc, False.elim⟩

theorem append_sound (ts : String) (hf : Fragment opts frag) (hallow : opts.allow_null = false) (hd : Formed doc) :
    Sound (.Append no_overwrite frag) doc (append_fragment no_overwrite ts frag doc).target := by
  have hmerged := (@append_applied no_overwrite frag doc opts ts hf hallow hd).finish
  rw [append_target]
  refine ⟨hmerged.formed hf hd, fun k hk ds hds => hmerged.frame hf hd hk hds,
    fun k hk ds ci ci' hci hci' c hc => hmerged.created hf hd hk hci hci' hc, ?_⟩
  rintro rfl k hk ds ci hci
  exact hmerged.kept hf hallow hd hk hci

/-- An update is lawful exactly where it is not needless. -/
theorem update_lawful (hf : Fragment opts frag) (hd : Formed doc) :
    Lawful (.Update frag) doc (update_fragment ts frag doc).target ↔ ¬ Edit.Needless ts doc (.Update frag) := by
  have happlied := update_applied ts hf hd
  have hsound := update_sound ts hf hd
  rw [update_target] at hsound ⊢
  have hneedless : Edit.Needless ts doc (.Update frag) ↔ TypesKnown frag doc ∧ ScopeSame frag doc ∧
      AttrsSettled false ts frag doc ∧ (doc.lookup "expiresAt" ≠ doc.lookup "expiresAt" ∨
        ¬ ((TypesKnown frag doc ∧ ¬ ((frag.lookup "scope").isSome = true ∧ (doc.lookup "scope").isSome = true)) ∧
          ∀ k v, frag.lookup k = some v → (!is_fragment_meta k) = false) ∧ Unstamped ts doc) := by
    have hbooked : (∃ k, is_fragment_meta k = false ∧ (frag.lookup k).isSome = true) ↔
        ¬ ∀ k v, frag.lookup k = some v → (!is_fragment_meta k) = false := by
      simp only [Option.isSome_iff_exists, Bool.not_eq_false', not_forall, Bool.not_eq_true, exists_prop]
      constructor
      · rintro ⟨k, hk, v, hv⟩
        exact ⟨k, v, hv, hk⟩
      · rintro ⟨k, v, hv, hk⟩
        exact ⟨k, hk, v, hv⟩
    rw [Edit.Needless, hbooked]
    rw [← ScopeSame]
    tauto
  rw [hneedless, ← happlied.still hf hd]
  exact ⟨fun h => h.still, fun hstill => ⟨hsound, hstill⟩⟩

theorem settled_append {inc cur : List Value} (hlive : ∀ i ∈ inc, is_deletion_instance i = false)
    (h : ∀ i ∈ inc, Settled no_overwrite ts cur i) :
    ∀ i ∈ inc, (at_key dataset_id (dataset_id i) cur).isSome = true := by
  intro i hi
  have hsettled := h i hi
  rw [Settled, hlive i hi, if_neg Bool.false_ne_true] at hsettled
  obtain ⟨ci, hci, -⟩ := hsettled
  rw [hci]
  rfl

/-- What an append books of an attribute that it does not change. -/
theorem append_told_settled {k : String} {v : Value} (hf : Fragment opts frag) (hallow : opts.allow_null = false)
    (hd : Formed doc) (hsettled : AttrsSettled no_overwrite ts frag doc) (hk : k ∉ META) (hv : frag.lookup k = some v) :
    append_told no_overwrite ts k (doc.lookup k) v = !no_overwrite := by
  have hent : k ∉ ENTITY_MEMBERS := fun hmem => hk ((show ∀ k ∈ ENTITY_MEMBERS, k ∈ META by decide) k hmem)
  obtain ⟨-, inc, rfl, hinc, hall⟩ := hf.attrs k v hent hv
  have hitems : items_of frag k = inc := by rw [items_of, hv]; rfl
  have hlive : ∀ i ∈ inc, is_deletion_instance i = false := fun i hi => (hall i hi).live hallow
  have hmatch := settled_append hlive (hitems ▸ hsettled k hk)
  obtain ⟨i, hi⟩ := List.exists_mem_of_ne_nil inc hinc.ne_nil
  have hcur : items_of doc k ≠ [] := by
    intro hnil
    have hsome := hmatch i hi
    rw [hnil] at hsome
    cases hsome
  rw [append_told.eq_def, not_fragment_meta hk, if_neg Bool.false_ne_true, lookup_of_formed hd hk, arr, if_neg hcur]
  cases no_overwrite with
  | true => exact congrArg Prod.snd (merged_kept hlive hmatch)
  | false => exact merged_told hinc.ne_nil hlive

/-- An append is lawful exactly where it is not needless. -/
theorem append_lawful (hf : Fragment opts frag) (hallow : opts.allow_null = false) (hd : Formed doc) :
    Lawful (.Append no_overwrite frag) doc (append_fragment no_overwrite ts frag doc).target ↔
      ¬ Edit.Needless ts doc (.Append no_overwrite frag) := by
  have happlied := @append_applied no_overwrite frag doc opts ts hf hallow hd
  have hsound := @append_sound no_overwrite frag doc opts ts hf hallow hd
  rw [append_target] at hsound ⊢
  have hneedless : Edit.Needless ts doc (.Append no_overwrite frag) ↔ TypesKnown frag doc ∧ ScopeKnown no_overwrite frag doc ∧
      AttrsSettled no_overwrite ts frag doc ∧
        ((doc.lookup "expiresAt").or (frag.lookup "expiresAt") ≠ doc.lookup "expiresAt" ∨
        ¬ ((TypesKnown frag doc ∧ ScopeQuiet no_overwrite frag doc) ∧
          ∀ k v, frag.lookup k = some v → append_told no_overwrite ts k (doc.lookup k) v = false) ∧ Unstamped ts doc) := by
    rw [Edit.Needless, ← ScopeKnown]
    apply and_congr_right
    intro htypes
    apply and_congr_right
    intro hknown
    apply and_congr_right
    intro hsettled
    have hexp : (doc.lookup "expiresAt").or (frag.lookup "expiresAt") ≠ doc.lookup "expiresAt" ↔
        (frag.lookup "expiresAt").isSome = true ∧ doc.lookup "expiresAt" = none := by
      cases doc.lookup "expiresAt" <;> cases frag.lookup "expiresAt" <;> simp
    have hscope : ¬ ScopeQuiet no_overwrite frag doc ↔ no_overwrite = false ∧ (frag.lookup "scope").isSome = true := by
      cases hnew : frag.lookup "scope" with
      | none => exact ⟨fun h => absurd (fun s hs => by rw [hnew] at hs; cases hs) h, fun h => by cases h.2⟩
      | some s =>
          have hs := hknown s hnew
          by_cases hboth : no_overwrite = true ∧ (doc.lookup "scope").isSome = true
          · rw [if_pos hboth] at hs
            have hquiet : ScopeQuiet no_overwrite frag doc := by
              intro t ht
              rw [hnew, Option.some.injEq] at ht
              exact ⟨hboth, ht ▸ hs⟩
            exact ⟨fun h => absurd hquiet h, fun h => by rw [hboth.1] at h; cases h.1⟩
          · rw [if_neg hboth] at hs
            have hfalse : no_overwrite = false := by
              rw [hs] at hboth
              exact Bool.eq_false_iff.mpr fun h => hboth ⟨h, rfl⟩
            exact ⟨fun _ => ⟨hfalse, rfl⟩, fun _ h => hboth (h s hnew).1⟩
    have hattrs : ((frag.lookup "expiresAt").isSome = true → doc.lookup "expiresAt" ≠ none) →
        ((¬ ∀ k v, frag.lookup k = some v → append_told no_overwrite ts k (doc.lookup k) v = false) ↔
        no_overwrite = false ∧ ∃ k, k ∉ META ∧ (frag.lookup k).isSome = true) := by
      intro hboth
      constructor
      · intro hnot
        obtain ⟨k, hnot⟩ := not_forall.mp hnot
        obtain ⟨v, hnot⟩ := not_forall.mp hnot
        obtain ⟨hv, htold⟩ := Classical.not_imp.mp hnot
        have hmeta : is_fragment_meta k = false := by
          by_contra hmeta
          rw [append_told.eq_def, if_pos (Bool.not_eq_false _ ▸ hmeta)] at htold
          exact htold rfl
        rcases fragment_meta_or hf hv hmeta with rfl | hk
        · exfalso
          apply htold
          obtain ⟨s, rfl⟩ := expires_array (hf.expires v hv)
          obtain ⟨w, hw⟩ := Option.ne_none_iff_exists'.mp (hboth (by rw [hv]; rfl))
          obtain ⟨s', rfl⟩ := expires_array (hd.expires w hw)
          rw [hw]
          rfl
        · rw [append_told_settled hf hallow hd hsettled hk hv] at htold
          refine ⟨?_, k, hk, by rw [hv]; rfl⟩
          cases no_overwrite with
          | true => exact absurd rfl htold
          | false => rfl
      · rintro ⟨rfl, k, hk, hsome⟩ hall
        obtain ⟨v, hv⟩ := Option.isSome_iff_exists.mp hsome
        have hfalse := hall k v hv
        rw [append_told_settled hf hallow hd hsettled hk hv] at hfalse
        cases hfalse
    rw [hexp]
    by_cases hmoved : (frag.lookup "expiresAt").isSome = true ∧ doc.lookup "expiresAt" = none
    · exact ⟨fun _ => .inl hmoved, fun _ => .inl hmoved⟩
    · have hattrs := hattrs (not_and.mp hmoved)
      rw [not_and_or, not_and_or, hscope, hattrs]
      apply or_congr_right
      constructor
      · rintro ⟨hover, hun, hs | hk⟩
        · exact ⟨.inl (.inr ⟨hover, hs⟩), hun⟩
        · exact ⟨.inr ⟨hover, hk⟩, hun⟩
      · rintro ⟨(hnot | ⟨hover, hs⟩) | ⟨hover, hk⟩, hun⟩
        · exact absurd htypes hnot
        · exact ⟨hover, hun, .inl hs⟩
        · exact ⟨hover, hun, .inr hk⟩
  rw [hneedless, ← happlied.still hf hd]
  exact ⟨fun h => h.still, fun hstill => ⟨hsound, hstill⟩⟩

end Fragments

end AntaresBroker.Attrs
