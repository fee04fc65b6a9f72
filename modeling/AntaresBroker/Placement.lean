import AntaresBroker.Expand
import AntaresBroker.FedReg

namespace AntaresBroker.Federation

open Fallible Json JsonLd Ql Ql.Eval Expiry SortedMap

/-- The answer of one half of a distributed operation. -/
structure Part where
  status : Nat
  detail : String
deriving DecidableEq

def conflict_part (op : String) : Part := ⟨409, "exclusive registration does not accept " ++ op⟩

/-- What becomes of one registration: it is answered for without being contacted, or forwarded to. -/
inductive Outgoing
  | answered (part : Part)
  | forwarded (reg : FedReg) (fragment : Map)
deriving DecidableEq

/-- A distributed write: the expanded part handed to the local store, and what goes out. -/
structure Split where
  local_part : Option Map
  parts : List Outgoing
deriving DecidableEq

/-- The members both helpers keep whatever the registrations are. -/
def KEPT : List String := ["id", "type", "scope"]

variable {Instant : Type} [LinearOrder Instant] (x : Expander Instant) (env : Env)

/-- The registration owns an attribute of this item. -/
def owns (r : FedReg) (obj : Map) (iri : String) : Bool :=
  r.covers_item { env with expand := x.ctx.expand_key } obj && r.covers_attr iri

/-- The members of a payload a registration covers; `none` if no attribute is among them. -/
def reduce_to_scope (obj : Map) (r : FedReg) : Option Map :=
  if !r.covers_item { env with expand := x.ctx.expand_key } obj then none
  else match r.attrs with
    | none => some (erase "@context" obj)
    | some _ =>
        let covered := fun k => r.covers_attr (x.ctx.expand_key k)
        if obj.any (fun p => p.1 ≠ "@context" && !KEPT.contains p.1 && covered p.1) then
          some (obj.filter (fun p => p.1 ≠ "@context" && (KEPT.contains p.1 || covered p.1)))
        else none

/-- The members no proxy owns, and whether an attribute is among them. -/
def strip_proxied (obj : Map) (proxies : List FedReg) : Map × Bool :=
  let left := fun k => !proxies.any (fun r => owns x env r obj (x.ctx.expand_key k))
  (obj.filter (fun p => p.1 ≠ "@context" && (KEPT.contains p.1 || left p.1)),
    obj.any (fun p => p.1 ≠ "@context" && !KEPT.contains p.1 && left p.1))

/-- The members of an expanded fragment that are no attribute of it. -/
def FRAGMENT_META : List String := ["id", "type", "scope", "createdAt", "modifiedAt"]

def attr_iris_of (fragment : Map) : List String :=
  (fragment.map Prod.fst).filter (fun k => !FRAGMENT_META.contains k)

def proxies_cover_all (regs : List FedReg) (attr_iris : List String) : Bool :=
  !regs.isEmpty && !attr_iris.isEmpty && attr_iris.all (fun a => regs.any (fun r => r.is_proxy && r.covers_attr a))

def strip_covered_expanded (fragment : Map) (regs : List FedReg) : Map :=
  fragment.filter (fun p => FRAGMENT_META.contains p.1 || !regs.any (fun r => r.is_proxy && r.covers_attr p.1))

def without_context_map (obj : Map) : Map := erase "@context" obj

/-- One answer or forward for each registration, the whole body to each it goes to. -/
def fed_attr_parts (op : String) (body : Map) (regs : List FedReg) : List Outgoing :=
  regs.map (fun r =>
    if r.supports op then .forwarded r body
    else if r.is_proxy then .answered (conflict_part op)
    else .answered ⟨0, "not forwarded: " ++ op ++ " not supported"⟩)

/-- An attribute with a common observedAt on the instances that carry none of their own. -/
def observed_instances (ts : String) (k : String) (v : Value) : Value :=
  if ENTITY_META_KEYS.contains k && k ≠ "@context" then v
  else match v with
    | .array instances => .array (instances.map (fun inst =>
        match inst with
        | .object o =>
            if is_deletion_instance inst || (o.lookup "observedAt").isSome then inst
            else .object (insert "observedAt" (.string ts) o)
        | _ => inst))
    | _ => v

def apply_common_observed_at (observed_at : Option String) (fragment : Map) : Map :=
  match observed_at with
  | none => fragment
  | some ts => fragment.map (fun p => (p.1, observed_instances ts p.1 p.2))

/-- What an attribute write of a body is called, and whether it may delete. -/
structure AttrWrite where
  allow_null : Bool
  op : String

def APPEND : AttrWrite := ⟨false, "appendAttrs"⟩

def UPDATE : AttrWrite := ⟨true, "updateEntity"⟩

def create_entity (regs : List FedReg) (obj : Map) : Except ExpandError Split :=
  (x.expand_entity obj {}).bind fun expanded =>
  if regs.isEmpty then .ok ⟨some expanded, []⟩
  else
    let refused := regs.filter (fun r => !r.supports "createEntity" && r.is_proxy)
    let fwd := (regs.filter (fun r => r.supports "createEntity")).filterMap (fun r =>
      (reduce_to_scope x env obj r).map (.forwarded r))
    let proxies := regs.filter FedReg.is_proxy
    let rest := strip_proxied x env obj proxies
    (if rest.2 || proxies.isEmpty then (x.expand_entity rest.1 {}).map some else .ok none).map fun local_exp =>
      ⟨local_exp, refused.map (fun _ => .answered (conflict_part "createEntity")) ++ fwd⟩

def MERGE_OPTS : ExpandOpts := { fragment := true, allow_null := true, merge := true }

def merge_entity (observed_at : Option String) (local_exists : Bool) (regs : List FedReg) (obj : Map) :
    Except ExpandError Split :=
  (x.expand_entity obj MERGE_OPTS).bind fun fragment =>
  if regs.isEmpty then .ok ⟨some (apply_common_observed_at observed_at fragment), []⟩
  else
    let proxies := regs.filter FedReg.is_proxy
    let rest := strip_proxied x env obj proxies
    (if (local_exists || proxies.isEmpty) && rest.2 then
        (x.expand_entity rest.1 MERGE_OPTS).map (fun frag => some (apply_common_observed_at observed_at frag))
      else .ok none).map fun local_frag =>
      ⟨local_frag, regs.flatMap (fun r =>
        if r.supports "mergeEntity" then ((reduce_to_scope x env obj r).map (.forwarded r)).toList
        else if r.is_proxy then [.answered (conflict_part "mergeEntity")]
        else [])⟩

def write_attrs (mode : AttrWrite) (regs : List FedReg) (obj : Map) : Except ExpandError Split :=
  (x.expand_entity obj { fragment := true, allow_null := mode.allow_null }).map fun fragment =>
    ⟨if proxies_cover_all regs (attr_iris_of fragment) then none else some (strip_covered_expanded fragment regs),
      fed_attr_parts mode.op (without_context_map obj) regs⟩

/-- A distributed write of an entity or of its attributes. -/
inductive Write
  | create
  | merge (observed_at : Option String) (local_exists : Bool)
  | attrs (mode : AttrWrite)

namespace Write

def op : Write → String
  | create => "createEntity"
  | merge _ _ => "mergeEntity"
  | attrs mode => mode.op

def split : Write → List FedReg → Map → Except ExpandError Split
  | create => create_entity x env
  | merge observed_at local_exists => merge_entity x env observed_at local_exists
  | attrs mode => write_attrs x mode

/-- The whole body as the store would see it. -/
def body (obj : Map) : Write → Except ExpandError Map
  | create => x.expand_entity obj {}
  | merge observed_at _ => (x.expand_entity obj MERGE_OPTS).map (apply_common_observed_at observed_at)
  | attrs mode => x.expand_entity obj { fragment := true, allow_null := mode.allow_null }

/-- A write of an entity asks whether the item is within the registration, a write of attributes does not. -/
def covers (w : Write) (r : FedReg) (obj : Map) (iri : String) : Bool :=
  match w with
  | attrs _ => r.covers_attr iri
  | _ => owns x env r obj iri

/-- The name under which the registrations are asked for the lifetime of the entity. -/
def expires_key : Write → String
  | attrs _ => "expiresAt"
  | _ => x.ctx.expand_key "expiresAt"

/-- A merge into an entity that is not held here, with proxies to serve it. -/
def away (w : Write) (regs : List FedReg) : Bool :=
  match w with
  | merge _ local_exists => !local_exists && regs.any FedReg.is_proxy
  | _ => false

end Write

/-- What a local part holds: attributes as in the whole body, none a proxy covers, and the entity's own members. -/
structure LocalOf (w : Write) (regs : List FedReg) (obj whole l : Map) : Prop where
  attrs : ∀ iri a, l.lookup iri = some a → ENTITY_LEVEL.contains iri = false →
    whole.lookup iri = some a ∧ ∀ r ∈ regs, r.is_proxy = true → w.covers x env r obj iri = false
  members : ∀ m ∈ KEPT, (obj.lookup m).isSome = true → l.lookup m = whole.lookup m
  expires : (∀ r ∈ regs, r.is_proxy = true → w.covers x env r obj (w.expires_key x) = false) →
    l.lookup "expiresAt" = whole.lookup "expiresAt"

/-- An attribute of the body is written here, or forwarded, or answered with a conflict where a proxy that owns
it does not take the operation; a merge into an entity that is not held here leaves the rest of it alone. -/
def Placed (w : Write) (regs : List FedReg) (obj : Map) (s : Split) (p : String × Value) : Prop :=
  (∃ l a, s.local_part = some l ∧ l.lookup (x.ctx.expand_key p.1) = some a) ∨
    (∃ r f, Outgoing.forwarded r f ∈ s.parts ∧ p ∈ f) ∨
    (∃ r ∈ regs, r.is_proxy = true ∧ w.covers x env r obj (x.ctx.expand_key p.1) = true ∧ r.supports w.op = false ∧
      Outgoing.answered (conflict_part w.op) ∈ s.parts) ∨
    w.away regs = true ∧ s.local_part = none

variable {x env}

section Reduced

variable {obj : Map} {k : String} {v : Value}

theorem kept_entity_level (h : ENTITY_LEVEL.contains k = false) : KEPT.contains k = false ∧ k ≠ "@context" := by
  simp only [ENTITY_LEVEL, List.contains_cons, Bool.or_eq_false_iff, beq_eq_false_iff_ne] at h
  obtain ⟨hid, -, htype, -, hcontext, hscope, -⟩ := h
  simp [KEPT, hid, htype, hscope, hcontext]

/-- An attribute of a registration is in the fragment it is sent. -/
theorem reduce_of_owns {r : FedReg} (hk : (k, v) ∈ obj) (ha : ENTITY_LEVEL.contains k = false)
    (h : owns x env r obj (x.ctx.expand_key k) = true) : ∃ f, reduce_to_scope x env obj r = some f ∧ (k, v) ∈ f := by
  obtain ⟨hkept, hcontext⟩ := kept_entity_level ha
  obtain ⟨hitem, hattr⟩ := Bool.and_eq_true_iff.mp h
  have hcontext' : decide (k ≠ "@context") = true := decide_eq_true hcontext
  rw [reduce_to_scope, hitem, if_neg (by decide)]
  cases hattrs : r.attrs with
  | none => exact ⟨_, rfl, List.mem_filter.mpr ⟨hk, by simpa using hcontext⟩⟩
  | some iris =>
      have hany : obj.any (fun p => p.1 ≠ "@context" && !KEPT.contains p.1 && r.covers_attr (x.ctx.expand_key p.1)) = true :=
        List.any_eq_true.mpr ⟨(k, v), hk, by simp only [hcontext', hkept, hattr, Bool.not_false, Bool.and_self]⟩
      refine ⟨_, if_pos hany, List.mem_filter.mpr ⟨hk, ?_⟩⟩
      simp only [hcontext', hattr, Bool.or_true, Bool.and_self]

/-- A fragment holds members of the body, of attributes only those the registration covers. -/
theorem reduce_members {r : FedReg} {f : Map} (h : reduce_to_scope x env obj r = some f) (hk : (k, v) ∈ f) :
    (k, v) ∈ obj ∧ (KEPT.contains k = true ∨ owns x env r obj (x.ctx.expand_key k) = true) := by
  cases hitem : r.covers_item { env with expand := x.ctx.expand_key } obj with
  | false =>
      rw [reduce_to_scope, hitem, if_pos (by decide)] at h
      cases h
  | true =>
      rw [reduce_to_scope, hitem, if_neg (by decide)] at h
      cases hattrs : r.attrs with
      | none =>
          rw [hattrs, Option.some.injEq] at h
          rw [← h] at hk
          have hcover : r.covers_attr (x.ctx.expand_key k) = true := by rw [Scope.covers_attr, hattrs]; rfl
          exact ⟨(List.mem_filter.mp hk).1, Or.inr (Bool.and_eq_true_iff.mpr ⟨hitem, hcover⟩)⟩
      | some iris =>
          rw [hattrs] at h
          obtain ⟨-, h⟩ := Option.ite_none_right_eq_some.mp h
          rw [← Option.some.inj h] at hk
          obtain ⟨hobj, hp⟩ := List.mem_filter.mp hk
          refine ⟨hobj, (Bool.or_eq_true_iff.mp (Bool.and_eq_true_iff.mp hp).2).imp_right ?_⟩
          exact fun hcover => Bool.and_eq_true_iff.mpr ⟨hitem, hcover⟩

variable {proxies : List FedReg}

theorem strip_left (hk : (k, v) ∈ obj) (ha : ENTITY_LEVEL.contains k = false)
    (h : ∀ r ∈ proxies, owns x env r obj (x.ctx.expand_key k) = false) :
    (k, v) ∈ (strip_proxied x env obj proxies).1 ∧ (strip_proxied x env obj proxies).2 = true := by
  obtain ⟨hkept, hcontext⟩ := kept_entity_level ha
  have hcontext' : decide (k ≠ "@context") = true := decide_eq_true hcontext
  have hleft : proxies.any (fun r => owns x env r obj (x.ctx.expand_key k)) = false :=
    List.any_eq_false.mpr (fun r hr => by simp [h r hr])
  refine ⟨List.mem_filter.mpr ⟨hk, ?_⟩, List.any_eq_true.mpr ⟨(k, v), hk, ?_⟩⟩
  · simp only [hcontext', hleft, Bool.not_false, Bool.or_true, Bool.and_self]
  · simp only [hcontext', hkept, hleft, Bool.not_false, Bool.and_self]

theorem strip_members (hk : (k, v) ∈ (strip_proxied x env obj proxies).1) (ha : ENTITY_LEVEL.contains k = false) :
    (k, v) ∈ obj ∧ ∀ r ∈ proxies, owns x env r obj (x.ctx.expand_key k) = false := by
  obtain ⟨hobj, hp⟩ := List.mem_filter.mp hk
  refine ⟨hobj, ?_⟩
  have hleft := (Bool.and_eq_true_iff.mp hp).2
  rw [(kept_entity_level ha).1, Bool.false_or, Bool.not_eq_true'] at hleft
  exact fun r hr => Bool.not_eq_true _ ▸ List.any_eq_false.mp hleft r hr

theorem strip_lookup (hcontext : k ≠ "@context")
    (h : KEPT.contains k = true ∨ ∀ r ∈ proxies, owns x env r obj (x.ctx.expand_key k) = false) :
    (strip_proxied x env obj proxies).1.lookup k = obj.lookup k := by
  have hcontext' : decide (k ≠ "@context") = true := decide_eq_true hcontext
  rw [strip_proxied, lookup_filter (fun k => k ≠ "@context" &&
    (KEPT.contains k || !proxies.any (fun r => owns x env r obj (x.ctx.expand_key k))))]
  apply if_pos
  rcases h with hkept | h
  · simp only [hcontext', hkept, Bool.true_or, Bool.and_self]
  · have hleft : proxies.any (fun r => owns x env r obj (x.ctx.expand_key k)) = false :=
      List.any_eq_false.mpr (fun r hr => by simp [h r hr])
    simp only [hcontext', hleft, Bool.not_false, Bool.or_true, Bool.and_self]

end Reduced

section Local

variable {obj whole l : Map} {opts : ExpandOpts} {proxies : List FedReg}

theorem lookup_common_observed_at (observed_at : Option String) (fragment : Map) (k : String) :
    (apply_common_observed_at observed_at fragment).lookup k =
      (fragment.lookup k).map (fun v => observed_at.elim v (fun ts => observed_instances ts k v)) := by
  cases observed_at with
  | none => exact Option.map_id'.symm
  | some ts => exact lookup_map_value (observed_instances ts) fragment k

/-- The expansion of what the proxies leave agrees with the expansion of the whole body. -/
theorem expand_left (hw : x.expand_entity obj opts = .ok whole)
    (hl : x.expand_entity (strip_proxied x env obj proxies).1 opts = .ok l) :
    (∀ iri a, l.lookup iri = some a → ENTITY_LEVEL.contains iri = false →
      whole.lookup iri = some a ∧ ∀ r ∈ proxies, owns x env r obj iri = false) ∧
      (∀ m ∈ KEPT, (obj.lookup m).isSome = true → l.lookup m = whole.lookup m) ∧
      ((∀ r ∈ proxies, owns x env r obj (x.ctx.expand_key "expiresAt") = false) →
        l.lookup "expiresAt" = whole.lookup "expiresAt") := by
  obtain ⟨⟨hid, htype, hscope, hexpires⟩, -, hfrom⟩ := Expander.expand_entity_ok hl
  obtain ⟨⟨hid', htype', hscope', hexpires'⟩, hadd, -⟩ := Expander.expand_entity_ok hw
  refine ⟨?_, ?_, ?_⟩
  · intro iri a ha hiri
    rcases hfrom iri a ha with hmeta | ⟨p, hp, hattr, he⟩
    · rw [hiri] at hmeta
      cases hmeta
    · obtain ⟨hobj, hleft⟩ := strip_members hp hattr
      obtain ⟨e, he', hlook⟩ := hadd p hobj hattr
      rw [he, Except.ok.injEq] at he'
      rw [← he'] at hlook
      have hkey := (Expander.attr_entry_key he).1
      dsimp only at hkey
      exact ⟨hlook, fun r hr => hkey ▸ hleft r hr⟩
  · intro m hm hsome
    have hlook : (strip_proxied x env obj proxies).1.lookup m = obj.lookup m :=
      strip_lookup (by rintro rfl; exact absurd hm (by decide)) (Or.inl (List.contains_iff_mem.mpr hm))
    obtain ⟨v, hv⟩ := Option.isSome_iff_exists.mp hsome
    rw [hv] at hlook
    simp only [KEPT, List.mem_cons, List.not_mem_nil, or_false] at hm
    rcases hm with rfl | rfl | rfl
    · have h : Expander.id_member (strip_proxied x env obj proxies).1 opts = Expander.id_member obj opts := by
        rw [Expander.id_member, Expander.id_member, hlook, hv, Option.some_or, Option.some_or]
      rw [hid, hid', Except.ok.injEq] at h
      exact h
    · have h : x.type_member (strip_proxied x env obj proxies).1 opts = x.type_member obj opts := by
        rw [Expander.type_member, Expander.type_member, hlook, hv, Option.some_or, Option.some_or]
      rw [htype, htype', Except.ok.injEq] at h
      exact h
    · have h : x.scope_member (strip_proxied x env obj proxies).1 opts = x.scope_member obj opts := by
        rw [Expander.scope_member, Expander.scope_member, hlook, hv]
      rw [hscope, hscope', Except.ok.injEq] at h
      exact h
  · intro hleft
    have hlook : (strip_proxied x env obj proxies).1.lookup "expiresAt" = obj.lookup "expiresAt" :=
      strip_lookup (by decide) (Or.inr hleft)
    have h : x.expires_member (strip_proxied x env obj proxies).1 opts = x.expires_member obj opts := by
      rw [Expander.expires_member, Expander.expires_member, hlook]
    rw [hexpires, hexpires', Except.ok.injEq] at h
    exact h

/-- The same for what a merge makes of the two expansions; a creation stamps nothing. -/
theorem local_of_left {w : Write} (hw : ∀ mode, w ≠ .attrs mode) (observed_at : Option String) {regs : List FedReg}
    (hwhole : x.expand_entity obj opts = .ok whole)
    (hl : x.expand_entity (strip_proxied x env obj (regs.filter FedReg.is_proxy)).1 opts = .ok l) :
    LocalOf x env w regs obj (apply_common_observed_at observed_at whole) (apply_common_observed_at observed_at l) := by
  have hcovers : ∀ r iri, w.covers x env r obj iri = owns x env r obj iri := by
    intro r iri
    cases w with
    | attrs mode => exact absurd rfl (hw mode)
    | create | merge => rfl
  have hkey : w.expires_key x = x.ctx.expand_key "expiresAt" := by
    cases w with
    | attrs mode => exact absurd rfl (hw mode)
    | create | merge => rfl
  obtain ⟨hattrs, hmembers, hexpires⟩ := expand_left hwhole hl
  refine ⟨?_, ?_, ?_⟩
  · intro iri a ha hiri
    rw [lookup_common_observed_at] at ha ⊢
    obtain ⟨b, hb, rfl⟩ := Option.map_eq_some_iff.mp ha
    obtain ⟨hlook, hnone⟩ := hattrs iri b hb hiri
    refine ⟨by rw [hlook]; rfl, ?_⟩
    intro r hr hproxy
    rw [hcovers]
    exact hnone r (List.mem_filter.mpr ⟨hr, hproxy⟩)
  · intro m hm hsome
    rw [lookup_common_observed_at, lookup_common_observed_at, hmembers m hm hsome]
  · intro hleft
    rw [lookup_common_observed_at, lookup_common_observed_at, hexpires ?_]
    intro r hr
    obtain ⟨hreg, hproxy⟩ := List.mem_filter.mp hr
    have := hleft r hreg hproxy
    rwa [hcovers, hkey] at this

theorem LocalOf.refl_of_no_proxy {w : Write} {regs : List FedReg} (h : ∀ r ∈ regs, r.is_proxy = false) :
    LocalOf x env w regs obj whole whole where
  attrs _ _ ha _ := ⟨ha, fun r hr hproxy => absurd hproxy (by rw [h r hr]; exact Bool.false_ne_true)⟩
  members _ _ _ := rfl
  expires _ := rfl

/-- An attribute the proxies leave is in the local part. -/
theorem left_in_local (observed_at : Option String) {regs : List FedReg} {p : String × Value} (hp : p ∈ obj)
    (hattr : ENTITY_LEVEL.contains p.1 = false)
    (hleft : ∀ r ∈ regs.filter FedReg.is_proxy, owns x env r obj (x.ctx.expand_key p.1) = false)
    (hl : x.expand_entity (strip_proxied x env obj (regs.filter FedReg.is_proxy)).1 opts = .ok l) :
    ∃ a, (apply_common_observed_at observed_at l).lookup (x.ctx.expand_key p.1) = some a := by
  obtain ⟨-, hadd, -⟩ := Expander.expand_entity_ok hl
  obtain ⟨e, he, hlook⟩ := hadd p (strip_left hp hattr hleft).1 hattr
  rw [(Expander.attr_entry_key he).1] at hlook
  exact ⟨_, by rw [lookup_common_observed_at, hlook, Option.map_some]⟩

end Local

section Writes

variable {obj : Map} {regs : List FedReg} {s : Split}

/-- A proxy that owns an attribute is sent it or answered for, in either order the two are put in. -/
theorem owned_placed {w : Write} (hw : ∀ mode, w ≠ .attrs mode) {p : String × Value} (hp : p ∈ obj)
    (hattr : ENTITY_LEVEL.contains p.1 = false) {r : FedReg} (hr : r ∈ regs) (hproxy : r.is_proxy = true)
    (howns : owns x env r obj (x.ctx.expand_key p.1) = true)
    (hsent : ∀ f, r.supports w.op = true → reduce_to_scope x env obj r = some f → Outgoing.forwarded r f ∈ s.parts)
    (hrefused : r.supports w.op = false → Outgoing.answered (conflict_part w.op) ∈ s.parts) :
    Placed x env w regs obj s p := by
  cases hsup : r.supports w.op with
  | true =>
      obtain ⟨f, hf, hmem⟩ := reduce_of_owns hp hattr howns
      exact Or.inr (Or.inl ⟨r, f, hsent f hsup hf, hmem⟩)
  | false =>
      have hcovers : w.covers x env r obj (x.ctx.expand_key p.1) = true := by
        cases w with
        | attrs mode => exact absurd rfl (hw mode)
        | create | merge => exact howns
      exact Or.inr (Or.inr (Or.inl ⟨r, hr, hproxy, hcovers, hsup, hrefused hsup⟩))

/-- Either a proxy owns the attribute or none does. -/
theorem owned_or_left (p : String × Value) :
    (∃ r ∈ regs, r.is_proxy = true ∧ owns x env r obj (x.ctx.expand_key p.1) = true) ∨
      ∀ r ∈ regs.filter FedReg.is_proxy, owns x env r obj (x.ctx.expand_key p.1) = false := by
  by_cases h : ∃ r ∈ regs, r.is_proxy = true ∧ owns x env r obj (x.ctx.expand_key p.1) = true
  · exact Or.inl h
  · refine Or.inr (fun r hr => ?_)
    obtain ⟨hreg, hproxy⟩ := List.mem_filter.mp hr
    exact Bool.not_eq_true _ ▸ fun howns => h ⟨r, hreg, hproxy, howns⟩

/-- Nothing matches: the whole body is the local part. -/
theorem whole_splits {w : Write} {opts : ExpandOpts} (observed_at : Option String) {whole : Map}
    (hwhole : x.expand_entity obj opts = .ok whole) :
    (∀ l, some (apply_common_observed_at observed_at whole) = some l →
      LocalOf x env w [] obj (apply_common_observed_at observed_at whole) l) ∧
      ∀ p ∈ obj, ENTITY_LEVEL.contains p.1 = false →
        Placed x env w [] obj ⟨some (apply_common_observed_at observed_at whole), []⟩ p := by
  refine ⟨?_, ?_⟩
  · rintro l ⟨⟩
    exact LocalOf.refl_of_no_proxy (fun _ hr => absurd hr List.not_mem_nil)
  · intro p hp hattr
    obtain ⟨-, hadd, -⟩ := Expander.expand_entity_ok hwhole
    obtain ⟨e, he, hlook⟩ := hadd p hp hattr
    rw [(Expander.attr_entry_key he).1] at hlook
    exact Or.inl ⟨_, _, rfl, by rw [lookup_common_observed_at, hlook, Option.map_some]⟩

/-- Matching registrations: what the proxies own goes out or is answered for, the rest is the local part
where one is written. -/
theorem rest_splits {w : Write} (hw : ∀ mode, w ≠ .attrs mode) {opts : ExpandOpts} (observed_at : Option String)
    {whole : Map} {written : Bool} (hwhole : x.expand_entity obj opts = .ok whole)
    (hlocal : (if written = true then (x.expand_entity (strip_proxied x env obj (regs.filter FedReg.is_proxy)).1 opts).map
      (fun l => some (apply_common_observed_at observed_at l)) else .ok none) = .ok s.local_part)
    (hwritten : (strip_proxied x env obj (regs.filter FedReg.is_proxy)).2 = true → written = true ∨ w.away regs = true)
    (hsent : ∀ r ∈ regs, ∀ f, r.supports w.op = true → reduce_to_scope x env obj r = some f →
      Outgoing.forwarded r f ∈ s.parts)
    (hrefused : ∀ r ∈ regs, r.is_proxy = true → r.supports w.op = false →
      Outgoing.answered (conflict_part w.op) ∈ s.parts) :
    (∀ l, s.local_part = some l → LocalOf x env w regs obj (apply_common_observed_at observed_at whole) l) ∧
      ∀ p ∈ obj, ENTITY_LEVEL.contains p.1 = false → Placed x env w regs obj s p := by
  refine ⟨?_, ?_⟩
  · intro l hl
    cases written with
    | false =>
        rw [if_neg Bool.false_ne_true, Except.ok.injEq, hl] at hlocal
        cases hlocal
    | true =>
        rw [if_pos rfl, hl] at hlocal
        obtain ⟨left, hleft, heq⟩ := map_eq_ok.mp hlocal
        rw [← Option.some.inj heq]
        exact local_of_left hw observed_at hwhole hleft
  · intro p hp hattr
    have hcase : (∃ r ∈ regs, r.is_proxy = true ∧ owns x env r obj (x.ctx.expand_key p.1) = true) ∨
        ∀ r ∈ regs.filter FedReg.is_proxy, owns x env r obj (x.ctx.expand_key p.1) = false := owned_or_left p
    rcases hcase with ⟨r, hr, hproxy, howns⟩ | hleft
    · exact owned_placed hw hp hattr hr hproxy howns (hsent r hr) (hrefused r hr hproxy)
    · cases written with
      | false =>
          rw [if_neg Bool.false_ne_true, Except.ok.injEq] at hlocal
          have haway := (hwritten (strip_left hp hattr hleft).2).resolve_left Bool.false_ne_true
          exact Or.inr (Or.inr (Or.inr ⟨haway, hlocal.symm⟩))
      | true =>
          rw [if_pos rfl] at hlocal
          obtain ⟨left, hexp, heq⟩ := map_eq_ok.mp hlocal
          obtain ⟨a, ha⟩ := left_in_local observed_at hp hattr hleft hexp
          exact Or.inl ⟨_, a, heq.symm, ha⟩

theorem create_splits (h : create_entity x env regs obj = .ok s) :
    ∃ whole, Write.create.body x obj = .ok whole ∧
      ((∀ l, s.local_part = some l → LocalOf x env .create regs obj whole l) ∧
        ∀ p ∈ obj, ENTITY_LEVEL.contains p.1 = false → Placed x env .create regs obj s p) ∧
      ∀ r f, Outgoing.forwarded r f ∈ s.parts → r ∈ regs ∧ r.supports "createEntity" = true ∧
        reduce_to_scope x env obj r = some f := by
  obtain ⟨whole, hwhole, h⟩ := bind_eq_ok.mp h
  refine ⟨whole, hwhole, ?_⟩
  cases regs with
  | nil =>
      rw [List.isEmpty_nil, if_pos rfl, Except.ok.injEq] at h
      subst h
      exact ⟨whole_splits none hwhole, fun _ _ hmem => absurd hmem List.not_mem_nil⟩
  | cons r₀ rs =>
      rw [List.isEmpty_cons, if_neg Bool.false_ne_true] at h
      obtain ⟨local_exp, hlocal, hs⟩ := map_eq_ok.mp h
      subst hs
      refine ⟨rest_splits (by simp) none hwhole hlocal ?_ ?_ ?_, ?_⟩
      · exact fun hany => Or.inl (by rw [hany, Bool.true_or])
      · intro r hr f hsup hf
        refine List.mem_append_right _ (List.mem_filterMap.mpr ⟨r, List.mem_filter.mpr ⟨hr, hsup⟩, ?_⟩)
        rw [hf, Option.map_some]
      · intro r hr hproxy hsup
        refine List.mem_append_left _ (List.mem_map.mpr ⟨r, List.mem_filter.mpr ⟨hr, ?_⟩, rfl⟩)
        rw [show r.supports "createEntity" = false from hsup, hproxy]
        rfl
      · intro r f hmem
        rcases List.mem_append.mp hmem with hmem | hmem
        · obtain ⟨_, -, heq⟩ := List.mem_map.mp hmem
          cases heq
        · obtain ⟨r', hr', heq⟩ := List.mem_filterMap.mp hmem
          obtain ⟨f', hf', heq⟩ := Option.map_eq_some_iff.mp heq
          obtain ⟨rfl, rfl⟩ := Outgoing.forwarded.inj heq
          exact ⟨(List.mem_filter.mp hr').1, (List.mem_filter.mp hr').2, hf'⟩

theorem merge_splits {observed_at : Option String} {local_exists : Bool}
    (h : merge_entity x env observed_at local_exists regs obj = .ok s) :
    ∃ whole, (Write.merge observed_at local_exists).body x obj = .ok whole ∧
      ((∀ l, s.local_part = some l → LocalOf x env (.merge observed_at local_exists) regs obj whole l) ∧
        ∀ p ∈ obj, ENTITY_LEVEL.contains p.1 = false → Placed x env (.merge observed_at local_exists) regs obj s p) ∧
      ∀ r f, Outgoing.forwarded r f ∈ s.parts → r ∈ regs ∧ r.supports "mergeEntity" = true ∧
        reduce_to_scope x env obj r = some f := by
  obtain ⟨whole, hwhole, h⟩ := bind_eq_ok.mp h
  refine ⟨_, map_eq_ok.mpr ⟨whole, hwhole, rfl⟩, ?_⟩
  cases regs with
  | nil =>
      rw [List.isEmpty_nil, if_pos rfl, Except.ok.injEq] at h
      subst h
      exact ⟨whole_splits observed_at hwhole, fun _ _ hmem => absurd hmem List.not_mem_nil⟩
  | cons r₀ rs =>
      rw [List.isEmpty_cons, if_neg Bool.false_ne_true] at h
      obtain ⟨local_frag, hlocal, hs⟩ := map_eq_ok.mp h
      subst hs
      refine ⟨rest_splits (by simp) observed_at hwhole hlocal ?_ ?_ ?_, ?_⟩
      · intro hany
        rw [hany, Bool.and_true]
        cases local_exists with
        | true => exact Or.inl rfl
        | false =>
            rw [Bool.false_or, Write.away, Bool.not_false, Bool.true_and]
            cases hproxies : (r₀ :: rs).filter FedReg.is_proxy with
            | nil => exact Or.inl rfl
            | cons r rest =>
                have hr : r ∈ (r₀ :: rs).filter FedReg.is_proxy := hproxies ▸ List.mem_cons_self
                exact Or.inr (List.any_eq_true.mpr ⟨r, List.mem_filter.mp hr⟩)
      · intro r hr f hsup hf
        refine List.mem_flatMap.mpr ⟨r, hr, ?_⟩
        rw [show r.supports "mergeEntity" = true from hsup, if_pos rfl, hf, Option.map_some]
        exact List.mem_cons_self
      · intro r hr hproxy hsup
        refine List.mem_flatMap.mpr ⟨r, hr, ?_⟩
        rw [show r.supports "mergeEntity" = false from hsup, if_neg Bool.false_ne_true, if_pos hproxy]
        exact List.mem_cons_self
      · intro r f hmem
        obtain ⟨r', hr', hmem⟩ := List.mem_flatMap.mp hmem
        by_cases hsup : r'.supports "mergeEntity" = true
        · rw [if_pos hsup, Option.mem_toList] at hmem
          obtain ⟨f', hf', heq⟩ := Option.map_eq_some_iff.mp hmem
          obtain ⟨rfl, rfl⟩ := Outgoing.forwarded.inj heq
          exact ⟨hr', hsup, hf'⟩
        · rw [if_neg hsup] at hmem
          split_ifs at hmem with hproxy
          · cases List.mem_singleton.mp hmem
          · exact absurd hmem List.not_mem_nil

theorem fragment_meta {k : String} (h : ENTITY_LEVEL.contains k = false) : FRAGMENT_META.contains k = false := by
  simp only [ENTITY_LEVEL, List.contains_cons, Bool.or_eq_false_iff, beq_eq_false_iff_ne] at h
  simp [FRAGMENT_META, h]

theorem kept_fragment_meta : ∀ m ∈ KEPT, FRAGMENT_META.contains m = true := by decide

theorem strip_covered_lookup (fragment : Map) (k : String) :
    (strip_covered_expanded fragment regs).lookup k =
      if FRAGMENT_META.contains k || !regs.any (fun r => r.is_proxy && r.covers_attr k) then fragment.lookup k else none :=
  lookup_filter (fun k => FRAGMENT_META.contains k || !regs.any (fun r => r.is_proxy && r.covers_attr k)) fragment k

/-- What the proxies leave of an expanded fragment. -/
theorem local_of_strip_covered (mode : AttrWrite) (fragment : Map) :
    LocalOf x env (.attrs mode) regs obj fragment (strip_covered_expanded fragment regs) := by
  refine ⟨?_, ?_, ?_⟩
  · intro iri a ha hiri
    rw [strip_covered_lookup, fragment_meta hiri, Bool.false_or] at ha
    obtain ⟨hnone, ha⟩ := Option.ite_none_right_eq_some.mp ha
    refine ⟨ha, fun r hr hproxy => ?_⟩
    have hr' := List.any_eq_false.mp ((Bool.not_eq_true' _).mp hnone) r hr
    rwa [hproxy, Bool.true_and, Bool.not_eq_true] at hr'
  · intro m hm _
    rw [strip_covered_lookup, kept_fragment_meta m hm, Bool.true_or, if_pos rfl]
  · intro hleft
    rw [strip_covered_lookup]
    refine if_pos (Bool.or_eq_true_iff.mpr (Or.inr ((Bool.not_eq_true' _).mpr (List.any_eq_false.mpr ?_))))
    intro r hr hr'
    obtain ⟨hproxy, hcovers⟩ := Bool.and_eq_true_iff.mp hr'
    have hnone : r.covers_attr "expiresAt" = false := hleft r hr hproxy
    rw [hnone] at hcovers
    cases hcovers

theorem attrs_splits {mode : AttrWrite} (h : write_attrs x mode regs obj = .ok s) :
    ∃ whole, (Write.attrs mode).body x obj = .ok whole ∧
      ((∀ l, s.local_part = some l → LocalOf x env (.attrs mode) regs obj whole l) ∧
        ∀ p ∈ obj, ENTITY_LEVEL.contains p.1 = false → Placed x env (.attrs mode) regs obj s p) ∧
      ∀ r f, Outgoing.forwarded r f ∈ s.parts → r ∈ regs ∧ r.supports mode.op = true := by
  obtain ⟨whole, hwhole, rfl⟩ := map_eq_ok.mp h
  refine ⟨whole, hwhole, ⟨?_, ?_⟩, ?_⟩
  · intro l hl
    obtain ⟨-, hl⟩ := Option.ite_none_left_eq_some.mp hl
    rw [← Option.some.inj hl]
    exact local_of_strip_covered mode whole
  · intro p hp hattr
    obtain ⟨-, hadd, -⟩ := Expander.expand_entity_ok hwhole
    obtain ⟨e, he, hlook⟩ := hadd p hp hattr
    obtain ⟨hkey, habs⟩ := Expander.attr_entry_key he
    by_cases howned : ∃ r ∈ regs, r.is_proxy = true ∧ r.covers_attr e.1 = true
    · obtain ⟨r, hr, hproxy, hcovers⟩ := howned
      cases hsup : r.supports mode.op with
      | true =>
          refine Or.inr (Or.inl ⟨r, without_context_map obj, List.mem_map.mpr ⟨r, hr, if_pos hsup⟩, ?_⟩)
          exact List.mem_filter.mpr ⟨hp, decide_eq_true (kept_entity_level hattr).2⟩
      | false =>
          refine Or.inr (Or.inr (Or.inl ⟨r, hr, hproxy, hkey ▸ hcovers, hsup, List.mem_map.mpr ⟨r, hr, ?_⟩⟩))
          rw [hsup, if_neg Bool.false_ne_true, if_pos hproxy]
          rfl
    · have hleft : regs.any (fun r => r.is_proxy && r.covers_attr e.1) = false :=
        List.any_eq_false.mpr (fun r hr hr' => howned ⟨r, hr, Bool.and_eq_true_iff.mp hr'⟩)
      have hiri : ENTITY_LEVEL.contains e.1 = false := by
        by_contra hlevel
        have := Expander.not_absolute_of_entity_level e.1 (List.contains_iff_mem.mp (Bool.not_eq_false _ ▸ hlevel))
        rw [habs] at this
        cases this
      have hmem : e.1 ∈ attr_iris_of whole :=
        List.mem_filter.mpr ⟨List.mem_map.mpr ⟨_, mem_of_lookup hlook, rfl⟩, by rw [fragment_meta hiri]; rfl⟩
      have hcover : ¬ proxies_cover_all regs (attr_iris_of whole) = true := by
        intro hall
        have := List.all_eq_true.mp (Bool.and_eq_true_iff.mp hall).2 e.1 hmem
        rw [hleft] at this
        cases this
      refine Or.inl ⟨_, e.2, if_neg hcover, ?_⟩
      rw [← hkey, strip_covered_lookup, hleft, Bool.not_false, Bool.or_true, if_pos rfl, hlook]
  · intro r f hmem
    obtain ⟨r', hr', heq⟩ := List.mem_map.mp hmem
    split_ifs at heq with hsup
    obtain ⟨rfl, -⟩ := Outgoing.forwarded.inj heq
    exact ⟨hr', hsup⟩

end Writes

/-- Names that are IRIs already, and attributes written in full. -/
def plain_attributes : Expander String where
  ctx := .default
  chrono := fixed_width
  is_alphabetic c := c.isAlpha
  is_numeric c := c.isDigit
  expand_attribute _ v _ := .ok [v]

/-- An exclusive source of the speeds of trucks. -/
def speeds (ops : List String) : FedReg where
  attrs := some ["urn:speed"]
  ent_ids := []
  ent_types := ["urn:Truck"]
  ent_patterns := []
  ent_unrestricted := true
  reg_id := "urn:r"
  endpoint := "http://peer"
  mode := "exclusive"
  ops := ops
  tenant := none
  context_source_alias := none
  csi := []
  local_only := false
  timeout_ms := none
  cooldown_ms := none

def property (v : String) : Value := .object [("type", .string "Property"), ("value", .string v)]

def truck : Map := [
  ("id", .string "urn:t"), ("type", .string "urn:Truck"), ("urn:speed", property "slow"),
  ("urn:weight", property "light")]

def no_links : Env := ⟨id, fun _ => none, fun _ => none⟩

def weight_only : Map := [
  ("id", .string "urn:t"), ("type", .array [.string "urn:Truck"]), ("urn:weight", .array [property "light"])]

end AntaresBroker.Federation
