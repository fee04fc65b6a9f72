import AntaresBroker.Via

namespace AntaresBroker.Federation

open Json Ql Ql.Eval Expiry Registry Mem

section Targets

variable (env : Env) {Instant : Type} [LinearOrder Instant] (chrono : Chrono Instant)

/-- The registrations that match, out of those the index hands out. -/
def matching_regs (now : String) (spec : CsrSpec) (docs : List Value) (headers : Headers) : List FedReg :=
  if MAX_VIA_HOPS < via_hops headers then []
  else merge_same_source (docs.filterMap (compile env chrono now spec (via_tokens headers)))

/-- The distributed operations, by how they guard against a loop: reads look for the
own pseudonym, writes share one plan, creating an EntityMap takes what matches. -/
inductive Operation
  | read | write | create_entity_map
deriving DecidableEq

def write_regs (regs : List FedReg) : List FedReg := regs.filter (fun r => r.mode ≠ "auxiliary")

/-- The registrations a write forwards to; none when the chain is answered. -/
def write_plan (headers : Headers) (host : String) (regs : List FedReg) : List FedReg :=
  match handle_via_loop headers host (write_regs regs) with
  | (true, _) => []
  | (false, regs) => regs

def targets (op : Operation) (now : String) (spec : CsrSpec) (docs : List Value) (headers : Headers)
    (host : String) : List FedReg :=
  let regs := matching_regs env chrono now spec docs headers
  match op with
  | .read => if via_loop headers host then [] else regs
  | .write => write_plan headers host regs
  | .create_entity_map => regs

/-- A write forwards nowhere on a loop, whether it answers 508 or goes on locally. -/
theorem write_plan_eq (headers : Headers) (host : String) (regs : List FedReg) :
    write_plan headers host regs = if via_loop headers host then [] else write_regs regs := by
  unfold write_plan handle_via_loop
  by_cases hlt : MAX_VIA_HOPS < via_hops headers
  · have hloop : via_loop headers host = true := by rw [via_loop, decide_eq_true hlt, Bool.true_or]
    rw [if_pos hlt, if_pos hloop]
  · rw [if_neg hlt]
    by_cases hloop : via_loop headers host = true
    · rw [if_pos hloop, hloop]
      by_cases hnil : write_regs regs = []
      · simp [hnil]
      · have hcond : ¬ (decide (write_regs regs = []) || !true) = true := by simp [hnil]
        rw [if_neg hcond]
        split_ifs <;> rfl
    · rw [if_neg hloop, Bool.eq_false_of_not_eq_true hloop, Bool.not_false, Bool.or_true, if_pos rfl]

theorem targets_eq {op : Operation} (hop : op ≠ .create_entity_map) (now : String) (spec : CsrSpec) (docs : List Value)
    (headers : Headers) (host : String) : targets env chrono op now spec docs headers host =
      if via_loop headers host then []
      else if op = .write then write_regs (matching_regs env chrono now spec docs headers)
      else matching_regs env chrono now spec docs headers := by
  cases op with
  | read => rfl
  | write => exact write_plan_eq headers host _
  | create_entity_map => exact absurd rfl hop

theorem targets_within {op : Operation} {now : String} {spec : CsrSpec} {docs : List Value} {headers : Headers}
    {host : String} {reg : FedReg} (h : reg ∈ targets env chrono op now spec docs headers host) :
    via_hops headers ≤ MAX_VIA_HOPS := by
  refine Nat.le_of_not_lt fun hlt => ?_
  by_cases hop : op = .create_entity_map
  · have hnone : targets env chrono op now spec docs headers host = [] := by
      rw [hop]
      exact if_pos hlt
    rw [hnone] at h
    cases h
  · have hloop : via_loop headers host = true := by rw [via_loop, decide_eq_true hlt, Bool.true_or]
    rw [targets_eq env chrono hop, if_pos hloop] at h
    cases h

/-- A guarded operation forwards nowhere once the chain names its own pair. -/
theorem targets_not_looped {op : Operation} (hop : op ≠ .create_entity_map) {now : String} {spec : CsrSpec}
    {docs : List Value} {headers : Headers} {host : String} {reg : FedReg}
    (h : reg ∈ targets env chrono op now spec docs headers host) : host ∉ via_tokens headers := by
  intro hseen
  have hloop : via_loop headers host = true := by
    rw [via_loop, Bool.or_eq_true]
    exact .inr (List.contains_iff_mem.mpr hseen)
  rw [targets_eq env chrono hop, if_pos hloop] at h
  cases h

/-- The source of a registration that names one by its alias. -/
def source_alias (doc : Value) : Option String := (doc.get "contextSourceAlias").bind Value.as_str

theorem compile_seen (now : String) (spec : CsrSpec) (seen : List String) (doc : Value) :
    compile env chrono now spec seen doc =
      if (source_alias doc).any seen.contains then none else compile env chrono now spec [] doc := by
  have hcandidate : reg_candidate env chrono now spec seen doc =
      if (source_alias doc).any seen.contains then none else reg_candidate env chrono now spec [] doc := by
    have hnil : ((doc.get "contextSourceAlias").bind Value.as_str).any ([] : List String).contains = false := by
      cases (doc.get "contextSourceAlias").bind Value.as_str <;> rfl
    unfold reg_candidate source_alias
    simp only [hnil, Bool.false_eq_true, if_false]
    split_ifs <;> rfl
  unfold compile
  rw [hcandidate]
  split_ifs <;> rfl

theorem compile_chain (now : String) (spec : CsrSpec) (seen : List String) (docs : List Value) :
    docs.filterMap (compile env chrono now spec seen) =
      (docs.filter (fun doc => !(source_alias doc).any seen.contains)).filterMap (compile env chrono now spec []) := by
  induction docs with
  | nil => rfl
  | cons doc docs ih =>
      rw [List.filterMap_cons, compile_seen, ih]
      by_cases h : (source_alias doc).any seen.contains = true
      · rw [if_pos h, List.filter_cons_of_neg (by simp [h])]
      · rw [if_neg h, List.filter_cons_of_pos (by simp [h]), List.filterMap_cons]

end Targets

/-- A network of brokers: what each (broker, tenant) pair has registered, and the pair a
request to a registered source arrives at. -/
structure Network (B : Type) where
  host : B → HostAlias
  distinct : Function.Injective (fun b => (host b).name)
  docs : B × TenantId → CsrSpec → List Value
  peer : FedReg → Option (B × TenantId)

/-- A request at a pair, with the chain it came by. -/
structure Request (B : Type) where
  pair : B × TenantId
  via : Headers

section Chains

variable {B : Type} (net : Network B) {Instant : Type} [LinearOrder Instant] (chrono : Chrono Instant)

def Network.pseudonym (p : B × TenantId) : String := alias_for (net.host p.1).name p.2

theorem Network.pseudonym_injective : Function.Injective net.pseudonym := by
  rintro ⟨b, t⟩ ⟨b', t'⟩ h
  obtain ⟨hname, ht⟩ := alias_for_inj h
  exact Prod.ext (net.distinct hname) ht

/-- One forward: to a target of the operation, the own pseudonym added, the fields cut
and joined on the way in any manner that keeps the elements. -/
def Forwards (op : Operation) (r r' : Request B) : Prop :=
  ∃ env now spec, ∃ reg ∈ targets env chrono op now spec (net.docs r.pair spec) r.via (net.pseudonym r.pair),
    net.peer reg = some r'.pair ∧ elements r'.via = elements [outbound_via r.via (net.pseudonym r.pair)]

/-- A chain of forwarded requests, and the pairs that forwarded it. -/
inductive Chain (allowed : Operation → Prop) (start : Request B) : List (B × TenantId) → Request B → Prop
  | start : Chain allowed start [] start
  | forward {pairs : List (B × TenantId)} {r r' : Request B} (op : Operation) : Chain allowed start pairs r →
      allowed op → Forwards net chrono op r r' → Chain allowed start (pairs ++ [r.pair]) r'

variable {net chrono} {allowed : Operation → Prop} {start r : Request B} {pairs : List (B × TenantId)}

theorem token_pseudonym (p : B × TenantId) : Token (net.pseudonym p).toList := token_alias_for _ _

/-- The header of a forwarded request names the pairs that forwarded it, after what it started with. -/
theorem chain_elements (h : Chain net chrono allowed start pairs r) :
    elements r.via = elements start.via ++ pairs.map (fun p => ["1.1".toList, (net.pseudonym p).toList]) := by
  induction h with
  | start => simp
  | forward _ _ _ hforward ih =>
      obtain ⟨_, _, _, _, _, _, hvia⟩ := hforward
      rw [hvia, elements_outbound _ (token_pseudonym _), ih, List.map_append, List.append_assoc]
      rfl

theorem chain_tokens (h : Chain net chrono allowed start pairs r) :
    via_tokens r.via = via_tokens start.via ++ pairs.map net.pseudonym := by
  rw [via_tokens_eq, via_tokens_eq, chain_elements h, List.filterMap_append, List.filterMap_map]
  congr 1
  have hone : received_by ∘ (fun p => ["1.1".toList, (net.pseudonym p).toList]) = some ∘ net.pseudonym := by
    funext p
    simp [received_by]
  rw [hone, List.filterMap_eq_map]

theorem chain_hops (h : Chain net chrono allowed start pairs r) : pairs.length ≤ via_hops r.via := by
  have hlen := length_elements_le r.via
  rw [chain_elements h, List.length_append, List.length_map] at hlen
  omega

/-- Each pair forwards at most once. -/
theorem chain_nodup (hallowed : ∀ op, allowed op → op ≠ .create_entity_map)
    (h : Chain net chrono allowed start pairs r) : pairs.Nodup := by
  induction h with
  | start => exact List.nodup_nil
  | forward op hchain hop hforward ih =>
      obtain ⟨env, now, spec, reg, hreg, -, -⟩ := hforward
      have hfresh := targets_not_looped env chrono (hallowed op hop) hreg
      rw [chain_tokens hchain, List.mem_append, not_or] at hfresh
      refine List.nodup_append.mpr ⟨ih, List.nodup_singleton _, fun p hp q hq hpq => ?_⟩
      obtain rfl := List.mem_singleton.mp hq
      exact hfresh.2 (List.mem_map.mpr ⟨p, hp, by rw [hpq]⟩)

theorem chain_length (h : Chain net chrono allowed start pairs r) : pairs.length ≤ MAX_VIA_HOPS + 1 := by
  cases h with
  | start => exact Nat.zero_le _
  | forward _ hchain _ hforward =>
      obtain ⟨env, now, spec, reg, hreg, -, -⟩ := hforward
      have hwithin := targets_within env chrono hreg
      have hhops := chain_hops hchain
      rw [List.length_append, List.length_singleton]
      omega

/-- At a pair the chain does not name, within the bound, an operation looks at every registration
but those whose alias the chain names. -/
theorem targets_fresh (h : Chain net chrono allowed start pairs r) (hwithin : via_hops r.via ≤ MAX_VIA_HOPS)
    (hpairs : r.pair ∉ pairs) (hstart : net.pseudonym r.pair ∉ via_tokens start.via) {op : Operation}
    (hop : op ≠ .create_entity_map) (env : Env) (now : String) (spec : CsrSpec) (docs : List Value) :
    targets env chrono op now spec docs r.via (net.pseudonym r.pair) =
      (if op = .write then write_regs else id) (merge_same_source ((docs.filter (fun doc =>
        !(source_alias doc).any (via_tokens start.via ++ pairs.map net.pseudonym).contains)).filterMap
          (compile env chrono now spec []))) := by
  have hfresh : net.pseudonym r.pair ∉ via_tokens r.via := by
    rw [chain_tokens h, List.mem_append, not_or]
    refine ⟨hstart, fun hmem => ?_⟩
    obtain ⟨p, hp, hname⟩ := List.mem_map.mp hmem
    exact hpairs (net.pseudonym_injective hname ▸ hp)
  have hloop : via_loop r.via (net.pseudonym r.pair) = false := by
    rw [via_loop, decide_eq_false (Nat.not_lt.mpr hwithin), Bool.false_or, Bool.eq_false_iff]
    exact fun hc => hfresh (List.contains_iff_mem.mp hc)
  have hregs : matching_regs env chrono now spec docs r.via = merge_same_source ((docs.filter (fun doc =>
      !(source_alias doc).any (via_tokens start.via ++ pairs.map net.pseudonym).contains)).filterMap
        (compile env chrono now spec [])) := by
    rw [matching_regs, if_neg (Nat.not_lt.mpr hwithin), compile_chain, chain_tokens h]
  rw [targets_eq env chrono hop, hloop, hregs, if_neg Bool.false_ne_true]
  split_ifs <;> rfl

end Chains

section Termination

variable {B : Type} (net : Network B) {Instant : Type} [LinearOrder Instant] (chrono : Chrono Instant)

/-- Along every chain of reads and writes each pair forwards at most once and the chain is bounded;
short of the bound a pair the chain does not name drops only registrations of sources it names. -/
theorem forwarding_terminates {start r : Request B} {pairs : List (B × TenantId)}
    (h : Chain net chrono (fun op => op ≠ .create_entity_map) start pairs r) :
    pairs.Nodup ∧ pairs.length ≤ MAX_VIA_HOPS + 1 ∧
      (via_hops r.via ≤ MAX_VIA_HOPS → r.pair ∉ pairs → net.pseudonym r.pair ∉ via_tokens start.via →
        ∀ op, op ≠ Operation.create_entity_map → ∀ env now spec,
          targets env chrono op now spec (net.docs r.pair spec) r.via (net.pseudonym r.pair) =
            (if op = .write then write_regs else id) (merge_same_source (((net.docs r.pair spec).filter (fun doc =>
              !(source_alias doc).any (via_tokens start.via ++ pairs.map net.pseudonym).contains)).filterMap
                (compile env chrono now spec [])))) :=
  ⟨chain_nodup (fun _ hop => hop) h, chain_length h,
    fun hwithin hpairs hstart _ hop env now spec => targets_fresh h hwithin hpairs hstart hop env now spec _⟩

theorem default_shape : DEFAULT ≠ "" ∧ DEFAULT.utf8ByteSize ≤ 64 ∧
    ∀ c ∈ DEFAULT.toList, c.isAlphanum = true ∨ c = '_' ∨ c = '-' := by
  decide

def default_tenant : TenantId := ⟨DEFAULT, default_shape⟩

/-- A registration of any entity at a peer. -/
def peer_reg (context_source_alias : List (String × Value)) : Value := .object (context_source_alias ++ [
  ("endpoint", .string "http://peer"),
  ("id", .string "urn:ngsi-ld:ContextSourceRegistration:1"),
  ("information", .array [.object []]),
  ("operations", .array [.string "federationOps"])])

/-- One broker whose registration points back at itself. -/
def mirror_broker (doc : Value) : Network Unit where
  host _ := ⟨"b1", by decide⟩
  distinct _ _ _ := rfl
  docs _ _ := [doc]
  peer _ := some ((), default_tenant)

def first_request : Request Unit := ⟨((), default_tenant), []⟩

def second_request : Request Unit := ⟨((), default_tenant), ["1.1 b1"]⟩

def third_request : Request Unit := ⟨((), default_tenant), ["1.1 b1, 1.1 b1"]⟩

theorem forwards_first (op : Operation) :
    Forwards (mirror_broker (peer_reg [])) fixed_width op first_request second_request := by
  have hvia : elements second_request.via =
      elements [outbound_via first_request.via ((mirror_broker (peer_reg [])).pseudonym first_request.pair)] := by
    decide
  cases op <;> exact ⟨one_vocabulary, "2024-01-01T00:00:00Z", any_spec, _, List.mem_cons_self, rfl, hvia⟩

theorem forwarding_terminates_mirror : [((), default_tenant)].Nodup :=
  (forwarding_terminates (mirror_broker (peer_reg [])) fixed_width (.forward .read .start nofun (forwards_first .read))).1

/-- A pair off the chain drops a registration for its alias, and creating an EntityMap
forwards twice from one pair. -/
theorem forwarding_drops_and_repeats :
    (targets one_vocabulary fixed_width .read "2024-01-01T00:00:00Z" any_spec
        [peer_reg [("contextSourceAlias", .string "a1")]] ["1.1 a1"] "b1" = [] ∧
      targets one_vocabulary fixed_width .read "2024-01-01T00:00:00Z" any_spec
        [peer_reg [("contextSourceAlias", .string "a1")]] [] "b1" ≠ [] ∧ "b1" ∉ via_tokens ["1.1 a1"]) ∧
    Chain (mirror_broker (peer_reg [])) fixed_width (fun _ => True) first_request
      [((), default_tenant), ((), default_tenant)] third_request := by
  refine ⟨⟨rfl, nofun, by decide⟩, ?_⟩
  refine .forward .create_entity_map (.forward .create_entity_map .start trivial (forwards_first _)) trivial ?_
  refine ⟨one_vocabulary, "2024-01-01T00:00:00Z", any_spec, _, List.mem_cons_self, rfl, ?_⟩
  decide

end Termination

end AntaresBroker.Federation
