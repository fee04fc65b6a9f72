import Mathlib.Data.Nat.Bitwise

namespace AntaresBroker.EgressPolicy

structure Ipv4Addr where
  bits : Nat
  fits : bits < 2 ^ 32
deriving DecidableEq

abbrev Segment := Fin (2 ^ 16)

structure Ipv6Addr where
  s0 : Segment
  s1 : Segment
  s2 : Segment
  s3 : Segment
  s4 : Segment
  s5 : Segment
  s6 : Segment
  s7 : Segment
deriving DecidableEq

inductive IpAddr
  | V4 (v4 : Ipv4Addr)
  | V6 (v6 : Ipv6Addr)

def Ipv4Addr.o0 (a : Ipv4Addr) : Nat := a.bits / 2 ^ 24
def Ipv4Addr.o1 (a : Ipv4Addr) : Nat := a.bits / 2 ^ 16 % 2 ^ 8
def Ipv4Addr.o2 (a : Ipv4Addr) : Nat := a.bits / 2 ^ 8 % 2 ^ 8
def Ipv4Addr.o3 (a : Ipv4Addr) : Nat := a.bits % 2 ^ 8

def Ipv4Addr.is_loopback (a : Ipv4Addr) : Bool := a.o0 == 127
def Ipv4Addr.is_link_local (a : Ipv4Addr) : Bool := a.o0 == 169 && a.o1 == 254
def Ipv4Addr.is_private (a : Ipv4Addr) : Bool :=
  a.o0 == 10 || (a.o0 == 172 && decide (16 ≤ a.o1 ∧ a.o1 ≤ 31)) || (a.o0 == 192 && a.o1 == 168)

def Ipv6Addr.is_unspecified (v6 : Ipv6Addr) : Bool := v6 == ⟨0, 0, 0, 0, 0, 0, 0, 0⟩
def Ipv6Addr.is_loopback (v6 : Ipv6Addr) : Bool := v6 == ⟨0, 0, 0, 0, 0, 0, 0, 1⟩

/-- The address of two segments; the low half of the shifted one is empty. -/
def v4 (hi lo : Segment) : Ipv4Addr := ⟨hi * 2 ^ 16 + lo, by omega⟩

def Ipv6Addr.to_ipv4_mapped (v6 : Ipv6Addr) : Option Ipv4Addr :=
  if v6.s0 = 0 ∧ v6.s1 = 0 ∧ v6.s2 = 0 ∧ v6.s3 = 0 ∧ v6.s4 = 0 ∧ v6.s5 = 0xffff then some (v4 v6.s6 v6.s7) else none

def Ipv6Addr.to_ipv4 (v6 : Ipv6Addr) : Option Ipv4Addr :=
  if v6.s0 = 0 ∧ v6.s1 = 0 ∧ v6.s2 = 0 ∧ v6.s3 = 0 ∧ v6.s4 = 0 ∧ (v6.s5 = 0 ∨ v6.s5 = 0xffff) then some (v4 v6.s6 v6.s7)
  else none

/-- The IPv4 destination an IPv6 address stands for. -/
def embedded_v4 (v6 : Ipv6Addr) : Option Ipv4Addr :=
  if v6.s0 = 0x0064 ∧ v6.s1 = 0xff9b ∧ v6.s2 = 0 ∧ v6.s3 = 0 ∧ v6.s4 = 0 ∧ v6.s5 = 0 then some (v4 v6.s6 v6.s7)
  else if v6.s0 = 0x2002 then some (v4 v6.s1 v6.s2)
  else v6.to_ipv4_mapped.or v6.to_ipv4

/-- The instance-metadata endpoints of IPv4. -/
def v4_is_metadata (a : Ipv4Addr) : Bool :=
  a.is_link_local || (a.o0 == 100 && a.o1 == 100 && a.o2 == 100 && a.o3 == 200)

def ip_is_metadata : IpAddr → Bool
  | .V4 a => v4_is_metadata a
  | .V6 v6 => v6 == ⟨0xfd00, 0x0ec2, 0, 0, 0, 0, 0, 0x254⟩ || (embedded_v4 v6).any v4_is_metadata

def v4_is_private (a : Ipv4Addr) : Bool :=
  a.is_loopback || a.is_private || a.is_link_local || a.o0 == 0 || (a.o0 == 100 && decide (64 ≤ a.o1 ∧ a.o1 < 128)) ||
    (a.o0 == 192 && a.o1 == 0 && a.o2 == 0) || (a.o0 == 198 && (a.o1 == 18 || a.o1 == 19)) || decide (240 ≤ a.o0)

/-- The ranges of IPv6 itself: loopback, unspecified, unique-local and link-local. -/
def v6_is_private (v6 : Ipv6Addr) : Bool :=
  v6.is_loopback || v6.is_unspecified || (v6.s0.val &&& 0xfe00) == 0xfc00 || (v6.s0.val &&& 0xffc0) == 0xfe80

def ip_is_private : IpAddr → Bool
  | .V4 a => v4_is_private a
  | .V6 v6 => (embedded_v4 v6).any v4_is_private || v6_is_private v6

section Spellings

/-- The ways of writing an IPv4 address as an IPv6 one; after the prefix of 6to4 and the
address the rest is free. -/
inductive Spelling
  | mapped
  | compatible
  | nat64
  | six_to_four (s3 s4 s5 s6 s7 : Segment)

def high (a : Ipv4Addr) : Segment := ⟨a.bits / 2 ^ 16, by have := a.fits; omega⟩
def low (a : Ipv4Addr) : Segment := ⟨a.bits % 2 ^ 16, by omega⟩

def spelled (a : Ipv4Addr) : Spelling → Ipv6Addr
  | .mapped => ⟨0, 0, 0, 0, 0, 0xffff, high a, low a⟩
  | .compatible => ⟨0, 0, 0, 0, 0, 0, high a, low a⟩
  | .nat64 => ⟨0x0064, 0xff9b, 0, 0, 0, 0, high a, low a⟩
  | .six_to_four s3 s4 s5 s6 s7 => ⟨0x2002, high a, low a, s3, s4, s5, s6, s7⟩

theorem v4_high_low (a : Ipv4Addr) : v4 (high a) (low a) = a := by
  obtain ⟨bits, fits⟩ := a
  rw [v4, Ipv4Addr.mk.injEq, high, low]
  exact Nat.div_add_mod' bits (2 ^ 16)

theorem high_v4 (hi lo : Segment) : high (v4 hi lo) = hi := by
  apply Fin.ext
  rw [high, v4]
  dsimp only
  omega

theorem low_v4 (hi lo : Segment) : low (v4 hi lo) = lo := by
  apply Fin.ext
  rw [low, v4]
  dsimp only
  omega

theorem embedded_spelled (a : Ipv4Addr) (sp : Spelling) : embedded_v4 (spelled a sp) = some a := by
  cases sp with
  | mapped => simp [embedded_v4, spelled, Ipv6Addr.to_ipv4_mapped, v4_high_low]
  | compatible => simp [embedded_v4, spelled, Ipv6Addr.to_ipv4_mapped, Ipv6Addr.to_ipv4, v4_high_low]
  | nat64 => simp [embedded_v4, spelled, v4_high_low]
  | six_to_four => simp [embedded_v4, spelled, v4_high_low]

/-- The spellings are all the addresses that stand for an IPv4 one. -/
theorem embedded_iff {v6 : Ipv6Addr} {a : Ipv4Addr} : embedded_v4 v6 = some a ↔ ∃ sp, v6 = spelled a sp := by
  constructor
  · intro h
    obtain ⟨s0, s1, s2, s3, s4, s5, s6, s7⟩ := v6
    rw [embedded_v4] at h
    split_ifs at h with hnat hsix
    · cases h
      obtain ⟨rfl, rfl, rfl, rfl, rfl, rfl⟩ := hnat
      refine ⟨.nat64, ?_⟩
      rw [spelled, high_v4, low_v4]
    · cases h
      obtain rfl : s0 = 0x2002 := hsix
      refine ⟨.six_to_four s3 s4 s5 s6 s7, ?_⟩
      rw [spelled, high_v4, low_v4]
    · rw [Ipv6Addr.to_ipv4_mapped, Ipv6Addr.to_ipv4] at h
      split_ifs at h with hmapped hv4 hv4
      · cases h
        obtain ⟨rfl, rfl, rfl, rfl, rfl, rfl⟩ := hmapped
        refine ⟨.mapped, ?_⟩
        rw [spelled, high_v4, low_v4]
      · cases h
        obtain ⟨rfl, rfl, rfl, rfl, rfl, rfl⟩ := hmapped
        refine ⟨.mapped, ?_⟩
        rw [spelled, high_v4, low_v4]
      · cases h
        obtain ⟨rfl, rfl, rfl, rfl, rfl, rfl | rfl⟩ := hv4
        · refine ⟨.compatible, ?_⟩
          rw [spelled, high_v4, low_v4]
        · exact absurd ⟨rfl, rfl, rfl, rfl, rfl, rfl⟩ hmapped
      · cases h
  · rintro ⟨sp, rfl⟩
    exact embedded_spelled a sp

theorem v6_is_private_spelled {a : Ipv4Addr} {sp : Spelling} (h : v6_is_private (spelled a sp) = true) :
    v4_is_private a = true := by
  cases sp with
  | mapped => simp [v6_is_private, spelled, Ipv6Addr.is_loopback, Ipv6Addr.is_unspecified] at h
  | nat64 =>
      simp only [v6_is_private, spelled, Ipv6Addr.is_loopback, Ipv6Addr.is_unspecified, Bool.or_eq_true, beq_iff_eq,
        Ipv6Addr.mk.injEq] at h
      rcases h with ((h | h) | h) | h
      · exact absurd h.1 (by decide)
      · exact absurd h.1 (by decide)
      · exact absurd h (by decide)
      · exact absurd h (by decide)
  | six_to_four =>
      simp only [v6_is_private, spelled, Ipv6Addr.is_loopback, Ipv6Addr.is_unspecified, Bool.or_eq_true, beq_iff_eq,
        Ipv6Addr.mk.injEq] at h
      rcases h with ((h | h) | h) | h
      · exact absurd h.1 (by decide)
      · exact absurd h.1 (by decide)
      · exact absurd h (by decide)
      · exact absurd h (by decide)
  | compatible =>
      have hhigh : high a = 0 := by
        simp [v6_is_private, spelled, Ipv6Addr.is_loopback, Ipv6Addr.is_unspecified] at h
        rcases h with h | h
        · exact h.1
        · exact h.1
      have hbits : a.bits / 2 ^ 16 = 0 := congrArg Fin.val hhigh
      have ho0 : a.o0 = 0 := by
        rw [Ipv4Addr.o0]
        omega
      simp [v4_is_private, ho0]

theorem spelled_verdict (a : Ipv4Addr) (sp : Spelling) : ip_is_metadata (.V6 (spelled a sp)) = ip_is_metadata (.V4 a) ∧
    ip_is_private (.V6 (spelled a sp)) = ip_is_private (.V4 a) := by
  constructor
  · have hnot : (spelled a sp == ⟨0xfd00, 0x0ec2, 0, 0, 0, 0, 0, 0x254⟩) = false := by
      cases sp <;> simp [spelled]
    rw [ip_is_metadata, ip_is_metadata, hnot, embedded_spelled, Option.any_some, Bool.false_or]
  · rw [ip_is_private, ip_is_private, embedded_spelled, Option.any_some]
    cases hv6 : v6_is_private (spelled a sp) with
    | false => exact Bool.or_false _
    | true => rw [v6_is_private_spelled hv6, Bool.or_true]

theorem v4_metadata_is_private {a : Ipv4Addr} (h : v4_is_metadata a = true) : v4_is_private a = true := by
  rw [v4_is_metadata, Bool.or_eq_true] at h
  rcases h with h | h
  · simp [v4_is_private, h]
  · simp only [Bool.and_eq_true, beq_iff_eq] at h
    simp [v4_is_private, h]

theorem metadata_is_private {ip : IpAddr} (h : ip_is_metadata ip = true) : ip_is_private ip = true := by
  cases ip with
  | V4 a => exact v4_metadata_is_private h
  | V6 v6 =>
      rw [ip_is_metadata, Bool.or_eq_true] at h
      rw [ip_is_private, Bool.or_eq_true]
      rcases h with h | h
      · right
        rw [beq_iff_eq] at h
        subst h
        decide
      · left
        cases hv4 : embedded_v4 v6 with
        | none =>
            rw [hv4] at h
            cases h
        | some a =>
            rw [hv4] at h
            exact v4_metadata_is_private h

/-- The addresses that stand for an IPv4 one are its spellings, each is judged as it is, and what is refused
always is refused where private destinations are. -/
theorem spellings_judged_alike (a : Ipv4Addr) : (∀ v6, embedded_v4 v6 = some a ↔ ∃ sp, v6 = spelled a sp) ∧
    (∀ sp, ip_is_metadata (.V6 (spelled a sp)) = ip_is_metadata (.V4 a) ∧
      ip_is_private (.V6 (spelled a sp)) = ip_is_private (.V4 a)) ∧
    ∀ ip, (ip_is_metadata ip && !ip_is_private ip) = false := by
  refine ⟨fun _ => embedded_iff, spelled_verdict a, fun ip => ?_⟩
  cases hmeta : ip_is_metadata ip with
  | false => rfl
  | true => rw [metadata_is_private hmeta]; rfl

end Spellings

section Dialling

/-- The switch of a deployment: whether it may reach private ranges. -/
structure Policy where
  allow_private : Bool

/-- The host of a URL. -/
inductive Host
  | literal (ip : IpAddr)
  | name (n : String)

inductive Denial
  | instance_metadata
  | private_range
  | unresolved

/-- One answer of the resolver; there is none where it fails or does not answer in time. -/
abbrev Answer := Option (List IpAddr)

def MAX_REDIRECTS : Nat := 3

def is_localhost (n : String) : Bool := n.toLower == "localhost"

def denied (p : Policy) (ip : IpAddr) : Bool := ip_is_metadata ip || (!p.allow_private && ip_is_private ip)

/-- The verdict on a destination as it is written. -/
def check_host (p : Policy) : Host → Answer → Except Denial Unit
  | .literal ip, _ =>
      if ip_is_metadata ip then .error .instance_metadata
      else if p.allow_private then .ok ()
      else if ip_is_private ip then .error .private_range
      else .ok ()
  | .name n, answer =>
      if p.allow_private then .ok ()
      else if is_localhost n then .error .private_range
      else match answer with
        | none => .error .unresolved
        | some addrs => if addrs.any ip_is_private then .error .private_range else .ok ()

/-- The addresses the resolver of the client lets through. -/
def policy_resolve (p : Policy) (addrs : List IpAddr) : List IpAddr :=
  (addrs.filter (fun ip => !ip_is_metadata ip)).filter (fun ip => p.allow_private || !ip_is_private ip)

/-- The addresses a client may connect to: a literal itself, for a name what its resolver lets
through of the answer it is given then. -/
def connect (p : Policy) : Host → Answer → List IpAddr
  | .literal ip, _ => [ip]
  | .name _, answer => policy_resolve p (answer.getD [])

/-- Whether a redirect is followed, after so many requests. -/
def follows (p : Policy) (previous : Nat) : Host → Bool
  | .literal ip => decide (previous ≤ MAX_REDIRECTS) && !denied p ip
  | .name _ => decide (previous ≤ MAX_REDIRECTS)

/-- Where a server sends the client, and what the resolver answers for it then. -/
structure Hop where
  host : Host
  answer : Answer

/-- The connections of a request that has been redirected, for each the addresses it may go to. -/
def redirected (p : Policy) (previous : Nat) : List Hop → List (List IpAddr)
  | [] => []
  | hop :: hops => if follows p previous hop.host then connect p hop.host hop.answer :: redirected p (previous + 1) hops else []

/-- The connections of a fetch: `checked` is the answer of the resolver when the destination is
checked, `hops` starts with the destination itself. -/
def fetch (p : Policy) (checked : Answer) (first : Hop) (hops : List Hop) : List (List IpAddr) :=
  match check_host p first.host checked with
  | .error _ => []
  | .ok () => connect p first.host first.answer :: redirected p 1 hops

/-- The address that plain MQTT connects to. -/
def checked_addr (p : Policy) (host : Host) (answer : Answer) : Option IpAddr :=
  let addrs := match host with
    | .literal ip => [ip]
    | .name _ => answer.getD []
  addrs.find? (fun ip => !ip_is_metadata ip && (p.allow_private || !ip_is_private ip))

variable {p : Policy}

theorem not_denied_of_checked {ip : IpAddr} {answer : Answer} (h : check_host p (.literal ip) answer = .ok ()) :
    denied p ip = false := by
  rw [check_host] at h
  split_ifs at h with hmeta hallow hprivate
  · rw [Bool.not_eq_true] at hmeta
    simp [denied, hmeta, hallow]
  · rw [Bool.not_eq_true] at hmeta hprivate
    simp [denied, hmeta, hprivate]

theorem not_denied_of_resolved {ip : IpAddr} {addrs : List IpAddr} (h : ip ∈ policy_resolve p addrs) :
    denied p ip = false := by
  obtain ⟨h, hprivate⟩ := List.mem_filter.mp h
  have hmeta := (List.mem_filter.mp h).2
  rw [Bool.not_eq_true'] at hmeta
  rw [Bool.or_eq_true, Bool.not_eq_true'] at hprivate
  rw [denied, hmeta, Bool.false_or]
  rcases hprivate with hprivate | hprivate
  · rw [hprivate]
    rfl
  · rw [hprivate, Bool.and_false]

/-- Plain MQTT dials no denied address either. -/
theorem not_denied_of_checked_addr {host : Host} {answer : Answer} {ip : IpAddr} (h : checked_addr p host answer = some ip) :
    denied p ip = false := by
  have hip := List.find?_some h
  rw [Bool.and_eq_true, Bool.not_eq_true', Bool.or_eq_true, Bool.not_eq_true'] at hip
  rw [denied, hip.1, Bool.false_or]
  rcases hip.2 with hallow | hprivate
  · rw [hallow]
    rfl
  · rw [hprivate, Bool.and_false]

theorem redirected_spec (previous : Nat) (hops : List Hop) : (redirected p previous hops).length ≤ MAX_REDIRECTS + 1 - previous ∧
    ∀ addrs ∈ redirected p previous hops, ∀ ip ∈ addrs, denied p ip = false := by
  induction hops generalizing previous with
  | nil => exact ⟨Nat.zero_le _, fun addrs h => by cases h⟩
  | cons hop hops ih =>
      obtain ⟨host, answer⟩ := hop
      rw [redirected]
      split_ifs with hfollows
      · obtain ⟨hlen, hall⟩ := ih (previous + 1)
        have hroom : previous ≤ MAX_REDIRECTS := by
          cases host with
          | literal ip =>
              rw [follows, Bool.and_eq_true] at hfollows
              exact of_decide_eq_true hfollows.1
          | name n => exact of_decide_eq_true hfollows
        refine ⟨by rw [List.length_cons]; omega, fun addrs haddrs => ?_⟩
        rcases List.mem_cons.mp haddrs with rfl | haddrs
        · intro ip hip
          cases host with
          | literal ip' =>
              rw [follows, Bool.and_eq_true, Bool.not_eq_true'] at hfollows
              rw [List.mem_singleton.mp hip]
              exact hfollows.2
          | name n => exact not_denied_of_resolved hip
        · exact hall addrs haddrs
      · exact ⟨Nat.zero_le _, fun addrs h => by cases h⟩

end Dialling

end AntaresBroker.EgressPolicy
