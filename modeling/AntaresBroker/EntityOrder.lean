import AntaresBroker.Compare
import AntaresBroker.Eval
import AntaresBroker.Fallible
import AntaresBroker.Registry

namespace AntaresBroker.EntityOrder

open Std Fallible Json Number Text Expiry Ql Registry Compare
open Ql.Eval hiding compare

inductive Dir
  | Asc | Desc | DistAsc | DistDesc
deriving DecidableEq

structure Key where
  path : List String
  bracket : Option (List String)
  dir : Dir

abbrev Collator := String → String → Ordering

/-- What ordering takes from elsewhere: the calendar, the context, the
collations, JSON texts and the geometry of the plane. -/
structure Library (Instant Geometry : Type) [LinearOrder Instant] where
  chrono : Chrono Instant
  expand_key : String → String
  build_collator : String → Except String Collator
  from_str : String → Option Value
  to_string : Value → String
  debug : String → String
  parse_ref_geometry : String → Value → Except String Geometry
  parse_geometry : String → Value → Except String Geometry
  min_distance_m : Geometry → Geometry → BitVec 64

/-- An ordering ready to compare. -/
structure Order (Geometry : Type) where
  keys : List Key
  collator : Option Collator
  refg : Option Geometry

section Doubles

def to_bits (x : F64) : BitVec 64 := BitVec.ofNat 64 ((if x.neg then 2 ^ 63 else 0) + x.mag)

/-- The bits as an integer whose order is that of `total_cmp`. -/
def total_key (x : BitVec 64) : Int := (x ^^^ ((x.sshiftRight 63) >>> 1)).toInt

def total_cmp (x y : BitVec 64) : Ordering := compare (total_key x) (total_key y)

end Doubles

section Specification

variable {Instant Geometry : Type} [LinearOrder Instant] (x : Library Instant Geometry)

def direction : List Char → Option Dir
  | s => if s = "asc".toList then some .Asc else if s = "desc".toList then some .Desc
    else if s = "dist-asc".toList then some .DistAsc else if s = "dist-desc".toList then some .DistDesc else none

def segments (s : List Char) : List String := (s.splitOn '.').map String.ofList

/-- One trailing bracket with the member path below the value. -/
def split_bracket (spec : String) (member : List Char) : Except String (List Char × Option (List String)) :=
  match splitOnce '[' member with
  | none => .ok (member, none)
  | some (head, rest) =>
      if rest.getLast? = some ']' then .ok (head, some (segments rest.dropLast))
      else .error s!"unclosed bracket in orderBy {x.debug spec}"

def parse_key (spec : String) (part : List Char) : Except String Key :=
  let split := match splitOnce ';' (trim part) with
    | some (m, d) => (trim m, trim d)
    | none => (trim part, "asc".toList)
  match direction split.2 with
  | none => .error s!"invalid orderBy direction in {x.debug spec} (4.23.3)"
  | some dir =>
      match split_bracket x spec split.1 with
      | .error e => .error e
      | .ok (head, bracket) =>
          if head = [] then .error s!"invalid orderBy {x.debug spec} (4.23)"
          else .ok ⟨segments head, bracket, dir⟩

def is_distance (k : Key) : Bool := k.dir = .DistAsc ∨ k.dir = .DistDesc

/-- The geometry distances are measured from. -/
def reference (params : String → Option String) : Except String Geometry :=
  match params "orderFrom" with
  | none => .error "dist ordering requires orderFrom (4.23.3)"
  | some coords_raw =>
      match x.from_str coords_raw with
      | none => .error s!"invalid orderFrom {x.debug coords_raw}"
      | some coords => x.parse_ref_geometry ((params "orderGeometry").getD "Point") coords

/-- Only distance keys need the geometry. -/
def needed_reference (params : String → Option String) (keys : List Key) : Except String (Option Geometry) :=
  if keys.any is_distance then (reference x params).map some else .ok none

/-- The ordering a specification asks for, or the text of its refusal. -/
def accept (params : String → Option String) (spec : String) : Except String (Order Geometry) := do
  let keys ← (spec.toList.splitOn ',').mapM (parse_key x spec)
  let collator ← (params "collation").mapM x.build_collator
  let refg ← needed_reference x params keys
  .ok ⟨keys, collator, refg⟩

end Specification

section Values

variable {Instant Geometry : Type} [LinearOrder Instant] (x : Library Instant Geometry)

/-- Members of an instance that are no sub-attributes. -/
def INSTANCE_MEMBERS : List String := ["createdAt", "modifiedAt", "observedAt", "datasetId", "unitCode"]

def first_instance (v : Value) (k : String) : Option Value := ((v.get k).bind Value.as_array).bind List.head?

def order_step (cur : Value) (seg : String) : Option Value :=
  if INSTANCE_MEMBERS.contains seg then cur.get seg else first_instance cur (x.expand_key seg)

def order_base (doc : Value) : List String → Option Value
  | [] => none
  | head :: rest =>
      if head = "id" ∨ head = "createdAt" ∨ head = "modifiedAt" then doc.get head
      else if head = "type" then first_instance doc "type"
      else
        (first_instance doc (x.expand_key head)).bind fun inst =>
        (rest.foldlM (order_step x) inst).map fun cur => ((cur.get "value").or (cur.get "object")).getD cur

def order_value (doc : Value) (k : Key) : Option Value := (order_base x doc k.path).bind (navigate (k.bracket.getD []))

def is_date (s : List Char) : Bool := shaped "0000-00-00".toList s

def is_time (s : List Char) : Bool := s.getLast? = some 'Z' ∧ shaped "00:00:00".toList (s.take 8) = true

/-- The datatypes in their order, dates and times apart from other texts. -/
def rank : Value → Nat
  | .number _ => 0
  | .string s =>
      if parse_datetime x.chrono s.toList then 7 else if is_date s.toList then 6 else if is_time s.toList then 5 else 1
  | .object _ => 2
  | .array _ => 3
  | .bool _ => 4
  | .null => 8

def order_distance_m (refg : Geometry) (target : Value) : Option (BitVec 64) :=
  (target.get "type").bind Value.as_str |>.bind fun t =>
  (target.get "coordinates").bind fun c =>
  match x.parse_geometry t c with
  | .ok g => some (x.min_distance_m refg g)
  | .error _ => none

/-- Two values of one rank; every number has a double. -/
def cmp_ranked (coll : Option Collator) : Value → Value → Ordering
  | .number a, .number b => total_cmp (to_bits a.as_f64) (to_bits b.as_f64)
  | .bool a, .bool b => compare a b
  | .string s, .string t =>
      if rank x (.string s) = 7 then compare (dt_key s) (dt_key t)
      else
        match coll with
        | some collate => collate s t
        | none => compare s t
  | a, b => compare (x.to_string a) (x.to_string b)

/-- Absent values last, then by rank. -/
def cmp_vals (coll : Option Collator) : Option Value → Option Value → Ordering
  | none, none => .eq
  | none, some _ => .gt
  | some _, none => .lt
  | some a, some b => if rank x a = rank x b then cmp_ranked x coll a b else compare (rank x a) (rank x b)

end Values

section Comparison

variable {Instant Geometry : Type} [LinearOrder Instant] (x : Library Instant Geometry) (o : Order Geometry)

def reversed (yes : Bool) (c : Ordering) : Ordering := if yes then c.swap else c

def cmp_value (k : Key) (a b : Value) : Ordering :=
  reversed (k.dir = .Desc) (cmp_vals x o.collator (order_value x a k) (order_value x b k))

def distance (refg : Geometry) (k : Key) (doc : Value) : Option (BitVec 64) :=
  (order_value x doc k).bind (order_distance_m x refg)

/-- Distances before values, only the distances turned round. -/
def cmp_distance (refg : Geometry) (k : Key) (a b : Value) : Ordering :=
  match distance x refg k a, distance x refg k b with
  | some da, some db => reversed (k.dir = .DistDesc) (total_cmp da db)
  | some _, none => .lt
  | none, some _ => .gt
  | none, none => cmp_vals x o.collator (order_value x a k) (order_value x b k)

/-- The first key on which two documents differ decides. -/
def cmp_keys : List Key → Value → Value → Ordering
  | [], _, _ => .eq
  | k :: keys, a, b =>
      if is_distance k then
        match o.refg with
        | none => .eq
        | some refg => (cmp_distance x o refg k a b).then (cmp_keys keys a b)
      else (cmp_value x o k a b).then (cmp_keys keys a b)

def cmp_docs (a b : Value) : Ordering := cmp_keys x o o.keys a b

def order_entities (params : String → Option String) (spec : String) (docs : List Value) : Except String (List Value) :=
  (accept x params spec).map fun o => sort_by (cmp_docs x o) docs

end Comparison

section Preorder

variable {Instant Geometry : Type} [LinearOrder Instant] (x : Library Instant Geometry)

theorem total_cmp_transCmp : TransCmp total_cmp := pull_transCmp total_key inferInstance

/-- Absent values after all others. -/
def value_group (v : Option Value) : Nat := v.elim 9 (rank x)

def text (v : Option Value) : String := (v.bind Value.as_str).getD ""

/-- How two values of one rank are compared. -/
def within (coll : Option Collator) : Nat → Option Value → Option Value → Ordering
  | 0 => fun a b => total_cmp ((a.bind Value.as_f64).elim 0 to_bits) ((b.bind Value.as_f64).elim 0 to_bits)
  | 4 => compareOn (fun v => v.bind Value.as_bool)
  | 7 => compareOn (fun v => dt_key (text v))
  | 2 | 3 | 8 => compareOn (fun v => (v.map x.to_string).getD "")
  | 9 => fun _ _ => .eq
  | _ => fun a b => coll.getD compare (text a) (text b)

theorem within_transCmp {coll : Option Collator} (hc : ∀ c ∈ coll, TransCmp c) (g : Nat) : TransCmp (within x coll g) := by
  have hcoll : TransCmp (coll.getD compare) := by
    cases coll with
    | none => exact inferInstanceAs (TransOrd String)
    | some c => exact hc c rfl
  unfold within
  split
  · exact pull_transCmp _ total_cmp_transCmp
  · infer_instance
  · infer_instance
  · infer_instance
  · infer_instance
  · infer_instance
  · exact const_transCmp
  · exact pull_transCmp text hcoll

theorem rank_string (s : String) :
    rank x (.string s) = 7 ∨ rank x (.string s) = 6 ∨ rank x (.string s) = 5 ∨ rank x (.string s) = 1 := by
  simp only [rank]
  split_ifs <;> simp

theorem rank_lt (v : Value) : rank x v < 9 := by
  cases v <;> simp only [rank] <;> (try split_ifs) <;> decide

/-- The comparison of two values of one rank is that of the rank. -/
theorem cmp_ranked_eq (coll : Option Collator) {a b : Value} (h : rank x a = rank x b) :
    cmp_ranked x coll a b = within x coll (rank x a) (some a) (some b) := by
  have hstring : ∀ s g, rank x (.string s) = g → g ∈ [7, 6, 5, 1] := by
    rintro s g rfl
    simpa using rank_string x s
  cases a with
  | string s =>
      cases b with
      | string t =>
          simp only [cmp_ranked]
          rcases rank_string x s with hr | hr | hr | hr <;> rw [hr] <;> cases coll <;> rfl
      | _ => exact absurd (hstring s _ h) (by simp [rank])
  | number n =>
      cases b with
      | number m => rfl
      | string t => exact absurd (hstring t _ h.symm) (by simp [rank])
      | _ => cases h
  | bool s =>
      cases b with
      | bool t => cases s <;> cases t <;> rfl
      | string t => exact absurd (hstring t _ h.symm) (by simp [rank])
      | _ => cases h
  | _ =>
      cases b with
      | string t => exact absurd (hstring t _ h.symm) (by simp [rank])
      | _ => first | cases h; done | rfl

theorem cmp_vals_eq (coll : Option Collator) : cmp_vals x coll = by_group (value_group x) (within x coll) := by
  funext a b
  cases a with
  | none =>
      cases b with
      | none => rfl
      | some b =>
          have h : compare 9 (rank x b) = .gt := Nat.compare_eq_gt.mpr (rank_lt x b)
          simp [cmp_vals, by_group, value_group, h]
  | some a =>
      cases b with
      | none =>
          have h : compare (rank x a) 9 = .lt := Nat.compare_eq_lt.mpr (rank_lt x a)
          simp [cmp_vals, by_group, value_group, h]
      | some b =>
          by_cases h : rank x a = rank x b
          · simp [cmp_vals, by_group, value_group, cmp_ranked_eq x coll h, h]
          · have hne : compare (rank x a) (rank x b) ≠ .eq := fun heq => h (Nat.compare_eq_eq.mp heq)
            cases hc : compare (rank x a) (rank x b) with
            | eq => exact absurd hc hne
            | lt => simp [cmp_vals, by_group, value_group, h, hc]
            | gt => simp [cmp_vals, by_group, value_group, h, hc]

theorem cmp_vals_transCmp {coll : Option Collator} (hc : ∀ c ∈ coll, TransCmp c) : TransCmp (cmp_vals x coll) := by
  rw [cmp_vals_eq]
  exact by_group_transCmp _ (within_transCmp x hc)

variable (o : Order Geometry)

theorem reversed_transCmp {α : Type} {cmp : α → α → Ordering} (h : TransCmp cmp) (yes : Bool) :
    TransCmp (fun a b => reversed yes (cmp a b)) := by
  cases yes with
  | true => exact reverse_transCmp h
  | false => exact h

theorem cmp_value_transCmp (hc : ∀ c ∈ o.collator, TransCmp c) (k : Key) : TransCmp (cmp_value x o k) :=
  reversed_transCmp (pull_transCmp (order_value x · k) (cmp_vals_transCmp x hc)) _

/-- Documents with a distance are one group, those without one the other. -/
theorem cmp_distance_eq (refg : Geometry) (k : Key) :
    cmp_distance x o refg k =
      by_group (fun a => (distance x refg k a).isNone) (fun absent a b =>
        if absent then cmp_vals x o.collator (order_value x a k) (order_value x b k)
        else reversed (k.dir = .DistDesc) (total_cmp ((distance x refg k a).getD 0) ((distance x refg k b).getD 0))) := by
  funext a b
  have hgt : compare true false = .gt := rfl
  have hlt : compare false true = .lt := rfl
  cases ha : distance x refg k a <;> cases hb : distance x refg k b <;> simp [cmp_distance, by_group, ha, hb, hgt, hlt]

theorem cmp_distance_transCmp (hc : ∀ c ∈ o.collator, TransCmp c) (refg : Geometry) (k : Key) :
    TransCmp (cmp_distance x o refg k) := by
  rw [cmp_distance_eq]
  apply by_group_transCmp
  intro absent
  cases absent with
  | true => exact pull_transCmp (order_value x · k) (cmp_vals_transCmp x hc)
  | false => exact reversed_transCmp (pull_transCmp _ total_cmp_transCmp) _

/-- Key by key, the comparison stays a preorder. -/
theorem cmp_keys_transCmp (hc : ∀ c ∈ o.collator, TransCmp c) (keys : List Key) : TransCmp (cmp_keys x o keys) := by
  induction keys with
  | nil => exact const_transCmp
  | cons k keys ih =>
      have hthen {cmp : Value → Value → Ordering} (h : TransCmp cmp) :
          TransCmp (fun a b => (cmp a b).then (cmp_keys x o keys a b)) :=
        inferInstanceAs (TransCmp (compareLex cmp (cmp_keys x o keys)))
      by_cases hk : is_distance k = true
      · cases hr : o.refg with
        | none =>
            have heq : cmp_keys x o (k :: keys) = fun _ _ => .eq := by
              funext a b
              simp [cmp_keys, hk, hr]
            rw [heq]
            exact const_transCmp
        | some refg =>
            have heq : cmp_keys x o (k :: keys) = fun a b => (cmp_distance x o refg k a b).then (cmp_keys x o keys a b) := by
              funext a b
              simp [cmp_keys, hk, hr]
            rw [heq]
            exact hthen (cmp_distance_transCmp x o hc refg k)
      · have heq : cmp_keys x o (k :: keys) = fun a b => (cmp_value x o k a b).then (cmp_keys x o keys a b) := by
          funext a b
          simp [cmp_keys, hk]
        rw [heq]
        exact hthen (cmp_value_transCmp x o hc k)

theorem accept_collator {params : String → Option String} {spec : String}
    (hc : ∀ tag c, x.build_collator tag = .ok c → TransCmp c) (h : accept x params spec = .ok o) :
    ∀ c ∈ o.collator, TransCmp c := by
  obtain ⟨keys, -, h⟩ := bind_eq_ok.mp h
  obtain ⟨collator, hcoll, h⟩ := bind_eq_ok.mp h
  obtain ⟨refg, -, h⟩ := bind_eq_ok.mp h
  injection h with h
  subst h
  intro c hmem
  cases ht : params "collation" with
  | none =>
      rw [ht] at hcoll
      injection hcoll with hcoll
      subst hcoll
      cases hmem
  | some tag =>
      rw [ht] at hcoll
      obtain ⟨c', hb, hc'⟩ := map_eq_ok.mp hcoll
      subst hc'
      injection hmem with hmem
      subst hmem
      exact hc tag _ hb

/-- What an accepted specification compares by is a total preorder, and the
documents come out in its order, tied ones as they came in. -/
theorem order_entities_sorts {params : String → Option String} {spec : String} {o : Order Geometry}
    (hc : ∀ tag c, x.build_collator tag = .ok c → TransCmp c) (h : accept x params spec = .ok o) :
    (∀ a, cmp_docs x o a a = .eq) ∧ (∀ a b, cmp_docs x o b a = (cmp_docs x o a b).swap) ∧
      (∀ a b c, (cmp_docs x o a b).isLE → (cmp_docs x o b c).isLE → (cmp_docs x o a c).isLE) ∧
      (∀ a b c, cmp_docs x o a b = .eq → cmp_docs x o a c = cmp_docs x o b c) ∧
      ∀ docs, ∃ out, order_entities x params spec docs = .ok out ∧ out.Perm docs ∧
        out.Pairwise (fun a b => (cmp_docs x o a b).isLE) ∧
        ∀ a, out.filter (fun b => cmp_docs x o a b = .eq) = docs.filter (fun b => cmp_docs x o a b = .eq) := by
  have ht : TransCmp (cmp_docs x o) := cmp_keys_transCmp x o (accept_collator x o hc h) o.keys
  refine ⟨fun a => ReflCmp.compare_self, fun a b => ht.eq_swap, fun a b c => ht.isLE_trans, fun a b c => ht.congr_left, ?_⟩
  intro docs
  refine ⟨sort_by (cmp_docs x o) docs, ?_, sort_by_perm docs, sort_by_ordered ht docs, sort_by_stable ht docs⟩
  simp [order_entities, h, Except.map]

end Preorder

section Named

/-- The root collation orders lower-case names as their code points do. -/
def plain : Library String Unit where
  chrono := fixed_width
  expand_key := id
  build_collator := fun tag => if tag = "und" then .ok compare else .error s!"unsupported collation {tag} (4.23.3)"
  from_str := fun _ => none
  to_string := fun _ => ""
  debug := id
  parse_ref_geometry := fun _ _ => .error "invalid geometry"
  parse_geometry := fun _ _ => .error "invalid geometry"
  min_distance_m := fun _ _ => 0

def collated : String → Option String
  | "collation" => some "und"
  | _ => none

def named (id name : String) (size : Nat) : Value :=
  .object [("id", .string id), ("name", .array [.object [("value", .string name)]]),
    ("size", .array [.object [("value", .number (.posInt (.ofNat size)))]])]

def named_docs : List Value := [named "urn:a" "elm" 2, named "urn:b" "oak" 1, named "urn:c" "elm" 1]

theorem named_docs_sorted :
    ∃ o out, accept plain collated "name;desc,size" = .ok o ∧
      order_entities plain collated "name;desc,size" named_docs = .ok out ∧ out.Perm named_docs ∧
      out.Pairwise (fun a b => (cmp_docs plain o a b).isLE) := by
  have hc : ∀ tag c, plain.build_collator tag = .ok c → TransCmp c := by
    intro tag c h
    simp only [plain] at h
    split at h
    · injection h with h
      subst h
      exact inferInstanceAs (TransOrd String)
    · cases h
  have hsome : (accept plain collated "name;desc,size").toOption.isSome = true := by decide
  cases ho : accept plain collated "name;desc,size" with
  | error e => simp [ho, Except.toOption] at hsome
  | ok o =>
      obtain ⟨out, h, hperm, hsorted, -⟩ := (order_entities_sorts plain hc ho).2.2.2.2 named_docs
      exact ⟨o, out, rfl, h, hperm, hsorted⟩

end Named

end AntaresBroker.EntityOrder
