import AntaresBroker.DepthSearch
import AntaresBroker.EntityMaps
import AntaresBroker.Temporal

namespace AntaresBroker.FlatJoin

open DepthSearch Json
open Temporal (is_meta)

/-- One name of a projection, with the selection below it for linked entities. -/
inductive ProjNode
  | node (raw iri : String) (children : Option (List ProjNode))

namespace ProjNode

def children : ProjNode → Option (List ProjNode)
  | node _ _ children => children

def names (k : String) : ProjNode → Bool
  | node raw iri _ => iri = k || raw = k

end ProjNode

/-- How a document is represented. -/
structure Repr where
  sys_attrs : Bool
  key_values : Bool
  concise : Bool
  attrs : Option (List String)
  pick : Option (List ProjNode)
  omits : Option (List ProjNode)
  policy_pick : Option (List ProjNode)
  policy_omit : Option (List ProjNode)
  lang : Option String
  dataset_id : Option (List String)

def Repr.default : Repr := ⟨false, false, false, none, none, none, none, none, none, none⟩

def policy_projected (pick omits : Option (List ProjNode)) (k : String) : Bool :=
  pick.all (fun pick => pick.any (ProjNode.names k)) && omits.all (fun omits => !omits.any (ProjNode.names k))

/-- How an entity linked under a name is represented. -/
def joined_repr (parent : Repr) (key : String) : Repr :=
  { Repr.default with
    sys_attrs := parent.sys_attrs
    key_values := parent.key_values
    concise := parent.concise
    lang := parent.lang
    policy_pick := parent.policy_pick
    policy_omit := parent.policy_omit
    pick := parent.pick.bind (fun pick => (pick.find? (ProjNode.names key)).bind ProjNode.children)
    omits := parent.omits.bind (fun omits =>
      (omits.find? (fun n => n.names key && n.children.isSome)).bind ProjNode.children) }

/-- The members that are followed from a document, less its policy. -/
def traversed (repr : Repr) (k : String) : Bool :=
  repr.pick.all (fun pick => pick.any (ProjNode.names k)) &&
    repr.omits.all (fun omits => !omits.any (fun n => n.names k && n.children.isNone)) &&
    policy_projected repr.policy_pick repr.policy_omit k

def targets (inst : Value) : List String :=
  match inst.get "object", inst.get "objectList" with
  | some (.string id), _ => [id]
  | some (.array a), _ => a.filterMap Value.as_str
  | none, some (.array a) => a.filterMap Value.as_str
  | _, _ => []

/-- The links of a document in the order they are followed. -/
def links (repr : Repr) (doc : Value) : List (Repr × String) :=
  (doc.as_object.getD []).flatMap (fun p =>
    if is_meta p.1 || !traversed repr p.1 then []
    else (p.2.as_array.getD []).flatMap (fun inst => (targets inst).map (fun id => (joined_repr repr p.1, id))))

abbrev Joined := BTreeMap String (Value × Repr)

/-- A walk: what it has resolved, what it may still read and what it has read. -/
structure JoinWalk where
  seen : List String
  out : Joined
  budget : Nat
  complete : Bool
  asked : List String

section Walk

variable (get : String → Option Value)

def follow (enter : Repr → Value → JoinWalk → JoinWalk) : List (Repr × String) → JoinWalk → JoinWalk
  | [], walk => walk
  | (child, id) :: rest, walk =>
      if walk.seen.contains id then follow enter rest walk
      else if walk.budget = 0 then { walk with complete := false }
      else
        let walk := { walk with budget := walk.budget - 1, asked := walk.asked ++ [id] }
        match get id with
        | none => follow enter rest walk
        | some target =>
            follow enter rest (enter child target
              { walk with seen := id :: walk.seen, out := walk.out.insert id (target, child) })

def collect_flat_walk : Nat → Repr → Value → JoinWalk → JoinWalk
  | 0, repr, doc, walk => follow get (fun _ _ walk => walk) (links repr doc) walk
  | level + 1, repr, doc, walk =>
      follow get (fun child target walk => if 0 < level then collect_flat_walk level child target walk else walk)
        (links repr doc) walk

def id_of (doc : Value) : Option String := (doc.get "id").bind Value.as_str

def JoinWalk.rooted (root : Option String) (contained_by : List String) (budget : Nat) (out : Joined) : JoinWalk :=
  ⟨out.keys ++ (root.toList ++ contained_by), out, budget, true, []⟩

/-- The linked entities of a document, flattened, after those of the documents before it. -/
def collect_flat_beyond (repr : Repr) (internal_doc : Value) (level : Nat) (out : Joined) (contained_by : List String)
    (budget : Nat) : JoinWalk :=
  collect_flat_walk get level repr internal_doc (JoinWalk.rooted (id_of internal_doc) contained_by budget out)

end Walk

section Bounds

variable {get : String → Option Value} {enter : Repr → Value → JoinWalk → JoinWalk}

/-- What a walk keeps of the one it goes on from. -/
structure Extends (get : String → Option Value) (walk walk' : JoinWalk) : Prop where
  reads : walk'.asked.length + walk'.budget = walk.asked.length + walk.budget
  complete : walk'.complete = true → walk.complete = true
  seen : ∀ id ∈ walk.seen, id ∈ walk'.seen
  out : ∀ id, walk'.out.get id = walk.out.get id ∨
    ∃ target child, get id = some target ∧ walk'.out.get id = some (target, child) ∧ id ∉ walk.seen

theorem Extends.refl (walk : JoinWalk) : Extends get walk walk :=
  ⟨rfl, fun h => h, fun _ h => h, fun _ => .inl rfl⟩

theorem Extends.trans {a b c : JoinWalk} (hab : Extends get a b) (hbc : Extends get b c) : Extends get a c where
  reads := hbc.reads.trans hab.reads
  complete h := hab.complete (hbc.complete h)
  seen id h := hbc.seen id (hab.seen id h)
  out id := by
    rcases hbc.out id with hb | ⟨target, child, hget, hout, hseen⟩
    · rw [hb]
      exact hab.out id
    · exact .inr ⟨target, child, hget, hout, fun h => hseen (hab.seen id h)⟩

theorem follow_extends (henter : ∀ child target walk, Extends get walk (enter child target walk))
    (ls : List (Repr × String)) (walk : JoinWalk) : Extends get walk (follow get enter ls walk) := by
  induction ls generalizing walk with
  | nil => exact .refl walk
  | cons l ls ih =>
      obtain ⟨child, id⟩ := l
      rw [follow]
      split_ifs with hseen hbudget
      · exact ih walk
      · exact ⟨rfl, (fun h => by cases h), fun _ h => h, fun _ => .inl rfl⟩
      · have hread : Extends get walk { walk with budget := walk.budget - 1, asked := walk.asked ++ [id] } := by
          refine ⟨?_, fun h => h, fun _ h => h, fun _ => .inl rfl⟩
          dsimp only
          rw [List.length_append, List.length_singleton]
          omega
        dsimp only
        cases hget : get id with
        | none => exact hread.trans (ih _)
        | some target =>
            refine (hread.trans ?_).trans ((henter child target _).trans (ih _))
            refine ⟨rfl, fun h => h, fun k hk => List.mem_cons_of_mem _ hk, fun k => ?_⟩
            dsimp only
            rw [BTreeMap.get_insert]
            split_ifs with hk
            · subst hk
              exact .inr ⟨target, child, hget, rfl, fun h => hseen (List.contains_iff_mem.mpr h)⟩
            · exact .inl rfl

theorem walk_extends (level : Nat) (repr : Repr) (doc : Value) (walk : JoinWalk) :
    Extends get walk (collect_flat_walk get level repr doc walk) := by
  induction level generalizing repr doc walk with
  | zero => exact follow_extends (fun _ _ walk => .refl walk) _ walk
  | succ level ih =>
      refine follow_extends (fun child target walk => ?_) _ walk
      split_ifs
      · exact ih child target walk
      · exact .refl walk

end Bounds

section Graph

variable (get : String → Option Value) (root : Option String) (doc : Value) (contained_by : List String)

/-- The documents the links are about: the root stands for itself. -/
def doc_of (n : Option String) : Option Value := if n = root then some doc else n.bind get

/-- The hop of a link, to an entity that exists and is not with the client already. -/
def hop_of (l : Repr × String) : Option (Option String × Repr) :=
  if contained_by.contains l.2 || (doc_of get root doc (some l.2)).isNone then none else some (some l.2, l.1)

/-- The hops that a projection leaves of an entity. -/
def hops (n : Option String) (repr : Repr) : List (Option String × Repr) :=
  ((doc_of get root doc n).toList.flatMap (links repr)).filterMap (hop_of get root doc contained_by)

theorem hops_of_doc {n : Option String} {target : Value} (h : doc_of get root doc n = some target) (repr : Repr) :
    hops get root doc contained_by n repr = (links repr target).filterMap (hop_of get root doc contained_by) := by
  rw [hops, h, Option.toList_some, List.flatMap_singleton]

/-- A walk has resolved what a search has met. -/
structure Follows (walk : JoinWalk) (log : List (Visit (Option String) Repr)) : Prop where
  start : root ∈ nodes log
  seen : ∀ id, id ∈ walk.seen ↔ id ∈ contained_by ∨ some id ∈ nodes log
  out : ∀ id, some id ∈ nodes log → some id ≠ root → (walk.out.get id).isSome

/-- One hop of a search. -/
def met (left : Nat) (log : List (Visit (Option String) Repr)) (hop : Option String × Repr) :
    List (Visit (Option String) Repr) :=
  if hop.1 ∈ nodes log then log
  else search (hops get root doc contained_by) left hop.1 hop.2 (log ++ [⟨hop.1, left, hop.2⟩])

theorem search_hops (left : Nat) (n : Option String) (repr : Repr) (log : List (Visit (Option String) Repr)) :
    search (hops get root doc contained_by) (left + 1) n repr log =
      (hops get root doc contained_by n repr).foldl (met get root doc contained_by left) log := by
  rw [search]
  refine congrArg (fun f => List.foldl f log (hops get root doc contained_by n repr)) ?_
  funext log hop
  rw [met]
  split_ifs <;> rfl

variable {get root doc contained_by} {enter : Repr → Value → JoinWalk → JoinWalk} {left : Nat}

theorem Follows.ne_root {walk : JoinWalk} {log : List (Visit (Option String) Repr)} (h : Follows root contained_by walk log)
    {id : String} (hseen : id ∉ walk.seen) : some id ≠ root := by
  rintro heq
  exact hseen ((h.seen id).mpr (.inr (heq ▸ h.start)))

theorem Follows.read {walk : JoinWalk} {log : List (Visit (Option String) Repr)} (h : Follows root contained_by walk log)
    (budget : Nat) (asked : List String) :
    Follows root contained_by { walk with budget := budget, asked := asked } log := ⟨h.start, h.seen, h.out⟩

theorem Follows.meet {walk : JoinWalk} {log : List (Visit (Option String) Repr)} (h : Follows root contained_by walk log)
    (id : String) (target : Value) (child : Repr) (left : Nat) :
    Follows root contained_by { walk with seen := id :: walk.seen, out := walk.out.insert id (target, child) }
      (log ++ [⟨some id, left, child⟩]) := by
  have hnodes (n : Option String) : n ∈ nodes (log ++ [⟨some id, left, child⟩]) ↔ n ∈ nodes log ∨ n = some id := by
    rw [nodes_concat, List.mem_append, List.mem_singleton]
  constructor
  · exact (hnodes root).mpr (.inl h.start)
  · intro k
    rw [List.mem_cons, hnodes, h.seen, Option.some_inj]
    tauto
  · intro k hk hne
    rw [BTreeMap.get_insert]
    split_ifs with heq
    · rfl
    · refine h.out k (((hnodes _).mp hk).resolve_right fun h => heq (Option.some.inj h)) hne

/-- A walk that leaves nothing out follows the search. -/
theorem follow_search (henter : ∀ child target walk, Extends get walk (enter child target walk))
    (hsearch : ∀ child target id walk log, doc_of get root doc (some id) = some target →
      Follows root contained_by walk log → (enter child target walk).complete = true →
      Follows root contained_by (enter child target walk) (search (hops get root doc contained_by) left (some id) child log))
    (ls : List (Repr × String)) {walk : JoinWalk} {log : List (Visit (Option String) Repr)}
    (h : Follows root contained_by walk log) (hcomplete : (follow get enter ls walk).complete = true) :
    Follows root contained_by (follow get enter ls walk)
      ((ls.filterMap (hop_of get root doc contained_by)).foldl (met get root doc contained_by left) log) := by
  induction ls generalizing walk log with
  | nil => exact h
  | cons l ls ih =>
      obtain ⟨child, id⟩ := l
      rw [follow] at hcomplete ⊢
      rw [List.filterMap_cons]
      by_cases hseen : walk.seen.contains id = true
      · rw [if_pos hseen] at hcomplete ⊢
        have hmem := (h.seen id).mp (List.contains_iff_mem.mp hseen)
        cases hhop : hop_of get root doc contained_by (child, id) with
        | none => exact ih h hcomplete
        | some hop =>
            dsimp only
            rw [hop_of] at hhop
            split_ifs at hhop with hskip
            cases hhop
            rw [Bool.or_eq_true, not_or, List.contains_iff_mem] at hskip
            rw [List.foldl_cons, met, if_pos (hmem.resolve_left hskip.1)]
            exact ih h hcomplete
      · rw [if_neg hseen] at hcomplete ⊢
        rw [List.contains_iff_mem] at hseen
        have hne := h.ne_root hseen
        have hdoc : doc_of get root doc (some id) = get id := if_neg hne
        have hfresh : id ∉ contained_by ∧ some id ∉ nodes log := not_or.mp (mt (h.seen id).mpr hseen)
        by_cases hbudget : walk.budget = 0
        · rw [if_pos hbudget] at hcomplete
          cases hcomplete
        · rw [if_neg hbudget] at hcomplete ⊢
          dsimp only at hcomplete ⊢
          rw [hop_of, hdoc]
          cases hget : get id with
          | none =>
              rw [hget] at hcomplete
              rw [Option.isNone_none, Bool.or_true, if_pos rfl]
              exact ih (h.read _ _) hcomplete
          | some target =>
              rw [hget] at hcomplete
              have hkept : (contained_by.contains id || (some target).isNone) = false := by
                rw [Option.isNone_some, Bool.or_false, List.contains_eq_mem, decide_eq_false hfresh.1]
              rw [hkept, if_neg Bool.false_ne_true, List.foldl_cons, met, if_neg hfresh.2]
              dsimp only at hcomplete ⊢
              have hentered := (follow_extends henter ls _).complete hcomplete
              exact ih (hsearch child target id _ _ (hdoc.trans hget) ((h.read (walk.budget - 1) (walk.asked ++ [id])).meet id target child left) hentered) hcomplete

theorem walk_search (level : Nat) {repr : Repr} {n : Option String} {target : Value}
    (htarget : doc_of get root doc n = some target) {walk : JoinWalk} {log : List (Visit (Option String) Repr)}
    (h : Follows root contained_by walk log) (hcomplete : (collect_flat_walk get level repr target walk).complete = true) :
    Follows root contained_by (collect_flat_walk get level repr target walk)
      (search (hops get root doc contained_by) (level - 1 + 1) n repr log) := by
  induction level generalizing repr n target walk log with
  | zero =>
      rw [collect_flat_walk] at hcomplete ⊢
      rw [search_hops, hops_of_doc get root doc contained_by htarget]
      refine follow_search (fun _ _ walk => .refl walk) (fun _ _ _ _ _ _ hfollows _ => ?_) (links repr target) h hcomplete
      exact hfollows
  | succ level ih =>
      rw [collect_flat_walk] at hcomplete ⊢
      rw [search_hops, hops_of_doc get root doc contained_by htarget]
      refine follow_search (fun child target walk => ?_) (fun child target id walk log htarget hfollows hdone => ?_)
        (links repr target) h hcomplete
      · split_ifs
        · exact walk_extends level child target walk
        · exact .refl walk
      · rcases Nat.eq_zero_or_pos level with rfl | hpos
        · exact hfollows
        · rw [if_pos hpos] at hdone ⊢
          have hdown := ih htarget hfollows hdone
          rwa [Nat.sub_add_cancel hpos] at hdown

end Graph

section Lawful

variable (get : String → Option Value) (repr : Repr) (doc : Value) (level : Nat) (out : Joined) (contained_by : List String)

/-- What is resolved before the walk: the root, and what was linked before it. -/
def known : List (Visit (Option String) Repr) :=
  ⟨id_of doc, level - 1 + 1, repr⟩ :: (out.keys.filter (fun k => some k ≠ id_of doc)).map (fun k => ⟨some k, 0, repr⟩)

/-- The hops of a join, which name no entity that the client holds. -/
abbrev joins : Option String → Repr → List (Option String × Repr) := hops get (id_of doc) doc contained_by

/-- No entity met again is met with more levels left than at first, or under
another projection, unless all it leads to was resolved before. -/
def FirstMetHighest : Prop :=
  Fits (joins get doc contained_by) (known repr doc level out)
    (unrolled (joins get doc contained_by) (level - 1 + 1) [id_of doc] (id_of doc) repr)

theorem mem_known {n : Option String} :
    n ∈ nodes (known repr doc level out) ↔ n = id_of doc ∨ ∃ k ∈ out.keys, some k = n := by
  rw [known, nodes, List.map_cons, List.mem_cons, List.map_map]
  by_cases hn : n = id_of doc
  · exact ⟨fun _ => .inl hn, fun _ => .inl hn⟩
  · refine or_congr_right ?_
    rw [List.mem_map]
    constructor
    · rintro ⟨k, hk, rfl⟩
      exact ⟨k, List.mem_of_mem_filter hk, rfl⟩
    · rintro ⟨k, hk, rfl⟩
      exact ⟨k, List.mem_filter.mpr ⟨hk, decide_eq_true hn⟩, rfl⟩

theorem nodup_known : (nodes (known repr doc level out)).Nodup := by
  rw [known, nodes, List.map_cons, List.map_map, List.nodup_cons]
  constructor
  · intro hmem
    obtain ⟨k, hk, heq⟩ := List.mem_map.mp hmem
    exact (of_decide_eq_true (List.mem_filter.mp hk).2) heq
  · exact ((Entities.keys_nodup out).filter _).map (Option.some_injective String)

theorem follows_rooted (budget : Nat) : Follows (id_of doc) contained_by
    (JoinWalk.rooted (id_of doc) contained_by budget out) (known repr doc level out) where
  start := (mem_known repr doc level out).mpr (.inl rfl)
  seen id := by
    rw [mem_known, JoinWalk.rooted, List.mem_append, List.mem_append, Option.mem_toList]
    have hkey : (∃ k ∈ out.keys, some k = some id) ↔ id ∈ out.keys :=
      ⟨fun ⟨k, hk, heq⟩ => Option.some.inj heq ▸ hk, fun h => ⟨id, h, rfl⟩⟩
    rw [hkey, eq_comm (a := some id)]
    tauto
  out id hmem hne := by
    rcases (mem_known repr doc level out).mp hmem with heq | ⟨k, hk, heq⟩
    · exact absurd heq hne
    · exact Option.some.inj heq ▸ BTreeMap.mem_keys.mp hk

/-- A flattened join reads no more than its budget, adds none but linked
entities that exist, and where it says that it is complete it is, if no entity
is met first too far down. -/
theorem flat_join_lawful (budget : Nat) :
    (collect_flat_beyond get repr doc level out contained_by budget).asked.length ≤ budget ∧
    (∀ id, (collect_flat_beyond get repr doc level out contained_by budget).out.get id = out.get id ∨
      ∃ target child, get id = some target ∧
        (collect_flat_beyond get repr doc level out contained_by budget).out.get id = some (target, child) ∧
        some id ≠ id_of doc ∧ id ∉ contained_by) ∧
    (FirstMetHighest get repr doc level out contained_by →
      (collect_flat_beyond get repr doc level out contained_by budget).complete = true →
      ∀ n ≤ level, ∀ id r, Reach (joins get doc contained_by) (id_of doc) repr n (some id) r → some id ≠ id_of doc →
        ((collect_flat_beyond get repr doc level out contained_by budget).out.get id).isSome) := by
  have hextends : Extends get (JoinWalk.rooted (id_of doc) contained_by budget out) _ := walk_extends level repr doc _
  refine ⟨?_, fun id => ?_, fun hfirst hcomplete n hn id r hreach hne => ?_⟩
  · have hreads := hextends.reads
    rw [collect_flat_beyond]
    change _ = 0 + budget at hreads
    omega
  · refine (hextends.out id).imp_right ?_
    rintro ⟨target, child, hget, hout, hseen⟩
    rw [JoinWalk.rooted, List.mem_append, List.mem_append, Option.mem_toList, not_or, not_or] at hseen
    exact ⟨target, child, hget, hout, fun h => hseen.2.1 h.symm, hseen.2.2⟩
  · have hfollows := walk_search level (if_pos rfl : doc_of get (id_of doc) doc (id_of doc) = some doc)
      (follows_rooted repr doc level out contained_by budget) hcomplete
    refine hfollows.out id ?_ hne
    refine search_complete (nodup_known repr doc level out) hfirst (fun w hw => ?_) hreach (by omega)
    obtain ⟨k, -, rfl⟩ := List.mem_map.mp hw
    rfl

/-- A join of one level meets nothing that it would have to go on from. -/
theorem first_met_of_one_level (h : level ≤ 1) : FirstMetHighest get repr doc level out contained_by := by
  intro v hv hleft
  have hlt := left_lt_of_mem_unrolled hv
  omega

end Lawful

section Shared

def linked (id : String) (members : List (String × String)) : Value :=
  .object (members.map (fun p => (p.1, .array [.object [("object", .string p.2), ("type", .string "Relationship")]])) ++
    [("id", .string id), ("type", .array [.string "urn:T"])])

def shared_root : Value := linked "urn:R" [("urn:a", "urn:A"), ("urn:b", "urn:B")]

/-- The root links to one entity directly and through another, and that entity to a last one. -/
def shared (id : String) : Option Value :=
  if id = "urn:R" then some shared_root
  else if id = "urn:A" then some (linked "urn:A" [("urn:b", "urn:B")])
  else if id = "urn:B" then some (linked "urn:B" [("urn:c", "urn:C")])
  else if id = "urn:C" then some (linked "urn:C" [])
  else none

/-- Two hops from the root, and left out of a join of two levels that says it is complete. -/
theorem shared_entity_unexpanded : shared "urn:R" = some shared_root ∧ id_of shared_root = some "urn:R" ∧
    (collect_flat_beyond shared Repr.default shared_root 2 BTreeMap.empty [] 1000).complete = true ∧
    (∃ r, Reach (joins shared shared_root []) (id_of shared_root) Repr.default 2 (some "urn:C") r) ∧
    ((collect_flat_beyond shared Repr.default shared_root 2 BTreeMap.empty [] 1000).out.get "urn:C").isSome = false := by
  refine ⟨by decide, by decide, by decide, ?_, by decide⟩
  have hdirect : (some "urn:B", joined_repr Repr.default "urn:b") ∈
      joins shared shared_root [] (id_of shared_root) Repr.default := List.mem_cons_of_mem _ List.mem_cons_self
  have hlast : (some "urn:C", joined_repr (joined_repr Repr.default "urn:b") "urn:c") ∈
      joins shared shared_root [] (some "urn:B") (joined_repr Repr.default "urn:b") := List.mem_cons_self
  exact ⟨_, .hop (.hop .start hdirect) hlast⟩

end Shared

end AntaresBroker.FlatJoin
