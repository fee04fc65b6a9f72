import AntaresBroker.BTreeMap
import AntaresBroker.Grouping
import AntaresBroker.Latest
import AntaresBroker.Registry

namespace AntaresBroker.Merge

open Json Registry

def recency (inst : Value) : List Char :=
  dt_key ((((inst.get "observedAt").or (inst.get "modifiedAt")).bind Value.as_str).getD "")

def expired (now : String) (inst : Value) : Bool :=
  ((inst.get "expiresAt").bind Value.as_str).any (fun e => dt_key e < dt_key now)

/-- The members of an entity that are not attributes. -/
def META : List String := ["id", "type", "scope", "expiresAt", "createdAt", "modifiedAt", "deletedAt"]

/-- An instance that does not expire before its entity. -/
def cap (exp : String) : Value → Value
  | .object inst =>
      match (inst.lookup "expiresAt").bind Value.as_str with
      | some ae =>
          if dt_key ae ≤ dt_key exp then .object inst
          else .object (SortedMap.insert "expiresAt" (.string exp) inst)
      | none => .object (SortedMap.insert "expiresAt" (.string exp) inst)
  | v => v

def push_down_member (exp k : String) (v : Value) : Value :=
  if k ∈ META then v
  else match v with
    | .array instances => .array (instances.map (cap exp))
    | v => v

def push_down_expires (doc : Value) : Value :=
  match doc with
  | .object o =>
      match (o.lookup "expiresAt").bind Value.as_str with
      | some exp => .object (o.map (fun p => (p.1, push_down_member exp p.1 p.2)))
      | none => .object o
  | v => v

def dataset_id (inst : Value) : Option String := (inst.get "datasetId").bind Value.as_str

/-- An incoming instance replaces the one of its dataset if that has expired or is older. -/
def take_instance (now : String) (ca : List Value) (ai : Value) : List Value :=
  if expired now ai then ca else Grouping.put dataset_id (Latest.newer (expired now) recency) ai ca

def merge_member (now : String) (aux : Bool) (bo : Map) (p : String × Value) : Map :=
  if p.1 = "expiresAt" then bo
  else match bo.lookup p.1 with
    | none => SortedMap.insert p.1 p.2 bo
    | some cur =>
        if aux || decide (p.1 ∈ ["id", "type", "scope"]) then bo
        else match cur, p.2 with
          | .array ca, .array aa => SortedMap.insert p.1 (.array (aa.foldl (take_instance now) ca)) bo
          | _, _ => bo

/-- The entity expires when its last version does, and does not if one of them does not. -/
def merge_expires (bo ao : Map) : Map :=
  match (bo.lookup "expiresAt").bind Value.as_str, (ao.lookup "expiresAt").bind Value.as_str with
  | some b, some a => if dt_key b < dt_key a then SortedMap.insert "expiresAt" (.string a) bo else bo
  | _, _ => SortedMap.erase "expiresAt" bo

def merge_docs (now : String) (base add : Value) (aux : Bool) : Value :=
  match base, push_down_expires add with
  | .object bo, .object ao => .object (ao.foldl (merge_member now aux) (if aux then bo else merge_expires bo ao))
  | base, _ => base

/-- The documents by id and the ids in the order they came. -/
structure Candidates where
  order : List String
  by_id : BTreeMap String Value

def id_of (doc : Value) : Option String := (doc.get "id").bind Value.as_str

def add_local (c : Candidates) (doc : Value) : Candidates :=
  match id_of doc with
  | some id => ⟨c.order ++ [id], c.by_id.insert id doc⟩
  | none => c

def add_fed (now : String) (aux_pass : Bool) (c : Candidates) (f : Bool × Value) : Candidates :=
  if f.1 ≠ aux_pass then c
  else match id_of f.2 with
    | none => c
    | some id =>
        match c.by_id.get id with
        | some base => { c with by_id := c.by_id.insert id (merge_docs now base f.2 f.1) }
        | none => ⟨c.order ++ [id], c.by_id.insert id f.2⟩

def take_candidate (c : List Value × BTreeMap String Value) (id : String) : List Value × BTreeMap String Value :=
  match c.2.get id with
  | some doc => (c.1 ++ [doc], c.2.remove id)
  | none => c

def merge_candidates (now : String) (locals : List Value) (fed : List (Bool × Value)) : List Value :=
  let c := locals.foldl add_local ⟨[], BTreeMap.empty⟩
  let c := [false, true].foldl (fun c aux_pass => fed.foldl (add_fed now aux_pass) c) c
  (c.order.foldl take_candidate ([], c.by_id)).1

/-- The versions of one entity fetched for a retrieve. -/
def merge_retrieved (now : String) (local_doc : Option Value) (fed : List (Bool × Value)) : Option Value :=
  let first := ((fed.find? (fun f => !f.1)).or fed.head?).map Prod.snd
  (local_doc.or first).map (fun base =>
    [false, true].foldl (fun base aux_pass =>
      fed.foldl (fun base f => if f.1 = aux_pass then merge_docs now base f.2 f.1 else base) base) base)

/-- A version of an entity: its attributes are arrays of instances of different datasets. -/
structure Version where
  members : Map
  sorted : SortedMap.Sorted members
  attributes : ∀ k v, members.lookup k = some v → k ∉ META →
    ∃ items, v = .array items ∧ (items.map dataset_id).Nodup
  stamps : ∀ k ∈ ["expiresAt", "createdAt", "modifiedAt", "deletedAt"], ∀ v, members.lookup k = some v →
    ∃ t, v = .string t

namespace Version

def doc (v : Version) : Value := .object v.members

def expires (v : Version) : Option String := (v.members.lookup "expiresAt").bind Value.as_str

def attr (v : Version) (k : String) : Option (List Value) := (v.members.lookup k).bind Value.as_array

/-- An instance of the version that expires no later than the version. -/
def capped (v : Version) (inst : Value) : Value := v.expires.elim inst (fun e => cap e inst)

def pushed (v : Version) (k : String) : Option (List Value) := (v.attr k).map (List.map v.capped)

/-- The instance a version has of an attribute in a dataset. -/
def raw (v : Version) (k : String) (ds : Option String) : Option Value :=
  (v.attr k).bind (fun items => items.find? (fun i => dataset_id i = ds))

/-- The instance as push-down leaves it. -/
def cell (v : Version) (k : String) (ds : Option String) : Option Value :=
  (v.pushed k).bind (fun items => items.find? (fun i => dataset_id i = ds))

theorem lookup_attr (v : Version) {k : String} (hk : k ∉ META) : v.members.lookup k = (v.attr k).map .array := by
  rw [attr]
  cases h : v.members.lookup k with
  | none => rfl
  | some w =>
      obtain ⟨items, rfl, -⟩ := v.attributes k w h hk
      rfl

theorem lookup_expires (v : Version) : v.members.lookup "expiresAt" = v.expires.map .string := by
  rw [expires]
  cases h : v.members.lookup "expiresAt" with
  | none => rfl
  | some w =>
      obtain ⟨e, rfl⟩ := v.stamps "expiresAt" (by decide) w h
      rfl

theorem nodup_attr (v : Version) {k : String} (hk : k ∉ META) {items : List Value} (h : v.attr k = some items) :
    (items.map dataset_id).Nodup := by
  have hlookup := v.lookup_attr hk
  rw [h] at hlookup
  obtain ⟨items', heq, hnodup⟩ := v.attributes k _ hlookup hk
  rw [Value.array.injEq] at heq
  exact heq ▸ hnodup

end Version

theorem get_cap (exp : String) (inst : Value) {k : String} (hk : k ≠ "expiresAt") : (cap exp inst).get k = inst.get k := by
  have hinsert : ∀ m : Map, (Value.object (SortedMap.insert "expiresAt" (.string exp) m)).get k = (Value.object m).get k := by
    intro m
    rw [Value.get, SortedMap.lookup_insert, if_neg hk]
    rfl
  rw [cap.eq_def]
  split
  · split
    · split_ifs
      · rfl
      · exact hinsert _
    · exact hinsert _
  · rfl

theorem recency_cap (exp : String) (inst : Value) : recency (cap exp inst) = recency inst := by
  rw [recency, recency, get_cap exp inst (by decide), get_cap exp inst (by decide)]

theorem dataset_id_cap (exp : String) (inst : Value) : dataset_id (cap exp inst) = dataset_id inst := by
  rw [dataset_id, dataset_id, get_cap exp inst (by decide)]

/-- What has expired still has when it is capped. -/
theorem expired_cap {now : String} (exp : String) {inst : Value} (h : expired now inst = true) :
    expired now (cap exp inst) = true := by
  cases inst with
  | object m =>
      rw [cap]
      cases hae : (m.lookup "expiresAt").bind Value.as_str with
      | none =>
          rw [expired, Value.get, hae] at h
          cases h
      | some ae =>
          rw [expired, Value.get, hae, Option.any_some, decide_eq_true_eq] at h
          dsimp only
          split_ifs with hle
          · rw [expired, Value.get, hae, Option.any_some, decide_eq_true_eq]
            exact h
          · rw [not_le] at hle
            have hget : ((Value.object (SortedMap.insert "expiresAt" (.string exp) m)).get "expiresAt").bind Value.as_str =
                some exp := by
              rw [Value.get, SortedMap.lookup_insert, if_pos rfl]
              rfl
            rw [expired, hget, Option.any_some, decide_eq_true_eq]
            exact hle.trans h
  | null | bool _ | number _ | string _ | array _ => exact h

theorem Version.recency_capped (v : Version) (i : Value) : recency (v.capped i) = recency i := by
  rw [Version.capped]
  cases v.expires with
  | none => rfl
  | some e => exact recency_cap e i

theorem Version.dataset_id_capped (v : Version) (i : Value) : dataset_id (v.capped i) = dataset_id i := by
  rw [Version.capped]
  cases v.expires with
  | none => rfl
  | some e => exact dataset_id_cap e i

theorem Version.expired_capped {now : String} (v : Version) {i : Value} (h : expired now i = true) :
    expired now (v.capped i) = true := by
  rw [Version.capped]
  cases v.expires with
  | none => exact h
  | some e => exact expired_cap e h

theorem Version.cell_eq (v : Version) (k : String) (ds : Option String) : v.cell k ds = (v.raw k ds).map v.capped := by
  rw [Version.cell, Version.raw, Version.pushed]
  cases v.attr k with
  | none => rfl
  | some items =>
      rw [Option.map_some, Option.bind_some, Option.bind_some, List.find?_map]
      congr 2
      funext i
      rw [Function.comp_apply, v.dataset_id_capped]

theorem Version.nodup_pushed (v : Version) {k : String} (hk : k ∉ META) {items : List Value} (h : v.pushed k = some items) :
    (items.map dataset_id).Nodup := by
  obtain ⟨items', hattr, rfl⟩ := Option.map_eq_some_iff.mp h
  rw [List.map_map]
  have hcomp : dataset_id ∘ v.capped = dataset_id := funext v.dataset_id_capped
  rw [hcomp]
  exact v.nodup_attr hk hattr

/-- A document shows these attributes and expires then. -/
structure Shows (doc : Value) (view : String → Option (List Value)) (exp : Option String) : Prop where
  object : ∃ m, doc = .object m
  attrs : ∀ k, k ∉ META → doc.get k = (view k).map .array
  expires : doc.get "expiresAt" = exp.map .string

theorem Version.shows (v : Version) : Shows v.doc v.attr v.expires :=
  ⟨⟨v.members, rfl⟩, fun _ hk => v.lookup_attr hk, v.lookup_expires⟩

theorem push_down_version (v : Version) : ∃ o, push_down_expires v.doc = .object o ∧ SortedMap.Sorted o ∧
    (∀ k, k ∉ META → o.lookup k = (v.pushed k).map .array) ∧ ∀ k ∈ META, o.lookup k = v.members.lookup k := by
  have hexp : v.expires = (v.members.lookup "expiresAt").bind Value.as_str := rfl
  have hpush : push_down_expires v.doc = match (v.members.lookup "expiresAt").bind Value.as_str with
      | some exp => .object (v.members.map (fun p => (p.1, push_down_member exp p.1 p.2)))
      | none => .object v.members := rfl
  rw [hpush]
  cases h : (v.members.lookup "expiresAt").bind Value.as_str with
  | none =>
      refine ⟨v.members, rfl, v.sorted, fun k hk => ?_, fun _ _ => rfl⟩
      have hcapped : v.capped = id := funext fun i => by rw [Version.capped, hexp, h]; rfl
      rw [v.lookup_attr hk, Version.pushed, hcapped, List.map_id_fun, Option.map_id_fun]
      rfl
  | some exp =>
      refine ⟨_, rfl, List.pairwise_map.mpr v.sorted, fun k hk => ?_, fun k hk => ?_⟩
      · rw [SortedMap.lookup_map_value (push_down_member exp), v.lookup_attr hk, Version.pushed, Option.map_map, Option.map_map]
        congr 1
        funext items
        have hcapped : v.capped = cap exp := funext fun i => by rw [Version.capped, hexp, h]; rfl
        rw [Function.comp_apply, Function.comp_apply, push_down_member, if_neg hk, hcapped]
      · rw [SortedMap.lookup_map_value (push_down_member exp)]
        have hsame : push_down_member exp k = id := funext fun w => if_pos hk
        rw [hsame, Option.map_id_fun, id]

/-- What a member becomes. -/
def merged_value (now : String) (aux : Bool) (k : String) (cur : Option Value) (v : Value) : Option Value :=
  if k = "expiresAt" then cur
  else match cur with
    | none => some v
    | some cur =>
        if aux || decide (k ∈ ["id", "type", "scope"]) then some cur
        else match cur, v with
          | .array ca, .array aa => some (.array (aa.foldl (take_instance now) ca))
          | cur, _ => some cur

theorem lookup_merge_member_ne (now : String) (aux : Bool) (bo : Map) (p : String × Value) {k : String} (h : k ≠ p.1) :
    (merge_member now aux bo p).lookup k = bo.lookup k := by
  rw [merge_member.eq_def]
  split
  · rfl
  · split
    · rw [SortedMap.lookup_insert, if_neg h]
    · split
      · rfl
      · split
        · rw [SortedMap.lookup_insert, if_neg h]
        · rfl

theorem lookup_merge_member_self (now : String) (aux : Bool) (bo : Map) (k : String) (v : Value) :
    (merge_member now aux bo (k, v)).lookup k = merged_value now aux k (bo.lookup k) v := by
  rw [merge_member.eq_def, merged_value.eq_def]
  by_cases hexp : k = "expiresAt"
  · rw [if_pos hexp, if_pos hexp]
  · rw [if_neg hexp, if_neg hexp]
    cases hcur : bo.lookup k with
    | none => exact (SortedMap.lookup_insert k k v bo).trans (if_pos rfl)
    | some cur =>
        dsimp only
        by_cases hkeep : (aux || decide (k ∈ ["id", "type", "scope"])) = true
        · rw [if_pos hkeep, if_pos hkeep, hcur]
        · rw [if_neg hkeep, if_neg hkeep]
          split
          · rw [SortedMap.lookup_insert, if_pos rfl]
          · rw [hcur]

theorem lookup_merge_member (now : String) (aux : Bool) (bo : Map) (p : String × Value) (k : String) :
    (merge_member now aux bo p).lookup k =
      if k = p.1 then merged_value now aux k (bo.lookup k) p.2 else bo.lookup k := by
  by_cases h : k = p.1
  · obtain ⟨k', v⟩ := p
    subst h
    rw [if_pos rfl]
    exact lookup_merge_member_self now aux bo k v
  · rw [if_neg h]
    exact lookup_merge_member_ne now aux bo p h

/-- The attribute of two versions. -/
def join (now : String) (aux : Bool) (cur add : Option (List Value)) : Option (List Value) :=
  match cur, add with
  | none, add => add
  | some ca, some aa => some (if aux then ca else aa.foldl (take_instance now) ca)
  | some ca, none => some ca

/-- When the entity of two versions expires. -/
def later : Option String → Option String → Option String
  | some b, some a => some (if dt_key b < dt_key a then a else b)
  | _, _ => none

theorem lookup_merge_expires_ne (bo ao : Map) {k : String} (hk : k ≠ "expiresAt") :
    (merge_expires bo ao).lookup k = bo.lookup k := by
  rw [merge_expires.eq_def]
  split
  · split_ifs
    · rw [SortedMap.lookup_insert, if_neg hk]
    · rfl
  · rw [SortedMap.lookup_erase, if_neg hk]

theorem lookup_merge_expires {bo ao : Map} {b a : Option String} (hb : bo.lookup "expiresAt" = b.map .string)
    (ha : ao.lookup "expiresAt" = a.map .string) : (merge_expires bo ao).lookup "expiresAt" = (later b a).map .string := by
  have hstr : ∀ o : Option String, (o.map Value.string).bind Value.as_str = o := fun o => by cases o <;> rfl
  rw [merge_expires, hb, ha, hstr, hstr]
  cases b with
  | none => exact (SortedMap.lookup_erase _ _ _).trans (if_pos rfl)
  | some b =>
      cases a with
      | none => exact (SortedMap.lookup_erase _ _ _).trans (if_pos rfl)
      | some a =>
          rw [later]
          dsimp only
          split_ifs
          · exact (SortedMap.lookup_insert _ _ _ _).trans (if_pos rfl)
          · exact hb

theorem merge_docs_object (now : String) (bo : Map) (v : Version) (aux : Bool) : ∃ ao,
    push_down_expires v.doc = .object ao ∧ SortedMap.Sorted ao ∧
      (∀ k, k ∉ META → ao.lookup k = (v.pushed k).map .array) ∧ ao.lookup "expiresAt" = v.expires.map .string ∧
      merge_docs now (.object bo) v.doc aux =
        .object (ao.foldl (merge_member now aux) (if aux then bo else merge_expires bo ao)) := by
  obtain ⟨ao, hpush, hsorted, hpushed, hmeta⟩ := push_down_version v
  refine ⟨ao, hpush, hsorted, hpushed, (hmeta _ (by decide)).trans v.lookup_expires, ?_⟩
  rw [merge_docs.eq_def, hpush]

theorem merge_docs_shows (now : String) {doc : Value} {view : String → Option (List Value)} {exp : Option String}
    (h : Shows doc view exp) (v : Version) (aux : Bool) :
    Shows (merge_docs now doc v.doc aux) (fun k => join now aux (view k) (v.pushed k))
      (if aux then exp else later exp v.expires) := by
  obtain ⟨⟨bo, rfl⟩, hattrs, hexp⟩ := h
  obtain ⟨ao, -, hsorted, hpushed, hlife, hmerge⟩ := merge_docs_object now bo v aux
  have hfold := SortedMap.lookup_foldl (lookup_merge_member now aux) hsorted (if aux then bo else merge_expires bo ao)
  rw [hmerge]
  refine ⟨⟨_, rfl⟩, fun k hk => ?_, ?_⟩
  · have hk' : k ≠ "expiresAt" := fun h => hk (h ▸ by decide)
    have hmeta : k ∉ ["id", "type", "scope"] := fun h => hk (by
      simp only [META, List.mem_cons, List.not_mem_nil, or_false] at h ⊢
      tauto)
    have hstart : (if aux then bo else merge_expires bo ao).lookup k = (view k).map .array := by
      rw [← hattrs k hk]
      cases aux with
      | true => rfl
      | false => exact lookup_merge_expires_ne bo ao hk'
    refine (hfold k).trans ?_
    rw [hstart, hpushed k hk]
    cases hadd : v.pushed k with
    | none => cases view k <;> rfl
    | some aa =>
        rw [Option.map_some, Option.elim_some, merged_value.eq_def, if_neg hk']
        cases view k with
        | none => rfl
        | some ca =>
            rw [Option.map_some, decide_eq_false hmeta, Bool.or_false]
            cases aux <;> rfl
  · refine (hfold "expiresAt").trans ?_
    have hsame : ∀ cur v, merged_value now aux "expiresAt" cur v = cur := fun _ _ => if_pos rfl
    have hstart : (if aux then bo else merge_expires bo ao).lookup "expiresAt" =
        (if aux then exp else later exp v.expires).map .string := by
      cases aux with
      | true => exact hexp
      | false => exact lookup_merge_expires hexp hlife
    rw [hstart]
    cases ao.lookup "expiresAt" with
    | none => rfl
    | some w => exact hsame _ _

/-- A first version with the others merged into it, the auxiliary ones last. -/
def merge_versions (now : String) (b : Version) (rs aux : List Version) : Value :=
  aux.foldl (fun doc a => merge_docs now doc a.doc true) (rs.foldl (fun doc r => merge_docs now doc r.doc false) b.doc)

/-- An attribute after the versions that are not auxiliary. -/
def merged (now : String) (b : Version) (rs : List Version) (k : String) : Option (List Value) :=
  rs.foldl (fun cur r => join now false cur (r.pushed k)) (b.attr k)

theorem foldl_shows (now : String) (aux : Bool) (vs : List Version) {doc : Value} {view : String → Option (List Value)}
    {exp : Option String} (h : Shows doc view exp) :
    Shows (vs.foldl (fun doc v => merge_docs now doc v.doc aux) doc)
      (fun k => vs.foldl (fun cur v => join now aux cur (v.pushed k)) (view k))
      (if aux then exp else vs.foldl (fun e v => later e v.expires) exp) := by
  induction vs generalizing doc view exp with
  | nil =>
      rw [List.foldl_nil]
      cases aux <;> exact h
  | cons v vs ih =>
      have hv := ih (merge_docs_shows now h v aux)
      cases aux <;> exact hv

theorem foldl_join_aux (now : String) (aux : List Version) (k : String) (cur : Option (List Value)) :
    aux.foldl (fun cur a => join now true cur (a.pushed k)) cur = cur.or (aux.findSome? (fun a => a.pushed k)) := by
  induction aux generalizing cur with
  | nil => cases cur <;> rfl
  | cons a aux ih =>
      rw [List.foldl_cons, ih, List.findSome?_cons]
      cases cur with
      | none => cases a.pushed k <;> rfl
      | some ca => cases a.pushed k <;> rfl

theorem merge_versions_shows (now : String) (b : Version) (rs aux : List Version) :
    Shows (merge_versions now b rs aux) (fun k => (merged now b rs k).or (aux.findSome? (fun a => a.pushed k)))
      (rs.foldl (fun e r => later e r.expires) b.expires) := by
  have h := foldl_shows now true aux (foldl_shows now false rs b.shows)
  simp only [foldl_join_aux] at h
  exact h

section Cells

variable (now : String)

/-- The instances versions have of an attribute in a dataset. -/
def supplied (vs : List Version) (k : String) (ds : Option String) : List Value := vs.filterMap (fun v => v.cell k ds)

theorem supplied_cons (v : Version) (vs : List Version) (k : String) (ds : Option String) :
    supplied (v :: vs) k ds = (v.cell k ds).toList ++ supplied vs k ds := by
  rw [supplied, List.filterMap_cons]
  cases v.cell k ds <;> rfl

theorem mem_supplied {vs : List Version} {k : String} {ds : Option String} {i : Value} :
    i ∈ supplied vs k ds ↔ ∃ v ∈ vs, v.cell k ds = some i := List.mem_filterMap

theorem supplied_perm {vs ws : List Version} (h : vs.Perm ws) (k : String) (ds : Option String) :
    (supplied vs k ds).Perm (supplied ws k ds) := h.filterMap _

theorem find_take_instance (ca : List Value) (ai : Value) (ds : Option String) :
    (take_instance now ca ai).find? (fun i => dataset_id i = ds) =
      if dataset_id ai = ds then Latest.keep (expired now) recency (ca.find? (fun i => dataset_id i = ds)) ai
      else ca.find? (fun i => dataset_id i = ds) := by
  have hkey : ∀ o r, dataset_id o = dataset_id r → dataset_id (Latest.newer (expired now) recency o r) = dataset_id o := by
    intro o r h
    rw [Latest.newer]
    split_ifs
    · exact h.symm
    · rfl
  rw [take_instance]
  cases hexp : expired now ai with
  | true => rw [if_pos rfl, Latest.keep_dead hexp, ite_self]
  | false =>
      rw [if_neg Bool.false_ne_true, Grouping.find_put hkey]
      split_ifs with h
      · cases ca.find? (fun i => dataset_id i = ds) with
        | none => rw [Latest.keep_none hexp]; rfl
        | some c => rw [Latest.keep_some hexp]; rfl
      · rfl

theorem find_foldl_take {aa : List Value} (haa : (aa.map dataset_id).Nodup) (ca : List Value) (ds : Option String) :
    (aa.foldl (take_instance now) ca).find? (fun i => dataset_id i = ds) =
      (aa.find? (fun i => dataset_id i = ds)).toList.foldl (Latest.keep (expired now) recency)
        (ca.find? (fun i => dataset_id i = ds)) := by
  induction aa generalizing ca with
  | nil => rfl
  | cons ai aa ih =>
      rw [List.map_cons, List.nodup_cons] at haa
      rw [List.foldl_cons, ih haa.2, find_take_instance, List.find?_cons]
      by_cases h : dataset_id ai = ds
      · have hnone : aa.find? (fun i => dataset_id i = ds) = none := by
          rw [List.find?_eq_none]
          intro i hi
          rw [decide_eq_true_eq]
          exact fun hid => haa.1 (h.trans hid.symm ▸ List.mem_map_of_mem hi)
        rw [if_pos h, hnone, decide_eq_true h]
        rfl
      · rw [if_neg h, decide_eq_false h]

/-- The instance of a dataset in an attribute that is there. -/
theorem foldl_join_some (rs : List Version) {k : String} (hk : k ∉ META) (ca : List Value) :
    ∃ items, rs.foldl (fun cur r => join now false cur (r.pushed k)) (some ca) = some items ∧
      ∀ ds, items.find? (fun i => dataset_id i = ds) =
        (supplied rs k ds).foldl (Latest.keep (expired now) recency) (ca.find? (fun i => dataset_id i = ds)) := by
  induction rs generalizing ca with
  | nil => exact ⟨ca, rfl, fun _ => rfl⟩
  | cons r rs ih =>
      rw [List.foldl_cons]
      cases hr : r.pushed k with
      | none =>
          obtain ⟨items, hitems, hfind⟩ := ih ca
          refine ⟨items, hitems, fun ds => ?_⟩
          have hcell : r.cell k ds = none := by rw [Version.cell, hr]; rfl
          rw [hfind, supplied_cons, hcell]
          rfl
      | some aa =>
          obtain ⟨items, hitems, hfind⟩ := ih (aa.foldl (take_instance now) ca)
          refine ⟨items, hitems, fun ds => ?_⟩
          have hcell : r.cell k ds = aa.find? (fun i => dataset_id i = ds) := by rw [Version.cell, hr]; rfl
          rw [hfind, find_foldl_take now (r.nodup_pushed hk hr), supplied_cons, hcell, List.foldl_append]

/-- The first version that has an attribute the first of all lacks gives all its instances. -/
theorem foldl_join_none (rs : List Version) {k : String} (hk : k ∉ META) :
    (∀ r ∈ rs, r.pushed k = none) ∧ rs.foldl (fun cur r => join now false cur (r.pushed k)) none = none ∨
      ∃ r post items, r ∈ rs ∧ rs.foldl (fun cur r => join now false cur (r.pushed k)) none = some items ∧
        ∀ ds, supplied rs k ds = (r.cell k ds).toList ++ supplied post k ds ∧
          items.find? (fun i => dataset_id i = ds) =
            (supplied post k ds).foldl (Latest.keep (expired now) recency) (r.cell k ds) := by
  induction rs with
  | nil => exact .inl ⟨fun _ h => absurd h List.not_mem_nil, rfl⟩
  | cons r rs ih =>
      rw [List.foldl_cons]
      cases hr : r.pushed k with
      | none =>
          rcases ih with ⟨hall, hnone⟩ | ⟨r', post, items, hr', hitems, hcells⟩
          · exact .inl ⟨List.forall_mem_cons.mpr ⟨hr, hall⟩, hnone⟩
          · refine .inr ⟨r', post, items, List.mem_cons_of_mem _ hr', hitems, fun ds => ⟨?_, (hcells ds).2⟩⟩
            have hcell : r.cell k ds = none := by rw [Version.cell, hr]; rfl
            rw [supplied_cons, hcell, (hcells ds).1]
            rfl
      | some aa =>
          obtain ⟨items, hitems, hfind⟩ := foldl_join_some now rs hk aa
          refine .inr ⟨r, rs, items, List.mem_cons_self, hitems, fun ds => ⟨supplied_cons r rs k ds, ?_⟩⟩
          have hcell : r.cell k ds = aa.find? (fun i => dataset_id i = ds) := by rw [Version.cell, hr]; rfl
          rw [hfind, hcell]

theorem nodup_take_instance {ca : List Value} (h : (ca.map dataset_id).Nodup) (ai : Value) :
    ((take_instance now ca ai).map dataset_id).Nodup := by
  have hkey : ∀ o r, dataset_id o = dataset_id r → dataset_id (Latest.newer (expired now) recency o r) = dataset_id o := by
    intro o r h
    rw [Latest.newer]
    split_ifs
    · exact h.symm
    · rfl
  rw [take_instance]
  split_ifs
  · exact h
  · rw [Grouping.keys_put hkey]
    split_ifs with hmem
    · exact h
    · exact List.nodup_append.mpr ⟨h, List.nodup_singleton _, fun a ha b hb hab => hmem (List.mem_singleton.mp hb ▸ hab ▸ ha)⟩

theorem nodup_merged (b : Version) (rs : List Version) {k : String} (hk : k ∉ META) {items : List Value}
    (h : merged now b rs k = some items) : (items.map dataset_id).Nodup := by
  have htake : ∀ (aa ca : List Value), (ca.map dataset_id).Nodup → ((aa.foldl (take_instance now) ca).map dataset_id).Nodup := by
    intro aa
    induction aa with
    | nil => exact fun _ h => h
    | cons ai aa ih => exact fun ca h => ih _ (nodup_take_instance now h ai)
  rw [merged] at h
  generalize hcur : b.attr k = cur at h
  have hbase : ∀ items, cur = some items → (items.map dataset_id).Nodup := fun items hi => b.nodup_attr hk (hcur.trans hi)
  clear hcur
  induction rs generalizing cur with
  | nil => exact hbase items h
  | cons r rs ih =>
      refine ih _ h fun items' hitems' => ?_
      change join now false cur (r.pushed k) = some items' at hitems'
      cases cur with
      | none => exact r.nodup_pushed hk hitems'
      | some ca =>
          cases hr : r.pushed k with
          | none =>
              rw [hr] at hitems'
              exact hbase items' hitems'
          | some aa =>
              rw [hr, join, Option.some.injEq] at hitems'
              rw [← hitems']
              exact htake aa ca (hbase ca rfl)

end Cells

/-- Merging a version with others in any order comes out right: an instance of the first
version that no newer or living one replaces has not expired itself, and is as push-down
would leave it unless that version is always the first; and an attribute the first version
lacks comes in no dataset with expired instances alone. -/
structure Settled (fixed : Prop) (now : String) (b : Version) (rs : List Version) : Prop where
  stands : ∀ k, k ∉ META → ∀ ds i, b.raw k ds = some i →
    (∃ a ∈ supplied rs k ds, expired now a = false ∧ (expired now i = true ∨ recency i < recency a)) ∨
      expired now (b.capped i) = false ∧ (fixed ∨ b.capped i = i)
  fresh : ∀ k, k ∉ META → b.attr k = none → ∀ ds, ∀ c ∈ supplied rs k ds, expired now c = true →
    ∃ a ∈ supplied rs k ds, expired now a = false

/-- The instances of one attribute and dataset have different recencies. -/
def Distinct (vs : List Version) : Prop :=
  vs.Pairwise (fun u w => ∀ k, k ∉ META → ∀ ds i j, u.cell k ds = some i → w.cell k ds = some j → recency i ≠ recency j)

theorem Distinct.perm {vs ws : List Version} (h : Distinct vs) (hp : vs.Perm ws) : Distinct ws :=
  hp.pairwise h fun huw k hk ds i j hi hj => (huw k hk ds j i hj hi).symm

/-- The instance of a dataset in a merged attribute. -/
def merged_cell (now : String) (b : Version) (rs : List Version) (k : String) (ds : Option String) : Option Value :=
  (merged now b rs k).bind (fun items => items.find? (fun i => dataset_id i = ds))

section Best

variable {fixed : Prop} {now : String} {b : Version} {rs : List Version} {k : String}

theorem merged_cell_some (hk : k ∉ META) {ca : List Value} (hb : b.attr k = some ca) (ds : Option String) :
    merged_cell now b rs k ds = (supplied rs k ds).foldl (Latest.keep (expired now) recency) (b.raw k ds) := by
  obtain ⟨items, hitems, hfind⟩ := foldl_join_some now rs hk ca
  rw [merged_cell, merged, hb, hitems, Option.bind_some, hfind, Version.raw, hb, Option.bind_some]

/-- The first version's instance of a dataset among those the others have. -/
theorem supplied_first (b : Version) (rs : List Version) (k : String) (ds : Option String) :
    supplied (b :: rs) k ds = ((b.raw k ds).map b.capped).toList ++ supplied rs k ds := by
  rw [supplied_cons, b.cell_eq]

theorem raw_none (hb : b.attr k = none) (ds : Option String) : b.raw k ds = none := by
  rw [Version.raw, hb]
  rfl

theorem best_one {i : Value} (halive : expired now i = false) : Latest.Best (expired now) recency [i] (some i) :=
  ⟨List.mem_singleton.mpr rfl, halive, fun _ ha _ => (List.mem_singleton.mp ha) ▸ le_refl _⟩

theorem best_of_empty (l : List Value) :
    Latest.Best (expired now) recency l (l.foldl (Latest.keep (expired now) recency) none) := by
  have h := Latest.foldl_keep_best (l := l) (show Latest.Best (expired now) recency [] none from fun _ h => by cases h)
  rwa [List.nil_append] at h

/-- What has expired can be left out. -/
theorem best_with_dead {l : List Value} {o : Option Value} (h : Latest.Best (expired now) recency l o) {c : Value}
    (hc : expired now c = true) : Latest.Best (expired now) recency ((some c).toList ++ l) o := by
  refine h.congr fun x hx => ⟨fun h => List.mem_append_right _ h, fun h => (List.mem_append.mp h).resolve_left fun hxc => ?_⟩
  rw [List.mem_singleton.mp hxc, hc] at hx
  cases hx

/-- The latest of the others and an instance is, but for itself, the latest of the others
and another as old. -/
theorem best_exchange {l : List Value} {i i' : Value} {r : Option Value} (h : Latest.Best (expired now) recency ([i] ++ l) r)
    (hi : expired now i = false) (hi' : expired now i' = false) (hsame : recency i' = recency i) :
    r = some i ∧ Latest.Best (expired now) recency ((some i').toList ++ l) (some i') ∨
      Latest.Best (expired now) recency ((some i').toList ++ l) r := by
  cases r with
  | none =>
      have hdead := h i (List.mem_append_left _ (List.mem_singleton.mpr rfl))
      rw [hi] at hdead
      cases hdead
  | some j =>
      obtain ⟨hj, hjalive, hle⟩ := h
      rcases List.mem_append.mp hj with hj | hj
      · obtain rfl := List.mem_singleton.mp hj
        refine .inl ⟨rfl, List.mem_append_left _ (List.mem_singleton.mpr rfl), hi', fun x hx hxalive => ?_⟩
        rw [hsame]
        rcases List.mem_append.mp hx with hx | hx
        · rw [List.mem_singleton.mp hx, hsame]
        · exact hle x (List.mem_append_right _ hx) hxalive
      · refine .inr ⟨List.mem_append_right _ hj, hjalive, fun x hx hxalive => ?_⟩
        rcases List.mem_append.mp hx with hx | hx
        · rw [List.mem_singleton.mp hx, hsame]
          exact hle i (List.mem_append_left _ (List.mem_singleton.mpr rfl)) hi
        · exact hle x (List.mem_append_right _ hx) hxalive

/-- A settled merge leaves the most recent instance of every dataset. -/
theorem Settled.best (h : Settled fixed now b rs) (hk : k ∉ META) (ds : Option String) :
    ∃ o, Latest.Best (expired now) recency (supplied (b :: rs) k ds) o ∧
      (merged_cell now b rs k ds = o ∨
        fixed ∧ ∃ i, b.raw k ds = some i ∧ merged_cell now b rs k ds = some i ∧ o = some (b.capped i)) := by
  rw [supplied_first]
  cases hb : b.attr k with
  | none =>
      refine ⟨_, ?_, .inl rfl⟩
      rw [raw_none hb]
      rcases foldl_join_none now rs hk with ⟨hall, hnone⟩ | ⟨r, post, items, hr, hitems, hcells⟩
      · rw [merged_cell, merged, hb, hnone]
        intro a ha
        obtain ⟨r, hr, hcell⟩ := mem_supplied.mp ha
        rw [Version.cell, hall r hr] at hcell
        cases hcell
      · obtain ⟨hsupplied, hfind⟩ := hcells ds
        rw [merged_cell, merged, hb, hitems, Option.bind_some, hfind]
        have hfresh := h.fresh k hk hb ds
        rw [hsupplied] at hfresh ⊢
        cases hcell : r.cell k ds with
        | none => exact best_of_empty _
        | some c =>
            rw [hcell] at hfresh
            have hmem : c ∈ (some c).toList ++ supplied post k ds := List.mem_append_left _ (List.mem_singleton.mpr rfl)
            cases hdead : expired now c with
            | false => exact Latest.foldl_keep_best (best_one hdead)
            | true =>
                obtain ⟨a, ha, halive⟩ := hfresh c hmem hdead
                have ha' : a ∈ supplied post k ds := by
                  rcases List.mem_append.mp ha with ha | ha
                  · rw [List.mem_singleton.mp ha, hdead] at halive
                    cases halive
                  · exact ha
                exact best_with_dead (Latest.foldl_keep_of_dead ⟨a, ha', halive⟩ hdead) hdead
  | some ca =>
      rw [merged_cell_some hk hb]
      cases hi : b.raw k ds with
      | none => exact ⟨_, best_of_empty _, .inl rfl⟩
      | some i =>
          rw [Option.map_some]
          have hstands := h.stands k hk ds i hi
          cases hdead : expired now i with
          | true =>
              have hcapped := b.expired_capped hdead
              rcases hstands with ⟨a, ha, halive, -⟩ | ⟨halive, -⟩
              · exact ⟨_, best_with_dead (Latest.foldl_keep_of_dead ⟨a, ha, halive⟩ hdead) hcapped, .inl rfl⟩
              · rw [hcapped] at halive
                cases halive
          | false =>
              have hfold := Latest.foldl_keep_best (l := supplied rs k ds) (best_one hdead)
              rcases hstands with ⟨a, ha, halive, hor⟩ | ⟨hcapped, hfixed⟩
              · have hlt : recency i < recency a := hor.resolve_left (by rw [hdead]; exact Bool.false_ne_true)
                refine ⟨_, ?_, .inl rfl⟩
                cases hr : (supplied rs k ds).foldl (Latest.keep (expired now) recency) (some i) with
                | none =>
                    rw [hr] at hfold
                    have hi' := hfold i (List.mem_append_left _ (List.mem_singleton.mpr rfl))
                    rw [hdead] at hi'
                    cases hi'
                | some j =>
                    rw [hr] at hfold
                    obtain ⟨hj, hjalive, hle⟩ := hfold
                    have hij : recency i < recency j := hlt.trans_le (hle a (List.mem_append_right _ ha) halive)
                    have hmem : j ∈ supplied rs k ds := by
                      rcases List.mem_append.mp hj with hj | hj
                      · rw [List.mem_singleton.mp hj] at hij
                        exact absurd hij (lt_irrefl _)
                      · exact hj
                    refine ⟨List.mem_append_right _ hmem, hjalive, fun x hx hxalive => ?_⟩
                    rcases List.mem_append.mp hx with hx | hx
                    · rw [List.mem_singleton.mp hx, b.recency_capped]
                      exact hij.le
                    · exact hle x (List.mem_append_right _ hx) hxalive
              · rcases best_exchange hfold hdead hcapped (b.recency_capped i) with ⟨hsame, hbest⟩ | hbest
                · refine ⟨_, hbest, ?_⟩
                  rw [hsame]
                  rcases hfixed with hfixed | hcap
                  · exact .inr ⟨hfixed, i, rfl, rfl, rfl⟩
                  · exact .inl (congrArg some hcap.symm)
                · exact ⟨_, hbest, .inl rfl⟩

theorem recency_first (hdistinct : Distinct (b :: rs)) (hk : k ∉ META) {ds : Option String} {i a : Value}
    (hi : b.raw k ds = some i) (ha : a ∈ supplied rs k ds) : recency i ≠ recency a := by
  obtain ⟨w, hw, hcell⟩ := mem_supplied.mp ha
  have hfirst : b.cell k ds = some (b.capped i) := by rw [b.cell_eq, hi, Option.map_some]
  have h := (List.pairwise_cons.mp hdistinct).1 w hw k hk ds _ _ hfirst hcell
  rwa [b.recency_capped] at h

/-- What a merged cell holds comes from the first version or from the others. -/
theorem merged_cell_origin (hk : k ∉ META) {ds : Option String} {j : Value} (h : merged_cell now b rs k ds = some j) :
    b.raw k ds = some j ∨ j ∈ supplied rs k ds := by
  have hkeep : ∀ (l : List Value) (o : Option Value), l.foldl (Latest.keep (expired now) recency) o = some j → o = some j ∨ j ∈ l := by
    intro l
    induction l with
    | nil => exact fun _ h => .inl h
    | cons a l ih =>
        intro o h
        rcases ih _ h with h | h
        · cases hdead : expired now a with
          | true =>
              rw [Latest.keep_dead hdead] at h
              exact .inl h
          | false =>
              cases o with
              | none =>
                  rw [Latest.keep_none hdead, Option.some.injEq] at h
                  exact .inr (h ▸ List.mem_cons_self)
              | some c =>
                  rw [Latest.keep_some hdead, Latest.newer, Option.some.injEq] at h
                  split_ifs at h
                  · exact .inr (h ▸ List.mem_cons_self)
                  · exact .inl (congrArg some h)
        · exact .inr (List.mem_cons_of_mem _ h)
  cases hb : b.attr k with
  | none =>
      rcases foldl_join_none now rs hk with ⟨-, hnone⟩ | ⟨r, post, items, hr, hitems, hcells⟩
      · rw [merged_cell, merged, hb, hnone] at h
        cases h
      · obtain ⟨hsupplied, hfind⟩ := hcells ds
        rw [merged_cell, merged, hb, hitems, Option.bind_some, hfind] at h
        rw [hsupplied]
        rcases hkeep _ _ h with h | h
        · exact .inr (List.mem_append_left _ (Option.mem_toList.mpr h))
        · exact .inr (List.mem_append_right _ h)
  | some ca =>
      rw [merged_cell_some hk hb] at h
      exact hkeep _ _ h

/-- The instance of the first version stays when nothing replaces it. -/
theorem merged_cell_stands (hdistinct : Distinct (b :: rs)) (hk : k ∉ META) {ds : Option String} {i : Value}
    (hi : b.raw k ds = some i)
    (hno : ¬ ∃ a ∈ supplied rs k ds, expired now a = false ∧ (expired now i = true ∨ recency i < recency a)) :
    merged_cell now b rs k ds = some i := by
  cases hb : b.attr k with
  | none =>
      rw [raw_none hb] at hi
      cases hi
  | some ca =>
      rw [merged_cell_some hk hb, hi]
      by_cases hany : ∃ a ∈ supplied rs k ds, expired now a = false
      · obtain ⟨a, ha, halive⟩ := hany
        have hi' : expired now i = false := by
          by_contra hdead
          rw [Bool.not_eq_false] at hdead
          exact hno ⟨a, ha, halive, .inl hdead⟩
        have hfold := Latest.foldl_keep_best (l := supplied rs k ds) (best_one hi')
        cases hr : (supplied rs k ds).foldl (Latest.keep (expired now) recency) (some i) with
        | none =>
            rw [hr] at hfold
            have hdead := hfold i (List.mem_append_left _ (List.mem_singleton.mpr rfl))
            rw [hi'] at hdead
            cases hdead
        | some j =>
            rw [hr] at hfold
            obtain ⟨hj, hjalive, hle⟩ := hfold
            rcases List.mem_append.mp hj with hj | hj
            · rw [List.mem_singleton.mp hj]
            · have hij := hle i (List.mem_append_left _ (List.mem_singleton.mpr rfl)) hi'
              have hlt := lt_of_le_of_ne hij (recency_first hdistinct hk hi hj)
              exact absurd ⟨j, hj, hjalive, .inr hlt⟩ hno
      · refine Latest.foldl_keep_dead (fun a ha => ?_) _
        by_contra halive
        rw [Bool.not_eq_true] at halive
        exact hany ⟨a, ha, halive⟩

/-- With an expired instance alone of a dataset, one order takes it. -/
theorem merged_cell_fresh (hk : k ∉ META) (hb : b.attr k = none) {ds : Option String} {c : Value} (hc : c ∈ supplied rs k ds)
    (hall : ∀ a ∈ supplied rs k ds, expired now a = true) : ∃ rs', rs'.Perm rs ∧ merged_cell now b rs' k ds = some c := by
  obtain ⟨r, hr, hcell⟩ := mem_supplied.mp hc
  obtain ⟨pre, post, rfl⟩ := List.append_of_mem hr
  have hperm : (r :: (pre ++ post)).Perm (pre ++ r :: post) := List.perm_middle.symm
  refine ⟨_, hperm, ?_⟩
  cases hpushed : r.pushed k with
  | none =>
      rw [Version.cell, hpushed] at hcell
      cases hcell
  | some aa =>
      obtain ⟨items, hitems, hfind⟩ := foldl_join_some now (pre ++ post) hk aa
      have hmerged : merged now b (r :: (pre ++ post)) k = some items := by
        rw [merged, hb, List.foldl_cons, hpushed]
        exact hitems
      have haa : aa.find? (fun i => dataset_id i = ds) = some c := by
        rw [Version.cell, hpushed] at hcell
        exact hcell
      have hdeads : ∀ a ∈ supplied (pre ++ post) k ds, expired now a = true := by
        intro a ha
        obtain ⟨w, hw, hcell⟩ := mem_supplied.mp ha
        exact hall a (mem_supplied.mpr ⟨w, hperm.mem_iff.mp (List.mem_cons_of_mem _ hw), hcell⟩)
      rw [merged_cell, hmerged, Option.bind_some, hfind, haa, Latest.foldl_keep_dead hdeads]

end Best

/-- The attributes of auxiliary versions fit: one that another version has comes in no
further dataset, and the first auxiliary version to have one has nothing expired in it and
every dataset the later ones have. -/
structure AuxFits (now : String) (vs aux : List Version) : Prop where
  known : ∀ k, k ∉ META → (∃ v ∈ vs, (v.attr k).isSome = true) → ∀ a ∈ aux, ∀ ds i, a.cell k ds = some i →
    expired now i = false → ∃ j ∈ supplied vs k ds, expired now j = false
  fresh : ∀ k, k ∉ META → (∀ v ∈ vs, v.attr k = none) → ∀ items, aux.findSome? (fun a => a.pushed k) = some items →
    (∀ i ∈ items, expired now i = false) ∧
      ∀ a ∈ aux, ∀ ds i, a.cell k ds = some i → expired now i = false → ds ∈ items.map dataset_id

def instances (doc : Value) (k : String) : List Value := ((doc.get k).bind Value.as_array).getD []

/-- What the merge of versions is for: the most recent living instance of each attribute
and dataset, as its version has it or as push-down leaves it, what the auxiliary versions
add, and nothing that has expired. -/
structure Merged (now : String) (vs aux : List Version) (doc : Value) : Prop where
  latest : ∀ k, k ∉ META → (∃ v ∈ vs, (v.attr k).isSome = true) → ∀ ds,
    ∃ o, Latest.Best (expired now) recency (supplied vs k ds) o ∧
      ((instances doc k).find? (fun i => dataset_id i = ds) = o ∨
        ∃ v ∈ vs, ∃ i, v.raw k ds = some i ∧ (instances doc k).find? (fun i => dataset_id i = ds) = some i ∧
          o = some (v.capped i))
  kept : ∀ a ∈ aux, ∀ k, k ∉ META → ∀ ds i, a.cell k ds = some i → expired now i = false →
    ds ∈ (instances doc k).map dataset_id
  living : ∀ k, k ∉ META → ∀ i ∈ instances doc k, expired now i = false

section Sources

variable (now : String)

theorem sorted_merge_member (aux : Bool) {bo : Map} (h : SortedMap.Sorted bo) (p : String × Value) :
    SortedMap.Sorted (merge_member now aux bo p) := by
  rw [merge_member.eq_def]
  split
  · exact h
  · split
    · exact SortedMap.sorted_insert _ _ h
    · split
      · exact h
      · split
        · exact SortedMap.sorted_insert _ _ h
        · exact h

theorem sorted_merge_expires {bo : Map} (h : SortedMap.Sorted bo) (ao : Map) : SortedMap.Sorted (merge_expires bo ao) := by
  rw [merge_expires.eq_def]
  split
  · split_ifs
    · exact SortedMap.sorted_insert _ _ h
    · exact h
  · exact SortedMap.sorted_erase _ h

theorem take_own (v : Version) {k : String} (hk : k ∉ META) {items : List Value} (h : v.attr k = some items) :
    (items.map v.capped).foldl (take_instance now) items = items := by
  have hnodup := v.nodup_attr hk h
  have hone : ∀ i ∈ items, take_instance now items (v.capped i) = items := by
    intro i hi
    rw [take_instance]
    split_ifs with hdead
    · rfl
    · refine Grouping.put_absorbed ?_ fun o ho hsame => ?_
      · rw [v.dataset_id_capped]
        exact List.mem_map_of_mem hi
      · rw [v.dataset_id_capped] at hsame
        obtain rfl := List.inj_on_of_nodup_map hnodup ho hi hsame
        have halive : expired now o = false := by
          by_contra ho'
          rw [Bool.not_eq_false] at ho'
          exact hdead (v.expired_capped ho')
        refine if_neg ?_
        simp [halive, v.recency_capped]
  have hall : ∀ l : List Value, (∀ i ∈ l, i ∈ items) → (l.map v.capped).foldl (take_instance now) items = items := by
    intro l
    induction l with
    | nil => exact fun _ => rfl
    | cons i l ih =>
        intro hl
        rw [List.forall_mem_cons] at hl
        rw [List.map_cons, List.foldl_cons, hone i hl.1, ih hl.2]
  exact hall items fun _ hi => hi

/-- A version merged into itself is itself. -/
theorem merge_docs_self (v : Version) (aux : Bool) : merge_docs now v.doc v.doc aux = v.doc := by
  obtain ⟨ao, hpush, hsorted, hpushed, hlife, hmerge⟩ := merge_docs_object now v.members v aux
  obtain ⟨ao', hpush', -, -, hmeta⟩ := push_down_version v
  rw [hpush', Value.object.injEq] at hpush
  subst hpush
  rw [Version.doc, show merge_docs now (.object v.members) (.object v.members) aux = _ from hmerge]
  have hexp : (if aux then v.members else merge_expires v.members ao').lookup "expiresAt" = v.members.lookup "expiresAt" := by
    cases aux with
    | true => rfl
    | false =>
        refine (lookup_merge_expires v.lookup_expires hlife).trans ?_
        rw [v.lookup_expires]
        cases v.expires with
        | none => rfl
        | some e => rw [later, if_neg (lt_irrefl _)]
  have hfold := SortedMap.lookup_foldl (lookup_merge_member now aux) hsorted (if aux then v.members else merge_expires v.members ao')
  refine congrArg Value.object (SortedMap.ext ?_ v.sorted fun k => (hfold k).trans ?_)
  · have hstart : SortedMap.Sorted (if aux then v.members else merge_expires v.members ao') := by
      split_ifs
      · exact v.sorted
      · exact sorted_merge_expires v.sorted _
    clear hfold hsorted hpushed hlife hmerge hpush' hmeta hexp
    generalize (if aux then v.members else merge_expires v.members ao') = bo at hstart
    induction ao' generalizing bo with
    | nil => exact hstart
    | cons p ao' ih => exact ih _ (sorted_merge_member now aux hstart p)
  · by_cases hk : k = "expiresAt"
    · subst hk
      rw [hexp]
      cases ao'.lookup "expiresAt" with
      | none => rfl
      | some w =>
          rw [Option.elim_some, merged_value.eq_def]
          exact if_pos rfl
    · have hstart : (if aux then v.members else merge_expires v.members ao').lookup k = v.members.lookup k := by
        cases aux with
        | true => rfl
        | false => exact lookup_merge_expires_ne v.members ao' hk
      rw [hstart]
      by_cases hmem : k ∈ META
      · rw [hmeta k hmem]
        cases hw : v.members.lookup k with
        | none => rfl
        | some w =>
            rw [Option.elim_some, merged_value.eq_def, if_neg hk]
            dsimp only
            split_ifs with hkeep
            · rfl
            · rw [Bool.or_eq_true, decide_eq_true_eq, not_or] at hkeep
              have hstamp : k ∈ ["expiresAt", "createdAt", "modifiedAt", "deletedAt"] := by
                simp only [META, List.mem_cons, List.not_mem_nil, or_false] at hmem hkeep ⊢
                tauto
              obtain ⟨t, rfl⟩ := v.stamps k hstamp w hw
              rfl
      · rw [hpushed k hmem, v.lookup_attr hmem, Version.pushed]
        cases hattr : v.attr k with
        | none => rfl
        | some items =>
            rw [Option.map_some, Option.map_some, Option.map_some, Option.elim_some, merged_value.eq_def, if_neg hk]
            dsimp only
            rw [take_own now v hmem hattr]
            split_ifs <;> rfl

end Sources

section Outcome

variable {now : String} {b : Version} {rs aux : List Version} {k : String}

theorem Version.isSome_pushed (v : Version) (k : String) : (v.pushed k).isSome = (v.attr k).isSome := Option.isSome_map

theorem isSome_merged (now : String) : (merged now b rs k).isSome = true ↔ ∃ v ∈ b :: rs, (v.attr k).isSome = true := by
  have hjoin : ∀ (rs : List Version) (cur : Option (List Value)),
      (rs.foldl (fun cur r => join now false cur (r.pushed k)) cur).isSome = true ↔
        cur.isSome = true ∨ ∃ r ∈ rs, (r.attr k).isSome = true := by
    refine fun rs cur => foldl_iff (P := fun cur => cur.isSome = true) (fun cur r => ?_) rs cur
    rw [← r.isSome_pushed]
    cases cur <;> cases r.pushed k <;> simp [join]
  rw [merged, hjoin, List.exists_mem_cons_iff]

theorem merged_none : merged now b rs k = none ↔ ∀ v ∈ b :: rs, v.attr k = none := by
  rw [← Option.not_isSome_iff_eq_none, isSome_merged]
  simp only [not_exists, not_and, Bool.not_eq_true, Option.isSome_eq_false_iff, Option.isNone_iff_eq_none]

theorem instances_versions (hk : k ∉ META) : instances (merge_versions now b rs aux) k =
    ((merged now b rs k).or (aux.findSome? (fun a => a.pushed k))).getD [] := by
  rw [instances, (merge_versions_shows now b rs aux).attrs k hk]
  cases (merged now b rs k).or (aux.findSome? (fun a => a.pushed k)) <;> rfl

theorem find_of_mem {items : List Value} (h : (items.map dataset_id).Nodup) {i : Value} (hi : i ∈ items) :
    items.find? (fun j => dataset_id j = dataset_id i) = some i := by
  cases hf : items.find? (fun j => dataset_id j = dataset_id i) with
  | none =>
      rw [List.find?_eq_none] at hf
      exact absurd (decide_eq_true rfl) (hf i hi)
  | some j =>
      have hid := of_decide_eq_true (List.find?_some (p := fun j => decide (dataset_id j = dataset_id i)) hf)
      exact congrArg some (List.inj_on_of_nodup_map h (List.mem_of_find?_eq_some hf) hi hid)

theorem mem_datasets {items : List Value} {ds : Option String} :
    ds ∈ items.map dataset_id ↔ ∃ i, items.find? (fun i => dataset_id i = ds) = some i := by
  rw [← Option.isSome_iff_exists, List.find?_isSome, List.mem_map]
  simp only [decide_eq_true_eq]

theorem find_merged (hk : k ∉ META) (hsome : ∃ v ∈ b :: rs, (v.attr k).isSome = true) (ds : Option String) :
    (instances (merge_versions now b rs aux) k).find? (fun i => dataset_id i = ds) = merged_cell now b rs k ds := by
  obtain ⟨items, hitems⟩ := Option.isSome_iff_exists.mp ((isSome_merged now).mpr hsome)
  rw [instances_versions hk, merged_cell, hitems]
  rfl

theorem Version.alive_of_capped (v : Version) {i : Value} (h : expired now (v.capped i) = false) : expired now i = false := by
  by_contra hdead
  rw [Bool.not_eq_false] at hdead
  rw [v.expired_capped hdead] at h
  cases h

/-- Settled versions with auxiliary ones that fit are merged as they should be. -/
theorem merged_of_settled {fixed : Prop} (h : Settled fixed now b rs) (hfits : AuxFits now (b :: rs) aux) :
    Merged now (b :: rs) aux (merge_versions now b rs aux) := by
  have hlatest : ∀ k, k ∉ META → (∃ v ∈ b :: rs, (v.attr k).isSome = true) → ∀ ds,
      ∃ o, Latest.Best (expired now) recency (supplied (b :: rs) k ds) o ∧
        ((instances (merge_versions now b rs aux) k).find? (fun i => dataset_id i = ds) = o ∨
          ∃ v ∈ b :: rs, ∃ i, v.raw k ds = some i ∧
            (instances (merge_versions now b rs aux) k).find? (fun i => dataset_id i = ds) = some i ∧
            o = some (v.capped i)) := by
    intro k hk hsome ds
    rw [find_merged hk hsome]
    obtain ⟨o, hbest, hcell⟩ := h.best hk ds
    exact ⟨o, hbest, hcell.imp_right fun ⟨_, i, hi⟩ => ⟨b, List.mem_cons_self, i, hi⟩⟩
  have hunknown : ∀ k, k ∉ META → (¬ ∃ v ∈ b :: rs, (v.attr k).isSome = true) →
      (∀ v ∈ b :: rs, v.attr k = none) ∧
        instances (merge_versions now b rs aux) k = (aux.findSome? (fun a => a.pushed k)).getD [] := by
    intro k hk hnone
    have hall : ∀ v ∈ b :: rs, v.attr k = none := by
      intro v hv
      by_contra hv'
      exact hnone ⟨v, hv, Option.isSome_iff_ne_none.mpr hv'⟩
    refine ⟨hall, ?_⟩
    rw [instances_versions hk, merged_none.mpr hall, Option.none_or]
  refine ⟨hlatest, fun a ha k hk ds i hi halive => ?_, fun k hk i hi => ?_⟩
  · by_cases hsome : ∃ v ∈ b :: rs, (v.attr k).isSome = true
    · obtain ⟨j, hj, hjalive⟩ := hfits.known k hk hsome a ha ds i hi halive
      obtain ⟨o, hbest, hcell⟩ := hlatest k hk hsome ds
      rw [mem_datasets]
      rcases hcell with hcell | ⟨-, -, x, -, hx, -⟩
      · cases o with
        | none =>
            rw [hbest j hj] at hjalive
            cases hjalive
        | some x => exact ⟨x, hcell⟩
      · exact ⟨x, hx⟩
    · obtain ⟨hall, hinst⟩ := hunknown k hk hsome
      rw [hinst]
      cases hf : aux.findSome? (fun a => a.pushed k) with
      | none =>
          have hnone := List.findSome?_eq_none_iff.mp hf a ha
          rw [Version.cell, hnone] at hi
          cases hi
      | some items => exact (hfits.fresh k hk hall items hf).2 a ha ds i hi halive
  · by_cases hsome : ∃ v ∈ b :: rs, (v.attr k).isSome = true
    · obtain ⟨o, hbest, hcell⟩ := hlatest k hk hsome (dataset_id i)
      obtain ⟨items, hitems⟩ := Option.isSome_iff_exists.mp ((isSome_merged now).mpr hsome)
      have hinst : instances (merge_versions now b rs aux) k = items := by
        rw [instances_versions hk, hitems]
        rfl
      rw [hinst] at hi hcell
      rw [find_of_mem (nodup_merged now b rs hk hitems) hi] at hcell
      rcases hcell with rfl | ⟨v, -, x, -, hx, rfl⟩
      · exact hbest.2.1
      · rw [Option.some.inj hx]
        exact v.alive_of_capped hbest.2.1
    · obtain ⟨hall, hinst⟩ := hunknown k hk hsome
      rw [hinst] at hi
      cases hf : aux.findSome? (fun a => a.pushed k) with
      | none =>
          rw [hf] at hi
          cases hi
      | some items =>
          rw [hf] at hi
          exact (hfits.fresh k hk hall items hf).1 i hi

theorem auxFits_of_merged (h : Merged now (b :: rs) aux (merge_versions now b rs aux)) : AuxFits now (b :: rs) aux := by
  refine ⟨fun k hk hsome a ha ds i hi halive => ?_, fun k hk hall items hitems => ?_⟩
  · have hmem := h.kept a ha k hk ds i hi halive
    obtain ⟨x, hx⟩ := mem_datasets.mp hmem
    obtain ⟨o, hbest, hcell⟩ := h.latest k hk hsome ds
    rw [hx] at hcell
    rcases hcell with rfl | ⟨v, -, y, -, -, rfl⟩
    · exact ⟨x, hbest.1, hbest.2.1⟩
    · exact ⟨v.capped y, hbest.1, hbest.2.1⟩
  · have hinst : instances (merge_versions now b rs aux) k = items := by
      rw [instances_versions hk, merged_none.mpr hall, Option.none_or, hitems]
      rfl
    refine ⟨fun i hi => h.living k hk i (hinst ▸ hi), fun a ha ds i hi halive => ?_⟩
    rw [← hinst]
    exact h.kept a ha k hk ds i hi halive

/-- A merge that comes out right in every order is settled. -/
theorem settled_of_merged {fixed : Prop} (hdistinct : Distinct (b :: rs))
    (h : ∀ rs', rs'.Perm rs → Merged now (b :: rs') aux (merge_versions now b rs' aux))
    (hfixed : fixed ∨ ∀ k, k ∉ META → ∀ ds i, b.raw k ds = some i → merged_cell now b rs k ds = some i → b.capped i = i) :
    Settled fixed now b rs := by
  refine ⟨fun k hk ds i hi => ?_, fun k hk hb ds c hc hdead => ?_⟩
  · refine or_iff_not_imp_left.mpr fun hno => ?_
    have hcell := merged_cell_stands hdistinct hk hi hno
    have hsome : ∃ v ∈ b :: rs, (v.attr k).isSome = true := by
      refine ⟨b, List.mem_cons_self, ?_⟩
      cases hb : b.attr k with
      | none =>
          rw [raw_none hb] at hi
          cases hi
      | some items => rfl
    obtain ⟨o, hbest, hlatest⟩ := (h rs (List.Perm.refl rs)).latest k hk hsome ds
    rw [find_merged hk hsome, hcell] at hlatest
    have halone : ∀ a ∈ supplied rs k ds, recency i ≠ recency a := fun a ha => recency_first hdistinct hk hi ha
    refine ⟨?_, hfixed.imp_right fun hcap => hcap k hk ds i hi hcell⟩
    rcases hlatest with rfl | ⟨v, hv, x, hx, hxi, rfl⟩
    · have hmem := hbest.1
      rw [supplied_first, hi] at hmem
      rcases List.mem_append.mp hmem with hmem | hmem
      · rw [← List.mem_singleton.mp hmem]
        exact hbest.2.1
      · exact absurd rfl (halone i hmem)
    · obtain rfl := Option.some.inj hxi
      rcases List.mem_cons.mp hv with rfl | hv
      · exact hbest.2.1
      · have hmem : v.capped i ∈ supplied rs k ds := mem_supplied.mpr ⟨v, hv, by rw [v.cell_eq, hx, Option.map_some]⟩
        exact absurd (v.recency_capped i).symm (halone _ hmem)
  · by_contra hno
    have hall : ∀ a ∈ supplied rs k ds, expired now a = true := by
      intro a ha
      by_contra halive
      rw [Bool.not_eq_true] at halive
      exact hno ⟨a, ha, halive⟩
    obtain ⟨rs', hperm, hcell⟩ := merged_cell_fresh hk hb hc hall
    have hsome : ∃ v ∈ b :: rs', (v.attr k).isSome = true := by
      obtain ⟨r, hr, hcell⟩ := mem_supplied.mp hc
      refine ⟨r, List.mem_cons_of_mem _ (hperm.mem_iff.mpr hr), ?_⟩
      rw [← r.isSome_pushed]
      cases hp : r.pushed k with
      | none =>
          rw [Version.cell, hp] at hcell
          cases hcell
      | some items => rfl
    have hfind : (instances (merge_versions now b rs' aux) k).find? (fun i => dataset_id i = ds) = some c :=
      (find_merged hk hsome ds).trans hcell
    have halive := (h rs' hperm).living k hk c (List.mem_of_find?_eq_some hfind)
    rw [hdead] at halive
    cases halive

/-- When an entity with these versions expires. -/
def Lifetime (vs : List Version) : Option String → Prop
  | none => ∃ v ∈ vs, v.expires = none
  | some e => (∃ v ∈ vs, v.expires = some e) ∧ ∀ v ∈ vs, ∃ e', v.expires = some e' ∧ dt_key e' ≤ dt_key e

theorem lifetime_snoc {vs : List Version} {o : Option String} (h : Lifetime vs o) (v : Version) :
    Lifetime (vs ++ [v]) (later o v.expires) := by
  have hmem : v ∈ vs ++ [v] := List.mem_append_right _ (List.mem_singleton.mpr rfl)
  cases o with
  | none =>
      obtain ⟨u, hu, hnone⟩ := h
      exact ⟨u, List.mem_append_left _ hu, hnone⟩
  | some e =>
      obtain ⟨⟨u, hu, hue⟩, hall⟩ := h
      cases hv : v.expires with
      | none => exact ⟨v, hmem, hv⟩
      | some a =>
          rw [later]
          split_ifs with hlt
          · refine ⟨⟨v, hmem, hv⟩, fun w hw => ?_⟩
            rcases List.mem_append.mp hw with hw | hw
            · obtain ⟨e', he', hle⟩ := hall w hw
              exact ⟨e', he', hle.trans hlt.le⟩
            · rw [List.mem_singleton.mp hw]
              exact ⟨a, hv, le_refl _⟩
          · refine ⟨⟨u, List.mem_append_left _ hu, hue⟩, fun w hw => ?_⟩
            rcases List.mem_append.mp hw with hw | hw
            · exact hall w hw
            · rw [List.mem_singleton.mp hw]
              exact ⟨a, hv, not_lt.mp hlt⟩

theorem lifetime_versions : Lifetime (b :: rs) (((merge_versions now b rs aux).get "expiresAt").bind Value.as_str) := by
  have hfold : ∀ rs, Lifetime (b :: rs) (rs.foldl (fun e r => later e r.expires) b.expires) := by
    intro rs
    induction rs using List.reverseRecOn with
    | nil =>
        rw [List.foldl_nil]
        cases hb : b.expires with
        | none => exact ⟨b, List.mem_singleton.mpr rfl, hb⟩
        | some e =>
            exact ⟨⟨b, List.mem_singleton.mpr rfl, hb⟩, fun v hv => ⟨e, (List.mem_singleton.mp hv) ▸ hb, le_refl _⟩⟩
    | append_singleton rs r ih =>
        rw [List.foldl_concat]
        exact lifetime_snoc ih r
  have hstr : ∀ o : Option String, (o.map Value.string).bind Value.as_str = o := fun o => by cases o <;> rfl
  rw [(merge_versions_shows now b rs aux).expires, hstr]
  exact hfold rs

/-- An auxiliary version changes no member that is there. -/
theorem merge_docs_aux_keeps (now : String) {doc w : Value} {k : String} (hw : doc.get k = some w) (v : Version) :
    (merge_docs now doc v.doc true).get k = some w := by
  cases doc with
  | object bo =>
      obtain ⟨ao, -, hsorted, -, -, hmerge⟩ := merge_docs_object now bo v true
      have hfold := SortedMap.lookup_foldl (lookup_merge_member now true) hsorted bo k
      have hcur : bo.lookup k = some w := hw
      rw [hmerge]
      refine hfold.trans ?_
      rw [hcur]
      cases ao.lookup k with
      | none => rfl
      | some x =>
          rw [Option.elim_some, merged_value.eq_def]
          by_cases hk : k = "expiresAt"
          · rw [if_pos hk]
          · rw [if_neg hk]
            dsimp only
            rw [Bool.true_or, if_pos rfl]
  | null | bool _ | number _ | string _ | array _ => cases hw

theorem foldl_aux_keeps (now : String) (aux : List Version) {doc w : Value} {k : String} (hw : doc.get k = some w) :
    (aux.foldl (fun doc a => merge_docs now doc a.doc true) doc).get k = some w := by
  induction aux generalizing doc with
  | nil => exact hw
  | cons a aux ih => exact ih (merge_docs_aux_keeps now hw a)

end Outcome

section Sources

variable (now : String)

/-- The first version and those merged into it: the local one comes first, then those
fetched, the auxiliary ones last. -/
def arranged : Option Version → List Version → List Version → Option (Version × List Version × List Version)
  | some l, rs, aux => some (l, rs, aux)
  | none, r :: rs, aux => some (r, rs, aux)
  | none, [], a :: aux => some (a, [], aux)
  | none, [], [] => none

def merge_arranged (p : Version × List Version × List Version) : Value := merge_versions now p.1 p.2.1 p.2.2

def remotes (fed : List (Bool × Version)) : List Version := (fed.filter (fun f => !f.1)).map Prod.snd

def auxiliaries (fed : List (Bool × Version)) : List Version := (fed.filter (fun f => f.1)).map Prod.snd

def docs (fed : List (Bool × Version)) : List (Bool × Value) := fed.map (fun f => (f.1, f.2.doc))

/-- One pass over the fetched versions. -/
theorem foldl_pass {β : Type} (g : β → Value → β) (aux_pass : Bool) (fed : List (Bool × Version)) (b : β) :
    (docs fed).foldl (fun b f => if f.1 = aux_pass then g b f.2 else b) b =
      ((fed.filter (fun f => f.1 = aux_pass)).map Prod.snd).foldl (fun b v => g b v.doc) b := by
  induction fed generalizing b with
  | nil => rfl
  | cons f fed ih =>
      rw [docs, List.map_cons, List.foldl_cons, List.filter_cons]
      by_cases h : f.1 = aux_pass
      · rw [if_pos h, if_pos (decide_eq_true h), List.map_cons, List.foldl_cons]
        exact ih _
      · rw [if_neg h, if_neg (by simpa using h)]
        exact ih _

theorem first_fetched (fed : List (Bool × Version)) :
    (((docs fed).find? (fun f => !f.1)).or (docs fed).head?).map Prod.snd =
      ((remotes fed).head?.or (auxiliaries fed).head?).map Version.doc := by
  have hfind : (docs fed).find? (fun f => !f.1) = (fed.find? (fun f => !f.1)).map (fun f => (f.1, f.2.doc)) := by
    rw [docs, List.find?_map]
    rfl
  rw [hfind, ← List.head?_filter, remotes, List.head?_map, docs, List.head?_map]
  cases hr : fed.filter (fun f => !f.1) with
  | cons f rest => rfl
  | nil =>
      have hall : fed.filter (fun f => f.1) = fed := by
        rw [List.filter_eq_self]
        intro f hf
        have h := List.filter_eq_nil_iff.mp hr f hf
        simpa using h
      rw [auxiliaries, hall, List.head?_map]
      cases fed <;> rfl

theorem two_passes (fed : List (Bool × Version)) (base : Value) :
    [false, true].foldl (fun base aux_pass =>
      (docs fed).foldl (fun base f => if f.1 = aux_pass then merge_docs now base f.2 f.1 else base) base) base =
      (auxiliaries fed).foldl (fun doc a => merge_docs now doc a.doc true)
        ((remotes fed).foldl (fun doc r => merge_docs now doc r.doc false) base) := by
  have hpass : ∀ aux_pass base, (docs fed).foldl (fun base f => if f.1 = aux_pass then merge_docs now base f.2 f.1 else base) base =
      ((fed.filter (fun f => f.1 = aux_pass)).map Prod.snd).foldl (fun b v => merge_docs now b v.doc aux_pass) base := by
    intro aux_pass base
    rw [← foldl_pass (fun b v => merge_docs now b v aux_pass)]
    congr 1
    funext b f
    split_ifs with h
    · rw [h]
    · rfl
  rw [List.foldl_cons, List.foldl_cons, List.foldl_nil, hpass, hpass, remotes, auxiliaries]
  congr 2
  · congr 2
    funext f
    cases f.1 <;> rfl
  · congr 1
    funext f
    cases f.1 <;> rfl

theorem merge_retrieved_eq (l : Option Version) (fed : List (Bool × Version)) :
    merge_retrieved now (l.map Version.doc) (docs fed) =
      (arranged l (remotes fed) (auxiliaries fed)).map (merge_arranged now) := by
  rw [merge_retrieved, first_fetched]
  simp only [two_passes]
  cases l with
  | some l => rfl
  | none =>
      cases hr : remotes fed with
      | cons r rs =>
          rw [Option.map_none, Option.none_or, List.head?_cons, Option.some_or, Option.map_some, Option.map_some, List.foldl_cons,
            merge_docs_self]
          rfl
      | nil =>
          cases ha : auxiliaries fed with
          | nil => rfl
          | cons a aux =>
              rw [Option.map_none, Option.none_or, List.head?_nil, Option.none_or, List.head?_cons, Option.map_some,
                Option.map_some, List.foldl_nil, List.foldl_cons, merge_docs_self]
              rfl

/-- One fetched document of an entity in one of the passes. -/
def fetched (aux_pass : Bool) (o : Option Value) (f : Bool × Value) : Option Value :=
  if f.1 = aux_pass then some (o.elim f.2 (fun base => merge_docs now base f.2 f.1)) else o

/-- What the documents of one entity come to. -/
def candidate (locals : List Value) (fed : List (Bool × Value)) (id : String) : Option Value :=
  [false, true].foldl (fun o aux_pass => (fed.filter (fun f => id_of f.2 = some id)).foldl (fetched now aux_pass) o)
    (locals.filter (fun doc => id_of doc = some id)).getLast?

def candidates (locals : List Value) (fed : List (Bool × Value)) : Candidates :=
  [false, true].foldl (fun c aux_pass => fed.foldl (add_fed now aux_pass) c) (locals.foldl add_local ⟨[], BTreeMap.empty⟩)

/-- The ids that came are those of the documents. -/
def Candidates.Listed (c : Candidates) : Prop := ∀ id, id ∈ c.order ↔ (c.by_id.get id).isSome = true

theorem get_add_local (c : Candidates) (doc : Value) (id : String) :
    (add_local c doc).by_id.get id = if id_of doc = some id then some doc else c.by_id.get id := by
  rw [add_local.eq_def]
  split
  · next x hx =>
      rw [BTreeMap.get_insert, hx]
      by_cases h : id = x
      · rw [if_pos h, if_pos (congrArg some h.symm)]
      · rw [if_neg h, if_neg fun h' => h (Option.some.inj h').symm]
  · next hx => rw [hx, if_neg (fun h => by cases h)]

theorem listed_add_local {c : Candidates} (h : c.Listed) (doc : Value) : (add_local c doc).Listed := by
  intro id
  rw [get_add_local, add_local.eq_def]
  split
  · next x hx =>
      rw [List.mem_append, List.mem_singleton, h id, hx]
      by_cases hid : x = id
      · simp [hid]
      · simp [hid, Ne.symm hid]
  · next hx =>
      rw [hx, if_neg (fun h => by cases h)]
      exact h id

theorem get_add_fed (aux_pass : Bool) (c : Candidates) (f : Bool × Value) (id : String) :
    (add_fed now aux_pass c f).by_id.get id =
      if id_of f.2 = some id then fetched now aux_pass (c.by_id.get id) f else c.by_id.get id := by
  rw [add_fed.eq_def, fetched]
  by_cases hpass : f.1 = aux_pass
  · rw [if_neg (not_not.mpr hpass), if_pos hpass]
    split
    · next hx => rw [hx, if_neg (fun h => by cases h)]
    · next x hx =>
        rw [hx]
        have hinsert : ∀ d, (c.by_id.insert x d).get id = if some x = some id then some d else c.by_id.get id := by
          intro d
          rw [BTreeMap.get_insert]
          by_cases h : id = x
          · rw [if_pos h, if_pos (congrArg some h.symm)]
          · rw [if_neg h, if_neg fun h' => h (Option.some.inj h').symm]
        split
        · next base hbase =>
            rw [hinsert]
            split_ifs with h
            · rw [← Option.some.inj h, hbase, Option.elim_some]
            · rfl
        · next hbase =>
            rw [hinsert]
            split_ifs with h
            · rw [← Option.some.inj h, hbase, Option.elim_none]
            · rfl
  · rw [if_pos hpass, if_neg hpass, ite_self]

theorem listed_add_fed (aux_pass : Bool) {c : Candidates} (h : c.Listed) (f : Bool × Value) :
    (add_fed now aux_pass c f).Listed := by
  intro id
  rw [add_fed.eq_def]
  split_ifs with hpass
  · exact h id
  · split
    · exact h id
    · next x hx =>
        split
        · next base hbase =>
            rw [h id, BTreeMap.get_insert]
            split_ifs with hid
            · rw [hid, hbase]
              rfl
            · rfl
        · next hbase =>
            rw [List.mem_append, List.mem_singleton, h id, BTreeMap.get_insert]
            by_cases hid : id = x <;> simp [hid]

theorem get_candidates (locals : List Value) (fed : List (Bool × Value)) (id : String) :
    (candidates now locals fed).by_id.get id = candidate now locals fed id := by
  have hlocal : ∀ c : Candidates, (locals.foldl add_local c).by_id.get id =
      (locals.filter (fun doc => id_of doc = some id)).getLast?.or (c.by_id.get id) := by
    induction locals using List.reverseRecOn with
    | nil => exact fun _ => rfl
    | append_singleton locals doc ih =>
        intro c
        rw [List.foldl_concat, get_add_local, ih, List.filter_append]
        by_cases h : id_of doc = some id <;> simp [h]
  have hpass : ∀ aux_pass (c : Candidates), (fed.foldl (add_fed now aux_pass) c).by_id.get id =
      (fed.filter (fun f => id_of f.2 = some id)).foldl (fetched now aux_pass) (c.by_id.get id) := by
    intro aux_pass
    induction fed with
    | nil => exact fun _ => rfl
    | cons f fed ih =>
        intro c
        rw [List.foldl_cons, ih, get_add_fed, List.filter_cons]
        by_cases h : id_of f.2 = some id <;> simp [h]
  rw [candidates, candidate]
  simp only [List.foldl_cons, List.foldl_nil, hpass, hlocal, BTreeMap.get_empty, Option.or_none]

theorem listed_candidates (locals : List Value) (fed : List (Bool × Value)) : (candidates now locals fed).Listed := by
  have hlocal : ∀ c : Candidates, c.Listed → (locals.foldl add_local c).Listed := by
    induction locals with
    | nil => exact fun _ h => h
    | cons doc locals ih => exact fun c h => ih _ (listed_add_local h doc)
  have hpass : ∀ aux_pass (c : Candidates), c.Listed → (fed.foldl (add_fed now aux_pass) c).Listed := by
    intro aux_pass
    induction fed with
    | nil => exact fun _ h => h
    | cons f fed ih => exact fun c h => ih _ (listed_add_fed now aux_pass h f)
  exact hpass true _ (hpass false _ (hlocal _ fun id => by simp))

theorem take_candidates (order : List String) (c : List Value × BTreeMap String Value) :
    (order.foldl take_candidate c).1.length =
        c.1.length + (order.toFinset.filter (fun id => (c.2.get id).isSome = true)).card ∧
      ∀ doc, doc ∈ (order.foldl take_candidate c).1 ↔ doc ∈ c.1 ∨ ∃ id ∈ order, c.2.get id = some doc := by
  induction order generalizing c with
  | nil => simp
  | cons id order ih =>
      rw [List.foldl_cons, take_candidate.eq_def]
      cases hget : c.2.get id with
      | none =>
          obtain ⟨hlen, hmem⟩ := ih c
          have hskip : (insert id order.toFinset).filter (fun id => (c.2.get id).isSome = true) =
              order.toFinset.filter (fun id => (c.2.get id).isSome = true) := by
            rw [Finset.filter_insert, hget, if_neg (by simp)]
          refine ⟨by rw [List.toFinset_cons, hskip, hlen], fun doc => ?_⟩
          rw [hmem, List.exists_mem_cons_iff, hget]
          simp
      | some d =>
          obtain ⟨hlen, hmem⟩ := ih (c.1 ++ [d], c.2.remove id)
          have hset : (insert id order.toFinset).filter (fun id => (c.2.get id).isSome = true) =
              insert id (order.toFinset.filter (fun j => ((c.2.remove id).get j).isSome = true)) := by
            ext j
            simp only [Finset.mem_filter, Finset.mem_insert, BTreeMap.get_remove]
            by_cases hj : j = id
            · simp [hj, hget]
            · simp [hj]
          have hnot : id ∉ order.toFinset.filter (fun j => ((c.2.remove id).get j).isSome = true) := by
            simp [BTreeMap.get_remove]
          refine ⟨?_, fun doc => ?_⟩
          · rw [hlen, List.toFinset_cons, hset, Finset.card_insert_of_notMem hnot, List.length_append, List.length_singleton]
            dsimp only
            omega
          · rw [hmem, List.mem_append, List.mem_singleton, List.exists_mem_cons_iff, hget, or_assoc]
            refine or_congr_right ⟨?_, ?_⟩
            · rintro (rfl | ⟨j, hj, hdoc⟩)
              · exact .inl rfl
              · rw [BTreeMap.get_remove] at hdoc
                split_ifs at hdoc
                exact .inr ⟨j, hj, hdoc⟩
            · rintro (hd | ⟨j, hj, hdoc⟩)
              · exact .inl (Option.some.inj hd).symm
              · by_cases hji : j = id
                · rw [hji, hget] at hdoc
                  exact .inl (Option.some.inj hdoc).symm
                · exact .inr ⟨j, hj, by rw [BTreeMap.get_remove, if_neg hji]; exact hdoc⟩

/-- The ids documents come with. -/
def ids_of (locals : List Value) (fed : List (Bool × Value)) : Finset String :=
  (locals.filterMap id_of ++ fed.filterMap (fun f => id_of f.2)).toFinset

theorem isSome_candidate (locals : List Value) (fed : List (Bool × Value)) (id : String) :
    (candidate now locals fed id).isSome = true ↔ id ∈ ids_of locals fed := by
  have hpass : ∀ aux_pass (fed : List (Bool × Value)) (o : Option Value), (fed.foldl (fetched now aux_pass) o).isSome = true ↔
      o.isSome = true ∨ ∃ f ∈ fed, f.1 = aux_pass := by
    intro aux_pass fed o
    refine foldl_iff (P := fun o => o.isSome = true) (fun o f => ?_) fed o
    rw [fetched]
    by_cases h : f.1 = aux_pass <;> simp [h]
  have hlast : ((locals.filter (fun doc => id_of doc = some id)).getLast?).isSome = true ↔ ∃ doc ∈ locals, id_of doc = some id := by
    rw [List.getLast?_isSome, Ne, List.filter_eq_nil_iff]
    simp only [decide_eq_true_eq, not_forall, not_not, exists_prop]
  rw [candidate, List.foldl_cons, List.foldl_cons, List.foldl_nil, hpass, hpass, hlast, ids_of, List.mem_toFinset, List.mem_append,
    List.mem_filterMap, List.mem_filterMap, or_assoc]
  refine or_congr_right ?_
  simp only [List.mem_filter, decide_eq_true_eq]
  constructor
  · rintro (⟨f, ⟨hf, hid⟩, -⟩ | ⟨f, ⟨hf, hid⟩, -⟩) <;> exact ⟨f, hf, hid⟩
  · rintro ⟨f, hf, hid⟩
    cases h : f.1 with
    | false => exact .inl ⟨f, ⟨hf, hid⟩, h⟩
    | true => exact .inr ⟨f, ⟨hf, hid⟩, h⟩

/-- One document comes out for each id that came in. -/
theorem length_merge_candidates (locals : List Value) (fed : List (Bool × Value)) :
    (merge_candidates now locals fed).length = (ids_of locals fed).card ∧
      ∀ doc, doc ∈ merge_candidates now locals fed ↔ ∃ id, candidate now locals fed id = some doc := by
  have hlisted := listed_candidates now locals fed
  obtain ⟨hlen, hmem⟩ := take_candidates (candidates now locals fed).order ([], (candidates now locals fed).by_id)
  refine ⟨hlen.trans ?_, fun doc => (hmem doc).trans ?_⟩
  · rw [List.length_nil, Nat.zero_add]
    congr 1
    ext id
    rw [Finset.mem_filter, List.mem_toFinset, hlisted id, and_self, get_candidates, isSome_candidate]
  · simp only [List.not_mem_nil, false_or, get_candidates]
    constructor
    · rintro ⟨id, -, h⟩
      exact ⟨id, h⟩
    · rintro ⟨id, h⟩
      refine ⟨id, (hlisted id).mpr ?_, h⟩
      rw [get_candidates, h]
      rfl

/-- The documents of one entity are merged as a retrieve merges them. -/
theorem candidate_eq {locals : List Value} {fed : List (Bool × Value)} {id : String} {l : Option Version}
    {vs : List (Bool × Version)} (hl : locals.filter (fun doc => id_of doc = some id) = (l.map Version.doc).toList)
    (hf : fed.filter (fun f => id_of f.2 = some id) = docs vs) :
    candidate now locals fed id = (arranged l (remotes vs) (auxiliaries vs)).map (merge_arranged now) := by
  have hpass : ∀ aux_pass (o : Option Value), (docs vs).foldl (fetched now aux_pass) o =
      ((vs.filter (fun f => f.1 = aux_pass)).map Prod.snd).foldl
        (fun o v => some (o.elim v.doc (fun base => merge_docs now base v.doc aux_pass))) o := by
    intro aux_pass o
    rw [← foldl_pass (fun o d => some (o.elim d (fun base => merge_docs now base d aux_pass)))]
    congr 1
    funext o f
    rw [fetched]
    split_ifs with h
    · rw [h]
    · rfl
  have hsome : ∀ (aux : Bool) (vs : List Version) (base : Value),
      vs.foldl (fun o v => some (o.elim v.doc (fun base => merge_docs now base v.doc aux))) (some base) =
        some (vs.foldl (fun d v => merge_docs now d v.doc aux) base) := by
    intro aux vs
    induction vs with
    | nil => exact fun _ => rfl
    | cons v vs ih => exact fun base => ih _
  have hremotes : (vs.filter (fun f => f.1 = false)).map Prod.snd = remotes vs := by
    rw [remotes]
    congr 2
    funext f
    cases f.1 <;> rfl
  have haux : (vs.filter (fun f => f.1 = true)).map Prod.snd = auxiliaries vs := by
    rw [auxiliaries]
    congr 2
    funext f
    cases f.1 <;> rfl
  rw [candidate, hl, hf, List.foldl_cons, List.foldl_cons, List.foldl_nil, hpass, hpass, hremotes, haux]
  cases l with
  | some l =>
      have hlast : ((Option.map Version.doc (some l)).toList).getLast? = some l.doc := rfl
      rw [hlast, hsome, hsome]
      rfl
  | none =>
      have hlast : ((Option.map Version.doc none).toList).getLast? = none := rfl
      rw [hlast]
      cases remotes vs with
      | cons r rs =>
          rw [List.foldl_cons, Option.elim_none, hsome, hsome]
          rfl
      | nil =>
          cases auxiliaries vs with
          | nil => rfl
          | cons a aux =>
              rw [List.foldl_nil, List.foldl_cons, Option.elim_none, hsome]
              rfl

end Sources

section Orders

variable {now : String} {l : Option Version} {rs rs' aux : List Version} {p q : Version × List Version × List Version}

theorem arranged_perm (h : rs.Perm rs') (hp : arranged l rs aux = some p) (hq : arranged l rs' aux = some q) :
    (p.1 :: p.2.1).Perm (q.1 :: q.2.1) := by
  cases l with
  | some l =>
      obtain rfl := Option.some.inj hp
      obtain rfl := Option.some.inj hq
      exact h.cons l
  | none =>
      cases rs with
      | nil =>
          rw [h.symm.eq_nil, hp, Option.some.injEq] at hq
          rw [hq]
      | cons r rest =>
          cases rs' with
          | nil => exact absurd h.eq_nil (List.cons_ne_nil _ _)
          | cons r' rest' =>
              obtain rfl := Option.some.inj hp
              obtain rfl := Option.some.inj hq
              exact h

/-- The versions merged into the first one in another order. -/
theorem arranged_reorder (hp : arranged l rs aux = some p) {rest : List Version} (hrest : rest.Perm p.2.1) :
    ∃ rs', rs'.Perm rs ∧ arranged l rs' aux = some (p.1, rest, p.2.2) := by
  cases l with
  | some l =>
      obtain rfl := Option.some.inj hp
      exact ⟨rest, hrest, rfl⟩
  | none =>
      cases rs with
      | nil =>
          cases aux with
          | nil => cases hp
          | cons a aux =>
              obtain rfl := Option.some.inj hp
              obtain rfl := hrest.eq_nil
              exact ⟨[], List.Perm.refl _, rfl⟩
      | cons r rs =>
          obtain rfl := Option.some.inj hp
          exact ⟨r :: rest, hrest.cons r, rfl⟩

theorem arranged_distinct (h : Distinct (l.toList ++ rs)) (hperm : rs'.Perm rs) (hp : arranged l rs' aux = some p) :
    Distinct (p.1 :: p.2.1) := by
  have h' : Distinct (l.toList ++ rs') := h.perm (hperm.symm.append_left _)
  cases l with
  | some l =>
      obtain rfl := Option.some.inj hp
      exact h'
  | none =>
      cases rs' with
      | nil =>
          cases aux with
          | nil => cases hp
          | cons a aux =>
              obtain rfl := Option.some.inj hp
              exact List.pairwise_singleton _ _
      | cons r rest =>
          obtain rfl := Option.some.inj hp
          exact h'

theorem Lifetime.same {vs ws : List Version} (h : vs.Perm ws) {o o' : Option String} (ho : Lifetime vs o) (ho' : Lifetime ws o') :
    o.map dt_key = o'.map dt_key := by
  cases o with
  | none =>
      obtain ⟨v, hv, hnone⟩ := ho
      cases o' with
      | none => rfl
      | some e =>
          obtain ⟨e', he', -⟩ := ho'.2 v (h.mem_iff.mp hv)
          rw [hnone] at he'
          cases he'
  | some e =>
      obtain ⟨⟨v, hv, hve⟩, hall⟩ := ho
      cases o' with
      | none =>
          obtain ⟨w, hw, hnone⟩ := ho'
          obtain ⟨e', he', -⟩ := hall w (h.mem_iff.mpr hw)
          rw [hnone] at he'
          cases he'
      | some e' =>
          obtain ⟨⟨w, hw, hwe⟩, hall'⟩ := ho'
          obtain ⟨a, ha, hle⟩ := hall w (h.mem_iff.mpr hw)
          obtain ⟨a', ha', hle'⟩ := hall' v (h.mem_iff.mp hv)
          rw [hwe, Option.some.injEq] at ha
          rw [hve, Option.some.injEq] at ha'
          subst ha ha'
          exact congrArg some (le_antisymm hle' hle)

/-- Instances of one attribute and dataset with one recency are the same. -/
theorem Distinct.eq_of_recency {vs : List Version} (h : Distinct vs) {k : String} (hk : k ∉ META) {ds : Option String} :
    ∀ a ∈ supplied vs k ds, ∀ b ∈ supplied vs k ds, recency a = recency b → a = b := by
  induction vs with
  | nil => exact fun a ha => by cases ha
  | cons v vs ih =>
      obtain ⟨hv, hvs⟩ := List.pairwise_cons.mp h
      have hcross : ∀ a b, v.cell k ds = some a → b ∈ supplied vs k ds → recency a ≠ recency b := by
        intro a b ha hb
        obtain ⟨w, hw, hcell⟩ := mem_supplied.mp hb
        exact hv w hw k hk ds a b ha hcell
      intro a ha b hb hab
      rw [supplied_cons, List.mem_append, Option.mem_toList] at ha hb
      rcases ha with ha | ha
      · rcases hb with hb | hb
        · exact Option.some.inj (ha.symm.trans hb)
        · exact absurd hab (hcross a b ha hb)
      · rcases hb with hb | hb
        · exact absurd hab.symm (hcross b a hb ha)
        · exact ih hvs a ha b hb hab

/-- Settled in two orders, versions come out the same. -/
theorem merged_cells_agree {fixed fixed' : Prop} {b b' : Version} (hperm : (b :: rs).Perm (b' :: rs'))
    (hdistinct : Distinct (b :: rs)) (h : Settled fixed now b rs) (h' : Settled fixed' now b' rs') (hsame : fixed → b = b')
    (hsame' : fixed' → b = b') {k : String} (hk : k ∉ META) (ds : Option String) :
    merged_cell now b rs k ds = merged_cell now b' rs' k ds := by
  obtain ⟨o, hbest, hcell⟩ := h.best hk ds
  obtain ⟨o', hbest', hcell'⟩ := h'.best hk ds
  have hcongr : Latest.Best (expired now) recency (supplied (b :: rs) k ds) o' :=
    hbest'.congr fun a _ => (supplied_perm hperm k ds).symm.mem_iff
  obtain rfl := hbest.unique (hdistinct.eq_of_recency hk) hcongr
  have hown : ∀ {b rs i}, Distinct (b :: rs) → b.raw k ds = some i → merged_cell now b rs k ds = some (b.capped i) →
      b.capped i = i := by
    intro b rs i hdistinct hi hm
    rcases merged_cell_origin hk hm with hraw | hmem
    · exact Option.some.inj (hraw.symm.trans hi)
    · exact absurd (b.recency_capped i).symm (recency_first hdistinct hk hi hmem)
  rcases hcell with hcell | ⟨hfixed, i, hi, hcell, rfl⟩
  · rcases hcell' with hcell' | ⟨hfixed', i', hi', hcell', ho⟩
    · rw [hcell, hcell']
    · obtain rfl := hsame' hfixed'
      rw [hcell, hcell', ho]
      exact congrArg some (hown hdistinct hi' (hcell.trans ho))
  · obtain rfl := hsame hfixed
    rcases hcell' with hcell' | ⟨-, i', hi', hcell', -⟩
    · rw [hcell, hcell']
      exact congrArg some (hown (hdistinct.perm hperm) hi hcell').symm
    · rw [hcell, hcell', ← hi, ← hi']

/-- The first version is the same in every order. -/
def Alone (l : Option Version) (p : Version × List Version × List Version) : Prop := l.isSome = true ∨ p.2.1 = []

theorem first_alone (h : rs.Perm rs') (hp : arranged l rs aux = some p) (hq : arranged l rs' aux = some q) (halone : Alone l p) :
    p.1 = q.1 := by
  cases l with
  | some l =>
      obtain rfl := Option.some.inj hp
      obtain rfl := Option.some.inj hq
      rfl
  | none =>
      have hnil := halone.resolve_left Bool.false_ne_true
      have hperm := arranged_perm h hp hq
      rw [hnil] at hperm
      have hq' := List.perm_singleton.mp hperm.symm
      exact (List.cons.inj hq').1.symm

/-- An instance that stays in every order of the versions is as push-down leaves it. -/
theorem capped_of_agree (hdistinct : Distinct (p.1 :: p.2.1)) (hp : arranged l rs aux = some p) (halone : ¬ Alone l p)
    (hagree : ∀ rs', rs'.Perm rs → ∀ q, arranged l rs' aux = some q → ∀ k, k ∉ META →
      (∃ v ∈ p.1 :: p.2.1, (v.attr k).isSome = true) → ∀ ds,
      (instances (merge_arranged now p) k).find? (fun i => dataset_id i = ds) =
        (instances (merge_arranged now q) k).find? (fun i => dataset_id i = ds)) {k : String} (hk : k ∉ META)
    {ds : Option String} {i : Value} (hi : p.1.raw k ds = some i) (hcell : merged_cell now p.1 p.2.1 k ds = some i) :
    p.1.capped i = i := by
  obtain ⟨b, rest, aux'⟩ := p
  rw [Alone, not_or] at halone
  cases l with
  | some l => exact absurd rfl halone.1
  | none =>
      cases rs with
      | nil =>
          cases aux with
          | nil => cases hp
          | cons a aux =>
              obtain ⟨⟩ := Option.some.inj hp
              exact absurd rfl halone.2
      | cons r rs =>
          obtain ⟨⟩ := Option.some.inj hp
          cases rest with
          | nil => exact absurd rfl halone.2
          | cons w rest =>
              have hsome : ∃ v ∈ b :: w :: rest, (v.attr k).isSome = true := by
                refine ⟨b, List.mem_cons_self, ?_⟩
                cases hb : b.attr k with
                | none =>
                    rw [raw_none hb] at hi
                    cases hi
                | some items => rfl
              have hsome' : ∃ v ∈ w :: b :: rest, (v.attr k).isSome = true := by
                obtain ⟨v, hv, hattr⟩ := hsome
                exact ⟨v, (List.Perm.swap w b rest).mem_iff.mp hv, hattr⟩
              have h := hagree (w :: b :: rest) (List.Perm.swap b w rest) (w, b :: rest, aux) rfl k hk hsome ds
              rw [merge_arranged, merge_arranged, find_merged hk hsome, find_merged hk hsome', hcell] at h
              rcases merged_cell_origin hk h.symm with hraw | hmem
              · have hmem : w.capped i ∈ supplied (w :: rest) k ds := by
                  refine mem_supplied.mpr ⟨w, List.mem_cons_self, ?_⟩
                  rw [w.cell_eq, hraw, Option.map_some]
                exact absurd (w.recency_capped i).symm (recency_first hdistinct hk hi hmem)
              · rw [supplied_first, hi, List.mem_append] at hmem
                rcases hmem with hmem | hmem
                · exact (List.mem_singleton.mp hmem).symm
                · have hmem' : i ∈ supplied (w :: rest) k ds := by
                    rw [supplied_cons]
                    exact List.mem_append_right _ hmem
                  exact absurd rfl (recency_first hdistinct hk hi hmem')

/-- Versions of one entity come out right, and the same, in every order of the ones that
are not auxiliary just when they are settled in every order and the auxiliary ones fit. In
any case the order does not change when the entity expires, auxiliary versions change
nothing that is there, and one entity comes out for each id. -/
theorem merge_order (now : String) (l : Option Version) (rs aux : List Version) (hdistinct : Distinct (l.toList ++ rs)) :
    (((∀ rs', rs'.Perm rs → ∀ p, arranged l rs' aux = some p →
            Merged now (p.1 :: p.2.1) p.2.2 (merge_arranged now p)) ∧
          ∀ rs₁ rs₂, rs₁.Perm rs → rs₂.Perm rs → ∀ p q, arranged l rs₁ aux = some p → arranged l rs₂ aux = some q →
            ∀ k, k ∉ META → (∃ v ∈ p.1 :: p.2.1, (v.attr k).isSome = true) → ∀ ds,
              (instances (merge_arranged now p) k).find? (fun i => dataset_id i = ds) =
                (instances (merge_arranged now q) k).find? (fun i => dataset_id i = ds)) ↔
        ∀ rs', rs'.Perm rs → ∀ p, arranged l rs' aux = some p →
          Settled (Alone l p) now p.1 p.2.1 ∧ AuxFits now (p.1 :: p.2.1) p.2.2) ∧
      (∀ rs₁ rs₂, rs₁.Perm rs → rs₂.Perm rs → ∀ p q, arranged l rs₁ aux = some p → arranged l rs₂ aux = some q →
        (((merge_arranged now p).get "expiresAt").bind Value.as_str).map dt_key =
          (((merge_arranged now q).get "expiresAt").bind Value.as_str).map dt_key) ∧
      (∀ rs', rs'.Perm rs → ∀ p, arranged l rs' aux = some p → ∀ aux₁ aux₂, aux₁ ++ aux₂ = p.2.2 → ∀ k v,
        (merge_versions now p.1 p.2.1 aux₁).get k = some v → (merge_arranged now p).get k = some v) ∧
      (∀ fed, (remotes fed).Perm rs → auxiliaries fed = aux →
        merge_retrieved now (l.map Version.doc) (docs fed) = (arranged l (remotes fed) aux).map (merge_arranged now) ∧
          ∀ locals fetched id, locals.filter (fun doc => id_of doc = some id) = (l.map Version.doc).toList →
            fetched.filter (fun f => id_of f.2 = some id) = docs fed →
            candidate now locals fetched id = (arranged l (remotes fed) aux).map (merge_arranged now)) ∧
      ∀ locals fed, (merge_candidates now locals fed).length = (ids_of locals fed).card ∧
        ∀ doc, doc ∈ merge_candidates now locals fed ↔ ∃ id, candidate now locals fed id = some doc := by
  refine ⟨⟨fun ⟨hmerged, hagree⟩ rs' hperm p hp => ?_, fun h => ⟨fun rs' hperm p hp => ?_, ?_⟩⟩, ?_, ?_,
    fun fed hremotes haux => ⟨?_, fun locals fetched id hl hf => ?_⟩, fun locals fed => length_merge_candidates now locals fed⟩
  · have hdistinct' := arranged_distinct hdistinct hperm hp
    have hall : ∀ rest, rest.Perm p.2.1 → Merged now (p.1 :: rest) p.2.2 (merge_versions now p.1 rest p.2.2) := by
      intro rest hrest
      obtain ⟨rs'', hperm', hp'⟩ := arranged_reorder hp hrest
      exact hmerged rs'' (hperm'.trans hperm) _ hp'
    refine ⟨settled_of_merged hdistinct' hall ?_, auxFits_of_merged (hmerged rs' hperm p hp)⟩
    refine or_iff_not_imp_left.mpr fun halone k hk ds i hi hcell => ?_
    exact capped_of_agree hdistinct' hp halone
      (fun rs'' h'' q hq k hk => hagree rs' rs'' hperm (h''.trans hperm) p q hp hq k hk) hk hi hcell
  · obtain ⟨hsettled, hfits⟩ := h rs' hperm p hp
    exact merged_of_settled hsettled hfits
  · intro rs₁ rs₂ h₁ h₂ p q hp hq k hk hsome ds
    have hperm := arranged_perm (h₁.trans h₂.symm) hp hq
    have hsome' : ∃ v ∈ q.1 :: q.2.1, (v.attr k).isSome = true := by
      obtain ⟨v, hv, hattr⟩ := hsome
      exact ⟨v, hperm.mem_iff.mp hv, hattr⟩
    rw [merge_arranged, merge_arranged, find_merged hk hsome, find_merged hk hsome']
    exact merged_cells_agree hperm (arranged_distinct hdistinct h₁ hp) (h rs₁ h₁ p hp).1 (h rs₂ h₂ q hq).1
      (first_alone (h₁.trans h₂.symm) hp hq) (fun halone => (first_alone (h₂.trans h₁.symm) hq hp halone).symm) hk ds
  · intro rs₁ rs₂ h₁ h₂ p q hp hq
    exact Lifetime.same (arranged_perm (h₁.trans h₂.symm) hp hq) lifetime_versions lifetime_versions
  · intro rs' hperm p hp aux₁ aux₂ haux k v hv
    rw [merge_arranged, ← haux, merge_versions, List.foldl_append]
    exact foldl_aux_keeps now aux₂ hv
  · rw [merge_retrieved_eq, haux]
  · rw [candidate_eq now hl hf, haux]

end Orders

theorem attributes_of {members : Map} (h : ∀ p ∈ members, p.1 ∉ META →
    p.2.as_array.any (fun items => decide (items.map dataset_id).Nodup) = true) (k : String) (v : Value)
    (hv : members.lookup k = some v) (hk : k ∉ META) : ∃ items, v = .array items ∧ (items.map dataset_id).Nodup := by
  have hone := h (k, v) (SortedMap.mem_of_lookup hv) hk
  cases v with
  | array items => exact ⟨items, rfl, of_decide_eq_true hone⟩
  | null | bool _ | number _ | string _ | object _ => cases hone

theorem stamps_of {members : Map} (h : ∀ p ∈ members, p.1 ∈ ["expiresAt", "createdAt", "modifiedAt", "deletedAt"] →
    p.2.is_string = true) (k : String) (hk : k ∈ ["expiresAt", "createdAt", "modifiedAt", "deletedAt"]) (v : Value)
    (hv : members.lookup k = some v) : ∃ t, v = .string t := by
  have hone := h (k, v) (SortedMap.mem_of_lookup hv) hk
  cases v with
  | string t => exact ⟨t, rfl⟩
  | null | bool _ | number _ | array _ | object _ => cases hone

/-- A version with one instance of a speed. -/
def clocked (inst : Map) : Version where
  members := [("id", .string "urn:v"), ("urn:speed", .array [.object inst])]
  sorted := List.pairwise_pair.mpr (show "id" < "urn:speed" by decide)
  attributes := attributes_of (by
    simp only [List.forall_mem_cons]
    refine ⟨fun h => absurd (by decide) h, fun _ => ?_, nofun⟩
    exact decide_eq_true (List.nodup_singleton (dataset_id (.object inst))))
  stamps := stamps_of (by
    simp only [List.forall_mem_cons]
    exact ⟨fun h => absurd h (by decide), fun h => absurd h (by decide), nofun⟩)

def parked : Version where
  members := [("id", .string "urn:v")]
  sorted := List.pairwise_singleton _ _
  attributes := attributes_of (by decide)
  stamps := stamps_of (by decide)

def slow : Version := clocked [("observedAt", .string "2024-01-01T00:00:00Z"), ("value", .string "30")]

def fast : Version := clocked [("observedAt", .string "2024-01-02T00:00:00Z"), ("value", .string "90")]

theorem recency_clocked {inst : Map} {k : String} {ds : Option String} {i : Value} (h : (clocked inst).cell k ds = some i) :
    recency i = recency (.object inst) := by
  rw [Version.cell_eq] at h
  obtain ⟨j, hj, rfl⟩ := Option.map_eq_some_iff.mp h
  obtain ⟨items, hitems, hfind⟩ := Option.bind_eq_some_iff.mp hj
  rw [Version.recency_capped]
  have hattr : (clocked inst).attr k = if k = "id" then none else if k = "urn:speed" then some [.object inst] else none := by
    rw [Version.attr, clocked, SortedMap.lookup_cons, SortedMap.lookup_cons]
    split_ifs <;> rfl
  rw [hattr] at hitems
  split_ifs at hitems
  obtain rfl := Option.some.inj hitems
  rw [List.mem_singleton.mp (List.mem_of_find?_eq_some hfind)]

theorem merge_order_speeds :
    merge_retrieved "2024-02-01T00:00:00Z" (some slow.doc) (docs [(false, fast)]) =
      some (merge_versions "2024-02-01T00:00:00Z" slow [fast] []) := by
  have hdistinct : Distinct ((some slow).toList ++ [fast]) := by
    refine List.pairwise_pair.mpr fun k _ ds i j hi hj => ?_
    rw [recency_clocked hi, recency_clocked hj]
    decide
  exact ((merge_order "2024-02-01T00:00:00Z" (some slow) [fast] [] hdistinct).2.2.2.1 [(false, fast)] (List.Perm.refl _) rfl).1

def lapsed : Version := clocked [("datasetId", .string "urn:gps"), ("expiresAt", .string "2020-01-01T00:00:00Z")]

/-- An expired instance comes in when its version comes first, and does not when it comes later. -/
theorem merge_order_takes_expired :
    instances (merge_versions "2024-02-01T00:00:00Z" parked [lapsed, fast] []) "urn:speed" =
        [.object [("datasetId", .string "urn:gps"), ("expiresAt", .string "2020-01-01T00:00:00Z")],
          .object [("observedAt", .string "2024-01-02T00:00:00Z"), ("value", .string "90")]] ∧
      instances (merge_versions "2024-02-01T00:00:00Z" parked [fast, lapsed] []) "urn:speed" =
        [.object [("observedAt", .string "2024-01-02T00:00:00Z"), ("value", .string "90")]] ∧
      expired "2024-02-01T00:00:00Z"
        (.object [("datasetId", .string "urn:gps"), ("expiresAt", .string "2020-01-01T00:00:00Z")]) = true := by
  decide

end AntaresBroker.Merge
