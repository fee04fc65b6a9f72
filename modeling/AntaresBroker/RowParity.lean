import AntaresBroker.RowForm

namespace AntaresBroker.RowStore

open Json Expiry Evolution

section Effects

variable {Time : Type} {cast : Cast Time} {m n : Map}

/-- What a change makes of the instances of each attribute. -/
structure Effect (cast : Cast Time) (f : Map → Map × Bool) (u : String → List Value → List Value) : Prop where
  sorted : ∀ n, Solid cast n → SortedMap.Sorted (f n).1
  arrays : ∀ n, Solid cast n → ∀ k ∉ DOC_META,
    (f n).1.lookup k = if u k (instances n k) = [] then none else some (.array (u k (instances n k)))
  alike : ∀ n m, Solid cast n → Solid cast m → Alike n m →
    (f n).2 = (f m).2 ∧ ∀ k ∈ DOC_META, (f n).1.lookup k = (f m).1.lookup k

/-- The change comes out the same on a document and one alike. -/
structure Kept (cast : Cast Time) (f : Map → Map × Bool) (m n : Map) : Prop where
  found : (f n).2 = (f m).2
  solid : Solid cast (f n).1
  alike : Alike (f n).1 (f m).1

theorem instances_of_lookup {l : List Value} {k : String} (h : m.lookup k = if l = [] then none else some (.array l)) :
    instances m k = l := by
  rw [instances, h]
  split_ifs with hl
  · exact hl.symm
  · rfl

theorem Effect.kept {f : Map → Map × Bool} {u : String → List Value → List Value} (hf : Effect cast f u)
    (hn : Solid cast n) (hm : Solid cast m) (ha : Alike n m)
    (hu : ∀ k ∉ DOC_META, ∀ l, l.Perm (instances m k) → Lawful cast l →
      Lawful cast (u k l) ∧ (u k l).Perm (u k (instances m k))) : Kept cast f m n := by
  obtain ⟨hfound, hmeta⟩ := hf.alike n m hn hm ha
  have hafter : ∀ k (hk : k ∉ DOC_META), Lawful cast (u k (instances n k)) ∧
      (u k (instances n k)).Perm (u k (instances m k)) := fun k hk => hu k hk _ (ha.instances k hk) (hn.lawful hk)
  refine ⟨hfound, ⟨hf.sorted n hn, fun k hk v hv => ?_⟩, hmeta, fun k hk => ?_⟩
  · rw [hf.arrays n hn k hk] at hv
    split_ifs at hv with hnil
    exact ⟨_, (Option.some.inj hv).symm, hnil, (hafter k hk).1⟩
  · rw [instances_of_lookup (hf.arrays n hn k hk), instances_of_lookup (hf.arrays m hm k hk)]
    exact (hafter k hk).2

theorem lookup_touch (ts : String) (m : Map) (k : String) :
    (touch ts m).lookup k = if k = "modifiedAt" then some (.string ts) else m.lookup k := SortedMap.lookup_insert ..

theorem sorted_touch (ts : String) (hm : SortedMap.Sorted m) : SortedMap.Sorted (touch ts m) := SortedMap.sorted_insert _ _ hm

theorem lookup_touch_attr (ts : String) (m : Map) {k : String} (hk : k ∉ DOC_META) : (touch ts m).lookup k = m.lookup k := by
  rw [lookup_touch, if_neg]
  rintro rfl
  exact hk (by decide)

theorem is_meta_eq {k : String} : Temporal.is_meta k = true ↔ k ≠ "@context" ∧ k ∈ DOC_META := by
  unfold Temporal.is_meta DOC_META
  rw [Bool.and_eq_true, bne_iff_ne, List.contains_iff_mem]

theorem is_meta_attr {k : String} (hk : k ∉ DOC_META) : Temporal.is_meta k = false := by
  rw [Bool.eq_false_iff]
  exact fun h => hk (is_meta_eq.mp h).2

end Effects

section Retaining

variable {Time : Type} {cast : Cast Time} {m n : Map} (attr : AttrName) (keep : Value → Bool) (ts : String)

theorem Lawful.sublist {l l' : List Value} (h : Lawful cast l) (hs : l'.Sublist l) : Lawful cast l' :=
  ⟨fun v hv => h.named v (hs.subset hv), fun v hv => h.castable v (hs.subset hv), h.distinct.sublist (hs.map _)⟩

theorem retain_cases (hn : Solid cast n) :
    (retain attr.1 keep ts n).2 = ((instances n attr.1).any (fun i => !keep i)) ∧
      SortedMap.Sorted (retain attr.1 keep ts n).1 ∧
      (∀ k ∉ DOC_META, (retain attr.1 keep ts n).1.lookup k =
        if k = attr.1 then
          if (instances n k).filter keep = [] then none else some (.array ((instances n k).filter keep))
        else n.lookup k) ∧
      ∀ k ∈ DOC_META, (retain attr.1 keep ts n).1.lookup k =
        if (instances n attr.1).any (fun i => !keep i) = true ∧ k = "modifiedAt" then some (.string ts) else n.lookup k := by
  have hne : ∀ k ∈ DOC_META, k ≠ attr.1 := fun k hk h => attr.2 (h ▸ hk)
  cases hl : n.lookup attr.1 with
  | none =>
      have hnil : instances n attr.1 = [] := by rw [instances, hl]; rfl
      simp only [retain, hl, hnil]
      refine ⟨rfl, hn.sorted, fun k _ => ?_, fun k _ => rfl⟩
      split_ifs with hk hfilter
      · rw [hk, hl]
      · rw [hk, hnil] at hfilter
        exact absurd rfl hfilter
      · rfl
  | some v =>
      obtain ⟨arr, rfl, hne', -⟩ := hn.arrays attr.1 attr.2 v hl
      have harr : instances n attr.1 = arr := by rw [instances, hl]; rfl
      have hlen : (arr.filter keep).length ≠ arr.length ↔ arr.any (fun i => !keep i) = true := by
        rw [Ne, List.length_filter_eq_length_iff, List.any_eq_true]
        push Not
        simp
      have hset : ∀ k, (if arr.filter keep = [] then SortedMap.erase attr.1 n
          else SortedMap.insert attr.1 (.array (arr.filter keep)) n).lookup k =
            if k = attr.1 then if arr.filter keep = [] then none else some (.array (arr.filter keep)) else n.lookup k := by
        intro k
        split_ifs with hnil hk hk
        · rw [SortedMap.lookup_erase, if_pos hk]
        · rw [SortedMap.lookup_erase, if_neg hk]
        · rw [SortedMap.lookup_insert, if_pos hk]
        · rw [SortedMap.lookup_insert, if_neg hk]
      have hsorted : SortedMap.Sorted (if arr.filter keep = [] then SortedMap.erase attr.1 n
          else SortedMap.insert attr.1 (.array (arr.filter keep)) n) := by
        split_ifs
        · exact SortedMap.sorted_erase _ hn.sorted
        · exact SortedMap.sorted_insert _ _ hn.sorted
      have hinst : ∀ k, k = attr.1 → instances n k = arr := by
        rintro k rfl
        exact harr
      simp only [retain, hl, harr]
      by_cases hfound : (arr.filter keep).length ≠ arr.length
      · rw [if_pos hfound]
        refine ⟨(hlen.mp hfound).symm, sorted_touch _ hsorted, fun k hk => ?_, fun k hk => ?_⟩
        · rw [lookup_touch_attr _ _ hk, hset]
          by_cases hattr : k = attr.1
          · rw [if_pos hattr, if_pos hattr, hinst k hattr]
          · rw [if_neg hattr, if_neg hattr]
        · rw [lookup_touch, hset, if_neg (hne k hk)]
          simp only [hlen.mp hfound, true_and]
      · rw [if_neg hfound]
        refine ⟨(Bool.eq_false_iff.mpr fun h => hfound (hlen.mpr h)).symm, hsorted, fun k _ => ?_, fun k hk => ?_⟩
        · rw [hset]
          by_cases hattr : k = attr.1
          · rw [if_pos hattr, if_pos hattr, hinst k hattr]
          · rw [if_neg hattr, if_neg hattr]
        · rw [hset, if_neg (hne k hk), if_neg]
          exact fun h => hfound (hlen.mpr h.1)

theorem retain_effect :
    Effect cast (retain attr.1 keep ts) (fun k l => if k = attr.1 then l.filter keep else l) := by
  refine ⟨fun n hn => (retain_cases attr keep ts hn).2.1, fun n hn k hk => ?_, fun n m hn hm ha => ?_⟩
  · rw [(retain_cases attr keep ts hn).2.2.1 k hk]
    by_cases hattr : k = attr.1
    · rw [if_pos hattr, if_pos hattr]
    · rw [if_neg hattr, if_neg hattr, hn.lookup hk]
  · obtain ⟨hfound, -, -, hmeta⟩ := retain_cases attr keep ts hn
    obtain ⟨hfound', -, -, hmeta'⟩ := retain_cases attr keep ts hm
    have hsame : (instances n attr.1).any (fun i => !keep i) = (instances m attr.1).any (fun i => !keep i) :=
      (ha.instances _ attr.2).any_eq
    refine ⟨by rw [hfound, hfound', hsame], fun k hk => ?_⟩
    rw [hmeta k hk, hmeta' k hk, hsame, ha.meta_members k hk]

theorem retain_kept (hn : Solid cast n) (hm : Solid cast m) (ha : Alike n m) : Kept cast (retain attr.1 keep ts) m n := by
  refine (retain_effect attr keep ts).kept hn hm ha fun k hk l hp hl => ?_
  split_ifs
  · exact ⟨hl.sublist List.filter_sublist, hp.filter _⟩
  · exact ⟨hl, hp⟩

end Retaining

section Deletions

variable {Time : Type} {cast : Cast Time} {m n : Map} (attr : AttrName) (ts : String)

/-- To drop an attribute is to keep none of its instances. -/
theorem delete_attr_eq (hn : Solid cast n) (delete_all : Bool) (want_ds : Option String) :
    delete_attr attr.1 delete_all want_ds ts n = retain attr.1
      (if delete_all || (want_ds.isNone && !((instances n attr.1).any (fun i => (i.get "datasetId").isSome)))
        then fun _ => false else fun i => text i "datasetId" ≠ want_ds) ts n := by
  have hdatasets : ((n.lookup attr.1).bind Value.as_array).any (fun a => a.any (fun i => (i.get "datasetId").isSome)) =
      (instances n attr.1).any (fun i => (i.get "datasetId").isSome) := by
    unfold instances
    cases (n.lookup attr.1).bind Value.as_array <;> rfl
  unfold delete_attr
  rw [hdatasets]
  dsimp only
  split_ifs with hall hthere
  · obtain ⟨v, hv⟩ := Option.isSome_iff_exists.mp hthere
    obtain ⟨arr, rfl, hne, -⟩ := hn.arrays attr.1 attr.2 v hv
    have hnone : arr.filter (fun _ => false) = [] := List.filter_false arr
    have hlen : ([] : List Value).length ≠ arr.length := fun h => hne (List.length_eq_zero_iff.mp h.symm)
    simp only [retain, hv, hnone, if_true, if_pos hlen]
  · rw [Bool.not_eq_true, Option.isSome_eq_false_iff, Option.isNone_iff_eq_none] at hthere
    simp only [retain, hthere]
  · rfl

theorem delete_attr_kept (hn : Solid cast n) (hm : Solid cast m) (ha : Alike n m) (delete_all : Bool)
    (want_ds : Option String) : Kept cast (delete_attr attr.1 delete_all want_ds ts) m n := by
  have hsame : (instances n attr.1).any (fun i => (i.get "datasetId").isSome) =
      (instances m attr.1).any (fun i => (i.get "datasetId").isSome) := (ha.instances _ attr.2).any_eq
  have hn' := delete_attr_eq attr ts hn delete_all want_ds
  rw [hsame] at hn'
  have hkept := retain_kept attr (if delete_all ||
    (want_ds.isNone && !((instances m attr.1).any (fun i => (i.get "datasetId").isSome)))
      then fun _ => false else fun i => text i "datasetId" ≠ want_ds) ts hn hm ha
  exact ⟨by rw [hn', delete_attr_eq attr ts hm]; exact hkept.found, by rw [hn']; exact hkept.solid,
    by rw [hn', delete_attr_eq attr ts hm]; exact hkept.alike⟩

end Deletions

section Modification

variable {Time : Type} {cast : Cast Time} {m n : Map} {frag : Map} {ts : String}

def Readable (cast : Cast Time) (s : String) : Prop := (cast.timestamptz (canonical_datetime s)).isSome = true

theorem replace_first_eq_map (f : Value → Value) (instance_id : String) {l : List Value}
    (hd : (l.map (fun v => text v "instanceId")).Nodup) :
    replace_first instance_id f l = l.map (fun i => if text i "instanceId" = some instance_id then f i else i) := by
  induction l with
  | nil => rfl
  | cons i l ih =>
      rw [List.map_cons, List.nodup_cons] at hd
      rw [replace_first, List.map_cons]
      split_ifs with hi
      · congr 1
        refine ((List.map_congr_left fun j hj => ?_).trans (List.map_id l)).symm
        refine if_neg fun hj' => hd.1 (List.mem_map.mpr ⟨j, hj, hj'.trans hi.symm⟩)
      · rw [ih hd.2]

theorem lookup_replaced (t : Map) : ∃ o : Map, replaced frag ts (.object t) = .object o ∧
    ∀ k, o.lookup k = (if k = "modifiedAt" then some (.string ts) else o.lookup k) ∧
      ((k = "createdAt" ∨ k = "instanceId") → o.lookup k = t.lookup k) ∧
      (k ≠ "modifiedAt" → k ≠ "createdAt" → k ≠ "instanceId" → ∀ v, o.lookup k = some v → (k, v) ∈ frag) := by
  have hkept : ∀ k, (["createdAt", "instanceId"].foldl
      (fun o k => (t.lookup k).elim o (fun v => SortedMap.insert k v o)) ([] : Map)).lookup k =
        if k = "createdAt" ∨ k = "instanceId" then t.lookup k else none := by
    intro k
    have hstep : ∀ (x : Option Value) (o : Map) (j : String), (x.elim o (fun v => SortedMap.insert j v o)).lookup k =
        if k = j then x.or (o.lookup k) else o.lookup k := by
      intro x o j
      cases x with
      | none => rw [Option.elim_none, Option.none_or, ite_self]
      | some v => rw [Option.elim_some, SortedMap.lookup_insert, Option.some_or]
    rw [List.foldl_cons, List.foldl_cons, List.foldl_nil, hstep, hstep, List.lookup_nil]
    by_cases hi : k = "instanceId"
    · have hor : k = "createdAt" ∨ k = "instanceId" := .inr hi
      have hc : k ≠ "createdAt" := by rw [hi]; decide
      rw [if_pos hi, if_pos hor, if_neg hc, Option.or_none, hi]
    · rw [if_neg hi]
      by_cases hc : k = "createdAt"
      · have hor : k = "createdAt" ∨ k = "instanceId" := .inl hc
        rw [if_pos hc, if_pos hor, Option.or_none, hc]
      · rw [if_neg hc, if_neg (not_or.mpr ⟨hc, hi⟩)]
  have hfold : ∀ (frag kept : Map) (k : String),
      ((k = "createdAt" ∨ k = "instanceId") → (frag.foldl (fun o p =>
        if p.1 = "createdAt" ∨ p.1 = "instanceId" then o else SortedMap.insert p.1 p.2 o) kept).lookup k = kept.lookup k) ∧
      ∀ v, (frag.foldl (fun o p =>
        if p.1 = "createdAt" ∨ p.1 = "instanceId" then o else SortedMap.insert p.1 p.2 o) kept).lookup k = some v →
          kept.lookup k = some v ∨ (k, v) ∈ frag := by
    intro frag
    induction frag with
    | nil => exact fun kept k => ⟨fun _ => rfl, fun v hv => .inl hv⟩
    | cons p frag ih =>
        intro kept k
        rw [List.foldl_cons]
        obtain ⟨hsame, hfrom⟩ := ih (if p.1 = "createdAt" ∨ p.1 = "instanceId" then kept else SortedMap.insert p.1 p.2 kept) k
        constructor
        · intro hk
          rw [hsame hk]
          split_ifs with hp
          · rfl
          · rw [SortedMap.lookup_insert, if_neg]
            rintro rfl
            exact hp hk
        · intro v hv
          rcases hfrom v hv with hv | hv
          · split_ifs at hv
            · exact .inl hv
            · rw [SortedMap.lookup_insert] at hv
              split_ifs at hv with hk
              · rw [hk, ← Option.some.inj hv]
                exact .inr List.mem_cons_self
              · exact .inl hv
          · exact .inr (List.mem_cons_of_mem _ hv)
  refine ⟨_, rfl, fun k => ⟨?_, fun hk => ?_, fun hm hc hi v hv => ?_⟩⟩
  · rw [lookup_touch]
    split_ifs <;> rfl
  · rw [lookup_touch, if_neg, (hfold _ _ k).1 hk, hkept, if_pos hk]
    rcases hk with rfl | rfl <;> decide
  · rw [lookup_touch, if_neg hm] at hv
    rcases (hfold _ _ k).2 v hv with hv | hv
    · rw [hkept, if_neg (by rintro (h | h) <;> contradiction)] at hv
      cases hv
    · exact hv

theorem replaced_lawful (hts : Readable cast ts) (hfrag : ∀ k ∈ STAMPS, ∀ s, (k, .string s) ∈ frag → Readable cast s)
    {v : Value} (hn : Named v) (hc : Castable cast v) :
    Named (replaced frag ts v) ∧ Castable cast (replaced frag ts v) ∧
      text (replaced frag ts v) "instanceId" = text v "instanceId" := by
  obtain ⟨t, rfl⟩ : ∃ t, v = .object t := by
    cases v with
    | object t => exact ⟨t, rfl⟩
    | _ => cases hn.1
  obtain ⟨o, ho, hlookup⟩ := @lookup_replaced frag ts t
  have hid : text (replaced frag ts (.object t)) "instanceId" = text (.object t) "instanceId" := by
    rw [ho]
    exact congrArg (·.bind Value.as_str) ((hlookup "instanceId").2.1 (.inr rfl))
  refine ⟨⟨by rw [ho]; rfl, by rw [hid]; exact hn.2⟩, fun k hk s hs => ?_, hid⟩
  rw [ho] at hs
  obtain ⟨w, hw, hstr⟩ := Option.bind_eq_some_iff.mp hs
  have hw : o.lookup k = some w := hw
  by_cases hmod : k = "modifiedAt"
  · rw [(hlookup k).1, if_pos hmod] at hw
    obtain rfl := Option.some.inj hw
    obtain rfl := Option.some.inj hstr
    exact hts
  by_cases hcre : k = "createdAt"
  · rw [(hlookup k).2.1 (.inl hcre)] at hw
    exact hc k hk s (Option.bind_eq_some_iff.mpr ⟨w, hw, hstr⟩)
  by_cases hins : k = "instanceId"
  · rw [hins] at hk
    exact absurd hk (by decide)
  have hmem := (hlookup k).2.2 hmod hcre hins w hw
  cases w with
  | string s' =>
      obtain rfl := Option.some.inj hstr
      exact hfrag k hk s' hmem
  | _ => cases hstr

theorem modify_cases (attr : AttrName) (instance_id : String) (hn : Solid cast n) :
    (modify_instance attr.1 instance_id frag ts n).2 =
        (instances n attr.1).any (fun i => text i "instanceId" = some instance_id) ∧
      SortedMap.Sorted (modify_instance attr.1 instance_id frag ts n).1 ∧
      ∀ k, (modify_instance attr.1 instance_id frag ts n).1.lookup k =
        if k = attr.1 then (n.lookup k).map (fun _ =>
          .array (replace_first instance_id (replaced frag ts) (instances n k))) else n.lookup k := by
  have hskip : ∀ l : List Value, l.any (fun i => text i "instanceId" = some instance_id) = false →
      replace_first instance_id (replaced frag ts) l = l := by
    intro l hl
    induction l with
    | nil => rfl
    | cons i l ih =>
        rw [List.any_cons, Bool.or_eq_false_iff, decide_eq_false_iff_not] at hl
        rw [replace_first, if_neg hl.1, ih hl.2]
  cases hl : n.lookup attr.1 with
  | none =>
      have hnil : instances n attr.1 = [] := by rw [instances, hl]; rfl
      simp only [modify_instance, hl, hnil]
      refine ⟨rfl, hn.sorted, fun k => ?_⟩
      split_ifs with hk
      · rw [hk, hl]
        rfl
      · rfl
  | some v =>
      obtain ⟨arr, rfl, -, -⟩ := hn.arrays attr.1 attr.2 v hl
      have harr : instances n attr.1 = arr := by rw [instances, hl]; rfl
      simp only [modify_instance, hl, harr]
      split_ifs with hany
      · refine ⟨hany.symm, SortedMap.sorted_insert _ _ hn.sorted, fun k => ?_⟩
        rw [SortedMap.lookup_insert]
        split_ifs with hk
        · rw [hk, hl, harr]
          rfl
        · rfl
      · refine ⟨(Bool.eq_false_iff.mpr hany).symm, hn.sorted, fun k => ?_⟩
        split_ifs with hk
        · rw [hk, hl, harr, hskip arr (Bool.eq_false_iff.mpr hany)]
          rfl
        · rfl

theorem modify_kept (attr : AttrName) (instance_id : String) (hts : Readable cast ts)
    (hfrag : ∀ k ∈ STAMPS, ∀ s, (k, .string s) ∈ frag → Readable cast s) (hn : Solid cast n) (hm : Solid cast m)
    (ha : Alike n m) : Kept cast (modify_instance attr.1 instance_id frag ts) m n := by
  have heffect : Effect cast (modify_instance attr.1 instance_id frag ts)
      (fun k l => if k = attr.1 then replace_first instance_id (replaced frag ts) l else l) := by
    refine ⟨fun n hn => (modify_cases attr instance_id hn).2.1, fun n hn k hk => ?_, fun n m hn hm ha => ⟨?_, fun k hk => ?_⟩⟩
    · rw [(modify_cases attr instance_id hn).2.2 k]
      by_cases hattr : k = attr.1
      · rw [if_pos hattr, if_pos hattr, hn.lookup hk]
        cases instances n k with
        | nil => rfl
        | cons i l =>
            rw [if_neg (List.cons_ne_nil i l), if_neg, Option.map_some]
            rw [replace_first]
            split <;> exact List.cons_ne_nil _ _
      · rw [if_neg hattr, if_neg hattr, hn.lookup hk]
    · rw [(modify_cases attr instance_id hn).1, (modify_cases attr instance_id hm).1]
      exact (ha.instances _ attr.2).any_eq
    · have hne : k ≠ attr.1 := fun h => attr.2 (h ▸ hk)
      rw [(modify_cases attr instance_id hn).2.2, (modify_cases attr instance_id hm).2.2, if_neg hne, if_neg hne,
        ha.meta_members k hk]
  refine heffect.kept hn hm ha fun k hk l hp hl => ?_
  split_ifs
  · have hl' := hl.perm hp
    rw [replace_first_eq_map _ _ hl.distinct, replace_first_eq_map _ _ hl'.distinct]
    have heach : ∀ v ∈ l, ∀ w, w = (if text v "instanceId" = some instance_id then replaced frag ts v else v) →
        Named w ∧ Castable cast w ∧ text w "instanceId" = text v "instanceId" := by
      rintro v hv w rfl
      split_ifs
      · exact replaced_lawful hts hfrag (hl.named v hv) (hl.castable v hv)
      · exact ⟨hl.named v hv, hl.castable v hv, rfl⟩
    refine ⟨⟨?_, ?_, ?_⟩, hp.map _⟩
    · intro w hw
      obtain ⟨v, hv, hvw⟩ := List.mem_map.mp hw
      exact (heach v hv w hvw.symm).1
    · intro w hw
      obtain ⟨v, hv, hvw⟩ := List.mem_map.mp hw
      exact (heach v hv w hvw.symm).2.1
    · have hids : (l.map (fun i => if text i "instanceId" = some instance_id then replaced frag ts i else i)).map
          (fun v => text v "instanceId") = l.map (fun v => text v "instanceId") := by
        rw [List.map_map]
        exact List.map_congr_left fun v hv => (heach v hv _ rfl).2.2
      rw [hids]
      exact hl.distinct
  · exact ⟨hl, hp⟩

end Modification

section Growth

variable {Time : Type} {cast : Cast Time} {m n expanded : Map} {ts : String}

/-- Instances arrive for an attribute that may have some. -/
def grow_attr (combine : List Value → List Value → List Value) (target : Map) (p : String × Value) : Map :=
  if Temporal.is_meta p.1 then target
  else match target.lookup p.1 with
    | some (.array cur) => SortedMap.insert p.1 (.array (combine cur (Temporal.items p.2))) target
    | _ => SortedMap.insert p.1 (.array (Temporal.items p.2)) target

def grown (combine : List Value → List Value → List Value) (l incoming : List Value) : List Value :=
  if incoming = [] then l else if l = [] then incoming else combine l incoming

/-- A fragment with the instances named and stamped. -/
structure Arriving (cast : Cast Time) (expanded : Map) : Prop where
  solid : Solid cast expanded
  no_context : expanded.lookup "@context" = none

theorem sorted_grow (combine : List Value → List Value → List Value) (ps : Map) (hn : SortedMap.Sorted n) :
    SortedMap.Sorted (ps.foldl (grow_attr combine) n) := by
  induction ps generalizing n with
  | nil => exact hn
  | cons p ps ih =>
      refine ih ?_
      unfold grow_attr
      split
      · exact hn
      · split <;> exact SortedMap.sorted_insert _ _ hn

theorem lookup_grow (combine : List Value → List Value → List Value) (he : Arriving cast expanded) (n : Map) :
    (∀ k ∈ DOC_META, (expanded.foldl (grow_attr combine) n).lookup k = n.lookup k) ∧
      ∀ k ∉ DOC_META, (∀ v, n.lookup k = some v → ∃ arr, v = .array arr ∧ arr ≠ []) →
        (expanded.foldl (grow_attr combine) n).lookup k =
          if instances expanded k = [] then n.lookup k else some (.array (grown combine (instances n k) (instances expanded k))) := by
  have hstep := SortedMap.lookup_foldl (f := grow_attr combine)
    (g := fun k old v => if Temporal.is_meta k then old else
      match old with
      | some (.array cur) => some (.array (combine cur (Temporal.items v)))
      | _ => some (.array (Temporal.items v)))
    (by
      intro m p k
      unfold grow_attr
      by_cases hmeta : Temporal.is_meta p.1 = true
      · rw [if_pos hmeta]
        split_ifs with hk hk'
        · rfl
        · exact absurd (hk ▸ hmeta) hk'
        · rfl
      · rw [if_neg hmeta]
        by_cases hk : k = p.1
        · rw [if_pos hk, hk, if_neg hmeta]
          cases m.lookup p.1 with
          | none => exact (SortedMap.lookup_insert ..).trans (if_pos rfl)
          | some w => cases w <;> exact (SortedMap.lookup_insert ..).trans (if_pos rfl)
        · rw [if_neg hk]
          split <;> rw [SortedMap.lookup_insert, if_neg hk]) he.solid.sorted n
  refine ⟨fun k hk => ?_, fun k hk hn => ?_⟩
  · rw [hstep]
    by_cases hc : k = "@context"
    · rw [hc, he.no_context]
      rfl
    · cases expanded.lookup k with
      | none => rfl
      | some v =>
          rw [Option.elim_some]
          exact if_pos (is_meta_eq.mpr ⟨hc, hk⟩)
  · have hattr : ¬Temporal.is_meta k = true := Bool.eq_false_iff.mp (is_meta_attr hk)
    rw [hstep, he.solid.lookup hk]
    by_cases hnil : instances expanded k = []
    · rw [if_pos hnil, if_pos hnil, Option.elim_none]
    · rw [if_neg hnil, if_neg hnil, Option.elim_some, if_neg hattr, grown, if_neg hnil]
      unfold instances
      cases hl : n.lookup k with
      | none => rfl
      | some v =>
          obtain ⟨arr, rfl, hne⟩ := hn v hl
          exact congrArg (fun l => some (Value.array l)) (if_neg hne).symm

/-- A request that adds instances: it may change the types, and touches the document. -/
def grow (combine : List Value → List Value → List Value) (types : Map → Map) (expanded : Map) (ts : String) (n : Map) :
    Map × Bool :=
  (touch ts (expanded.foldl (grow_attr combine) (types n)), true)

/-- Only the types depend on the types. -/
structure Typing (types : Map → Map) : Prop where
  sorted : ∀ n, SortedMap.Sorted n → SortedMap.Sorted (types n)
  attrs : ∀ n, ∀ k ∉ DOC_META, (types n).lookup k = n.lookup k
  meta_members : ∀ n m : Map, (∀ k ∈ DOC_META, n.lookup k = m.lookup k) → ∀ k ∈ DOC_META, (types n).lookup k = (types m).lookup k

theorem typing_id : Typing id := ⟨fun _ h => h, fun _ _ _ => rfl, fun _ _ h => h⟩

theorem typing_union (expanded : Map) : Typing (union_types expanded) := by
  unfold union_types
  cases (expanded.lookup "type").bind Value.as_array with
  | none => exact typing_id
  | some new_types =>
      refine ⟨fun n h => SortedMap.sorted_insert _ _ h, fun n k hk => ?_, fun n m h k hk => ?_⟩
      · dsimp only
        rw [SortedMap.lookup_insert, if_neg]
        rintro rfl
        exact hk (by decide)
      · dsimp only
        rw [SortedMap.lookup_insert, SortedMap.lookup_insert, h "type" (by decide), h k hk]

theorem grow_effect {combine : List Value → List Value → List Value} (hcombine : ∀ l, ∀ inc ≠ [], combine l inc ≠ [])
    {types : Map → Map} (htypes : Typing types) (he : Arriving cast expanded) :
    Effect cast (grow combine types expanded ts) (fun k l => grown combine l (instances expanded k)) := by
  refine ⟨fun n hn => sorted_touch _ (sorted_grow _ _ (htypes.sorted n hn.sorted)), fun n hn k hk => ?_,
    fun n m hn hm ha => ⟨rfl, fun k hk => ?_⟩⟩
  · have harr : ∀ v, (types n).lookup k = some v → ∃ arr, v = .array arr ∧ arr ≠ [] := by
      intro v hv
      rw [htypes.attrs n k hk] at hv
      obtain ⟨arr, harr, hne, -⟩ := hn.arrays k hk v hv
      exact ⟨arr, harr, hne⟩
    have hinst : instances (types n) k = instances n k := by rw [instances, htypes.attrs n k hk, instances]
    rw [grow, lookup_touch_attr _ _ hk, (lookup_grow combine he _).2 k hk harr, hinst, htypes.attrs n k hk, hn.lookup hk]
    unfold grown
    split_ifs with hinc hl hl hl'
    · rfl
    · rfl
    · rfl
    · exact absurd hl' (hcombine _ _ hinc)
    · rfl
  · rw [grow, grow, lookup_touch, lookup_touch, (lookup_grow combine he _).1 k hk, (lookup_grow combine he _).1 k hk,
      htypes.meta_members n m ha.meta_members k hk]

/-- The instances that arrive are new. -/
def Fresh (m expanded : Map) : Prop :=
  ∀ k ∉ DOC_META, ((instances m k ++ instances expanded k).map (fun v => text v "instanceId")).Nodup

theorem Lawful.append {l inc : List Value} (hl : Lawful cast l) (hinc : Lawful cast inc)
    (hd : ((l ++ inc).map (fun v => text v "instanceId")).Nodup) : Lawful cast (l ++ inc) := by
  refine ⟨fun v hv => ?_, fun v hv => ?_, hd⟩
  · exact (List.mem_append.mp hv).elim (hl.named v) (hinc.named v)
  · exact (List.mem_append.mp hv).elim (hl.castable v) (hinc.castable v)

theorem add_kept (he : Arriving cast expanded) (hf : Fresh m expanded) (hn : Solid cast n) (hm : Solid cast m)
    (ha : Alike n m) : Kept cast (fun n => (add_temporal_instances expanded ts n, true)) m n := by
  have hcombine : ∀ l : List Value, ∀ inc ≠ [], l ++ inc ≠ [] := fun l inc hinc h => hinc (List.append_eq_nil_iff.mp h).2
  refine (grow_effect hcombine typing_id he).kept hn hm ha fun k hk l hp hl => ?_
  have hinc := he.solid.lawful hk
  have hd : ((l ++ instances expanded k).map (fun v => text v "instanceId")).Nodup :=
    ((hp.append_right _).map _).nodup_iff.mpr (hf k hk)
  have hall : ∀ l : List Value, grown (· ++ ·) l (instances expanded k) = l ++ instances expanded k := by
    intro l
    unfold grown
    split_ifs with h h'
    · rw [h, List.append_nil]
    · rw [h', List.nil_append]
    · rfl
  rw [hall, hall]
  exact ⟨hl.append hinc hd, hp.append_right _⟩

end Growth

section Merging

variable {Time : Type} {cast : Cast Time} {m n expanded : Map} {ts : String}

/-- At most one instance of a dataset is observed at a time. -/
def Distinct (l : List Value) : Prop := l.Pairwise (fun c d => same_instant c d = false)

theorem same_instant_symm {c d : Value} (h : same_instant c d = false) : same_instant d c = false := by
  unfold same_instant at h ⊢
  by_cases hk : merge_key c = merge_key d
  · rwa [hk] at h ⊢
  · simp [Ne.symm hk]

theorem lookup_corrected {had : Value} {o : Map} : ∃ o' : Map, corrected had (.object o) = .object o' ∧
    ∀ k, o'.lookup k = if k = "createdAt" ∨ k = "instanceId" then (had.get k).or (o.lookup k) else o.lookup k := by
  have hstep : ∀ (o : Map) (j : String), ∃ o' : Map, keep_member had (.object o) j = .object o' ∧
      ∀ k, o'.lookup k = if k = j then (had.get k).or (o.lookup k) else o.lookup k := by
    intro o j
    unfold keep_member
    cases hj : had.get j with
    | none =>
        refine ⟨o, rfl, fun k => ?_⟩
        split_ifs with hk
        · rw [hk, hj, Option.none_or]
        · rfl
    | some v =>
        refine ⟨_, rfl, fun k => ?_⟩
        rw [SortedMap.lookup_insert]
        split_ifs with hk
        · rw [hk, hj, Option.some_or]
        · rfl
  unfold corrected
  rw [List.foldl_cons, List.foldl_cons, List.foldl_nil]
  obtain ⟨o₁, ho₁, h₁⟩ := hstep o "instanceId"
  obtain ⟨o₂, ho₂, h₂⟩ := hstep o₁ "createdAt"
  rw [ho₁, ho₂]
  refine ⟨o₂, rfl, fun k => ?_⟩
  rw [h₂, h₁]
  by_cases hc : k = "createdAt"
  · have hi : k ≠ "instanceId" := by rw [hc]; decide
    rw [if_pos hc, if_neg hi, if_pos (Or.inl hc)]
  · by_cases hi : k = "instanceId"
    · rw [if_neg hc, if_pos hi, if_pos (Or.inr hi)]
    · rw [if_neg hc, if_neg hi, if_neg (not_or.mpr ⟨hc, hi⟩)]

theorem corrected_facts {c ni : Value} (hc : Named c) (hcc : Castable cast c) (hn : Named ni) (hnc : Castable cast ni) :
    Named (corrected c ni) ∧ Castable cast (corrected c ni) ∧ text (corrected c ni) "instanceId" = text c "instanceId" ∧
      merge_key (corrected c ni) = merge_key ni := by
  obtain ⟨o, rfl⟩ : ∃ o, ni = .object o := by
    cases ni with
    | object o => exact ⟨o, rfl⟩
    | _ => cases hn.1
  obtain ⟨o', ho', hlookup⟩ := @lookup_corrected c o
  have htext : ∀ k, text (corrected c (.object o)) k =
      if k = "createdAt" ∨ k = "instanceId" then ((c.get k).or (o.lookup k)).bind Value.as_str
        else text (.object o) k := by
    intro k
    rw [ho', text, Value.get, hlookup]
    split_ifs <;> rfl
  have hid : text (corrected c (.object o)) "instanceId" = text c "instanceId" := by
    rw [htext, if_pos (Or.inr rfl), text]
    obtain ⟨i, hi⟩ := Option.isSome_iff_exists.mp hc.2
    obtain ⟨w, hw, -⟩ := Option.bind_eq_some_iff.mp hi
    rw [hw, Option.some_or]
  refine ⟨⟨by rw [ho']; rfl, by rw [hid]; exact hc.2⟩, fun k hk s hs => ?_, hid, ?_⟩
  · rw [htext] at hs
    split_ifs at hs
    · cases hg : c.get k with
      | none =>
          rw [hg, Option.none_or] at hs
          exact hnc k hk s hs
      | some w =>
          rw [hg, Option.some_or] at hs
          refine hcc k hk s ?_
          rw [text, hg]
          exact hs
    · exact hnc k hk s hs
  · rw [merge_key, merge_key, htext, htext, if_neg (by decide), if_neg (by decide)]

theorem mem_merge_instance {ni x : Value} {cur : List Value} (hd : Distinct cur) :
    x ∈ merge_instance ni cur ↔ (x ∈ cur ∧ same_instant x ni = false) ∨
      (∃ c ∈ cur, same_instant c ni = true ∧ x = corrected c ni) ∨ ((∀ c ∈ cur, same_instant c ni = false) ∧ x = ni) := by
  induction cur with
  | nil => simp [merge_instance]
  | cons c cur ih =>
      obtain ⟨hc, hd⟩ := List.pairwise_cons.mp hd
      rw [merge_instance]
      cases hs : same_instant c ni with
      | true =>
          have hothers : ∀ d ∈ cur, same_instant d ni = false := by
            intro d hdc
            have hcd := hc d hdc
            unfold same_instant at hcd hs ⊢
            rw [Bool.and_eq_true, decide_eq_true_eq] at hs
            by_cases hk : merge_key d = merge_key ni
            · rw [hs.1, hk, hs.2] at hcd
              simp at hcd
            · simp [hk]
          rw [if_pos rfl, List.mem_cons]
          constructor
          · rintro (rfl | hx)
            · exact .inr (.inl ⟨c, List.mem_cons_self, hs, rfl⟩)
            · exact .inl ⟨List.mem_cons_of_mem _ hx, hothers x hx⟩
          · rintro (⟨hx, hxs⟩ | ⟨d, hdc, hds, rfl⟩ | ⟨hnone, -⟩)
            · rcases List.mem_cons.mp hx with rfl | hx
              · rw [hs] at hxs
                cases hxs
              · exact .inr hx
            · rcases List.mem_cons.mp hdc with rfl | hdc
              · exact .inl rfl
              · rw [hothers d hdc] at hds
                cases hds
            · rw [hnone c List.mem_cons_self] at hs
              cases hs
      | false =>
          rw [if_neg Bool.false_ne_true, List.mem_cons, ih hd]
          constructor
          · rintro (rfl | ⟨hx, hxs⟩ | ⟨d, hdc, hds, rfl⟩ | ⟨hnone, rfl⟩)
            · exact .inl ⟨List.mem_cons_self, hs⟩
            · exact .inl ⟨List.mem_cons_of_mem _ hx, hxs⟩
            · exact .inr (.inl ⟨d, List.mem_cons_of_mem _ hdc, hds, rfl⟩)
            · exact .inr (.inr ⟨List.forall_mem_cons.mpr ⟨hs, hnone⟩, rfl⟩)
          · rintro (⟨hx, hxs⟩ | ⟨d, hdc, hds, rfl⟩ | ⟨hnone, rfl⟩)
            · exact (List.mem_cons.mp hx).imp_right fun hx => .inl ⟨hx, hxs⟩
            · rcases List.mem_cons.mp hdc with rfl | hdc
              · rw [hs] at hds
                cases hds
              · exact .inr (.inr (.inl ⟨d, hdc, hds, rfl⟩))
            · exact .inr (.inr (.inr ⟨(List.forall_mem_cons.mp hnone).2, rfl⟩))

theorem ids_merge_instance {ni : Value} {cur : List Value} (hn : Named ni) (hnc : Castable cast ni)
    (hl : Lawful cast cur) : (merge_instance ni cur).map (fun v => text v "instanceId") =
      if cur.any (fun c => same_instant c ni) then cur.map (fun v => text v "instanceId")
      else cur.map (fun v => text v "instanceId") ++ [text ni "instanceId"] := by
  induction cur with
  | nil => rfl
  | cons c cur ih =>
      have hc := corrected_facts (hl.named c List.mem_cons_self) (hl.castable c List.mem_cons_self) hn hnc
      rw [merge_instance, List.any_cons]
      cases same_instant c ni with
      | true => rw [if_pos rfl, Bool.true_or, if_pos rfl, List.map_cons, hc.2.2.1, List.map_cons]
      | false =>
          rw [if_neg Bool.false_ne_true, Bool.false_or, List.map_cons, ih (hl.sublist (List.sublist_cons_self c cur))]
          split_ifs <;> rfl

theorem distinct_merge_instance {ni : Value} {cur : List Value} (hn : Named ni) (hnc : Castable cast ni)
    (hl : Lawful cast cur) (hd : Distinct cur) : Distinct (merge_instance ni cur) := by
  have hkey : ∀ {c x y : Value}, merge_key x = merge_key y → same_instant c x = same_instant c y := by
    intro c x y h
    rw [same_instant, same_instant, h]
  induction cur with
  | nil => exact List.pairwise_singleton _ _
  | cons c cur ih =>
      obtain ⟨hc, hd⟩ := List.pairwise_cons.mp hd
      have hcorrected := fun d hdc => (corrected_facts (hl.named d hdc) (hl.castable d hdc) hn hnc).2.2.2
      have hl' := hl.sublist (List.sublist_cons_self c cur)
      rw [merge_instance]
      cases hs : same_instant c ni with
      | true =>
          rw [if_pos rfl]
          refine List.pairwise_cons.mpr ⟨fun d hdc => same_instant_symm ?_, hd⟩
          have hsame : merge_key c = merge_key ni := by
            unfold same_instant at hs
            rw [Bool.and_eq_true, decide_eq_true_eq] at hs
            exact hs.1
          rw [hkey ((hcorrected c List.mem_cons_self).trans hsame.symm)]
          exact same_instant_symm (hc d hdc)
      | false =>
          rw [if_neg Bool.false_ne_true]
          refine List.pairwise_cons.mpr ⟨fun x hx => ?_, ih hl' hd⟩
          rcases (mem_merge_instance hd).mp hx with ⟨hx, -⟩ | ⟨d, hdc, -, rfl⟩ | ⟨-, rfl⟩
          · exact hc x hx
          · rw [hkey (hcorrected d (List.mem_cons_of_mem _ hdc))]
            exact hs
          · exact hs

theorem lawful_merge_instance {ni : Value} {cur : List Value} (hn : Named ni) (hnc : Castable cast ni)
    (hl : Lawful cast cur) (hd : Distinct cur) (hfresh : text ni "instanceId" ∉ cur.map (fun v => text v "instanceId")) :
    Lawful cast (merge_instance ni cur) := by
  have heach : ∀ x ∈ merge_instance ni cur, Named x ∧ Castable cast x := by
    intro x hx
    rcases (mem_merge_instance hd).mp hx with ⟨hx, -⟩ | ⟨d, hdc, -, rfl⟩ | ⟨-, rfl⟩
    · exact ⟨hl.named x hx, hl.castable x hx⟩
    · have hd := corrected_facts (hl.named d hdc) (hl.castable d hdc) hn hnc
      exact ⟨hd.1, hd.2.1⟩
    · exact ⟨hn, hnc⟩
  refine ⟨fun x hx => (heach x hx).1, fun x hx => (heach x hx).2, ?_⟩
  rw [ids_merge_instance hn hnc hl]
  split_ifs
  · exact hl.distinct
  · exact List.nodup_append.mpr ⟨hl.distinct, List.nodup_singleton _,
      fun a ha b hb hab => hfresh (List.mem_singleton.mp hb ▸ hab ▸ ha)⟩

/-- Instances merge the same in any order of those that are there. -/
theorem merge_fold {l l' inc : List Value} (hl : Lawful cast l) (hp : l.Perm l') (hd : Distinct l')
    (hinc : Lawful cast inc) (hf : ((l' ++ inc).map (fun v => text v "instanceId")).Nodup) :
    Lawful cast (inc.foldl (fun cur ni => merge_instance ni cur) l) ∧
      (inc.foldl (fun cur ni => merge_instance ni cur) l).Perm (inc.foldl (fun cur ni => merge_instance ni cur) l') := by
  induction inc generalizing l l' with
  | nil => exact ⟨hl, hp⟩
  | cons ni inc ih =>
      have hn := hinc.named ni List.mem_cons_self
      have hnc := hinc.castable ni List.mem_cons_self
      have hl' := hl.perm hp
      have hdl : Distinct l := (hp.pairwise_iff fun h => same_instant_symm h).mpr hd
      rw [List.map_append, List.map_cons, List.nodup_append] at hf
      have hfresh' : text ni "instanceId" ∉ l'.map (fun v => text v "instanceId") :=
        fun h => hf.2.2 _ h _ List.mem_cons_self rfl
      have hfresh : text ni "instanceId" ∉ l.map (fun v => text v "instanceId") := by
        rwa [(hp.map _).mem_iff]
      have hstep := lawful_merge_instance hn hnc hl hdl hfresh
      have hstep' := lawful_merge_instance hn hnc hl' hd hfresh'
      have hperm : (merge_instance ni l).Perm (merge_instance ni l') := by
        refine (List.perm_ext_iff_of_nodup hstep.nodup hstep'.nodup).mpr fun x => ?_
        rw [mem_merge_instance hdl, mem_merge_instance hd]
        simp only [hp.mem_iff]
      rw [List.foldl_cons, List.foldl_cons]
      refine ih hstep hperm (distinct_merge_instance hn hnc hl' hd) (hinc.sublist (List.sublist_cons_self ni inc)) ?_
      rw [List.map_append, List.nodup_append]
      refine ⟨hstep'.distinct, (List.nodup_cons.mp hf.2.1).2, ?_⟩
      rintro a ha b hb rfl
      rw [ids_merge_instance hn hnc hl'] at ha
      split_ifs at ha
      · exact hf.2.2 a ha a (List.mem_cons_of_mem _ hb) rfl
      · rcases List.mem_append.mp ha with ha | ha
        · exact hf.2.2 a ha a (List.mem_cons_of_mem _ hb) rfl
        · rw [List.mem_singleton.mp ha] at hb
          exact (List.nodup_cons.mp hf.2.1).1 hb

theorem merge_kept (he : Arriving cast expanded) (hf : Fresh m expanded)
    (hd : ∀ k ∉ DOC_META, instances expanded k ≠ [] → Distinct (instances m k)) (hn : Solid cast n) (hm : Solid cast m)
    (ha : Alike n m) : Kept cast (fun n => (merge_temporal expanded ts n, true)) m n := by
  have hone : ∀ (ni : Value) (cur : List Value), merge_instance ni cur ≠ [] := by
    intro ni cur
    cases cur with
    | nil => exact List.cons_ne_nil _ _
    | cons c cur =>
        rw [merge_instance]
        split <;> exact List.cons_ne_nil _ _
  have hcombine : ∀ l : List Value, ∀ inc ≠ [], inc.foldl (fun cur ni => merge_instance ni cur) l ≠ [] := by
    intro l inc hinc
    induction inc using List.reverseRecOn with
    | nil => exact absurd rfl hinc
    | append_singleton inc ni =>
        rw [List.foldl_append]
        exact hone _ _
  refine (grow_effect hcombine (typing_union expanded) he).kept hn hm ha fun k hk l hp hl => ?_
  have hinc := he.solid.lawful hk
  unfold grown
  by_cases hnil : instances expanded k = []
  · rw [if_pos hnil, if_pos hnil]
    exact ⟨hl, hp⟩
  · rw [if_neg hnil, if_neg hnil]
    by_cases hl0 : l = []
    · have hm0 : instances m k = [] := List.nil_perm.mp (hl0 ▸ hp)
      rw [if_pos hl0, if_pos hm0]
      exact ⟨hinc, .refl _⟩
    · have hm0 : instances m k ≠ [] := fun h => hl0 (List.perm_nil.mp (h ▸ hp))
      rw [if_neg hl0, if_neg hm0]
      exact merge_fold hl hp (hd k hk hnil) hinc (hf k hk)

end Merging

section Stamping

variable {Time : Type} {cast : Cast Time} {m : Map} (uuid : Uuids) (ts : String)

theorem lookup_stamped (doc : Map) (k : String) :
    (stamp_temporal_instances uuid ts doc).lookup k = (doc.lookup k).map (stamp_attr uuid ts k) :=
  SortedMap.lookup_map_value (stamp_attr uuid ts) doc k

theorem named_stamped {v : Value} (hv : Expanded v) (u : String) : Named (stamp_instance u ts v) := by
  obtain ⟨o, rfl⟩ : ∃ o, v = .object o := by
    cases v with
    | object o => exact ⟨o, rfl⟩
    | _ => cases hv.1
  have hid : ((SortedMap.insert "modifiedAt" (.string ts) (SortedMap.insert "createdAt" (.string ts)
      (if (o.lookup "instanceId").isSome then o else SortedMap.insert "instanceId" (.string u) o))).lookup "instanceId").bind
        Value.as_str = if (o.lookup "instanceId").isSome then text (.object o) "instanceId" else some u := by
    rw [SortedMap.lookup_insert, if_neg (by decide), SortedMap.lookup_insert, if_neg (by decide)]
    split_ifs
    · rfl
    · rw [SortedMap.lookup_insert, if_pos rfl]
      rfl
  refine ⟨rfl, (congrArg Option.isSome hid).trans ?_⟩
  split_ifs with hsome
  · rcases hv.2 with hnone | htext
    · have hnone : o.lookup "instanceId" = none := hnone
      rw [hnone] at hsome
      cases hsome
    · exact htext
  · rfl

/-- The instances that arrive are new, and the database can read their stamps. -/
structure Usable (cast : Cast Time) (m expanded : Map) : Prop where
  castable : ∀ k ∉ DOC_META, ∀ v ∈ instances expanded k, Castable cast v
  fresh : Fresh m expanded

theorem Usable.arriving {expanded : Map} (h : Usable cast m expanded) (hsorted : SortedMap.Sorted expanded)
    (hctx : expanded.lookup "@context" = none) (harrays : ∀ k ∉ DOC_META, ∀ v, expanded.lookup k = some v →
      ∃ items, v = .array items ∧ items ≠ [] ∧ ∀ v ∈ items, Named v) : Arriving cast expanded := by
  refine ⟨⟨hsorted, fun k hk v hv => ?_⟩, hctx⟩
  obtain ⟨items, rfl, hne, hnamed⟩ := harrays k hk v hv
  have hitems : instances expanded k = items := by rw [instances, hv]; rfl
  refine ⟨items, rfl, hne, hnamed, fun w hw => h.castable k hk w (hitems ▸ hw), ?_⟩
  have hfresh := h.fresh k hk
  rw [List.map_append, List.nodup_append, hitems] at hfresh
  exact hfresh.2.1

theorem arriving_stamped (fragment : Fragment)
    (h : Usable cast m (stamp_temporal_instances uuid ts fragment.members)) :
    Arriving cast (stamp_temporal_instances uuid ts fragment.members) := by
  refine h.arriving (List.pairwise_map.mpr fragment.sorted) ?_ fun k hk v hv => ?_
  · rw [lookup_stamped, fragment.no_context]
    rfl
  · rw [lookup_stamped] at hv
    obtain ⟨w, hw, rfl⟩ := Option.map_eq_some_iff.mp hv
    obtain ⟨items, hitems, hne, hexpanded⟩ := fragment.arrays (k, w) (SortedMap.mem_of_lookup hw) hk
    have hitems : w = .array items := hitems
    subst hitems
    refine ⟨items.mapIdx (fun i v => stamp_instance (uuid k i) ts v), ?_, ?_, fun v hv => ?_⟩
    · rw [stamp_attr, if_neg (Bool.eq_false_iff.mp (is_meta_attr hk))]
    · rwa [Ne, List.mapIdx_eq_nil_iff]
    · obtain ⟨i, hi, rfl⟩ := List.mem_mapIdx.mp hv
      exact named_stamped ts (hexpanded _ (List.getElem_mem hi)) _

end Stamping

end AntaresBroker.RowStore
