import AntaresBroker.RowParity

namespace AntaresBroker.RowStore

open Json Expiry Evolution

section Appending

variable {Time : Type} {cast : Cast Time} {m additions : Map}

theorem get_of_text {v w : Value} (hv : Named v) (hw : Named w) :
    v.get "instanceId" = w.get "instanceId" ↔ text v "instanceId" = text w "instanceId" := by
  have hstr : ∀ v, Named v → ∃ s, v.get "instanceId" = some (.string s) ∧ text v "instanceId" = some s := by
    intro v hv
    obtain ⟨s, hs⟩ := Option.isSome_iff_exists.mp hv.2
    obtain ⟨x, hx, hxs⟩ := Option.bind_eq_some_iff.mp hs
    cases x with
    | string s' =>
        obtain rfl := Option.some.inj hxs
        exact ⟨s', hx, hs⟩
    | _ => cases hxs
  obtain ⟨s, hg, ht⟩ := hstr v hv
  obtain ⟨s', hg', ht'⟩ := hstr w hw
  rw [hg, hg', ht, ht']
  simp

theorem nodup_get_iff {l : List Value} (hl : ∀ v ∈ l, Named v) :
    (l.map Drain.instance_id).Nodup ↔ (l.map (fun v => text v "instanceId")).Nodup := by
  unfold List.Nodup
  rw [List.pairwise_map, List.pairwise_map]
  exact ⟨fun h => h.imp_of_mem fun ha hb hne => fun h => hne ((get_of_text (hl _ ha) (hl _ hb)).mpr h),
    fun h => h.imp_of_mem fun ha hb hne => fun h => hne ((get_of_text (hl _ ha) (hl _ hb)).mp h)⟩

/-- Instances that take the place of those of their ids. -/
theorem upserted {l inc : List Value} (hl : Lawful cast l) (hinc : Lawful cast inc) :
    Lawful cast (inc.foldl (Grouping.upsert Drain.instance_id) l) ∧
      ∀ d, d ∈ inc.foldl (Grouping.upsert Drain.instance_id) l ↔
        d ∈ inc ∨ (d ∈ l ∧ ∀ v ∈ inc, text v "instanceId" ≠ text d "instanceId") := by
  have hkl := (nodup_get_iff hl.named).mpr hl.distinct
  have hkinc := (nodup_get_iff hinc.named).mpr hinc.distinct
  have hkeys : ((inc.foldl (Grouping.upsert Drain.instance_id) l).map Drain.instance_id).Nodup :=
    Grouping.nodup_foldl_upsert inc hkl
  have hfind : ∀ (xs : List Value), (xs.map Drain.instance_id).Nodup → ∀ d,
      xs.find? (fun o => Drain.instance_id o = Drain.instance_id d) = some d ↔ d ∈ xs := by
    intro xs hxs d
    constructor
    · exact List.mem_of_find?_eq_some
    · intro hd
      cases hf : xs.find? (fun o => Drain.instance_id o = Drain.instance_id d) with
      | none =>
          have hnone := List.find?_eq_none.mp hf d hd
          simp at hnone
      | some e =>
          have hed : Drain.instance_id e = Drain.instance_id d := by simpa using List.find?_some hf
          rw [List.inj_on_of_nodup_map hxs (List.mem_of_find?_eq_some hf) hd hed]
  have hmem : ∀ d, d ∈ inc.foldl (Grouping.upsert Drain.instance_id) l ↔
      d ∈ inc ∨ (d ∈ l ∧ ∀ v ∈ inc, Drain.instance_id v ≠ Drain.instance_id d) := by
    intro d
    rw [← hfind _ hkeys d, Grouping.find_foldl_upsert]
    have hrev : (inc.reverse.map Drain.instance_id).Nodup := by
      rw [List.map_reverse]
      exact List.nodup_reverse.mpr hkinc
    have hinrev := hfind inc.reverse hrev d
    rw [List.mem_reverse] at hinrev
    cases hf : inc.reverse.find? (fun o => Drain.instance_id o = Drain.instance_id d) with
    | none =>
        have hnone : ∀ v ∈ inc, Drain.instance_id v ≠ Drain.instance_id d := by
          intro v hv
          have hv := List.find?_eq_none.mp hf v (List.mem_reverse.mpr hv)
          rwa [decide_eq_true_eq] at hv
        rw [Option.none_or, hfind l hkl]
        exact ⟨fun hd => .inr ⟨hd, hnone⟩, fun h => h.elim (fun hd => absurd rfl (hnone d hd)) And.left⟩
    | some e =>
        have he := List.mem_reverse.mp (List.mem_of_find?_eq_some hf)
        have hed : Drain.instance_id e = Drain.instance_id d := by simpa using List.find?_some hf
        rw [Option.some_or, ← hf, hinrev]
        exact ⟨.inl, fun h => h.elim id fun h => absurd hed (h.2 e he)⟩
  have hnamed : ∀ d ∈ inc.foldl (Grouping.upsert Drain.instance_id) l, Named d :=
    fun d hd => ((hmem d).mp hd).elim (hinc.named d) fun h => hl.named d h.1
  refine ⟨⟨hnamed, fun d hd => ?_, (nodup_get_iff hnamed).mp hkeys⟩, fun d => ?_⟩
  · exact ((hmem d).mp hd).elim (hinc.castable d) fun h => hl.castable d h.1
  · rw [hmem]
    refine or_congr_right (and_congr_right fun hd => forall₂_congr fun v hv => not_congr ?_)
    exact get_of_text (hinc.named v hv) (hl.named d hd)

/-- The additions name no member of the entity. -/
theorem append_is_grow (hadd : ∀ p ∈ additions, p.1 ∉ DOC_META) (m : Map) : additions.foldl Drain.append_attr m =
    additions.foldl (grow_attr (fun cur inc => inc.foldl (Grouping.upsert Drain.instance_id) cur)) m := by
  induction additions generalizing m with
  | nil => rfl
  | cons p additions ih =>
      rw [List.forall_mem_cons] at hadd
      have hone : Drain.append_attr m p =
          grow_attr (fun cur inc => inc.foldl (Grouping.upsert Drain.instance_id) cur) m p := by
        unfold grow_attr
        rw [if_neg (Bool.eq_false_iff.mp (is_meta_attr hadd.1))]
        rfl
      rw [List.foldl_cons, List.foldl_cons, hone, ih hadd.2]

/-- Recorded instances that are new to the document or correct one of the same time. -/
structure Recordable (cast : Cast Time) (m additions : Map) : Prop where
  castable : ∀ k ∉ DOC_META, ∀ v ∈ instances additions k, Castable cast v
  distinct : ∀ k ∉ DOC_META, ((instances additions k).map (fun v => text v "instanceId")).Nodup
  same_time : ∀ k ∉ DOC_META, ∀ v ∈ instances additions k, ∀ c ∈ instances m k,
    text v "instanceId" = text c "instanceId" → cast.timestamptz (observed v) = cast.timestamptz (observed c)

theorem Recordable.arriving {additions : Additions} (h : Recordable cast m additions.members) :
    Arriving cast additions.members := by
  refine ⟨⟨additions.sorted, fun k hk v hv => ?_⟩, ?_⟩
  · obtain ⟨-, items, hitems, hne, hnamed⟩ := additions.arrays (k, v) (SortedMap.mem_of_lookup hv)
    have hitems : v = .array items := hitems
    subst hitems
    have hinst : instances additions.members k = items := by rw [instances, hv]; rfl
    exact ⟨items, rfl, hne, hnamed, fun w hw => h.castable k hk w (hinst ▸ hw), hinst ▸ h.distinct k hk⟩
  · cases hc : additions.members.lookup "@context" with
    | none => rfl
    | some v =>
        have hin : "@context" ∈ DOC_META := by decide
        exact absurd hin (additions.arrays ("@context", v) (SortedMap.mem_of_lookup hc)).1

variable [LinearOrder Time]

/-- The rows under the document they extend. -/
theorem append_rowed {rows : List (Row Time)} {base : Map} {shell : Shell} {additions : Additions} (hbase : Solid cast base)
    (hmeta : ∀ k ∈ DOC_META, base.lookup k = shell.members.lookup k) (hunique : (rows.map Row.key).Nodup)
    (hheld : ∀ k d, view rows k = some d ↔ k.1 ∉ DOC_META ∧ d ∈ instances base k.1 ∧ place cast d = some k.2)
    (h : Recordable cast base additions.members) :
    Solid cast (additions.members.foldl Drain.append_attr base) ∧
      ∃ rows', insert_rows cast rows (decompose additions.members) = some rows' ∧
        Rowed cast ⟨meta_of shell.members, rows'⟩ (additions.members.foldl Drain.append_attr base) := by
  have he := h.arriving
  obtain ⟨rows', hrows, hnodup, hview⟩ := insert_some he.solid (fun _ => true) hunique
  rw [List.filter_true] at hrows hview
  rw [append_is_grow fun p hp => (additions.arrays p hp).1]
  set m' := additions.members.foldl (grow_attr fun cur inc => inc.foldl (Grouping.upsert Drain.instance_id) cur) base
  obtain ⟨hmeta', hattrs⟩ := lookup_grow (fun cur inc => inc.foldl (Grouping.upsert Drain.instance_id) cur) he base
  have hlookup : ∀ k ∉ DOC_META, m'.lookup k =
      if instances additions.members k = [] then base.lookup k
      else some (.array (grown (fun cur inc => inc.foldl (Grouping.upsert Drain.instance_id) cur) (instances base k)
        (instances additions.members k))) := by
    intro k hk
    refine hattrs k hk fun v hv => ?_
    obtain ⟨arr, harr, hne, -⟩ := hbase.arrays k hk v hv
    exact ⟨arr, harr, hne⟩
  have hgrown : ∀ k ∉ DOC_META, Lawful cast (instances m' k) ∧ ∀ d, d ∈ instances m' k ↔
      d ∈ instances additions.members k ∨
        (d ∈ instances base k ∧ ∀ v ∈ instances additions.members k, text v "instanceId" ≠ text d "instanceId") := by
    intro k hk
    have hl := hbase.lawful hk
    have hinc := he.solid.lawful hk
    by_cases hnil : instances additions.members k = []
    · have hsame : instances m' k = instances base k := by
        rw [instances, hlookup k hk, if_pos hnil, instances]
      rw [hsame, hnil]
      refine ⟨hl, fun d => ?_⟩
      simp
    · have hsame : instances m' k = grown (fun cur inc => inc.foldl (Grouping.upsert Drain.instance_id) cur)
          (instances base k) (instances additions.members k) := by
        rw [instances, hlookup k hk, if_neg hnil]
        rfl
      rw [hsame, grown, if_neg hnil]
      split_ifs with hb
      · rw [hb]
        exact ⟨hinc, fun d => by simp⟩
      · exact upserted hl hinc
  have hsolid : Solid cast m' := by
    refine ⟨sorted_grow _ _ hbase.sorted, fun k hk v hv => ?_⟩
    have hinst : instances m' k = (v.as_array).getD [] := by rw [instances, hv]; rfl
    rw [hlookup k hk] at hv
    split_ifs at hv with hnil
    · exact hbase.arrays k hk v hv
    · obtain rfl := Option.some.inj hv
      refine ⟨_, rfl, ?_, ?_⟩
      · intro hempty
        obtain ⟨w, hw⟩ := List.exists_mem_of_ne_nil _ hnil
        have hin := ((hgrown k hk).2 w).mpr (.inl hw)
        rw [hinst] at hin
        have hin : w ∈ grown (fun cur inc => inc.foldl (Grouping.upsert Drain.instance_id) cur) (instances base k)
            (instances additions.members k) := hin
        rw [hempty] at hin
        exact absurd hin List.not_mem_nil
      · have hl := (hgrown k hk).1
        rw [hinst] at hl
        exact hl
  refine ⟨hsolid, rows', hrows, SortedMap.sorted_filter _ shell.sorted, fun k => ?_, hnodup, fun k d => ?_⟩
  · rw [lookup_meta_of]
    split_ifs with hk
    · rw [hmeta' k hk, hmeta k hk]
    · rfl
  · rw [hview, sends_iff he.solid, hheld]
    obtain ⟨a, i, o⟩ := k
    constructor
    · rintro (⟨ha, hd, hplace⟩ | ⟨hnone, ha, hd, hplace⟩)
      · exact ⟨ha, ((hgrown a ha).2 d).mpr (.inl hd), hplace⟩
      · refine ⟨ha, ((hgrown a ha).2 d).mpr (.inr ⟨hd, fun v hv hid => ?_⟩), hplace⟩
        have hv' : place cast v = some (i, o) := by
          rw [← hplace, place, place, hid, h.same_time a ha v hv d hd hid]
        obtain ⟨t, ht, hs, -⟩ := (sends_iff he.solid).mpr (⟨ha, hv, hv'⟩ : (a, i, o).1 ∉ DOC_META ∧
          v ∈ instances additions.members (a, i, o).1 ∧ place cast v = some (a, i, o).2)
        exact hnone t ht hs
    · rintro ⟨ha, hd, hplace⟩
      rcases ((hgrown a ha).2 d).mp hd with hd | ⟨hd, hother⟩
      · exact .inl ⟨ha, hd, hplace⟩
      · refine .inr ⟨fun t ht hs => ?_, ha, hd, hplace⟩
        obtain ⟨-, hv, hv'⟩ := (sends_iff he.solid).mp ⟨t, ht, hs, rfl⟩
        refine hother _ hv ?_
        have hid : ∀ v, place cast v = some (i, o) → text v "instanceId" = some i := by
          intro v hv
          obtain ⟨j, hj, hmap⟩ := Option.bind_eq_some_iff.mp hv
          obtain ⟨o', -, heq⟩ := Option.map_eq_some_iff.mp hmap
          have hji : j = i := (Prod.ext_iff.mp heq).1
          rw [hj, hji]
        rw [hid _ hv', hid _ hplace]

end Appending

section Runs

variable {Time : Type} [LinearOrder Time] (cast : Cast Time)

/-- What the two backends keep of one Temporal Evolution. -/
def Same : Option Map → Option (Stored Time) → Prop
  | none, none => True
  | some m, some st => Solid cast m ∧ Rowed cast st m
  | _, _ => False

/-- A document that is there has not expired. -/
def Current (s : Option Map) (now : Time) : Prop := ∀ m, s = some m → not_expired cast m now = true

/-- What an operation must find for the two backends to answer alike. -/
def Orderly (s : Option Map) : Operation Time → Prop
  | .upsert now ts uuid expanded =>
      let expanded := stamp_temporal_instances uuid ts expanded.members
      Current cast s now ∧ Usable cast (s.getD []) expanded ∧
        ∀ k ∉ DOC_META, instances expanded k ≠ [] → Distinct (instances (s.getD []) k)
  | .add now ts uuid expanded =>
      Current cast s now ∧ Usable cast (s.getD []) (stamp_temporal_instances uuid ts expanded.members)
  | .modify now ts _ _ frag =>
      Current cast s now ∧ Readable cast ts ∧ ∀ k ∈ STAMPS, ∀ s, (k, .string s) ∈ frag → Readable cast s
  | .delete_instance now _ _ _ => Current cast s now
  | .delete_attr now _ _ _ _ => Current cast s now
  | .delete now => Current cast s now
  | .append recorded shell additions =>
      recorded = true → (∀ m, s = some m → ∀ k ∈ DOC_META, m.lookup k = shell.members.lookup k) ∧
        Recordable cast (s.getD []) additions.members

def OrderlyRun (s : Option Map) : List (Operation Time) → Prop
  | [] => True
  | op :: ops => Orderly cast s op ∧ OrderlyRun (execute (memory Time) s op).1 ops

variable {cast}

theorem same_cases {s : Option Map} {t : Option (Stored Time)} (h : Same cast s t) :
    (s = none ∧ t = none) ∨ ∃ m st, s = some m ∧ t = some st ∧ Solid cast m ∧ Rowed cast st m := by
  cases s with
  | none =>
      cases t with
      | none => exact .inl ⟨rfl, rfl⟩
      | some st => exact h.elim
  | some m =>
      cases t with
      | none => exact h.elim
      | some st => exact .inr ⟨m, st, rfl, rfl, h⟩

theorem live_eq {s : Option Map} {t : Option (Stored Time)} {now : Time} (h : Same cast s t) (hc : Current cast s now) :
    live cast t now = t := by
  rcases same_cases h with ⟨rfl, rfl⟩ | ⟨m, st, rfl, rfl, -, hst⟩
  · rfl
  · have hexp : not_expired cast st.meta_doc now = true := by
      have hm := hc m rfl
      unfold not_expired at hm ⊢
      rwa [hst.meta_members, if_pos (by decide)]
    rw [live, Option.filter_some, if_pos hexp]

theorem mutate_same {s : Option Map} {t : Option (Stored Time)} {now : Time} (h : Same cast s t)
    (hc : Current cast s now) {f : Map → Map × Bool} (hf : ∀ m n, s = some m → Solid cast n → Solid cast m → Alike n m → Kept cast f m n) :
    (answer_write s ((memory Time).mutate s now f)).2 = (answer_write t ((postgres cast).mutate t now f)).2 ∧
      Same cast (answer_write s ((memory Time).mutate s now f)).1 (answer_write t ((postgres cast).mutate t now f)).1 := by
  have hlive := live_eq h hc
  rcases same_cases h with ⟨rfl, rfl⟩ | ⟨m, st, rfl, rfl, hm, hst⟩
  · exact ⟨rfl, trivial⟩
  · obtain ⟨hn, ha⟩ := hst.reconstruct hm
    have hkept := hf m _ rfl hn hm ha
    have hself := hf m m rfl hm hm (.refl m)
    obtain ⟨st', hwrite, hst'⟩ := write_back_some (hst.alike ⟨fun k hk => (ha.meta_members k hk).symm,
      fun k hk => (ha.instances k hk).symm⟩) hn hkept.solid
    have hmutate : (postgres cast).mutate (some st) now f = some (some st', some (f m).2) := by
      change mutate cast (some st) now f = _
      rw [mutate, hlive]
      dsimp only
      rw [hwrite, Option.map_some, hkept.found]
    rw [hmutate]
    have hsame : Same cast (some (f m).1) (some st') := ⟨hself.solid, hst'.alike hkept.alike⟩
    cases hfound : (f m).2 <;> simp only [memory, answer_write, hfound] <;> exact ⟨trivial, hsame⟩

theorem create_same {expanded : Map} {ts : String} (he : Arriving cast expanded) :
    ∃ st, insert_rows cast [] (decompose (touch ts (SortedMap.insert "createdAt" (.string ts) expanded))) = some st ∧
      Same cast (some (touch ts (SortedMap.insert "createdAt" (.string ts) expanded)))
        (some ⟨meta_of (touch ts (SortedMap.insert "createdAt" (.string ts) expanded)), st⟩) := by
  have hsolid : Solid cast (touch ts (SortedMap.insert "createdAt" (.string ts) expanded)) := by
    refine ⟨sorted_touch _ (SortedMap.sorted_insert _ _ he.solid.sorted), fun k hk v hv => he.solid.arrays k hk v ?_⟩
    rw [lookup_touch_attr _ _ hk, SortedMap.lookup_insert, if_neg] at hv
    · exact hv
    · rintro rfl
      exact hk (by decide)
  obtain ⟨rows, hrows, hrowed⟩ := insert_new hsolid
  exact ⟨rows, hrows, hsolid, hrowed⟩

theorem execute_same {s : Option Map} {t : Option (Stored Time)} {op : Operation Time} (h : Same cast s t)
    (ho : Orderly cast s op) :
    (execute (memory Time) s op).2 = (execute (postgres cast) t op).2 ∧
      Same cast (execute (memory Time) s op).1 (execute (postgres cast) t op).1 := by
  cases op with
  | upsert now ts uuid expanded =>
      obtain ⟨hc, husable, hdistinct⟩ := ho
      have he := arriving_stamped uuid ts expanded husable
      have hlive := live_eq h hc
      have hstep := mutate_same (f := fun target =>
        (merge_temporal (stamp_temporal_instances uuid ts expanded.members) ts target, true)) h hc
        (by
          rintro m n rfl hn hm ha
          exact merge_kept he husable.fresh hdistinct hn hm ha)
      simp only [execute]
      rcases same_cases h with ⟨rfl, rfl⟩ | ⟨m, st, rfl, rfl, hm, hst⟩
      · obtain ⟨rows, hrows, hsame⟩ := @create_same _ _ cast _ ts he
        have hcreate : (postgres cast).create none now (touch ts (SortedMap.insert "createdAt" (.string ts)
            (stamp_temporal_instances uuid ts expanded.members))) = some (some ⟨meta_of (touch ts (SortedMap.insert "createdAt"
              (.string ts) (stamp_temporal_instances uuid ts expanded.members))), rows⟩, true) := by
          change create cast none now _ = _
          rw [create, hlive, hrows]
          rfl
        have hget : (postgres cast).get none now = false := by
          change (live cast none now).isSome = false
          rw [hlive]
          rfl
        simp only [upsert_temporal_local, hget, hcreate, memory]
        exact ⟨rfl, hsame⟩
      · have hget : (postgres cast).get (some st) now = true := by
          change (live cast (some st) now).isSome = true
          rw [hlive]
          rfl
        have hmem : execute (memory Time) (some m) (.upsert now ts uuid expanded) = answer_write (some m)
            ((memory Time).mutate (some m) now fun target =>
              (merge_temporal (stamp_temporal_instances uuid ts expanded.members) ts target, true)) := rfl
        simp only [execute] at hmem
        rw [hmem, upsert_temporal_local, if_pos hget]
        revert hstep
        rcases (postgres cast).mutate (some st) now fun target =>
            (merge_temporal (stamp_temporal_instances uuid ts expanded.members) ts target, true) with _ | ⟨st', _ | _ | _⟩
        · exact fun hstep => hstep
        · intro hstep
          exact absurd (show Answer.no_content = Answer.entity_not_found from hstep.1) (by decide)
        · intro hstep
          exact absurd (show Answer.no_content = Answer.target_not_found from hstep.1) (by decide)
        · exact fun hstep => hstep
  | add now ts uuid expanded =>
      obtain ⟨hc, husable⟩ := ho
      refine mutate_same h hc ?_
      rintro m n rfl hn hm ha
      exact add_kept (arriving_stamped uuid ts expanded husable) husable.fresh hn hm ha
  | modify now ts attr instance_id frag =>
      obtain ⟨hc, hts, hfrag⟩ := ho
      exact mutate_same h hc fun m n _ hn hm ha => modify_kept attr instance_id hts hfrag hn hm ha
  | delete_instance now ts attr instance_id =>
      exact mutate_same h ho fun m n _ hn hm ha => retain_kept attr _ ts hn hm ha
  | delete_attr now ts attr delete_all want_ds =>
      exact mutate_same h ho fun m n _ hn hm ha => delete_attr_kept attr ts hn hm ha delete_all want_ds
  | delete now =>
      have hlive := live_eq h ho
      simp only [execute, postgres, delete, hlive, memory]
      rcases same_cases h with ⟨rfl, rfl⟩ | ⟨m, st, rfl, rfl, hm, hst⟩
      · exact ⟨rfl, trivial⟩
      · exact ⟨rfl, trivial⟩
  | append recorded shell additions =>
      cases recorded with
      | false => exact ⟨rfl, h⟩
      | true =>
          obtain ⟨hshell, hrec⟩ := ho rfl
          rcases same_cases h with ⟨rfl, rfl⟩ | ⟨m, st, rfl, rfl, hm, hst⟩
          · have hempty : ∀ k ∉ DOC_META, shell.members.lookup k = none := by
              intro k hk
              cases hv : shell.members.lookup k with
              | none => rfl
              | some v => exact absurd (shell.only_meta _ (SortedMap.mem_of_lookup hv)) hk
            have hbase : Solid cast shell.members := by
              refine ⟨shell.sorted, fun k hk v hv => ?_⟩
              rw [hempty k hk] at hv
              cases hv
            have hnone : ∀ k ∉ DOC_META, instances shell.members k = [] := by
              intro k hk
              rw [instances, hempty k hk]
              rfl
            have hheld : ∀ k d, view ([] : List (Row Time)) k = some d ↔
                k.1 ∉ DOC_META ∧ d ∈ instances shell.members k.1 ∧ place cast d = some k.2 := by
              intro k d
              constructor
              · intro hd
                cases hd
              · rintro ⟨hk, hd, -⟩
                rw [hnone _ hk] at hd
                cases hd
            have hrec : Recordable cast shell.members additions.members := by
              refine ⟨hrec.castable, hrec.distinct, fun k hk v _ c hcin => ?_⟩
              rw [hnone k hk] at hcin
              cases hcin
            obtain ⟨hsolid, rows, hrows, hrowed⟩ :=
              append_rowed hbase (fun _ _ => rfl) (show (([] : List (Row Time)).map Row.key).Nodup from List.nodup_nil) hheld hrec
            have happend : (postgres cast).append none shell.members additions.members =
                some (some ⟨meta_of shell.members, rows⟩) := by
              change append cast none shell.members additions.members = _
              rw [append, Option.map_none, Option.getD_none, hrows]
              rfl
            simp only [execute, if_true, happend, memory]
            exact ⟨trivial, hsolid, hrowed⟩
          · obtain ⟨hsolid, rows, hrows, hrowed⟩ := append_rowed hm (hshell m rfl) hst.unique hst.held hrec
            have happend : (postgres cast).append (some st) shell.members additions.members =
                some (some ⟨meta_of shell.members, rows⟩) := by
              change append cast (some st) shell.members additions.members = _
              rw [append, Option.map_some, Option.getD_some, hrows]
              rfl
            simp only [execute, if_true, happend, memory]
            exact ⟨trivial, hsolid, hrowed⟩

theorem run_same {s : Option Map} {t : Option (Stored Time)} {ops : List (Operation Time)} (h : Same cast s t)
    (ho : OrderlyRun cast s ops) :
    (run (memory Time) s ops).2 = (run (postgres cast) t ops).2 ∧
      Same cast (run (memory Time) s ops).1 (run (postgres cast) t ops).1 := by
  induction ops generalizing s t with
  | nil => exact ⟨rfl, h⟩
  | cons op ops ih =>
      obtain ⟨hanswer, hsame⟩ := execute_same h ho.1
      obtain ⟨hanswers, hsame⟩ := ih hsame ho.2
      refine ⟨?_, hsame⟩
      rw [run, run]
      dsimp only
      rw [hanswer, hanswers]

end Runs

/-- The rows show the document, up to the order of its instances and to attributes without any. -/
def Shows {Time : Type} [LinearOrder Time] : Option Map → Option (Stored Time) → Prop
  | none, none => True
  | some m, some st => Alike (reconstruct st) m
  | _, _ => False

/-- The same operations leave the same document and are answered the same. -/
theorem rows_are_document {Time : Type} [LinearOrder Time] (cast : Cast Time) (ops : List (Operation Time))
    (h : OrderlyRun cast none ops) :
    (run (memory Time) none ops).2 = (run (postgres cast) none ops).2 ∧
      Shows (run (memory Time) none ops).1 (run (postgres cast) none ops).1 := by
  obtain ⟨hanswers, hsame⟩ := run_same (t := none) (show Same cast none none from trivial) h
  refine ⟨hanswers, ?_⟩
  rcases same_cases hsame with ⟨hs, ht⟩ | ⟨m, st, hs, ht, hm, hst⟩
  · rw [hs, ht]
    trivial
  · rw [hs, ht]
    exact (hst.reconstruct hm).2

section Readings

/-- Texts of one width, in the order of their digits. -/
def digits : Cast ℕ where
  timestamptz s := some (s.toList.foldl (fun n c => n * 256 + c.toNat) 0)
  epoch := rfl

theorem castable_digits (v : Value) : Castable digits v := fun _ _ _ _ => rfl

def reading (instance_id observed_at : String) : Value := .object [
  ("instanceId", .string instance_id), ("observedAt", .string observed_at), ("type", .string "Property")]

def room_members (modified_at : String) : Map := [("createdAt", .string "2026-01-01T00:00:00.000Z"),
  ("id", .string "urn:r"), ("modifiedAt", .string modified_at), ("type", .array [.string "urn:Room"])]

def room (modified_at : String) : Shell where
  members := room_members modified_at
  sorted := List.pairwise_map.mp (show ["createdAt", "id", "modifiedAt", "type"].Pairwise (· < ·) by decide)
  only_meta p hp := (show ∀ k ∈ ["createdAt", "id", "modifiedAt", "type"], k ∈ DOC_META by decide) p.1
    (List.mem_map_of_mem (f := Prod.fst) hp)

def recorded_at (instance_id observed_at : String) : Additions where
  members := [("urn:t", .array [reading instance_id observed_at])]
  sorted := List.pairwise_singleton ..
  arrays p hp := by
    obtain rfl := List.mem_singleton.mp hp
    refine ⟨show "urn:t" ∉ DOC_META by decide, _, rfl, by simp, fun v hv => ?_⟩
    obtain rfl := List.mem_singleton.mp hv
    exact ⟨rfl, rfl⟩

def measured (observed_at : String) : Fragment where
  members := [("urn:t", .array [.object [("observedAt", .string observed_at), ("type", .string "Property")]])]
  sorted := List.pairwise_singleton ..
  no_context := rfl
  arrays p hp _ := by
    obtain rfl := List.mem_singleton.mp hp
    refine ⟨_, rfl, by simp, fun v hv => ?_⟩
    obtain rfl := List.mem_singleton.mp hv
    exact ⟨rfl, .inl rfl⟩

/-- Recorded, then written to, then corrected. -/
def day : List (Operation ℕ) := [
  .append true (room "2026-01-01T00:00:00.000Z") (recorded_at "urn:i1" "2026-01-01T00:00:00.000Z"),
  .add 1 "2026-01-01T02:00:00.000Z" (fun _ _ => "urn:i2") (measured "2026-01-01T01:00:00.000Z"),
  .delete_instance 2 "2026-01-01T03:00:00.000Z" ⟨"urn:t", by decide⟩ "urn:i1"]

theorem instances_single (k : String) (l : List Value) :
    instances [("urn:t", .array l)] k = if k = "urn:t" then l else [] := by
  unfold instances
  rw [List.lookup_cons, List.lookup_nil]
  split_ifs with hk
  · rw [beq_iff_eq.mpr hk]
    rfl
  · rw [beq_eq_false_iff_ne.mpr hk]
    rfl

theorem instances_other {m : Map} {k : String} (hm : ∀ p ∈ m, p.1 ∈ DOC_META ∨ p.1 = "urn:t") (hk : k ∉ DOC_META)
    (hkt : k ≠ "urn:t") : instances m k = [] := by
  have hnone : m.lookup k = none := by
    refine List.lookup_eq_none_iff.mpr fun p hp => ?_
    rw [bne_iff_ne]
    rintro rfl
    exact (hm p hp).elim hk hkt
  rw [instances, hnone]
  rfl

theorem rows_are_document_day : (run (memory ℕ) none day).2 = (run (postgres digits) none day).2 ∧
    Shows (run (memory ℕ) none day).1 (run (postgres digits) none day).1 := by
  refine rows_are_document digits day ⟨fun _ => ⟨fun m hm => (by cases hm), fun k _ v _ => castable_digits v, fun k _ => ?_,
    fun k _ v _ c hc => (by cases hc)⟩, ⟨fun m hm => ?_, fun k _ v _ => castable_digits v, fun k hk => ?_⟩, fun m hm => ?_, trivial⟩
  · rw [recorded_at, instances_single]
    split_ifs <;> simp
  · obtain rfl := Option.some.inj hm
    decide
  · by_cases hkt : k = "urn:t"
    · subst hkt
      decide
    · rw [instances_other (by decide) hk hkt, instances_other (by decide) hk hkt]
      exact List.nodup_nil
  · obtain rfl := Option.some.inj hm
    decide

/-- Recorded twice, and the entity modified between the two. -/
def visits : List (Operation ℕ) := [
  .append true (room "2026-01-01T00:00:00.000Z") (recorded_at "urn:i1" "2026-01-01T00:00:00.000Z"),
  .append true (room "2026-01-01T01:00:00.000Z") (recorded_at "urn:i2" "2026-01-01T01:00:00.000Z")]

theorem rows_are_not_document_of_visits : ¬((run (memory ℕ) none visits).2 = (run (postgres digits) none visits).2 ∧
    Shows (run (memory ℕ) none visits).1 (run (postgres digits) none visits).1) := by
  rintro ⟨-, hshows⟩
  have hmodified := Alike.meta_members hshows "modifiedAt" (by decide)
  revert hmodified
  decide

end Readings

end AntaresBroker.RowStore
