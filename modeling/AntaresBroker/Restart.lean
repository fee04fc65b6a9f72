import AntaresBroker.Shadow

namespace AntaresBroker.Restart

open Json Expiry Mem Shadow

variable {Instant Bytes : Type} [LinearOrder Instant] (chrono : Chrono Instant) (codec : Codec Bytes)

/-- Why a file is refused at start. -/
inductive OpenError
  | format (found : String)
  | unmarked
  | undecodable_key
  | undecodable_value (tenant id : String)
  | undecodable_context (id : String)

/-- An absent marker is written into a file without documents only. -/
def check_format (db : Shadow Bytes) : Except OpenError (Shadow Bytes) :=
  match db.format with
  | some v => if v = FORMAT_VERSION then .ok db else .error (.format v)
  | none =>
      if ALL_KINDS.any (fun kind => !(db.table (.docs kind)).is_empty) then .error .unmarked
      else .ok { db with format := some FORMAT_VERSION }

def rebuild_rows : List (String × Bytes) → Tenants → Except OpenError Tenants
  | [], m => .ok m
  | (key, b) :: rows, m =>
      match split_key key with
      | none => .error .undecodable_key
      | some (tenant, id) =>
          match codec.from_slice b with
          | none => .error (.undecodable_value tenant id)
          | some d => rebuild_rows rows (m.put tenant id d)

def rebuild_kinds (db : Shadow Bytes) : List Kind → Inner → Except OpenError Inner
  | [], inner => .ok inner
  | kind :: kinds, inner =>
      match rebuild_rows codec (db.table (.docs kind)).entries (inner.map kind) with
      | .error e => .error e
      | .ok m => rebuild_kinds db kinds (inner.set_map kind m)

def rebuild_contexts : List (String × Bytes) → BTreeMap String Value → Except OpenError (BTreeMap String Value)
  | [], m => .ok m
  | (id, b) :: rows, m =>
      match codec.from_slice b with
      | none => .error (.undecodable_context id)
      | some d => rebuild_contexts rows (m.insert id d)

def no_documents : Inner := ⟨fun _ => BTreeMap.empty, BTreeMap.empty⟩

/-- The boot rebuild: every table is read back into memory. -/
def from_database (db : Shadow Bytes) : Except OpenError (Store Bytes) :=
  match check_format db with
  | .error e => .error e
  | .ok db =>
      match rebuild_kinds codec db ALL_KINDS no_documents with
      | .error e => .error e
      | .ok inner =>
          match rebuild_contexts codec (db.table .jsonldContexts).entries inner.contexts with
          | .error e => .error e
          | .ok contexts => .ok ⟨{ inner with contexts := contexts }, some db⟩

variable {codec}

theorem rebuild_rows_total {rows : List (String × Bytes)}
    (h : ∀ r ∈ rows, (split_key r.1).isSome ∧ (codec.from_slice r.2).isSome) (m : Tenants) :
    ∃ m', rebuild_rows codec rows m = .ok m' := by
  induction rows generalizing m with
  | nil => exact ⟨m, rfl⟩
  | cons r rows ih =>
      obtain ⟨key, b⟩ := r
      obtain ⟨hk, hb⟩ := h _ List.mem_cons_self
      obtain ⟨⟨t, id⟩, hk⟩ := Option.isSome_iff_exists.mp hk
      obtain ⟨d, hb⟩ := Option.isSome_iff_exists.mp hb
      obtain ⟨m', hm'⟩ := ih (fun r hr => h r (List.mem_cons_of_mem _ hr)) (m.put t id d)
      exact ⟨m', by simpa [rebuild_rows, hk, hb] using hm'⟩

/-- One row of a rebuild that goes through. -/
theorem rebuild_rows_cons {key : String} {b : Bytes} {rows : List (String × Bytes)} {m m' : Tenants}
    (h : rebuild_rows codec ((key, b) :: rows) m = .ok m') :
    ∃ t id d, '\x00' ∉ t.toList ∧ key = key_bytes t id ∧ codec.from_slice b = some d ∧
      rebuild_rows codec rows (m.put t id d) = .ok m' := by
  rw [rebuild_rows] at h
  cases hk : split_key key with
  | none => simp [hk] at h
  | some p =>
      obtain ⟨t, id⟩ := p
      cases hb : codec.from_slice b with
      | none => simp [hk, hb] at h
      | some d =>
          obtain ⟨ht, hkey⟩ := split_key_eq_some hk
          exact ⟨t, id, d, ht, hkey, rfl, by simpa [hk, hb] using h⟩

theorem rebuild_rows_readable {rows : List (String × Bytes)} {m m' : Tenants}
    (h : rebuild_rows codec rows m = .ok m') :
    ∀ r ∈ rows, (split_key r.1).isSome ∧ (codec.from_slice r.2).isSome := by
  induction rows generalizing m with
  | nil => simp
  | cons r rows ih =>
      obtain ⟨key, b⟩ := r
      obtain ⟨t, id, d, ht, rfl, hb, hrest⟩ := rebuild_rows_cons h
      refine List.forall_mem_cons.mpr ⟨?_, ih hrest⟩
      rw [split_key_key_bytes ht, hb]
      exact ⟨rfl, rfl⟩

/-- A rebuilt map answers with the row under the key, and with what it held before if there is none. -/
theorem rebuild_rows_doc {rows : List (String × Bytes)} {m m' : Tenants} (hrows : SortedMap.Sorted rows)
    (h : rebuild_rows codec rows m = .ok m') {t : String} (ht : '\x00' ∉ t.toList) (id : String) :
    m'.doc t id = ((rows.lookup (key_bytes t id)).bind codec.from_slice).or (m.doc t id) := by
  induction rows generalizing m with
  | nil =>
      injection h with h
      simp [h]
  | cons r rows ih =>
      obtain ⟨key, b⟩ := r
      obtain ⟨u, j, d, hu, rfl, hb, hrest⟩ := rebuild_rows_cons h
      obtain ⟨hlt, hrows⟩ := SortedMap.sorted_cons.mp hrows
      rw [ih hrows hrest, SortedMap.lookup_cons, Tenants.doc_put]
      by_cases hkey : key_bytes t id = key_bytes u j
      · rw [if_pos hkey, if_pos ((key_bytes_inj ht hu).mp hkey), hkey, SortedMap.lookup_eq_none_of_lt hlt]
        simp [hb]
      · rw [if_neg hkey, if_neg (fun h => hkey ((key_bytes_inj ht hu).mpr h))]

def NonEmpty (m : Tenants) : Prop := ∀ t docs, m.get t = some docs → docs.is_empty = false

theorem nonEmpty_put {m : Tenants} (h : NonEmpty m) (t id : String) (d : Value) : NonEmpty (m.put t id d) := by
  intro u docs hu
  rw [Tenants.put, BTreeMap.get_insert] at hu
  split_ifs at hu with hut
  · injection hu with hu
    by_contra he
    have hnone := BTreeMap.is_empty_iff.mp (Bool.not_eq_false _ ▸ he)
    have hget := congrArg (fun m => m.get id) (hu.trans hnone)
    simp at hget
  · exact h u docs hu

theorem rebuild_rows_nonEmpty {rows : List (String × Bytes)} {m m' : Tenants}
    (h : rebuild_rows codec rows m = .ok m') (hm : NonEmpty m) : NonEmpty m' := by
  induction rows generalizing m with
  | nil =>
      injection h with h
      exact h ▸ hm
  | cons r rows ih =>
      obtain ⟨key, b⟩ := r
      obtain ⟨t, id, d, -, -, -, hrest⟩ := rebuild_rows_cons h
      exact ih hrest (nonEmpty_put hm t id d)

theorem rebuild_rows_names {rows : List (String × Bytes)} {m m' : Tenants}
    (h : rebuild_rows codec rows m = .ok m') (hm : ∀ t, (m.get t).isSome → '\x00' ∉ t.toList) :
    ∀ t, (m'.get t).isSome → '\x00' ∉ t.toList := by
  induction rows generalizing m with
  | nil =>
      injection h with h
      exact h ▸ hm
  | cons r rows ih =>
      obtain ⟨key, b⟩ := r
      obtain ⟨u, id, d, hu, -, -, hrest⟩ := rebuild_rows_cons h
      refine ih hrest (fun t ht => ?_)
      rcases (Tenants.isSome_get_put m u id t d).mp ht with rfl | ht
      · exact hu
      · exact hm t ht

theorem rebuild_kinds_ok {db : Shadow Bytes} {kinds : List Kind} {inner inner' : Inner} (hn : kinds.Nodup)
    (h : rebuild_kinds codec db kinds inner = .ok inner') :
    inner'.contexts = inner.contexts ∧
      (∀ kind ∈ kinds, rebuild_rows codec (db.table (.docs kind)).entries (inner.map kind) = .ok (inner'.map kind)) ∧
        ∀ kind, kind ∉ kinds → inner'.map kind = inner.map kind := by
  induction kinds generalizing inner with
  | nil =>
      injection h with h
      simp [h]
  | cons kind kinds ih =>
      obtain ⟨hk, hn⟩ := List.nodup_cons.mp hn
      rw [rebuild_kinds] at h
      cases hr : rebuild_rows codec (db.table (.docs kind)).entries (inner.map kind) with
      | error e => simp [hr] at h
      | ok m =>
          simp only [hr] at h
          obtain ⟨hctx, hin, hout⟩ := ih hn h
          refine ⟨hctx, List.forall_mem_cons.mpr ⟨?_, fun k hmem => ?_⟩, fun k hmem => ?_⟩
          · rw [hr, hout kind hk]
            simp [Inner.set_map]
          · have hne : k ≠ kind := fun he => hk (he ▸ hmem)
            simpa [Inner.set_map, hne] using hin k hmem
          · rw [List.mem_cons, not_or] at hmem
            simpa [Inner.set_map, hmem.1] using hout k hmem.2

theorem rebuild_kinds_total {db : Shadow Bytes}
    (h : ∀ kind m, ∃ m', rebuild_rows codec (db.table (.docs kind)).entries m = .ok m') (kinds : List Kind)
    (inner : Inner) : ∃ inner', rebuild_kinds codec db kinds inner = .ok inner' := by
  induction kinds generalizing inner with
  | nil => exact ⟨inner, rfl⟩
  | cons kind kinds ih =>
      obtain ⟨m, hm⟩ := h kind (inner.map kind)
      obtain ⟨inner', hi⟩ := ih (inner.set_map kind m)
      exact ⟨inner', by simpa [rebuild_kinds, hm] using hi⟩

theorem rebuild_contexts_total {rows : List (String × Bytes)} (h : ∀ r ∈ rows, (codec.from_slice r.2).isSome)
    (m : BTreeMap String Value) : ∃ m', rebuild_contexts codec rows m = .ok m' := by
  induction rows generalizing m with
  | nil => exact ⟨m, rfl⟩
  | cons r rows ih =>
      obtain ⟨id, b⟩ := r
      obtain ⟨d, hd⟩ := Option.isSome_iff_exists.mp (h _ List.mem_cons_self)
      obtain ⟨m', hm'⟩ := ih (fun r hr => h r (List.mem_cons_of_mem _ hr)) (m.insert id d)
      exact ⟨m', by simpa [rebuild_contexts, hd] using hm'⟩

theorem rebuild_contexts_get {rows : List (String × Bytes)} {m m' : BTreeMap String Value}
    (hrows : SortedMap.Sorted rows) (h : rebuild_contexts codec rows m = .ok m') :
    (∀ r ∈ rows, (codec.from_slice r.2).isSome) ∧
      ∀ id, m'.get id = ((rows.lookup id).bind codec.from_slice).or (m.get id) := by
  induction rows generalizing m with
  | nil =>
      injection h with h
      simp [h]
  | cons r rows ih =>
      obtain ⟨key, b⟩ := r
      obtain ⟨hlt, hrows⟩ := SortedMap.sorted_cons.mp hrows
      rw [rebuild_contexts] at h
      cases hb : codec.from_slice b with
      | none => simp [hb] at h
      | some d =>
          simp only [hb] at h
          obtain ⟨hread, hget⟩ := ih hrows h
          refine ⟨List.forall_mem_cons.mpr ⟨by simp [hb], hread⟩, fun id => ?_⟩
          rw [hget, SortedMap.lookup_cons, BTreeMap.get_insert]
          by_cases hid : id = key
          · subst hid
            simp [SortedMap.lookup_eq_none_of_lt hlt, hb]
          · simp [hid]

theorem rebuild_table {rows : BTreeMap String Bytes} {m : Tenants}
    (h : rebuild_rows codec rows.entries BTreeMap.empty = .ok m) {t : String} (ht : '\x00' ∉ t.toList)
    (id : String) : m.doc t id = (rows.get (key_bytes t id)).bind codec.from_slice := by
  have hdoc := rebuild_rows_doc rows.sorted h ht id
  rwa [show Tenants.doc BTreeMap.empty t id = none from rfl, Option.or_none] at hdoc

theorem rebuild_context_table {rows : BTreeMap String Bytes} {m : BTreeMap String Value}
    (h : rebuild_contexts codec rows.entries BTreeMap.empty = .ok m) (id : String) :
    m.get id = (rows.get id).bind codec.from_slice := by
  have hget := (rebuild_contexts_get rows.sorted h).2 id
  rwa [BTreeMap.get_empty, Option.or_none] at hget

/-- The memory without the maps that were left empty. -/
def pruned (i : Inner) : Inner := { i with map := fun kind => (i.map kind).filter (fun e => !e.2.is_empty) }

theorem eq_filter_of_doc {m m' : Tenants} (hm : NonEmpty m') (h : ∀ t id, m'.doc t id = m.doc t id) :
    m' = m.filter (fun e => !e.2.is_empty) := by
  refine BTreeMap.ext_get (fun t => ?_)
  have hdoc := h t
  simp only [Tenants.doc] at hdoc
  rw [BTreeMap.get_filter]
  cases hg : m.get t with
  | none =>
      cases hg' : m'.get t with
      | none => rfl
      | some docs' =>
          have hempty : docs' = BTreeMap.empty := BTreeMap.eq_empty_of_get (by simpa [hg, hg'] using hdoc)
          have hne := hm t docs' hg'
          rw [BTreeMap.is_empty_iff.mpr hempty] at hne
          simp at hne
  | some docs =>
      cases hg' : m'.get t with
      | none =>
          have hempty : docs = BTreeMap.empty :=
            BTreeMap.eq_empty_of_get (fun id => by simpa [hg, hg'] using (hdoc id).symm)
          rw [Option.filter_some, hempty, BTreeMap.is_empty_iff.mpr rfl]
          rfl
      | some docs' =>
          have he : docs' = docs := BTreeMap.ext_get (fun id => by simpa [hg, hg'] using hdoc id)
          have hne := hm t docs' hg'
          rw [he] at hne
          rw [he, Option.filter_some, hne]
          rfl

theorem kinds_nodup : ALL_KINDS.Nodup := by decide

theorem mem_all_kinds (kind : Kind) : kind ∈ ALL_KINDS := by cases kind <;> decide

theorem nonEmpty_empty : NonEmpty BTreeMap.empty := by
  intro t docs h
  simp at h

/-- A file the start accepts gives a store that mirrors it, without empty maps. -/
theorem from_database_mirrored {db : Shadow Bytes} {s : Store Bytes} (h : from_database codec db = .ok s) :
    Mirrored codec s ∧ ∀ kind, NonEmpty (s.inner.map kind) := by
  unfold from_database at h
  cases hf : check_format db with
  | error e => simp [hf] at h
  | ok db' =>
      have hformat : db'.format = some FORMAT_VERSION := by
        unfold check_format at hf
        cases hv : db.format with
        | none =>
            rw [hv] at hf
            dsimp only at hf
            split_ifs at hf
            injection hf with hf
            rw [← hf]
        | some v =>
            rw [hv] at hf
            dsimp only at hf
            split_ifs at hf with hversion
            injection hf with hf
            rw [← hf, hv, hversion]
      cases hk : rebuild_kinds codec db' ALL_KINDS no_documents with
      | error e => simp [hf, hk] at h
      | ok inner =>
          cases hc : rebuild_contexts codec (db'.table .jsonldContexts).entries inner.contexts with
          | error e => simp [hf, hk, hc] at h
          | ok contexts =>
              simp only [hf, hk, hc] at h
              injection h with h
              subst h
              obtain ⟨hctx, hmaps, -⟩ := rebuild_kinds_ok kinds_nodup hk
              have hmap (kind : Kind) : rebuild_rows codec (db'.table (.docs kind)).entries BTreeMap.empty =
                  .ok (inner.map kind) := hmaps kind (mem_all_kinds kind)
              obtain ⟨hread, -⟩ := rebuild_contexts_get (db'.table .jsonldContexts).sorted hc
              refine ⟨⟨db', rfl, hformat, ?_, ?_, ?_, ?_, ?_⟩,
                fun kind => rebuild_rows_nonEmpty (hmap kind) nonEmpty_empty⟩
              · intro kind t id ht
                exact (rebuild_table (hmap kind) ht id).symm
              · intro kind key b hb
                exact rebuild_rows_readable (hmap kind) (key, b) (BTreeMap.mem_entries.mpr hb)
              · intro kind t ht
                exact rebuild_rows_names (hmap kind) (by simp) t ht
              · intro id
                rw [hctx] at hc
                exact (rebuild_context_table hc id).symm
              · intro id b hb
                exact hread (id, b) (BTreeMap.mem_entries.mpr hb)

/-- Reopening a mirrored store gives its memory without the empty maps. -/
theorem reopen {s : Store Bytes} (h : Mirrored codec s) :
    ∃ sh, s.shadow = some sh ∧ from_database codec sh = .ok ⟨pruned s.inner, some sh⟩ := by
  obtain ⟨sh, hsh, hformat, hm⟩ := h
  refine ⟨sh, hsh, ?_⟩
  have hcheck : check_format sh = .ok sh := by simp [check_format, hformat]
  obtain ⟨inner, hk⟩ : ∃ inner, rebuild_kinds codec sh ALL_KINDS no_documents = .ok inner :=
    rebuild_kinds_total (fun kind m => rebuild_rows_total
      (fun r hr => hm.rows kind r.1 r.2 (BTreeMap.mem_entries.mp hr)) m) ALL_KINDS no_documents
  obtain ⟨contexts, hc⟩ :
      ∃ m, rebuild_contexts codec (sh.table .jsonldContexts).entries inner.contexts = .ok m :=
    rebuild_contexts_total (fun r hr => hm.context_rows r.1 r.2 (BTreeMap.mem_entries.mp hr)) inner.contexts
  obtain ⟨hctx, hmaps, -⟩ := rebuild_kinds_ok kinds_nodup hk
  have hcontexts : contexts = s.inner.contexts := by
    rw [hctx] at hc
    exact BTreeMap.ext_get (fun id => (rebuild_context_table hc id).trans (hm.contexts id))
  have hmap : inner.map = (pruned s.inner).map := by
    funext kind
    have hrows : rebuild_rows codec (sh.table (.docs kind)).entries BTreeMap.empty = .ok (inner.map kind) :=
      hmaps kind (mem_all_kinds kind)
    refine eq_filter_of_doc (rebuild_rows_nonEmpty hrows nonEmpty_empty) (fun t id => ?_)
    by_cases ht : '\x00' ∈ t.toList
    · have hnone : (inner.map kind).get t = none := by
        by_contra hne
        exact rebuild_rows_names hrows (by simp) t (Option.isSome_iff_ne_none.mpr hne) ht
      have hnone' : (s.inner.map kind).get t = none := by
        by_contra hne
        exact hm.names kind t (Option.isSome_iff_ne_none.mpr hne) ht
      rw [Tenants.doc, Tenants.doc, hnone, hnone']
    · exact (rebuild_table hrows ht id).trans (hm.docs kind t id ht)
  unfold from_database
  simp only [hcheck, hk, hc]
  rw [hcontexts]
  congr 2
  cases inner
  simp_all [pruned]

end AntaresBroker.Restart
