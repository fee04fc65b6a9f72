import AntaresBroker.Mem
import Mathlib.Data.List.TakeWhile

namespace AntaresBroker.Shadow

open Json Expiry Mem

theorem takeWhile_append_nul {t : List Char} (ht : '\x00' ∉ t) (r : List Char) :
    (t ++ '\x00' :: r).takeWhile (· ≠ '\x00') = t ∧ (t ++ '\x00' :: r).dropWhile (· ≠ '\x00') = '\x00' :: r := by
  have h : ∀ c ∈ t, decide (c ≠ '\x00') = true := by
    intro c hc
    exact decide_eq_true (fun he => ht (he ▸ hc))
  rw [List.takeWhile_append_of_pos h, List.dropWhile_append_of_pos h]
  simp

/-- A key is split where it was joined: no tenant name has the separator. -/
theorem split_key_key_bytes {tenant id : String} (ht : '\x00' ∉ tenant.toList) :
    split_key (key_bytes tenant id) = some (tenant, id) := by
  obtain ⟨h1, h2⟩ := takeWhile_append_nul ht id.toList
  rw [split_key, key_bytes, String.toList_ofList, if_pos (by simp), h1, h2]
  simp

theorem split_key_eq_some {key tenant id : String} (h : split_key key = some (tenant, id)) :
    '\x00' ∉ tenant.toList ∧ key = key_bytes tenant id := by
  unfold split_key at h
  split_ifs at h with hmem
  injection h with h
  obtain ⟨ht, hi⟩ := Prod.mk.inj h
  have hne : '\x00' ∉ tenant.toList := by
    rw [← ht, String.toList_ofList]
    intro hc
    simpa using List.mem_takeWhile_imp hc
  refine ⟨hne, ?_⟩
  have hdrop : key.toList.dropWhile (· ≠ '\x00') = '\x00' :: (key.toList.dropWhile (· ≠ '\x00')).tail := by
    cases hd : key.toList.dropWhile (· ≠ '\x00') with
    | nil =>
        exfalso
        have := List.dropWhile_eq_nil_iff.mp hd _ hmem
        simp at this
    | cons c r =>
        have hc := List.head_dropWhile_not (fun c => decide (c ≠ '\x00')) (l := key.toList) (by rw [hd]; simp)
        simp only [hd, List.head_cons, decide_eq_false_iff_not, not_not] at hc
        rw [hc, List.tail_cons]
  rw [key_bytes, ← ht, ← hi, String.toList_ofList, String.toList_ofList, ← hdrop, List.takeWhile_append_dropWhile,
    String.ofList_toList]

theorem key_bytes_inj {t u i j : String} (ht : '\x00' ∉ t.toList) (hu : '\x00' ∉ u.toList) :
    key_bytes t i = key_bytes u j ↔ t = u ∧ i = j := by
  constructor
  · intro h
    have := congrArg split_key h
    rw [split_key_key_bytes ht, split_key_key_bytes hu] at this
    simpa using this
  · rintro ⟨rfl, rfl⟩
    rfl

theorem nul_not_mem (tenant : TenantId) : '\x00' ∉ tenant.name.toList := by
  intro h
  rcases tenant.shape.2.2 _ h with h | h | h <;> revert h <;> decide

variable {Instant Bytes : Type} [LinearOrder Instant] (chrono : Chrono Instant) (codec : Codec Bytes)

/-- The tables hold what the memory holds, row by row, and nothing that does not read back. -/
structure Mirrors (inner : Inner) (sh : Shadow Bytes) : Prop where
  docs : ∀ kind t id, '\x00' ∉ t.toList →
    ((sh.table (.docs kind)).get (key_bytes t id)).bind codec.from_slice = inner.get kind t id
  rows : ∀ kind key b, (sh.table (.docs kind)).get key = some b →
    (split_key key).isSome ∧ (codec.from_slice b).isSome
  names : ∀ kind t, inner.has kind t → '\x00' ∉ t.toList
  contexts : ∀ id, ((sh.table .jsonldContexts).get id).bind codec.from_slice = inner.contexts.get id
  context_rows : ∀ id b, (sh.table .jsonldContexts).get id = some b → (codec.from_slice b).isSome

def FORMAT_VERSION : String := "1"

/-- A store in file mode whose memory is what its tables hold. -/
def Mirrored (s : Store Bytes) : Prop :=
  ∃ sh, s.shadow = some sh ∧ sh.format = some FORMAT_VERSION ∧ Mirrors codec s.inner sh

@[simp] theorem get_write (sh : Shadow Bytes) (table tb : Table) (key k : String) (value : Option Bytes) :
    ((write sh table key value).table tb).get k =
      if tb = table ∧ k = key then value else (sh.table tb).get k := by
  unfold write
  by_cases h : tb = table
  · subst h
    cases value <;> by_cases hk : k = key <;> simp [hk]
  · simp [h]

@[simp] theorem format_write (sh : Shadow Bytes) (table : Table) (key : String) (value : Option Bytes) :
    (write sh table key value).format = sh.format := rfl

theorem persist_some {s : Store Bytes} {sh : Shadow Bytes} (h : s.shadow = some sh) (table : Table) (key : String)
    (d : Value) : ∃ b, codec.from_slice b = some d ∧
      persist codec s table key (some d) = { s with shadow := some (write sh table key (some b)) } := by
  obtain ⟨b, hb, hd⟩ := codec.round_trip d
  exact ⟨b, hd, by simp [persist, h, hb]⟩

theorem persist_none {s : Store Bytes} {sh : Shadow Bytes} (h : s.shadow = some sh) (table : Table) (key : String) :
    persist codec s table key none = { s with shadow := some (write sh table key none) } := by
  simp [persist, h]

@[simp] theorem persist_inner (s : Store Bytes) (table : Table) (key : String) (d : Option Value) :
    (persist codec s table key d).inner = s.inner := by
  unfold persist
  split
  · rfl
  · rfl
  · split <;> rfl

theorem persist_with_inner (s : Store Bytes) (inner : Inner) (table : Table) (key : String) (d : Option Value) :
    { persist codec s table key d with inner := inner } = persist codec { s with inner := inner } table key d := by
  obtain ⟨i, sh⟩ := s
  cases sh with
  | none => rfl
  | some sh =>
      cases d with
      | none => rfl
      | some d =>
          simp only [persist]
          cases codec.to_vec d <;> rfl

variable {codec}

/-- One row and one document change together. -/
theorem Mirrors.write_doc {inner inner' : Inner} {sh : Shadow Bytes} (h : Mirrors codec inner sh) {kind : Kind}
    {t id : String} (ht : '\x00' ∉ t.toList) {value : Option Bytes} {new : Option Value}
    (hv : value.bind codec.from_slice = new) (hsome : ∀ b, value = some b → (codec.from_slice b).isSome)
    (hget : ∀ k u j, inner'.get k u j = if k = kind ∧ u = t ∧ j = id then new else inner.get k u j)
    (hhas : ∀ k u, inner'.has k u → inner.has k u ∨ u = t) (hctx : inner'.contexts = inner.contexts) :
    Mirrors codec inner' (write sh (.docs kind) (key_bytes t id) value) where
  docs k u j hu := by
    rw [get_write, hget]
    by_cases hk : k = kind ∧ u = t ∧ j = id
    · obtain ⟨rfl, rfl, rfl⟩ := hk
      simp [hv]
    · have hne : ¬(Table.docs k = Table.docs kind ∧ key_bytes u j = key_bytes t id) := by
        rintro ⟨hkk, hkey⟩
        exact hk ⟨Table.docs.inj hkk, (key_bytes_inj hu ht).mp hkey⟩
      rw [if_neg hne, if_neg hk, h.docs k u j hu]
  rows k key b hb := by
    rw [get_write] at hb
    split_ifs at hb with hk
    · rw [hk.2, split_key_key_bytes ht]
      exact ⟨rfl, hsome b hb⟩
    · exact h.rows k key b hb
  names k u hu := by
    rcases hhas k u hu with hu | rfl
    · exact h.names k u hu
    · exact ht
  contexts j := by rw [get_write, if_neg (by simp), hctx, h.contexts]
  context_rows j b hb := by
    rw [get_write, if_neg (by simp)] at hb
    exact h.context_rows j b hb

/-- A change of memory that no read of a document sees needs no write. -/
theorem Mirrors.unwritten {inner inner' : Inner} {sh : Shadow Bytes} (h : Mirrors codec inner sh)
    (hget : ∀ k u j, inner'.get k u j = inner.get k u j)
    (hhas : ∀ k u, inner'.has k u → '\x00' ∉ u.toList) (hctx : inner'.contexts = inner.contexts) :
    Mirrors codec inner' sh where
  docs k u j hu := by rw [hget, h.docs k u j hu]
  rows := h.rows
  names := hhas
  contexts j := by rw [hctx, h.contexts]
  context_rows := h.context_rows

theorem Mirrors.write_context {inner : Inner} {sh : Shadow Bytes} (h : Mirrors codec inner sh) {id : String}
    {value : Option Bytes} {new : Option Value} {contexts : BTreeMap String Value}
    (hv : value.bind codec.from_slice = new) (hsome : ∀ b, value = some b → (codec.from_slice b).isSome)
    (hctx : ∀ j, contexts.get j = if j = id then new else inner.contexts.get j) :
    Mirrors codec { inner with contexts := contexts } (write sh .jsonldContexts id value) where
  docs k u j hu := by rw [get_write, if_neg (by simp)]; exact h.docs k u j hu
  rows k key b hb := by
    rw [get_write, if_neg (by simp)] at hb
    exact h.rows k key b hb
  names := h.names
  contexts j := by
    rw [get_write, hctx]
    by_cases hj : j = id
    · simp [hj, hv]
    · simp [hj, h.contexts]
  context_rows j b hb := by
    rw [get_write] at hb
    split_ifs at hb with hj
    · exact hsome b hb
    · exact h.context_rows j b hb

theorem Mirrored.put {s : Store Bytes} (h : Mirrored codec s) (kind : Kind) {t : String} (id : String) (d : Value)
    (ht : '\x00' ∉ t.toList) :
    Mirrored codec (persist codec { s with inner := s.inner.insert kind t id d } (.docs kind) (key_bytes t id)
      (some d)) := by
  obtain ⟨sh, hsh, hf, hm⟩ := h
  obtain ⟨b, hb, hp⟩ := persist_some codec (s := { s with inner := s.inner.insert kind t id d }) hsh (.docs kind)
    (key_bytes t id) d
  rw [hp]
  refine ⟨_, rfl, hf, hm.write_doc ht (show (some b).bind codec.from_slice = some d by simp [hb]) ?_ (by simp) ?_ rfl⟩
  · rintro b' ⟨⟩
    simp [hb]
  · intro k u hu
    rw [Inner.has_insert] at hu
    tauto

theorem Mirrored.remove {s : Store Bytes} (h : Mirrored codec s) (kind : Kind) {t : String} (id : String)
    (ht : '\x00' ∉ t.toList) :
    Mirrored codec (persist codec { s with inner := s.inner.remove kind t id } (.docs kind) (key_bytes t id) none) := by
  obtain ⟨sh, hsh, hf, hm⟩ := h
  rw [persist_none codec (s := { s with inner := s.inner.remove kind t id }) hsh]
  refine ⟨_, rfl, hf, hm.write_doc ht (show (none : Option Bytes).bind codec.from_slice = none from rfl) (by simp) (by simp) ?_ rfl⟩
  intro k u hu
  rw [Inner.has_remove] at hu
  exact Or.inl hu

theorem Mirrored.unwritten {s : Store Bytes} (h : Mirrored codec s) {inner : Inner}
    (hget : ∀ k u j, inner.get k u j = s.inner.get k u j) (hhas : ∀ k u, inner.has k u → '\x00' ∉ u.toList)
    (hctx : inner.contexts = s.inner.contexts) : Mirrored codec { s with inner := inner } := by
  obtain ⟨sh, hsh, hf, hm⟩ := h
  exact ⟨sh, hsh, hf, hm.unwritten hget hhas hctx⟩

theorem Mirrored.names {s : Store Bytes} (h : Mirrored codec s) {kind : Kind} {t : String}
    (ht : s.inner.has kind t) : '\x00' ∉ t.toList := by
  obtain ⟨_, _, _, hm⟩ := h
  exact hm.names kind t ht

theorem Mirrored.put_context {s : Store Bytes} (h : Mirrored codec s) (id : String) (d : Value) :
    Mirrored codec { persist codec s .jsonldContexts id (some d) with
      inner := { s.inner with contexts := s.inner.contexts.insert id d } } := by
  obtain ⟨sh, hsh, hf, hm⟩ := h
  obtain ⟨b, hb, hp⟩ := persist_some codec hsh .jsonldContexts id d
  rw [hp]
  refine ⟨_, rfl, hf, hm.write_context (show (some b).bind codec.from_slice = some d by simp [hb]) ?_ (by simp)⟩
  rintro b' ⟨⟩
  simp [hb]

theorem Mirrored.remove_context {s : Store Bytes} (h : Mirrored codec s) (id : String) :
    Mirrored codec (remove_context codec s id) := by
  obtain ⟨sh, hsh, hf, hm⟩ := h
  rw [Mem.remove_context, persist_none codec hsh]
  exact ⟨_, rfl, hf, hm.write_context (show (none : Option Bytes).bind codec.from_slice = none from rfl) (by simp) (by simp)⟩

section Operations

variable {s : Store Bytes} {now : String} {tenant : TenantId} {kind : Kind} {id : String} {d : Value}

theorem Mirrored.create (h : Mirrored codec s) : Mirrored codec (create chrono codec s now tenant kind id d).1 := by
  have hentry : Mirrored codec { s with inner := s.inner.entry kind tenant.name } := by
    refine h.unwritten (by simp) ?_ rfl
    intro k u hu
    rw [Inner.has_entry] at hu
    rcases hu with ⟨-, rfl⟩ | hu
    · exact nul_not_mem tenant
    · exact h.names hu
  unfold Mem.create
  dsimp only
  split_ifs
  · exact hentry
  · exact hentry.put kind id d (nul_not_mem tenant)

theorem Mirrored.upsert (h : Mirrored codec s) : Mirrored codec (upsert chrono codec s now tenant kind id d).1 :=
  h.put kind id d (nul_not_mem tenant)

theorem Mirrored.delete (h : Mirrored codec s) : Mirrored codec (delete chrono codec s now tenant kind id).1 := by
  unfold Mem.delete
  dsimp only
  split_ifs with hexp hsome
  · exact h
  · exact h.remove kind id (nul_not_mem tenant)
  · refine h.unwritten ?_ ?_ rfl
    · intro k u j
      rw [Inner.get_remove]
      split_ifs with hk
      · obtain ⟨rfl, rfl, rfl⟩ := hk
        exact (Option.not_isSome_iff_eq_none.mp hsome).symm
      · rfl
    · intro k u hu
      rw [Inner.has_remove] at hu
      exact h.names hu

theorem Mirrored.delete_if (h : Mirrored codec s) (keep : Value → Bool) :
    Mirrored codec (delete_if chrono codec s now tenant id keep).1 := by
  unfold Mem.delete_if
  split_ifs with hexp
  · exact h
  · cases hg : s.inner.get .entity tenant.name id with
    | none => exact h
    | some doc =>
        dsimp only
        split_ifs
        · exact h.remove .entity id (nul_not_mem tenant)
        · exact h

theorem insert_get (i : Inner) {t : String} (hg : i.get kind t id = some d) (k : Kind) (u j : String) :
    (i.insert kind t id d).get k u j = i.get k u j := by
  rw [Inner.get_insert]
  split_ifs with hk
  · obtain ⟨rfl, rfl, rfl⟩ := hk
    exact hg.symm
  · rfl

theorem Mirrored.mutate {T E : Type} (h : Mirrored codec s) (f : Value → Except E (T × Value)) :
    Mirrored codec (mutate chrono codec s now tenant kind id f).1 := by
  unfold Mem.mutate
  split_ifs with hexp
  · exact h
  · cases hg : s.inner.get kind tenant.name id with
    | none => exact h
    | some before =>
        dsimp only
        cases hf : f before with
        | error e => exact h
        | ok r =>
            obtain ⟨t, candidate⟩ := r
            dsimp only
            by_cases hc : candidate = before
            · subst hc
              rw [if_neg (by simp)]
              refine h.unwritten (insert_get s.inner hg) ?_ rfl
              intro k u hu
              rw [Inner.has_insert] at hu
              rcases hu with ⟨-, rfl⟩ | hu
              · exact nul_not_mem tenant
              · exact h.names hu
            · rw [if_pos hc, persist_with_inner]
              exact h.put kind id candidate (nul_not_mem tenant)

theorem Mirrored.reap {r : Store Bytes × Nat} (h : Mirrored codec r.1) (p : String × String) :
    Mirrored codec (reap codec r p).1 := by
  unfold Mem.reap
  cases hm : (r.1.inner.map .entity).get p.1 with
  | none => exact h
  | some docs =>
      have hhas : r.1.inner.has .entity p.1 := by simp [Inner.has, hm]
      have ht : '\x00' ∉ p.1.toList := h.names hhas
      dsimp only
      rw [persist_with_inner]
      exact h.remove .entity p.2 ht

theorem Mirrored.prune_doc {r : Store Bytes × Nat} (h : Mirrored codec r.1) (p : String × String) :
    Mirrored codec (prune_doc chrono codec now kind r p).1 := by
  unfold Mem.prune_doc
  cases hg : r.1.inner.get kind p.1 p.2 with
  | none => exact h
  | some doc =>
      have ht : '\x00' ∉ p.1.toList := h.names (Inner.has_of_get (by rw [hg]; rfl))
      dsimp only
      split_ifs
      · exact h.put kind p.2 _ ht
      · exact h

/-- A loop over the store keeps what each of its steps keeps. -/
theorem Mirrored.foldl {α β : Type} {step : Store Bytes × α → β → Store Bytes × α}
    (hstep : ∀ r b, Mirrored codec r.1 → Mirrored codec (step r b).1) (bs : List β) {r : Store Bytes × α}
    (h : Mirrored codec r.1) : Mirrored codec (bs.foldl step r).1 := by
  induction bs generalizing r with
  | nil => exact h
  | cons b bs ih => exact ih (hstep r b h)

theorem Mirrored.sweep_expired (h : Mirrored codec s) :
    Mirrored codec (sweep_expired chrono codec s now).1 := by
  refine Mirrored.foldl (fun r b hr => hr.prune_doc chrono b) _ ?_
  refine Mirrored.foldl (fun r b hr => hr.prune_doc chrono b) _ ?_
  exact Mirrored.foldl (fun r b hr => hr.reap b) _ h

/-- The rows of one tenant and kind go one by one. -/
theorem foldl_persist_none (codec : Codec Bytes) (kind : Kind) {sh : Shadow Bytes} (keys : List String) (t : String) (s : Store Bytes)
    (hs : s.shadow = some sh) :
    ∃ sh', keys.foldl (fun s id => persist codec s (.docs kind) (key_bytes t id) none) s =
        { s with shadow := some sh' } ∧ sh'.format = sh.format ∧
      ∀ tb key, (sh'.table tb).get key =
        if tb = .docs kind ∧ key ∈ keys.map (key_bytes t) then none else (sh.table tb).get key := by
  induction keys generalizing s sh with
  | nil => exact ⟨sh, by simp [← hs], rfl, by simp⟩
  | cons id keys ih =>
      rw [List.foldl_cons, persist_none codec hs]
      obtain ⟨sh', he, hf, hget⟩ := ih (s := { s with shadow := some (write sh (.docs kind) (key_bytes t id) none) }) rfl
      refine ⟨sh', he, hf, fun tb key => ?_⟩
      rw [hget, get_write]
      simp only [List.map_cons, List.mem_cons]
      by_cases htb : tb = .docs kind
      · by_cases hk : key = key_bytes t id <;> simp [htb, hk]
      · simp [htb]

theorem Mirrored.purge_kind {r : Store Bytes × Bool} (h : Mirrored codec r.1) (kind : Kind) :
    Mirrored codec (purge_kind codec tenant r kind).1 := by
  unfold Mem.purge_kind
  cases hm : (r.1.inner.map kind).get tenant.name with
  | none => exact h
  | some docs =>
      obtain ⟨sh, hsh, hf, hm'⟩ := h
      have ht := nul_not_mem tenant
      obtain ⟨sh', he, hf', hget⟩ := foldl_persist_none codec kind docs.keys tenant.name
        { r.1 with inner := r.1.inner.drop kind tenant.name } hsh
      dsimp only at he ⊢
      rw [he]
      refine ⟨sh', rfl, by rw [hf', hf], ?_, ?_, ?_, ?_, ?_⟩
      · intro k u j hu
        rw [hget, Inner.get_drop]
        by_cases hk : k = kind ∧ u = tenant.name
        · obtain ⟨rfl, rfl⟩ := hk
          rw [if_pos (⟨rfl, rfl⟩ : k = k ∧ tenant.name = tenant.name)]
          by_cases hj : j ∈ docs.keys
          · rw [if_pos ⟨rfl, List.mem_map_of_mem hj⟩, Option.bind_none]
          · have hnone : docs.get j = none := by
              simpa [BTreeMap.mem_keys] using hj
            have hdoc := hm'.docs k tenant.name j hu
            rw [Inner.get, Tenants.doc, hm, Option.bind_some, hnone] at hdoc
            split_ifs <;> simp [hdoc]
        · have hne : ¬(Table.docs k = Table.docs kind ∧ key_bytes u j ∈ docs.keys.map (key_bytes tenant.name)) := by
            rintro ⟨hkk, hmem⟩
            obtain ⟨i, -, hi⟩ := List.mem_map.mp hmem
            exact hk ⟨Table.docs.inj hkk, ((key_bytes_inj ht hu).mp hi).1.symm⟩
          rw [if_neg hne, if_neg hk]
          exact hm'.docs k u j hu
      · intro k key b hb
        rw [hget] at hb
        split_ifs at hb
        exact hm'.rows k key b hb
      · intro k u hu
        rw [Inner.has_drop] at hu
        exact hm'.names k u hu.1
      · intro j
        rw [hget, if_neg (by simp)]
        exact hm'.contexts j
      · intro j b hb
        rw [hget, if_neg (by simp)] at hb
        exact hm'.context_rows j b hb

theorem Mirrored.purge_kinds (h : Mirrored codec s) (kinds : List Kind) :
    Mirrored codec (purge_kinds codec s tenant kinds).1 :=
  Mirrored.foldl (fun _ kind hr => hr.purge_kind kind) kinds h

theorem Mirrored.remove_contexts (h : Mirrored codec s) (ids : List String) :
    Mirrored codec (ids.foldl (Mem.remove_context codec) s) := by
  induction ids generalizing s with
  | nil => exact h
  | cons id ids ih => exact ih (h.remove_context id)

theorem Mirrored.purge_tenant (h : Mirrored codec s) : Mirrored codec (purge_tenant codec s tenant).1 := by
  have hk : Mirrored codec (Mem.purge_kinds codec s tenant ALL_KINDS).1 := h.purge_kinds ALL_KINDS
  unfold Mem.purge_tenant
  generalize Mem.purge_kinds codec s tenant ALL_KINDS = r at hk ⊢
  exact hk.remove_contexts _

theorem Mirrored.context_put (h : Mirrored codec s) (owner : Option TenantId) :
    Mirrored codec (context_put codec s owner id d).1 := by
  unfold Mem.context_put
  split_ifs with hv
  · dsimp only
    split_ifs
    · exact (h.put_context id d).remove_contexts _
    · exact h.put_context id d
  · exact h

theorem Mirrored.context_delete (h : Mirrored codec s) (owner : Option TenantId) :
    Mirrored codec (context_delete codec s owner id).1 := by
  unfold Mem.context_delete
  split_ifs
  · exact h.remove_context id
  · exact h

end Operations

end AntaresBroker.Shadow
