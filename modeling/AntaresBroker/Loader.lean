import AntaresBroker.CoreTerms

namespace AntaresBroker.JsonLd

open Json Text

/-- The serialized length up to which a merged context is cached. -/
def MAX_MERGED_KEY_BYTES : Nat := 8 * 1024

/-- A document in the cache: until when it is fresh, and the Tenant it belongs to. -/
structure FetchedDoc (T : Type) where
  value : Value
  stale_at : Option Nat
  owner : Option T

section Serving

variable {T : Type} [DecidableEq T]

/-- Whether the document resolves for a Tenant, or for a resolution with none. -/
def FetchedDoc.serves (doc : FetchedDoc T) (tenant : Option T) : Bool :=
  match doc.owner, tenant with
  | none, _ => true
  | some _, none => false
  | some owner, some t => decide (owner = t)

def FetchedDoc.is_stale (doc : FetchedDoc T) (now : Nat) : Bool := doc.stale_at.any (fun t => decide (t ≤ now))

theorem owner_of_serves {doc : FetchedDoc T} {tenant : Option T} (h : doc.serves tenant = true) :
    doc.owner = none ∨ doc.owner = tenant := by
  obtain ⟨value, stale_at, owner⟩ := doc
  cases owner with
  | none => exact .inl rfl
  | some o =>
      cases tenant with
      | none => cases h
      | some t => exact .inr (congrArg some (of_decide_eq_true h))

end Serving

/-- A document that a resolution has read. -/
structure Source (T : Type) where
  url : String
  value : Value
  owner : Option T

def FetchedDoc.under {T : Type} (doc : FetchedDoc T) (url : String) : Source T := ⟨url, doc.value, doc.owner⟩

def Source.answered {T : Type} (s : Source T) : String × Except LoadError Value := (s.url, .ok s.value)

/-- A merged context, and the documents it was built from, which the cache itself does not hold. -/
structure Built (T : Type) where
  user : Value
  ctx : Context
  sources : List (Source T)

/-- A resolution under way; where it waits for a document, the stale copy that it has found of it. -/
structure Task (T : Type) where
  tenant : Option T
  user : Value
  sources : List (Source T)
  waiting : Option (Option Value)

structure State (T : Type) where
  fetched : BTreeMap String (FetchedDoc T)
  merged : BTreeMap String (Built T)
  merged_urls : BTreeMap String (List String)
  tasks : List (Task T)
  now : Nat

def State.start {T : Type} : State T := ⟨.empty, .empty, .empty, [], 0⟩

section Steps

variable (web : Web) (core : Value) (to_string : Value → String) {T : Type} [DecidableEq T]

/-- What is left of the merge after the documents read. -/
def Task.rest (t : Task T) : Option (Crawl Crawled) :=
  (merge_entry web LEVELS none .start t.user).fed (t.sources.map Source.answered)

/-- The document that a resolution is about to fetch. -/
def Task.asks (t : Task T) : Option String := (t.rest web).bind Ask.question

def Task.reads (t : Task T) (s : Source T) : Task T := { t with sources := t.sources ++ [s], waiting := none }

def Task.begins (tenant : Option T) (user : Value) : Task T := ⟨tenant, user, [], none⟩

/-- The merge behind a cached context can be shown fresh and to belong to the Tenant. -/
def State.merged_hit_is_usable (s : State T) (key : String) (tenant : Option T) : Bool :=
  match s.merged_urls.get key with
  | none => false
  | some urls =>
      urls.all (fun url =>
        match s.fetched.get url with
        | some doc => doc.serves tenant && !doc.is_stale s.now
        | none => web.is_pinned_core url)

/-- Whether a cached merge is dropped with a document. -/
def State.uses (s : State T) (url key : String) : Bool :=
  match s.merged_urls.get key with
  | some urls => decide (url ∈ urls)
  | none => true

def State.invalidate_merged_using (s : State T) (url : String) : State T :=
  { s with
    merged := s.merged.filter (fun p => !s.uses url p.1)
    merged_urls := s.merged_urls.filter (fun p => !((s.merged.get p.1).isSome && decide (url ∈ p.2))) }

def State.insert (s : State T) (url : String) (doc : FetchedDoc T) : State T :=
  { s with fetched := s.fetched.insert url doc }

/-- The merge of a finished resolution is kept where its key is not too long. -/
def State.keep (s : State T) (b : Built T) : State T :=
  if len (to_string b.user) ≤ MAX_MERGED_KEY_BYTES then
    { s with
      merged := s.merged.insert (to_string b.user) b
      merged_urls := s.merged_urls.insert (to_string b.user) (b.sources.map Source.url) }
  else s

/-- The context of a resolution that has merged everything. -/
def Task.built (t : Task T) (c : Crawled) : Built T := ⟨t.user, completed core c.ctx, t.sources⟩

/-- A cache that has lost some of its entries. -/
def Sub {α : Type} (m m' : BTreeMap String α) : Prop := ∀ k a, m'.get k = some a → m.get k = some a

inductive Act (T : Type)
  | hit (tenant : Option T) (user : Value) (b : Built T)
  | begin (tenant : Option T) (user : Value)
  | pinned (t : Task T) (s : Source T)
  | cached (t : Task T) (s : Source T)
  | miss (t : Task T) (url : String)
  | hosted (t : Task T) (url : String) (doc : FetchedDoc T)
  | downloaded (t : Task T) (url : String) (doc : FetchedDoc T)
  | finish (t : Task T) (c : Crawled)
  | give_up (t : Task T)
  | put (url : String) (doc : FetchedDoc T)
  | evict (url : String)
  | reinsert (url : String) (doc : FetchedDoc T)
  | lose
  | tick

/-- The copy of a document that the cache holds and no resolution takes any more. -/
def State.stale_copy (s : State T) (url : String) : Option Value :=
  (s.fetched.get url).bind (fun doc => if doc.is_stale s.now then some doc.value else none)

/-- A refreshed copy that differs from the stale one drops the merges with it. -/
def State.refreshed (s : State T) (url : String) (old : Option Value) (doc : FetchedDoc T) : State T :=
  (if old.any (fun v => decide (v ≠ doc.value)) then s.invalidate_merged_using url else s).insert url doc

/-- The steps of the requests, between which any other may step. -/
inductive Step : State T → Act T → State T → Prop
  | hit {s : State T} {tenant : Option T} {user : Value} {b : Built T} (h : s.merged.get (to_string user) = some b)
      (husable : s.merged_hit_is_usable web (to_string user) tenant = true) : Step s (.hit tenant user b) s
  -- also where a hit is not taken because a row behind it is gone
  | begin {s : State T} {tenant : Option T} {user : Value} :
      Step s (.begin tenant user) { s with tasks := .begins tenant user :: s.tasks }
  | pinned {s : State T} {t : Task T} {pre post : List (Task T)} {url : String} {v : Value}
      (ht : s.tasks = pre ++ t :: post) (hurl : t.asks web = some url) (hv : web.pinned url = some v) :
      Step s (.pinned t ⟨url, v, none⟩) { s with tasks := pre ++ t.reads ⟨url, v, none⟩ :: post }
  | cached {s : State T} {t : Task T} {pre post : List (Task T)} {url : String} {doc : FetchedDoc T}
      (ht : s.tasks = pre ++ t :: post) (hurl : t.asks web = some url) (hv : web.pinned url = none)
      (hdoc : s.fetched.get url = some doc) (hserves : doc.serves t.tenant = true) (hfresh : doc.is_stale s.now = false) :
      Step s (.cached t (doc.under url)) { s with tasks := pre ++ t.reads (doc.under url) :: post }
  | miss {s : State T} {t : Task T} {pre post : List (Task T)} {url : String}
      (ht : s.tasks = pre ++ t :: post) (hurl : t.asks web = some url) (hv : web.pinned url = none)
      (hdoc : ∀ doc, s.fetched.get url = some doc → doc.serves t.tenant = true ∧ doc.is_stale s.now = true) :
      Step s (.miss t url) { s with tasks := pre ++ { t with waiting := some (s.stale_copy url) } :: post }
  | hosted {s : State T} {t : Task T} {pre post : List (Task T)} {url : String} {old : Option Value} {doc : FetchedDoc T}
      (ht : s.tasks = pre ++ t :: post) (hurl : t.asks web = some url) (hv : web.pinned url = none)
      (hwait : t.waiting = some old) (hdoc : doc.stale_at = none) (hserves : doc.serves t.tenant = true) :
      Step s (.hosted t url doc) { s.insert url doc with tasks := pre ++ t.reads (doc.under url) :: post }
  | downloaded {s : State T} {t : Task T} {pre post : List (Task T)} {url : String} {old : Option Value} {doc : FetchedDoc T}
      (ht : s.tasks = pre ++ t :: post) (hurl : t.asks web = some url) (hv : web.pinned url = none)
      (hwait : t.waiting = some old) (hdoc : doc.owner = none) :
      Step s (.downloaded t url doc) { s.refreshed url old doc with tasks := pre ++ t.reads (doc.under url) :: post }
  | finish {s : State T} {t : Task T} {pre post : List (Task T)} {c : Crawled}
      (ht : s.tasks = pre ++ t :: post) (hrest : t.rest web = some (.done (.ok c))) :
      Step s (.finish t c) { s.keep to_string (t.built core c) with tasks := pre ++ post }
  | give_up {s : State T} {t : Task T} {pre post : List (Task T)} (ht : s.tasks = pre ++ t :: post) :
      Step s (.give_up t) { s with tasks := pre ++ post }
  -- a document that is stored here or downloaded again on request
  | put {s : State T} {url : String} {doc : FetchedDoc T} :
      Step s (.put url doc) ((s.insert url doc).invalidate_merged_using url)
  | evict {s : State T} {url : String} :
      Step s (.evict url) (({ s with fetched := s.fetched.remove url } : State T).invalidate_merged_using url)
  -- a persisted copy at start, the copy put back after a failed reload, the copy of a counted use
  | reinsert {s : State T} {url : String} {doc : FetchedDoc T} : Step s (.reinsert url doc) (s.insert url doc)
  | lose {s s' : State T} (hf : Sub s.fetched s'.fetched) (hm : Sub s.merged s'.merged) (hu : Sub s.merged_urls s'.merged_urls)
      (ht : s'.tasks = s.tasks) (hnow : s'.now = s.now) : Step s .lose s'
  | tick {s : State T} : Step s .tick { s with now := s.now + 1 }

/-- The context that a step hands to a request, with the Tenant and the user `@context` it is for. -/
def Act.serves (a : Act T) : Option (Option T × Value × Built T) :=
  match a with
  | .hit tenant user b => some (tenant, user, b)
  | .finish t c => some (t.tenant, t.user, t.built core c)
  | _ => none

/-- The document that a step brings into the cache. -/
def Act.brings (a : Act T) : Option (String × FetchedDoc T) :=
  match a with
  | .hosted _ url doc | .downloaded _ url doc | .put url doc | .reinsert url doc => some (url, doc)
  | _ => none

/-- The states of the runs in which the documents that come in meet a condition. -/
inductive Reached (meets : Source T → Prop) : State T → Prop
  | start : Reached meets .start
  | step {s s' : State T} {a : Act T} (h : Reached meets s) (hs : Step web core to_string s a s')
      (hbrings : ∀ url doc, a.brings = some (url, doc) → meets (doc.under url)) : Reached meets s'

end Steps

section Isolation

variable {web : Web} {core : Value} {to_string : Value → String} {T : Type} [DecidableEq T] {meets : Source T → Prop}

/-- A built context is the merge of its user `@context` over its documents. -/
structure Faithful (web : Web) (core : Value) (b : Built T) : Prop where
  merged : ∃ c, (merge_entry web LEVELS none .start b.user).fed (b.sources.map Source.answered) = some (.done (.ok c)) ∧
    b.ctx = completed core c.ctx

/-- What every step keeps: all documents in the cache or behind a merge meet the condition, what
is merged is faithful to its documents, and the URLs kept beside it are theirs. -/
structure Inv (web : Web) (core : Value) (to_string : Value → String) (meets : Source T → Prop) (s : State T) : Prop where
  cached : ∀ url doc, s.fetched.get url = some doc → meets (doc.under url)
  key : ∀ key b, s.merged.get key = some b → to_string b.user = key
  faithful : ∀ key b, s.merged.get key = some b → Faithful web core b
  sources : ∀ key b, s.merged.get key = some b → ∀ src ∈ b.sources, meets src
  urls : ∀ key b urls, s.merged.get key = some b → s.merged_urls.get key = some urls → urls = b.sources.map Source.url
  reading : ∀ t ∈ s.tasks, ∀ src ∈ t.sources, meets src ∧ (src.owner = none ∨ src.owner = t.tenant)

omit [DecidableEq T] in
theorem inv_start : Inv web core to_string meets (.start : State T) where
  cached url doc h := by cases h
  key key b h := by cases h
  faithful key b h := by cases h
  sources key b h := by cases h
  urls key b urls h := by cases h
  reading t ht := by cases ht

variable {s s' : State T}

omit [DecidableEq T] in
theorem Inv.sub (h : Inv web core to_string meets s) (hf : Sub s.fetched s'.fetched) (hm : Sub s.merged s'.merged)
    (hu : Sub s.merged_urls s'.merged_urls) (ht : s'.tasks = s.tasks) : Inv web core to_string meets s' where
  cached url doc hdoc := h.cached url doc (hf url doc hdoc)
  key key b hb := h.key key b (hm key b hb)
  faithful key b hb := h.faithful key b (hm key b hb)
  sources key b hb := h.sources key b (hm key b hb)
  urls key b urls hb hurls := h.urls key b urls (hm key b hb) (hu key urls hurls)
  reading t hmem := h.reading t (ht ▸ hmem)

theorem sub_refl {α : Type} (m : BTreeMap String α) : Sub m m := fun _ _ h => h

theorem sub_filter {α : Type} (m : BTreeMap String α) (p : String × α → Bool) : Sub m (m.filter p) := by
  intro k a h
  rw [BTreeMap.get_filter] at h
  exact Option.eq_some_of_filter_eq_some h

theorem sub_remove {α : Type} (m : BTreeMap String α) (k : String) : Sub m (m.remove k) := by
  intro l a h
  rw [BTreeMap.get_remove] at h
  split_ifs at h
  exact h

omit [DecidableEq T] in
theorem Inv.invalidate (h : Inv web core to_string meets s) (url : String) :
    Inv web core to_string meets (s.invalidate_merged_using url) :=
  h.sub (sub_refl _) (sub_filter _ _) (sub_filter _ _) rfl

omit [DecidableEq T] in
theorem Inv.insert (h : Inv web core to_string meets s) {url : String} {doc : FetchedDoc T} (hdoc : meets (doc.under url)) :
    Inv web core to_string meets (s.insert url doc) where
  cached url' doc' hdoc' := by
    rw [State.insert, BTreeMap.get_insert] at hdoc'
    split_ifs at hdoc' with heq
    · cases hdoc'
      exact heq ▸ hdoc
    · exact h.cached url' doc' hdoc'
  key := h.key
  faithful := h.faithful
  sources := h.sources
  urls := h.urls
  reading := h.reading

omit [DecidableEq T] in
theorem Inv.retask (h : Inv web core to_string meets s) {tasks : List (Task T)}
    (htasks : ∀ t ∈ tasks, ∀ src ∈ t.sources, meets src ∧ (src.owner = none ∨ src.owner = t.tenant)) :
    Inv web core to_string meets { s with tasks } where
  cached := h.cached
  key := h.key
  faithful := h.faithful
  sources := h.sources
  urls := h.urls
  reading := htasks

omit [DecidableEq T] in
/-- One resolution changes, the others are as they were. -/
theorem Inv.replace (h : Inv web core to_string meets s) {t t' : Task T} {pre post : List (Task T)}
    (ht : s.tasks = pre ++ t :: post)
    (ht' : ∀ src ∈ t'.sources, meets src ∧ (src.owner = none ∨ src.owner = t'.tenant)) :
    ∀ u ∈ pre ++ t' :: post, ∀ src ∈ u.sources, meets src ∧ (src.owner = none ∨ src.owner = u.tenant) := by
  intro u hu
  rcases List.mem_append.mp hu with hu | hu
  · exact h.reading u (ht ▸ List.mem_append_left _ hu)
  · rcases List.mem_cons.mp hu with rfl | hu
    · exact ht'
    · exact h.reading u (ht ▸ List.mem_append_right _ (List.mem_cons_of_mem _ hu))

omit [DecidableEq T] in
theorem Inv.reads (h : Inv web core to_string meets s) {t : Task T} {pre post : List (Task T)}
    (ht : s.tasks = pre ++ t :: post) {src : Source T} (hsrc : meets src)
    (hserves : src.owner = none ∨ src.owner = t.tenant) :
    ∀ u ∈ pre ++ t.reads src :: post, ∀ src ∈ u.sources, meets src ∧ (src.owner = none ∨ src.owner = u.tenant) := by
  apply h.replace ht
  intro src' hmem
  rcases List.mem_append.mp hmem with hmem | hmem
  · exact h.reading t (ht ▸ List.mem_append_right _ List.mem_cons_self) src' hmem
  · rw [List.mem_singleton.mp hmem]
    exact ⟨hsrc, hserves⟩

omit [DecidableEq T] in
theorem Inv.keep (h : Inv web core to_string meets s) {b : Built T} (hb : Faithful web core b)
    (hsrc : ∀ src ∈ b.sources, meets src) : Inv web core to_string meets (s.keep to_string b) := by
  rw [State.keep]
  split_ifs with hlen
  · refine ⟨h.cached, ?_, ?_, ?_, ?_, h.reading⟩
    · intro key b' hb'
      rw [BTreeMap.get_insert] at hb'
      split_ifs at hb' with heq
      · cases hb'
        exact heq.symm
      · exact h.key key b' hb'
    · intro key b' hb'
      rw [BTreeMap.get_insert] at hb'
      split_ifs at hb' with heq
      · cases hb'
        exact hb
      · exact h.faithful key b' hb'
    · intro key b' hb'
      rw [BTreeMap.get_insert] at hb'
      split_ifs at hb' with heq
      · cases hb'
        exact hsrc
      · exact h.sources key b' hb'
    · intro key b' urls hb' hurls
      rw [BTreeMap.get_insert] at hb' hurls
      split_ifs at hb' hurls with heq
      · cases hb'
        cases hurls
        rfl
      · exact h.urls key b' urls hb' hurls
  · exact h

omit [DecidableEq T] in
theorem faithful_built {t : Task T} {c : Crawled} (hrest : t.rest web = some (.done (.ok c))) :
    Faithful web core (t.built core c) := ⟨c, hrest, rfl⟩

variable (hpinned : ∀ url v, web.pinned url = some v → meets ⟨url, v, none⟩)

include hpinned

theorem Inv.step (h : Inv web core to_string meets s) {a : Act T} (hs : Step web core to_string s a s')
    (hbrings : ∀ url doc, a.brings = some (url, doc) → meets (doc.under url)) : Inv web core to_string meets s' := by
  cases hs with
  | hit => exact h
  | begin =>
      apply h.retask
      intro t ht
      rcases List.mem_cons.mp ht with rfl | ht
      · intro src hsrc
        cases hsrc
      · exact h.reading t ht
  | @pinned t pre post url v ht hurl hv =>
      apply h.retask
      apply h.reads ht
      · exact hpinned url v hv
      · exact .inl rfl
  | cached ht hurl hv hdoc hserves hfresh =>
      apply h.retask
      apply h.reads ht
      · exact h.cached _ _ hdoc
      · exact owner_of_serves hserves
  | @miss t pre post url ht hurl hv hdoc =>
      apply h.retask
      apply h.replace ht
      have hmem : t ∈ s.tasks := ht ▸ List.mem_append_right _ List.mem_cons_self
      exact h.reading t hmem
  | hosted ht hurl hv hwait hdoc hserves =>
      apply (h.insert (hbrings _ _ rfl)).retask
      apply h.reads ht
      · exact hbrings _ _ rfl
      · exact owner_of_serves hserves
  | downloaded ht hurl hv hwait hdoc =>
      apply Inv.retask
      · rw [State.refreshed]
        split_ifs
        · exact (h.invalidate _).insert (hbrings _ _ rfl)
        · exact h.insert (hbrings _ _ rfl)
      · apply h.reads ht
        · exact hbrings _ _ rfl
        · exact .inl hdoc
  | finish ht hrest =>
      have hreading := h.reading _ (ht ▸ List.mem_append_right _ List.mem_cons_self)
      apply Inv.retask
      · exact h.keep (faithful_built hrest) (fun src hsrc => (hreading src hsrc).1)
      · intro u hu
        apply h.reading u
        rw [ht]
        rcases List.mem_append.mp hu with hu | hu
        · exact List.mem_append_left _ hu
        · exact List.mem_append_right _ (List.mem_cons_of_mem _ hu)
  | give_up ht =>
      apply h.retask
      intro u hu
      apply h.reading u
      rw [ht]
      rcases List.mem_append.mp hu with hu | hu
      · exact List.mem_append_left _ hu
      · exact List.mem_append_right _ (List.mem_cons_of_mem _ hu)
  | put => exact (h.insert (hbrings _ _ rfl)).invalidate _
  | @evict url =>
      have hev : Inv web core to_string meets { s with fetched := s.fetched.remove url } :=
        h.sub (sub_remove _ url) (sub_refl _) (sub_refl _) rfl
      exact hev.invalidate url
  | reinsert => exact h.insert (hbrings _ _ rfl)
  | lose hf hm hu ht hnow => exact h.sub hf hm hu ht
  | tick => exact h.sub (sub_refl _) (sub_refl _) (sub_refl _) rfl

theorem Inv.of_reached (h : Reached web core to_string meets s) : Inv web core to_string meets s := by
  induction h with
  | start => exact inv_start
  | step _ hs hbrings ih => exact ih.step hpinned hs hbrings

omit hpinned in
theorem urls_of_usable {key : String} {tenant : Option T} (h : s.merged_hit_is_usable web key tenant = true) :
    ∃ urls, s.merged_urls.get key = some urls ∧ ∀ url ∈ urls,
      (∃ doc, s.fetched.get url = some doc ∧ doc.serves tenant = true ∧ doc.is_stale s.now = false) ∨
        s.fetched.get url = none ∧ web.is_pinned_core url = true := by
  rw [State.merged_hit_is_usable] at h
  cases hurls : s.merged_urls.get key with
  | none =>
      rw [hurls] at h
      cases h
  | some urls =>
      rw [hurls] at h
      refine ⟨urls, rfl, fun url hurl => ?_⟩
      have hdoc := List.all_eq_true.mp h url hurl
      cases hf : s.fetched.get url with
      | none =>
          rw [hf] at hdoc
          exact .inr ⟨rfl, hdoc⟩
      | some doc =>
          rw [hf, Bool.and_eq_true, Bool.not_eq_true'] at hdoc
          exact .inl ⟨doc, rfl, hdoc.1, hdoc.2⟩

omit hpinned
variable (web core to_string)

end Isolation

section Coherence

variable {web : Web} {core : Value} {to_string : Value → String} {T : Type} [DecidableEq T]

/-- What a URL stands for: a pinned document, or what is published under it. -/
def meaning (web : Web) (content : String → Value) (url : String) : Value := (web.pinned url).getD (content url)

def Current (web : Web) (content : String → Value) (src : Source T) : Prop := src.value = meaning web content src.url

/-- The resolution has not read the document and is not fetching it. -/
def Task.Idle (web : Web) (t : Task T) (url : String) : Prop :=
  url ∉ t.sources.map Source.url ∧ (t.asks web = some url → t.waiting = none)

variable (web core to_string) in
/-- The runs in which a document changes only where it is stored or reloaded here or where a copy known to be stale is
refreshed, and no other resolution under way has read it or is fetching it; with what is published at the end of them. -/
inductive Steady : State T → (String → Value) → Prop
  | start (content : String → Value) : Steady .start content
  | step {s s' : State T} {a : Act T} {content : String → Value} (h : Steady s content) (hs : Step web core to_string s a s')
      (hbrings : ∀ url doc, a.brings = some (url, doc) → Current web content (doc.under url)) : Steady s' content
  | put {s s' : State T} {url : String} {doc : FetchedDoc T} {content : String → Value} (h : Steady s content)
      (hs : Step web core to_string s (.put url doc) s') (hv : web.pinned url = none) (hidle : ∀ t ∈ s.tasks, t.Idle web url) :
      Steady s' (Function.update content url doc.value)
  | refresh {s s' : State T} {t : Task T} {url : String} {doc : FetchedDoc T} {old : Value} {content : String → Value}
      (h : Steady s content) (hs : Step web core to_string s (.downloaded t url doc) s') (hold : t.waiting = some (some old))
      (hne : old ≠ doc.value) (hread : url ∉ t.sources.map Source.url)
      (hidle : ∀ u ∈ s'.tasks, u = t.reads (doc.under url) ∨ u.Idle web url) : Steady s' (Function.update content url doc.value)

omit [DecidableEq T] in
theorem current_update {content : String → Value} {url : String} {v : Value} {src : Source T} (hne : src.url ≠ url)
    (h : Current web content src) : Current web (Function.update content url v) src := by
  rw [Current, meaning, Function.update_of_ne hne]
  exact h

omit [DecidableEq T] in
/-- The merges that are left do not stand on the document. -/
theorem not_mem_of_invalidated {content : String → Value} {s : State T} (h : Inv web core to_string (Current web content) s)
    {url key : String} {b : Built T} (hb : (s.invalidate_merged_using url).merged.get key = some b) :
    s.merged.get key = some b ∧ url ∉ b.sources.map Source.url := by
  rw [State.invalidate_merged_using, BTreeMap.get_filter] at hb
  have hget := Option.eq_some_of_filter_eq_some hb
  have huses : s.uses url key = false := by
    have hkept := (Option.filter_eq_some_iff.mp hb).2
    rwa [Bool.not_eq_true'] at hkept
  refine ⟨hget, ?_⟩
  rw [State.uses] at huses
  cases hurls : s.merged_urls.get key with
  | none =>
      rw [hurls] at huses
      cases huses
  | some urls =>
      rw [hurls] at huses
      exact h.urls _ _ _ hget hurls ▸ of_decide_eq_false huses

omit [DecidableEq T] in
/-- The state after a document has been replaced and the merges with it dropped. -/
theorem Inv.replaced {content : String → Value} {s : State T} (h : Inv web core to_string (Current web content) s)
    {url : String} {doc : FetchedDoc T} (hv : web.pinned url = none) {tasks : List (Task T)}
    (htasks : ∀ t ∈ tasks, ∀ src ∈ t.sources, Current web (Function.update content url doc.value) src ∧
      (src.owner = none ∨ src.owner = t.tenant)) :
    Inv web core to_string (Current web (Function.update content url doc.value))
      { (s.invalidate_merged_using url).insert url doc with tasks } where
  cached url' doc' hdoc' := by
    have hget : (s.fetched.insert url doc).get url' = some doc' := hdoc'
    rw [BTreeMap.get_insert] at hget
    split_ifs at hget with heq
    · cases hget
      rw [heq, Current, meaning, FetchedDoc.under, hv, Function.update_self]
      rfl
    · exact current_update heq (h.cached url' doc' hget)
  key key b hb := h.key key b (not_mem_of_invalidated h hb).1
  faithful key b hb := h.faithful key b (not_mem_of_invalidated h hb).1
  sources key b hb src hsrc := by
    obtain ⟨hget, hmem⟩ := not_mem_of_invalidated h hb
    apply current_update _ (h.sources key b hget src hsrc)
    intro heq
    exact hmem (heq ▸ List.mem_map_of_mem hsrc)
  urls key b urls hb hurls := h.urls key b urls (not_mem_of_invalidated h hb).1 (sub_filter _ _ key urls hurls)
  reading := htasks

omit [DecidableEq T] in
theorem current_idle {content : String → Value} {s : State T} (h : Inv web core to_string (Current web content) s)
    {t : Task T} (ht : t ∈ s.tasks) {url : String} (hread : url ∉ t.sources.map Source.url) {v : Value} {src : Source T}
    (hsrc : src ∈ t.sources) : Current web (Function.update content url v) src := by
  apply current_update _ (h.reading t ht src hsrc).1
  intro heq
  exact hread (heq ▸ List.mem_map_of_mem hsrc)

/-- In a steady run everything in the cache, behind a merge or read by a resolution is what is published. -/
theorem current_of_steady {s : State T} {content : String → Value} (h : Steady web core to_string s content) :
    Inv web core to_string (Current web content) s ∧ Inv web core to_string (fun _ => True) s := by
  have hcore (content : String → Value) (url : String) (v : Value) (hv : web.pinned url = some v) :
      Current web content (⟨url, v, none⟩ : Source T) := by
    rw [Current, meaning, hv]
    rfl
  have hfree {s s' : State T} {a : Act T} (hs : Step web core to_string s a s') (h : Inv web core to_string (fun _ => True) s) :
      Inv web core to_string (fun _ => True) s' := h.step (fun _ _ _ => trivial) hs (fun _ _ _ => trivial)
  induction h with
  | start content => exact ⟨inv_start, inv_start⟩
  | step _ hs hbrings ih => exact ⟨ih.1.step (hcore _) hs hbrings, hfree hs ih.2⟩
  | put _ hs hv hidle ih =>
      have hafter := hfree hs ih.2
      refine ⟨?_, hafter⟩
      cases hs with
      | put =>
          apply ih.1.replaced hv
          intro t ht src hsrc
          exact ⟨current_idle ih.1 ht (hidle t ht).1 hsrc, (hafter.reading t ht src hsrc).2⟩
  | @refresh s s' t url doc old content _ hs hold hne hread hidle ih =>
      have hafter := hfree hs ih.2
      refine ⟨?_, hafter⟩
      cases hs with
      | downloaded ht hurl hv hwait hdoc =>
          rw [hold, Option.some.injEq] at hwait
          subst hwait
          have hrefreshed : s.refreshed url (some old) doc = (s.invalidate_merged_using url).insert url doc := by
            rw [State.refreshed, Option.any_some, decide_eq_true hne, if_pos rfl]
          rw [hrefreshed]
          apply ih.1.replaced hv
          intro u hu src hsrc
          refine ⟨?_, (hafter.reading u hu src hsrc).2⟩
          have hown : u = t.reads (doc.under url) → Current web (Function.update content url doc.value) src := by
            rintro rfl
            rcases List.mem_append.mp hsrc with hsrc | hsrc
            · exact current_idle ih.1 (ht ▸ List.mem_append_right _ List.mem_cons_self) hread hsrc
            · rw [List.mem_singleton.mp hsrc, Current, meaning, FetchedDoc.under, hv, Function.update_self]
              rfl
          rcases hidle u hu with heq | hu'
          · exact hown heq
          rcases List.mem_append.mp hu with hmem | hmem
          · exact current_idle ih.1 (ht ▸ List.mem_append_left _ hmem) hu'.1 hsrc
          · rcases List.mem_cons.mp hmem with heq | hmem
            · exact hown heq
            · exact current_idle ih.1 (ht ▸ List.mem_append_right _ (List.mem_cons_of_mem _ hmem)) hu'.1 hsrc

/-- What the cache answers for a document by itself. -/
def State.document (web : Web) (s : State T) (tenant : Option T) (url : String) : Except LoadError Value :=
  match web.pinned url with
  | some v => .ok v
  | none =>
      match s.fetched.get url with
      | some doc => if doc.serves tenant && !doc.is_stale s.now then .ok doc.value else .error (.not_fetched url)
      | none => .error (.not_fetched url)

variable (web core to_string)

end Coherence

section Example

def no_web : Web := ⟨fun _ => none, fun _ _ => none⟩

/-- A reference to the document "u", and its text. -/
def by_reference : Value := .string "u"

def quoted (v : Value) : String := if v = by_reference then "\"u\"" else "null"

theorem quoted_once (v : Value) (h : quoted v = quoted by_reference) : v = by_reference := by
  rw [quoted, quoted, if_pos rfl] at h
  split_ifs at h with hv
  · exact hv
  · exact absurd h (by decide)

/-- A document that the Tenant "A" has stored. -/
def stored : FetchedDoc String := ⟨.null, none, some "A"⟩

def is_stored : State String := (State.start.insert "u" stored).invalidate_merged_using "u"

def asked_for : State String := { is_stored with tasks := [.begins (some "A") by_reference] }

def has_read : Task String := (Task.begins (some "A") by_reference).reads (stored.under "u")

def nearly_done : State String := { is_stored with tasks := [has_read] }

def read_it : Crawled := ⟨.default, ["u"]⟩

def is_kept : State String := { nearly_done.keep quoted (has_read.built .null read_it) with tasks := [] }

theorem stores : Step no_web .null quoted .start (.put "u" stored) is_stored := .put

theorem asks_for : Step no_web .null quoted is_stored (.begin (some "A") by_reference) asked_for := .begin

theorem reads_it : Step no_web .null quoted asked_for (.cached (.begins (some "A") by_reference) (stored.under "u")) nearly_done :=
  @Step.cached _ _ _ _ _ _ _ [] [] _ _ rfl rfl rfl rfl rfl rfl

theorem finishes : Step no_web .null quoted nearly_done (.finish has_read read_it) is_kept :=
  @Step.finish _ _ _ _ _ _ _ [] [] _ rfl rfl

theorem is_hit : Step no_web .null quoted is_kept (.hit (some "A") by_reference (has_read.built .null read_it)) is_kept :=
  .hit rfl rfl

end Example

end AntaresBroker.JsonLd
