import AntaresBroker.Runs
import AntaresBroker.Snapshots

namespace AntaresBroker.SnapshotCopies

open Json Expiry Snapshots Runs

/-- A snapshot: its tenant and its id. -/
abbrev Key := String × String

def synth_tenant (doc : Value) : Option String := (doc.get "__tenant").bind Value.as_str

/-- The documents, the reverse index, and the ids held in each synthetic
tenant. `home` is the snapshot a synthetic tenant was drawn for. -/
structure World where
  docs : Key → Option Value
  index : String → Option Key
  entities : String → List String
  evolutions : String → List String
  home : String → Option Key

/-- How a new snapshot is filled: by its queries, or from another one. -/
inductive Fill
  | queries (n : Nat)
  | clone (src : Key)

inductive Stage
  | temporal | store | index

/-- What a request or a background task has left to do. -/
inductive Proc
  -- `snap_insert` after the document
  | indexing (key : Key) (synth : String) (fill : Fill)
  -- a delete, an eviction, a purge or a sweep: reading, then removing
  | collecting (victims : List (Key × Value)) (next : Option (Key × Fill))
  | removing (victims : List (Key × Value)) (next : Option (Key × Fill))
  -- `purge_data_bg`
  | purging (synth : String) (stage : Stage)
  -- `fill_snapshot` and `clone_fill`
  | filling (key : Key) (fill : Fill)
  | cloning (key : Key)
  | checking (key : Key) (synth : String) (more : Nat)
  | copying (key : Key) (synth : String) (more : Nat)
  | recording (key : Key) (synth : String) (more : Nat) (entity : String)
  -- `fill_cancelled` with the snapshot gone
  | reaping (synth : String) (temporal : Bool)
  -- `finish`
  | finishing (key : Key)
  | putting (key : Key) (result : Result) (read : Value)

variable {Instant : Type} [LinearOrder Instant]

/-- The choices a task leaves open. -/
inductive Choice (Instant : Type)
  | go (now : Instant)
  | see (key : Key)
  | entity (id : String)
  | evolution (id : String)
  | report (result : Result) (now : Instant)
  | write (ts : String)
  | done

structure System where
  world : World
  procs : List Proc

inductive Move (Instant : Type)
  | create (key : Key) (body : Map) (b : Birth) (fill : Fill)
  | remove
  | run (i : Nat) (c : Choice Instant)

namespace World

def set_doc (w : World) (key : Key) (doc : Option Value) : World := { w with docs := Function.update w.docs key doc }

def set_index (w : World) (synth : String) (key : Option Key) : World :=
  { w with index := Function.update w.index synth key }

def add_entity (w : World) (synth id : String) : World :=
  { w with entities := Function.update w.entities synth (id :: w.entities synth) }

def add_evolution (w : World) (synth id : String) : World :=
  { w with evolutions := Function.update w.evolutions synth (id :: w.evolutions synth) }

def purge_entities (w : World) (synth : String) : World := { w with entities := Function.update w.entities synth [] }

def purge_evolutions (w : World) (synth : String) : World := { w with evolutions := Function.update w.evolutions synth [] }

/-- A stored document names the synthetic tenant. -/
def Names (w : World) (key : Key) (synth : String) : Prop := ∃ doc, w.docs key = some doc ∧ synth_tenant doc = some synth

end World

section Steps

variable (chrono : Chrono Instant)

def purge_data_bg (read : Value) : List Proc :=
  match synth_tenant read with
  | some synth => [.purging synth .temporal]
  | none => []

/-- One store call of a task, and what it goes on as. -/
def Proc.step (w : World) : Proc → Choice Instant → Option (World × List Proc)
  | .indexing key synth fill, .go _ =>
      some (if (w.index synth).isSome then w else w.set_index synth (some key), [.collecting [] (some (key, fill))])
  | .collecting victims next, .see key =>
      match w.docs key with
      | some read => some (w, [.collecting (victims ++ [(key, read)]) next])
      | none => some (w, [.collecting victims next])
  | .collecting victims next, .done => some (w, [.removing victims next])
  | .removing ((key, read) :: victims) next, .go _ => some (w.set_doc key none, .removing victims next :: purge_data_bg read)
  | .removing [] next, .done =>
      match next with
      | some (key, fill) => some (w, [.filling key fill])
      | none => some (w, [])
  | .purging synth .temporal, .go _ => some (w.purge_evolutions synth, [.purging synth .store])
  | .purging synth .store, .go _ => some (w.purge_entities synth, [.purging synth .index])
  | .purging synth .index, .go _ => some (w.set_index synth none, [])
  | .filling key (.queries n), .go now =>
      match (snap_get chrono now (w.docs key)).bind synth_tenant with
      | some synth => some (w, [.checking key synth n])
      | none => some (w, [])
  | .filling key (.clone src), .go now =>
      match (snap_get chrono now (w.docs src)).bind synth_tenant with
      | some _ => some (w, [.cloning key])
      | none => some (w, [.finishing key])
  | .cloning key, .go now =>
      match (snap_get chrono now (w.docs key)).bind synth_tenant with
      | some synth => some (w, [.copying key synth 0])
      | none => some (w, [.finishing key])
  | .checking key synth more, .go now =>
      match snap_get chrono now (w.docs key), more with
      | none, _ => some (w, [.reaping synth true])
      | some _, 0 => some (w, [.finishing key])
      | some _, more + 1 => some (w, [.copying key synth more])
  | .copying key synth more, .entity id => some (w.add_entity synth id, [.recording key synth more id])
  | .copying key synth more, .evolution id => some (w.add_evolution synth id, [.copying key synth more])
  | .copying key synth more, .done => some (w, [.checking key synth more])
  -- the auto-record hook, unless its gate is closed
  | .recording key synth more id, .go _ => some (w.add_evolution synth id, [.copying key synth more])
  | .recording key synth more _, .done => some (w, [.copying key synth more])
  | .reaping synth true, .go _ => some (w.purge_evolutions synth, [.reaping synth false])
  | .reaping synth false, .go _ => some (w.purge_entities synth, [])
  | .finishing key, .report result now =>
      match snap_get chrono now (w.docs key) with
      | some read => some (w, [.putting key result read])
      | none => some (w, [])
  | .putting key result read, .write ts => some (w.set_doc key ((w.docs key).map fun _ => finished result ts read), [])
  | _, _ => none

def step (s : System) : Move Instant → Option System
  | .create key body b fill =>
      -- every synthetic tenant drawn is a new one
      if (s.world.home b.synth).isSome then none
      else
        match s.world.docs key with
        | some _ => some s
        | none =>
            some ⟨{ s.world.set_doc key (some (.object (new_meta (strip body) b))) with
              home := Function.update s.world.home b.synth (some key) }, .indexing key b.synth fill :: s.procs⟩
  | .remove => some { s with procs := .collecting [] none :: s.procs }
  | .run i c =>
      (s.procs[i]?).bind fun p =>
        (p.step chrono s.world c).map fun r => ⟨r.1, r.2 ++ s.procs.eraseIdx i⟩

/-- What a task must find for its next store call to lose no copy: a check and
a write-back their own snapshot's document or none, a removal the document it
read, with its index entry made, or none. -/
def Proc.Orderly (w : World) (procs : List Proc) : Proc → Choice Instant → Prop
  | .checking key synth _, .go now => ∀ doc, snap_get chrono now (w.docs key) = some doc → synth_tenant doc = some synth
  | .putting key _ read, _ => ∀ doc, w.docs key = some doc → synth_tenant doc = synth_tenant read
  | .removing ((key, read) :: _) _, _ =>
      ∀ doc, w.docs key = some doc → synth_tenant doc = synth_tenant read ∧
        ∀ synth fill, Proc.indexing key synth fill ∉ procs
  | _, _ => True

def Orderly (s : System) : Move Instant → Prop
  | .run i c => ∀ p, s.procs[i]? = some p → p.Orderly chrono s.world s.procs c
  | _ => True

end Steps

def empty : World := ⟨fun _ => none, fun _ => none, fun _ => [], fun _ => [], fun _ => none⟩

def initial : System := ⟨empty, []⟩

/-- Whatever is held in a synthetic tenant or the index is reached from a
stored snapshot: the one its index entry names. -/
def Reached (w : World) : Prop :=
  ∀ synth, w.entities synth ≠ [] ∨ w.evolutions synth ≠ [] ∨ (w.index synth).isSome →
    ∃ key, w.index synth = some key ∧ w.Names key synth

namespace Proc

/-- The snapshots a task refers to by both names. -/
def knows : Proc → List (Key × String)
  | .indexing key synth _ => [(key, synth)]
  | .collecting victims _ | .removing victims _ => victims.filterMap fun v => (synth_tenant v.2).map fun synth => (v.1, synth)
  | .checking key synth _ | .copying key synth _ | .recording key synth _ _ => [(key, synth)]
  | .putting key _ read => ((synth_tenant read).map fun synth => (key, synth)).toList
  | _ => []

/-- The synthetic tenant whose evolutions a task frees if its snapshot is gone. -/
def frees_evolutions : Proc → Option String
  | .purging synth .temporal => some synth
  | .checking _ synth _ | .copying _ synth _ | .recording _ synth _ _ => some synth
  | .reaping synth true => some synth
  | _ => none

def frees_entities : Proc → Option String
  | .purging synth .temporal | .purging synth .store => some synth
  | .checking _ synth _ | .copying _ synth _ | .recording _ synth _ _ => some synth
  | .reaping synth _ => some synth
  | _ => none

end Proc

structure Inv (w : World) (procs : List Proc) : Prop where
  named : ∀ k doc, w.docs k = some doc → ∃ y, synth_tenant doc = some y ∧ w.home y = some k ∧
    (w.index y = some k ∨ ∃ fill, Proc.indexing k y fill ∈ procs)
  indexed : ∀ y k, w.index y = some k → w.home y = some k ∧ (w.Names k y ∨ ∃ stage, Proc.purging y stage ∈ procs)
  evolutions : ∀ y, w.evolutions y ≠ [] → (∃ k, w.Names k y) ∨ ∃ p ∈ procs, p.frees_evolutions = some y
  entities : ∀ y, w.entities y ≠ [] → (∃ k, w.Names k y) ∨ ∃ p ∈ procs, p.frees_entities = some y
  knows : ∀ p ∈ procs, ∀ r ∈ p.knows, w.home r.2 = some r.1
  indexing : ∀ k y fill, Proc.indexing k y fill ∈ procs → w.Names k y
  purging : ∀ y stage, Proc.purging y stage ∈ procs → (w.home y).isSome ∧ ∀ k, ¬w.Names k y

theorem Inv.home_of_names {w : World} {procs : List Proc} (h : Inv w procs) {k : Key} {y : String} (hn : w.Names k y) :
    w.home y = some k := by
  obtain ⟨doc, hdoc, hy⟩ := hn
  obtain ⟨y', hy', hhome, -⟩ := h.named k doc hdoc
  rw [hy, Option.some_inj] at hy'
  rw [hy', hhome]

/-- What a task goes on as may take its place while the world stays. -/
structure Follows (w : World) (p : Proc) (new : List Proc) : Prop where
  knows : ∀ q ∈ new, ∀ r ∈ q.knows, w.home r.2 = some r.1
  indexing : ∀ k y fill, Proc.indexing k y fill ∉ new
  purging : ∀ y stage, Proc.purging y stage ∈ new → (w.home y).isSome ∧ ∀ k, ¬w.Names k y
  indexed : ∀ k y fill, p = .indexing k y fill → w.index y = some k
  unindexed : ∀ y stage, p = .purging y stage → w.index y = none ∨ ∃ stage', Proc.purging y stage' ∈ new
  evolutions : ∀ y, p.frees_evolutions = some y →
    w.evolutions y = [] ∨ (∃ k, w.Names k y) ∨ ∃ q ∈ new, q.frees_evolutions = some y
  entities : ∀ y, p.frees_entities = some y →
    w.entities y = [] ∨ (∃ k, w.Names k y) ∨ ∃ q ∈ new, q.frees_entities = some y

theorem Inv.follow {w : World} {procs new : List Proc} {p : Proc} {i : Nat} (h : Inv w procs) (hi : procs[i]? = some p)
    (hf : Follows w p new) : Inv w (new ++ procs.eraseIdx i) := by
  have hold (q : Proc) (hq : q ∈ procs) : q = p ∨ q ∈ new ++ procs.eraseIdx i := by
    by_cases hqp : q = p
    · exact .inl hqp
    · exact .inr (List.mem_append_right _ (mem_of_eraseIdx hi hq hqp))
  have hnew (q : Proc) (hq : q ∈ new ++ procs.eraseIdx i) : q ∈ new ∨ q ∈ procs :=
    (List.mem_append.mp hq).imp_right List.mem_of_mem_eraseIdx
  refine ⟨fun k doc hdoc => ?_, fun y k hindex => ?_, fun y hy => ?_, fun y hy => ?_, fun q hq => ?_,
    fun k y fill hq => ?_, fun y stage hq => ?_⟩
  · obtain ⟨y, hy, hhome, hindex | ⟨fill, hmem⟩⟩ := h.named k doc hdoc
    · exact ⟨y, hy, hhome, .inl hindex⟩
    · rcases hold _ hmem with heq | hmem
      · exact ⟨y, hy, hhome, .inl (hf.indexed k y fill heq.symm)⟩
      · exact ⟨y, hy, hhome, .inr ⟨fill, hmem⟩⟩
  · obtain ⟨hhome, hn | ⟨stage, hmem⟩⟩ := h.indexed y k hindex
    · exact ⟨hhome, .inl hn⟩
    · rcases hold _ hmem with heq | hmem
      · rcases hf.unindexed y stage heq.symm with hnone | ⟨stage', hmem'⟩
        · rw [hnone] at hindex
          cases hindex
        · exact ⟨hhome, .inr ⟨stage', List.mem_append_left _ hmem'⟩⟩
      · exact ⟨hhome, .inr ⟨stage, hmem⟩⟩
  · rcases h.evolutions y hy with hn | ⟨q, hq, hfrees⟩
    · exact .inl hn
    · rcases hold q hq with rfl | hmem
      · rcases hf.evolutions y hfrees with hnil | hn | ⟨q', hq', hfrees'⟩
        · exact absurd hnil hy
        · exact .inl hn
        · exact .inr ⟨q', List.mem_append_left _ hq', hfrees'⟩
      · exact .inr ⟨q, hmem, hfrees⟩
  · rcases h.entities y hy with hn | ⟨q, hq, hfrees⟩
    · exact .inl hn
    · rcases hold q hq with rfl | hmem
      · rcases hf.entities y hfrees with hnil | hn | ⟨q', hq', hfrees'⟩
        · exact absurd hnil hy
        · exact .inl hn
        · exact .inr ⟨q', List.mem_append_left _ hq', hfrees'⟩
      · exact .inr ⟨q, hmem, hfrees⟩
  · exact (hnew q hq).elim (hf.knows q) (h.knows q)
  · exact (hnew _ hq).elim (fun hmem => absurd hmem (hf.indexing k y fill)) (h.indexing k y fill)
  · exact (hnew _ hq).elim (hf.purging y stage) (h.purging y stage)

section Worlds

variable {w : World} {procs : List Proc} {key : Key} {synth : String}

theorem Inv.set_index {fill : Fill} (h : Inv w procs) (hp : Proc.indexing key synth fill ∈ procs) :
    Inv (w.set_index synth (some key)) procs where
  named k doc hdoc := by
    obtain ⟨y, hy, hhome, hindex⟩ := h.named k doc hdoc
    refine ⟨y, hy, hhome, ?_⟩
    by_cases hys : y = synth
    · have hkey := h.knows _ hp (key, synth) List.mem_cons_self
      rw [hys, hkey, Option.some_inj] at hhome
      rw [hys, ← hhome]
      exact .inl (Function.update_self _ _ _)
    · exact hindex.imp_left fun hindex => (Function.update_of_ne hys _ _).trans hindex
  indexed y k hindex := by
    by_cases hys : y = synth
    · have hk : some key = some k := by
        rw [← hindex, hys]
        exact (Function.update_self synth (some key) w.index).symm
      cases hk
      rw [hys]
      exact ⟨h.knows _ hp (key, synth) List.mem_cons_self, .inl (h.indexing key synth fill hp)⟩
    · exact h.indexed y k ((Function.update_of_ne hys _ _).symm.trans hindex)
  evolutions := h.evolutions
  entities := h.entities
  knows := h.knows
  indexing := h.indexing
  purging := h.purging

theorem Inv.unset_index (h : Inv w procs) (hgone : ∀ k, ¬w.Names k synth) : Inv (w.set_index synth none) procs where
  named k doc hdoc := by
    obtain ⟨y, hy, hhome, hindex⟩ := h.named k doc hdoc
    have hys : y ≠ synth := fun hys => hgone k ⟨doc, hdoc, hys ▸ hy⟩
    exact ⟨y, hy, hhome, hindex.imp_left fun hindex => (Function.update_of_ne hys _ _).trans hindex⟩
  indexed y k hindex := by
    by_cases hys : y = synth
    · have hnone : none = some k := by
        rw [← hindex, hys]
        exact (Function.update_self synth none w.index).symm
      cases hnone
    · exact h.indexed y k ((Function.update_of_ne hys _ _).symm.trans hindex)
  evolutions := h.evolutions
  entities := h.entities
  knows := h.knows
  indexing := h.indexing
  purging := h.purging

/-- A copy may be freed at any time, and grow while a task is there to free it. -/
theorem Inv.set_evolutions (h : Inv w procs) (ids : List String)
    (hfree : ids ≠ [] → ∃ p ∈ procs, p.frees_evolutions = some synth) :
    Inv { w with evolutions := Function.update w.evolutions synth ids } procs :=
  { h with
    evolutions := fun y hy => by
      by_cases hys : y = synth
      · rw [hys] at hy ⊢
        exact .inr (hfree fun hnil => hy (by rw [hnil]; exact Function.update_self _ _ _))
      · exact h.evolutions y fun hnil => hy ((Function.update_of_ne hys _ _).trans hnil) }

theorem Inv.set_entities (h : Inv w procs) (ids : List String)
    (hfree : ids ≠ [] → ∃ p ∈ procs, p.frees_entities = some synth) :
    Inv { w with entities := Function.update w.entities synth ids } procs :=
  { h with
    entities := fun y hy => by
      by_cases hys : y = synth
      · rw [hys] at hy ⊢
        exact .inr (hfree fun hnil => hy (by rw [hnil]; exact Function.update_self _ _ _))
      · exact h.entities y fun hnil => hy ((Function.update_of_ne hys _ _).trans hnil) }

theorem names_set_doc {doc : Option Value} {k : Key} {y : String} (hk : k ≠ key) :
    (w.set_doc key doc).Names k y ↔ w.Names k y := by
  have hdocs : (w.set_doc key doc).docs k = w.docs k := Function.update_of_ne hk _ _
  rw [World.Names, World.Names, hdocs]

/-- A document written over another one of the same snapshot. -/
theorem Inv.put (h : Inv w procs) {doc : Value} (hsame : ∀ old, w.docs key = some old → synth_tenant doc = synth_tenant old) :
    Inv (w.set_doc key ((w.docs key).map fun _ => doc)) procs := by
  have hnames (k : Key) (y : String) : (w.set_doc key ((w.docs key).map fun _ => doc)).Names k y ↔ w.Names k y := by
    by_cases hk : k = key
    · subst hk
      have hdocs : (w.set_doc k ((w.docs k).map fun _ => doc)).docs k = (w.docs k).map fun _ => doc :=
        Function.update_self _ _ _
      rw [World.Names, World.Names, hdocs]
      cases hold : w.docs k with
      | none => simp
      | some old => simp [hsame old hold]
    · exact names_set_doc hk
  refine ⟨fun k new hnew => ?_, fun y k hindex => ?_, fun y hy => ?_, fun y hy => ?_, h.knows, fun k y fill hp => ?_,
    fun y stage hp => ?_⟩
  · by_cases hk : k = key
    · subst hk
      have hmap : (w.docs k).map (fun _ => doc) = some new := (Function.update_self k _ w.docs).symm.trans hnew
      obtain ⟨old, hold, rfl⟩ := Option.map_eq_some_iff.mp hmap
      obtain ⟨y, hy, hrest⟩ := h.named k old hold
      exact ⟨y, (hsame old hold).trans hy, hrest⟩
    · exact h.named k new ((Function.update_of_ne hk _ _).symm.trans hnew)
  · obtain ⟨hhome, hn⟩ := h.indexed y k hindex
    exact ⟨hhome, hn.imp_left (hnames k y).mpr⟩
  · exact (h.evolutions y hy).imp_left fun ⟨k, hn⟩ => ⟨k, (hnames k y).mpr hn⟩
  · exact (h.entities y hy).imp_left fun ⟨k, hn⟩ => ⟨k, (hnames k y).mpr hn⟩
  · exact (hnames k y).mpr (h.indexing k y fill hp)
  · obtain ⟨hhome, hgone⟩ := h.purging y stage hp
    exact ⟨hhome, fun k hn => hgone k ((hnames k y).mp hn)⟩

/-- A removal: the copy of the document that goes is left to a purge. -/
theorem Inv.remove (h : Inv w procs) (hhome : w.home synth = some key)
    (hown : ∀ doc, w.docs key = some doc → synth_tenant doc = some synth ∧ ∀ y fill, Proc.indexing key y fill ∉ procs) :
    Inv (w.set_doc key none) (.purging synth .temporal :: procs) := by
  have hgone (y : String) : ¬(w.set_doc key none).Names key y := by
    rintro ⟨doc, hdoc, -⟩
    have hnone : none = some doc := (Function.update_self key _ w.docs).symm.trans hdoc
    cases hnone
  -- what another document named is still named, what this one named is purged
  have hnames {k : Key} {y : String} (hn : w.Names k y) : (w.set_doc key none).Names k y ∨ y = synth := by
    by_cases hk : k = key
    · subst hk
      obtain ⟨doc, hdoc, hy⟩ := hn
      have hs := (hown doc hdoc).1
      rw [hy, Option.some_inj] at hs
      exact .inr hs
    · exact .inl ((names_set_doc hk).mpr hn)
  refine ⟨fun k doc hdoc => ?_, fun y k hindex => ?_, fun y hy => ?_, fun y hy => ?_, fun p hp => ?_, fun k y fill hp => ?_,
    fun y stage hp => ?_⟩
  · by_cases hk : k = key
    · subst hk
      have hnone : none = some doc := (Function.update_self k _ w.docs).symm.trans hdoc
      cases hnone
    · obtain ⟨y, hy, hh, hindex⟩ := h.named k doc ((Function.update_of_ne hk _ _).symm.trans hdoc)
      exact ⟨y, hy, hh, hindex.imp_right fun ⟨fill, hp⟩ => ⟨fill, List.mem_cons_of_mem _ hp⟩⟩
  · obtain ⟨hh, hn | ⟨stage, hp⟩⟩ := h.indexed y k hindex
    · rcases hnames hn with hn | rfl
      · exact ⟨hh, .inl hn⟩
      · exact ⟨hh, .inr ⟨.temporal, List.mem_cons_self⟩⟩
    · exact ⟨hh, .inr ⟨stage, List.mem_cons_of_mem _ hp⟩⟩
  · rcases h.evolutions y hy with ⟨k, hn⟩ | ⟨p, hp, hfrees⟩
    · rcases hnames hn with hn | rfl
      · exact .inl ⟨k, hn⟩
      · exact .inr ⟨_, List.mem_cons_self, rfl⟩
    · exact .inr ⟨p, List.mem_cons_of_mem _ hp, hfrees⟩
  · rcases h.entities y hy with ⟨k, hn⟩ | ⟨p, hp, hfrees⟩
    · rcases hnames hn with hn | rfl
      · exact .inl ⟨k, hn⟩
      · exact .inr ⟨_, List.mem_cons_self, rfl⟩
    · exact .inr ⟨p, List.mem_cons_of_mem _ hp, hfrees⟩
  · rcases List.mem_cons.mp hp with rfl | hp
    · exact fun r hr => absurd hr List.not_mem_nil
    · exact h.knows p hp
  · rcases List.mem_cons.mp hp with heq | hp
    · cases heq
    · have hn := h.indexing k y fill hp
      by_cases hk : k = key
      · subst hk
        obtain ⟨doc, hdoc, -⟩ := hn
        exact absurd hp ((hown doc hdoc).2 y fill)
      · exact (names_set_doc hk).mpr hn
  · have hold {k : Key} (hn : (w.set_doc key none).Names k y) : k ≠ key ∧ w.Names k y := by
      by_cases hk : k = key
      · subst hk
        exact absurd hn (hgone y)
      · exact ⟨hk, (names_set_doc hk).mp hn⟩
    rcases List.mem_cons.mp hp with heq | hp
    · cases heq
      refine ⟨by rw [show (w.set_doc key none).home synth = some key from hhome]; rfl, fun k hn => ?_⟩
      obtain ⟨hk, hn⟩ := hold hn
      have hh := h.home_of_names hn
      rw [hhome, Option.some_inj] at hh
      exact hk hh.symm
    · exact ⟨(h.purging y stage hp).1, fun k hn => (h.purging y stage hp).2 k (hold hn).2⟩

theorem synth_tenant_new_meta (o : Map) (b : Birth) : synth_tenant (.object (new_meta o b)) = some b.synth := by
  have h : (Value.object (new_meta o b)).get "__tenant" = some (.string b.synth) := new_meta_tenant o b
  rw [synth_tenant, h]
  rfl

/-- A creation, with a synthetic tenant never drawn before. -/
theorem Inv.create (h : Inv w procs) (body : Map) (b : Birth) (fill : Fill) (hfresh : w.home b.synth = none)
    (hnone : w.docs key = none) :
    Inv { w.set_doc key (some (.object (new_meta (strip body) b))) with home := Function.update w.home b.synth (some key) }
      (.indexing key b.synth fill :: procs) := by
  have hother {y : String} {k : Key} (hh : w.home y = some k) : Function.update w.home b.synth (some key) y = some k := by
    refine (Function.update_of_ne (fun hy => ?_) _ _).trans hh
    rw [hy, hfresh] at hh
    cases hh
  have hnew : (w.set_doc key (some (.object (new_meta (strip body) b)))).Names key b.synth :=
    ⟨_, Function.update_self _ _ _, synth_tenant_new_meta _ b⟩
  have hnames {k : Key} {y : String} (hn : w.Names k y) :
      (w.set_doc key (some (.object (new_meta (strip body) b)))).Names k y := by
    by_cases hk : k = key
    · subst hk
      obtain ⟨doc, hdoc, -⟩ := hn
      rw [hnone] at hdoc
      cases hdoc
    · exact (names_set_doc hk).mpr hn
  refine ⟨fun k doc hdoc => ?_, fun y k hindex => ?_, fun y hy => ?_, fun y hy => ?_, fun p hp => ?_, fun k y fill' hp => ?_,
    fun y stage hp => ?_⟩
  · by_cases hk : k = key
    · subst hk
      have hdoc' : some (Value.object (new_meta (strip body) b)) = some doc := (Function.update_self k _ w.docs).symm.trans hdoc
      cases hdoc'
      exact ⟨b.synth, synth_tenant_new_meta _ b, Function.update_self _ _ _, .inr ⟨fill, List.mem_cons_self⟩⟩
    · obtain ⟨y, hy, hh, hindex⟩ := h.named k doc ((Function.update_of_ne hk _ _).symm.trans hdoc)
      exact ⟨y, hy, hother hh, hindex.imp_right fun ⟨fill, hp⟩ => ⟨fill, List.mem_cons_of_mem _ hp⟩⟩
  · obtain ⟨hh, hn⟩ := h.indexed y k hindex
    exact ⟨hother hh, hn.imp hnames fun ⟨stage, hp⟩ => ⟨stage, List.mem_cons_of_mem _ hp⟩⟩
  · exact (h.evolutions y hy).imp (fun ⟨k, hn⟩ => ⟨k, hnames hn⟩) fun ⟨p, hp, hfrees⟩ => ⟨p, List.mem_cons_of_mem _ hp, hfrees⟩
  · exact (h.entities y hy).imp (fun ⟨k, hn⟩ => ⟨k, hnames hn⟩) fun ⟨p, hp, hfrees⟩ => ⟨p, List.mem_cons_of_mem _ hp, hfrees⟩
  · rcases List.mem_cons.mp hp with rfl | hp
    · intro r hr
      rcases List.mem_cons.mp hr with rfl | hr
      · exact Function.update_self _ _ _
      · exact absurd hr List.not_mem_nil
    · exact fun r hr => hother (h.knows p hp r hr)
  · rcases List.mem_cons.mp hp with heq | hp
    · cases heq
      exact hnew
    · exact hnames (h.indexing k y fill' hp)
  · rcases List.mem_cons.mp hp with heq | hp
    · cases heq
    · obtain ⟨hh, hgone⟩ := h.purging y stage hp
      obtain ⟨k₀, hk₀⟩ := Option.isSome_iff_exists.mp hh
      refine ⟨Option.isSome_iff_exists.mpr ⟨k₀, hother hk₀⟩, fun k hn => ?_⟩
      by_cases hk : k = key
      · subst hk
        obtain ⟨doc, hdoc, hy⟩ := hn
        have hdoc' : some (Value.object (new_meta (strip body) b)) = some doc :=
          (Function.update_self k _ w.docs).symm.trans hdoc
        cases hdoc'
        rw [synth_tenant_new_meta, Option.some_inj] at hy
        rw [← hy, hfresh] at hk₀
        cases hk₀
      · exact hgone k ((names_set_doc hk).mp hn)

end Worlds

section Tasks

variable {chrono : Chrono Instant} {w w' : World} {procs new : List Proc} {i : Nat} {p : Proc} {c : Choice Instant}

attribute [local simp] Proc.step

/-- A task that frees nothing and makes no index entry, and goes on as such ones. -/
theorem follows_plain (hknows : ∀ q ∈ new, ∀ r ∈ q.knows, w.home r.2 = some r.1)
    (hnew : ∀ q ∈ new, (∀ k y fill, q ≠ .indexing k y fill) ∧ ∀ y stage, q ≠ .purging y stage)
    (hindexing : ∀ k y fill, p ≠ .indexing k y fill) (hpurging : ∀ y stage, p ≠ .purging y stage)
    (hevolutions : ∀ y, p.frees_evolutions = some y →
      w.evolutions y = [] ∨ (∃ k, w.Names k y) ∨ ∃ q ∈ new, q.frees_evolutions = some y)
    (hentities : ∀ y, p.frees_entities = some y →
      w.entities y = [] ∨ (∃ k, w.Names k y) ∨ ∃ q ∈ new, q.frees_entities = some y) : Follows w p new where
  knows := hknows
  indexing k y fill hmem := (hnew _ hmem).1 k y fill rfl
  purging y stage hmem := absurd rfl ((hnew _ hmem).2 y stage)
  indexed k y fill heq := absurd heq (hindexing k y fill)
  unindexed y stage heq := absurd heq (hpurging y stage)
  evolutions := hevolutions
  entities := hentities

/-- What a reader sees is stored. -/
theorem names_of_snap_get {now : Instant} {key : Key} {synth : String}
    (h : (snap_get chrono now (w.docs key)).bind synth_tenant = some synth) : w.Names key synth := by
  obtain ⟨doc, hdoc, hs⟩ := Option.bind_eq_some_iff.mp h
  exact ⟨doc, (Option.filter_eq_some_iff.mp hdoc).1, hs⟩

theorem follows_indexing {key : Key} {synth : String} {fill : Fill} (hindex : w.index synth = some key) :
    Follows w (.indexing key synth fill) [.collecting [] (some (key, fill))] where
  knows q hq := by
    rw [List.mem_singleton.mp hq]
    exact fun r hr => absurd hr List.not_mem_nil
  indexing k y fill' hq := by cases List.mem_singleton.mp hq
  purging y stage hq := by cases List.mem_singleton.mp hq
  indexed k y fill' heq := by
    cases heq
    exact hindex
  unindexed y stage heq := by cases heq
  evolutions y heq := by cases heq
  entities y heq := by cases heq

theorem inv_indexing (h : Inv w procs) {key : Key} {synth : String} {fill : Fill} (hi : procs[i]? = some (.indexing key synth fill))
    (hs : (Proc.indexing key synth fill).step chrono w c = some (w', new)) : Inv w' (new ++ procs.eraseIdx i) := by
  cases c <;> simp only [Proc.step, Option.some.injEq, Prod.mk.injEq, reduceCtorEq] at hs
  obtain ⟨rfl, rfl⟩ := hs
  have hmem := List.mem_of_getElem? hi
  have hhome := h.knows _ hmem (key, synth) List.mem_cons_self
  cases hindex : w.index synth with
  | some k =>
      -- an entry that is there already is the one to be made
      have hh := (h.indexed synth k hindex).1
      rw [hhome, Option.some_inj] at hh
      rw [Option.isSome_some, if_pos rfl]
      exact h.follow hi (follows_indexing (by rw [hindex]; exact congrArg some hh.symm))
  | none =>
      rw [Option.isSome_none, if_neg (by decide)]
      exact (h.set_index hmem).follow hi (follows_indexing (Function.update_self _ _ _))

/-- A purge that has freed one part of a copy and goes on to the next. -/
theorem follows_purging {synth : String} {stage stage' : Stage} (hgone : (w.home synth).isSome ∧ ∀ k, ¬w.Names k synth)
    (hevolutions : (Proc.purging synth stage).frees_evolutions = some synth → w.evolutions synth = [])
    (hentities : (Proc.purging synth stage).frees_entities = some synth →
      w.entities synth = [] ∨ (Proc.purging synth stage').frees_entities = some synth) :
    Follows w (.purging synth stage) [.purging synth stage'] where
  knows q hq := by
    rw [List.mem_singleton.mp hq]
    exact fun r hr => absurd hr List.not_mem_nil
  indexing k y fill hq := by cases List.mem_singleton.mp hq
  purging y s hq := by
    cases List.mem_singleton.mp hq
    exact hgone
  indexed k y fill heq := by cases heq
  unindexed y s heq := by
    cases heq
    exact .inr ⟨stage', List.mem_singleton_self _⟩
  evolutions y heq := by
    obtain rfl : synth = y := by cases stage <;> cases heq; rfl
    exact .inl (hevolutions heq)
  entities y heq := by
    obtain rfl : synth = y := by cases stage <;> cases heq <;> rfl
    exact (hentities heq).imp_right fun hfrees => .inr ⟨_, List.mem_singleton_self _, hfrees⟩

theorem inv_purging (h : Inv w procs) {synth : String} {stage : Stage} (hi : procs[i]? = some (.purging synth stage))
    (hs : (Proc.purging synth stage).step chrono w c = some (w', new)) : Inv w' (new ++ procs.eraseIdx i) := by
  have hgone := h.purging synth stage (List.mem_of_getElem? hi)
  cases c <;> cases stage <;> simp only [Proc.step, Option.some.injEq, Prod.mk.injEq, reduceCtorEq] at hs
  all_goals obtain ⟨rfl, rfl⟩ := hs
  · exact (h.set_evolutions [] fun hne => absurd rfl hne).follow hi
      (follows_purging hgone (fun _ => Function.update_self _ _ _) fun _ => .inr rfl)
  · exact (h.set_entities [] fun hne => absurd rfl hne).follow hi
      (follows_purging hgone (fun heq => by cases heq) fun _ => .inl (Function.update_self _ _ _))
  · refine (h.unset_index hgone.2).follow hi ⟨fun q hq => by (cases hq), fun k y fill hq => by (cases hq),
      fun y stage hq => by (cases hq), fun k y fill heq => by (cases heq), fun y stage heq => ?_,
      fun y heq => by (cases heq), fun y heq => by (cases heq)⟩
    cases heq
    exact .inl (Function.update_self _ _ _)

/-- Neither an index entry nor a purge. -/
def Proc.Plain (p : Proc) : Prop := (∀ k y fill, p ≠ .indexing k y fill) ∧ ∀ y stage, p ≠ .purging y stage

/-- A task that frees nothing goes on as one that frees nothing more. -/
theorem Inv.plain (h : Inv w procs) (hi : procs[i]? = some p) {q : Proc} (hknows : ∀ r ∈ q.knows, w.home r.2 = some r.1)
    (hq : q.Plain) (hp : p.Plain)
    (hevolutions : ∀ y, p.frees_evolutions = some y →
      w.evolutions y = [] ∨ (∃ k, w.Names k y) ∨ q.frees_evolutions = some y)
    (hentities : ∀ y, p.frees_entities = some y →
      w.entities y = [] ∨ (∃ k, w.Names k y) ∨ q.frees_entities = some y) : Inv w ([q] ++ procs.eraseIdx i) :=
  h.follow hi (follows_plain (fun q' hq' => by rw [List.mem_singleton.mp hq']; exact hknows)
    (fun q' hq' => by rw [List.mem_singleton.mp hq']; exact hq) hp.1 hp.2
    (fun y hy => (hevolutions y hy).imp_right fun hr => hr.imp_right fun hf => ⟨q, List.mem_singleton_self _, hf⟩)
    (fun y hy => (hentities y hy).imp_right fun hr => hr.imp_right fun hf => ⟨q, List.mem_singleton_self _, hf⟩))

theorem inv_collecting (h : Inv w procs) {victims : List (Key × Value)} {next : Option (Key × Fill)}
    (hi : procs[i]? = some (.collecting victims next))
    (hs : (Proc.collecting victims next).step chrono w c = some (w', new)) : Inv w' (new ++ procs.eraseIdx i) := by
  have hold := h.knows _ (List.mem_of_getElem? hi)
  have hfollow {q : Proc} (hq : ∀ r ∈ q.knows, w.home r.2 = some r.1) (hplain : q.Plain) : Inv w ([q] ++ procs.eraseIdx i) :=
    h.plain hi hq hplain (by simp [Proc.Plain]) (fun _ heq => by cases heq) (fun _ heq => by cases heq)
  cases c <;> simp only [Proc.step, reduceCtorEq] at hs
  case see key =>
    cases hdoc : w.docs key with
    | none =>
        rw [hdoc] at hs
        cases hs
        exact hfollow hold (by simp [Proc.Plain])
    | some read =>
        rw [hdoc] at hs
        cases hs
        refine hfollow (fun r hr => ?_) (by simp [Proc.Plain])
        rw [Proc.knows, List.filterMap_append] at hr
        rcases List.mem_append.mp hr with hr | hr
        · exact hold r hr
        · obtain ⟨y, hy, hhome, -⟩ := h.named key read hdoc
          simp only [List.filterMap_cons, hy, Option.map_some, List.filterMap_nil, List.mem_singleton] at hr
          rw [hr]
          exact hhome
  case done =>
    cases hs
    exact hfollow hold (by simp [Proc.Plain])

theorem inv_removing (h : Inv w procs) {victims : List (Key × Value)} {next : Option (Key × Fill)}
    (hi : procs[i]? = some (.removing victims next)) (hm : (Proc.removing victims next).Orderly chrono w procs c)
    (hs : (Proc.removing victims next).step chrono w c = some (w', new)) : Inv w' (new ++ procs.eraseIdx i) := by
  have hold := h.knows _ (List.mem_of_getElem? hi)
  cases victims with
  | nil =>
      cases c <;> simp only [Proc.step, reduceCtorEq] at hs
      cases next with
      | some r =>
          cases hs
          exact h.plain hi (fun r hr => absurd hr List.not_mem_nil) (by simp [Proc.Plain]) (by simp [Proc.Plain])
            (fun _ heq => by cases heq) (fun _ heq => by cases heq)
      | none =>
          cases hs
          exact h.follow hi (follows_plain (fun q hq => by cases hq) (fun q hq => by cases hq) (by simp) (by simp)
            (fun _ heq => by cases heq) (fun _ heq => by cases heq))
  | cons v victims =>
      obtain ⟨key, read⟩ := v
      cases c <;> simp only [Proc.step, reduceCtorEq, Option.some.injEq, Prod.mk.injEq] at hs
      obtain ⟨rfl, rfl⟩ := hs
      have hrest : ∀ r ∈ (Proc.removing victims next).knows, w.home r.2 = some r.1 := fun r hr => by
        refine hold r ?_
        rw [Proc.knows, List.filterMap_cons]
        split
        · exact hr
        · exact List.mem_cons_of_mem _ hr
      cases hread : synth_tenant read with
      | some synth =>
          have hhome : w.home synth = some key := hold (key, synth) (by simp [Proc.knows, hread])
          have hremoved := h.remove hhome fun doc hdoc => ⟨(hm doc hdoc).1.trans hread, (hm doc hdoc).2⟩
          have hfollow := hremoved.plain (i := i + 1) (q := .removing victims next)
            ((List.getElem?_cons_succ ..).trans hi) hrest (by simp [Proc.Plain]) (by simp [Proc.Plain])
            (fun _ heq => by cases heq) (fun _ heq => by cases heq)
          rw [purge_data_bg, hread]
          exact hfollow
      | none =>
          have hnone : w.docs key = none := by
            cases hdoc : w.docs key with
            | none => rfl
            | some doc =>
                obtain ⟨y, hy, -⟩ := h.named key doc hdoc
                rw [(hm doc hdoc).1, hread] at hy
                cases hy
          have hsame : w.set_doc key none = w := by
            rw [World.set_doc, ← hnone, Function.update_eq_self]
          rw [purge_data_bg, hread, hsame]
          exact h.plain hi hrest (by simp [Proc.Plain]) (by simp [Proc.Plain]) (fun _ heq => by cases heq)
            (fun _ heq => by cases heq)

/-- A task that is over, where what it was to free is free or named. -/
theorem Inv.over (h : Inv w procs) (hi : procs[i]? = some p) (hp : p.Plain)
    (hevolutions : ∀ y, p.frees_evolutions = some y → w.evolutions y = [])
    (hentities : ∀ y, p.frees_entities = some y → w.entities y = []) : Inv w ([] ++ procs.eraseIdx i) :=
  h.follow hi (follows_plain (fun q hq => by cases hq) (fun q hq => by cases hq) hp.1 hp.2
    (fun y hy => .inl (hevolutions y hy)) (fun y hy => .inl (hentities y hy)))

theorem knows_of_names (h : Inv w procs) {key : Key} {synth : String} (hn : w.Names key synth) {r : Key × String}
    (hr : r ∈ [(key, synth)]) : w.home r.2 = some r.1 := by
  rw [List.mem_singleton.mp hr]
  exact h.home_of_names hn

theorem inv_filling (h : Inv w procs) {key : Key} {fill : Fill} (hi : procs[i]? = some (.filling key fill))
    (hs : (Proc.filling key fill).step chrono w c = some (w', new)) : Inv w' (new ++ procs.eraseIdx i) := by
  cases c <;> cases fill <;> simp only [Proc.step, reduceCtorEq] at hs
  all_goals split at hs <;> cases hs
  next synth hread =>
    exact h.plain hi (fun r hr => knows_of_names h (names_of_snap_get hread) hr) (by simp [Proc.Plain]) (by simp [Proc.Plain])
      (fun _ heq => by cases heq) (fun _ heq => by cases heq)
  next => exact h.over hi (by simp [Proc.Plain]) (fun _ heq => by cases heq) (fun _ heq => by cases heq)
  next =>
    exact h.plain hi (q := .cloning key) (fun r hr => absurd hr List.not_mem_nil) (by simp [Proc.Plain]) (by simp [Proc.Plain])
      (fun _ heq => by cases heq) (fun _ heq => by cases heq)
  next =>
    exact h.plain hi (q := .finishing key) (fun r hr => absurd hr List.not_mem_nil) (by simp [Proc.Plain]) (by simp [Proc.Plain])
      (fun _ heq => by cases heq) (fun _ heq => by cases heq)

theorem inv_cloning (h : Inv w procs) {key : Key} (hi : procs[i]? = some (.cloning key))
    (hs : (Proc.cloning key).step chrono w c = some (w', new)) : Inv w' (new ++ procs.eraseIdx i) := by
  cases c <;> simp only [Proc.step, reduceCtorEq] at hs
  split at hs <;> cases hs
  next synth hread =>
    exact h.plain hi (fun r hr => knows_of_names h (names_of_snap_get hread) hr) (by simp [Proc.Plain]) (by simp [Proc.Plain])
      (fun _ heq => by cases heq) (fun _ heq => by cases heq)
  next =>
    exact h.plain hi (fun r hr => absurd hr List.not_mem_nil) (by simp [Proc.Plain]) (by simp [Proc.Plain])
      (fun _ heq => by cases heq) (fun _ heq => by cases heq)

/-- A check that passes has found its own snapshot, so what the fill has copied is named. -/
theorem inv_checking (h : Inv w procs) {key : Key} {synth : String} {more : Nat}
    (hi : procs[i]? = some (.checking key synth more)) (hm : (Proc.checking key synth more).Orderly chrono w procs c)
    (hs : (Proc.checking key synth more).step chrono w c = some (w', new)) : Inv w' (new ++ procs.eraseIdx i) := by
  have hold := h.knows _ (List.mem_of_getElem? hi)
  cases c <;> simp only [Proc.step, reduceCtorEq] at hs
  next now =>
    split at hs <;> cases hs
    · exact h.plain hi (fun r hr => absurd hr List.not_mem_nil) (by simp [Proc.Plain]) (by simp [Proc.Plain])
        (fun y heq => .inr (.inr heq)) (fun y heq => .inr (.inr heq))
    next _ doc hread =>
      have hn : w.Names key synth := ⟨doc, (Option.filter_eq_some_iff.mp hread).1, hm doc hread⟩
      refine h.plain hi (fun r hr => absurd hr List.not_mem_nil) (by simp [Proc.Plain]) (by simp [Proc.Plain])
        (fun y heq => .inr (.inl ⟨key, ?_⟩)) (fun y heq => .inr (.inl ⟨key, ?_⟩))
      all_goals
        obtain rfl : synth = y := Option.some_inj.mp heq
        exact hn
    · exact h.plain hi hold (by simp [Proc.Plain]) (by simp [Proc.Plain]) (fun y heq => .inr (.inr heq))
        (fun y heq => .inr (.inr heq))

theorem inv_copying (h : Inv w procs) {key : Key} {synth : String} {more : Nat}
    (hi : procs[i]? = some (.copying key synth more))
    (hs : (Proc.copying key synth more).step chrono w c = some (w', new)) : Inv w' (new ++ procs.eraseIdx i) := by
  have hmem := List.mem_of_getElem? hi
  have hold := h.knows _ hmem
  cases c <;> simp only [Proc.step, reduceCtorEq] at hs
  case entity id =>
    cases hs
    exact (h.set_entities (id :: w.entities synth) fun _ => ⟨_, hmem, rfl⟩).plain hi hold (by simp [Proc.Plain])
      (by simp [Proc.Plain]) (fun y heq => .inr (.inr heq)) (fun y heq => .inr (.inr heq))
  case evolution id =>
    cases hs
    exact (h.set_evolutions (id :: w.evolutions synth) fun _ => ⟨_, hmem, rfl⟩).plain hi hold (by simp [Proc.Plain])
      (by simp [Proc.Plain]) (fun y heq => .inr (.inr heq)) (fun y heq => .inr (.inr heq))
  case done =>
    cases hs
    exact h.plain hi hold (by simp [Proc.Plain]) (by simp [Proc.Plain]) (fun y heq => .inr (.inr heq))
      (fun y heq => .inr (.inr heq))

theorem inv_recording (h : Inv w procs) {key : Key} {synth id : String} {more : Nat}
    (hi : procs[i]? = some (.recording key synth more id))
    (hs : (Proc.recording key synth more id).step chrono w c = some (w', new)) : Inv w' (new ++ procs.eraseIdx i) := by
  have hmem := List.mem_of_getElem? hi
  have hold := h.knows _ hmem
  cases c <;> simp only [Proc.step, reduceCtorEq] at hs
  case go now =>
    cases hs
    exact (h.set_evolutions (id :: w.evolutions synth) fun _ => ⟨_, hmem, rfl⟩).plain hi hold (by simp [Proc.Plain])
      (by simp [Proc.Plain]) (fun y heq => .inr (.inr heq)) (fun y heq => .inr (.inr heq))
  case done =>
    cases hs
    exact h.plain hi hold (by simp [Proc.Plain]) (by simp [Proc.Plain]) (fun y heq => .inr (.inr heq))
      (fun y heq => .inr (.inr heq))

theorem inv_reaping (h : Inv w procs) {synth : String} {temporal : Bool} (hi : procs[i]? = some (.reaping synth temporal))
    (hs : (Proc.reaping synth temporal).step chrono w c = some (w', new)) : Inv w' (new ++ procs.eraseIdx i) := by
  cases c <;> cases temporal <;> simp only [Proc.step, reduceCtorEq] at hs
  all_goals cases hs
  · refine (h.set_entities [] fun hne => absurd rfl hne).over hi (by simp [Proc.Plain]) (fun y heq => by cases heq)
      fun y heq => ?_
    obtain rfl : synth = y := Option.some_inj.mp heq
    exact Function.update_self _ _ _
  · refine (h.set_evolutions [] fun hne => absurd rfl hne).plain hi (fun r hr => absurd hr List.not_mem_nil)
      (by simp [Proc.Plain]) (by simp [Proc.Plain]) (fun y heq => .inl ?_) (fun y heq => .inr (.inr heq))
    obtain rfl : synth = y := Option.some_inj.mp heq
    exact Function.update_self _ _ _

theorem inv_finishing (h : Inv w procs) {key : Key} (hi : procs[i]? = some (.finishing key))
    (hs : (Proc.finishing key).step chrono w c = some (w', new)) : Inv w' (new ++ procs.eraseIdx i) := by
  cases c <;> simp only [Proc.step, reduceCtorEq] at hs
  split at hs <;> cases hs
  next read hread =>
    obtain ⟨y, hy, hhome, -⟩ := h.named key read (Option.filter_eq_some_iff.mp hread).1
    refine h.plain hi (fun r hr => ?_) (by simp [Proc.Plain]) (by simp [Proc.Plain]) (fun _ heq => by cases heq)
      (fun _ heq => by cases heq)
    simp only [Proc.knows, hy, Option.map_some, Option.toList_some, List.mem_singleton] at hr
    rw [hr]
    exact hhome
  next => exact h.over hi (by simp [Proc.Plain]) (fun _ heq => by cases heq) (fun _ heq => by cases heq)

theorem synth_tenant_finished (result : Result) (ts : String) (doc : Value) :
    synth_tenant (finished result ts doc) = synth_tenant doc := by
  cases doc with
  | object o =>
      rw [synth_tenant, get_finished result ts o (by decide)]
      rfl
  | _ => rfl

theorem inv_putting (h : Inv w procs) {key : Key} {result : Result} {read : Value}
    (hi : procs[i]? = some (.putting key result read)) (hm : (Proc.putting key result read).Orderly chrono w procs c)
    (hs : (Proc.putting key result read).step chrono w c = some (w', new)) : Inv w' (new ++ procs.eraseIdx i) := by
  cases c <;> simp only [Proc.step, reduceCtorEq] at hs
  next ts =>
    cases hs
    refine (h.put fun old hold => ?_).over hi (by simp [Proc.Plain]) (fun _ heq => by cases heq) (fun _ heq => by cases heq)
    rw [synth_tenant_finished]
    exact (hm old hold).symm

theorem inv_run (h : Inv w procs) (hi : procs[i]? = some p) (hm : p.Orderly chrono w procs c)
    (hs : p.step chrono w c = some (w', new)) : Inv w' (new ++ procs.eraseIdx i) := by
  cases p with
  | indexing key synth fill => exact inv_indexing h hi hs
  | collecting victims next => exact inv_collecting h hi hs
  | removing victims next => exact inv_removing h hi hm hs
  | purging synth stage => exact inv_purging h hi hs
  | filling key fill => exact inv_filling h hi hs
  | cloning key => exact inv_cloning h hi hs
  | checking key synth more => exact inv_checking h hi hm hs
  | copying key synth more => exact inv_copying h hi hs
  | recording key synth more entity => exact inv_recording h hi hs
  | reaping synth temporal => exact inv_reaping h hi hs
  | finishing key => exact inv_finishing h hi hs
  | putting key result read => exact inv_putting h hi hm hs

end Tasks

section Results

variable {chrono : Chrono Instant} {s t : System} {m : Move Instant}

theorem inv_initial : Inv initial.world initial.procs where
  named _ _ h := by cases h
  indexed _ _ h := by cases h
  evolutions _ h := absurd rfl h
  entities _ h := absurd rfl h
  knows _ h := by cases h
  indexing _ _ _ h := by cases h
  purging _ _ h := by cases h

theorem inv_step (h : Inv s.world s.procs) (hm : Orderly chrono s m) (hs : step chrono s m = some t) :
    Inv t.world t.procs := by
  cases m with
  | create key body b fill =>
      simp only [step] at hs
      split at hs
      · cases hs
      next hfresh =>
        cases hdoc : s.world.docs key with
        | some doc =>
            rw [hdoc] at hs
            cases hs
            exact h
        | none =>
            rw [hdoc] at hs
            cases hs
            exact h.create body b fill (Option.not_isSome_iff_eq_none.mp hfresh) hdoc
  | remove =>
      cases hs
      exact {
        named := fun k doc hdoc => by
          obtain ⟨y, hy, hh, hindex⟩ := h.named k doc hdoc
          exact ⟨y, hy, hh, hindex.imp_right fun ⟨fill, hp⟩ => ⟨fill, List.mem_cons_of_mem _ hp⟩⟩
        indexed := fun y k hindex => by
          obtain ⟨hh, hn⟩ := h.indexed y k hindex
          exact ⟨hh, hn.imp_right fun ⟨stage, hp⟩ => ⟨stage, List.mem_cons_of_mem _ hp⟩⟩
        evolutions := fun y hy => (h.evolutions y hy).imp_right fun ⟨p, hp, hf⟩ => ⟨p, List.mem_cons_of_mem _ hp, hf⟩
        entities := fun y hy => (h.entities y hy).imp_right fun ⟨p, hp, hf⟩ => ⟨p, List.mem_cons_of_mem _ hp, hf⟩
        knows := List.forall_mem_cons.mpr ⟨fun r hr => absurd hr List.not_mem_nil, h.knows⟩
        indexing := fun k y fill hp => h.indexing k y fill ((List.mem_cons.mp hp).resolve_left (by simp))
        purging := fun y stage hp => h.purging y stage ((List.mem_cons.mp hp).resolve_left (by simp)) }
  | run i c =>
      obtain ⟨p, hi, hr⟩ := Option.bind_eq_some_iff.mp hs
      obtain ⟨⟨w', new⟩, hstep, rfl⟩ := Option.map_eq_some_iff.mp hr
      exact inv_run h hi (hm p hi) hstep

/-- However the tasks interleave, as long as every step is orderly no copy and
no index entry is left behind once all have settled. -/
theorem copies_freed (chrono : Chrono Instant) (s : System) (hrun : Run (step chrono) (Orderly chrono) initial s)
    (hquiet : s.procs = []) : Reached s.world := by
  have h : Inv s.world s.procs :=
    hrun.keeps (P := fun s => Inv s.world s.procs) (fun _ _ _ h hm hs => inv_step h hm hs) inv_initial
  rw [hquiet] at h
  have hnamed {y : String} {k : Key} (hn : s.world.Names k y) : ∃ key, s.world.index y = some key ∧ s.world.Names key y := by
    obtain ⟨doc, hdoc, hy⟩ := hn
    obtain ⟨y', hy', -, hindex | ⟨fill, hp⟩⟩ := h.named k doc hdoc
    · rw [hy, Option.some_inj] at hy'
      exact ⟨k, hy' ▸ hindex, doc, hdoc, hy⟩
    · exact absurd hp List.not_mem_nil
  rintro y (hentities | hevolutions | hindex)
  · rcases h.entities y hentities with ⟨k, hn⟩ | ⟨p, hp, -⟩
    · exact hnamed hn
    · exact absurd hp List.not_mem_nil
  · rcases h.evolutions y hevolutions with ⟨k, hn⟩ | ⟨p, hp, -⟩
    · exact hnamed hn
    · exact absurd hp List.not_mem_nil
  · obtain ⟨k, hk⟩ := Option.isSome_iff_exists.mp hindex
    rcases (h.indexed y k hk).2 with hn | ⟨stage, hp⟩
    · exact hnamed hn
    · exact absurd hp List.not_mem_nil

end Results

section Examples

def Proc.is_indexing (key : Key) : Proc → Bool
  | .indexing k _ _ => k == key
  | _ => false

theorem no_indexing_iff {key : Key} {procs : List Proc} :
    procs.any (Proc.is_indexing key) = false ↔ ∀ synth fill, Proc.indexing key synth fill ∉ procs := by
  rw [List.any_eq_false]
  constructor
  · intro h synth fill hp
    exact h _ hp (beq_self_eq_true key)
  · intro h p hp hkey
    cases p with
    | indexing k synth fill =>
        obtain rfl := eq_of_beq hkey
        exact h synth fill hp
    | _ => cases hkey

instance (chrono : Chrono Instant) (w : World) (procs : List Proc) (p : Proc) (c : Choice Instant) :
    Decidable (p.Orderly chrono w procs c) :=
  match p, c with
  | .checking key synth _, .go now =>
      decidable_of_iff ((snap_get chrono now (w.docs key)).all (fun doc => decide (synth_tenant doc = some synth)) = true)
        (by cases h : snap_get chrono now (w.docs key) <;> simp [Proc.Orderly, h])
  | .putting key _ read, _ =>
      decidable_of_iff ((w.docs key).all (fun doc => decide (synth_tenant doc = synth_tenant read)) = true)
        (by cases h : w.docs key <;> simp [Proc.Orderly, h])
  | .removing ((key, read) :: _) _, _ =>
      decidable_of_iff ((w.docs key).all (fun doc =>
          decide (synth_tenant doc = synth_tenant read ∧ procs.any (Proc.is_indexing key) = false)) = true)
        (by cases h : w.docs key <;> simp [Proc.Orderly, h, no_indexing_iff, -List.any_eq_false])
  | .removing [] _, _ | .indexing _ _ _, _ | .collecting _ _, _ | .purging _ _, _ | .filling _ _, _ | .cloning _, _
  | .copying _ _ _, _ | .recording _ _ _ _, _ | .reaping _ _, _ | .finishing _, _ => instDecidableTrue
  | .checking _ _ _, .see _ | .checking _ _ _, .entity _ | .checking _ _ _, .evolution _ | .checking _ _ _, .report _ _
  | .checking _ _ _, .write _ | .checking _ _ _, .done => instDecidableTrue

instance (chrono : Chrono Instant) (s : System) (m : Move Instant) : Decidable (Orderly chrono s m) :=
  match m with
  | .run i c =>
      decidable_of_iff (s.procs[i]?.all (fun p => decide (p.Orderly chrono s.world s.procs c)) = true)
        (by cases h : s.procs[i]? <;> simp [Orderly, h])
  | .create _ _ _ _ | .remove => instDecidableTrue

def key : Key := ("", "urn:s")

def birth (synth : String) : Birth :=
  ⟨"urn:s", "2026-01-01T08:00:00.000Z", "2026-01-01T08:00:00.000Z", "2026-01-02T08:00:00.000Z", synth, none⟩

def noon : Choice String := .go "2026-01-01T12:00:00.000Z"

def ready : Choice String := .report ⟨"success", none⟩ "2026-01-01T12:00:00.000Z"

/-- A snapshot is created and filled by one query. -/
def filled : List (Move String) := [.create key [] (birth "snap-1") (.queries 1), .run 0 noon, .run 0 .done, .run 0 .done,
  .run 0 noon, .run 0 noon, .run 0 (.entity "urn:e"), .run 0 noon, .run 0 .done, .run 0 noon, .run 0 ready,
  .run 0 (.write "2026-01-01T12:00:00.000Z")]

/-- A snapshot is deleted and created again while its fill copies a page. -/
def recreated : List (Move String) := [.create key [] (birth "snap-1") (.queries 1), .run 0 noon, .run 0 .done, .run 0 .done,
  .run 0 noon, .run 0 noon,
  -- the delete and its purge
  .remove, .run 0 (.see key), .run 0 .done, .run 0 noon, .run 0 .done, .run 0 noon, .run 0 noon, .run 0 noon,
  -- the new snapshot
  .create key [] (birth "snap-2") (.queries 0), .run 0 noon, .run 0 .done, .run 0 .done, .run 0 noon, .run 0 noon,
  .run 0 ready, .run 0 (.write "2026-01-01T12:00:00.000Z"),
  -- the rest of the first fill
  .run 0 (.entity "urn:e"), .run 0 .done, .run 0 .done, .run 0 noon, .run 0 ready,
  .run 0 (.write "2026-01-01T12:00:00.000Z")]

theorem copies_freed_filled : ∃ s, exec (step fixed_width) (Orderly fixed_width) initial filled = some s ∧ s.procs = [] ∧
    s.world.entities "snap-1" = ["urn:e"] ∧ Reached s.world := by
  obtain ⟨s, hs⟩ : ∃ s, exec (step fixed_width) (Orderly fixed_width) initial filled = some s :=
    Option.isSome_iff_exists.mp (by decide)
  have hfacts : (exec (step fixed_width) (Orderly fixed_width) initial filled).all (fun s : System =>
      s.procs.isEmpty && decide (s.world.entities "snap-1" = ["urn:e"])) = true := by decide
  rw [hs, Option.all_some, Bool.and_eq_true, List.isEmpty_iff, decide_eq_true_eq] at hfacts
  exact ⟨s, hs, hfacts.1, hfacts.2, copies_freed fixed_width s (Run.of_exec hs) hfacts.1⟩

theorem copies_left_recreated : ¬ ∀ s, Free (step fixed_width) initial s → s.procs = [] → Reached s.world := by
  intro hall
  obtain ⟨s, hs⟩ : ∃ s, exec (step fixed_width) (fun _ _ => True) initial recreated = some s :=
    Option.isSome_iff_exists.mp (by decide)
  have hfacts : (exec (step fixed_width) (fun _ _ => True) initial recreated).all (fun s : System =>
      s.procs.isEmpty && decide (s.world.entities "snap-1" = ["urn:e"] ∧ s.world.index "snap-1" = none)) = true := by decide
  rw [hs, Option.all_some, Bool.and_eq_true, List.isEmpty_iff, decide_eq_true_eq] at hfacts
  obtain ⟨hquiet, hentities, hindex⟩ := hfacts
  obtain ⟨k, hk, -⟩ := hall s (Run.of_exec hs) hquiet "snap-1" (.inl (by simp [hentities]))
  rw [hindex] at hk
  cases hk

end Examples

end AntaresBroker.SnapshotCopies
