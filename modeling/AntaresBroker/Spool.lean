import AntaresBroker.SortedMap
import Mathlib.Logic.Function.Basic
import Mathlib.Logic.Relation

namespace AntaresBroker.Spool

open SortedMap

/-- What becomes of an entry: the message made of it, if one can be made, whether that can be carried, and whether the entry
is needed once the message is out. -/
structure Route (ι E M : Type) where
  allowed : ι → E → Prop
  send : ι → E → Option M
  fits : M → Prop
  keep : ι → E → Bool
  limit : Nat

structure Row (E : Type) where
  entry : E
  published : Bool

/-- A worker, with what it has read and not tried yet, what it is to delete and what it is to mark. -/
structure Worker (ι E : Type) where
  page : List (ι × E)
  acked : List ι
  retained : List ι

def Worker.idle {ι E : Type} : Worker ι E := ⟨[], [], []⟩

structure State (ι E M W : Type) where
  rows : List (ι × Row E)
  workers : W → Worker ι E
  accepted : List (ι × M)
  written : List (ι × E)
  reaped : List ι

variable {ι E M W : Type} [LinearOrder ι] [DecidableEq W]

def State.start : State ι E M W := ⟨[], fun _ => .idle, [], [], []⟩

def State.put (st : State ι E M W) (w : W) (worker : Worker ι E) : State ι E M W :=
  { st with workers := Function.update st.workers w worker }

def pending (rows : List (ι × Row E)) : List (ι × Row E) := rows.filter (fun p => !p.2.published)

def page (limit : Nat) (rows : List (ι × Row E)) : List (ι × E) :=
  ((pending rows).take limit).map (fun p => (p.1, p.2.entry))

def publish (i : ι) (rows : List (ι × Row E)) : List (ι × Row E) :=
  rows.map (fun p => (p.1, if p.1 = i then { p.2 with published := true } else p.2))

def delete (ids : List ι) (rows : List (ι × Row E)) : List (ι × Row E) := rows.filter (fun p => !decide (p.1 ∈ ids))

/-- Where the number of an entry that has been sent goes. -/
def Worker.sent (worker : Worker ι E) (i : ι) (page : List (ι × E)) (keep : Bool) : Worker ι E :=
  if keep then ⟨page, worker.acked, worker.retained ++ [i]⟩ else ⟨page, worker.acked ++ [i], worker.retained⟩

variable (R : Route ι E M)

inductive Step : State ι E M W → State ι E M W → Prop
  | write {st : State ι E M W} {i : ι} {e : E} : R.allowed i e → st.written.lookup i = none →
      Step st { st with rows := insert i ⟨e, false⟩ st.rows, written := (i, e) :: st.written }
  | peek {st : State ι E M W} {w : W} : st.workers w = .idle → Step st (st.put w ⟨page R.limit st.rows, [], []⟩)
  | skip {st : State ι E M W} {w : W} {i : ι} {e : E} {rest : List (ι × E)} : (st.workers w).page = (i, e) :: rest →
      R.send i e = none → Step st (st.put w ((st.workers w).sent i rest false))
  | send {st : State ι E M W} {w : W} {i : ι} {e : E} {m : M} {rest : List (ι × E)} :
      (st.workers w).page = (i, e) :: rest → R.send i e = some m → R.fits m →
      Step st { st.put w ((st.workers w).sent i rest (R.keep i e)) with accepted := st.accepted ++ [(i, m)] }
  /-- the rest of the page is left; the message may have arrived -/
  | fail {st : State ι E M W} {w : W} {i : ι} {e : E} {m : M} {rest : List (ι × E)} (arrived : Bool) :
      (st.workers w).page = (i, e) :: rest → R.send i e = some m → (arrived = true → R.fits m) →
      Step st { st.put w ⟨[], (st.workers w).acked, (st.workers w).retained⟩ with
        accepted := if arrived then st.accepted ++ [(i, m)] else st.accepted }
  | retain {st : State ι E M W} {w : W} {i : ι} {acked rest : List ι} (done : Bool) :
      st.workers w = ⟨[], acked, i :: rest⟩ →
      Step st { st.put w ⟨[], acked, rest⟩ with rows := if done then publish i st.rows else st.rows }
  | ack {st : State ι E M W} {w : W} {acked : List ι} (done : Bool) : st.workers w = ⟨[], acked, []⟩ →
      Step st { st.put w .idle with rows := if done then delete acked st.rows else st.rows }
  | crash {st : State ι E M W} (w : W) : Step st (st.put w .idle)
  | reap {st : State ι E M W} {i : ι} {e : E} : st.rows.lookup i = some ⟨e, true⟩ →
      Step st { st with rows := erase i st.rows, reaped := i :: st.reaped }

/-- Every interleaving of the writers and any number of workers, with crashes and failures anywhere. -/
def Reached : State ι E M W → Prop := Relation.ReflTransGen (Step R) .start

/-- What a worker holds, as far as it is true of the entries written. -/
structure Honest (st : State ι E M W) (worker : Worker ι E) : Prop where
  page : ∀ i e, (i, e) ∈ worker.page → st.written.lookup i = some e
  acked : ∀ i ∈ worker.acked, ∃ e, st.written.lookup i = some e ∧
    ∀ m, R.send i e = some m → R.keep i e = false ∧ (i, m) ∈ st.accepted
  retained : ∀ i ∈ worker.retained, ∃ e m, st.written.lookup i = some e ∧ R.send i e = some m ∧ R.keep i e = true ∧
    (i, m) ∈ st.accepted

structure Inv (st : State ι E M W) : Prop where
  sorted : Sorted st.rows
  allowed : ∀ i e, st.written.lookup i = some e → R.allowed i e
  rows : ∀ i r, st.rows.lookup i = some r → st.written.lookup i = some r.entry
  workers : ∀ w, Honest R st (st.workers w)
  /-- an entry is there and unmarked until its message is out -/
  sent : ∀ i e m, st.written.lookup i = some e → R.send i e = some m →
    st.rows.lookup i = some ⟨e, false⟩ ∨ (i, m) ∈ st.accepted
  /-- a message stands for its entry, and the entry is there as long as it is needed -/
  stands : ∀ i m, (i, m) ∈ st.accepted → ∃ e, st.written.lookup i = some e ∧ R.send i e = some m ∧
    (R.keep i e = true → (∃ published, st.rows.lookup i = some ⟨e, published⟩) ∨ i ∈ st.reaped)

section Rows

variable {rows : List (ι × Row E)}

theorem lookup_publish (i j : ι) : (publish i rows).lookup j =
    (rows.lookup j).map (fun r => if j = i then { r with published := true } else r) :=
  lookup_map_value (fun (j : ι) (r : Row E) => if j = i then (⟨r.entry, true⟩ : Row E) else r) rows j

theorem sorted_publish (i : ι) (h : Sorted rows) : Sorted (publish i rows) := List.pairwise_map.mpr h

theorem lookup_delete (ids : List ι) (j : ι) : (delete ids rows).lookup j = if j ∈ ids then none else rows.lookup j := by
  rw [delete, lookup_filter (fun j => !decide (j ∈ ids))]
  by_cases hj : j ∈ ids <;> simp [hj]

theorem mem_page {limit : Nat} {i : ι} {e : E} (hs : Sorted rows) (h : (i, e) ∈ page limit rows) :
    rows.lookup i = some ⟨e, false⟩ := by
  obtain ⟨⟨j, r⟩, hr, heq⟩ := List.mem_map.mp h
  obtain ⟨rfl, rfl⟩ := Prod.mk.inj heq
  obtain ⟨hmem, hpending⟩ := List.mem_filter.mp (List.mem_of_mem_take hr)
  rw [lookup_of_mem hs hmem]
  obtain ⟨e, published⟩ := r
  cases published with
  | false => rfl
  | true => cases hpending

end Rows

section Invariant

variable {R} {st : State ι E M W}

omit [DecidableEq W] in
theorem honest_idle : Honest R st .idle :=
  ⟨fun _ _ h => (List.not_mem_nil h).elim, fun _ h => (List.not_mem_nil h).elim, fun _ h => (List.not_mem_nil h).elim⟩

omit [DecidableEq W] in
theorem Inv.start : Inv R (.start : State ι E M W) where
  sorted := sorted_nil
  allowed i e h := by cases h
  rows i r h := by cases h
  workers w := honest_idle
  sent i e m h := by cases h
  stands i m h := by cases h

omit [DecidableEq W] in
theorem Honest.mono {st' : State ι E M W} {worker : Worker ι E} (h : Honest R st worker)
    (hwritten : ∀ i e, st.written.lookup i = some e → st'.written.lookup i = some e)
    (haccepted : ∀ p ∈ st.accepted, p ∈ st'.accepted) : Honest R st' worker where
  page i e hi := hwritten i e (h.page i e hi)
  acked i hi := by
    obtain ⟨e, he, hsent⟩ := h.acked i hi
    exact ⟨e, hwritten i e he, fun m hm => ⟨(hsent m hm).1, haccepted _ (hsent m hm).2⟩⟩
  retained i hi := by
    obtain ⟨e, m, he, hm, hkeep, hsent⟩ := h.retained i hi
    exact ⟨e, m, hwritten i e he, hm, hkeep, haccepted _ hsent⟩

omit [DecidableEq W] in
theorem Honest.sent {worker : Worker ι E} {i : ι} {e : E} {rest : List (ι × E)} (h : Honest R st worker)
    (hpage : worker.page = (i, e) :: rest) {keep : Bool}
    (hack : keep = false → ∀ m, R.send i e = some m → R.keep i e = false ∧ (i, m) ∈ st.accepted)
    (hretain : keep = true → ∃ m, R.send i e = some m ∧ R.keep i e = true ∧ (i, m) ∈ st.accepted) :
    Honest R st (worker.sent i rest keep) := by
  have hwritten : st.written.lookup i = some e := h.page i e (by rw [hpage]; exact List.mem_cons_self)
  have hrest : ∀ j d, (j, d) ∈ rest → st.written.lookup j = some d := fun j d hj =>
    h.page j d (by rw [hpage]; exact List.mem_cons_of_mem _ hj)
  cases keep with
  | false =>
      refine ⟨hrest, fun j hj => ?_, h.retained⟩
      rcases List.mem_append.mp hj with hj | hj
      · exact h.acked j hj
      · obtain rfl := List.mem_singleton.mp hj
        exact ⟨e, hwritten, hack rfl⟩
  | true =>
      refine ⟨hrest, h.acked, fun j hj => ?_⟩
      rcases List.mem_append.mp hj with hj | hj
      · exact h.retained j hj
      · obtain rfl := List.mem_singleton.mp hj
        obtain ⟨m, hm, hkeep, hsent⟩ := hretain rfl
        exact ⟨e, m, hwritten, hm, hkeep, hsent⟩

/-- Only a worker has moved. -/
theorem Inv.put (h : Inv R st) {w : W} {worker : Worker ι E} (hw : Honest R st worker) : Inv R (st.put w worker) where
  sorted := h.sorted
  allowed := h.allowed
  rows := h.rows
  workers v := by
    by_cases hv : v = w
    · have hself : (st.put w worker).workers v = worker := by rw [hv]; exact Function.update_self ..
      rw [hself]
      exact hw.mono (fun _ _ he => he) (fun _ hp => hp)
    · have hother : (st.put w worker).workers v = st.workers v := Function.update_of_ne hv ..
      rw [hother]
      exact (h.workers v).mono (fun _ _ he => he) (fun _ hp => hp)
  sent := h.sent
  stands := h.stands

omit [DecidableEq W] in
/-- A message has arrived. -/
theorem Inv.accept (h : Inv R st) {i : ι} {e : E} {m : M} (he : st.written.lookup i = some e) (hm : R.send i e = some m) :
    Inv R { st with accepted := st.accepted ++ [(i, m)] } where
  sorted := h.sorted
  allowed := h.allowed
  rows := h.rows
  workers v := (h.workers v).mono (fun _ _ he => he) (fun _ hp => List.mem_append_left _ hp)
  sent j d n hd hn := (h.sent j d n hd hn).imp_right (List.mem_append_left _)
  stands j n hn := by
    rcases List.mem_append.mp hn with hn | hn
    · exact h.stands j n hn
    · obtain ⟨rfl, rfl⟩ := Prod.mk.inj (List.mem_singleton.mp hn)
      refine ⟨e, he, hm, fun _ => ?_⟩
      rcases h.sent j e n he hm with hrow | hsent
      · exact .inl ⟨false, hrow⟩
      · obtain ⟨d, hd, -, hkept⟩ := h.stands j n hsent
        obtain rfl := Option.some.inj (he.symm.trans hd)
        exact hkept ‹_›

omit [DecidableEq W] in
/-- The rows have changed: an entry that is still to be sent keeps its row, and one that is needed keeps a row or is
reaped. -/
theorem Inv.change (h : Inv R st) {rows : List (ι × Row E)} {reaped : List ι} (hs : Sorted rows)
    (hrows : ∀ i r, rows.lookup i = some r → ∃ r', st.rows.lookup i = some r' ∧ r'.entry = r.entry)
    (hreaped : ∀ i ∈ st.reaped, i ∈ reaped)
    (hsent : ∀ i e m, st.written.lookup i = some e → R.send i e = some m → st.rows.lookup i = some ⟨e, false⟩ →
      rows.lookup i = some ⟨e, false⟩ ∨ (i, m) ∈ st.accepted)
    (hkept : ∀ i e m published, st.written.lookup i = some e → R.send i e = some m → R.keep i e = true →
      st.rows.lookup i = some ⟨e, published⟩ →
      (∃ published, rows.lookup i = some ⟨e, published⟩) ∨ i ∈ reaped) :
    Inv R { st with rows := rows, reaped := reaped } where
  sorted := hs
  allowed := h.allowed
  rows i r hr := by
    obtain ⟨r', hr', hentry⟩ := hrows i r hr
    rw [← hentry]
    exact h.rows i r' hr'
  workers v := (h.workers v).mono (fun _ _ he => he) (fun _ hp => hp)
  sent i e m he hm := (h.sent i e m he hm).elim (hsent i e m he hm) .inr
  stands i m hm := by
    obtain ⟨e, he, hsend, hstands⟩ := h.stands i m hm
    refine ⟨e, he, hsend, fun hkeep => ?_⟩
    rcases hstands hkeep with ⟨published, hrow⟩ | hgone
    · exact hkept i e m published he hsend hkeep hrow
    · exact .inr (hreaped i hgone)

omit [DecidableEq W] in
theorem Inv.write (h : Inv R st) {i : ι} {e : E} (hallowed : R.allowed i e) (hnew : st.written.lookup i = none) :
    Inv R { st with rows := insert i ⟨e, false⟩ st.rows, written := (i, e) :: st.written } := by
  have hother : ∀ j d, st.written.lookup j = some d → j ≠ i := by
    rintro j d hd rfl
    rw [hnew] at hd
    cases hd
  have hwritten : ∀ j d, st.written.lookup j = some d → ((i, e) :: st.written).lookup j = some d := fun j d hd => by
    rw [lookup_cons, if_neg (hother j d hd)]
    exact hd
  have hrow : ∀ j, j ≠ i → (insert i ⟨e, false⟩ st.rows).lookup j = st.rows.lookup j := fun j hj => by
    rw [lookup_insert, if_neg hj]
  constructor
  case sorted => exact sorted_insert i _ h.sorted
  case allowed =>
    intro j d hd
    rw [lookup_cons] at hd
    split_ifs at hd with hj
    · cases hd
      exact hj ▸ hallowed
    · exact h.allowed j d hd
  case rows =>
    intro j r hr
    rw [lookup_insert] at hr
    split_ifs at hr with hj
    · cases hr
      rw [lookup_cons, if_pos hj]
    · exact hwritten j _ (h.rows j r hr)
  case workers => exact fun w => (h.workers w).mono hwritten (fun _ hp => hp)
  case sent =>
    intro j d m hd hm
    rw [lookup_cons] at hd
    split_ifs at hd with hj
    · cases hd
      exact .inl ((lookup_insert ..).trans (if_pos hj))
    · exact (h.sent j d m hd hm).imp_left (hrow j hj).trans
  case stands =>
    intro j m hm
    obtain ⟨d, hd, hsend, hkept⟩ := h.stands j m hm
    refine ⟨d, hwritten j d hd, hsend, fun hkeep => (hkept hkeep).imp_left fun hpublished => ?_⟩
    exact hpublished.imp fun published hlookup => (hrow j (hother j d hd)).trans hlookup

omit [DecidableEq W] in
theorem honest_page {st : State ι E M W} (h : Inv R st) (limit : Nat) : Honest R st ⟨page limit st.rows, [], []⟩ :=
  ⟨fun i _ hi => h.rows i _ (mem_page h.sorted hi), fun _ hi => (List.not_mem_nil hi).elim,
    fun _ hi => (List.not_mem_nil hi).elim⟩

theorem Inv.retain (h : Inv R st) {w : W} {i : ι} {acked rest : List ι} (hw : st.workers w = ⟨[], acked, i :: rest⟩) :
    Inv R { st.put w ⟨[], acked, rest⟩ with rows := publish i st.rows } := by
  have hworker := hw ▸ h.workers w
  obtain ⟨e, m, he, hm, -, hsent⟩ := hworker.retained i List.mem_cons_self
  have hput : Inv R (st.put w ⟨[], acked, rest⟩) :=
    h.put ⟨fun _ _ hj => (List.not_mem_nil hj).elim, hworker.acked,
      fun j hj => hworker.retained j (List.mem_cons_of_mem _ hj)⟩
  refine hput.change (sorted_publish i h.sorted) (fun j r hr => ?_) (fun _ hj => hj) (fun j d n hd hn hrow => ?_)
    (fun j d n published hd hn _ hrow => ?_)
  · rw [lookup_publish] at hr
    obtain ⟨r', hr', rfl⟩ := Option.map_eq_some_iff.mp hr
    refine ⟨r', hr', ?_⟩
    split_ifs <;> rfl
  · by_cases hj : j = i
    · subst hj
      obtain rfl := Option.some.inj (he.symm.trans hd)
      obtain rfl := Option.some.inj (hm.symm.trans hn)
      exact .inr hsent
    · left
      rw [lookup_publish]
      exact (congrArg _ hrow).trans (by rw [Option.map_some, if_neg hj])
  · left
    rw [lookup_publish]
    refine ⟨if j = i then true else published, (congrArg _ hrow).trans ?_⟩
    rw [Option.map_some]
    split_ifs <;> rfl

theorem Inv.ack (h : Inv R st) {w : W} {acked : List ι} (hw : st.workers w = ⟨[], acked, []⟩) :
    Inv R { st.put w .idle with rows := delete acked st.rows } := by
  have hworker := hw ▸ h.workers w
  refine (h.put honest_idle (w := w)).change (sorted_filter _ h.sorted) (fun j r hr => ?_) (fun _ hj => hj)
    (fun j d n hd hn hrow => ?_) (fun j d n published hd hn hkeep hrow => ?_)
  · rw [lookup_delete] at hr
    split_ifs at hr
    exact ⟨r, hr, rfl⟩
  · rw [lookup_delete]
    by_cases hj : j ∈ acked
    · obtain ⟨e, he, hsent⟩ := hworker.acked j hj
      obtain rfl := Option.some.inj (he.symm.trans hd)
      exact .inr (hsent n hn).2
    · exact .inl ((if_neg hj).trans hrow)
  · rw [lookup_delete]
    by_cases hj : j ∈ acked
    · obtain ⟨e, he, hsent⟩ := hworker.acked j hj
      obtain rfl := Option.some.inj (he.symm.trans hd)
      have hnot := (hsent n hn).1
      rw [hkeep] at hnot
      cases hnot
    · exact .inl ⟨published, (if_neg hj).trans hrow⟩

omit [DecidableEq W] in
theorem Inv.reap (h : Inv R st) {i : ι} {e : E} (hi : st.rows.lookup i = some ⟨e, true⟩) :
    Inv R { st with rows := erase i st.rows, reaped := i :: st.reaped } := by
  refine h.change (sorted_erase i h.sorted) (fun j r hr => ?_) (fun _ hj => List.mem_cons_of_mem _ hj)
    (fun j d n _ _ hrow => ?_) (fun j d n published _ _ _ hrow => ?_)
  · rw [lookup_erase] at hr
    split_ifs at hr
    exact ⟨r, hr, rfl⟩
  · have hj : j ≠ i := by
      rintro rfl
      rw [hi] at hrow
      cases hrow
    exact .inl ((lookup_erase ..).trans ((if_neg hj).trans hrow))
  · by_cases hj : j = i
    · exact .inr (hj ▸ List.mem_cons_self)
    · exact .inl ⟨published, (lookup_erase ..).trans ((if_neg hj).trans hrow)⟩

theorem Inv.step {st' : State ι E M W} (h : Inv R st) (hs : Step R st st') : Inv R st' := by
  cases hs with
  | write hallowed hnew => exact h.write hallowed hnew
  | peek hw => exact h.put (honest_page h R.limit)
  | @skip w i e rest hpage hnone =>
      refine h.put ((h.workers w).sent hpage (fun _ m hm => ?_) (fun hkeep => by cases hkeep))
      rw [hnone] at hm
      cases hm
  | @send w i e m rest hpage hm hfits =>
      have hwritten : st.written.lookup i = some e := (h.workers w).page i e (by rw [hpage]; exact List.mem_cons_self)
      have hsent : (i, m) ∈ st.accepted ++ [(i, m)] := List.mem_append_right _ List.mem_cons_self
      have haccepted := h.accept hwritten hm
      refine haccepted.put (w := w) ((haccepted.workers w).sent hpage (fun hkeep n hn => ⟨hkeep, ?_⟩)
        fun hkeep => ⟨m, hm, hkeep, hsent⟩)
      obtain rfl := Option.some.inj (hm.symm.trans hn)
      exact hsent
  | @fail w i e m rest arrived hpage hm hfits =>
      have hwritten : st.written.lookup i = some e := (h.workers w).page i e (by rw [hpage]; exact List.mem_cons_self)
      have hrest {st : State ι E M W} (hinv : Inv R st) :
          Inv R (st.put w ⟨[], (st.workers w).acked, (st.workers w).retained⟩) :=
        hinv.put ⟨fun _ _ hj => (List.not_mem_nil hj).elim, (hinv.workers w).acked, (hinv.workers w).retained⟩
      cases arrived with
      | false => exact hrest h
      | true => exact hrest (h.accept hwritten hm)
  | @retain w i acked rest done hw =>
      cases done with
      | false =>
          have hworker := hw ▸ h.workers w
          exact h.put ⟨fun _ _ hj => (List.not_mem_nil hj).elim, hworker.acked,
            fun j hj => hworker.retained j (List.mem_cons_of_mem _ hj)⟩
      | true => exact h.retain hw
  | ack done hw =>
      cases done with
      | false => exact h.put honest_idle
      | true => exact h.ack hw
  | crash w => exact h.put honest_idle
  | reap hi => exact h.reap hi

theorem Inv.of_reached (h : Reached R st) : Inv R st := by
  induction h with
  | refl => exact .start
  | tail _ hs ih => exact ih.step hs

omit [DecidableEq W] in
/-- All messages under one number are the same. -/
theorem Inv.same (h : Inv R st) {i : ι} {m n : M} (hm : (i, m) ∈ st.accepted) (hn : (i, n) ∈ st.accepted) : m = n := by
  obtain ⟨e, he, hsend, -⟩ := h.stands i m hm
  obtain ⟨d, hd, hsend', -⟩ := h.stands i n hn
  obtain rfl := Option.some.inj (he.symm.trans hd)
  exact Option.some.inj (hsend.symm.trans hsend')

end Invariant

section Recovery

variable {R} {st st' st'' : State ι E M W} {w : W}

/-- A run in which nothing is written or reaped and one worker moves. -/
structure Quiet (R : Route ι E M) (w : W) (st st' : State ι E M W) : Prop where
  run : Relation.ReflTransGen (Step R) st st'
  written : st'.written = st.written
  reaped : st'.reaped = st.reaped
  others : ∀ v, v ≠ w → st'.workers v = st.workers v

theorem Quiet.refl : Quiet R w st st := ⟨.refl, rfl, rfl, fun _ _ => rfl⟩

theorem Quiet.trans (h : Quiet R w st st') (h' : Quiet R w st' st'') : Quiet R w st st'' :=
  ⟨h.run.trans h'.run, h'.written.trans h.written, h'.reaped.trans h.reaped,
    fun v hv => (h'.others v hv).trans (h.others v hv)⟩

theorem Quiet.inv (h : Quiet R w st st') (hinv : Inv R st) : Inv R st' := by
  obtain ⟨hrun, -, -, -⟩ := h
  induction hrun with
  | refl => exact hinv
  | tail _ hs ih => exact ih.step hs

/-- The numbers a worker is done with. -/
def Worker.handled (worker : Worker ι E) : List ι := worker.acked ++ worker.retained

omit [LinearOrder ι] in
theorem mem_handled_sent {worker : Worker ι E} {i j : ι} {rest : List (ι × E)} {keep : Bool} :
    j ∈ (worker.sent i rest keep).handled ↔ j ∈ worker.handled ∨ j = i := by
  cases keep <;> simp [Worker.sent, Worker.handled, or_comm, or_left_comm]

omit [LinearOrder ι] in
theorem page_sent {worker : Worker ι E} {i : ι} {rest : List (ι × E)} {keep : Bool} :
    (worker.sent i rest keep).page = rest := by
  cases keep <;> rfl

omit [LinearOrder ι] in
theorem workers_put (worker : Worker ι E) : (st.put w worker).workers w = worker := Function.update_self ..

omit [LinearOrder ι] in
theorem others_put (worker : Worker ι E) (v : W) (hv : v ≠ w) : (st.put w worker).workers v = st.workers v :=
  Function.update_of_ne hv ..

/-- A page that is sent without a failure. -/
theorem sends {page : List (ι × E)} (hpage : (st.workers w).page = page)
    (hfits : ∀ i e, (i, e) ∈ page → ∀ m, R.send i e = some m → R.fits m) :
    ∃ st' : State ι E M W, Quiet R w st st' ∧ st'.rows = st.rows ∧ (st'.workers w).page = [] ∧
    ∀ j, j ∈ (st'.workers w).handled ↔ j ∈ (st.workers w).handled ∨ j ∈ page.map Prod.fst := by
  induction page generalizing st with
  | nil => exact ⟨st, .refl, rfl, hpage, fun j => by simp⟩
  | cons p rest ih =>
      obtain ⟨i, e⟩ := p
      have hnext (st₁ : State ι E M W) (keep : Bool) (hone : Quiet R w st st₁) (hrows : st₁.rows = st.rows)
          (hw : st₁.workers w = (st.workers w).sent i rest keep) : ∃ st' : State ι E M W, Quiet R w st st' ∧
          st'.rows = st.rows ∧ (st'.workers w).page = [] ∧
          ∀ j, j ∈ (st'.workers w).handled ↔ j ∈ (st.workers w).handled ∨ j ∈ ((i, e) :: rest).map Prod.fst := by
        obtain ⟨st', hquiet, hrows', hdone, hhandled⟩ := @ih st₁ (by rw [hw, page_sent]) fun j d hj =>
          hfits j d (List.mem_cons_of_mem _ hj)
        refine ⟨st', hone.trans hquiet, hrows'.trans hrows, hdone, fun j => ?_⟩
        rw [hhandled, hw, mem_handled_sent, or_assoc, List.map_cons, List.mem_cons]
      cases hm : R.send i e with
      | none => exact hnext _ false ⟨.single (.skip hpage hm), rfl, rfl, others_put _⟩ rfl (workers_put _)
      | some m =>
          have hm_fits := hfits i e List.mem_cons_self m hm
          exact hnext _ (R.keep i e) ⟨.single (.send hpage hm hm_fits), rfl, rfl, others_put _⟩ rfl (workers_put _)

theorem pending_publish (i : ι) (rows : List (ι × Row E)) :
    pending (publish i rows) = (pending rows).filter (fun p => !decide (p.1 = i)) := by
  induction rows with
  | nil => rfl
  | cons p rows ih =>
      obtain ⟨j, e, published⟩ := p
      have hcons : publish i ((j, ⟨e, published⟩) :: rows) =
          (j, if j = i then ⟨e, true⟩ else ⟨e, published⟩) :: publish i rows := rfl
      rw [hcons, pending, List.filter_cons, ← pending, ih, pending, pending, List.filter_cons]
      by_cases hj : j = i <;> cases published <;> simp [hj]

/-- The kept rows are marked, one after another. -/
theorem retains {acked retained : List ι} (hw : st.workers w = ⟨[], acked, retained⟩) : ∃ st' : State ι E M W,
    Quiet R w st st' ∧ st'.workers w = ⟨[], acked, []⟩ ∧
    pending st'.rows = (pending st.rows).filter (fun p => !decide (p.1 ∈ retained)) := by
  induction retained generalizing st with
  | nil => exact ⟨st, .refl, hw, (List.filter_eq_self.mpr fun p _ => by simp).symm⟩
  | cons i rest ih =>
      obtain ⟨st', hquiet, hw', hpending⟩ :=
        @ih { st.put w ⟨[], acked, rest⟩ with rows := publish i st.rows } (workers_put _)
      refine ⟨st', Quiet.trans ⟨.single (.retain true hw), rfl, rfl, others_put _⟩ hquiet, hw', hpending.trans ?_⟩
      have hone : pending ({ st.put w ⟨[], acked, rest⟩ with rows := publish i st.rows } : State ι E M W).rows =
          (pending st.rows).filter (fun p => !decide (p.1 = i)) := pending_publish i st.rows
      rw [hone, List.filter_filter]
      refine List.filter_congr fun p _ => ?_
      by_cases h : p.1 = i <;> simp [h]

theorem filter_taken {β : Type} {l : List (ι × β)} (h : (l.map Prod.fst).Nodup) (n : Nat) :
    l.filter (fun p => !decide (p.1 ∈ (l.take n).map Prod.fst)) = l.drop n := by
  have happ : l.take n ++ l.drop n = l := List.take_append_drop n l
  have hnd : ((l.take n).map Prod.fst ++ (l.drop n).map Prod.fst).Nodup := by
    rw [← List.map_append, happ]
    exact h
  have htaken : (l.take n).filter (fun p => !decide (p.1 ∈ (l.take n).map Prod.fst)) = [] := by
    refine List.filter_eq_nil_iff.mpr fun p hp => ?_
    have hmem : p.1 ∈ (l.take n).map Prod.fst := List.mem_map_of_mem hp
    simp only [hmem, decide_true, Bool.not_true, Bool.false_eq_true, not_false_eq_true]
  have hleft : (l.drop n).filter (fun p => !decide (p.1 ∈ (l.take n).map Prod.fst)) = l.drop n := by
    refine List.filter_eq_self.mpr fun p hp => ?_
    have hnot : p.1 ∉ (l.take n).map Prod.fst := fun hmem =>
      (List.nodup_append.mp hnd).2.2 p.1 hmem p.1 (List.mem_map_of_mem hp) rfl
    rw [decide_eq_false hnot]
    rfl
  calc l.filter (fun p => !decide (p.1 ∈ (l.take n).map Prod.fst))
      = (l.take n ++ l.drop n).filter (fun p => !decide (p.1 ∈ (l.take n).map Prod.fst)) := by rw [happ]
    _ = l.drop n := by rw [List.filter_append, htaken, hleft, List.nil_append]

/-- One round of a worker takes the oldest page out. -/
theorem one_round (hinv : Inv R st) (hfits : ∀ i e, st.written.lookup i = some e → ∀ m, R.send i e = some m → R.fits m)
    (hw : st.workers w = .idle) : ∃ st' : State ι E M W, Quiet R w st st' ∧
    st'.workers w = .idle ∧ pending st'.rows = (pending st.rows).drop R.limit := by
  obtain ⟨st₁, hsent, hrows, hdone, hhandled⟩ :=
    @sends _ _ _ _ _ _ R (st.put w ⟨page R.limit st.rows, [], []⟩) w _ (congrArg Worker.page (workers_put _))
      fun i e hi => hfits i e (hinv.rows i _ (mem_page hinv.sorted hi))
  have hw₁ : st₁.workers w = ⟨[], (st₁.workers w).acked, (st₁.workers w).retained⟩ := by rw [← hdone]
  obtain ⟨st₂, hmarked, hw₂, hpending⟩ := @retains _ _ _ _ _ _ R st₁ w _ _ hw₁
  refine ⟨{ st₂.put w .idle with rows := delete (st₁.workers w).acked st₂.rows }, ?_, workers_put _, ?_⟩
  · have hacked : Quiet R w st₂ { st₂.put w .idle with rows := delete (st₁.workers w).acked st₂.rows } :=
      ⟨.single (.ack true hw₂), rfl, rfl, others_put _⟩
    exact Quiet.trans ⟨.single (.peek hw), rfl, rfl, others_put _⟩ (hsent.trans (hmarked.trans hacked))
  · have hnodup : ((pending st.rows).map Prod.fst).Nodup := by
      have hsorted : Sorted (pending st.rows) := sorted_filter _ hinv.sorted
      exact List.pairwise_map.mpr (hsorted.imp fun h => ne_of_lt h)
    have hpage : (page R.limit st.rows).map Prod.fst = ((pending st.rows).take R.limit).map Prod.fst := by
      rw [page, List.map_map]
      rfl
    have hids : ∀ j, j ∈ (st₁.workers w).acked ∨ j ∈ (st₁.workers w).retained ↔
        j ∈ ((pending st.rows).take R.limit).map Prod.fst := fun j => by
      have h := hhandled j
      rw [workers_put, hpage, Worker.handled, List.mem_append] at h
      simpa [Worker.handled] using h
    have hdelete : pending (delete (st₁.workers w).acked st₂.rows) =
        (pending st₂.rows).filter (fun p => !decide (p.1 ∈ (st₁.workers w).acked)) := List.filter_comm ..
    have hrows₁ : st₁.rows = st.rows := hrows
    refine hdelete.trans ?_
    rw [hpending, hrows₁, List.filter_filter, ← filter_taken hnodup R.limit]
    refine List.filter_congr fun p _ => ?_
    rw [← Bool.not_or, ← Bool.decide_or]
    exact congrArg (!·) (decide_eq_decide.mpr (hids p.1))

/-- A worker that is left alone empties the table, whatever has happened before, if every message can be carried. -/
theorem emptied (hlimit : 0 < R.limit) (hinv : Inv R st)
    (hfits : ∀ i e, st.written.lookup i = some e → ∀ m, R.send i e = some m → R.fits m) (hw : st.workers w = .idle) :
    ∃ st' : State ι E M W, Quiet R w st st' ∧ st'.workers w = .idle ∧ pending st'.rows = [] := by
  obtain ⟨n, hn⟩ : ∃ n, (pending st.rows).length ≤ n := ⟨_, Nat.le_refl _⟩
  induction n generalizing st with
  | zero => exact ⟨st, .refl, hw, List.length_eq_zero_iff.mp (Nat.le_zero.mp hn)⟩
  | succ n ih =>
      obtain ⟨st₁, hquiet, hw₁, hpending⟩ := one_round hinv hfits hw
      obtain ⟨st', hquiet', hw', hempty⟩ := ih (hquiet.inv hinv) (hquiet.written ▸ hfits) hw₁ (by
        rw [hpending, List.length_drop]
        omega)
      exact ⟨st', hquiet.trans hquiet', hw', hempty⟩

end Recovery

end AntaresBroker.Spool
