import AntaresBroker.Orphans
import Mathlib.Data.List.Perm.Basic

namespace AntaresBroker.DistSub

/-- What a run must find for its next step to leave nothing behind. -/
def Orderly (w : World) (others : List Proc) : Proc → Prop
  -- the document has not changed since it was read
  | .created (.put _ found) =>
      w.mapping.isSome → ∀ reg, w.mapped reg = (found.getD empty_mapping).remotes.get reg
  -- the Subscription is still there
  | .created (.create _ _) => w.mapping = none → w.subscription.isSome
  -- no mapping was added since the list was read
  | .deleting (.mapping remotes _) => ∀ reg v, w.mapped reg = some v → (reg, v) ∈ remotes
  -- the registration still has the endpoint the copy was sent to
  | .choosing .noLongerMatching (reg :: _) => ∀ v, w.mapped reg.id = some v → v.1 = reg.endpoint
  | .handling phase _ reg rid _ =>
      match phase with
      -- the registration is still mapped to this copy
      | .rolling | .deleted => ∀ v, w.mapped reg.id = some v → v.2 = rid
      -- the creation of the copy is not on its way
      | .deleting => ∀ q ∈ others, ∀ endpoint, q.posts ≠ some (endpoint, rid)
      | _ => True
  | .forwarded _ _ rid => ∀ q ∈ others, ∀ endpoint, q.posts ≠ some (endpoint, rid)
  | _ => True

section Steps

variable {w w' : World} {others new : List Proc} {p : Proc} {reason : Reason} {reg : Registration} {rid : String}
  {rest : List Registration}

theorem attributes_of_names {q : Proc} (h : q.names = []) :
    q.creating = none ∧ q.young = none ∧ q.ready = none ∧ q.bare = none ∧ q.posts = none ∧ q.barren = none ∧
      q.mentions = [] ∧ q.Listed := by
  have hm : q.mentions = [] := by
    unfold Proc.mentions
    split_ifs
    · rfl
    · rw [h]; rfl
  cases q with
  | handling phase reason reg rid rest => cases h
  | deleting point =>
      cases point with
      | inbound todo remotes csr_id =>
          obtain ⟨rfl, rfl⟩ := List.append_eq_nil_iff.mp h
          exact ⟨rfl, rfl, rfl, rfl, rfl, rfl, hm, fun r hr => absurd hr List.not_mem_nil⟩
      | _ => exact ⟨rfl, rfl, rfl, rfl, rfl, rfl, hm, trivial⟩
  | _ => exact ⟨rfl, rfl, rfl, rfl, rfl, rfl, hm, trivial⟩

/-- A run goes on with nothing in hand. -/
theorem follows_plain (hnames : ∀ q ∈ new, q.names = [])
    (hdooms : ∀ endpoint rid, (endpoint, rid) ∈ p.dooms → ¬Live w others endpoint rid)
    (htears : p.tears = true → (∃ q ∈ new, q.tears = true) ∨ w.mapping = none) : Follows w p others new where
  creating := by
    have hnil : new.filterMap Proc.creating = [] :=
      List.filterMap_eq_nil_iff.mpr fun q hq => (attributes_of_names (hnames q hq)).1
    rw [hnil]
    exact List.nil_sublist _
  names q hq n hn := by
    rw [hnames q hq] at hn
    exact absurd hn List.not_mem_nil
  mentions q hq r hr := by
    obtain ⟨-, -, -, -, -, -, hm, -⟩ := attributes_of_names (hnames q hq)
    rw [hm] at hr
    exact absurd hr List.not_mem_nil
  young q hq r hr := by
    obtain ⟨-, hy, -⟩ := attributes_of_names (hnames q hq)
    rw [hy] at hr
    cases hr
  ready q hq r hr := by
    obtain ⟨-, -, hready, -⟩ := attributes_of_names (hnames q hq)
    rw [hready] at hr
    cases hr
  bare q hq r hr := by
    obtain ⟨-, -, -, hb, -⟩ := attributes_of_names (hnames q hq)
    rw [hb] at hr
    cases hr
  posts q hq := by
    obtain ⟨-, -, -, -, hposts, -⟩ := attributes_of_names (hnames q hq)
    exact hposts
  barren q hq r hr := by
    obtain ⟨-, -, -, -, -, hb, -⟩ := attributes_of_names (hnames q hq)
    rw [hb] at hr
    cases hr
  dooms endpoint rid hd := .inr (hdooms endpoint rid hd)
  tears := htears
  listed q hq := by
    obtain ⟨-, -, -, -, -, -, -, hl⟩ := attributes_of_names (hnames q hq)
    exact hl

theorem bare_of_barren {q : Proc} (h : q.barren = some rid) : q.bare = some rid := by
  cases q with
  | handling phase reason reg rid' rest =>
      cases phase with
      | posted ok => cases ok <;> exact h
      | _ => first | exact h | cases h
  | _ => cases h

/-- A run that has drawn no identifier goes on with entries of the mapping. -/
theorem follows_knowing (hp : p.creating = none) (hnew : ∀ q ∈ new, q.creating = none ∧ q.bare = none ∧ q.Listed)
    (hnames : ∀ q ∈ new, ∀ n ∈ q.names, n ∈ p.names ∨ w.mapped n.1 = some n.2)
    (hdooms : ∀ d ∈ p.dooms, ∃ q ∈ new, d ∈ q.dooms)
    (htears : p.tears = true → (∃ q ∈ new, q.tears = true) ∨ w.mapping = none) : Follows w p others new where
  creating := by
    rw [List.filterMap_eq_nil_iff.mpr fun q hq => (hnew q hq).1]
    exact List.nil_sublist _
  names := hnames
  mentions q hq r hr := by
    obtain ⟨n, hn, rfl⟩ := mem_names_of_mentions hr
    refine (hnames q hq n hn).imp (fun hn => ?_) (fun hn => ⟨n.1, n.2, hn, rfl⟩)
    rw [Proc.mentions, hp]
    exact List.mem_map.mpr ⟨n, hn, rfl⟩
  young q hq r hr := by
    have hcreating := creating_of_young hr
    rw [(hnew q hq).1] at hcreating
    cases hcreating
  ready q hq r hr := by
    have hcreating := creating_of_young (young_of_ready hr)
    rw [(hnew q hq).1] at hcreating
    cases hcreating
  bare q hq r hr := by
    rw [(hnew q hq).2.1] at hr
    cases hr
  posts q hq := by
    cases hposts : q.posts with
    | none => rfl
    | some d =>
        have hcreating := (creating_of_posts hposts).1
        rw [(hnew q hq).1] at hcreating
        cases hcreating
  barren q hq r hr := by
    have hbare := bare_of_barren hr
    rw [(hnew q hq).2.1] at hbare
    cases hbare
  dooms endpoint r hd := .inl (hdooms _ hd)
  tears := htears
  listed q hq := (hnew q hq).2.2

/-- The handling of a registration goes on. -/
theorem follows_handling {phase phase' : Phase}
    (hcreating : Proc.creating (.handling phase' reason reg rid rest) = Proc.creating (.handling phase reason reg rid rest))
    (hyoung : Proc.young (.handling phase' reason reg rid rest) = some rid →
      Proc.young (.handling phase reason reg rid rest) = some rid)
    (hready : phase' = .mapping → w.inbound rid = true)
    (hbare : ∀ endpoint, w.copies endpoint rid = false)
    (hposts : phase' ≠ .posting)
    (hbarren : Proc.barren (.handling phase' reason reg rid rest) = some rid →
      ∀ r ∈ others, ∀ endpoint, r.posts ≠ some (endpoint, rid))
    (hdooms : phase = .deleting → ¬Live w others reg.endpoint rid) :
    Follows w (.handling phase reason reg rid rest) others [.handling phase' reason reg rid rest] where
  creating := by
    rw [← hcreating, List.filterMap_cons]
    cases Proc.creating (.handling phase' reason reg rid rest) <;> exact List.Sublist.refl _
  names := List.forall_mem_singleton.mpr fun n hn => .inl hn
  mentions := List.forall_mem_singleton.mpr fun r hr => by
    unfold Proc.mentions at hr ⊢
    rw [hcreating] at hr
    exact .inl hr
  young := List.forall_mem_singleton.mpr fun r hr => by
    cases phase' <;> first
      | (cases hr; exact hyoung rfl)
      | cases hr
  ready := List.forall_mem_singleton.mpr fun r hr => by
    cases phase' <;> first
      | (cases hr; exact hready rfl)
      | cases hr
  bare := List.forall_mem_singleton.mpr fun r hr => by
    cases phase' with
    | posted ok => cases ok <;> first | (cases hr; exact hbare) | cases hr
    | _ => first | (cases hr; exact hbare) | cases hr
  posts := List.forall_mem_singleton.mpr (by
    cases phase' <;> first | rfl | exact absurd rfl hposts)
  barren := List.forall_mem_singleton.mpr fun r hr => by
    cases phase' with
    | posted ok => cases ok <;> first | (cases hr; exact hbarren rfl) | cases hr
    | _ => first | (cases hr; exact hbarren rfl) | cases hr
  dooms endpoint r hd := by
    cases phase <;> first
      | (obtain ⟨⟩ := List.mem_singleton.mp hd; exact .inr (hdooms rfl))
      | exact absurd hd List.not_mem_nil
  tears h := by cases h
  listed := List.forall_mem_singleton.mpr trivial

/-- Nothing is on its way under an identifier that a run still holds. -/
theorem Inv.still (h : Inv w (p :: others)) (hcreating : p.creating = some rid) :
    ∀ q ∈ others, ∀ endpoint, q.posts ≠ some (endpoint, rid) := by
  intro q hq endpoint hposts
  exact h.alone hcreating hq (creating_of_posts hposts).1

theorem Inv.dead (h : Inv w (p :: others)) (hbare : p.bare = some rid)
    (hstill : ∀ q ∈ others, ∀ endpoint, q.posts ≠ some (endpoint, rid)) (endpoint : String) :
    ¬Live w others endpoint rid := by
  rintro (hc | ⟨q, hq, hposts⟩)
  · rw [h.bare p (List.mem_cons_self ..) rid hbare endpoint] at hc
    cases hc
  · exact hstill q hq endpoint hposts

/-- Seen with the run itself, which sends nothing. -/
theorem live_of_silent {endpoint : String} (hp : p.posts = none) (hl : Live w (p :: others) endpoint rid) :
    Live w others endpoint rid := by
  refine hl.imp_right ?_
  rintro ⟨q, hq, hposts⟩
  rcases List.mem_cons.mp hq with rfl | hq
  · rw [hp] at hposts
    cases hposts
  · exact ⟨q, hq, hposts⟩

theorem Inv.unready (h : Inv w (p :: others)) (hp : p.ready = none)
    (hrid : p.creating = some rid ∨ rid ∈ p.mentions) : ∀ q ∈ p :: others, q.ready ≠ some rid := by
  intro q hq hr
  rcases List.mem_cons.mp hq with rfl | hother
  · rw [hp] at hr
    cases hr
  · rcases hrid with hcreating | hm
    · exact h.alone hcreating hother (creating_of_young (young_of_ready hr))
    · exact h.young_named q hq rid (young_of_ready hr) p (List.mem_cons_self ..) hm

/-- The index entry of a dead copy goes. -/
theorem Inv.forget (h : Inv w (p :: others)) (hready : p.ready = none) (hposts : p.posts = none)
    (hbare : p.bare = some rid) (hrid : p.creating = some rid ∨ rid ∈ p.mentions)
    (hstill : ∀ q ∈ others, ∀ endpoint, q.posts ≠ some (endpoint, rid)) :
    Inv (w.set_inbound rid false) (p :: others) := by
  refine h.clear_inbound (h.unready hready hrid) fun endpoint hl => ?_
  exact absurd (live_of_silent hposts hl) (h.dead hbare hstill endpoint)

/-- The mapping of a dead copy goes. -/
theorem Inv.unmap (h : Inv w (p :: others)) (hposts : p.posts = none) (hbare : p.bare = some rid)
    (hstill : ∀ q ∈ others, ∀ endpoint, q.posts ≠ some (endpoint, rid))
    (hown : ∀ v, w.mapped reg.id = some v → v.2 = rid) : Inv (w.remove_remote reg.id) (p :: others) := by
  refine h.remove_remote fun v hv hl => ?_
  obtain rfl := hown v hv
  exact h.dead hbare hstill v.1 (live_of_silent hposts hl)

/-- The run that made the step is done. -/
theorem Inv.done (h : Inv w (p :: others)) (hdooms : p.dooms = []) (htears : p.tears = false) : Inv w others := by
  refine h.follow (l := []) (follows_plain (fun q hq => absurd hq List.not_mem_nil) ?_ ?_)
  · intro endpoint rid hd
    rw [hdooms] at hd
    exact absurd hd List.not_mem_nil
  · intro ht
    rw [htears] at ht
    cases ht

/-- The run goes on with nothing in hand. -/
theorem Inv.pass (h : Inv w (p :: others)) {q : Proc} (hq : q.names = []) (hdooms : p.dooms = [])
    (htears : p.tears = false) : Inv w (q :: others) := by
  refine h.follow (l := [q]) (follows_plain (List.forall_mem_singleton.mpr hq) ?_ ?_)
  · intro endpoint rid hd
    rw [hdooms] at hd
    exact absurd hd List.not_mem_nil
  · intro ht
    rw [htears] at ht
    cases ht

theorem choose_keeps {c : Choice} (h : Inv w (.choosing reason (reg :: rest) :: others))
    (horder : Orderly w others (.choosing reason (reg :: rest)))
    (hc : choose w reason reg rest c = some (w', new)) : Inv w' (new ++ others) := by
  have hskip : Inv w ([.choosing reason rest] ++ others) := h.pass rfl rfl rfl
  have hdraw : ∀ r, (if !reg.watched then some (w, [.choosing r rest])
      else if (w.drawn c.uuid).isSome then none
      else some ({ w with drawn := Function.update w.drawn c.uuid (some (reg.id, reg.endpoint)) },
        [.handling .putting r reg c.uuid rest])) = some (w', new) → Inv w' (new ++ others) := by
    intro r hr
    split_ifs at hr with hwatched hdrawn
    · obtain ⟨⟩ := hr
      exact h.pass rfl rfl rfl
    · obtain ⟨⟩ := hr
      rw [Bool.not_eq_true, Option.isSome_eq_false_iff, Option.isNone_iff_eq_none] at hdrawn
      exact (h.done rfl rfl).draw hdrawn r reg rest
  unfold choose at hc
  by_cases hin : (reg.auxiliary || reg.seen) = true
  · rw [if_pos hin] at hc
    obtain ⟨⟩ := hc
    exact hskip
  · rw [if_neg hin] at hc
    cases reason with
    | noLongerMatching =>
        cases hv : w.mapped reg.id with
        | none =>
            rw [hv] at hc
            obtain ⟨⟩ := hc
            exact hskip
        | some v =>
            rw [hv] at hc
            obtain ⟨⟩ := hc
            have hown : v.1 = reg.endpoint := horder v hv
            refine h.follow (l := [_]) (follows_knowing rfl (List.forall_mem_singleton.mpr ⟨rfl, rfl, trivial⟩)
              (List.forall_mem_singleton.mpr (List.forall_mem_singleton.mpr (.inr ?_)))
              (fun d hd => absurd hd List.not_mem_nil) nofun)
            rw [hv, ← hown]
    | newlyMatching =>
        cases hv : w.mapped reg.id with
        | none =>
            rw [hv] at hc
            exact hdraw _ hc
        | some v =>
            rw [hv] at hc
            obtain ⟨⟩ := hc
            exact hskip
    | updated =>
        cases hv : w.mapped reg.id with
        | none =>
            rw [hv] at hc
            exact hdraw _ hc
        | some v =>
            rw [hv] at hc
            obtain ⟨⟩ := hc
            exact hskip

theorem handle_keeps {phase : Phase} {c : Choice} (h : Inv w (.handling phase reason reg rid rest :: others))
    (horder : Orderly w others (.handling phase reason reg rid rest)) :
    Inv (handle w phase reason reg rid rest c).1 ((handle w phase reason reg rid rest c).2 :: others) := by
  have hp := List.mem_cons_self (a := Proc.handling phase reason reg rid rest) (l := others)
  have hidle : ∀ {w' : World}, Inv w' (.handling phase reason reg rid rest :: others) → phase ≠ .deleting →
      Inv w' (.choosing reason rest :: others) := by
    intro w' h' hphase
    refine h'.pass rfl ?_ rfl
    cases phase <;> first | rfl | exact absurd rfl hphase
  cases phase with
  | putting =>
      have h' : Inv (w.set_inbound rid true) (.handling .putting reason reg rid rest :: others) := by
        refine h.same rfl rfl rfl (fun r hr => ?_) h.owned
        rw [World.inbound_set_inbound, hr, ite_self]
      refine h'.follow (l := [_]) (follows_handling rfl (fun _ => rfl) (fun _ => ?_) (h'.bare _ (List.mem_cons_self ..) rid rfl)
        nofun (fun hb => by cases hb) nofun)
      rw [World.inbound_set_inbound, if_pos rfl]
  | mapping =>
      cases hw : w.insert_remote reg.id (reg.endpoint, rid) with
      | none =>
          simp only [handle, hw]
          exact h.follow (l := [_]) (follows_handling rfl (fun _ => rfl) nofun (h.bare _ hp rid rfl) nofun
            (fun hb => by cases hb) nofun)
      | some w' =>
          simp only [handle, hw]
          exact h.post hw
  | unputting => exact hidle (h.forget rfl rfl rfl (.inl rfl) (h.still rfl)) nofun
  | posting =>
      cases hacc : c.accepted with
      | true =>
          simp only [handle, hacc]
          exact h.accept
      | false =>
          simp only [handle, hacc]
          exact h.follow (l := [_]) (follows_handling rfl (fun hy => by cases hy) nofun (h.bare _ hp rid rfl) nofun
            (fun _ => h.still rfl) nofun)
  | posted ok =>
      cases ok with
      | true => exact hidle h nofun
      | false =>
          have h' := h.forget rfl rfl rfl (.inl rfl) (h.still rfl)
          exact h'.follow (l := [_]) (follows_handling rfl (fun hy => by cases hy) nofun
            (h'.bare _ (List.mem_cons_self ..) rid rfl) nofun (fun _ => h'.still rfl) nofun)
  | rolling => exact hidle (h.unmap rfl rfl (h.still rfl) horder) nofun
  | deleting =>
      have h' := h.drop_copy reg.endpoint rid
      have hgone : ∀ endpoint, (w.set_copy reg.endpoint rid false).copies endpoint rid = false := by
        intro endpoint
        rw [Bool.eq_false_iff]
        intro hc
        obtain ⟨_, hreg⟩ := h'.copy_drawn endpoint rid hc
        have hdrawn : w.drawn rid = _ := h.named_drawn _ hp _ (List.mem_singleton_self _)
        have hsame : endpoint = reg.endpoint := by
          rw [show (w.set_copy reg.endpoint rid false).drawn = w.drawn from rfl, hdrawn] at hreg
          cases hreg
          rfl
        rw [World.copies_set_copy, if_pos ⟨hsame, rfl⟩] at hc
        cases hc
      refine h'.follow (l := [_]) (follows_handling rfl (fun hy => by cases hy) nofun hgone nofun (fun _ => horder) ?_)
      rintro - (hc | ⟨q, hq, hposts⟩)
      · rw [hgone] at hc
        cases hc
      · exact horder q hq _ hposts
  | deleted =>
      have hstill : ∀ q ∈ others, ∀ endpoint, q.posts ≠ some (endpoint, rid) :=
        fun q hq => h.barren _ hp rid rfl q (List.mem_cons_of_mem _ hq)
      have h' := h.unmap rfl rfl hstill horder
      exact h'.follow (l := [_]) (follows_handling rfl (fun hy => by cases hy) nofun
        (h'.bare _ (List.mem_cons_self ..) rid rfl) nofun (fun _ => hstill) nofun)
  | unmapped =>
      have hstill : ∀ q ∈ others, ∀ endpoint, q.posts ≠ some (endpoint, rid) :=
        fun q hq => h.barren _ hp rid rfl q (List.mem_cons_of_mem _ hq)
      exact hidle (h.forget rfl rfl rfl (.inr (List.mem_singleton_self _)) hstill) nofun

theorem create_keeps {c : Choice} {point : Creation} (h : Inv w (.created point :: others))
    (horder : Orderly w others (.created point)) : Inv (create w c point).1 ((create w c point).2 ++ others) := by
  cases point with
  | csr =>
      have h' : Inv { w with csrs := Function.update w.csrs c.uuid true } (.created .csr :: others) :=
        h.same rfl rfl rfl (fun _ hr => hr) h.owned
      exact h'.pass rfl rfl rfl
  | read csr_id =>
      exact h.follow (l := [_]) (follows_knowing rfl (List.forall_mem_singleton.mpr ⟨rfl, rfl, trivial⟩)
        (List.forall_mem_singleton.mpr fun n hn => .inr (w.mem_ds_remotes hn)) (fun d hd => absurd hd List.not_mem_nil) nofun)
  | put csr_id found =>
      by_cases hm : w.mapping.isSome = true
      · simp only [create, hm, if_true]
        have h' : Inv { w with mapping := some (with_csr found csr_id) } (.created (.put csr_id found) :: others) :=
          h.same rfl rfl (funext fun reg => (horder hm reg).symm) (fun _ hr => hr) fun _ => h.owned hm
        exact h'.done rfl rfl
      · simp only [create, hm]
        exact h.follow (l := [_]) (follows_knowing rfl (List.forall_mem_singleton.mpr ⟨rfl, rfl, trivial⟩)
          (List.forall_mem_singleton.mpr fun n hn => .inl hn) (fun d hd => absurd hd List.not_mem_nil) nofun)
  | create csr_id found =>
      by_cases hm : w.mapping.isSome = true
      · simp only [create, hm, if_true]
        exact h.done rfl rfl
      · simp only [create, hm]
        rw [Bool.not_eq_true, Option.isSome_eq_false_iff, Option.isNone_iff_eq_none] at hm
        exact (h.restore hm (horder hm)).done rfl rfl

/-- The deletion goes on, with the same copies to delete. -/
theorem follows_deleting {point point' : Deletion}
    (hnames : ∀ n ∈ Proc.names (.deleting point'), n ∈ Proc.names (.deleting point) ∨ w.mapped n.1 = some n.2)
    (hdooms : ∀ d ∈ Proc.dooms (.deleting point), d ∈ Proc.dooms (.deleting point'))
    (htears : Proc.tears (.deleting point) = true → Proc.tears (.deleting point') = true ∨ w.mapping = none)
    (hlisted : Proc.Listed (.deleting point')) :
    Follows w (.deleting point) others [.deleting point'] :=
  follows_knowing rfl (List.forall_mem_singleton.mpr ⟨rfl, rfl, hlisted⟩) (List.forall_mem_singleton.mpr hnames)
    (fun d hd => ⟨_, List.mem_singleton_self _, hdooms d hd⟩)
    (fun ht => (htears ht).imp_left fun ht => ⟨_, List.mem_singleton_self _, ht⟩)

/-- An identifier is live at the endpoint it was drawn for only. -/
theorem Inv.live_drawn {procs : List Proc} (h : Inv w procs) {endpoint : String} (hl : Live w procs endpoint rid) :
    ∃ r, w.drawn rid = some (r, endpoint) := by
  rcases hl with hc | ⟨q, hq, hposts⟩
  · exact h.copy_drawn endpoint rid hc
  · obtain ⟨-, r, hr⟩ := creating_of_posts hposts
    exact ⟨r, h.named_drawn q hq _ hr⟩

theorem delete_keeps {point : Deletion} (h : Inv w (.deleting point :: others))
    (horder : Orderly w others (.deleting point)) : Inv (delete w point).1 ((delete w point).2 ++ others) := by
  have hp := List.mem_cons_self (a := Proc.deleting point) (l := others)
  cases point with
  | read =>
      refine h.follow (l := [_]) (follows_deleting (fun n hn => .inr ?_) (fun d hd => absurd hd List.not_mem_nil)
        (fun _ => .inl rfl) fun r hr => hr)
      exact w.mem_ds_remotes ((List.mem_append.mp hn).elim id id)
  | inbound todo remotes csr_id =>
      cases todo with
      | nil =>
          exact h.follow (l := [_]) (follows_deleting (fun n hn => .inl hn) (fun d hd => hd) (fun _ => .inl rfl) trivial)
      | cons r todo =>
          have hr : r ∈ remotes := h.listed _ hp r (List.mem_cons_self ..)
          have h' : Inv (w.set_inbound r.2.2 false) (.deleting (.inbound (r :: todo) remotes csr_id) :: others) := by
            refine h.clear_inbound (h.unready rfl (.inr ?_)) fun endpoint hl => ⟨_, hp, ?_⟩
            · exact List.mem_map.mpr ⟨r, List.mem_append_right _ hr, rfl⟩
            · obtain ⟨reg, hreg⟩ := h.live_drawn hl
              have hdrawn : w.drawn r.2.2 = _ := h.named_drawn _ hp r (List.mem_append_right _ hr)
              rw [hdrawn] at hreg
              obtain ⟨⟩ := hreg
              exact List.mem_map.mpr ⟨r, hr, rfl⟩
          refine h'.follow (l := [_]) (follows_deleting (fun n hn => .inl ?_) (fun d hd => hd) (fun _ => .inl rfl) ?_)
          · exact List.mem_cons_of_mem _ hn
          · exact fun n hn => h.listed _ hp n (List.mem_cons_of_mem _ hn)
  | mapping remotes csr_id =>
      exact (h.drop_mapping horder).follow (l := [_])
        (follows_deleting (fun n hn => .inl hn) (fun d hd => hd) (fun _ => .inr rfl) trivial)
  | csr remotes csr_id =>
      have h' : Inv { w with csrs := fun id => w.csrs id && csr_id ≠ some id } (.deleting (.csr remotes csr_id) :: others) :=
        h.same rfl rfl rfl (fun _ hr => hr) h.owned
      exact h'.follow (l := [_]) (follows_deleting (fun n hn => .inl hn) (fun d hd => hd) nofun trivial)
  | forward remotes =>
      refine h.follow (follows_knowing rfl ?_ ?_ ?_ nofun)
      · intro q hq
        obtain ⟨r, hr, rfl⟩ := List.mem_map.mp hq
        exact ⟨rfl, rfl, trivial⟩
      · intro q hq n hn
        obtain ⟨r, hr, rfl⟩ := List.mem_map.mp hq
        obtain rfl := List.mem_singleton.mp hn
        exact .inl hr
      · intro d hd
        obtain ⟨r, hr, rfl⟩ := List.mem_map.mp hd
        exact ⟨_, List.mem_map.mpr ⟨r, hr, rfl⟩, List.mem_singleton_self _⟩

theorem exec_keeps {c : Choice} (h : Inv w (p :: others)) (horder : Orderly w others p)
    (hexec : exec w c p = some (w', new)) : Inv w' (new ++ others) := by
  cases p with
  | arriving reason regs =>
      obtain ⟨⟩ := hexec
      split_ifs
      · exact h.pass rfl rfl rfl
      · exact h.done rfl rfl
  | choosing reason regs =>
      cases regs with
      | nil =>
          obtain ⟨⟩ := hexec
          exact h.done rfl rfl
      | cons reg rest => exact choose_keeps h horder hexec
  | handling phase reason reg rid rest =>
      obtain ⟨⟩ := hexec
      exact handle_keeps h horder
  | created point =>
      have hkeeps := create_keeps (c := c) h horder
      rw [Option.some.inj hexec] at hkeeps
      exact hkeeps
  | updating =>
      obtain ⟨⟩ := hexec
      cases w.subscription with
      | none => exact h.done rfl rfl
      | some distributed => cases distributed <;> exact h.pass rfl rfl rfl
  | updating_csr =>
      obtain ⟨⟩ := hexec
      split_ifs
      · exact h.pass rfl rfl rfl
      · exact h.done rfl rfl
  | deleting point =>
      have hkeeps := delete_keeps h horder
      rw [Option.some.inj hexec] at hkeeps
      exact hkeeps
  | forwarded reg_id endpoint rid =>
      obtain ⟨⟩ := hexec
      have h' := h.drop_copy endpoint rid
      refine h'.follow (l := []) (follows_plain (fun q hq => absurd hq List.not_mem_nil) ?_ nofun)
      rintro e r hd (hc | ⟨q, hq, hposts⟩)
      · obtain ⟨⟩ := List.mem_singleton.mp hd
        rw [World.copies_set_copy, if_pos ⟨rfl, rfl⟩] at hc
        cases hc
      · obtain ⟨⟩ := List.mem_singleton.mp hd
        exact horder q hq _ hposts

end Steps

/-- A run begins. -/
theorem Inv.spawn {w : World} {procs : List Proc} (h : Inv w procs) {q : Proc} (hq : q.names = []) : Inv w (q :: procs) := by
  obtain ⟨hcreating, hyoung, hready, hbare, hposts, hbarren, hmentions, hlisted⟩ := attributes_of_names hq
  refine ⟨?_, h.copy_drawn, h.mapped_drawn, ?_, ?_, ?_, ?_, ?_, ?_, ?_, ?_, ?_⟩
  · rw [List.filterMap_cons_none hcreating]
    exact h.once
  · refine List.forall_mem_cons.mpr ⟨?_, h.named_drawn⟩
    rw [hq]
    exact fun n hn => absurd hn List.not_mem_nil
  · exact List.forall_mem_cons.mpr ⟨by rw [hbare]; nofun, h.bare⟩
  · exact List.forall_mem_cons.mpr ⟨by rw [hyoung]; nofun, h.young_mapped⟩
  · refine List.forall_mem_cons.mpr ⟨by rw [hyoung]; nofun, fun p hp rid hy => List.forall_mem_cons.mpr ⟨?_, ?_⟩⟩
    · rw [hmentions]
      exact List.not_mem_nil
    · exact h.young_named p hp rid hy
  · exact List.forall_mem_cons.mpr ⟨by rw [hready]; nofun, h.ready⟩
  · refine List.forall_mem_cons.mpr ⟨by rw [hbarren]; nofun, fun p hp rid hb => List.forall_mem_cons.mpr ⟨?_, ?_⟩⟩
    · rw [hposts]
      nofun
    · exact h.barren p hp rid hb
  · intro endpoint rid hl
    refine (h.safe endpoint rid (live_of_silent hposts hl)).imp_right ?_
    rintro ⟨p, hp, hd⟩
    exact ⟨p, List.mem_cons_of_mem _ hp, hd⟩
  · intro hm
    refine (h.owned hm).imp_right ?_
    rintro ⟨p, hp, ht⟩
    exact ⟨p, List.mem_cons_of_mem _ hp, ht⟩
  · exact List.forall_mem_cons.mpr ⟨hlisted, h.listed⟩

def OrderlyStep (s : State) : Event → Prop
  | .run i _ => ∀ p, s.procs[i]? = some p → Orderly s.world (s.procs.eraseIdx i) p
  | _ => True

def OrderlyRun (s : State) : List Event → Prop
  | [] => True
  | e :: events => OrderlyStep s e ∧ ∀ s', step s e = some s' → OrderlyRun s' events

theorem step_keeps {s s' : State} {e : Event} (h : Inv s.world s.procs) (horder : OrderlyStep s e)
    (hstep : step s e = some s') : Inv s'.world s'.procs := by
  cases e with
  | create distributed =>
      by_cases hthere : s.world.subscription.isSome = true
      · simp only [step, if_pos hthere] at hstep
        cases hstep
      simp only [step, if_neg hthere] at hstep
      obtain ⟨⟩ := hstep
      have h' : Inv { s.world with subscription := some distributed } s.procs :=
        h.same rfl rfl rfl (fun _ hr => hr) fun _ => .inl rfl
      cases distributed with
      | true => exact h'.spawn rfl
      | false => exact h'
  | update distributed =>
      simp only [step] at hstep
      split_ifs at hstep
      obtain ⟨⟩ := hstep
      have h' : Inv { s.world with subscription := some distributed } s.procs :=
        h.same rfl rfl rfl (fun _ hr => hr) fun _ => .inl rfl
      exact h'.spawn rfl
  | delete =>
      simp only [step] at hstep
      split_ifs at hstep
      obtain ⟨⟩ := hstep
      have h' : Inv s.world (.deleting .read :: s.procs) := h.spawn rfl
      exact h'.same rfl rfl rfl (fun _ hr => hr) fun _ => .inr ⟨_, List.mem_cons_self .., rfl⟩
  | notify reason regs =>
      obtain ⟨⟩ := hstep
      exact h.spawn rfl
  | run i c =>
      simp only [step] at hstep
      obtain ⟨p, hp, hmade⟩ := Option.bind_eq_some_iff.mp hstep
      obtain ⟨⟨w', new⟩, hexec, rfl⟩ := Option.map_eq_some_iff.mp hmade
      have hperm : s.procs.Perm (p :: s.procs.eraseIdx i) := by
        obtain ⟨hi, rfl⟩ := List.getElem?_eq_some_iff.mp hp
        exact (List.getElem_cons_eraseIdx_perm hi).symm
      exact exec_keeps (h.perm hperm) (horder p hp) hexec

theorem run_keeps {s s' : State} {events : List Event} (h : Inv s.world s.procs) (horder : OrderlyRun s events)
    (hrun : run s events = some s') : Inv s'.world s'.procs := by
  induction events generalizing s with
  | nil =>
      obtain rfl := Option.some.inj hrun
      exact h
  | cons e events ih =>
      obtain ⟨t, ht, hrun⟩ := Option.bind_eq_some_iff.mp hrun
      exact ih (step_keeps h horder.1 ht) (horder.2 t ht) hrun

theorem start_keeps : Inv start.world start.procs := by
  have hnone : ∀ {P : Proc → Prop}, ∀ p ∈ start.procs, P p := fun p hp => absurd hp List.not_mem_nil
  refine ⟨List.nodup_nil, ?_, ?_, hnone, hnone, hnone, hnone, hnone, hnone, ?_, ?_, hnone⟩
  · intro endpoint rid hc
    cases hc
  · intro reg v hv
    cases hv
  · rintro endpoint rid (hc | ⟨p, hp, -⟩)
    · cases hc
    · cases hp
  · intro hm
    cases hm

/-- Every copy is the one mapped to its registration, and is indexed; there are
none of a Subscription that does not exist. -/
structure Tidy (w : World) : Prop where
  mapped : ∀ endpoint rid, w.copies endpoint rid = true → ∃ reg d, w.drawn rid = some (reg, endpoint) ∧
    w.mapping = some d ∧ d.remotes.get reg = some (endpoint, rid) ∧ w.inbound rid = true
  only : ∀ reg endpoint rid endpoint' rid', w.copies endpoint rid = true → w.copies endpoint' rid' = true →
    w.drawn rid = some (reg, endpoint) → w.drawn rid' = some (reg, endpoint') → endpoint = endpoint' ∧ rid = rid'
  owned : w.mapping.isSome → w.subscription.isSome
  deleted : w.subscription = none → w.mapping = none ∧ ∀ endpoint rid, w.copies endpoint rid = false

theorem tidy_of_quiet {w : World} (h : Inv w []) : Tidy w := by
  have hmapped : ∀ endpoint rid, w.copies endpoint rid = true →
      ∃ reg, w.drawn rid = some (reg, endpoint) ∧ w.mapped reg = some (endpoint, rid) ∧ w.inbound rid = true := by
    intro endpoint rid hc
    rcases h.safe endpoint rid (.inl hc) with ⟨reg, hreg, hin⟩ | ⟨p, hp, -⟩
    · exact ⟨reg, h.mapped_drawn reg _ hreg, hreg, hin⟩
    · cases hp
  have howned : w.mapping.isSome → w.subscription.isSome := by
    intro hm
    rcases h.owned hm with hs | ⟨p, hp, -⟩
    · exact hs
    · cases hp
  have hdoc : ∀ endpoint rid, w.copies endpoint rid = true → ∃ reg d, w.drawn rid = some (reg, endpoint) ∧
      w.mapping = some d ∧ d.remotes.get reg = some (endpoint, rid) ∧ w.inbound rid = true := by
    intro endpoint rid hc
    obtain ⟨reg, hdrawn, hreg, hin⟩ := hmapped endpoint rid hc
    obtain ⟨d, hd, hget⟩ := Option.bind_eq_some_iff.mp hreg
    exact ⟨reg, d, hdrawn, hd, hget, hin⟩
  refine ⟨hdoc, ?_, howned, ?_⟩
  · intro reg endpoint rid endpoint' rid' hc hc' hdrawn hdrawn'
    obtain ⟨r, hr, hreg, -⟩ := hmapped endpoint rid hc
    obtain ⟨r', hr', hreg', -⟩ := hmapped endpoint' rid' hc'
    rw [hdrawn] at hr
    rw [hdrawn'] at hr'
    obtain ⟨⟩ := hr
    obtain ⟨⟩ := hr'
    rw [hreg] at hreg'
    obtain ⟨⟩ := hreg'
    exact ⟨rfl, rfl⟩
  · intro hsub
    have hnone : w.mapping = none := by
      cases hm : w.mapping with
      | none => rfl
      | some d =>
          rw [hm, hsub] at howned
          exact absurd (howned rfl) nofun
    refine ⟨hnone, fun endpoint rid => ?_⟩
    rw [Bool.eq_false_iff]
    intro hc
    obtain ⟨reg, d, -, hd, -⟩ := hdoc endpoint rid hc
    rw [hnone] at hd
    cases hd

/-- Once nothing is in flight after orderly steps, no copy is an orphan. -/
theorem no_orphan {events : List Event} {s : State} (hrun : run start events = some s)
    (horder : OrderlyRun start events) (hquiet : s.procs = []) : Tidy s.world := by
  have h := run_keeps start_keeps horder hrun
  rw [hquiet] at h
  exact tidy_of_quiet h

/-- A step of the run that stepped last. -/
def first (uuid : String) : Event := .run 0 ⟨uuid, true⟩

def source : Registration := ⟨"r", "http://b", false, false, true⟩

/-- A Subscription is created and forwarded to a source. -/
def forwarded_once : List Event :=
  [.create true, first "c", first "", first "", first "", .notify .newlyMatching [source], first "", first "m",
    first "", first "", first "", first "", first ""]

/-- The Subscription has its document, and the registration its identifier. -/
def reserved : World where
  subscription := some true
  mapping := some ⟨some "c", BTreeMap.empty⟩
  csrs := Function.update (fun _ => false) "c" true
  inbound := Function.update (fun _ => false) "m" true
  copies := fun _ _ => false
  drawn := Function.update (fun _ => none) "m" (some ("r", "http://b"))

def mapped_once : World :=
  { reserved with mapping := some ⟨some "c", BTreeMap.empty.insert "r" ("http://b", "m")⟩ }

theorem OrderlyRun.cons {s s' : State} {p : Proc} {c : Choice} {events : List Event} (hp : s.procs[0]? = some p)
    (horder : Orderly s.world (s.procs.eraseIdx 0) p) (hstep : step s (.run 0 c) = some s')
    (hrest : OrderlyRun s' events) : OrderlyRun s (.run 0 c :: events) := by
  refine ⟨fun q hq => ?_, fun t ht => ?_⟩
  · rw [hp] at hq
    obtain rfl := Option.some.inj hq
    exact horder
  · rw [hstep] at ht
    obtain rfl := Option.some.inj ht
    exact hrest

theorem no_orphan_once : ∃ s, run start forwarded_once = some s ∧ s.world.copies "http://b" "m" = true ∧ Tidy s.world := by
  have hsent : OrderlyRun ⟨reserved, [.handling .mapping .newlyMatching source "m" []]⟩
      [first "", first "", first "", first ""] := by
    refine .cons rfl trivial rfl (show OrderlyRun ⟨mapped_once, [.handling .posting .newlyMatching source "m" []]⟩ _ from ?_)
    exact .cons rfl trivial rfl (.cons rfl trivial rfl (.cons rfl trivial rfl trivial))
  have horder : OrderlyRun start forwarded_once := by
    refine ⟨trivial, fun s hs => ?_⟩
    obtain rfl := Option.some.inj hs
    refine .cons rfl trivial rfl (.cons rfl trivial rfl (.cons rfl nofun rfl (.cons rfl (fun _ => rfl) rfl ⟨trivial, ?_⟩)))
    intro s hs
    obtain rfl := Option.some.inj hs
    exact .cons rfl trivial rfl (.cons rfl trivial rfl (.cons rfl trivial rfl hsent))
  obtain ⟨s, hs⟩ : ∃ s, run start forwarded_once = some s := ⟨_, rfl⟩
  have hquiet : s.procs = [] ∧ s.world.copies "http://b" "m" = true := by
    obtain rfl := Option.some.inj hs
    exact ⟨rfl, rfl⟩
  exact ⟨s, hs, hquiet.2, no_orphan hs horder hquiet.1⟩

/-- The mappings are read before the copy is mapped, and the document goes after. -/
def overtaken : List Event :=
  [.create true, first "c", first "", first "", first "", .notify .newlyMatching [source], first "", first "m",
    .delete, first "", first "", .run 1 ⟨"", true⟩, first "", .run 1 ⟨"", true⟩, first "", first "",
    first "", first "", first ""]

theorem overtaken_orphan : ∃ s, run start overtaken = some s ∧ s.procs = [] ∧ s.world.subscription = none ∧
    s.world.copies "http://b" "m" = true ∧ ¬Tidy s.world := by
  obtain ⟨s, hs⟩ : ∃ s, run start overtaken = some s := ⟨_, rfl⟩
  have hend : s.procs = [] ∧ s.world.subscription = none ∧ s.world.copies "http://b" "m" = true := by
    obtain rfl := Option.some.inj hs
    exact ⟨rfl, rfl, rfl⟩
  obtain ⟨hquiet, hsub, hcopy⟩ := hend
  refine ⟨s, hs, hquiet, hsub, hcopy, fun h => ?_⟩
  have hgone := (h.deleted hsub).2 "http://b" "m"
  rw [hcopy] at hgone
  cases hgone

end AntaresBroker.DistSub
