import AntaresBroker.DistSub

namespace AntaresBroker.DistSub

namespace Proc

/-- The identifier a run has drawn and not yet given away. -/
def creating : Proc → Option String
  | .handling phase _ _ rid _ =>
      match phase with
      | .putting | .mapping | .unputting | .posting | .posted _ | .rolling => some rid
      | .deleting | .deleted | .unmapped => none
  | _ => none

/-- Before its mapping is stored. -/
def young : Proc → Option String
  | .handling phase _ _ rid _ =>
      match phase with
      | .putting | .mapping | .unputting => some rid
      | _ => none
  | _ => none

def ready : Proc → Option String
  | .handling .mapping _ _ rid _ => some rid
  | _ => none

/-- A creation on its way. -/
def posts : Proc → Option (String × String)
  | .handling .posting _ reg rid _ => some (reg.endpoint, rid)
  | _ => none

/-- No copy stands under this identifier. -/
def bare : Proc → Option String
  | .handling phase _ _ rid _ =>
      match phase with
      | .posted true | .deleting => none
      | _ => some rid
  | _ => none

/-- Nor will there be one. -/
def barren : Proc → Option String
  | .handling phase _ _ rid _ =>
      match phase with
      | .posted false | .rolling | .deleted | .unmapped => some rid
      | _ => none
  | _ => none

def found_names (found : Option Mapping) : List (String × String × String) :=
  (found.map (fun d => d.remotes.entries)).getD []

/-- The registrations, endpoints and identifiers a run knows. -/
def names : Proc → List (String × String × String)
  | .handling _ _ reg rid _ => [(reg.id, reg.endpoint, rid)]
  | .created (.put _ found) => found_names found
  | .created (.create _ found) => found_names found
  | .deleting (.inbound todo remotes _) => todo ++ remotes
  | .deleting (.mapping remotes _) => remotes
  | .deleting (.csr remotes _) => remotes
  | .deleting (.forward remotes) => remotes
  | .forwarded reg_id endpoint rid => [(reg_id, endpoint, rid)]
  | _ => []

/-- Those of them it has from the mapping. -/
def mentions (p : Proc) : List String := if p.creating.isSome then [] else p.names.map (fun n => n.2.2)

/-- The copies it is going to delete. -/
def dooms : Proc → List (String × String)
  | .handling .deleting _ reg rid _ => [(reg.endpoint, rid)]
  | .deleting (.inbound _ remotes _) => remotes.map Prod.snd
  | .deleting (.mapping remotes _) => remotes.map Prod.snd
  | .deleting (.csr remotes _) => remotes.map Prod.snd
  | .deleting (.forward remotes) => remotes.map Prod.snd
  | .forwarded _ endpoint rid => [(endpoint, rid)]
  | _ => []

/-- It will drop the mapping document. -/
def tears : Proc → Bool
  | .deleting .read => true
  | .deleting (.inbound _ _ _) => true
  | .deleting (.mapping _ _) => true
  | _ => false

def Listed : Proc → Prop
  | .deleting (.inbound todo remotes _) => ∀ r ∈ todo, r ∈ remotes
  | _ => True

end Proc

/-- A copy that exists, or may yet come to exist. -/
def Live (w : World) (procs : List Proc) (endpoint rid : String) : Prop :=
  w.copies endpoint rid = true ∨ ∃ p ∈ procs, p.posts = some (endpoint, rid)

/-- A copy is mapped and indexed, or about to be deleted. -/
def Safe (w : World) (procs : List Proc) : Prop :=
  ∀ endpoint rid, Live w procs endpoint rid →
    (∃ reg, w.mapped reg = some (endpoint, rid) ∧ w.inbound rid = true) ∨ ∃ p ∈ procs, (endpoint, rid) ∈ p.dooms

structure Inv (w : World) (procs : List Proc) : Prop where
  once : (procs.filterMap Proc.creating).Nodup
  copy_drawn : ∀ endpoint rid, w.copies endpoint rid = true → ∃ reg, w.drawn rid = some (reg, endpoint)
  mapped_drawn : ∀ reg v, w.mapped reg = some v → w.drawn v.2 = some (reg, v.1)
  named_drawn : ∀ p ∈ procs, ∀ n ∈ p.names, w.drawn n.2.2 = some (n.1, n.2.1)
  bare : ∀ p ∈ procs, ∀ rid, p.bare = some rid → ∀ endpoint, w.copies endpoint rid = false
  young_mapped : ∀ p ∈ procs, ∀ rid, p.young = some rid → ∀ reg v, w.mapped reg = some v → v.2 ≠ rid
  young_named : ∀ p ∈ procs, ∀ rid, p.young = some rid → ∀ q ∈ procs, rid ∉ q.mentions
  ready : ∀ p ∈ procs, ∀ rid, p.ready = some rid → w.inbound rid = true
  barren : ∀ p ∈ procs, ∀ rid, p.barren = some rid → ∀ q ∈ procs, ∀ endpoint, q.posts ≠ some (endpoint, rid)
  safe : Safe w procs
  owned : w.mapping.isSome → w.subscription.isSome ∨ ∃ p ∈ procs, p.tears = true
  listed : ∀ p ∈ procs, p.Listed

section Attributes

theorem creating_of_young {p : Proc} {rid : String} (h : p.young = some rid) : p.creating = some rid := by
  cases p with
  | handling phase reason reg rid' rest => cases phase <;> first | exact h | cases h
  | _ => cases h

theorem young_of_ready {p : Proc} {rid : String} (h : p.ready = some rid) : p.young = some rid := by
  cases p with
  | handling phase reason reg rid' rest => cases phase <;> first | exact h | cases h
  | _ => cases h

theorem creating_of_posts {p : Proc} {endpoint rid : String} (h : p.posts = some (endpoint, rid)) :
    p.creating = some rid ∧ ∃ reg, (reg, endpoint, rid) ∈ p.names := by
  cases p with
  | handling phase reason reg rid' rest =>
      cases phase <;> first
        | (cases h; exact ⟨rfl, reg.id, List.mem_singleton_self _⟩)
        | cases h
  | _ => cases h

theorem names_of_creating {p : Proc} {rid : String} (h : p.creating = some rid) : ∃ n ∈ p.names, n.2.2 = rid := by
  cases p with
  | handling phase reason reg rid' rest =>
      cases phase <;> first
        | (cases h; exact ⟨_, List.mem_singleton_self _, rfl⟩)
        | cases h
  | _ => cases h

theorem mentions_of_creating {p : Proc} (h : p.creating.isSome) : p.mentions = [] := by
  rw [Proc.mentions, if_pos h]

theorem barren_cases {p : Proc} {rid : String} (h : p.barren = some rid) : p.creating = some rid ∨ rid ∈ p.mentions := by
  cases p with
  | handling phase reason reg rid' rest =>
      cases phase with
      | posted ok => cases ok <;> first | (cases h; exact .inl rfl) | cases h
      | _ => first | cases h; exact .inr (List.mem_singleton_self _) | (cases h; exact .inl rfl) | cases h
  | _ => cases h

theorem bare_cases {p : Proc} {rid : String} (h : p.bare = some rid) : p.creating = some rid ∨ p.barren = some rid := by
  cases p with
  | handling phase reason reg rid' rest =>
      cases phase with
      | posted ok => cases ok <;> first | exact .inl h | cases h
      | _ => first | exact .inl h | exact .inr h
  | _ => cases h

theorem mem_names_of_mentions {p : Proc} {rid : String} (h : rid ∈ p.mentions) : ∃ n ∈ p.names, n.2.2 = rid := by
  unfold Proc.mentions at h
  split_ifs at h
  · exact absurd h List.not_mem_nil
  · exact List.mem_map.mp h

theorem mem_names_of_dooms {p : Proc} {endpoint rid : String} (h : (endpoint, rid) ∈ p.dooms) :
    ∃ reg, (reg, endpoint, rid) ∈ p.names := by
  have hmap : ∀ remotes : List (String × String × String), (endpoint, rid) ∈ remotes.map Prod.snd →
      ∃ reg, (reg, endpoint, rid) ∈ remotes := by
    intro remotes hr
    obtain ⟨r, hr, heq⟩ := List.mem_map.mp hr
    exact ⟨r.1, by rw [← heq]; exact hr⟩
  cases p with
  | handling phase reason reg rid' rest =>
      cases phase <;> first
        | (obtain ⟨⟩ := List.mem_singleton.mp h; exact ⟨reg.id, List.mem_singleton_self _⟩)
        | exact absurd h List.not_mem_nil
  | deleting point =>
      cases point with
      | read => exact absurd h List.not_mem_nil
      | inbound todo remotes csr_id => exact (hmap remotes h).imp fun reg hr => List.mem_append_right _ hr
      | mapping remotes csr_id => exact hmap remotes h
      | csr remotes csr_id => exact hmap remotes h
      | forward remotes => exact hmap remotes h
  | forwarded reg endpoint' rid' =>
      obtain ⟨⟩ := List.mem_singleton.mp h
      exact ⟨reg, List.mem_singleton_self _⟩
  | _ => exact absurd h List.not_mem_nil

end Attributes

section Frames

variable {w w' : World} {procs procs' others new : List Proc} {p : Proc}

theorem Inv.perm (h : Inv w procs) (hp : procs.Perm procs') : Inv w procs' := by
  have hlive : ∀ endpoint rid, Live w procs' endpoint rid → Live w procs endpoint rid := by
    rintro endpoint rid (hc | ⟨q, hq, hposts⟩)
    · exact .inl hc
    · exact .inr ⟨q, hp.mem_iff.mpr hq, hposts⟩
  refine ⟨(hp.filterMap _).nodup_iff.mp h.once, h.copy_drawn, h.mapped_drawn, ?_, ?_, ?_, ?_, ?_, ?_, ?_, ?_, ?_⟩
  · exact fun q hq => h.named_drawn q (hp.mem_iff.mpr hq)
  · exact fun q hq => h.bare q (hp.mem_iff.mpr hq)
  · exact fun q hq => h.young_mapped q (hp.mem_iff.mpr hq)
  · exact fun q hq rid hy r hr => h.young_named q (hp.mem_iff.mpr hq) rid hy r (hp.mem_iff.mpr hr)
  · exact fun q hq => h.ready q (hp.mem_iff.mpr hq)
  · exact fun q hq rid hb r hr => h.barren q (hp.mem_iff.mpr hq) rid hb r (hp.mem_iff.mpr hr)
  · intro endpoint rid hl
    refine (h.safe endpoint rid (hlive endpoint rid hl)).imp_right ?_
    rintro ⟨q, hq, hd⟩
    exact ⟨q, hp.mem_iff.mp hq, hd⟩
  · intro hm
    refine (h.owned hm).imp_right ?_
    rintro ⟨q, hq, ht⟩
    exact ⟨q, hp.mem_iff.mp hq, ht⟩
  · exact fun q hq => h.listed q (hp.mem_iff.mpr hq)

/-- What becomes of a run knows and promises no more than the run did, and keeps
what it owes. -/
structure Follows (w : World) (p : Proc) (others new : List Proc) : Prop where
  creating : (new.filterMap Proc.creating).Sublist p.creating.toList
  names : ∀ q ∈ new, ∀ n ∈ q.names, n ∈ p.names ∨ w.mapped n.1 = some n.2
  mentions : ∀ q ∈ new, ∀ rid ∈ q.mentions, rid ∈ p.mentions ∨ ∃ reg v, w.mapped reg = some v ∧ v.2 = rid
  young : ∀ q ∈ new, ∀ rid, q.young = some rid → p.young = some rid
  ready : ∀ q ∈ new, ∀ rid, q.ready = some rid → w.inbound rid = true
  bare : ∀ q ∈ new, ∀ rid, q.bare = some rid → ∀ endpoint, w.copies endpoint rid = false
  posts : ∀ q ∈ new, q.posts = none
  barren : ∀ q ∈ new, ∀ rid, q.barren = some rid → ∀ r ∈ others, ∀ endpoint, r.posts ≠ some (endpoint, rid)
  dooms : ∀ endpoint rid, (endpoint, rid) ∈ p.dooms →
    (∃ q ∈ new, (endpoint, rid) ∈ q.dooms) ∨ ¬Live w others endpoint rid
  tears : p.tears = true → (∃ q ∈ new, q.tears = true) ∨ w.mapping = none
  listed : ∀ q ∈ new, q.Listed

theorem Inv.follow {l : List Proc} (h : Inv w (p :: others)) (hf : Follows w p others l) : Inv w (l ++ others) := by
  have hp := List.mem_cons_self (a := p) (l := others)
  have hold : ∀ q ∈ others, q ∈ p :: others := fun q hq => List.mem_cons_of_mem _ hq
  have hlive : ∀ endpoint rid, Live w (l ++ others) endpoint rid → Live w others endpoint rid := by
    rintro endpoint rid (hc | ⟨q, hq, hposts⟩)
    · exact .inl hc
    · rcases List.mem_append.mp hq with hq | hq
      · rw [hf.posts q hq] at hposts
        cases hposts
      · exact .inr ⟨q, hq, hposts⟩
  have hunnamed : ∀ q ∈ p :: others, ∀ rid, q.young = some rid → ∀ r ∈ l ++ others, rid ∉ r.mentions := by
    intro q hq rid hy r hr hm
    rcases List.mem_append.mp hr with hr | hr
    · rcases hf.mentions r hr rid hm with hm | ⟨reg, v, hv, hrid⟩
      · exact h.young_named q hq rid hy p hp hm
      · exact h.young_mapped q hq rid hy reg v hv hrid
    · exact h.young_named q hq rid hy r (hold r hr) hm
  refine ⟨?_, h.copy_drawn, h.mapped_drawn, ?_, ?_, ?_, ?_, ?_, ?_, ?_, ?_, ?_⟩
  · have honce := h.once
    have hsplit : (p :: others).filterMap Proc.creating = p.creating.toList ++ others.filterMap Proc.creating := by
      rw [List.filterMap_cons]
      cases p.creating <;> rfl
    rw [hsplit] at honce
    rw [List.filterMap_append]
    exact honce.sublist (hf.creating.append_right _)
  · intro q hq n hn
    rcases List.mem_append.mp hq with hq | hq
    · rcases hf.names q hq n hn with hn | hn
      · exact h.named_drawn p hp n hn
      · exact h.mapped_drawn n.1 n.2 hn
    · exact h.named_drawn q (hold q hq) n hn
  · intro q hq
    rcases List.mem_append.mp hq with hq | hq
    · exact hf.bare q hq
    · exact h.bare q (hold q hq)
  · intro q hq rid hy
    rcases List.mem_append.mp hq with hq | hq
    · exact h.young_mapped p hp rid (hf.young q hq rid hy)
    · exact h.young_mapped q (hold q hq) rid hy
  · intro q hq rid hy
    rcases List.mem_append.mp hq with hq | hq
    · exact hunnamed p hp rid (hf.young q hq rid hy)
    · exact hunnamed q (hold q hq) rid hy
  · intro q hq
    rcases List.mem_append.mp hq with hq | hq
    · exact hf.ready q hq
    · exact h.ready q (hold q hq)
  · intro q hq rid hb r hr endpoint
    rcases List.mem_append.mp hr with hr | hr
    · rw [hf.posts r hr]
      exact Option.some_ne_none _ ∘ Eq.symm
    · rcases List.mem_append.mp hq with hq | hq
      · exact hf.barren q hq rid hb r hr endpoint
      · exact h.barren q (hold q hq) rid hb r (hold r hr) endpoint
  · intro endpoint rid hl
    have hl := hlive endpoint rid hl
    have hl' : Live w (p :: others) endpoint rid := hl.imp_right fun ⟨q, hq, hposts⟩ => ⟨q, hold q hq, hposts⟩
    refine (h.safe endpoint rid hl').imp_right ?_
    rintro ⟨q, hq, hd⟩
    rcases List.mem_cons.mp hq with rfl | hq
    · obtain ⟨r, hr, hd⟩ := (hf.dooms endpoint rid hd).resolve_right (not_not.mpr hl)
      exact ⟨r, List.mem_append_left _ hr, hd⟩
    · exact ⟨q, List.mem_append_right _ hq, hd⟩
  · intro hm
    rcases h.owned hm with hs | ⟨q, hq, ht⟩
    · exact .inl hs
    · rcases List.mem_cons.mp hq with rfl | hq
      · rcases hf.tears ht with ⟨r, hr, ht⟩ | hnone
        · exact .inr ⟨r, List.mem_append_left _ hr, ht⟩
        · rw [hnone] at hm
          cases hm
      · exact .inr ⟨q, List.mem_append_right _ hq, ht⟩
  · intro q hq
    rcases List.mem_append.mp hq with hq | hq
    · exact hf.listed q hq
    · exact h.listed q (hold q hq)

/-- A change of the world that none of the runs can tell. -/
theorem Inv.same (h : Inv w procs) (hcopies : w'.copies = w.copies) (hdrawn : w'.drawn = w.drawn)
    (hmapped : w'.mapped = w.mapped) (hinbound : ∀ rid, w.inbound rid = true → w'.inbound rid = true)
    (howned : w'.mapping.isSome → w'.subscription.isSome ∨ ∃ p ∈ procs, p.tears = true) : Inv w' procs := by
  refine ⟨h.once, ?_, ?_, ?_, ?_, ?_, h.young_named, ?_, h.barren, ?_, howned, h.listed⟩
  · rw [hcopies, hdrawn]
    exact h.copy_drawn
  · rw [hmapped, hdrawn]
    exact h.mapped_drawn
  · rw [hdrawn]
    exact h.named_drawn
  · rw [hcopies]
    exact h.bare
  · rw [hmapped]
    exact h.young_mapped
  · exact fun q hq rid hr => hinbound rid (h.ready q hq rid hr)
  · intro endpoint rid hl
    rw [Live, hcopies] at hl
    rw [hmapped]
    refine (h.safe endpoint rid hl).imp_left ?_
    rintro ⟨reg, hreg, hin⟩
    exact ⟨reg, hreg, hinbound rid hin⟩

/-- An index entry goes that no live copy needs. -/
theorem Inv.clear_inbound (h : Inv w procs) {rid : String} (hready : ∀ q ∈ procs, q.ready ≠ some rid)
    (hlive : ∀ endpoint, Live w procs endpoint rid → ∃ p ∈ procs, (endpoint, rid) ∈ p.dooms) :
    Inv (w.set_inbound rid false) procs := by
  refine ⟨h.once, h.copy_drawn, h.mapped_drawn, h.named_drawn, h.bare, h.young_mapped, h.young_named, ?_, h.barren, ?_,
    h.owned, h.listed⟩
  · intro q hq r hr
    rw [World.inbound_set_inbound, if_neg]
    · exact h.ready q hq r hr
    · rintro rfl
      exact hready q hq hr
  · intro endpoint r hl
    by_cases hr : r = rid
    · subst hr
      exact .inr (hlive endpoint hl)
    · refine (h.safe endpoint r hl).imp_left ?_
      rintro ⟨reg, hreg, hin⟩
      refine ⟨reg, hreg, ?_⟩
      rw [World.inbound_set_inbound, if_neg hr]
      exact hin

/-- A mapping goes whose copy is not live. -/
theorem Inv.remove_remote (h : Inv w procs) {reg : String}
    (hdead : ∀ v, w.mapped reg = some v → ¬Live w procs v.1 v.2) : Inv (w.remove_remote reg) procs := by
  have hmapped := w.mapped_remove_remote reg
  refine ⟨h.once, h.copy_drawn, ?_, h.named_drawn, h.bare, ?_, h.young_named, h.ready, h.barren, ?_, ?_, h.listed⟩
  · intro r v hv
    rw [hmapped] at hv
    split_ifs at hv
    exact h.mapped_drawn r v hv
  · intro q hq rid hy r v hv
    rw [hmapped] at hv
    split_ifs at hv
    exact h.young_mapped q hq rid hy r v hv
  · intro endpoint rid hl
    refine (h.safe endpoint rid hl).imp_left ?_
    rintro ⟨r, hr, hin⟩
    refine ⟨r, ?_, hin⟩
    rw [hmapped, if_neg]
    · exact hr
    · rintro rfl
      exact hdead _ hr hl
  · intro hm
    refine h.owned ?_
    unfold World.remove_remote at hm
    simpa using hm

/-- A copy goes. -/
theorem Inv.drop_copy (h : Inv w procs) (endpoint rid : String) : Inv (w.set_copy endpoint rid false) procs := by
  have hcopies : ∀ e r, (w.set_copy endpoint rid false).copies e r = true → w.copies e r = true := by
    intro e r hc
    rw [World.copies_set_copy] at hc
    split_ifs at hc
    exact hc
  refine ⟨h.once, ?_, h.mapped_drawn, h.named_drawn, ?_, h.young_mapped, h.young_named, h.ready, h.barren, ?_, h.owned,
    h.listed⟩
  · exact fun e r hc => h.copy_drawn e r (hcopies e r hc)
  · intro q hq r hb e
    rw [Bool.eq_false_iff]
    intro hc
    have := h.bare q hq r hb e
    rw [hcopies e r hc] at this
    cases this
  · intro e r hl
    exact h.safe e r (hl.imp_left (hcopies e r))

theorem Inv.alone (h : Inv w (p :: others)) {rid : String} (hp : p.creating = some rid) {q : Proc} (hq : q ∈ others) :
    q.creating ≠ some rid := by
  intro hcreating
  have honce := h.once
  rw [List.filterMap_cons, hp] at honce
  exact (List.nodup_cons.mp honce).1 (List.mem_filterMap.mpr ⟨q, hq, hcreating⟩)

/-- A fresh identifier is drawn for a registration. -/
theorem Inv.draw (h : Inv w procs) {rid : String} (hfresh : w.drawn rid = none) (reason : Reason) (reg : Registration)
    (rest : List Registration) :
    Inv { w with drawn := Function.update w.drawn rid (some (reg.id, reg.endpoint)) }
      (.handling .putting reason reg rid rest :: procs) := by
  have hkept : ∀ r x, w.drawn r = some x → Function.update w.drawn rid (some (reg.id, reg.endpoint)) r = some x := by
    intro r x hr
    rw [Function.update_of_ne]
    · exact hr
    · rintro rfl
      rw [hfresh] at hr
      cases hr
  have hunnamed : ∀ q ∈ procs, ∀ n ∈ q.names, n.2.2 ≠ rid := by
    rintro q hq n hn rfl
    have := h.named_drawn q hq n hn
    rw [hfresh] at this
    cases this
  have hunmentioned : ∀ q ∈ procs, rid ∉ q.mentions := by
    intro q hq hm
    obtain ⟨n, hn, hr⟩ := mem_names_of_mentions hm
    exact hunnamed q hq n hn hr
  refine ⟨?_, ?_, ?_, ?_, ?_, ?_, ?_, ?_, ?_, ?_, ?_, ?_⟩
  · rw [List.filterMap_cons]
    refine List.nodup_cons.mpr ⟨fun hin => ?_, h.once⟩
    obtain ⟨q, hq, hcreating⟩ := List.mem_filterMap.mp hin
    obtain ⟨n, hn, hr⟩ := names_of_creating hcreating
    exact hunnamed q hq n hn hr
  · intro endpoint r hc
    exact (h.copy_drawn endpoint r hc).imp fun _ hr => hkept r _ hr
  · intro r v hv
    exact hkept _ _ (h.mapped_drawn r v hv)
  · intro q hq n hn
    rcases List.mem_cons.mp hq with rfl | hq
    · obtain rfl := List.mem_singleton.mp hn
      exact Function.update_self ..
    · exact hkept _ _ (h.named_drawn q hq n hn)
  · intro q hq r hb endpoint
    rcases List.mem_cons.mp hq with rfl | hq
    · obtain rfl := Option.some.inj hb
      rw [Bool.eq_false_iff]
      intro hc
      obtain ⟨_, hdrawn⟩ := h.copy_drawn endpoint _ hc
      rw [hfresh] at hdrawn
      cases hdrawn
    · exact h.bare q hq r hb endpoint
  · intro q hq r hy reg' v hv
    rcases List.mem_cons.mp hq with rfl | hq
    · obtain rfl := Option.some.inj hy
      rintro rfl
      have hdrawn := h.mapped_drawn reg' v hv
      rw [hfresh] at hdrawn
      cases hdrawn
    · exact h.young_mapped q hq r hy reg' v hv
  · intro q hq r hy r' hr' hm
    rcases List.mem_cons.mp hr' with rfl | hr'
    · rw [mentions_of_creating rfl] at hm
      exact absurd hm List.not_mem_nil
    · rcases List.mem_cons.mp hq with rfl | hq
      · obtain rfl := Option.some.inj hy
        exact hunmentioned r' hr' hm
      · exact h.young_named q hq r hy r' hr' hm
  · intro q hq r hr
    rcases List.mem_cons.mp hq with rfl | hq
    · cases hr
    · exact h.ready q hq r hr
  · intro q hq r hb r' hr' endpoint
    rcases List.mem_cons.mp hr' with rfl | hr'
    · exact Option.some_ne_none _ ∘ Eq.symm
    · rcases List.mem_cons.mp hq with rfl | hq
      · cases hb
      · exact h.barren q hq r hb r' hr' endpoint
  · rintro endpoint r hl
    have hl' : Live w procs endpoint r := by
      refine hl.imp_right ?_
      rintro ⟨q, hq, hposts⟩
      rcases List.mem_cons.mp hq with rfl | hq
      · cases hposts
      · exact ⟨q, hq, hposts⟩
    refine (h.safe endpoint r hl').imp_right ?_
    rintro ⟨q, hq, hd⟩
    exact ⟨q, List.mem_cons_of_mem _ hq, hd⟩
  · intro hm
    refine (h.owned hm).imp_right ?_
    rintro ⟨q, hq, ht⟩
    exact ⟨q, List.mem_cons_of_mem _ hq, ht⟩
  · intro q hq
    rcases List.mem_cons.mp hq with rfl | hq
    · trivial
    · exact h.listed q hq

/-- The mapping is stored and the creation sent. -/
theorem Inv.post {reason : Reason} {reg : Registration} {rid : String} {rest : List Registration}
    (h : Inv w (.handling .mapping reason reg rid rest :: others))
    (hw : w.insert_remote reg.id (reg.endpoint, rid) = some w') :
    Inv w' (.handling .posting reason reg rid rest :: others) := by
  obtain ⟨hnone, hthere, -, hsub, hcopies, hinbound, hdrawn, hmapped⟩ := World.insert_remote_some w hw
  have hp := List.mem_cons_self (a := Proc.handling .mapping reason reg rid rest) (l := others)
  have hold : ∀ q ∈ others, q ∈ Proc.handling .mapping reason reg rid rest :: others :=
    fun q hq => List.mem_cons_of_mem _ hq
  refine ⟨h.once, ?_, ?_, ?_, ?_, ?_, ?_, ?_, ?_, ?_, ?_, ?_⟩
  · rw [hcopies, hdrawn]
    exact h.copy_drawn
  · intro r v hv
    rw [hmapped] at hv
    rw [hdrawn]
    split_ifs at hv with hr
    · obtain rfl := Option.some.inj hv
      rw [hr]
      exact h.named_drawn _ hp _ (List.mem_singleton_self _)
    · exact h.mapped_drawn r v hv
  · intro q hq
    rw [hdrawn]
    rcases List.mem_cons.mp hq with rfl | hq
    · exact h.named_drawn (.handling .mapping reason reg rid rest) hp
    · exact h.named_drawn q (hold q hq)
  · intro q hq
    rw [hcopies]
    rcases List.mem_cons.mp hq with rfl | hq
    · exact h.bare (.handling .mapping reason reg rid rest) hp
    · exact h.bare q (hold q hq)
  · intro q hq r hy reg' v hv
    rcases List.mem_cons.mp hq with rfl | hq
    · cases hy
    · rw [hmapped] at hv
      split_ifs at hv
      · obtain rfl := Option.some.inj hv
        rintro rfl
        exact h.alone rfl hq (creating_of_young hy)
      · exact h.young_mapped q (hold q hq) r hy reg' v hv
  · intro q hq r hy r' hr' hm
    rcases List.mem_cons.mp hq with rfl | hq
    · cases hy
    · rcases List.mem_cons.mp hr' with rfl | hr'
      · rw [mentions_of_creating rfl] at hm
        exact absurd hm List.not_mem_nil
      · exact h.young_named q (hold q hq) r hy r' (hold r' hr') hm
  · intro q hq r hr
    rw [hinbound]
    rcases List.mem_cons.mp hq with rfl | hq
    · cases hr
    · exact h.ready q (hold q hq) r hr
  · intro q hq r hb r' hr' endpoint hposts
    rcases List.mem_cons.mp hq with rfl | hq
    · cases hb
    · rcases List.mem_cons.mp hr' with rfl | hr'
      · obtain ⟨⟩ := Option.some.inj hposts
        rcases barren_cases hb with hcreating | hm
        · exact h.alone rfl hq hcreating
        · exact h.young_named _ hp rid rfl q (hold q hq) hm
      · exact h.barren q (hold q hq) r hb r' (hold r' hr') endpoint hposts
  · intro endpoint r hl
    have hcase : endpoint = reg.endpoint ∧ r = rid ∨ Live w (.handling .mapping reason reg rid rest :: others) endpoint r := by
      rcases hl with hc | ⟨q, hq, hposts⟩
      · rw [hcopies] at hc
        exact .inr (.inl hc)
      · rcases List.mem_cons.mp hq with rfl | hq
        · obtain ⟨⟩ := Option.some.inj hposts
          exact .inl ⟨rfl, rfl⟩
        · exact .inr (.inr ⟨q, hold q hq, hposts⟩)
    rcases hcase with ⟨rfl, rfl⟩ | hl
    · refine .inl ⟨reg.id, ?_, ?_⟩
      · rw [hmapped, if_pos rfl]
      · rw [hinbound]
        exact h.ready _ hp r rfl
    · rcases h.safe endpoint r hl with ⟨reg', hreg', hin⟩ | ⟨q, hq, hd⟩
      · refine .inl ⟨reg', ?_, hinbound ▸ hin⟩
        rw [hmapped, if_neg]
        · exact hreg'
        · rintro rfl
          rw [hnone] at hreg'
          cases hreg'
      · rcases List.mem_cons.mp hq with rfl | hq
        · exact absurd hd List.not_mem_nil
        · exact .inr ⟨q, List.mem_cons_of_mem _ hq, hd⟩
  · intro _
    rw [hsub]
    refine (h.owned hthere).imp_right ?_
    rintro ⟨q, hq, ht⟩
    rcases List.mem_cons.mp hq with rfl | hq
    · cases ht
    · exact ⟨q, List.mem_cons_of_mem _ hq, ht⟩
  · intro q hq
    rcases List.mem_cons.mp hq with rfl | hq
    · trivial
    · exact h.listed q (hold q hq)

/-- A creation is accepted. -/
theorem Inv.accept {reason : Reason} {reg : Registration} {rid : String} {rest : List Registration}
    (h : Inv w (.handling .posting reason reg rid rest :: others)) :
    Inv (w.set_copy reg.endpoint rid true) (.handling (.posted true) reason reg rid rest :: others) := by
  have hp := List.mem_cons_self (a := Proc.handling .posting reason reg rid rest) (l := others)
  have hold : ∀ q ∈ others, q ∈ Proc.handling .posting reason reg rid rest :: others :=
    fun q hq => List.mem_cons_of_mem _ hq
  have hcopies := w.copies_set_copy reg.endpoint rid (b := true)
  refine ⟨h.once, ?_, h.mapped_drawn, ?_, ?_, ?_, ?_, ?_, ?_, ?_, ?_, ?_⟩
  · intro endpoint r hc
    rw [hcopies] at hc
    split_ifs at hc with hr
    · obtain ⟨rfl, rfl⟩ := hr
      exact ⟨reg.id, h.named_drawn _ hp _ (List.mem_singleton_self _)⟩
    · exact h.copy_drawn endpoint r hc
  · intro q hq
    rcases List.mem_cons.mp hq with rfl | hq
    · exact h.named_drawn (.handling .posting reason reg rid rest) hp
    · exact h.named_drawn q (hold q hq)
  · intro q hq r hb endpoint
    rcases List.mem_cons.mp hq with rfl | hother
    · cases hb
    · rw [hcopies, if_neg]
      · exact h.bare q (hold q hother) r hb endpoint
      · rintro ⟨rfl, rfl⟩
        rcases bare_cases hb with hcreating | hbarren
        · exact h.alone rfl hother hcreating
        · exact h.barren q (hold q hother) r hbarren _ hp reg.endpoint rfl
  · intro q hq r hy
    rcases List.mem_cons.mp hq with rfl | hq
    · cases hy
    · exact h.young_mapped q (hold q hq) r hy
  · intro q hq r hy r' hr' hm
    rcases List.mem_cons.mp hq with rfl | hq
    · cases hy
    · rcases List.mem_cons.mp hr' with rfl | hr'
      · rw [mentions_of_creating rfl] at hm
        exact absurd hm List.not_mem_nil
      · exact h.young_named q (hold q hq) r hy r' (hold r' hr') hm
  · intro q hq r hr
    rcases List.mem_cons.mp hq with rfl | hq
    · cases hr
    · exact h.ready q (hold q hq) r hr
  · intro q hq r hb r' hr' endpoint
    rcases List.mem_cons.mp hr' with rfl | hr'
    · exact Option.some_ne_none _ ∘ Eq.symm
    · rcases List.mem_cons.mp hq with rfl | hq
      · cases hb
      · exact h.barren q (hold q hq) r hb r' (hold r' hr') endpoint
  · intro endpoint r hl
    have hl' : Live w (.handling .posting reason reg rid rest :: others) endpoint r := by
      rcases hl with hc | ⟨q, hq, hposts⟩
      · rw [hcopies] at hc
        split_ifs at hc with hr
        · obtain ⟨rfl, rfl⟩ := hr
          exact .inr ⟨_, hp, rfl⟩
        · exact .inl hc
      · rcases List.mem_cons.mp hq with rfl | hq
        · cases hposts
        · exact .inr ⟨q, hold q hq, hposts⟩
    refine (h.safe endpoint r hl').imp_right ?_
    rintro ⟨q, hq, hd⟩
    rcases List.mem_cons.mp hq with rfl | hq
    · exact absurd hd List.not_mem_nil
    · exact ⟨q, List.mem_cons_of_mem _ hq, hd⟩
  · intro hm
    refine (h.owned hm).imp_right ?_
    rintro ⟨q, hq, ht⟩
    rcases List.mem_cons.mp hq with rfl | hq
    · cases ht
    · exact ⟨q, List.mem_cons_of_mem _ hq, ht⟩
  · intro q hq
    rcases List.mem_cons.mp hq with rfl | hq
    · trivial
    · exact h.listed q (hold q hq)

/-- A mapping document is stored where none was, with what a run had read. -/
theorem Inv.restore {csr_id : String} {found : Option Mapping}
    (h : Inv w (.created (.create csr_id found) :: others)) (hnone : w.mapping = none) (hsub : w.subscription.isSome) :
    Inv { w with mapping := some (with_csr found csr_id) } (.created (.create csr_id found) :: others) := by
  have hp := List.mem_cons_self (a := Proc.created (.create csr_id found)) (l := others)
  have hfound : ∀ reg v, World.mapped { w with mapping := some (with_csr found csr_id) } reg = some v →
      (reg, v) ∈ Proc.names (.created (.create csr_id found)) := by
    intro reg v hv
    cases found with
    | none =>
        have hempty : (BTreeMap.empty : BTreeMap String (String × String)).get reg = some v := hv
        rw [BTreeMap.get_empty] at hempty
        cases hempty
    | some d => exact BTreeMap.mem_entries.mpr hv
  refine ⟨h.once, h.copy_drawn, ?_, h.named_drawn, h.bare, ?_, h.young_named, h.ready, h.barren, ?_, ?_, h.listed⟩
  · exact fun reg v hv => h.named_drawn _ hp _ (hfound reg v hv)
  · rintro q hq rid hy reg v hv rfl
    exact h.young_named q hq _ hy _ hp (List.mem_map.mpr ⟨_, hfound reg v hv, rfl⟩)
  · intro endpoint rid hl
    refine .inr ((h.safe endpoint rid hl).resolve_left ?_)
    rintro ⟨reg, hreg, -⟩
    rw [World.mapped, hnone] at hreg
    cases hreg
  · exact fun _ => .inl hsub

/-- The mapping document goes, with every entry among those to be deleted. -/
theorem Inv.drop_mapping {remotes : List (String × String × String)} {csr_id : Option String}
    (h : Inv w (.deleting (.mapping remotes csr_id) :: others))
    (hall : ∀ reg v, w.mapped reg = some v → (reg, v) ∈ remotes) :
    Inv { w with mapping := none } (.deleting (.mapping remotes csr_id) :: others) := by
  have hp := List.mem_cons_self (a := Proc.deleting (.mapping remotes csr_id)) (l := others)
  refine ⟨h.once, h.copy_drawn, ?_, h.named_drawn, h.bare, ?_, h.young_named, h.ready, h.barren, ?_, ?_, h.listed⟩
  · intro reg v hv
    cases hv
  · intro q hq rid hy reg v hv
    cases hv
  · intro endpoint rid hl
    rcases h.safe endpoint rid hl with ⟨reg, hreg, -⟩ | hd
    · exact .inr ⟨_, hp, List.mem_map.mpr ⟨_, hall reg _ hreg, rfl⟩⟩
    · exact .inr hd
  · intro hm
    cases hm

end Frames

end AntaresBroker.DistSub
