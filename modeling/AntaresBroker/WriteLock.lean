import AntaresBroker.Exclusive

namespace AntaresBroker.Proxied

open Model Expiry Json Ql.Eval Registry

section Pages

theorem fold_cursor {page : List (String × Value)} (h : ∀ e ∈ page, id_of e.2 = some e.1) (c : Option String) :
    page.foldl (fun c e => (id_of e.2).or c) c = (page.getLast?.map Prod.fst).or c := by
  induction page generalizing c with
  | nil => rfl
  | cons e page ih =>
      rw [List.foldl_cons, ih fun e' he' => h e' (List.mem_cons_of_mem _ he'), h e List.mem_cons_self]
      cases page with
      | nil => rfl
      | cons e' page =>
          rw [List.getLast?_cons_cons, List.getLast?_cons]
          rfl

/-- A page shows every document between the old cursor and the new one, and the
last page all that are left. -/
theorem mem_list_page {docs : BTreeMap String Value} {after : Option String} (hname : ∀ e ∈ docs.entries, id_of e.2 = some e.1)
    {j : String} {other : Value} (h : docs.get j = some other) (hnew : ∀ c, after = some c → c < j) {cursor : Option String}
    (hcursor : (list_page docs after).foldl (fun c e => (id_of e.2).or c) after = cursor)
    (hreach : (list_page docs after).length < SCAN_PAGE ∨ cursor = after ∨ ∃ c, cursor = some c ∧ j ≤ c) :
    (j, other) ∈ list_page docs after := by
  have hsorted := SortedMap.sorted_filter (fun e => after.all (fun a => a < e.1)) docs.sorted
  have hmem : (j, other) ∈ docs.entries.filter (fun e => after.all (fun a => a < e.1)) := by
    refine List.mem_filter.mpr ⟨BTreeMap.mem_entries.mpr h, ?_⟩
    rw [Option.all_eq_true]
    exact fun a ha => decide_eq_true (hnew a ha)
  unfold list_page at *
  set l := docs.entries.filter (fun e => after.all (fun a => a < e.1)) with hl
  have hshort : (l.take SCAN_PAGE).length < SCAN_PAGE → (j, other) ∈ l.take SCAN_PAGE := by
    intro hlen
    rw [List.length_take] at hlen
    rw [List.take_of_length_le (by omega)]
    exact hmem
  rw [fold_cursor fun e he => hname e (List.mem_of_mem_filter (List.mem_of_mem_take he))] at hcursor
  rcases List.eq_nil_or_concat (l.take SCAN_PAGE) with hnil | ⟨front, e, hlast⟩
  · exact hshort (by rw [hnil]; decide)
  rw [List.concat_eq_append] at hlast
  rw [hlast, List.getLast?_append, List.getLast?_singleton, Option.some_or, Option.map_some, Option.some_or] at hcursor
  have hfront : e ∈ l.take SCAN_PAGE := by simp [hlast]
  have he : e ∈ l := List.mem_of_mem_take hfront
  rcases hreach with hlen | hsame | ⟨c, hc, hle⟩
  · exact hshort hlen
  · rw [← hcursor] at hsame
    have hall := (List.mem_filter.mp he).2
    rw [← hsame, Option.all_some, decide_eq_true_iff] at hall
    exact absurd hall (lt_irrefl _)
  · rw [← hcursor] at hc
    obtain rfl := Option.some.inj hc
    rw [← List.take_append_drop SCAN_PAGE l, List.mem_append] at hmem
    refine hmem.resolve_right fun hdrop => ?_
    rw [← List.take_append_drop SCAN_PAGE l] at hsorted
    have hlt := (List.pairwise_append.mp hsorted).2.2 e hfront _ hdrop
    exact absurd hlt (not_lt.mpr hle)

end Pages

section Writes

variable {m n : Map}

/-- Members that the checks read. -/
def SameMembers (m n : Map) : Prop :=
  n.lookup "id" = m.lookup "id" ∧ n.lookup "mode" = m.lookup "mode" ∧ n.lookup "information" = m.lookup "information"

theorem same_insert (m : Map) {k : String} (v : Value) (h : k ≠ "id" ∧ k ≠ "mode" ∧ k ≠ "information") :
    SameMembers m (SortedMap.insert k v m) := by
  refine ⟨?_, ?_, ?_⟩
  · rw [SortedMap.lookup_insert, if_neg (Ne.symm h.1)]
  · rw [SortedMap.lookup_insert, if_neg (Ne.symm h.2.1)]
  · rw [SortedMap.lookup_insert, if_neg (Ne.symm h.2.2)]

theorem SameMembers.trans {l : Map} (h : SameMembers l m) (h' : SameMembers m n) : SameMembers l n :=
  ⟨h'.1.trans h.1, h'.2.1.trans h.2.1, h'.2.2.trans h.2.2⟩

theorem SameMembers.id_of (h : SameMembers m n) : id_of (.object n) = id_of (.object m) := by
  rw [Proxied.id_of, Proxied.id_of, Value.get, Value.get, h.1]

theorem SameMembers.mode_of (h : SameMembers m n) : mode_of (.object n) = mode_of (.object m) := by
  rw [Proxied.mode_of, Proxied.mode_of, Value.get, Value.get, h.2.1]

theorem SameMembers.information (h : SameMembers m n) : information (.object n) = information (.object m) := by
  rw [Proxied.information, Proxied.information, Value.get, Value.get, h.2.2]

theorem SameMembers.valid (h : SameMembers m n) (hv : validate_exclusive (.object m) = true) :
    validate_exclusive (.object n) = true := by
  rw [validate_exclusive, h.mode_of, h.information]
  exact hv

theorem SameMembers.proxied (h : SameMembers m n) : proxied (.object n) = proxied (.object m) := by
  rw [Proxied.proxied, Proxied.proxied, h.mode_of]

theorem SameMembers.apart {regex : String → Option (String → Bool)} {other : Value} (h : SameMembers m n)
    (ha : Apart regex (.object m) other) : Apart regex (.object n) other := by
  rintro id types attr ⟨info, hinfo, hcov⟩
  exact ha id types attr ⟨info, h.information ▸ hinfo, hcov⟩

theorem Apart.symm {regex : String → Option (String → Bool)} {doc other : Value} (h : Apart regex doc other) :
    Apart regex other doc :=
  fun id types attr ho hd => h id types attr hd ho

/-- A stored registration: under its own id, in the normal form, and concrete if exclusive. -/
structure Sound (id : String) (doc : Value) : Prop where
  map : ∃ m, doc = .object m ∧ NormalMap m
  name : id_of doc = some id
  valid : validate_exclusive doc = true

theorem Sound.normal {id : String} {doc : Value} (h : Sound id doc) : ∀ info ∈ information doc, NormalInfo info := by
  obtain ⟨m, rfl, hm⟩ := h.map
  exact normal_information hm

theorem Sound.insert {id : String} (h : Sound id (.object m)) {k : String} (v : Value)
    (hk : k ≠ "id" ∧ k ≠ "mode" ∧ k ≠ "information") : Sound id (.object (SortedMap.insert k v m)) := by
  have hsame := same_insert m v hk
  obtain ⟨_, ⟨⟩, hm⟩ := h.map
  exact ⟨⟨_, rfl, normal_insert hm fun he => absurd he hk.2.2⟩, hsame.id_of.trans h.name, hsame.valid h.valid⟩

end Writes

section Steps

variable {Instant : Type} [LinearOrder Instant] {chrono : Chrono Instant} {accepts : String → Value → Bool}
  {regex : String → Option (String → Bool)}

theorem take_live_docs {s : State} {id j : String} {other : Value}
    (h : (take_live_registration s id).1.get j = some other) : s.docs.get j = some other := by
  unfold take_live_registration at h
  split at h
  · exact h
  · split_ifs at h
    · rw [BTreeMap.get_remove] at h
      split_ifs at h
      exact h
    · exact h

theorem take_live_some {s : State} {id : String} {doc : Value} (h : (take_live_registration s id).2 = some doc) :
    s.docs.get id = some doc ∧ reg_expired s.now doc = false ∧ (take_live_registration s id).1 = s.docs := by
  unfold take_live_registration at h ⊢
  split at h
  · cases h
  · rename_i found hfound
    split_ifs at h ⊢ with hexp
    obtain rfl := Option.some.inj h
    exact ⟨hfound, Bool.eq_false_iff.mpr hexp, rfl⟩

theorem take_live_none {s : State} {id : String} (h : (take_live_registration s id).2 = none) :
    (take_live_registration s id).1.get id = none := by
  unfold take_live_registration at h ⊢
  split at h
  · assumption
  · split_ifs at h ⊢
    rw [BTreeMap.get_remove, if_pos rfl]

/-- The requests that take the lock. -/
theorem acquire_cases {s s' : State} {r : Request} {expand : String → String} {parsed_at generated : String}
    (h : acquire chrono accepts regex s r expand parsed_at generated = some s') :
    s'.now = s.now ∧
    ((∃ obj norm, r = .create obj ∧
      normalize_registration chrono accepts (context regex expand) parsed_at obj false = some norm ∧
      s'.docs = (take_live_registration s (new_id norm generated)).1 ∧
      s'.held = some ⟨.create (new_id norm generated), context regex expand, some (.object (new_document norm generated)), none,
        none, !proxied (.object (new_document norm generated))⟩) ∨
    ∃ id obj fragment, r = .update id obj ∧
      normalize_registration chrono accepts (context regex expand) parsed_at obj true = some fragment ∧
      s'.docs = (take_live_registration s id).1 ∧
      (((take_live_registration s id).2.bind Value.as_object = none ∧
        s'.held = some ⟨.update id fragment, context regex expand, none, some id, none, true⟩) ∨
      ∃ prev, (take_live_registration s id).2 = some (.object prev) ∧
        validate_exclusive (.object (merge_fragment prev fragment)) = true ∧
        s'.held = some ⟨.update id fragment, context regex expand, some (.object (merge_fragment prev fragment)), some id, none,
          !proxied (.object (merge_fragment prev fragment))⟩)) := by
  unfold acquire at h
  dsimp only at h
  split_ifs at h
  cases r with
  | create obj =>
      obtain ⟨norm, hnorm, h⟩ := Option.bind_eq_some_iff.mp h
      split_ifs at h
      obtain rfl := Option.some.inj h
      exact ⟨rfl, .inl ⟨obj, norm, rfl, hnorm, rfl, rfl⟩⟩
  | update id obj =>
      dsimp only at h
      split_ifs at h
      obtain ⟨fragment, hfragment, h⟩ := Option.bind_eq_some_iff.mp h
      split at h
      · rename_i hbefore
        obtain rfl := Option.some.inj h
        exact ⟨rfl, .inr ⟨id, obj, fragment, rfl, hfragment, rfl, .inl ⟨hbefore, rfl⟩⟩⟩
      · rename_i prev hbefore
        split_ifs at h with hvalid
        obtain rfl := Option.some.inj h
        obtain ⟨doc, hdoc, hprev⟩ := Option.bind_eq_some_iff.mp hbefore
        have hobject : doc = .object prev := by
          cases doc <;> simp_all [Value.as_object]
        rw [Bool.or_eq_true_iff, not_or] at hvalid
        refine ⟨rfl, .inr ⟨id, obj, fragment, rfl, hfragment, rfl, .inr ⟨prev, hobject ▸ hdoc, ?_, rfl⟩⟩⟩
        simpa using hvalid.1

/-- What the lock protects: the document under it is the one its write leaves. -/
structure Ready (regex : String → Option (String → Bool)) (docs : BTreeMap String Value) (h : Held) : Prop where
  env : ∃ expand, h.env = context regex expand
  create : ∀ id, h.write = .create id → h.self_id = none ∧ ∃ norm, h.doc = some (.object norm) ∧ Sound id (.object norm)
  update : ∀ id fragment, h.write = .update id fragment → h.self_id = some id ∧ ∀ m, docs.get id = some (.object m) →
    h.doc = some (.object (merge_fragment m fragment)) ∧ Sound id (.object (merge_fragment m fragment))

structure Inv (regex : String → Option (String → Bool)) (s : State) : Prop where
  docs : ∀ id doc, s.docs.get id = some doc → Sound id doc
  held : ∀ h, s.held = some h → Ready regex s.docs h

theorem Ready.mono {docs docs' : BTreeMap String Value} {h : Held} (hr : Ready regex docs h)
    (hsub : ∀ j other, docs'.get j = some other → docs.get j = some other) : Ready regex docs' h :=
  ⟨hr.env, hr.create, fun id fragment hw => ⟨(hr.update id fragment hw).1, fun m hm =>
    (hr.update id fragment hw).2 m (hsub _ _ hm)⟩⟩

theorem sound_new {expand : String → String} {parsed_at generated : String} {obj norm : Map}
    (h : normalize_registration chrono accepts (context regex expand) parsed_at obj false = some norm) :
    Sound (new_id norm generated) (.object (new_document norm generated)) := by
  have hvalid : validate_exclusive (.object norm) = true := by
    unfold normalize_registration at h
    split at h
    · cases h
    obtain ⟨out, -, h⟩ := Option.bind_eq_some_iff.mp h
    rw [if_neg Bool.false_ne_true] at h
    split_ifs at h with hchecks
    obtain rfl := Option.some.inj h
    exact (Bool.and_eq_true_iff.mp hchecks).2
  refine ⟨⟨_, rfl, normal_insert (normal_registration h) fun he => absurd he (by decide)⟩, ?_, ?_⟩
  · rw [id_of, new_document, Value.get, SortedMap.lookup_insert, if_pos rfl]
    rfl
  · have hmode : mode_of (.object (new_document norm generated)) = mode_of (.object norm) := by
      rw [mode_of, mode_of, new_document, Value.get, Value.get, SortedMap.lookup_insert, if_neg (by decide)]
    have hinfo : information (.object (new_document norm generated)) = information (.object norm) := by
      rw [information, information, new_document, Value.get, Value.get, SortedMap.lookup_insert, if_neg (by decide)]
    rw [validate_exclusive, hmode, hinfo]
    exact hvalid

theorem inv_acquire {s s' : State} {r : Request} {expand : String → String} {parsed_at generated : String}
    (hi : Inv regex s) (h : acquire chrono accepts regex s r expand parsed_at generated = some s') : Inv regex s' := by
  obtain ⟨-, ⟨obj, norm, -, hnorm, hdocs, hheld⟩ | ⟨id, obj, fragment, -, hfragment, hdocs, hcase⟩⟩ := acquire_cases h
  · refine ⟨fun j other hj => hi.docs j other (take_live_docs (hdocs ▸ hj)), fun held hh => ?_⟩
    rw [hheld] at hh
    obtain rfl := Option.some.inj hh
    refine ⟨⟨expand, rfl⟩, ?_, by rintro _ _ ⟨⟩⟩
    rintro _ ⟨⟩
    exact ⟨rfl, _, rfl, sound_new hnorm⟩
  · refine ⟨fun j other hj => hi.docs j other (take_live_docs (hdocs ▸ hj)), fun held hh => ?_⟩
    rcases hcase with ⟨hnone, hheld⟩ | ⟨prev, hprev, hvalid, hheld⟩
    · rw [hheld] at hh
      obtain rfl := Option.some.inj hh
      refine ⟨⟨expand, rfl⟩, by rintro _ ⟨⟩, ?_⟩
      rintro _ _ ⟨⟩
      refine ⟨rfl, fun m hm => ?_⟩
      rw [hdocs] at hm
      cases hlive : (take_live_registration s id).2 with
      | none => rw [take_live_none hlive] at hm; cases hm
      | some doc =>
          obtain ⟨hget, -, -⟩ := take_live_some hlive
          obtain ⟨m', rfl, -⟩ := (hi.docs id doc hget).map
          rw [hlive] at hnone
          cases hnone
    · rw [hheld] at hh
      obtain rfl := Option.some.inj hh
      refine ⟨⟨expand, rfl⟩, by rintro _ ⟨⟩, ?_⟩
      rintro _ _ ⟨⟩
      refine ⟨rfl, fun m hm => ?_⟩
      obtain ⟨hget, -, -⟩ := take_live_some hprev
      rw [hdocs] at hm
      obtain ⟨⟩ := Option.some.inj (hget.symm.trans (take_live_docs hm))
      have hsound := hi.docs id _ hget
      obtain ⟨_, ⟨⟩, hnormal⟩ := hsound.map
      refine ⟨rfl, ⟨_, rfl, normal_merge hnormal (normal_registration hfragment)⟩, ?_, hvalid⟩
      rw [id_of, Value.get, lookup_merge_id]
      exact hsound.name

/-- A write changes nothing, or stores the document of the section with new stamps. -/
theorem write_cases {s : State} {h : Held} (hr : Ready regex s.docs h) :
    write s h = s.docs ∨ ∃ id m n, write s h = s.docs.insert id (.object n) ∧ h.doc = some (.object m) ∧ SameMembers m n ∧
      Sound id (.object n) ∧ ∀ j, j ≠ id → some j ≠ h.self_id := by
  unfold write
  cases hw : h.write with
  | create id =>
      obtain ⟨hself, norm, hdoc, hsound⟩ := hr.create id hw
      rw [hdoc]
      dsimp only
      split_ifs
      · exact .inl rfl
      · have hc := same_insert norm (.string s.now) (k := "createdAt") (by decide)
        have hm := same_insert (SortedMap.insert "createdAt" (.string s.now) norm) (.string s.now) (k := "modifiedAt")
          (by decide)
        refine .inr ⟨id, norm, _, rfl, rfl, hc.trans hm, (hsound.insert _ (by decide)).insert _ (by decide), ?_⟩
        intro j _
        rw [hself]
        exact Option.some_ne_none j
  | update id fragment =>
      obtain ⟨hself, hmerged⟩ := hr.update id fragment hw
      dsimp only
      cases hget : (s.docs.get id).bind Value.as_object with
      | none => exact .inl rfl
      | some target =>
          obtain ⟨doc, hdoc, hobj⟩ := Option.bind_eq_some_iff.mp hget
          have hobject : doc = .object target := by
            cases doc <;> simp_all [Value.as_object]
          subst hobject
          obtain ⟨hd, hsound⟩ := hmerged target hdoc
          refine .inr ⟨id, _, _, rfl, hd, same_insert _ _ (by decide), hsound.insert _ (by decide), ?_⟩
          intro j hj he
          rw [hself] at he
          exact hj (Option.some.inj he)

theorem inv_write {s : State} {h : Held} (hi : Inv regex s) (hh : s.held = some h) :
    Inv regex { s with docs := write s h, held := none } := by
  refine ⟨fun j other hj => ?_, fun _ he => by cases he⟩
  rcases write_cases (hi.held h hh) with hsame | ⟨id, m, n, hwrite, -, -, hsound, -⟩
  · exact hi.docs j other (hsame ▸ hj)
  · dsimp only at hj
    rw [hwrite, BTreeMap.get_insert] at hj
    split_ifs at hj with he
    · obtain rfl := Option.some.inj hj
      exact he ▸ hsound
    · exact hi.docs j other hj

theorem inv_page {s : State} {h : Held} {doc : Value} (hi : Inv regex s) (hh : s.held = some h) :
    Inv regex (read_page s h doc) := by
  have hready := hi.held h hh
  unfold read_page
  dsimp only
  split_ifs
  · exact ⟨hi.docs, fun _ he => by cases he⟩
  · refine ⟨hi.docs, fun h' he => ?_⟩
    obtain rfl := Option.some.inj he
    exact ⟨hready.env, hready.create, hready.update⟩

theorem inv_step {s s' : State} {a : Act} (hi : Inv regex s) (h : step chrono accepts regex s a = some s') : Inv regex s' := by
  cases a with
  | tick now =>
      rw [step] at h
      split_ifs at h
      obtain rfl := Option.some.inj h
      exact ⟨hi.docs, hi.held⟩
  | remove id =>
      obtain rfl := Option.some.inj h
      have hsub : ∀ j other, (s.docs.remove id).get j = some other → s.docs.get j = some other := by
        intro j other hj
        rw [BTreeMap.get_remove] at hj
        split_ifs at hj
        exact hj
      exact ⟨fun j other hj => hi.docs j other (hsub j other hj), fun held hh => (hi.held held hh).mono hsub⟩
  | acquire r expand parsed_at generated => exact inv_acquire hi h
  | page =>
      obtain ⟨held, hh, h⟩ := Option.bind_eq_some_iff.mp h
      split at h
      · obtain rfl := Option.some.inj h
        exact inv_page hi hh
      · cases h
  | write =>
      obtain ⟨held, hh, h⟩ := Option.bind_eq_some_iff.mp h
      split_ifs at h
      obtain rfl := Option.some.inj h
      exact inv_write hi hh
  | abandon =>
      obtain rfl := Option.some.inj h
      exact ⟨hi.docs, fun _ he => by cases he⟩

end Steps

section Runs

variable {Instant : Type} [LinearOrder Instant] (chrono : Chrono Instant) (accepts : String → Value → Bool)
  (regex : String → Option (String → Bool))

/-- A proxied document is plain, and akin to the live registrations it is
checked against. -/
def Fits (s : State) (self_id : Option String) (doc : Value) : Prop :=
  proxied doc = true → (∀ info ∈ information doc, PlainInfo info) ∧ ∀ j other, s.docs.get j = some other →
    some j ≠ self_id → reg_expired s.now other = false → guarded doc other = true → Kindred regex doc other

/-- What a request asks to be stored fits what is there. -/
def Act.Fits (s : State) : Act → Prop
  | .acquire (.create obj) expand parsed_at generated => ∀ norm,
      normalize_registration chrono accepts (context regex expand) parsed_at obj false = some norm →
        Proxied.Fits regex s none (.object (new_document norm generated))
  | .acquire (.update id obj) expand parsed_at _ => ∀ fragment prev,
      normalize_registration chrono accepts (context regex expand) parsed_at obj true = some fragment →
        s.docs.get id = some (.object prev) → Proxied.Fits regex s (some id) (.object (merge_fragment prev fragment))
  | _ => True

def AllFit (s : State) : List Act → Prop
  | [] => True
  | a :: acts => a.Fits chrono accepts regex s ∧ ∀ s', step chrono accepts regex s a = some s' → AllFit s' acts

variable {chrono accepts regex}

/-- A stored registration that the document under the lock must not overlap. -/
structure Rival (s : State) (h : Held) (doc : Value) (j : String) (other : Value) : Prop where
  held : s.held = some h
  document : h.doc = some doc
  is_proxied : proxied doc = true
  found : s.docs.get j = some other
  aside : some j ≠ h.self_id
  live : reg_expired s.now other = false
  is_guarded : guarded doc other = true

/-- Those the walk has passed are apart from the document under the lock. -/
structure Kept (regex : String → Option (String → Bool)) (s : State) : Prop where
  exclusive : Exclusive regex s
  plain : ∀ h doc, s.held = some h → h.doc = some doc → proxied doc = true → ∀ info ∈ information doc, PlainInfo info
  kindred : ∀ h doc j other, Rival s h doc j other → Kindred regex doc other
  apart : ∀ h doc j other, Rival s h doc j other → h.checked = true ∨ (∃ c, h.cursor = some c ∧ j ≤ c) →
    Apart regex doc other

/-- Fewer registrations and a later time: nothing to show. -/
theorem kept_mono {s s' : State} (hk : Kept regex s) (hheld : s'.held = s.held)
    (hsub : ∀ j other, s'.docs.get j = some other → s.docs.get j = some other)
    (hlive : ∀ other, reg_expired s'.now other = false → reg_expired s.now other = false) : Kept regex s' := by
  have hrival : ∀ h doc j other, Rival s' h doc j other → Rival s h doc j other := by
    intro h doc j other hr
    exact ⟨hheld ▸ hr.held, hr.document, hr.is_proxied, hsub j other hr.found, hr.aside, hlive other hr.live, hr.is_guarded⟩
  refine ⟨?_, ?_, ?_, ?_⟩
  · intro i j doc other hi hj hne hli hlj
    exact hk.exclusive i j doc other (hsub i doc hi) (hsub j other hj) hne (hlive doc hli) (hlive other hlj)
  · intro h doc hh
    exact hk.plain h doc (hheld ▸ hh)
  · intro h doc j other hr
    exact hk.kindred h doc j other (hrival h doc j other hr)
  · intro h doc j other hr
    exact hk.apart h doc j other (hrival h doc j other hr)

theorem kept_release {s' : State} (hk : Exclusive regex s') (hheld : s'.held = none) : Kept regex s' := by
  refine ⟨hk, ?_, ?_, ?_⟩
  · intro h doc hh
    rw [hheld] at hh
    cases hh
  · intro h doc j other hr
    have := hr.held
    rw [hheld] at this
    cases this
  · intro h doc j other hr
    have := hr.held
    rw [hheld] at this
    cases this

theorem reg_expired_mono {now now' : String} (h : dt_key now ≤ dt_key now') {other : Value}
    (hlive : reg_expired now' other = false) : reg_expired now other = false := by
  rw [Bool.eq_false_iff] at hlive ⊢
  intro hexp
  obtain ⟨e, he, hlt⟩ := (Option.any_eq_true _ _).mp hexp
  refine hlive ((Option.any_eq_true _ _).mpr ⟨e, he, ?_⟩)
  exact decide_eq_true ((of_decide_eq_true hlt).trans_le h)

theorem exclusive_sub {s s' : State} (hk : Exclusive regex s) (hnow : s'.now = s.now)
    (hsub : ∀ j other, s'.docs.get j = some other → s.docs.get j = some other) : Exclusive regex s' := by
  intro i j doc other hi hj hne hli hlj
  rw [hnow] at hli hlj
  exact hk i j doc other (hsub i doc hi) (hsub j other hj) hne hli hlj

/-- The lock is taken for a document that fits, with the walk before it. -/
theorem kept_acquire {s s' : State} (hk : Exclusive regex s) (hnow : s'.now = s.now)
    (hsub : ∀ j other, s'.docs.get j = some other → s.docs.get j = some other) {h : Held} (hheld : s'.held = some h)
    (hfits : ∀ doc, h.doc = some doc → Fits regex s h.self_id doc ∧ h.checked = !proxied doc) (hcursor : h.cursor = none) :
    Kept regex s' := by
  refine ⟨exclusive_sub hk hnow hsub, ?_, ?_, ?_⟩
  · intro h' doc hh hdoc hp
    rw [hheld] at hh
    obtain rfl := Option.some.inj hh
    exact ((hfits doc hdoc).1 hp).1
  · rintro h' doc j other ⟨hh, hdoc, hp, hfound, hother, hlive, hg⟩
    rw [hheld] at hh
    obtain rfl := Option.some.inj hh
    exact ((hfits doc hdoc).1 hp).2 j other (hsub j other hfound) hother (hnow ▸ hlive) hg
  · rintro h' doc j other ⟨hh, hdoc, hp, -, -, -, -⟩ hreach
    rw [hheld] at hh
    obtain rfl := Option.some.inj hh
    rw [(hfits doc hdoc).2, hp, hcursor] at hreach
    simp at hreach

theorem kept_page {s : State} {h : Held} {doc : Value} (hi : Inv regex s) (hk : Kept regex s) (hh : s.held = some h)
    (hdoc : h.doc = some doc) : Kept regex (read_page s h doc) := by
  have hname : ∀ e ∈ s.docs.entries, id_of e.2 = some e.1 := by
    intro e he
    exact (hi.docs e.1 e.2 (BTreeMap.mem_entries.mp he)).name
  obtain ⟨expand, henv⟩ := (hi.held h hh).env
  unfold read_page
  dsimp only
  split_ifs with hconflict
  · exact kept_release hk.exclusive rfl
  have hrival : ∀ h' doc' j other, Rival { s with held := some { h with
      cursor := (list_page s.docs h.cursor).foldl (fun c e => (id_of e.2).or c) h.cursor
      checked := (list_page s.docs h.cursor).length < SCAN_PAGE ||
        (list_page s.docs h.cursor).foldl (fun c e => (id_of e.2).or c) h.cursor = h.cursor } } h' doc' j other →
      h'.cursor = (list_page s.docs h.cursor).foldl (fun c e => (id_of e.2).or c) h.cursor ∧
      h'.checked = (decide ((list_page s.docs h.cursor).length < SCAN_PAGE) ||
        decide ((list_page s.docs h.cursor).foldl (fun c e => (id_of e.2).or c) h.cursor = h.cursor)) ∧
      doc' = doc ∧ Rival s h doc j other := by
    rintro h' doc' j other ⟨hh', hdoc', hp, hfound, hother, hlive, hg⟩
    obtain rfl := Option.some.inj hh'
    obtain rfl := Option.some.inj (hdoc.symm.trans hdoc')
    exact ⟨rfl, rfl, rfl, hh, hdoc, hp, hfound, hother, hlive, hg⟩
  refine ⟨hk.exclusive, ?_, ?_, ?_⟩
  · intro h' doc' hh' hdoc' hp
    obtain rfl := Option.some.inj hh'
    exact hk.plain h doc' hh hdoc' hp
  · intro h' doc' j other hr
    obtain ⟨-, -, rfl, hr⟩ := hrival h' doc' j other hr
    exact hk.kindred h doc' j other hr
  · intro h' doc' j other hr hreach
    obtain ⟨hcursor, hchecked, rfl, hr⟩ := hrival h' doc' j other hr
    rw [hchecked, hcursor, Bool.or_eq_true_iff, decide_eq_true_iff, decide_eq_true_iff, or_assoc] at hreach
    by_cases hpassed : ∃ c, h.cursor = some c ∧ j ≤ c
    · exact hk.apart h doc' j other hr (.inr hpassed)
    · have hnew : ∀ c, h.cursor = some c → c < j := by
        intro c hc
        exact not_le.mp fun hle => hpassed ⟨c, hc, hle⟩
      have hseen := mem_list_page hname hr.found hnew rfl hreach
      have hfree : overlaps (context regex expand) s.now h.self_id doc' other = false := by
        rw [← henv, Bool.eq_false_iff]
        intro hover
        exact hconflict (List.any_eq_true.mpr ⟨_, hseen, hover⟩)
      have hsound := hi.docs j other hr.found
      refine apart_of_not_overlaps hfree ?_ hr.live hr.is_guarded hsound.normal (hk.plain h doc' hh hdoc hr.is_proxied)
        (hk.kindred h doc' j other hr)
      rw [hsound.name]
      exact hr.aside

theorem exclusive_write {s : State} {h : Held} (hi : Inv regex s) (hk : Kept regex s) (hh : s.held = some h)
    (hchecked : h.checked = true) : Exclusive regex { s with docs := write s h, held := none } := by
  rcases write_cases (hi.held h hh) with hsame | ⟨id, m, n, hwrite, hdoc, hsame, -, haside⟩
  · exact exclusive_sub hk.exclusive rfl fun j other hj => hsame ▸ hj
  have hnew : ∀ j other, j ≠ id → s.docs.get j = some other → reg_expired s.now other = false →
      proxied (.object m) = true → guarded (.object m) other = true → Apart regex (.object n) other := by
    intro j other hj hfound hlive hp hg
    exact hsame.apart (hk.apart h _ j other ⟨hh, hdoc, hp, hfound, haside j hj, hlive, hg⟩ (.inl hchecked))
  intro i j doc other hi hj hne hli hlj hmode hp
  dsimp only at hi hj hli hlj
  rw [hwrite, BTreeMap.get_insert] at hi hj
  split_ifs at hi hj with hid hjd hjd
  · exact absurd (hid.trans hjd.symm) hne
  · obtain rfl := Option.some.inj hi
    rw [hsame.mode_of] at hmode
    refine hnew j other hjd hj hlj ?_ ?_
    · rw [proxied, hmode]
      rfl
    · rw [guarded, if_pos hmode, hp]
  · obtain rfl := Option.some.inj hj
    rw [hsame.proxied] at hp
    refine (hnew i doc hid hi hli hp ?_).symm
    rw [guarded, proxied, hmode]
    split_ifs <;> rfl
  · exact hk.exclusive i j doc other hi hj hne hli hlj hmode hp

theorem kept_step {s s' : State} {a : Act} (hi : Inv regex s) (hk : Kept regex s) (hfits : a.Fits chrono accepts regex s)
    (h : step chrono accepts regex s a = some s') : Kept regex s' := by
  cases a with
  | tick now =>
      rw [step] at h
      split_ifs at h with hle
      obtain rfl := Option.some.inj h
      exact kept_mono hk rfl (fun _ _ hj => hj) fun _ => reg_expired_mono hle
  | remove id =>
      obtain rfl := Option.some.inj h
      refine kept_mono hk rfl (fun j other hj => ?_) fun _ hlive => hlive
      dsimp only at hj
      rw [BTreeMap.get_remove] at hj
      split_ifs at hj
      exact hj
  | acquire r expand parsed_at generated =>
      obtain ⟨hnow, ⟨obj, norm, rfl, hnorm, hdocs, hheld⟩ | ⟨id, obj, fragment, rfl, hfragment, hdocs, hcase⟩⟩ :=
        acquire_cases h
      · refine kept_acquire hk.exclusive hnow (fun j other hj => take_live_docs (hdocs ▸ hj)) hheld ?_ rfl
        rintro _ ⟨⟩
        exact ⟨hfits norm hnorm, rfl⟩
      · rcases hcase with ⟨-, hheld⟩ | ⟨prev, hprev, -, hheld⟩
        · refine kept_acquire hk.exclusive hnow (fun j other hj => take_live_docs (hdocs ▸ hj)) hheld ?_ rfl
          rintro _ ⟨⟩
        · refine kept_acquire hk.exclusive hnow (fun j other hj => take_live_docs (hdocs ▸ hj)) hheld ?_ rfl
          rintro _ ⟨⟩
          exact ⟨hfits fragment prev hfragment (take_live_some hprev).1, rfl⟩
  | page =>
      obtain ⟨held, hh, h⟩ := Option.bind_eq_some_iff.mp h
      split at h
      · obtain rfl := Option.some.inj h
        exact kept_page hi hk hh ‹_›
      · cases h
  | write =>
      obtain ⟨held, hh, h⟩ := Option.bind_eq_some_iff.mp h
      split_ifs at h with hchecked
      obtain rfl := Option.some.inj h
      exact kept_release (exclusive_write hi hk hh hchecked) rfl
  | abandon =>
      obtain rfl := Option.some.inj h
      exact kept_release hk.exclusive rfl

theorem run_keeps (acts : List Act) {s s' : State} (hi : Inv regex s) (h : run chrono accepts regex s acts = some s') :
    Inv regex s' ∧ (Kept regex s → AllFit chrono accepts regex s acts → Kept regex s') := by
  induction acts generalizing s with
  | nil =>
      obtain rfl := Option.some.inj h
      exact ⟨hi, fun hk _ => hk⟩
  | cons a acts ih =>
      obtain ⟨next, hnext, h⟩ := Option.bind_eq_some_iff.mp h
      obtain ⟨hinv, hkeep⟩ := ih (inv_step hi hnext) h
      exact ⟨hinv, fun hk hfit => hkeep (kept_step hi hk hfit.1 hnext) (hfit.2 next hnext)⟩

/-- From an empty tenant on, every exclusive registration is concrete; and while
the requests fit what is stored, none shares an entity and attribute with
another proxied registration. -/
theorem proxied_exclusive (acts : List Act) (now : String) (s : State)
    (h : run chrono accepts regex (start now) acts = some s) :
    (∀ id doc, s.docs.get id = some doc → Concrete doc) ∧
      (AllFit chrono accepts regex (start now) acts → Exclusive regex s) := by
  have hinv : Inv regex (start now) := by
    constructor
    · intro id doc hd
      cases hd
    · intro held hh
      cases hh
  have hkept : Kept regex (start now) := by
    refine kept_release ?_ rfl
    intro i j doc other hi
    cases hi
  obtain ⟨hi, hkeep⟩ := run_keeps acts hinv h
  refine ⟨fun id doc hd => ?_, fun hfit => (hkeep hkept hfit).exclusive⟩
  exact concrete_of_valid (hi.docs id doc hd).valid (hi.docs id doc hd).normal

/-- The level of the room, found under one of its types. -/
def level (type : String) : Value := .object [
  ("entities", .array [.object [("id", .string "urn:room"), ("type", .string type)]]),
  ("propertyNames", .array [.string "level"])]

def source (id type : String) : Map := [
  ("endpoint", .string "http://a.example.org"),
  ("id", .string id),
  ("information", .array [level type]),
  ("mode", .string "exclusive"),
  ("type", .string "ContextSourceRegistration")]

def creating (id type : String) : List Act :=
  [.acquire (.create (source id type)) (fun t => t) "" "", .page, .write]

/-- What a run leaves under an id, as the checks read it. -/
def left (acts : List Act) (id : String) : Option (List Value × Option String × Bool) :=
  (run fixed_width (fun _ _ => true) (fun _ => none) (start "") acts).bind fun s =>
    (s.docs.get id).map fun doc => (information doc, mode_of doc, reg_expired s.now doc)

theorem covers_level {doc : Value} {type : String} {types : List String} (h : information doc = [level type])
    (ht : type ∈ types) : Covers regex doc "urn:room" types "level" := by
  refine ⟨level type, h ▸ List.mem_singleton_self _, ⟨.object [("id", .string "urn:room"), ("type", .string type)],
    List.mem_singleton_self _, ⟨?_, ?_⟩, .inr ⟨type, List.mem_singleton_self _, ht⟩⟩, .inr (List.mem_singleton_self _)⟩
  · rintro i ⟨⟩
    rfl
  · rintro p ⟨⟩

theorem plain_level (type : String) : PlainInfo (level type) := by
  have hone : entities (level type) = [.object [("id", .string "urn:room"), ("type", .string type)]] := rfl
  constructor
  · rw [hone]
    refine .inr fun x hx => ?_
    rw [List.mem_singleton.mp hx]
    exact List.cons_ne_nil _ _
  · rw [hone]
    intro x hx hnone
    rw [List.mem_singleton.mp hx] at hnone
    cases hnone

theorem creating_fits : AllFit fixed_width (fun _ _ => true) (fun _ => none) (start "") (creating "urn:a" "Room") := by
  refine ⟨fun norm hnorm _ => ⟨?_, ?_⟩, fun _ _ => ⟨trivial, fun _ _ => ⟨trivial, fun _ _ => trivial⟩⟩⟩
  · have hinfo : (normalize_registration fixed_width (fun _ _ => true) (context (fun _ => none) (fun t => t)) ""
        (source "urn:a" "Room") false).map (fun norm => information (.object (new_document norm ""))) =
        some [level "Room"] := by decide
    rw [hnorm, Option.map_some, Option.some.injEq] at hinfo
    rw [hinfo]
    intro info hmem
    rw [List.mem_singleton.mp hmem]
    exact plain_level "Room"
  · intro j other hj
    cases hj

theorem proxied_exclusive_one : ∃ s,
    run fixed_width (fun _ _ => true) (fun _ => none) (start "") (creating "urn:a" "Room") = some s ∧
      s.docs.get "urn:a" ≠ none ∧ (∀ id doc, s.docs.get id = some doc → Concrete doc) ∧ Exclusive (fun _ => none) s := by
  have hleft : left (creating "urn:a" "Room") "urn:a" = some ([level "Room"], some "exclusive", false) := by
    decide
  obtain ⟨s, hs, hdoc⟩ := Option.bind_eq_some_iff.mp hleft
  obtain ⟨hconcrete, hexclusive⟩ := proxied_exclusive (creating "urn:a" "Room") "" s hs
  refine ⟨s, hs, ?_, hconcrete, hexclusive creating_fits⟩
  intro hnone
  rw [hnone] at hdoc
  cases hdoc

/-- Two sources, each exclusive for the level of one room under another of its types. -/
theorem two_exclusive : ∃ s, run fixed_width (fun _ _ => true) (fun _ => none) (start "")
    (creating "urn:a" "Room" ++ creating "urn:b" "Lab") = some s ∧ ¬Exclusive (fun _ => none) s := by
  have ha : left (creating "urn:a" "Room" ++ creating "urn:b" "Lab") "urn:a" =
      some ([level "Room"], some "exclusive", false) := by decide
  have hb : left (creating "urn:a" "Room" ++ creating "urn:b" "Lab") "urn:b" =
      some ([level "Lab"], some "exclusive", false) := by decide
  obtain ⟨s, hs, hdoc⟩ := Option.bind_eq_some_iff.mp ha
  obtain ⟨s', hs', hother⟩ := Option.bind_eq_some_iff.mp hb
  obtain rfl := Option.some.inj (hs.symm.trans hs')
  obtain ⟨doc, hfound, hdoc⟩ := Option.map_eq_some_iff.mp hdoc
  obtain ⟨other, hfound', hother⟩ := Option.map_eq_some_iff.mp hother
  rw [Prod.mk.injEq, Prod.mk.injEq] at hdoc hother
  refine ⟨s, hs, fun hexclusive => ?_⟩
  have hapart := hexclusive "urn:a" "urn:b" doc other hfound hfound' (by decide) hdoc.2.2 hother.2.2 hdoc.2.1
    (by rw [proxied, hother.2.1]; rfl)
  exact hapart "urn:room" ["Room", "Lab"] "level" (covers_level hdoc.1 List.mem_cons_self)
    (covers_level hother.1 (List.mem_cons_of_mem _ List.mem_cons_self))

end Runs

end AntaresBroker.Proxied
