import AntaresBroker.EntityQuery
import AntaresBroker.Expand
import AntaresBroker.Mem
import AntaresBroker.Merge

namespace AntaresBroker.Distsub

open Fallible Json Ql Ql.Eval Registry Entities

def TYPE_OPERATORS : List Char := ['|', ',', ';', '(']

def types_of (doc : Value) : List String := (doc.get "type").toList.flatMap strings

section Copying

variable (env : Ql.Eval.Env)

/-- One element of the `entities` of a Subscription; its id takes precedence over its pattern. -/
def selector_takes (e : Value) (id : String) (types : List String) : Bool :=
  ((e.get "type").bind Value.as_str).all (fun t =>
      if t = "*" then true
      else if t.toList.any TYPE_OPERATORS.contains then type_selection_matches env.expand t types
      else types.contains t) &&
    (match e.get "id" with
      | none => true
      | some (.string i) => i = id
      | some (.array a) => (a.filterMap Value.as_str).contains id
      | some _ => false) &&
    ((e.get "id").isSome || ((e.get "idPattern").bind Value.as_str).all (fun p => finds env p id))

/-- A Subscription without selectors takes every entity. -/
def selector_match (sub doc : Value) : Bool :=
  ((sub.get "entities").bind Value.as_array).all (fun sel =>
    sel.any (fun e => selector_takes env e (id_of doc) (types_of doc)))

/-- A Subscription without watched attributes is notified of a change of any. -/
def watches (sub : Value) (iri : String) : Bool :=
  ((sub.get "watchedAttributes").bind Value.as_array).all (fun w => (w.filterMap Value.as_str).contains iri)

def OUTPUT_ONLY : List String := [
  "status", "timesSent", "lastNotification", "lastSuccess", "lastFailure", "createdAt", "modifiedAt", "localOnly"]

def DELIVERY : List String := [
  "attributes", "pick", "omit", "status", "timesSent", "timesFailed", "lastNotification", "lastSuccess", "lastFailure"]

def CONDITIONS : List String := ["q", "geoQ", "scopeQ"]

def infos_of (reg : Value) : List Value := ((reg.get "information").bind Value.as_array).getD []

def with_type (t : Value) : Value → Value
  | .object m => .object (SortedMap.insert "type" t m)
  | e => e

/-- An EntityInfo as a selector, of its first type alone. -/
def selector_of (e : Value) : Value :=
  let e := (((e.get "type").bind Value.as_array).bind List.head?).elim e (fun t => with_type t e)
  ((e.get "type").bind Value.as_str).elim e (fun t => with_type (.string (env.expand t)) e)

/-- The EntityInfos of all the information of a registration. -/
def entity_infos (reg : Value) : List Value :=
  (infos_of reg).flatMap (fun i => ((i.get "entities").bind Value.as_array).getD [])

/-- The names of all the information of a registration. -/
def reg_attrs (reg : Value) : List String :=
  (infos_of reg).flatMap (fun i =>
    ["propertyNames", "relationshipNames"].flatMap (fun k => ((names_of i k).getD []).map env.expand))

def watch_of (attrs : List String) (o : Map) : List Value :=
  match (o.lookup "watchedAttributes").bind Value.as_array with
  | some w => w.filter (fun a => a.as_str.any attrs.contains)
  | none => attrs.map Value.string

/-- The watched attributes cut to the names registered, if there are any. -/
def watching (attrs : List String) (o : Map) : Option Map :=
  if attrs = [] then some o
  else if watch_of attrs o = [] then none
  else some (SortedMap.insert "watchedAttributes" (.array (watch_of attrs o)) o)

def own_record (k : String) : Bool := OUTPUT_ONLY.contains k || "__".toList.isPrefixOf k.toList

def notified_at (public_url : String) : Value → Value
  | .object n =>
      .object (SortedMap.insert "endpoint" (.object [("uri", .string (public_url ++ "/ex/v1/remote-notify"))])
        (n.filter (fun p => !DELIVERY.contains p.1)))
  | v => v

def splits (sub : Value) : Bool := (sub.get "splitEntities").bind Value.as_bool = some true

def selecting (selectors : List Value) (o : Map) : Map :=
  if selectors = [] then o else SortedMap.insert "entities" (.array selectors) o

/-- The members a Subscription keeps on its way to a source. -/
def copied (public_url : String) (split : Bool) (o : Map) : Value :=
  let o := if split then o.filter (fun p => !CONDITIONS.contains p.1) else o
  .object (o.map (fun p => (p.1, if p.1 = "notification" then notified_at public_url p.2 else p.2)))

/-- The copy of a Subscription for the source of a registration. -/
def reduced_copy (public_url remote_id : String) (sub reg : Value) : Option Value :=
  match sub with
  | .object o =>
      let o := SortedMap.insert "id" (.string remote_id) (o.filter (fun p => !own_record p.1))
      (watching (reg_attrs env reg) (selecting ((entity_infos reg).map (selector_of env)) o)).map
        (copied public_url (splits sub))
  | sub => some sub

variable {env}

theorem copied_get (public_url : String) (split : Bool) (o : Map) {k : String}
    (hk : k ∉ ["q", "geoQ", "scopeQ", "notification"]) : (copied public_url split o).get k = o.lookup k := by
  have hq : k ∉ CONDITIONS := fun h => hk (List.mem_append_left ["notification"] h)
  have hn : k ≠ "notification" := fun h => hk (List.mem_append_right ["q", "geoQ", "scopeQ"] (List.mem_singleton.mpr h))
  unfold copied Value.get
  dsimp only
  rw [SortedMap.lookup_map_value (fun k v => if k = "notification" then notified_at public_url v else v)]
  have hkept : (if split then o.filter (fun p => !CONDITIONS.contains p.1) else o).lookup k = o.lookup k := by
    cases split with
    | false => rfl
    | true =>
        rw [if_pos rfl, SortedMap.lookup_filter (fun k => !CONDITIONS.contains k), if_pos]
        rw [Bool.not_eq_true', ← Bool.not_eq_true, List.contains_iff_mem]
        exact hq
  rw [hkept]
  cases o.lookup k with
  | none => rfl
  | some v => exact congrArg some (if_neg hn)

theorem strings_filter (attrs : List String) (w : List Value) :
    (w.filter (fun a => a.as_str.any attrs.contains)).filterMap Value.as_str =
      (w.filterMap Value.as_str).filter attrs.contains := by
  rw [List.filterMap_filter, List.filter_filterMap]
  congr 1
  funext a
  cases h : a.as_str with
  | none => simp
  | some s => simp [Option.filter]

theorem strings_map_string (attrs : List String) : (attrs.map Value.string).filterMap Value.as_str = attrs := by
  rw [List.filterMap_map]
  exact List.filterMap_some

/-- What is left to watch: the names registered among those the Subscription watches. -/
theorem mem_watch_of (attrs : List String) (o : Map) (iri : String) :
    iri ∈ (watch_of attrs o).filterMap Value.as_str ↔ watches (.object o) iri = true ∧ iri ∈ attrs := by
  unfold watch_of watches Value.get
  cases (o.lookup "watchedAttributes").bind Value.as_array with
  | none =>
      dsimp only
      rw [strings_map_string]
      simp
  | some w =>
      dsimp only
      rw [strings_filter, List.mem_filter, Option.all_some, List.contains_iff_mem, List.contains_iff_mem]

variable {public_url remote_id : String} {o : Map} {reg : Value}

/-- The Subscription with the selectors of the registration, before its watched attributes are cut. -/
def reselected (env : Ql.Eval.Env) (remote_id : String) (o : Map) (reg : Value) : Map :=
  selecting ((entity_infos reg).map (selector_of env))
    (SortedMap.insert "id" (.string remote_id) (o.filter (fun p => !own_record p.1)))

theorem reduced_copy_eq : reduced_copy env public_url remote_id (.object o) reg =
    (watching (reg_attrs env reg) (reselected env remote_id o reg)).map (copied public_url (splits (.object o))) := rfl

theorem lookup_kept {k : String} (hid : k ≠ "id") (hk : own_record k = false) :
    (SortedMap.insert "id" (.string remote_id) (o.filter (fun p => !own_record p.1))).lookup k = o.lookup k := by
  rw [SortedMap.lookup_insert, if_neg hid, SortedMap.lookup_filter (fun k => !own_record k), if_pos]
  rw [hk]
  rfl

theorem reselected_watches (env : Ql.Eval.Env) (remote_id : String) (o : Map) (reg : Value) (iri : String) :
    watches (.object (reselected env remote_id o reg)) iri = watches (.object o) iri := by
  have hkept : (reselected env remote_id o reg).lookup "watchedAttributes" = o.lookup "watchedAttributes" := by
    unfold reselected selecting
    split_ifs
    · exact lookup_kept (by decide) (by decide)
    · rw [SortedMap.lookup_insert, if_neg (by decide)]
      exact lookup_kept (by decide) (by decide)
  rw [watches, watches, Value.get, Value.get, hkept]

theorem reselected_selector_match (doc : Value) : selector_match env (.object (reselected env remote_id o reg)) doc =
    if entity_infos reg = [] then selector_match env (.object o) doc
    else (entity_infos reg).any (fun ei => selector_takes env (selector_of env ei) (id_of doc) (types_of doc)) := by
  unfold selector_match Value.get reselected selecting
  dsimp only
  simp only [List.map_eq_nil_iff]
  split_ifs with hnone
  · rw [lookup_kept (by decide) (by decide)]
  · rw [SortedMap.lookup_insert, if_pos rfl]
    exact List.any_map

theorem watching_reads {attrs : List String} {o o' : Map} (h : watching attrs o = some o') :
    o'.lookup "entities" = o.lookup "entities" ∧
      ∀ iri, watches (.object o') iri = true ↔ watches (.object o) iri = true ∧ (attrs = [] ∨ iri ∈ attrs) := by
  unfold watching at h
  split_ifs at h with hall hnone
  · obtain rfl := Option.some.inj h
    exact ⟨rfl, fun iri => ⟨fun hw => ⟨hw, Or.inl hall⟩, And.left⟩⟩
  · obtain rfl := Option.some.inj h
    refine ⟨by rw [SortedMap.lookup_insert, if_neg (by decide)], fun iri => ?_⟩
    have hread : watches (.object (SortedMap.insert "watchedAttributes" (.array (watch_of attrs o)) o)) iri = true ↔
        iri ∈ (watch_of attrs o).filterMap Value.as_str := by
      rw [watches, Value.get, SortedMap.lookup_insert, if_pos rfl]
      exact List.contains_iff_mem
    rw [hread, mem_watch_of, or_iff_right hall]

theorem watching_isSome {attrs : List String} {o : Map} {iri : String} (hw : watches (.object o) iri = true)
    (hattrs : attrs = [] ∨ iri ∈ attrs) : (watching attrs o).isSome = true := by
  unfold watching
  split_ifs with hall hnone
  · rfl
  · have hmem := (mem_watch_of attrs o iri).mpr ⟨hw, hattrs.resolve_left hall⟩
    rw [hnone] at hmem
    exact absurd hmem List.not_mem_nil
  · rfl

/-- What a copy selects and watches, when there is one. -/
theorem reduced_copy_reads {copy : Value} (h : reduced_copy env public_url remote_id (.object o) reg = some copy) :
    (∀ doc, selector_match env copy doc = if entity_infos reg = [] then selector_match env (.object o) doc
      else (entity_infos reg).any (fun ei => selector_takes env (selector_of env ei) (id_of doc) (types_of doc))) ∧
    ∀ iri, watches copy iri = true ↔ watches (.object o) iri = true ∧ (reg_attrs env reg = [] ∨ iri ∈ reg_attrs env reg) := by
  rw [reduced_copy_eq] at h
  obtain ⟨o', hw, rfl⟩ := Option.map_eq_some_iff.mp h
  obtain ⟨hentities, hwatches⟩ := watching_reads hw
  refine ⟨fun doc => ?_, fun iri => ?_⟩
  · rw [← reselected_selector_match, selector_match, copied_get _ _ _ (by decide), hentities]
    rfl
  · rw [watches, copied_get _ _ _ (by decide), ← reselected_watches env remote_id o reg]
    exact hwatches iri

theorem reduced_copy_isSome {iri : String} (hw : watches (.object o) iri = true)
    (hattrs : reg_attrs env reg = [] ∨ iri ∈ reg_attrs env reg) :
    ∃ copy, reduced_copy env public_url remote_id (.object o) reg = some copy := by
  rw [← reselected_watches env remote_id o reg] at hw
  obtain ⟨o', ho'⟩ := Option.isSome_iff_exists.mp (watching_isSome hw hattrs)
  exact ⟨_, by rw [reduced_copy_eq, ho']; rfl⟩

/-- The change of one attribute of an entity, as registrations are searched for it. -/
def change (doc : Value) (iri : String) : CsrSpec :=
  ⟨some (types_of doc), some [id_of doc], none, some [iri], none, none, none, none⟩

/-- One information entry of the registration covers the entity and the attribute. -/
def covered (env : Ql.Eval.Env) (reg doc : Value) (iri : String) : Bool := !(matching_infos env (change doc iri) reg).isEmpty

/-- Some EntityInfo takes the entity by the first of its types, whatever entry
it is of; with no EntityInfo at all the Subscription's own selectors decide. -/
def taken (env : Ql.Eval.Env) (sub reg doc : Value) : Bool :=
  if entity_infos reg = [] then selector_match env sub doc
  else (entity_infos reg).any (fun ei => selector_takes env (selector_of env ei) (id_of doc) (types_of doc))

/-- Some entry names the attribute, or none names any. -/
def named (env : Ql.Eval.Env) (reg : Value) (iri : String) : Prop := reg_attrs env reg = [] ∨ iri ∈ reg_attrs env reg

/-- The copy lets through the change of an attribute the Subscription asks
for and one entry covers, and asks for no other. -/
structure Forwarded (env : Ql.Eval.Env) (public_url remote_id : String) (sub reg doc : Value) (iri : String) : Prop where
  reaches : selector_match env sub doc = true → watches sub iri = true → covered env reg doc iri = true →
    ∃ copy, reduced_copy env public_url remote_id sub reg = some copy ∧
      selector_match env copy doc = true ∧ watches copy iri = true
  confined : ∀ copy, reduced_copy env public_url remote_id sub reg = some copy →
    selector_match env copy doc = true → watches copy iri = true → covered env reg doc iri = true

/-- The entries of a registration, read as one list of selectors and one list
of names, say of a change what they say one by one. -/
structure Aligned (env : Ql.Eval.Env) (sub reg doc : Value) (iri : String) : Prop where
  entity : selector_match env sub doc = true → watches sub iri = true → covered env reg doc iri = true →
    taken env sub reg doc = true
  name : selector_match env sub doc = true → watches sub iri = true → covered env reg doc iri = true → named env reg iri
  together : watches sub iri = true → taken env sub reg doc = true → named env reg iri → covered env reg doc iri = true

theorem forwarded_iff_aligned {doc : Value} {iri : String} :
    Forwarded env public_url remote_id (.object o) reg doc iri ↔ Aligned env (.object o) reg doc iri := by
  constructor
  · intro h
    refine ⟨fun hs hw hc => ?_, fun hs hw hc => ?_, fun hw ht hn => ?_⟩
    · obtain ⟨copy, hcopy, hsel, -⟩ := h.reaches hs hw hc
      rwa [(reduced_copy_reads hcopy).1] at hsel
    · obtain ⟨copy, hcopy, -, hwatch⟩ := h.reaches hs hw hc
      exact (((reduced_copy_reads hcopy).2 iri).mp hwatch).2
    · obtain ⟨copy, hcopy⟩ : ∃ copy, reduced_copy env public_url remote_id (.object o) reg = some copy :=
        reduced_copy_isSome hw hn
      obtain ⟨hsel, hwatch⟩ := reduced_copy_reads hcopy
      exact h.confined copy hcopy ((hsel doc).trans ht) ((hwatch iri).mpr ⟨hw, hn⟩)
  · intro h
    refine ⟨fun hs hw hc => ?_, fun copy hcopy hs hw => ?_⟩
    · have hn := h.name hs hw hc
      obtain ⟨copy, hcopy⟩ : ∃ copy, reduced_copy env public_url remote_id (.object o) reg = some copy :=
        reduced_copy_isSome hw hn
      obtain ⟨hsel, hwatch⟩ := reduced_copy_reads hcopy
      exact ⟨copy, hcopy, (hsel doc).trans (h.entity hs hw hc), (hwatch iri).mpr ⟨hw, hn⟩⟩
    · obtain ⟨hsel, hwatch⟩ := reduced_copy_reads hcopy
      obtain ⟨hown, hn⟩ := (hwatch iri).mp hw
      exact h.together hown ((hsel doc).symm.trans hs) hn

/-- A type name no Entity Type Selection reads otherwise. -/
structure Plain (env : Ql.Eval.Env) (t : String) : Prop where
  expand : env.expand t = t
  not_all : t ≠ "*"
  bare : ∀ c ∈ t.toList, c ∉ [',', '|', ';', '(', ')'] ∧ is_whitespace c = false

theorem Plain.selects {t : String} (h : Plain env t) (types : List String) :
    type_selection_matches env.expand t types = types.contains t := by
  have hsep : t.toList.splitOnP (fun c => c = ',' || c = '|') = [t.toList] := by
    apply List.splitOnP_eq_singleton
    intro c hc
    have := (h.bare c hc).1
    simp_all
  have hsemi : t.toList.splitOn ';' = [t.toList] :=
    List.splitOn_eq_singleton fun hc => absurd (h.bare ';' hc).1 (by decide)
  have hstart : t.toList.dropWhile (· = '(') = t.toList := by
    rw [List.dropWhile_eq_self_iff]
    intro hpos hc
    exact (h.bare _ (List.getElem_mem hpos)).1 (by simp_all)
  have hstop : t.toList.rdropWhile (· = ')') = t.toList := by
    rw [List.rdropWhile_eq_self_iff]
    intro hne hc
    exact (h.bare _ (List.getLast_mem hne)).1 (by simp_all)
  have htrim : trim t.toList = t.toList := trim_plain fun c hc => (h.bare c hc).2
  rw [type_selection_matches, hsep, List.any_cons, List.any_nil, Bool.or_false, htrim, Registry.strip_parens, hstart,
    hstop, hsemi, List.all_cons, List.all_nil, Bool.and_true, htrim, String.ofList_toList, h.expand]

/-- An EntityInfo that stands for itself as a selector. -/
structure Single (env : Ql.Eval.Env) (ei : Value) : Prop where
  type : ∀ v, ei.get "type" = some v → ∃ t, v = .string t ∧ Plain env t
  id : ∀ v, ei.get "id" = some v → ∃ i, v = .string i
  pattern : ∀ v, ei.get "idPattern" = some v → ∃ p, v = .string p
  one : ei.get "id" = none ∨ ei.get "idPattern" = none

theorem Single.selector_get {ei : Value} (h : Single env ei) (k : String) : (selector_of env ei).get k = ei.get k := by
  unfold selector_of
  cases htype : ei.get "type" with
  | none => simp [htype]
  | some v =>
      obtain ⟨t, rfl, hplain⟩ := h.type v htype
      have harray : (some (Value.string t)).bind Value.as_array = none := rfl
      have hstr : (some (Value.string t)).bind Value.as_str = some t := rfl
      rw [harray, Option.bind_none, Option.elim_none]
      dsimp only
      rw [htype, hstr, Option.elim_some, hplain.expand]
      cases ei with
      | object m =>
          rw [with_type, Value.get, SortedMap.lookup_insert, Value.get]
          split_ifs with hk
          · exact hk ▸ htype.symm
          · rfl
      | _ => cases htype

/-- Such an EntityInfo takes an entity as a selector exactly if the registration says so. -/
theorem Single.takes_iff {ei doc : Value} (h : Single env ei) (hdoc : ∀ t ∈ types_of doc, Plain env t) (iri : String) :
    selector_takes env (selector_of env ei) (id_of doc) (types_of doc) = entity_info_matches env (change doc iri) ei := by
  have hnames (t : String) : (types_of doc).any (names_type env [t]) = (types_of doc).contains t := by
    rw [Bool.eq_iff_iff, List.any_eq_true, List.contains_iff_mem]
    constructor
    · rintro ⟨u, hu, hnamed⟩
      rw [names_type, (hdoc u hu).selects, Bool.or_self, List.contains_iff_mem, List.mem_singleton] at hnamed
      exact hnamed ▸ hu
    · intro ht
      exact ⟨t, ht, by simp [names_type]⟩
  have htype : ((ei.get "type").bind Value.as_str).all (fun t =>
      if t = "*" then true
      else if t.toList.any TYPE_OPERATORS.contains then type_selection_matches env.expand t (types_of doc)
      else (types_of doc).contains t) =
      !(decide (ei_types ei ≠ []) && !(types_of doc).any (names_type env (ei_types ei))) := by
    unfold ei_types
    cases ht : ei.get "type" with
    | none => rfl
    | some v =>
        obtain ⟨t, rfl, hplain⟩ := h.type v ht
        have hread : (some (Value.string t)).bind Value.as_str = some t := rfl
        rw [hread, Option.all_some, if_neg hplain.not_all, hplain.selects, ite_self]
        dsimp only
        rw [hnames, decide_eq_true (List.cons_ne_nil t []), Bool.true_and, Bool.not_not]
  rw [selector_takes, h.selector_get, h.selector_get, h.selector_get, htype, entity_info_matches]
  have htypes : (change doc iri).types = some (types_of doc) := rfl
  have hids : (change doc iri).ids = some [id_of doc] := rfl
  have hpattern : (change doc iri).id_pattern = none := rfl
  rw [htypes, hids, hpattern, Option.any_some, Option.any_some, Option.any_none]
  cases decide (ei_types ei ≠ []) && !(types_of doc).any (names_type env (ei_types ei)) with
  | true => simp
  | false =>
      cases hid : ei.get "id" with
      | none =>
          cases hpat : ei.get "idPattern" with
          | none => simp
          | some v =>
              obtain ⟨p, rfl⟩ := h.pattern v hpat
              simp [Value.as_str]
      | some v =>
          obtain ⟨i, rfl⟩ := h.id v hid
          rw [h.one.resolve_left (by rw [hid]; exact Option.some_ne_none _)]
          simp [Value.as_str]

/-- An information entry whose EntityInfos stand for themselves and whose names are expanded. -/
structure PlainInfo (env : Ql.Eval.Env) (info : Value) : Prop where
  entities : ∀ es, (info.get "entities").bind Value.as_array = some es → es ≠ [] ∧ ∀ ei ∈ es, Single env ei
  names : ∀ k ∈ ["propertyNames", "relationshipNames"], ∀ l, names_of info k = some l → l ≠ [] ∧ ∀ n ∈ l, env.expand n = n

theorem PlainInfo.named_iff {info : Value} (h : PlainInfo env info) (hreg : infos_of reg = [info]) (iri : String) :
    named env reg iri ↔ attrs_match_info (some [iri]) info = true := by
  have hmap (k : String) (hk : k ∈ ["propertyNames", "relationshipNames"]) :
      ((names_of info k).getD []).map env.expand = (names_of info k).getD [] := by
    cases hl : names_of info k with
    | none => rfl
    | some l => exact (List.map_congr_left (h.names k hk l hl).2).trans (List.map_id' l)
  have hattrs : reg_attrs env reg =
      (names_of info "propertyNames").getD [] ++ (names_of info "relationshipNames").getD [] := by
    rw [reg_attrs, hreg, List.flatMap_cons, List.flatMap_nil, List.append_nil, List.flatMap_cons, List.flatMap_cons,
      List.flatMap_nil, List.append_nil, hmap _ (by decide), hmap _ (by decide)]
  rw [named, hattrs, attrs_match_info]
  cases hp : names_of info "propertyNames" with
  | none =>
      cases hr : names_of info "relationshipNames" with
      | none => simp
      | some r => simp [(h.names _ (by decide) r hr).1]
  | some p =>
      have hne := (h.names _ (by decide) p hp).1
      cases hr : names_of info "relationshipNames" with
      | none => simp [hne]
      | some r => simp [hne]

/-- A registration of one plain entry is forwarded exactly, whatever the Subscription. -/
theorem aligned_of_plain {info : Value} (h : PlainInfo env info) (hreg : infos_of reg = [info]) {doc : Value}
    (hdoc : ∀ t ∈ types_of doc, Plain env t) (sub : Value) (iri : String) : Aligned env sub reg doc iri := by
  have hcovered : covered env reg doc iri = true ↔
      (∀ es, (info.get "entities").bind Value.as_array = some es →
        es.any (fun ei => selector_takes env (selector_of env ei) (id_of doc) (types_of doc)) = true) ∧
      named env reg iri := by
    have hmatching : covered env reg doc iri = info_matches env (change doc iri) info := by
      rw [covered, matching_infos, ← infos_of, hreg, List.filter_singleton]
      cases info_matches env (change doc iri) info <;> rfl
    rw [hmatching, info_matches, Bool.and_eq_true, h.named_iff hreg]
    refine and_congr ?_ Iff.rfl
    cases hes : (info.get "entities").bind Value.as_array with
    | none => simp
    | some es =>
        have htakes : es.any (entity_info_matches env (change doc iri)) =
            es.any (fun ei => selector_takes env (selector_of env ei) (id_of doc) (types_of doc)) := by
          rw [Bool.eq_iff_iff, List.any_eq_true, List.any_eq_true]
          refine exists_congr fun ei => and_congr_right fun hei => ?_
          rw [((h.entities es hes).2 ei hei).takes_iff hdoc iri]
        simp only [htakes, Option.some.injEq, forall_eq']
  have hinfos : entity_infos reg = ((info.get "entities").bind Value.as_array).getD [] := by
    rw [entity_infos, hreg, List.flatMap_cons, List.flatMap_nil, List.append_nil]
  refine ⟨fun hs hw hc => ?_, fun hs hw hc => (hcovered.mp hc).2, fun hw ht hn => hcovered.mpr ⟨fun es hes => ?_, hn⟩⟩
  · rw [taken, hinfos]
    cases hes : (info.get "entities").bind Value.as_array with
    | none => exact hs
    | some es =>
        rw [Option.getD_some, if_neg (h.entities es hes).1]
        exact (hcovered.mp hc).1 es hes
  · rw [taken, hinfos, hes, Option.getD_some, if_neg (h.entities es hes).1] at ht
    exact ht

end Copying

section Notifying

def hex_digit (b : UInt8) : Option UInt8 :=
  let n := b.toNat
  if 48 ≤ n ∧ n ≤ 57 then some (b - 48)
  else if 65 ≤ n ∧ n ≤ 70 then some (b - 55)
  else if 97 ≤ n ∧ n ≤ 102 then some (b - 87)
  else none

def percent_decode : List UInt8 → List UInt8
  | [] => []
  | b :: rest =>
      match rest with
      | hi :: lo :: tail =>
          if b = 37 then
            match hex_digit hi, hex_digit lo with
            | some h, some l => (16 * h + l) :: percent_decode tail
            | _, _ => b :: percent_decode (hi :: lo :: tail)
          else b :: percent_decode (hi :: lo :: tail)
      | tail => b :: percent_decode tail

variable {Instant : Type} [LinearOrder Instant]

/-- The texts of JSON values and of decoded bytes. -/
structure Texts where
  to_string : Value → String
  from_utf8_lossy : List UInt8 → String

variable (texts : Texts) (env : Entities.Env Instant)

/-- The geo-query of a Subscription, if its member is one. -/
def geo_of (g : Map) : Option (Value → Bool) :=
  let text := fun k => (g.lookup k).bind Value.as_str
  let coordinates := (g.lookup "coordinates").map (fun c => c.as_str.getD (texts.to_string c))
  match env.geo_query (text "georel") (text "geometry") coordinates (text "geoproperty") with
  | .ok gq => gq
  | .error _ => none

/-- The conditions of a Subscription on an entity: its expression, its scopes and its geo-query. -/
def conditions_match (sub doc : Value) : Bool :=
  let text := fun k => (sub.get k).bind Value.as_str
  (text "q").all (fun q =>
      match parse_q (texts.from_utf8_lossy (percent_decode q.toUTF8.toList)) with
      | .error _ => false
      | .ok node => eval_q env.chrono env.toEnv
          (apply_expand_values env.expand node (expansion_list (text "expandValues") (text "jsonKeys"))) doc) &&
    (text "scopeQ").all (fun sq => Ql.Scope.scope_matches sq doc) &&
    ((sub.get "geoQ").bind Value.as_object).all (fun g => (geo_of texts env g).any (fun gq => gq doc))

/-- What of a notified entity the selectors of a Subscription are asked about. -/
def shim (e : Value) : Value :=
  .object [
    ("id", .string (id_of e)),
    ("type", .array (match e.get "type" with
      | some (.string t) => [.string (env.expand t)]
      | some (.array a) => (a.filterMap Value.as_str).map (fun t => .string (env.expand t))
      | _ => []))]

inductive Refusal
  | too_many
  | no_subscription_id
  | unmapped
  | invalid_tenant
  | retrieval (e : NgsiError)

/-- What the handler of inbound notifications reads: the stores, the
contexts of Subscriptions, and the Context Sources other than the origin. -/
structure Node (Instant : Type) [LinearOrder Instant] where
  now : String
  max_batch : Nat
  texts : Texts
  new_internal : String → Option Mem.TenantId
  inbound : String → Option (String × String)
  subscription : Mem.TenantId → String → Option Value
  remotes : Mem.TenantId → String → List (String × String)
  registration : Mem.TenantId → String → Option Value
  entity : Mem.TenantId → String → Option Value
  sub_context : Mem.TenantId → Value → Entities.Env Instant
  expander : Mem.TenantId → Value → JsonLd.Expander Instant
  fed_retrieve : Mem.TenantId → String → Option String → Except NgsiError (List (Bool × Value))

variable (node : Node Instant) (tenant : Mem.TenantId) (sub : Value)

def FRAGMENT_OPTS : JsonLd.ExpandOpts := { allow_null := true, sys := true }

/-- A notified fragment merged with what this broker and the other sources hold of the entity. -/
def merged_fragment (origin : Option String) (ent : Value) : Except NgsiError (Option Value) :=
  match ent with
  | .object obj =>
      match (node.expander tenant sub).expand_entity obj FRAGMENT_OPTS with
      | .error _ => .ok none
      | .ok m =>
          match (m.lookup "id").bind Value.as_str with
          | none => .ok none
          | some id =>
              (node.fed_retrieve tenant id origin).map (fun fed =>
                let held := ((node.entity tenant id).toList.foldl (fun b l => Merge.merge_docs node.now b l false) (.object m))
                some ([false, true].foldl (fun base aux_pass =>
                  fed.foldl (fun base f => if f.1 = aux_pass then Merge.merge_docs node.now base f.2 f.1 else base) base) held))
  | _ => .ok none

def split_merge (origin : Option String) : List Value → Except NgsiError (List Value)
  | [] => .ok []
  | ent :: data =>
      (merged_fragment node tenant sub origin ent).bind fun merged =>
      (split_merge origin data).map fun out =>
        (merged.toList.filter (conditions_match node.texts (node.sub_context tenant sub) sub)) ++ out

/-- The entities of a notification the handler hands on to the subscriber. -/
def refiltered (origin : Option String) (data : List Value) : Except NgsiError (List Value) :=
  let env := node.sub_context tenant sub
  let data := data.filter (fun e => selector_match env.toEnv sub (shim env e))
  if splits sub then split_merge node tenant sub origin data else .ok data

/-- Does the registration a notification came through match the Context Source filter of the Subscription? -/
def origin_matches (origin : Option String) : Bool :=
  match ((sub.get "csf").bind Value.as_str).map parse_q with
  | some (.ok ast) =>
      let env := node.sub_context tenant sub
      (origin.bind (node.registration tenant)).any (csf_matches env.toEnv env.chrono ast)
  | _ => true

structure Addressee where
  tenant : Mem.TenantId
  sub : Value
  origin : Option String

/-- The own Subscription a remote one was created for, and the registration it was created at. -/
def addressee (body : Value) : Except Refusal Addressee :=
  match (body.get "subscriptionId").bind Value.as_str with
  | none => .error .no_subscription_id
  | some sid =>
      match node.inbound sid with
      | none => .error .unmapped
      | some (name, own) =>
          match node.new_internal name with
          | none => .error .invalid_tenant
          | some tenant =>
              match node.subscription tenant own with
              | none => .error .unmapped
              | some sub => .ok ⟨tenant, sub, ((node.remotes tenant own).find? (fun r => r.2 = sid)).map Prod.fst⟩

/-- An inbound notification: the Subscription and the entities it is forwarded with, if it is. -/
def remote_notify (body : Value) : Except Refusal (Option (Value × List Value)) :=
  let data := ((body.get "data").bind Value.as_array).getD []
  if node.max_batch < data.length then .error .too_many
  else
    (addressee node body).bind fun a =>
      if !origin_matches node a.tenant a.sub a.origin then .ok none
      else
        match refiltered node a.tenant a.sub a.origin data with
        | .error e => .error (.retrieval e)
        | .ok [] => .ok none
        | .ok out => .ok (some (a.sub, out))

variable {node tenant sub}

theorem mem_split_merge {origin : Option String} {data out : List Value} (h : split_merge node tenant sub origin data = .ok out)
    {d : Value} (hd : d ∈ out) : ∃ ent ∈ data, merged_fragment node tenant sub origin ent = .ok (some d) ∧
      conditions_match node.texts (node.sub_context tenant sub) sub d = true := by
  induction data generalizing out with
  | nil =>
      rw [split_merge, Except.ok.injEq] at h
      exact absurd (h ▸ hd) List.not_mem_nil
  | cons ent data ih =>
      rw [split_merge] at h
      obtain ⟨merged, hmerged, h⟩ := bind_eq_ok.mp h
      obtain ⟨rest, hrest, rfl⟩ := map_eq_ok.mp h
      rcases List.mem_append.mp hd with hd | hd
      · obtain ⟨hm, hc⟩ := List.mem_filter.mp hd
        rw [Option.mem_toList] at hm
        exact ⟨ent, List.mem_cons_self, by rw [hmerged, Option.mem_def.mp hm], hc⟩
      · obtain ⟨ent', hent', hd⟩ := ih hrest hd
        exact ⟨ent', List.mem_cons_of_mem _ hent', hd⟩

/-- An entity handed to the subscriber stems from one the selectors take; of a
split Subscription it is the merged entity, and meets the conditions. -/
def Admitted (node : Node Instant) (sub : Value) (data : List Value) (d : Value) : Prop :=
  ∃ tenant origin, ∃ ent ∈ data,
    selector_match (node.sub_context tenant sub).toEnv sub (shim (node.sub_context tenant sub) ent) = true ∧
      if splits sub then merged_fragment node tenant sub origin ent = .ok (some d) ∧
        conditions_match node.texts (node.sub_context tenant sub) sub d = true
      else d = ent

theorem refiltered_admitted {origin : Option String} {data out : List Value}
    (h : refiltered node tenant sub origin data = .ok out) {d : Value} (hd : d ∈ out) : Admitted node sub data d := by
  unfold refiltered at h
  dsimp only at h
  split_ifs at h with hsplit
  · obtain ⟨ent, hent, hmerged, hcond⟩ := mem_split_merge h hd
    obtain ⟨hent, hsel⟩ := List.mem_filter.mp hent
    exact ⟨tenant, origin, ent, hent, hsel, by rw [if_pos hsplit]; exact ⟨hmerged, hcond⟩⟩
  · obtain rfl := Except.ok.inj h
    obtain ⟨hent, hsel⟩ := List.mem_filter.mp hd
    exact ⟨tenant, origin, d, hent, hsel, by rw [if_neg hsplit]⟩

theorem remote_notify_admitted {body : Value} {out : List Value} (h : remote_notify node body = .ok (some (sub, out))) :
    ∀ d ∈ out, Admitted node sub (((body.get "data").bind Value.as_array).getD []) d := by
  intro d hd
  obtain ⟨-, h⟩ := ite_ok.mp h
  obtain ⟨a, -, h⟩ := bind_eq_ok.mp h
  split_ifs at h
  · exact absurd (Except.ok.inj h) (by simp)
  · cases hout : refiltered node a.tenant a.sub a.origin (((body.get "data").bind Value.as_array).getD []) with
    | error e =>
        rw [hout] at h
        cases h
    | ok es =>
        rw [hout] at h
        cases es with
        | nil => exact absurd (Except.ok.inj h) (by simp)
        | cons e es =>
            simp only [Except.ok.injEq, Option.some.injEq, Prod.mk.injEq] at h
            obtain ⟨rfl, rfl⟩ := h
            exact refiltered_admitted hout hd

/-- What forwarding a Subscription to the source of a registration is for. -/
structure Delegates (Instant : Type) [LinearOrder Instant] (env : Ql.Eval.Env) (public_url remote_id : String)
    (sub reg : Value) : Prop where
  forwarded : ∀ doc iri, Forwarded env public_url remote_id sub reg doc iri
  admitted : ∀ (node : Node Instant) (body : Value) (out : List Value), remote_notify node body = .ok (some (sub, out)) →
    ∀ d ∈ out, Admitted node sub (((body.get "data").bind Value.as_array).getD []) d

/-- The copy of a Subscription covers what the registration covers of it
exactly if no change tells the entries of the registration, taken one by one,
from their EntityInfos and names taken together. -/
theorem reduced_copy_exact (Instant : Type) [LinearOrder Instant] (env : Ql.Eval.Env) (public_url remote_id : String)
    (o : Map) (reg : Value) :
    Delegates Instant env public_url remote_id (.object o) reg ↔ ∀ doc iri, Aligned env (.object o) reg doc iri :=
  ⟨fun h doc iri => forwarded_iff_aligned.mp (h.forwarded doc iri),
    fun h => ⟨fun doc iri => forwarded_iff_aligned.mpr (h doc iri), fun _ _ _ hout => remote_notify_admitted hout⟩⟩

/-- A source of cars and buses. -/
def fleet : Value := .object [
  ("information", .array [.object [
    ("entities", .array [.object [("type", .array [.string "urn:Car", .string "urn:Bus"])]])]])]

def bus : Value := .object [("id", .string "urn:bus:1"), ("type", .array [.string "urn:Bus"])]

/-- A Subscription to all changes is forwarded to it for cars only. -/
theorem reduced_copy_misses_bus :
    ¬ Delegates String plain_env.toEnv "http://broker" "urn:remote:1" (.object [("id", .string "urn:sub:1")]) fleet := by
  intro h
  obtain ⟨copy, hcopy, hsel, -⟩ := (h.forwarded bus "urn:speed").reaches (by decide) (by decide) (by decide)
  have hread := (reduced_copy_reads hcopy).1 bus
  rw [hsel] at hread
  exact absurd hread (by decide)

end Notifying

end AntaresBroker.Distsub
