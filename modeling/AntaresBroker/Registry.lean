import AntaresBroker.Eval

namespace AntaresBroker.Registry

open Json Text Expiry Ql Ql.Eval

/-- The types an EntityInfo names. -/
def ei_types (ei : Value) : List String :=
  match ei.get "type" with
  | some (.string s) => [s]
  | some (.array a) => a.filterMap Value.as_str
  | _ => []

def strip_parens (s : List Char) : List Char := (s.dropWhile (· = '(')).rdropWhile (· = ')')

/-- Entity Type Selection: `,` and `|` between alternatives, `;` within one. -/
def type_selection_matches (expand : String → String) (sel : String) (types : List String) : Bool :=
  (sel.toList.splitOnP (fun c => c = ',' || c = '|')).any (fun alt =>
    ((strip_parens (trim alt)).splitOn ';').all (fun t => types.contains (expand (String.ofList (trim t)))))

/-- Canonical comparison key of a DateTime; other texts are their own key. -/
def dt_key (s : String) : List Char :=
  if s.toList.getLast? = some 'Z' then
    match splitAtByte 19 s.toList.dropLast with
    | none => s.toList
    | some (base, frac) =>
        let digits := ((eat '.' frac).or (eat ',' frac)).getD []
        base ++ '.' :: digits ++ List.replicate (6 - digits.length) '0'
  else s.toList

def reg_expired (now : String) (doc : Value) : Bool :=
  ((doc.get "expiresAt").bind Value.as_str).any (fun e => dt_key e < dt_key now)

structure TemporalQ where
  timerel : String
  time_at : String
  end_time_at : Option String
  timeproperty : String

def temporal_interval_matches (doc : Value) (tq : TemporalQ) : Bool :=
  match (doc.get (if tq.timeproperty = "observedAt" then "observationInterval" else "managementInterval")).bind
      Value.as_object with
  | none => false
  | some iv =>
      let start := dt_key (((iv.lookup "startAt").bind Value.as_str).getD "")
      let stop := ((iv.lookup "endAt").bind Value.as_str).map dt_key
      if tq.timerel = "before" then start < dt_key tq.time_at
      else if tq.timerel = "after" then stop.all (fun e => dt_key tq.time_at < e)
      else if tq.timerel = "between" then
        dt_key tq.time_at ≤ stop.getD "9999".toList && start ≤ dt_key (tq.end_time_at.getD tq.time_at)
      else true

/-- The entity and attribute specification matched against registrations. -/
structure CsrSpec where
  types : Option (List String)
  ids : Option (List String)
  id_pattern : Option String
  attrs : Option (List String)
  dataset_ids : Option (List String)
  csf : Option QNode
  /-- the geometry test of a geo query -/
  geo : Option (Value → Bool)
  temporal : Option TemporalQ

variable (env : Env)

def finds (pattern id : String) : Bool := (env.regex pattern).any (fun is_match => is_match id)

/-- A type of the specification against the types an EntityInfo names. -/
def names_type (its : List String) (t : String) : Bool := its.contains t || type_selection_matches env.expand t its

def entity_info_matches (spec : CsrSpec) (ei : Value) : Bool :=
  let its := ei_types ei
  let ei_id := (ei.get "id").bind Value.as_str
  let ei_pat := (ei.get "idPattern").bind Value.as_str
  if spec.types.any (fun types => its ≠ [] && !types.any (names_type env its)) then false
  else if ei_id = none && ei_pat = none then true
  else if spec.ids.any (fun ids => ei_id.any (fun rid => ids.contains rid) ||
      ei_pat.any (fun p => ids.any (finds env p))) then true
  else if spec.id_pattern.any (fun qp => ei_id.any (finds env qp) || ei_pat.isSome) then true
  else spec.ids = none && spec.id_pattern = none

/-- The names of a member of a RegistrationInfo, if it is an array. -/
def names_of (info : Value) (key : String) : Option (List String) :=
  ((info.get key).bind Value.as_array).map (fun l => l.filterMap Value.as_str)

def attrs_match_info (attrs : Option (List String)) (info : Value) : Bool :=
  match attrs with
  | none => true
  | some attrs =>
      let props := names_of info "propertyNames"
      let rels := names_of info "relationshipNames"
      let has := fun list : Option (List String) => list.any (fun l => l.any (fun n => attrs.contains n))
      attrs = [] || (props = none && rels = none) || has props || has rels

def info_matches (spec : CsrSpec) (info : Value) : Bool :=
  (match (info.get "entities").bind Value.as_array with
    | none => true
    | some es => es.any (entity_info_matches env spec)) && attrs_match_info spec.attrs info

/-- The RegistrationInfos of a registration that match a specification. -/
def matching_infos (spec : CsrSpec) (doc : Value) : List Value :=
  (((doc.get "information").bind Value.as_array).getD []).filter (info_matches env spec)

variable {Instant : Type} [LinearOrder Instant] (chrono : Chrono Instant)

/-- A member of a registration as an instance: stored attributes stay as they are. -/
def csf_instance (v : Value) : Value :=
  match v with
  | .array _ => v
  | .object o => if (o.lookup "value").isSome || (o.lookup "object").isSome then .array [v] else property v
  | _ => property v
where
  property (v : Value) : Value := .array [.object [("type", .string "Property"), ("value", v)]]

def csf_matches (csf : QNode) (reg : Value) : Bool :=
  match reg with
  | .object obj =>
      let head := SortedMap.insert "type" (.array [.string "ContextSourceRegistration"])
        (SortedMap.insert "id" ((obj.lookup "id").getD .null) [])
      let pseudo := obj.foldl (fun m p =>
        if ["id", "type", "information", "createdAt", "modifiedAt"].contains p.1 then m
        else SortedMap.insert (env.expand p.1) (csf_instance p.2) m) head
      eval_q chrono { env with lookup := fun _ => none } csf (.object pseudo)
  | _ => false

/-- Does a stored registration take part in an operation, and through which
RegistrationInfos; `seen` are the sources of the request's Via chain. -/
def reg_candidate (now : String) (spec : CsrSpec) (seen : List String) (doc : Value) : Option (List Value) :=
  let disjoint := fun ds : List String =>
    ((doc.get "datasetId").bind Value.as_array).any (fun reg_ds =>
      !(reg_ds.filterMap Value.as_str).any (fun d => ds.contains d))
  if reg_expired now doc then none
  else if spec.csf.any (fun csf => !csf_matches env chrono csf doc) then none
  else if spec.dataset_ids.any disjoint then none
  else if spec.geo.any (fun gq => (doc.get "location").any (fun geom => !gq geom)) then none
  else if spec.temporal.any (fun tq => ((doc.get "observationInterval").isSome ||
      (doc.get "managementInterval").isSome) && !temporal_interval_matches doc tq) then none
  else if ((doc.get "contextSourceAlias").bind Value.as_str).any seen.contains then none
  else
    match matching_infos env spec doc with
    | [] => none
    | infos => some infos

theorem reg_candidate_infos {now : String} {spec : CsrSpec} {seen : List String} {doc : Value} {infos : List Value}
    (h : reg_candidate env chrono now spec seen doc = some infos) :
    infos = matching_infos env spec doc ∧ infos ≠ [] ∧
      ((doc.get "contextSourceAlias").bind Value.as_str).any seen.contains = false := by
  unfold reg_candidate at h
  simp only at h
  split_ifs at h with h1 h2 h3 h4 h5 h6
  cases hm : matching_infos env spec doc with
  | nil => simp [hm] at h
  | cons i is =>
      rw [hm] at h
      obtain rfl := Option.some.inj h
      exact ⟨rfl, List.cons_ne_nil _ _, Bool.eq_false_of_not_eq_true h6⟩

/-- Every term under one vocabulary, no entities and no patterns. -/
def one_vocabulary : Env := ⟨fun term => "https://example.org/" ++ term, fun _ => none, fun _ => none⟩

/-- The specification that asks for nothing. -/
def any_spec : CsrSpec := ⟨none, none, none, none, none, none, none, none⟩

end AntaresBroker.Registry
