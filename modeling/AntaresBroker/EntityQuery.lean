import AntaresBroker.Conjuncts
import AntaresBroker.EntityId
import AntaresBroker.ScopeQ

namespace AntaresBroker.Entities

open Fallible Json Model Ql Text Ql.Eval Ql.Scope

/-- The query parameters of a request, decoded. -/
abbrev Params := String → Option String

def insert_param (params : Params) (name value : String) : Params := Function.update params name (some value)

def remove_param (params : Params) (name : String) : Params := Function.update params name none

theorem insert_param_self (params : Params) (name value : String) : insert_param params name value name = some value :=
  Function.update_self _ _ _

theorem insert_param_of_ne (params : Params) {name other : String} (value : String) (h : other ≠ name) :
    insert_param params name value other = params other := Function.update_of_ne h _ _

theorem remove_param_self (params : Params) (name : String) : remove_param params name name = none :=
  Function.update_self _ _ _

theorem remove_param_of_ne (params : Params) {name other : String} (h : other ≠ name) :
    remove_param params name other = params other := Function.update_of_ne h _ _

/-- The parts of a text between its commas. -/
def split_commas (s : String) : List String := (s.toList.splitOn ',').map String.ofList

/-- Refused by every regular expression of the language. -/
def DOUBLE_QUANTIFIERS : List String := ["**", "++", "*+", "+*"]

/-- Alternatives of conjunctions of Entity Types. -/
def type_selection (expand : String → String) (s : String) : List (List String) :=
  (alternatives s).map (fun alt =>
    ((strip_parens (trim alt)).splitOn ';').map (fun t => expand (String.ofList (trim t))))

def type_matches (sel : List (List String)) (doc : Value) : Bool :=
  let etypes := (doc.get "type").toList.flatMap strings
  sel.any (fun and_group => and_group.all etypes.contains)

def id_of (doc : Value) : String := ((doc.get "id").bind Value.as_str).getD ""

/-- What a query is read into. -/
structure Selection where
  ids : Option (List String)
  id_pattern : Option (String → Bool)
  types : Option (List (List String))
  attrs : Option (List String)
  q : Option QNode
  scope_q : Option String
  geo : Option (Value → Bool)

section Filtering

variable {Instant : Type} [LinearOrder Instant]

/-- What a query is read and run with: the context, the store, the regular
expressions, the calendar, and the geo-query of `georel`, `geometry`,
`coordinates` and `geoproperty`. -/
structure Env (Instant : Type) [LinearOrder Instant] extends Ql.Eval.Env where
  chrono : Expiry.Chrono Instant
  geo_query : Option String → Option String → Option String → Option String → Except NgsiError (Option (Value → Bool))

variable (env : Env Instant)

def selected_ids (params : Params) : Except NgsiError (Option (List String)) :=
  match params "id" with
  | none => .ok none
  | some s =>
      match (split_commas s).find? (fun id => !valid_id id) with
      | some id => bad id.toList "entity id is not a valid URI"
      | none => .ok (some (split_commas s))

def id_pattern (params : Params) : Except NgsiError (Option (String → Bool)) :=
  match params "idPattern" with
  | none => .ok none
  | some p =>
      if DOUBLE_QUANTIFIERS.any (fun q => q.toList <:+: p.toList) then bad p.toList "invalid idPattern"
      else
        match env.regex p with
        | none => bad p.toList "invalid idPattern"
        | some re => .ok (some re)

/-- The expression of the request, with the values the request asks for expanded. -/
def q_ast (params : Params) : Except NgsiError (Option QNode) :=
  match params "q" with
  | none => .ok none
  | some q =>
      (parse_q q).map (fun node =>
        some (apply_expand_values env.expand node (expansion_list (params "expandValues") (params "jsonKeys"))))

def selection (params : Params) : Except NgsiError Selection :=
  (selected_ids params).bind fun ids =>
  (id_pattern env params).bind fun id_pattern =>
  (q_ast env params).bind fun q =>
  (env.geo_query (params "georel") (params "geometry") (params "coordinates") (params "geoproperty")).map fun geo =>
    { ids, id_pattern, q, geo
      types := ((params "type").filter (· ≠ "*")).map (type_selection env.expand)
      attrs := (params "attrs").map (fun s => (names s).map env.expand)
      scope_q := params "scopeQ" }

/-- The checks of one entity; an id selector takes precedence over a pattern. -/
def Selection.selects (sel : Selection) (doc : Value) : Bool :=
  sel.ids.all (fun ids => ids.contains (id_of doc)) &&
    (sel.ids.isSome || sel.id_pattern.all (fun is_match => is_match (id_of doc))) &&
    sel.types.all (fun types => type_matches types doc) &&
    sel.attrs.all (fun attrs => attrs.any (fun a => (doc.get a).isSome)) &&
    sel.q.all (fun ast => eval_q env.chrono env.toEnv ast doc) &&
    sel.scope_q.all (fun sq => scope_matches sq doc) &&
    sel.geo.all (fun matches_geo => matches_geo doc)

/-- The local rows under their ids, in the order they came; of two with one id the last. -/
def merge_candidates (rows : List Value) : List Value :=
  let local_rows := rows.filterMap (fun doc => ((doc.get "id").bind Value.as_str).map (·, doc))
  (local_rows.map Prod.fst).eraseDups.filterMap (fun id => local_rows.reverse.lookup id)

/-- What a query selects of the rows a memory store lists, nothing federated among them. -/
def filter_entities (params : Params) (rows : List Value) : Except NgsiError (List Value) :=
  (selection env params).map (fun sel => (merge_candidates rows).filter (sel.selects env))

end Filtering

/-- Plain texts only, no links and no geo-queries. -/
def plain_env : Env String where
  expand := { JsonLd.Context.default with vocab := "urn:" }.expand_key
  lookup _ := none
  regex _ := none
  chrono := Expiry.fixed_width
  geo_query _ _ _ _ := .ok none

end AntaresBroker.Entities
