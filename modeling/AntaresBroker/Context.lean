import AntaresBroker.BTreeMap
import AntaresBroker.Json
import AntaresBroker.Text
import Mathlib.Data.List.Sort
import Mathlib.Data.List.Dedup

namespace AntaresBroker.JsonLd

open Json Text

def DEFAULT_VOCAB : String := "https://uri.etsi.org/ngsi-ld/default-context/"

def MAX_CONTEXT_BYTES : Nat := 5 * 1024 * 1024

/-- What a merge refuses: a term definition with an `@context` of its own in a
user context, or more expanded bytes than the budget. -/
inductive NgsiError
  | ScopedContext (term : String)
  | ExceedsMaximumSize
deriving DecidableEq

structure TermDef where
  iri : String
  type_is_id : Bool
  type_is_vocab : Bool
  container_list : Bool
  prefix_ok : Bool
deriving DecidableEq

def TermDef.simple (iri : String) : TermDef := ⟨iri, false, false, false, true⟩

structure Context where
  terms : BTreeMap String TermDef
  inverse : BTreeMap String String
  prefixes : BTreeMap String String
  prefix_lens : List Nat
  vocab : String
  bytes : Nat
deriving DecidableEq

def Context.default : Context := ⟨.empty, .empty, .empty, [], "", 0⟩

def is_ascii_alphabetic (c : Char) : Bool := ('a' ≤ c ∧ c ≤ 'z') ∨ ('A' ≤ c ∧ c ≤ 'Z')

def is_ascii_alphanumeric (c : Char) : Bool := is_ascii_alphabetic c ∨ ('0' ≤ c ∧ c ≤ '9')

def is_absolute_iri (s : String) : Bool :=
  match split_once ':' s with
  | some (scheme, rest) =>
      rest ≠ "" && scheme.toList.head?.any is_ascii_alphabetic &&
        scheme.toList.all (fun c => is_ascii_alphanumeric c || "+-.".toList.contains c)
  | none => false

def vocab_or_default (vocab : String) : String := if vocab = "" then DEFAULT_VOCAB else vocab

namespace Context

/-- The IRI of the prefix a compact name starts with, and the rest of the name. -/
def prefixed (c : Context) (s : String) : Option (String × String) :=
  match split_once ':' s with
  | some (before, suffix) =>
      if starts_with suffix "//" then none
      else match c.terms.get before with
        | some d => if d.prefix_ok then some (d.iri, suffix) else none
        | none => none
  | none => none

def expand_iri_for_def (c : Context) (s : String) : String :=
  if starts_with s "@" then s
  else match c.prefixed s with
    | some (iri, suffix) => iri ++ suffix
    | none =>
        if is_absolute_iri s then s
        else match c.terms.get s with
          | some d => d.iri
          | none => if c.vocab ≠ "" then c.vocab ++ s else s

def charge (c : Context) (iri : String) : Except NgsiError Context :=
  if c.bytes + len iri > MAX_CONTEXT_BYTES then .error .ExceedsMaximumSize
  else .ok { c with bytes := c.bytes + len iri }

def insert (c : Context) (term : String) (d : TermDef) : Context := { c with terms := c.terms.insert term d }

/-- Pass 1: plain absolute IRIs, which the other definitions may use as prefixes. -/
def seed (c : Context) (p : String × Value) : Context :=
  if starts_with p.1 "@" then c
  else match p.2.as_str with
    | some s => if is_absolute_iri s then c.insert p.1 (.simple s) else c
    | none => c

/-- The IRI of a definition object; `none` where the definition is skipped. -/
def definition_id (c : Context) (term : String) (o : Map) : Option String :=
  match (o.lookup "@id").bind Value.as_str with
  | some id => some (c.expand_iri_for_def id)
  | none =>
      if (o.lookup "@container").isSome || (o.lookup "@type").isSome then
        let iri := c.expand_iri_for_def term
        some (if is_absolute_iri iri then iri else vocab_or_default c.vocab ++ term)
      else none

def member_str (o : Map) (k : String) : String := ((o.lookup k).bind Value.as_str).getD ""

/-- Pass 2: every definition, compact names resolved against the terms so far. -/
def define_term (user_context : Bool) (c : Context) (p : String × Value) : Except NgsiError Context :=
  if starts_with p.1 "@" then .ok c
  else match p.2 with
    | .string s =>
        let iri := c.expand_iri_for_def s
        (c.charge iri).map (fun c => c.insert p.1 (.simple iri))
    | .object o =>
        if user_context && (o.lookup "@context").isSome then .error (.ScopedContext p.1)
        else match c.definition_id p.1 o with
          | none => .ok c
          | some id =>
              (c.charge id).map (fun c => c.insert p.1
                { iri := id
                  type_is_id := member_str o "@type" = "@id"
                  type_is_vocab := member_str o "@type" = "@vocab"
                  container_list := member_str o "@container" = "@list"
                  prefix_ok := ((o.lookup "@prefix").bind Value.as_bool).getD false })
    | .null => .ok { c with terms := c.terms.remove p.1 }
    | _ => .ok c

def merge_definitions (c : Context) (obj : Map) (user_context : Bool) : Except NgsiError Context :=
  let c := match (obj.lookup "@vocab").bind Value.as_str with
    | some v => { c with vocab := v }
    | none => c
  obj.foldlM (define_term user_context) (obj.foldl seed c)

def merge_object (c : Context) (obj : Map) : Except NgsiError Context := c.merge_definitions obj true

def merge_core_object (c : Context) (obj : Map) : Except NgsiError Context := c.merge_definitions obj false

/-- The tie-break of both indexes: the shorter term, then the smaller. -/
def shorter (existing term : String) : Bool :=
  len existing < len term || (len existing == len term && existing ≤ term)

def terms_by_iri (c : Context) : List (String × String) := c.terms.entries.map (fun p => (p.2.iri, p.1))

def prefixes_by_iri (c : Context) : List (String × String) :=
  (c.terms.entries.filter (fun p => p.2.prefix_ok && p.2.iri ≠ "")).map (fun p => (p.2.iri, p.1))

def freeze (c : Context) : Context :=
  let pfx := BTreeMap.least shorter c.prefixes_by_iri
  { c with
    inverse := BTreeMap.least shorter c.terms_by_iri
    prefixes := pfx
    prefix_lens := ((pfx.keys.map len).insertionSort (· ≤ ·)).dedup.reverse }

def expand_key (c : Context) (key : String) : String :=
  match c.terms.get key with
  | some d => d.iri
  | none =>
      match c.prefixed key with
      | some (iri, suffix) => iri ++ suffix
      | none => if is_absolute_iri key then key else vocab_or_default c.vocab ++ key

/-- The first of the bases that starts the IRI decides; the rest is the short
name when expansion takes that name for no other IRI. -/
def shorten (c : Context) (iri : String) : Option String :=
  match [vocab_or_default c.vocab, DEFAULT_VOCAB].findSome? fun base => strip_prefix iri base with
  | some rest =>
      if rest ≠ "" && !rest.toList.contains ':' && (c.terms.get rest).all (fun d => d.iri == iri) then some rest
      else none
  | none => none

def compact_with (c : Context) (iri : String) (n : Nat) : Option String :=
  if len iri ≤ n then none
  else (split_at_byte n iri).bind (fun p => (c.prefixes.get p.1).map (fun term => term ++ ":" ++ p.2))

def compact_iri (c : Context) (iri : String) : String :=
  match c.inverse.get iri with
  | some term => term
  | none =>
      match c.shorten iri with
      | some rest => rest
      | none => (c.prefix_lens.findSome? (c.compact_with iri)).getD iri

/-- The merges of a request, in order, each of a user or of a Core document. -/
def merge_all (objs : List (Map × Bool)) : Except NgsiError Context :=
  objs.foldlM (fun c o => if o.2 then c.merge_object o.1 else c.merge_core_object o.1) default

def build (objs : List (Map × Bool)) : Except NgsiError Context := (merge_all objs).map freeze

end Context

end AntaresBroker.JsonLd
