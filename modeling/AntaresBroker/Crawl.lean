import AntaresBroker.Ask
import AntaresBroker.Context
import AntaresBroker.Fallible

namespace AntaresBroker.JsonLd

open Json Text Fallible

/-- How many documents one resolution may fetch. -/
def MAX_CONTEXT_URLS : Nat := 32

/-- How many entries may stand one inside the other. -/
def LEVELS : Nat := 9

/-- Why a user `@context` does not resolve. -/
inductive LoadError
  | nesting_too_deep
  | too_many_urls
  | invalid_entry
  | definition (e : NgsiError)
  | cannot_resolve (url base : String)
  | not_fetched (message : String)
  | bad_document (message : String)
deriving DecidableEq

/-- The errors a client gets as `BadRequestData`; the others are `LdContextNotAvailable`. -/
def LoadError.is_bad_request : LoadError → Bool
  | .cannot_resolve _ _ | .not_fetched _ => false
  | _ => true

/-- The built-in documents, and the URL that a reference in a document stands for. -/
structure Web where
  pinned : String → Option Value
  join : String → String → Option String

def Web.is_pinned_core (web : Web) (url : String) : Bool := (web.pinned url).isSome

/-- The merge so far, and the URLs it has read. -/
@[ext]
structure Crawled where
  ctx : Context
  urls : List String

def Crawled.start : Crawled := ⟨.default, []⟩

/-- A part of a resolution, which asks for documents by URL. -/
abbrev Crawl (α : Type) := Ask String (Except LoadError Value) (Except LoadError α)

/-- The loop over the entries of an array, left at the first error. -/
def each (f : Crawled → Value → Crawl Crawled) : List Value → Crawled → Crawl Crawled
  | [], s => .done (.ok s)
  | item :: items, s => (f s item).bind (fun r =>
      match r with
      | .ok s => each f items s
      | .error e => .done (.error e))

section Resolving

variable (web : Web)

/-- The URL that a reference names, in the document it stands in. -/
def resolved (base : Option String) (url : String) : Except LoadError String :=
  if starts_with url "http://" || starts_with url "https://" then .ok url
  else match base with
    | some b => (web.join b url).elim (.error (.cannot_resolve url b)) .ok
    | none => .ok url

/-- The document of a pinned URL is a Core one. -/
def is_core (base : Option String) : Bool := base.any web.is_pinned_core

def merged_object (base : Option String) (c : Context) (obj : Map) : Except NgsiError Context :=
  if is_core web base then c.merge_core_object obj else c.merge_object obj

def defined (base : Option String) (s : Crawled) (obj : Map) : Except LoadError Crawled :=
  match merged_object web base s.ctx obj with
  | .ok ctx => .ok { s with ctx }
  | .error e => .error (.definition e)

/-- The first argument is how many levels of entries are left. -/
def merge_entry : Nat → Option String → Crawled → Value → Crawl Crawled
  | 0, _, _, _ => .done (.error .nesting_too_deep)
  | levels + 1, base, s, entry =>
      match entry with
      | .array items => each (merge_entry levels base) items s
      | .string url =>
          match resolved web base url with
          | .error e => .done (.error e)
          | .ok url =>
              if MAX_CONTEXT_URLS ≤ s.urls.length then .done (.error .too_many_urls)
              else .ask url (fun doc =>
                match doc with
                | .error e => .done (.error e)
                | .ok doc => merge_entry levels (some url) { s with urls := s.urls ++ [url] } doc)
      | .object obj => .done (defined web base s obj)
      | .null => .done (.ok s)
      | _ => .done (.error .invalid_entry)

end Resolving

section Asking

variable {web : Web}

/-- The questions of a part are the URLs it adds, and they are not too many. -/
def Accounted (s : Crawled) (x : Crawl Crawled) : Prop :=
  ∀ qs out, x.Leads qs out → s.urls.length + qs.length ≤ MAX_CONTEXT_URLS ∧ ∀ s', out = .ok s' → s'.urls = s.urls ++ qs

theorem accounted_done {s : Crawled} {out : Except LoadError Crawled} (hs : s.urls.length ≤ MAX_CONTEXT_URLS)
    (hout : ∀ s', out = .ok s' → s'.urls = s.urls) : Accounted s (.done out) := by
  intro qs out' h
  cases h
  refine ⟨hs, fun s' hs' => ?_⟩
  rw [hout s' hs', List.append_nil]

theorem accounted_each {f : Crawled → Value → Crawl Crawled}
    (hf : ∀ s item, s.urls.length ≤ MAX_CONTEXT_URLS → Accounted s (f s item)) (items : List Value) {s : Crawled}
    (hs : s.urls.length ≤ MAX_CONTEXT_URLS) : Accounted s (each f items s) := by
  induction items generalizing s with
  | nil =>
      apply accounted_done hs
      rintro s' ⟨⟩
      rfl
  | cons item items ih =>
      intro qs out h
      obtain ⟨qs₁, r, qs₂, h₁, h₂, rfl⟩ := h.bind_inv
      obtain ⟨hlen, hurls⟩ := hf s item hs qs₁ r h₁
      cases r with
      | error e =>
          cases h₂
          rw [List.append_nil]
          refine ⟨hlen, fun s' hs' => ?_⟩
          cases hs'
      | ok s₁ =>
          have hs₁ := hurls s₁ rfl
          obtain ⟨hlen₂, hurls₂⟩ := ih (s := s₁) (by rw [hs₁, List.length_append]; exact hlen) qs₂ out h₂
          rw [hs₁, List.length_append] at hlen₂
          refine ⟨by rw [List.length_append]; omega, fun s' hs' => ?_⟩
          rw [hurls₂ s' hs', hs₁, List.append_assoc]

theorem accounted_merge_entry (levels : Nat) (base : Option String) (s : Crawled) (entry : Value)
    (hs : s.urls.length ≤ MAX_CONTEXT_URLS) : Accounted s (merge_entry web levels base s entry) := by
  induction levels generalizing base s entry with
  | zero =>
      apply accounted_done hs
      intro s' h
      cases h
  | succ levels ih =>
      cases entry with
      | array items => exact accounted_each (fun s item hs => ih base s item hs) items hs
      | string url =>
          rw [merge_entry]
          cases resolved web base url with
          | error e =>
              apply accounted_done hs
              intro s' h
              cases h
          | ok url =>
              dsimp only
              by_cases hfull : MAX_CONTEXT_URLS ≤ s.urls.length
              · rw [if_pos hfull]
                apply accounted_done hs
                intro s' h
                cases h
              rw [if_neg hfull]
              intro qs out h
              cases h with
              | @ask _ _ qs _ r h =>
                  cases r with
                  | error e =>
                      cases h
                      refine ⟨by rw [List.length_singleton]; omega, fun s' hs' => ?_⟩
                      cases hs'
                  | ok doc =>
                      have hroom : (s.urls ++ [url]).length ≤ MAX_CONTEXT_URLS := by
                        rw [List.length_append, List.length_singleton]
                        omega
                      obtain ⟨hlen, hurls⟩ := ih (some url) { s with urls := s.urls ++ [url] } doc hroom qs out h
                      rw [List.length_append, List.length_singleton] at hlen
                      refine ⟨by rw [List.length_cons]; omega, fun s' hs' => ?_⟩
                      rw [hurls s' hs', List.append_assoc, List.singleton_append]
      | object obj =>
          apply accounted_done hs
          intro s' h
          rw [defined] at h
          cases hm : merged_object web base s.ctx obj with
          | error e =>
              rw [hm] at h
              cases h
          | ok ctx =>
              rw [hm] at h
              cases h
              rfl
      | null =>
          apply accounted_done hs
          rintro s' ⟨⟩
          rfl
      | bool b =>
          apply accounted_done hs
          intro s' h
          cases h
      | number n =>
          apply accounted_done hs
          intro s' h
          cases h

/-- Whatever the documents are and however they change between two reads, a
resolution asks for no more than the cap allows, and notes what it has asked for. -/
theorem crawl_is_bounded (entry : Value) (qs : List String) (out : Except LoadError Crawled)
    (h : (merge_entry web LEVELS none .start entry).Leads qs out) :
    qs.length ≤ MAX_CONTEXT_URLS ∧ ∀ s, out = .ok s → s.urls = qs := by
  have hstart := @accounted_merge_entry web LEVELS none .start entry (Nat.zero_le _) qs out h
  exact ⟨Nat.zero_add qs.length ▸ hstart.1, hstart.2⟩

/-- A reference that answers with nothing. -/
theorem reference_is_asked : let url := "http://example.org/c"
    [url].length ≤ MAX_CONTEXT_URLS ∧ ∀ s, (.ok ⟨.default, [url]⟩ : Except LoadError Crawled) = .ok s → s.urls = [url] :=
  @crawl_is_bounded ⟨fun _ => none, fun _ _ => none⟩ (.string "http://example.org/c") _ _
    (.ask (.ok .null) (.done _))

end Asking

section Reading

/-- What stands in an `@context`, in the order in which it is read. -/
inductive Event
  | refer (url : String)
  | define (obj : Map) (user_context : Bool)
  | refuse (e : LoadError)

variable (web : Web) (answer : String → Except LoadError Value)

/-- The entries of an `@context` and of the documents it refers to, each document where the reference stands. -/
def events : Nat → Option String → Value → List Event
  | 0, _, _ => [.refuse .nesting_too_deep]
  | levels + 1, base, entry =>
      match entry with
      | .array items => items.flatMap (events levels base)
      | .string url =>
          match resolved web base url with
          | .error e => [.refuse e]
          | .ok url => .refer url :: (match answer url with
              | .ok doc => events levels (some url) doc
              | .error _ => [])
      | .object obj => [.define obj !is_core web base]
      | .null => []
      | _ => [.refuse .invalid_entry]

def merge_one (c : Context) (o : Map × Bool) : Except NgsiError Context :=
  if o.2 then c.merge_object o.1 else c.merge_core_object o.1

def read (s : Crawled) : Event → Except LoadError Crawled
  | .refuse e => .error e
  | .refer url =>
      if MAX_CONTEXT_URLS ≤ s.urls.length then .error .too_many_urls
      else match answer url with
        | .error e => .error e
        | .ok _ => .ok { s with urls := s.urls ++ [url] }
  | .define obj user_context =>
      match merge_one s.ctx (obj, user_context) with
      | .ok ctx => .ok { s with ctx }
      | .error e => .error (.definition e)

def read_all (es : List Event) (s : Crawled) : Except LoadError Crawled := es.foldlM (read answer) s

variable {web answer}

theorem read_all_cons (e : Event) (es : List Event) (s : Crawled) :
    read_all answer (e :: es) s = (read answer s e).bind (read_all answer es) := rfl

theorem read_all_append (es es' : List Event) (s : Crawled) :
    read_all answer (es ++ es') s = (read_all answer es s).bind (read_all answer es') := by
  rw [read_all, List.foldlM_append]
  rfl

theorem run_each {f : Crawled → Value → Crawl Crawled} {g : Value → List Event}
    (hf : ∀ s item, (f s item).run answer = read_all answer (g item) s) (items : List Value) (s : Crawled) :
    (each f items s).run answer = read_all answer (items.flatMap g) s := by
  induction items generalizing s with
  | nil => rfl
  | cons item items ih =>
      rw [List.flatMap_cons, read_all_append, ← hf]
      apply (Ask.run_bind answer (f s item) _).trans
      cases (f s item).run answer with
      | error e => rfl
      | ok s => exact ih s

/-- The resolution reads the events in order. -/
theorem run_merge_entry (levels : Nat) (base : Option String) (s : Crawled) (entry : Value) :
    (merge_entry web levels base s entry).run answer = read_all answer (events web answer levels base entry) s := by
  induction levels generalizing base s entry with
  | zero => rfl
  | succ levels ih =>
      cases entry with
      | array items => exact run_each (fun s item => ih base s item) items s
      | string url =>
          rw [merge_entry, events]
          cases resolved web base url with
          | error e => rfl
          | ok url =>
              dsimp only
              rw [read_all_cons, read]
              split_ifs with hfull
              · rfl
              · rw [Ask.run]
                cases answer url with
                | error e => rfl
                | ok doc => exact ih (some url) _ doc
      | object obj =>
          rw [merge_entry, events, read_all_cons, read, Ask.run, defined, merged_object, merge_one]
          cases is_core web base with
          | true =>
              dsimp only [Bool.not_true]
              cases s.ctx.merge_core_object obj <;> rfl
          | false =>
              dsimp only [Bool.not_false]
              cases s.ctx.merge_object obj <;> rfl
      | null => rfl
      | bool b => rfl
      | number n => rfl

/-- The URLs referred to. -/
def references (es : List Event) : List String :=
  es.filterMap (fun e => match e with
    | .refer url => some url
    | _ => none)

/-- The definition objects, with whether each is a user's. -/
def definitions (es : List Event) : List (Map × Bool) :=
  es.filterMap (fun e => match e with
    | .define obj user_context => some (obj, user_context)
    | _ => none)

/-- Nothing is refused and every document is there. -/
structure AllAnswered (answer : String → Except LoadError Value) (es : List Event) : Prop where
  lawful : ∀ e, .refuse e ∉ es
  found : ∀ url ∈ references es, ∃ doc, answer url = .ok doc

theorem allAnswered_cons {e : Event} {es : List Event} (he : ∀ r, e ≠ .refuse r)
    (hfound : ∀ url, e = .refer url → ∃ doc, answer url = .ok doc) :
    AllAnswered answer (e :: es) ↔ AllAnswered answer es := by
  have href : ∀ url, url ∈ references (e :: es) ↔ e = .refer url ∨ url ∈ references es := by
    intro url
    cases e <;> simp [references, eq_comm]
  constructor
  · intro h
    refine ⟨fun r hr => h.lawful r (List.mem_cons_of_mem _ hr), fun url hurl => ?_⟩
    exact h.found url ((href url).mpr (.inr hurl))
  · intro h
    refine ⟨fun r hr => ?_, fun url hurl => ?_⟩
    · rcases List.mem_cons.mp hr with heq | hr
      · exact he r heq.symm
      · exact h.lawful r hr
    · rcases (href url).mp hurl with heq | hurl
      · exact hfound url heq
      · exact h.found url hurl

theorem read_all_ok_iff (es : List Event) {s s' : Crawled} (hs : s.urls.length ≤ MAX_CONTEXT_URLS) :
    read_all answer es s = .ok s' ↔ AllAnswered answer es ∧ s'.urls = s.urls ++ references es ∧
      s'.urls.length ≤ MAX_CONTEXT_URLS ∧ (definitions es).foldlM merge_one s.ctx = .ok s'.ctx := by
  induction es generalizing s with
  | nil =>
      constructor
      · intro h
        cases h
        refine ⟨⟨fun e he => ?_, fun url hurl => ?_⟩, (List.append_nil _).symm, hs, rfl⟩
        · cases he
        · cases hurl
      · rintro ⟨-, hurls, -, hctx⟩
        have hctx : s.ctx = s'.ctx := Except.ok.inj hctx
        have hurls : s'.urls = s.urls := hurls.trans (List.append_nil _)
        exact congrArg Except.ok (Crawled.ext hctx hurls.symm)
  | cons e es ih =>
      rw [read_all_cons, bind_eq_ok]
      cases e with
      | refuse e =>
          constructor
          · rintro ⟨t, ht, -⟩
            cases ht
          · rintro ⟨hall, -⟩
            exact absurd List.mem_cons_self (hall.lawful e)
      | define obj user_context =>
          have hall : AllAnswered answer (.define obj user_context :: es) ↔ AllAnswered answer es := by
            apply allAnswered_cons
            · intro r h
              cases h
            · intro url h
              cases h
          rw [hall]
          have hdefs : (definitions (.define obj user_context :: es)).foldlM merge_one s.ctx =
              (merge_one s.ctx (obj, user_context)).bind (fun c => (definitions es).foldlM merge_one c) := rfl
          rw [hdefs, read]
          cases hm : merge_one s.ctx (obj, user_context) with
          | error e =>
              constructor
              · rintro ⟨t, ht, -⟩
                cases ht
              · rintro ⟨-, -, -, hctx⟩
                cases hctx
          | ok ctx =>
              have hrest := ih (s := { s with ctx }) hs
              constructor
              · rintro ⟨t, ht, h⟩
                cases ht
                exact hrest.mp h
              · intro h
                exact ⟨_, rfl, hrest.mpr h⟩
      | refer url =>
          have hrefs : references (.refer url :: es) = url :: references es := rfl
          rw [hrefs, read]
          by_cases hfull : MAX_CONTEXT_URLS ≤ s.urls.length
          · rw [if_pos hfull]
            constructor
            · rintro ⟨t, ht, -⟩
              cases ht
            · rintro ⟨-, hurls, hlen, -⟩
              rw [hurls, List.length_append, List.length_cons] at hlen
              omega
          rw [if_neg hfull]
          cases hdoc : answer url with
          | error e =>
              constructor
              · rintro ⟨t, ht, -⟩
                cases ht
              · rintro ⟨hall, -⟩
                obtain ⟨doc, hfound⟩ := hall.found url (hrefs ▸ List.mem_cons_self)
                rw [hdoc] at hfound
                cases hfound
          | ok doc =>
              have hall : AllAnswered answer (.refer url :: es) ↔ AllAnswered answer es := by
                apply allAnswered_cons
                · intro r h
                  cases h
                · intro url' h
                  cases h
                  exact ⟨doc, hdoc⟩
              have hroom : (s.urls ++ [url]).length ≤ MAX_CONTEXT_URLS := by
                rw [List.length_append, List.length_singleton]
                omega
              have hrest := ih (s := { s with urls := s.urls ++ [url] }) hroom
              rw [List.append_assoc, List.singleton_append] at hrest
              rw [hall]
              constructor
              · rintro ⟨t, ht, h⟩
                cases ht
                exact hrest.mp h
              · intro h
                exact ⟨_, rfl, hrest.mpr h⟩

variable (web answer)

/-- A user `@context` resolves exactly where everything in it and in the documents it
refers to is lawful and there, in no more documents than the cap allows; the context is
then the merge of the definitions in the order in which they stand. -/
theorem crawl_resolves_iff (entry : Value) (s : Crawled) :
    (merge_entry web LEVELS none .start entry).run answer = .ok s ↔
      AllAnswered answer (events web answer LEVELS none entry) ∧ s.urls = references (events web answer LEVELS none entry) ∧
      s.urls.length ≤ MAX_CONTEXT_URLS ∧ Context.merge_all (definitions (events web answer LEVELS none entry)) = .ok s.ctx := by
  rw [run_merge_entry]
  exact read_all_ok_iff _ (Nat.zero_le _)

end Reading

end AntaresBroker.JsonLd
