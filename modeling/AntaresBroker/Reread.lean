import AntaresBroker.Parsed

namespace AntaresBroker.Ql

open JsonString Number Text

/-- `tail` is empty or begins with one of the characters. -/
def Stop (cs : String) (tail : List Char) : Prop := ∀ c ∈ tail.head?, c ∈ cs.toList

theorem Stop.mono {cs ds : String} {tail : List Char} (h : Stop cs tail) (hd : ∀ c ∈ cs.toList, c ∈ ds.toList) :
    Stop ds tail := fun c hc => hd c (h c hc)

theorem stop_nil (cs : String) : Stop cs [] := by simp [Stop]

theorem stop_cons {cs : String} {c : Char} {s : List Char} (h : c ∈ cs.toList) : Stop cs (c :: s) := by
  intro d hd
  simp only [List.head?_cons, Option.mem_def, Option.some.injEq] at hd
  exact hd ▸ h

theorem Stop.eat_none {cs : String} {c : Char} {tail : List Char} (h : Stop cs tail) (hc : c ∉ cs.toList) :
    eat c tail = none := by
  cases tail with
  | nil => rfl
  | cons d s =>
      have hd := h d (by simp)
      rw [eat, if_neg (fun he : d = c => hc (he ▸ hd))]

theorem eat_cons (c : Char) (s : List Char) : eat c (c :: s) = some s := by rw [eat, if_pos rfl]

theorem trim_start_of_head {s : List Char} (h : ∀ c ∈ s.head?, is_whitespace c = false) : trim_start s = s := by
  cases s with
  | nil => rfl
  | cons c s => rw [trim_start, List.dropWhile_cons, h c rfl, if_neg Bool.false_ne_true]

theorem Stop.trim_start {cs : String} {tail : List Char} (h : Stop cs tail)
    (hc : ∀ c ∈ cs.toList, is_whitespace c = false) : trim_start tail = tail :=
  trim_start_of_head (fun c hd => hc c (h c hd))

theorem toOption_bind {α β : Type} (x : Except NgsiError α) (f : α → Except NgsiError β) :
    (x >>= f).toOption = x.toOption.bind (fun a => (f a).toOption) := by
  cases x <;> rfl

theorem toOption_map {α β : Type} (x : Except NgsiError α) (f : α → β) :
    (x.map f).toOption = x.toOption.map f := by
  cases x <;> rfl

/-- Texts with a separator between any two. -/
def sep_text (c : Char) : List (List Char) → List Char
  | [] => []
  | t :: ts => t ++ ts.flatMap (c :: ·)

theorem sep_text_append (c : Char) {ts us : List (List Char)} (h : ts ≠ []) :
    sep_text c (ts ++ us) = sep_text c ts ++ us.flatMap (c :: ·) := by
  cases ts with
  | nil => exact absurd rfl h
  | cons t ts => simp [sep_text]

theorem sep_text_cons (c : Char) (t : List Char) (ts : List (List Char)) :
    sep_text c (t :: ts) = t ++ (if ts.isEmpty then [] else c :: sep_text c ts) := by
  cases ts <;> simp [sep_text]

theorem join_eq (c : Char) (names : List String) : join c names = sep_text c (names.map String.toList) := by
  induction names with
  | nil => rfl
  | cons name names ih =>
      cases names with
      | nil => simp [join, sep_text]
      | cons name' names => simp [join, ih, sep_text]

theorem render_scalars_eq (items : List Scalar) : render_scalars items = sep_text ',' (items.map render_scalar) := by
  induction items with
  | nil => rfl
  | cons v items ih =>
      cases items with
      | nil => simp [render_scalars, sep_text]
      | cons w items => simp [render_scalars, ih, sep_text]

def item_text (n : QNode) : List Char := parenthesize (is_or n) (render n)

theorem render_items_eq (c : Char) (items : List QNode) :
    render_items c items = sep_text c (items.map item_text) := by
  induction items with
  | nil => rfl
  | cons n items ih =>
      rw [render_items, ih, List.map_cons, sep_text_cons, item_text]
      cases items <;> rfl

/-- `item` reads each text as its value and stops at its end, whether the next
separator or `tail` follows. -/
theorem while_eat_texts {α β : Type} {c : Char} {item : Parser α} (text : β → List Char) (x : β → Option α)
    {tail : List Char} (htail : eat c tail = none) {items : List β}
    (hitem : ∀ b ∈ items, ∀ t, (t = tail ∨ ∃ s, t = c :: s) → (item (text b ++ t)).toOption = (x b).map (·, t))
    {fuel : Nat} (hfuel : items.length ≤ fuel) :
    (while_eat c item fuel ((items.map text).flatMap (c :: ·) ++ tail)).toOption =
      (items.mapM x).map (·, tail) := by
  induction items generalizing fuel with
  | nil => cases fuel <;> simp [while_eat, htail, Except.toOption]
  | cons b items ih =>
      cases fuel with
      | zero => simp at hfuel
      | succ fuel =>
          have hb := hitem b (by simp) ((items.map text).flatMap (c :: ·) ++ tail) (by
            cases items with
            | nil => exact Or.inl rfl
            | cons b' items => exact Or.inr ⟨_, rfl⟩)
          rw [List.map_cons, List.flatMap_cons, List.append_assoc, List.cons_append, while_eat, eat_cons]
          simp only [toOption_bind, hb]
          cases hx : x b with
          | none => simp [hx]
          | some a =>
              simp only [Option.map_some, Option.bind_some]
              rw [ih (fun b' hb' => hitem b' (List.mem_cons_of_mem _ hb')) (by simpa using hfuel)]
              cases hm : items.mapM x <;> simp [hx, hm, Except.toOption]

theorem length_le_texts (c : Char) (ts : List (List Char)) (tail : List Char) :
    ts.length ≤ (ts.flatMap (c :: ·) ++ tail).length := by
  induction ts with
  | nil => simp
  | cons t ts ih =>
      simp only [List.flatMap_cons, List.cons_append, List.append_assoc, List.length_cons, List.length_append] at ih ⊢
      omega

/-- A loop over texts that all read back. -/
theorem while_eat_reads {α β : Type} {c : Char} {item : Parser α} (text : β → List Char) (x : β → Option α)
    {tail : List Char} (htail : eat c tail = none) {items : List β}
    (hitem : ∀ b ∈ items, ∀ t, (t = tail ∨ ∃ s, t = c :: s) → (item (text b ++ t)).toOption = (x b).map (·, t)) :
    (while_eat c item ((items.map text).flatMap (c :: ·) ++ tail).length
      ((items.map text).flatMap (c :: ·) ++ tail)).toOption = (items.mapM x).map (·, tail) := by
  refine while_eat_texts text x htail hitem ?_
  have := length_le_texts c (items.map text) tail
  rwa [List.length_map] at this

theorem sep_by_reads {α β : Type} {c : Char} {item : Parser α} (text : β → List Char) (x : β → Option α)
    {tail : List Char} (htail : eat c tail = none) {items : List β} (hne : items ≠ [])
    (hitem : ∀ b ∈ items, ∀ t, (t = tail ∨ ∃ s, t = c :: s) → (item (text b ++ t)).toOption = (x b).map (·, t)) :
    (sep_by c item (sep_text c (items.map text) ++ tail)).toOption = (items.mapM x).map (·, tail) := by
  cases items with
  | nil => exact absurd rfl hne
  | cons b items =>
      have hb := hitem b (by simp) ((items.map text).flatMap (c :: ·) ++ tail) (by
        cases items with
        | nil => exact Or.inl rfl
        | cons b' items => exact Or.inr ⟨_, rfl⟩)
      rw [sep_by, List.map_cons, sep_text, List.append_assoc]
      simp only [toOption_bind, hb]
      cases hx : x b with
      | none => simp [hx]
      | some a =>
          simp only [Option.map_some, Option.bind_some]
          rw [while_eat_reads text x htail (fun b' hb' => hitem b' (List.mem_cons_of_mem _ hb'))]
          cases hm : items.mapM x <;> simp [hx, hm, Except.toOption]

section Names

/-- The delimiters that may come right after a name in a rendering. -/
def after_name : String := "=!<>~;|(),.\x7b\x7d[]:"

theorem takeWhile_plain {xs tail : List Char} (hx : ∀ c ∈ xs, delimiter c = false)
    (ht : ∀ c ∈ tail.head?, delimiter c = true) :
    (xs ++ tail).takeWhile (fun c => !delimiter c) = xs ∧ (xs ++ tail).dropWhile (fun c => !delimiter c) = tail := by
  have hx' : ∀ c ∈ xs, (!delimiter c) = true := fun c hc => by simp [hx c hc]
  rw [List.takeWhile_append_of_pos hx', List.dropWhile_append_of_pos hx']
  cases tail with
  | nil => simp
  | cons c tail => simp [ht c rfl]

theorem name_token_reads {name : String} (hn : Name name) {tail : List Char} (ht : Stop after_name tail) :
    name_token (name.toList ++ tail) = .ok (name, tail) := by
  have hstart : trim_start (name.toList ++ tail) = name.toList ++ tail := by
    refine trim_start_of_head (fun c hc => hn.head c ?_)
    cases hl : name.toList with
    | nil => exact absurd hl hn.ne_nil
    | cons d l => rw [hl] at hc; exact hc
  have hdelim : ∀ c ∈ after_name.toList, delimiter c = true := by decide
  obtain ⟨htake, hdrop⟩ := takeWhile_plain hn.plain (fun c hc => hdelim c (ht c hc))
  unfold name_token
  simp only [hstart, htake, hdrop]
  rw [if_neg hn.ne_nil, ht.trim_start (by decide), String.ofList_toList]

theorem mapM_some {α β : Type} (f : α → β) (xs : List α) :
    xs.mapM (fun a => some (f a)) = some (xs.map f) := by
  induction xs with
  | nil => rfl
  | cons a xs ih => simp [ih]

theorem ok_of_toOption {α : Type} {x : Except NgsiError α} {a : α} (h : x.toOption = some a) : x = .ok a := by
  cases x with
  | error e => simp [Except.toOption] at h
  | ok b => simpa [Except.toOption] using h

theorem name_token_each {c : Char} (hc : c ∈ after_name.toList) {tail : List Char} (ht : Stop after_name tail)
    {names : List String} (hn : ∀ name ∈ names, Name name) :
    ∀ name ∈ names, ∀ t, (t = tail ∨ ∃ s, t = c :: s) →
      (name_token (name.toList ++ t)).toOption = (some name).map (·, t) := by
  rintro name hname t (rfl | ⟨s, rfl⟩)
  · rw [name_token_reads (hn name hname) ht]; rfl
  · rw [name_token_reads (hn name hname) (stop_cons hc)]; rfl

theorem while_names {c : Char} (hc : c ∈ after_name.toList) {tail : List Char} (ht : Stop after_name tail)
    (he : eat c tail = none) {names : List String} (hn : ∀ name ∈ names, Name name) :
    while_eat c name_token ((names.map String.toList).flatMap (c :: ·) ++ tail).length
      ((names.map String.toList).flatMap (c :: ·) ++ tail) = .ok (names, tail) := by
  have h := while_eat_reads String.toList (fun name => some name) he (name_token_each hc ht hn)
  rw [mapM_some] at h
  exact ok_of_toOption (by simpa using h)

theorem sep_by_names {c : Char} (hc : c ∈ after_name.toList) {tail : List Char} (ht : Stop after_name tail)
    (he : eat c tail = none) {names : List String} (hne : names ≠ []) (hn : ∀ name ∈ names, Name name) :
    sep_by c name_token (join c names ++ tail) = .ok (names, tail) := by
  have h := sep_by_reads String.toList (fun name => some name) he hne (name_token_each hc ht hn)
  rw [mapM_some, ← join_eq] at h
  exact ok_of_toOption (by simpa using h)

/-- What may come after the last name of the hops. -/
def after_hops : String := "=!<>~;|).\x7d["

theorem hops_reads {links : List Link} {last : String} {tail : List Char} (hlast : Name last)
    (ht : Stop after_hops tail) (hl : ∀ l ∈ links, Name l.attr ∧ ∀ t ∈ l.types, Name t) {k : Nat}
    (hle : links.length ≤ k) :
    ∃ name s, name_token (links.flatMap render_link ++ (last.toList ++ tail)) = .ok (name, s) ∧
      Stop "=!<>~;|).\x7d[\x7b" s ∧ hops name k s = .ok ((links, last), tail) := by
  induction links generalizing k with
  | nil =>
      refine ⟨last, tail, name_token_reads hlast (ht.mono (by decide)), ht.mono (by decide), ?_⟩
      have he := ht.eat_none (c := '{') (by decide)
      cases k <;> simp [hops, he]
  | cons l links ih =>
      cases k with
      | zero => simp at hle
      | succ k =>
          obtain ⟨hattr, htypes⟩ := hl l (by simp)
          obtain ⟨name, s, hname, hs, hhops⟩ :=
            ih (fun l' hl' => hl l' (List.mem_cons_of_mem _ hl')) (k := k) (by simpa using hle)
          rw [List.flatMap_cons, render_link, List.append_assoc, List.append_assoc, List.cons_append]
          refine ⟨l.attr, _, name_token_reads hattr (stop_cons (by decide)), stop_cons (by decide), ?_⟩
          rw [hops, eat_cons]
          obtain ⟨attr, types⟩ := l
          cases types with
          | nil =>
              have hhint : hints name s = .ok (([], name), s) := by
                rw [hints, if_neg]
                rintro (h | h) <;> exact absurd (hs _ h) (by decide)
              simp [hname, hhint, hhops, bind, Except.bind]
          | cons t types =>
              have htail : Stop after_name (':' :: (links.flatMap render_link ++ (last.toList ++ tail))) :=
                stop_cons (by decide)
              have hmore := while_names (c := ',') (by decide) htail (by rw [eat, if_neg (by decide)])
                (fun t' ht' => htypes t' (List.mem_cons_of_mem _ ht'))
              have hfirst : name_token (join ',' (t :: types) ++
                  ':' :: (links.flatMap render_link ++ (last.toList ++ tail))) =
                  .ok (t, (types.map String.toList).flatMap (',' :: ·) ++
                    ':' :: (links.flatMap render_link ++ (last.toList ++ tail))) := by
                rw [join_eq, List.map_cons, sep_text, List.append_assoc]
                refine name_token_reads (htypes t (by simp)) ?_
                cases types with
                | nil => exact stop_cons (by decide)
                | cons t' types => exact stop_cons (by decide)
              have hhint : hints t ((types.map String.toList).flatMap (',' :: ·) ++
                  ':' :: (links.flatMap render_link ++ (last.toList ++ tail))) = .ok ((t :: types, name), s) := by
                rw [hints, if_pos]
                · rw [hmore]
                  simp [bind, Except.bind, eat_cons, hname]
                · cases types with
                  | nil => exact Or.inr rfl
                  | cons t' types => exact Or.inl rfl
              simp [hfirst, hhint, hhops, bind, Except.bind]

end Names

section Paths

/-- A bracket that a first segment starting with a star does not turn into another. -/
def PathKept (p : QPath) : Prop :=
  ∀ b, p.bracket = some b → b = ["*"] ∨ ∀ name ∈ b.head?, name.toList.head? ≠ some '*'

instance (p : QPath) : Decidable (PathKept p) :=
  match h : p.bracket with
  | none => isTrue (by simp [PathKept, h])
  | some b => decidable_of_iff (b = ["*"] ∨ ∀ name ∈ b.head?, name.toList.head? ≠ some '*') (by simp [PathKept, h])

theorem join_head {c : Char} {name : String} {l : List String} (h : Name name) (s : List Char) :
    (join c (name :: l) ++ s).head? = name.toList.head? := by
  rw [join_eq, List.map_cons, sep_text, List.append_assoc]
  cases hl : name.toList with
  | nil => exact absurd hl h.ne_nil
  | cons d l => rfl

theorem members_reads {b : List String} {tail : List Char} (hne : b ≠ []) (hn : ∀ name ∈ b, Name name)
    (hk : b = ["*"] ∨ ∀ name ∈ b.head?, name.toList.head? ≠ some '*') :
    members (join '.' b ++ ']' :: tail) = .ok (b, ']' :: tail) := by
  rcases hk with rfl | hk
  · rfl
  · cases b with
    | nil => exact absurd rfl hne
    | cons name names =>
        have he : eat '*' (join '.' (name :: names) ++ ']' :: tail) = none := by
          have hh := join_head (c := '.') (l := names) (hn name (by simp)) (']' :: tail)
          cases hs : join '.' (name :: names) ++ ']' :: tail with
          | nil => rfl
          | cons d s =>
              rw [hs, List.head?_cons] at hh
              rw [eat, if_neg]
              rintro rfl
              exact hk name rfl hh.symm
        rw [members, he]
        exact sep_by_names (by decide) (stop_cons (by decide)) (by rw [eat, if_neg (by decide)]) hne hn

/-- After a star that closes nothing the bracket is refused. -/
theorem members_star {name : String} {names : List String} (tail : List Char) (hn : Name name)
    (hs : name.toList.head? = some '*') (hne : name :: names ≠ ["*"]) :
    ∃ s, members (join '.' (name :: names) ++ ']' :: tail) = .ok (["*"], s) ∧ eat ']' s = none := by
  obtain ⟨l, hl⟩ := List.head?_eq_some_iff.mp hs
  rw [join_eq, List.map_cons, sep_text, hl, List.append_assoc, List.cons_append, members, eat_cons]
  refine ⟨_, rfl, ?_⟩
  cases l with
  | nil =>
      cases names with
      | nil => exact absurd (by rw [String.toList_inj.mp (hl.trans rfl : name.toList = "*".toList)]) hne
      | cons name' names => rfl
  | cons d l =>
      have hd := hn.plain d (by simp [hl])
      rw [List.cons_append, eat, if_neg]
      rintro rfl
      exact absurd hd (by decide)

theorem close_braces_reads (braces : Nat) (tail : List Char) :
    close_braces braces (List.replicate braces '}' ++ tail) = .ok tail := by
  induction braces with
  | zero => rfl
  | succ braces ih => rw [List.replicate_succ, List.cons_append, close_braces, eat_cons]; exact ih

theorem braces_stop (k : Nat) {tail : List Char} (ht : Stop "=!<>~;|)" tail) :
    Stop "=!<>~;|)\x7d" (List.replicate k '}' ++ tail) := by
  cases k with
  | zero => exact ht.mono (by decide)
  | succ k => exact stop_cons (by decide)

theorem bracket_stop (b : Option (List String)) {tail : List Char} (ht : Stop "=!<>~;|)\x7d" tail) :
    Stop "=!<>~;|)\x7d[" (render_bracket b ++ tail) := by
  cases b with
  | none => exact ht.mono (by decide)
  | some b => exact stop_cons (by decide)

theorem path_stop (more : List String) {tail : List Char} (ht : Stop "=!<>~;|)\x7d[" tail) :
    Stop after_hops ((more.map String.toList).flatMap ('.' :: ·) ++ tail) := by
  cases more with
  | nil => exact ht.mono (by decide)
  | cons name more => exact stop_cons (by decide)

/-- Up to the bracket a rendered path reads back in any case. -/
theorem qpath_eq {p : QPath} (hp : PathFormed p) {tail : List Char} (ht : Stop "=!<>~;|)" tail) :
    qpath (render_path p ++ tail) = (do
      let (b, s) ← bracket (render_bracket p.bracket ++ (List.replicate p.links.length '}' ++ tail))
      let s ← close_braces p.links.length s
      .ok (⟨p.links, p.path, b⟩, s)) := by
  obtain ⟨links, path, b⟩ := p
  obtain ⟨hle, hlinks, hne, hnames, -⟩ := hp
  cases path with
  | nil => exact absurd rfl hne
  | cons last more =>
      have htail := bracket_stop b (braces_stop links.length ht)
      obtain ⟨name, s, hname, -, hhops⟩ :=
        hops_reads (hnames last (by simp)) (path_stop more htail) hlinks hle
      have hmore := while_names (c := '.') (by decide) (htail.mono (by decide)) (htail.eat_none (by decide))
        (fun m hm => hnames m (List.mem_cons_of_mem _ hm))
      have htext : render_path ⟨links, last :: more, b⟩ ++ tail =
          links.flatMap render_link ++ (last.toList ++ ((more.map String.toList).flatMap ('.' :: ·) ++
            (render_bracket b ++ (List.replicate links.length '}' ++ tail)))) := by
        simp only [render_path, join_eq, List.map_cons, sep_text, List.append_assoc]
      rw [htext, qpath, hname]
      simp only [bind, Except.bind] at hhops ⊢
      simp only [hhops, hmore]

theorem qpath_reads {p : QPath} (hp : PathFormed p) (hk : PathKept p) {tail : List Char}
    (ht : Stop "=!<>~;|)" tail) : qpath (render_path p ++ tail) = .ok (p, tail) := by
  have hb : bracket (render_bracket p.bracket ++ (List.replicate p.links.length '}' ++ tail)) =
      .ok (p.bracket, List.replicate p.links.length '}' ++ tail) := by
    cases hbr : p.bracket with
    | none => rw [bracket, render_bracket, List.nil_append, (braces_stop p.links.length ht).eat_none (by decide)]
    | some b =>
        obtain ⟨hne, hn⟩ := hp.bracket b hbr
        rw [render_bracket, List.cons_append, List.append_assoc, List.singleton_append, bracket, eat_cons]
        dsimp only
        rw [members_reads hne hn (hk b hbr)]
        simp [bind, Except.bind, eat_cons]
  rw [qpath_eq hp ht, hb]
  simp [bind, Except.bind, close_braces_reads]

theorem qpath_refused {p : QPath} (hp : PathFormed p) (hk : ¬ PathKept p) {tail : List Char}
    (ht : Stop "=!<>~;|)" tail) : (qpath (render_path p ++ tail)).toOption = none := by
  unfold PathKept at hk
  push Not at hk
  obtain ⟨b, hb, hstar, name, hname, hs⟩ := hk
  obtain ⟨names, rfl⟩ := List.head?_eq_some_iff.mp hname
  obtain ⟨hne, hn⟩ := hp.bracket _ hb
  obtain ⟨s, hm, he⟩ := members_star (List.replicate p.links.length '}' ++ tail) (hn name (by simp)) hs hstar
  have hrefused : bracket (render_bracket p.bracket ++ (List.replicate p.links.length '}' ++ tail)) =
      bad s "expected ']'" := by
    rw [hb, render_bracket, List.cons_append, List.append_assoc, List.singleton_append, bracket, eat_cons]
    dsimp only
    rw [hm]
    simp [bind, Except.bind, he]
  rw [qpath_eq hp ht, hrefused]
  rfl

end Paths

section Scalars

/-- Where an unquoted literal stops. -/
def StopValue (tail : List Char) : Prop := Stop ";|()," tail ∨ ∃ s, tail = '.' :: '.' :: s

theorem unquoted_append {w t : List Char} (h : ∀ c ∈ w, stops c = false ∧ c ≠ '.') :
    unquoted (w ++ t) = (w ++ (unquoted t).1, (unquoted t).2) := by
  induction w with
  | nil => rfl
  | cons c w ih =>
      obtain ⟨hc, hw⟩ := List.forall_mem_cons.mp h
      rw [List.cons_append, unquoted, ih hw]
      simp [hc.1, hc.2]

theorem unquoted_stop {tail : List Char} (h : StopValue tail) : unquoted tail = ([], tail) := by
  rcases h with h | ⟨s, rfl⟩
  · cases tail with
    | nil => rfl
    | cons c s =>
        have hall : ∀ d ∈ ";|(),".toList, stops d = true := by decide
        simp [unquoted, hall c (h c rfl)]
  · simp [unquoted]

theorem unquoted_fraction {d : Char} {fs t : List Char} (hd : d ≠ '.')
    (h : ∀ c ∈ d :: fs, stops c = false ∧ c ≠ '.') :
    unquoted ('.' :: (d :: fs ++ t)) = ('.' :: (d :: fs ++ (unquoted t).1), (unquoted t).2) := by
  rw [unquoted, unquoted_append h]
  simp [stops, hd]

/-- A character of a number or of a word. -/
def Plain (c : Char) : Prop := is_whitespace c = false ∧ c ≠ '"' ∧ c ≠ '=' ∧ stops c = false

instance : DecidablePred Plain := fun _ => inferInstanceAs (Decidable (_ ∧ _))

/-- A literal text that is neither cut nor trimmed nor taken for a quoted one. -/
structure Bare (w : List Char) : Prop where
  ne_nil : w ≠ []
  plain : ∀ c ∈ w, Plain c
  whole : ∀ t, StopValue t → unquoted (w ++ t) = (w, t)

theorem trim_plain {w : List Char} (h : ∀ c ∈ w, is_whitespace c = false) : trim w = w := by
  rw [trim, trim_start_of_head (fun c hc => h c (List.mem_of_mem_head? hc)), trim_end, List.rdropWhile_eq_self_iff]
  intro hne
  simp [h _ (List.getLast_mem hne)]

theorem scalar_bare {w : List Char} (hw : Bare w) (regexp : Bool) {tail : List Char} (ht : StopValue tail) :
    scalar regexp (w ++ tail) = (word w).map (fun v => (v, tail)) := by
  have hplain := hw.plain
  have hunq := hw.whole tail ht
  have hws : trim w = w := trim_plain (fun c hc => (hplain c hc).1)
  have hquote : w.contains '"' = false := by
    rw [List.contains_eq_mem, decide_eq_false_iff_not]
    exact fun hm => (hplain _ hm).2.1 rfl
  cases w with
  | nil => exact absurd rfl hw.ne_nil
  | cons c w =>
      have hc := hplain c (by simp)
      have hstart : trim_start (c :: w ++ tail) = c :: w ++ tail := by
        refine trim_start_of_head (fun d hd => ?_)
        rw [List.cons_append, List.head?_cons, Option.mem_def, Option.some.injEq] at hd
        exact hd ▸ hc.1
      have he : eat '"' (c :: w ++ tail) = none := by rw [List.cons_append, eat, if_neg hc.2.1]
      unfold scalar
      simp only [hstart, he, hunq, hws, hquote, Bool.and_false, Bool.false_eq_true, if_false]

theorem digit_plain {c : Char} (h : c.isDigit = true) : Plain c ∧ c ≠ '.' ∧ c ≠ '-' := by
  rw [Char.isDigit_iff_toNat] at h
  have hall : ∀ n, n ≤ 57 → 48 ≤ n → Plain (Char.ofNat n) ∧ Char.ofNat n ≠ '.' ∧ Char.ofNat n ≠ '-' := by
    intro n hn hn'
    interval_cases n <;> decide
  have := hall c.toNat h.2 h.1
  rwa [Char.ofNat_toNat] at this

theorem bare_of_plain {w : List Char} (hne : w ≠ []) (h : ∀ c ∈ w, Plain c ∧ c ≠ '.') : Bare w := by
  refine ⟨hne, fun c hc => (h c hc).1, fun t ht => ?_⟩
  rw [unquoted_append (fun c hc => ⟨(h c hc).1.2.2.2, (h c hc).2⟩), unquoted_stop ht, List.append_nil]

theorem sign_plain {neg : Bool} : ∀ c ∈ NumberText.sign neg, Plain c ∧ c ≠ '.' := by cases neg <;> decide

theorem bare_display (x : F64) : Bare (NumberText.display x) := by
  by_cases hx : is_finite x
  · obtain ⟨m, fs, hfs, hd⟩ := NumberText.display_eq hx
    have hdigit {c : Char} (h : c.isDigit = true) : Plain c ∧ c ≠ '.' := ⟨(digit_plain h).1, (digit_plain h).2.1⟩
    have hint : ∀ c ∈ NumberText.sign x.neg ++ NumberText.digits m, Plain c ∧ c ≠ '.' := fun c hc => by
      rcases List.mem_append.mp hc with hc | hc
      · exact sign_plain c hc
      · exact hdigit (NumberText.isDigit_of_mem_digits hc)
    cases fs with
    | nil =>
        rw [hd, if_pos rfl, List.append_nil]
        exact bare_of_plain (by simp [NumberText.digits_ne_nil]) hint
    | cons d fs =>
        rw [hd, if_neg (by simp), ← List.append_assoc]
        refine ⟨by simp, fun c hc => ?_, fun t ht => ?_⟩
        · rcases List.mem_append.mp hc with hc | hc
          · exact (hint c hc).1
          · rcases List.mem_cons.mp hc with rfl | hc
            · decide
            · exact (hdigit (hfs c hc)).1
        · rw [List.append_assoc, unquoted_append (fun c hc => ⟨(hint c hc).1.2.2.2, (hint c hc).2⟩), List.cons_append,
            unquoted_fraction (hdigit (hfs d (by simp))).2
              (fun c hc => ⟨(hdigit (hfs c hc)).1.2.2.2, (hdigit (hfs c hc)).2⟩), unquoted_stop ht, List.append_nil]
  · rw [NumberText.display, if_neg hx]
    refine bare_of_plain (by simp) (fun c hc => ?_)
    rcases List.mem_append.mp hc with hc | hc
    · exact sign_plain c hc
    · exact (by decide : ∀ c ∈ ['i', 'n', 'f'], Plain c ∧ c ≠ '.') c hc

theorem strip_minus_sign (neg : Bool) {s : List Char} (hs : s.head? ≠ some '-') :
    strip_minus (NumberText.sign neg ++ s) = s := by
  cases neg with
  | true => rfl
  | false =>
      cases s with
      | nil => rfl
      | cons c s =>
          rw [List.head?_cons, ne_eq, Option.some.injEq] at hs
          rw [NumberText.sign, if_neg Bool.false_ne_true, List.nil_append, strip_minus, eat, if_neg hs, Option.getD_none]

theorem is_json_number_display {x : F64} (hx : is_finite x) : is_json_number (NumberText.display x) = true := by
  obtain ⟨m, fs, hfs, hd⟩ := NumberText.display_eq hx
  have hm : ∀ c ∈ NumberText.digits m, c.isDigit = true := fun c hc => NumberText.isDigit_of_mem_digits hc
  have htail : ∀ c ∈ (if fs = [] then [] else '.' :: fs).head?, c.isDigit = false := by
    split_ifs
    · simp
    · intro c hc
      simp only [List.head?_cons, Option.mem_def, Option.some.injEq] at hc
      rw [← hc]; decide
  obtain ⟨htake, hdrop⟩ := NumberText.takeWhile_isDigit hm htail
  obtain ⟨c, ds, hds⟩ := List.exists_cons_of_ne_nil (NumberText.digits_ne_nil m)
  have hhead : (NumberText.digits m ++ (if fs = [] then [] else '.' :: fs)).head? ≠ some '-' := by
    rw [hds, List.cons_append, List.head?_cons, ne_eq, Option.some.injEq]
    exact (digit_plain (hm c (by simp [hds]))).2.2
  have hzero : ¬ (1 < (NumberText.digits m).length ∧
      (NumberText.digits m ++ (if fs = [] then [] else '.' :: fs)).head? = some '0') := by
    rintro ⟨hlen, h0⟩
    rcases Nat.eq_zero_or_pos m with rfl | hpos
    · simp [NumberText.digits] at hlen
    · rw [List.head?_append_of_ne_nil _ (NumberText.digits_ne_nil m)] at h0
      exact NumberText.digits_head hpos h0
  rw [hd, is_json_number, strip_minus_sign _ hhead]
  simp only [htake, hdrop]
  rw [if_neg (by simpa [NumberText.digits_ne_nil] using hzero)]
  cases fs with
  | nil => rfl
  | cons d fs =>
      obtain ⟨ht, hr⟩ := NumberText.takeWhile_isDigit (r := []) hfs (by simp)
      rw [List.append_nil] at ht hr
      rw [if_neg (by simp), fraction, eat_cons]
      dsimp only
      rw [ht, hr, if_neg (by simp)]
      rfl

/-- The literal the parser reads where this one was written: an infinity is no
number of the grammar and comes back as text. -/
def reread_scalar : Scalar → Scalar
  | .Num x => if is_finite x then .Num x else .Str (String.ofList (NumberText.display x))
  | v => v

theorem word_display (x : F64) : word (NumberText.display x) = .ok (reread_scalar (.Num x)) := by
  rw [reread_scalar]
  by_cases hx : is_finite x
  · have hj := is_json_number_display hx
    have htrue : NumberText.display x ≠ "true".toList := fun h => by rw [h] at hj; exact absurd hj (by decide)
    have hfalse : NumberText.display x ≠ "false".toList := fun h => by rw [h] at hj; exact absurd hj (by decide)
    rw [word, if_neg htrue, if_neg hfalse, if_pos hj, NumberText.parse_display hx, if_pos hx]
  · rw [if_neg hx, NumberText.display, if_neg hx]
    cases x.neg <;> rfl

theorem bare_bool (b : Bool) : Bare (render_scalar (.Bool b)) := by
  cases b <;> exact bare_of_plain (by decide) (by decide)

theorem word_bool (b : Bool) : word (render_scalar (.Bool b)) = .ok (.Bool b) := by cases b <;> rfl

theorem trim_start_quote (s : List Char) : trim_start ('"' :: s) = '"' :: s :=
  trim_start_of_head (fun c hc => by
    rw [List.head?_cons, Option.mem_def, Option.some.injEq] at hc
    rw [← hc]; decide)

theorem scalar_quoted (s : String) (tail : List Char) :
    scalar false (render_scalar (.Str s) ++ tail) = .ok (.Str s, tail) := by
  unfold scalar
  rw [render_scalar, List.cons_append, List.append_assoc, List.singleton_append]
  simp only [trim_start_quote, eat_cons, Bool.false_eq_true, if_false, string_end_escape, unescape_escape,
    String.ofList_toList]

theorem scalar_pattern {s : String} (hs : '"' ∉ s.toList) (tail : List Char) :
    scalar true ('"' :: (s.toList ++ ['"']) ++ tail) = .ok (.Str s, tail) := by
  unfold scalar
  rw [List.cons_append, List.append_assoc, List.singleton_append]
  simp only [trim_start_quote, eat_cons, if_true, splitOnce_eq_some.mpr ⟨rfl, hs⟩, String.ofList_toList]

theorem scalar_reads (v : Scalar) {regexp : Bool} (hr : ∀ s, v = .Str s → regexp = false) {tail : List Char}
    (ht : StopValue tail) : scalar regexp (render_scalar v ++ tail) = .ok (reread_scalar v, tail) := by
  cases v with
  | Str s => rw [hr s rfl]; exact scalar_quoted s tail
  | Num x => rw [render_scalar, scalar_bare (bare_display x) regexp ht, word_display]; rfl
  | Bool b => rw [scalar_bare (bare_bool b) regexp ht, word_bool]; rfl

/-- A literal begins with a character that is no blank and continues no operator. -/
theorem render_scalar_head (v : Scalar) : ∃ c s, render_scalar v = c :: s ∧ is_whitespace c = false ∧ c ≠ '=' := by
  have hbare {w : List Char} (hw : Bare w) : ∃ c s, w = c :: s ∧ is_whitespace c = false ∧ c ≠ '=' := by
    obtain ⟨c, s, rfl⟩ := List.exists_cons_of_ne_nil hw.ne_nil
    have hc := hw.plain c (by simp)
    exact ⟨c, s, rfl, hc.1, hc.2.2.1⟩
  cases v with
  | Str t => exact ⟨'"', _, rfl, by decide⟩
  | Num x => exact hbare (bare_display x)
  | Bool b => exact hbare (bare_bool b)

theorem trim_start_scalar (v : Scalar) (s : List Char) : trim_start (render_scalar v ++ s) = render_scalar v ++ s := by
  obtain ⟨c, t, ht, hc, -⟩ := render_scalar_head v
  rw [ht]
  refine trim_start_of_head (fun d hd => ?_)
  rw [List.cons_append, List.head?_cons, Option.mem_def, Option.some.injEq] at hd
  exact hd ▸ hc

end Scalars

section Leaves

def after_term : String := ";|)"

def reread_value : QValue → Option QValue
  | .scalar v => some (.scalar (reread_scalar v))
  | .List items => some (.List (items.map reread_scalar))
  | .Range lo hi =>
      if comparable (reread_scalar lo) (reread_scalar hi) then some (.Range (reread_scalar lo) (reread_scalar hi))
      else none

theorem is_bool_reread (v : Scalar) : is_bool (reread_scalar v) = is_bool v := by
  cases v with
  | Num x => rw [reread_scalar]; split_ifs <;> rfl
  | Str s => rfl
  | Bool b => rfl

theorem strip_nil (s : List Char) : strip [] s = some s := rfl

theorem strip_empty (c : Char) (token : List Char) : strip (c :: token) [] = none := rfl

theorem strip_cons (c d : Char) (token s : List Char) :
    strip (c :: token) (d :: s) = if c = d then strip token s else none := by
  by_cases h : c = d
  · simp [strip, h]
  · have hcd : (c == d) = false := beq_false_of_ne h
    rw [strip, List.isPrefixOf, hcd, Bool.false_and, if_neg Bool.false_ne_true, if_neg h]

theorem strip_dots {cs : String} {tail : List Char} (h : Stop cs tail) (hc : '.' ∉ cs.toList) :
    strip "..".toList tail = none := by
  cases tail with
  | nil => rfl
  | cons d s => exact (strip_cons _ _ _ _).trans (if_neg (fun he : '.' = d => hc (he ▸ h d rfl)))

theorem not_regexp {op : CmpOp} (h : op.equality = true) : op.regexp = false := by
  cases op <;> first | rfl | exact absurd h (by decide)

theorem list_item_reads {tail : List Char} (ht : Stop after_term tail) (v : Scalar) :
    ∀ t, (t = tail ∨ ∃ s, t = ',' :: s) →
      (value.list_item (render_scalar v ++ t)).toOption = (some (reread_scalar v)).map (·, t) := by
  rintro t h
  have hstop : Stop ";|()," t := by
    rcases h with rfl | ⟨s, rfl⟩
    · exact ht.mono (by decide)
    · exact stop_cons (by decide)
  rw [value.list_item, trim_start_scalar, scalar_reads v (fun _ _ => rfl) (Or.inl hstop), Except.map,
    hstop.trim_start (by decide)]
  rfl

/-- A rendered literal is read back as `reread_value` says. -/
theorem value_reads {op : CmpOp} {v : QValue} (hv : ValueFormed op v)
    (hq : ∀ s, op.regexp = true → v = .scalar (.Str s) → '"' ∉ s.toList) {tail : List Char} (ht : Stop after_term tail) :
    (value op (render_operand op v ++ tail)).toOption = (reread_value v).map (·, tail) := by
  have hdots := strip_dots ht (by decide)
  have hcomma : tail.head? ≠ some ',' := fun h => absurd (ht _ h) (by decide)
  have htrim := ht.trim_start (by decide)
  cases v with
  | scalar v =>
      have hscalar : scalar op.regexp (render_operand op (.scalar v) ++ tail) = .ok (reread_scalar v, tail) := by
        cases hr : op.regexp with
        | false =>
            have htext : render_operand op (.scalar v) = render_scalar v := by
              cases v <;> simp [render_operand, render_value, hr]
            rw [htext]
            exact scalar_reads v (fun _ _ => rfl) (Or.inl (ht.mono (by decide)))
        | true =>
            cases v with
            | Str s =>
                rw [render_operand, if_pos hr]
                exact scalar_pattern (hq s hr rfl) tail
            | Num x => exact scalar_reads (.Num x) nofun (Or.inl (ht.mono (by decide)))
            | Bool b => exact scalar_reads (.Bool b) nofun (Or.inl (ht.mono (by decide)))
      have hbool : (op.ordering && is_bool (reread_scalar v)) = false := by
        rw [is_bool_reread]
        cases ho : op.ordering with
        | false => rfl
        | true => exact hv ho
      rw [value, hscalar]
      simp only [bind, Except.bind, htrim, hdots, hcomma, hbool, if_false, Bool.false_eq_true]
      rfl
  | List items =>
      obtain ⟨heq, htwo⟩ := hv
      have hr := not_regexp heq
      cases items with
      | nil => simp at htwo
      | cons v items =>
          cases items with
          | nil => simp at htwo
          | cons w items =>
              have hnext : Stop ";|()," (((w :: items).map render_scalar).flatMap (',' :: ·) ++ tail) :=
                stop_cons (by decide)
              have hitems := while_eat_reads (c := ',') render_scalar
                (fun v => some (reread_scalar v)) (ht.eat_none (by decide))
                (fun b (_ : b ∈ w :: items) => list_item_reads ht b)
              rw [mapM_some, Option.map_some] at hitems
              replace hitems := ok_of_toOption hitems
              have hdots' := strip_dots hnext (by decide)
              have htext : render_operand op (.List (v :: w :: items)) ++ tail =
                  render_scalar v ++ (((w :: items).map render_scalar).flatMap (',' :: ·) ++ tail) := by
                simp [render_operand, render_value, render_scalars_eq, sep_text]
              rw [htext, value, hr, scalar_reads v (fun _ _ => rfl) (Or.inl hnext)]
              have hhead : (((w :: items).map render_scalar).flatMap (',' :: ·) ++ tail).head? = some ',' := rfl
              simp only [bind, Except.bind, hnext.trim_start (by decide), hdots', hhead, heq, hitems, Bool.not_true,
                Bool.false_eq_true, if_true, if_false]
              rfl
  | Range lo hi =>
      obtain ⟨heq, -⟩ := hv
      have hr := not_regexp heq
      have htext : render_operand op (.Range lo hi) ++ tail =
          render_scalar lo ++ ('.' :: '.' :: (render_scalar hi ++ tail)) := by
        simp [render_operand, render_value]
      have hdot : trim_start ('.' :: '.' :: (render_scalar hi ++ tail)) = '.' :: '.' :: (render_scalar hi ++ tail) :=
        (show Stop "." _ from stop_cons (by decide)).trim_start (by decide)
      have hstrip : strip "..".toList ('.' :: '.' :: (render_scalar hi ++ tail)) = some (render_scalar hi ++ tail) := by
        simp [strip, List.isPrefixOf]
      rw [htext, value, hr, scalar_reads lo (fun _ _ => rfl) (Or.inr ⟨_, rfl⟩)]
      simp only [bind, Except.bind, hdot, hstrip, heq, Bool.not_true, Bool.false_eq_true, if_false, trim_start_scalar,
        scalar_reads hi (fun _ _ => rfl) (Or.inl (ht.mono (by decide)))]
      rw [reread_value]
      split_ifs <;> rfl

theorem render_operand_head (op : CmpOp) {v : QValue} (hv : ValueFormed op v) :
    ∃ c s, render_operand op v = c :: s ∧ c ≠ '=' := by
  have happend (w : Scalar) (t : List Char) : ∃ c s, render_scalar w ++ t = c :: s ∧ c ≠ '=' := by
    obtain ⟨c, s, h, -, hc⟩ := render_scalar_head w
    exact ⟨c, s ++ t, by rw [h]; rfl, hc⟩
  cases v with
  | scalar w =>
      cases w with
      | Str s => rw [render_operand]; split_ifs <;> exact ⟨'"', _, rfl, by decide⟩
      | Num x => simpa [render_operand, render_value] using happend (.Num x) []
      | Bool b => simpa [render_operand, render_value] using happend (.Bool b) []
  | List items =>
      cases items with
      | nil => exact absurd hv.2 (by simp)
      | cons w items =>
          simpa [render_operand, render_value, render_scalars_eq, sep_text] using happend w _
  | Range lo hi => simpa [render_operand, render_value] using happend lo _

theorem cmp_op_reads (op : CmpOp) {c : Char} {s : List Char} (hc : c ≠ '=') :
    cmp_op (render_op op ++ c :: s) = some (op, c :: s) := by
  cases op <;> simp [cmp_op, operators, render_op, strip_cons, strip_nil, Ne.symm hc, List.findSome?]

theorem cmp_op_none {tail : List Char} (ht : Stop after_term tail) : cmp_op tail = none := by
  cases tail with
  | nil => decide
  | cons c s =>
      have hall : ∀ d ∈ after_term.toList, '=' ≠ d ∧ '!' ≠ d ∧ '~' ≠ d ∧ '>' ≠ d ∧ '<' ≠ d := by decide
      obtain ⟨h₁, h₂, h₃, h₄, h₅⟩ := hall c (ht c rfl)
      simp [cmp_op, operators, strip_cons, h₁, h₂, h₃, h₄, h₅]

theorem render_op_stop (op : CmpOp) (s : List Char) : Stop "=!<>~;|)" (render_op op ++ s) := by
  cases op <;> exact stop_cons (by decide)

theorem render_path_head {p : QPath} (hp : PathFormed p) (s : List Char) :
    ∃ c t, render_path p ++ s = c :: t ∧ delimiter c = false ∧ is_whitespace c = false := by
  have hname {name : String} (hn : Name name) (t : List Char) :
      ∃ c u, name.toList ++ t = c :: u ∧ delimiter c = false ∧ is_whitespace c = false := by
    obtain ⟨c, u, hu⟩ := List.exists_cons_of_ne_nil hn.ne_nil
    exact ⟨c, u ++ t, by rw [hu]; rfl, hn.plain c (by simp [hu]), hn.head c (by simp [hu])⟩
  obtain ⟨links, path, b⟩ := p
  cases links with
  | cons l links =>
      have h := hname (hp.attrs l (by simp)).1
      simpa [render_path, render_link] using h _
  | nil =>
      cases path with
      | nil => exact absurd rfl hp.path_ne
      | cons name more =>
          have h := hname (hp.names name (by simp))
          simpa [render_path, join_eq, sep_text] using h _

/-- A comparison or an existence check, read back from its rendering. -/
def reread_leaf : QNode → Option QNode
  | .Cmp path op v => if PathKept path then (reread_value v).map (.Cmp path op) else none
  | .Exists path negated => if PathKept path then some (.Exists path negated) else none
  | _ => none

/-- No pattern operand has a quote in it. -/
def Unquoted : QNode → Prop
  | .Cmp _ op (.scalar (.Str s)) => op.regexp = true → '"' ∉ s.toList
  | _ => True

theorem leaf_cmp {path : QPath} {op : CmpOp} {v : QValue} (hp : PathFormed path) (hv : ValueFormed op v)
    (hq : Unquoted (.Cmp path op v)) {tail : List Char} (ht : Stop after_term tail) :
    (leaf (render (.Cmp path op v) ++ tail)).toOption = (reread_leaf (.Cmp path op v)).map (·, tail) := by
  have hq' : ∀ s, op.regexp = true → v = .scalar (.Str s) → '"' ∉ s.toList := by
    rintro s hr rfl
    exact hq hr
  have hvalue := value_reads hv hq' ht
  obtain ⟨c, t, hop, hc⟩ := render_operand_head op hv
  have htail := render_op_stop op (render_operand op v ++ tail)
  have hcmp : cmp_op (render_op op ++ (render_operand op v ++ tail)) = some (op, render_operand op v ++ tail) := by
    rw [hop, List.cons_append]
    exact cmp_op_reads op hc
  obtain ⟨d, u, hd, hdelim, -⟩ := render_path_head hp (render_op op ++ (render_operand op v ++ tail))
  have hbang : eat '!' (render_path path ++ (render_op op ++ (render_operand op v ++ tail))) = none := by
    rw [hd, eat, if_neg]
    rintro rfl
    exact absurd hdelim (by decide)
  rw [render, List.append_assoc, List.append_assoc, leaf, hbang, reread_leaf]
  simp only [Option.isSome_none, Option.getD_none]
  by_cases hk : PathKept path
  · rw [qpath_reads hp hk htail, if_pos hk]
    simp only [bind, Except.bind, hcmp, Bool.false_eq_true, if_false]
    cases hx : value op (render_operand op v ++ tail) with
    | error e => rw [hx] at hvalue; simpa [Except.toOption] using hvalue
    | ok r =>
        rw [hx] at hvalue
        obtain ⟨w, hw, hr⟩ := Option.map_eq_some_iff.mp hvalue.symm
        rw [hw, ← hr]
        rfl
  · rw [toOption_bind, qpath_refused hp hk htail, if_neg hk]
    rfl

theorem leaf_exists {path : QPath} {negated : Bool} (hp : PathFormed path) {tail : List Char}
    (ht : Stop after_term tail) :
    (leaf (render (.Exists path negated) ++ tail)).toOption = (reread_leaf (.Exists path negated)).map (·, tail) := by
  obtain ⟨d, u, hd, hdelim, -⟩ := render_path_head hp tail
  have hbang : eat '!' (render_path path ++ tail) = none := by
    rw [hd, eat, if_neg]
    rintro rfl
    exact absurd hdelim (by decide)
  have hpath : ((eat '!' (render (.Exists path negated) ++ tail)).isSome = negated) ∧
      (eat '!' (render (.Exists path negated) ++ tail)).getD (render (.Exists path negated) ++ tail) =
        render_path path ++ tail := by
    cases negated with
    | true => simp [render, eat]
    | false => simp [render, hbang]
  rw [leaf, hpath.1, hpath.2, reread_leaf]
  have htail : Stop "=!<>~;|)" tail := ht.mono (by decide)
  by_cases hk : PathKept path
  · rw [qpath_reads hp hk htail, if_pos hk]
    simp only [bind, Except.bind, cmp_op_none ht]
    rfl
  · rw [toOption_bind, qpath_refused hp hk htail, if_neg hk]
    rfl

end Leaves

end AntaresBroker.Ql
