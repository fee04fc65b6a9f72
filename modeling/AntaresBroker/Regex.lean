import Mathlib.Data.List.Basic
import Mathlib.Order.Basic

namespace AntaresBroker.Regex

/-- `one` reads a character of a set; `look` reads nothing and asserts something
of the text before it and of the text after it. -/
inductive Re
  | empty
  | one (p : Char → Bool)
  | look (p : List Char → List Char → Bool)
  | cat (r s : Re)
  | alt (r s : Re)
  | rep (r : Re) (lo : Nat) (hi : Option Nat)

namespace Re

def char (c : Char) : Re := .one (fun d => d = c)

def any : Re := .one (fun _ => true)

/-- The start of the text. -/
def bol : Re := .look (fun before _ => before.isEmpty)

/-- The end of the text. -/
def eol : Re := .look (fun _ after => after.isEmpty)

def star (r : Re) : Re := .rep r 0 none

def plus (r : Re) : Re := .rep r 1 none

def opt (r : Re) : Re := .rep r 0 (some 1)

def seq : List Re → Re
  | [] => .empty
  | r :: rs => .cat r (seq rs)

/-- The alternatives before the last, and the last. -/
def alts : List Re → Re → Re
  | [], r => r
  | q :: qs, r => .alt q (alts qs r)

end Re

/-- `r` reads `m` where `a` stands before it and `b` after it. -/
inductive Matches : Re → List Char → List Char → List Char → Prop
  | empty {a b : List Char} : Matches .empty a [] b
  | one {p : Char → Bool} {c : Char} {a b : List Char} (h : p c = true) : Matches (.one p) a [c] b
  | look {p : List Char → List Char → Bool} {a b : List Char} (h : p a b = true) : Matches (.look p) a [] b
  | cat {r s : Re} {a m n b : List Char} (hr : Matches r a m (n ++ b)) (hs : Matches s (a ++ m) n b) :
      Matches (.cat r s) a (m ++ n) b
  | left {r s : Re} {a m b : List Char} (hr : Matches r a m b) : Matches (.alt r s) a m b
  | right {r s : Re} {a m b : List Char} (hs : Matches s a m b) : Matches (.alt r s) a m b
  | done {r : Re} {hi : Option Nat} {a b : List Char} : Matches (.rep r 0 hi) a [] b
  | more {r : Re} {lo : Nat} {hi : Option Nat} {a m n b : List Char} (hhi : hi ≠ some 0) (hr : Matches r a m (n ++ b))
      (hs : Matches (.rep r (lo - 1) (hi.map (· - 1))) (a ++ m) n b) : Matches (.rep r lo hi) a (m ++ n) b

/-- The expression matches somewhere in the text. -/
def Finds (r : Re) (s : List Char) : Prop := ∃ a m b, s = a ++ m ++ b ∧ Matches r a m b

namespace Matches

variable {r s : Re} {rs : List Re} {p : Char → Bool} {a m n b : List Char} {c : Char}

theorem cat_iff : Matches (.cat r s) a m b ↔
    ∃ m₁ m₂, m = m₁ ++ m₂ ∧ Matches r a m₁ (m₂ ++ b) ∧ Matches s (a ++ m₁) m₂ b := by
  constructor
  · intro h
    cases h with
    | cat hr hs => exact ⟨_, _, rfl, hr, hs⟩
  · rintro ⟨m₁, m₂, rfl, hr, hs⟩
    exact hr.cat hs

theorem one_iff : Matches (.one p) a m b ↔ ∃ c, m = [c] ∧ p c = true := by
  constructor
  · intro h
    cases h with
    | one h => exact ⟨_, rfl, h⟩
  · rintro ⟨c, rfl, h⟩
    exact .one h

theorem look_iff {p : List Char → List Char → Bool} : Matches (.look p) a m b ↔ m = [] ∧ p a b = true := by
  constructor
  · intro h
    cases h with
    | look h => exact ⟨rfl, h⟩
  · rintro ⟨rfl, h⟩
    exact .look h

theorem char_self : Matches (.char c) a [c] b := .one (decide_eq_true rfl)

theorem bol_start : Matches .bol [] [] b := .look rfl

theorem eol_end : Matches .eol a [] [] := .look rfl

/-- A repetition of one character reads any number of them. -/
theorem star_one (h : ∀ c ∈ m, p c = true) : Matches (Re.one p).star a m b := by
  induction m generalizing a with
  | nil => exact .done
  | cons c m ih =>
      refine .more (m := [c]) nofun (.one (h c List.mem_cons_self)) ?_
      exact ih (fun d hd => h d (List.mem_cons_of_mem c hd))

theorem plus_one (hne : m ≠ []) (h : ∀ c ∈ m, p c = true) : Matches (Re.one p).plus a m b := by
  cases m with
  | nil => exact absurd rfl hne
  | cons c m =>
      refine .more (m := [c]) nofun (.one (h c List.mem_cons_self)) ?_
      exact star_one (fun d hd => h d (List.mem_cons_of_mem c hd))

theorem opt_none : Matches r.opt a [] b := .done

theorem opt_some (h : Matches r a m b) : Matches r.opt a m b := by
  have hmore : Matches r.opt a (m ++ []) b := .more (by simp) h .done
  rwa [List.append_nil] at hmore

/-- A literal in front of items stands in front of what they read. -/
theorem literals {l : List Char} (h : Matches (Re.seq rs) (a ++ l) n b) :
    Matches (Re.seq (l.map Re.char ++ rs)) a (l ++ n) b := by
  induction l generalizing a with
  | nil => rwa [List.append_nil] at h
  | cons c l ih =>
      refine .cat (m := [c]) char_self (ih ?_)
      rwa [List.append_assoc]

/-- What begins with literal items begins with their text. -/
theorem of_literal {l : List Char} (h : Matches (Re.seq (l.map Re.char ++ rs)) a m b) : ∃ n, m = l ++ n := by
  induction l generalizing a m with
  | nil => exact ⟨m, rfl⟩
  | cons c l ih =>
      obtain ⟨m₁, m₂, rfl, hc, hrest⟩ := cat_iff.mp h
      obtain ⟨d, rfl, hd⟩ := one_iff.mp hc
      obtain ⟨n, rfl⟩ := ih hrest
      exact ⟨n, by rw [of_decide_eq_true hd]; rfl⟩

end Matches

/-- One piece of a branch; the setting of flags stands between the pieces but is none to repeat. -/
inductive Item
  | flags
  | expr (r : Re)

def Item.re : Item → Re
  | .flags => .empty
  | .expr r => r

/-- A group that is still open: its finished alternatives and the items of the
current one, both last first. -/
structure Frame where
  branches : List Re
  items : List Item

namespace Frame

def new : Frame := ⟨[], []⟩

def branch (f : Frame) : Re := Re.seq (f.items.reverse.map Item.re)

def close (f : Frame) : Re := Re.alts f.branches.reverse f.branch

def push (f : Frame) (i : Item) : Frame := { f with items := i :: f.items }

def bar (f : Frame) : Frame := ⟨f.branch :: f.branches, []⟩

/-- Replace the last item of the branch, if it is an expression. -/
def modify (f : Frame) (g : Re → Re) : Option Frame :=
  match f.items with
  | .expr r :: items => some { f with items := .expr (g r) :: items }
  | _ => none

end Frame

/-- The groups that are open, the innermost first; the outermost is the whole text. -/
structure Groups where
  top : Frame
  below : List Frame

namespace Groups

def start : Groups := ⟨Frame.new, []⟩

def push (g : Groups) (i : Item) : Groups := { g with top := g.top.push i }

def bar (g : Groups) : Groups := { g with top := g.top.bar }

def modify (g : Groups) (f : Re → Re) : Option Groups := (g.top.modify f).map (fun top => { g with top })

def opening (g : Groups) : Groups := ⟨Frame.new, g.top :: g.below⟩

/-- The group becomes an item of the one around it. -/
def closing (g : Groups) : Option Groups :=
  match g.below with
  | [] => none
  | f :: below => some ⟨f.push (.expr g.top.close), below⟩

def finish (g : Groups) : Option Re := if g.below.isEmpty then some g.top.close else none

/-- The frame of the whole text. -/
def bottom (g : Groups) : Frame := g.below.getLast?.getD g.top

/-- The whole text has no alternatives so far, and begins with these items. -/
def Based (base : List Item) (g : Groups) : Prop := ∃ xs, g.bottom = ⟨[], xs ++ base.reverse⟩

/-- No repetition can reach these items any more. -/
def Beyond (base : List Item) (g : Groups) : Prop :=
  ∃ xs, g.bottom = ⟨[], xs ++ base.reverse⟩ ∧ (g.below = [] → xs ≠ [])

section Base

variable {base : List Item} {g g' : Groups}

theorem Beyond.based (h : Beyond base g) : Based base g := by
  obtain ⟨xs, hxs, -⟩ := h
  exact ⟨xs, hxs⟩

theorem bottom_nil {f : Frame} : (⟨f, []⟩ : Groups).bottom = f := rfl

theorem bottom_cons (f e : Frame) (below : List Frame) : (⟨f, e :: below⟩ : Groups).bottom = (⟨e, below⟩ : Groups).bottom := by
  cases below with
  | nil => rfl
  | cons d below => rw [bottom, bottom, List.getLast?_cons_cons, List.getLast?_cons, Option.getD_some, Option.getD_some]

theorem Based.push (h : Based base g) (i : Item) : Beyond base (g.push i) := by
  obtain ⟨xs, hxs⟩ := h
  obtain ⟨f, below⟩ := g
  cases below with
  | nil =>
      rw [bottom_nil] at hxs
      refine ⟨i :: xs, ?_, fun _ => List.cons_ne_nil _ _⟩
      rw [Groups.push, bottom_nil, hxs, Frame.push, List.cons_append]
  | cons e below =>
      rw [bottom_cons] at hxs
      exact ⟨xs, by rw [Groups.push, bottom_cons, hxs], nofun⟩

theorem Based.opening (h : Based base g) : Beyond base g.opening := by
  obtain ⟨xs, hxs⟩ := h
  exact ⟨xs, by rw [Groups.opening, bottom_cons, hxs], nofun⟩

theorem Based.closing (h : Based base g) (hg : g.closing = some g') : Beyond base g' := by
  obtain ⟨f, below⟩ := g
  cases below with
  | nil => exact nomatch hg
  | cons e below =>
      obtain rfl := Option.some.inj hg
      have hrest : Based base ⟨e, below⟩ := by
        obtain ⟨xs, hxs⟩ := h
        exact ⟨xs, by rw [← hxs, bottom_cons]⟩
      exact hrest.push _

theorem Beyond.modify (h : Beyond base g) {f : Re → Re} (hg : g.modify f = some g') : Beyond base g' := by
  obtain ⟨xs, hxs, hne⟩ := h
  obtain ⟨top, below⟩ := g
  obtain ⟨top', htop, rfl⟩ := Option.map_eq_some_iff.mp hg
  cases below with
  | nil =>
      rw [bottom_nil] at hxs
      obtain ⟨x, xs', rfl⟩ := List.exists_cons_of_ne_nil (hne rfl)
      subst hxs
      cases x with
      | flags => exact nomatch htop
      | expr r =>
          obtain rfl := Option.some.inj htop
          exact ⟨.expr (f r) :: xs', rfl, fun _ => List.cons_ne_nil _ _⟩
  | cons e below =>
      rw [bottom_cons] at hxs
      exact ⟨xs, by rw [bottom_cons, hxs], nofun⟩

/-- The expression of a text begins with the items the text begins with. -/
theorem Based.finish (h : Based base g) {r : Re} (hr : g.finish = some r) : ∃ rs, r = Re.seq (base.map Item.re ++ rs) := by
  obtain ⟨xs, hxs⟩ := h
  obtain ⟨top, below⟩ := g
  rw [Groups.finish] at hr
  split_ifs at hr with hbelow
  obtain rfl := List.isEmpty_iff.mp hbelow
  rw [bottom_nil] at hxs
  obtain rfl := Option.some.inj hr
  refine ⟨xs.reverse.map Item.re, ?_⟩
  rw [hxs, Frame.close, Frame.branch, List.reverse_append, List.reverse_reverse, List.map_append]
  rfl

end Base

end Groups

end AntaresBroker.Regex
