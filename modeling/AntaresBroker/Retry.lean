import Mathlib.Data.List.Perm.Basic
import Mathlib.Logic.Relation

namespace AntaresBroker.Retry

variable {O S A : Type}

/-- Operations on one value. Some take effect at once; the others look at the value and act after that, in vain if
the value has turned. -/
structure Service (O S A : Type) where
  serve : O → S → S × A
  at_once : O → Prop
  looks : O → Prop
  look : S → Bool
  attempt : O → Bool → S → Option (S × A)
  limit : Nat
  in_time : ∀ o s, looks o → attempt o (look s) s = some (serve o s)
  too_late : ∀ o s b, looks o → b ≠ look s → attempt o b s = none

/-- An operation under way, and how many had taken effect when it came. -/
structure Call (O : Type) where
  operation : O
  tries : Nat
  seen : Option Bool
  since : Nat

structure State (O S A : Type) where
  value : S
  /-- what has taken effect, and how it was answered -/
  log : List (O × A)
  waiting : List (Call O)
  given_up : List (Call O)
  asked : List O

def State.start (s : S) : State O S A := ⟨s, [], [], [], []⟩

def State.done (st : State O S A) : List O := st.log.map Prod.fst

variable (P : Service O S A)

inductive Step : State O S A → State O S A → Prop
  | serve {st : State O S A} {o : O} : P.at_once o → Step st { st with
      value := (P.serve o st.value).1
      log := st.log ++ [(o, (P.serve o st.value).2)]
      asked := st.asked ++ [o] }
  | arrive {st : State O S A} {o : O} : P.looks o → Step st { st with
      waiting := ⟨o, 0, none, st.log.length⟩ :: st.waiting
      asked := st.asked ++ [o] }
  | look {st : State O S A} {pre post : List (Call O)} {c : Call O} : st.waiting = pre ++ c :: post → c.seen = none →
      c.tries < P.limit → Step st { st with
        waiting := pre ++ { c with tries := c.tries + 1, seen := some (P.look st.value) } :: post }
  | act {st : State O S A} {pre post : List (Call O)} {c : Call O} {b : Bool} {r : S × A} :
      st.waiting = pre ++ c :: post → c.seen = some b → P.attempt c.operation b st.value = some r → Step st { st with
        value := r.1
        log := st.log ++ [(c.operation, r.2)]
        waiting := pre ++ post }
  | miss {st : State O S A} {pre post : List (Call O)} {c : Call O} {b : Bool} :
      st.waiting = pre ++ c :: post → c.seen = some b → P.attempt c.operation b st.value = none → Step st { st with
        waiting := pre ++ { c with seen := none } :: post }
  | give_up {st : State O S A} {pre post : List (Call O)} {c : Call O} : st.waiting = pre ++ c :: post → c.seen = none →
      P.limit ≤ c.tries → Step st { st with
        waiting := pre ++ post
        given_up := c :: st.given_up }

/-- Every interleaving of any number of operations, from a first value. -/
def Reached (s : S) : State O S A → Prop := Relation.ReflTransGen (Step P) (.start s)

section Serial

/-- The operations one after another. -/
def serial (s : S) : List O → S × List A
  | [] => (s, [])
  | o :: ops =>
      let r := P.serve o s
      let rest := serial r.1 ops
      (rest.1, r.2 :: rest.2)

def after (s : S) (ops : List O) : S := (serial P s ops).1

/-- The operations that make the value look different. -/
def turns (s : S) : List O → Nat
  | [] => 0
  | o :: ops => (if P.look (P.serve o s).1 = P.look s then 0 else 1) + turns (P.serve o s).1 ops

/-- The turns of the value since a call came. -/
def missed (s : S) (ops : List O) (c : Call O) : Nat := turns P (after P s (ops.take c.since)) (ops.drop c.since)

variable {P}

theorem serial_snoc (s : S) (ops : List O) (o : O) : serial P s (ops ++ [o]) =
    ((P.serve o (after P s ops)).1, (serial P s ops).2 ++ [(P.serve o (after P s ops)).2]) := by
  induction ops generalizing s with
  | nil => rfl
  | cons p ops ih =>
      rw [List.cons_append, serial, ih]
      rfl

theorem after_append (s : S) (ops later : List O) : after P s (ops ++ later) = after P (after P s ops) later := by
  induction ops generalizing s with
  | nil => rfl
  | cons p ops ih => exact ih _

theorem serial_append (s : S) (ops later : List O) :
    (serial P s (ops ++ later)).2 = (serial P s ops).2 ++ (serial P (after P s ops) later).2 := by
  induction ops generalizing s with
  | nil => rfl
  | cons p ops ih => exact congrArg _ (ih _)

theorem length_serial (s : S) (ops : List O) : (serial P s ops).2.length = ops.length := by
  induction ops generalizing s with
  | nil => rfl
  | cons p ops ih => exact congrArg Nat.succ (ih _)

theorem turns_snoc (s : S) (ops : List O) (o : O) : turns P s (ops ++ [o]) =
    turns P s ops + if P.look (P.serve o (after P s ops)).1 = P.look (after P s ops) then 0 else 1 := by
  induction ops generalizing s with
  | nil => exact (Nat.add_zero _).trans (Nat.zero_add _).symm
  | cons p ops ih =>
      rw [List.cons_append, turns, ih, turns, ← Nat.add_assoc]
      rfl

theorem missed_snoc (s : S) {ops : List O} (o : O) {c : Call O} (h : c.since ≤ ops.length) : missed P s (ops ++ [o]) c =
    missed P s ops c + if P.look (P.serve o (after P s ops)).1 = P.look (after P s ops) then 0 else 1 := by
  unfold missed
  rw [List.take_append_of_le_length h, List.drop_append_of_le_length h, turns_snoc, ← after_append, List.take_append_drop]

end Serial

section Runs

/-- A call under way has tried once for each turn since it came, and once more if what it saw still holds. -/
structure Patient (s : S) (ops : List O) (c : Call O) : Prop where
  looks : P.looks c.operation
  since : c.since ≤ ops.length
  tries : c.tries ≤ missed P s ops c + if c.seen = some (P.look (after P s ops)) then 1 else 0

structure Inv (s : S) (st : State O S A) : Prop where
  serial : serial P s st.done = (st.value, st.log.map Prod.snd)
  accounted : (st.done ++ (st.waiting.map Call.operation ++ st.given_up.map Call.operation)).Perm st.asked
  patient : ∀ c ∈ st.waiting, Patient P s st.done c
  exhausted : ∀ c ∈ st.given_up, c.since ≤ st.done.length ∧ P.limit ≤ missed P s st.done c

variable {P} {s : S} {st st' : State O S A}

theorem Inv.start : Inv P s (.start s) := ⟨rfl, .refl _, by simp [State.start], by simp [State.start]⟩

theorem Inv.value (h : Inv P s st) : after P s st.done = st.value := congrArg Prod.fst h.serial

/-- An operation of the log was answered for what the ones before it left, and the ones after it made the value of what
it left. -/
theorem Inv.entry (h : Inv P s st) {earlier later : List (O × A)} {o : O} {a : A} (hlog : st.log = earlier ++ (o, a) :: later) :
    a = (P.serve o (after P s (earlier.map Prod.fst))).2 ∧
      st.value = after P (P.serve o (after P s (earlier.map Prod.fst))).1 (later.map Prod.fst) := by
  have hdone : st.done = earlier.map Prod.fst ++ o :: later.map Prod.fst := by
    rw [State.done, hlog, List.map_append, List.map_cons]
  have hanswers := congrArg Prod.snd h.serial
  rw [hdone, serial_append, hlog, List.map_append, List.map_cons] at hanswers
  have htail := (List.append_inj hanswers (by rw [length_serial, List.length_map, List.length_map])).2
  refine ⟨(List.cons.inj htail).1.symm, ?_⟩
  rw [← h.value, hdone, after_append]
  rfl

theorem Patient.grow {ops : List O} {c : Call O} (h : Patient P s ops c) (o : O) : Patient P s (ops ++ [o]) c := by
  refine ⟨h.looks, by rw [List.length_append]; exact Nat.le_add_right_of_le h.since, ?_⟩
  have htries := h.tries
  have hvalue : after P s (ops ++ [o]) = (P.serve o (after P s ops)).1 := congrArg Prod.fst (serial_snoc s ops o)
  rw [missed_snoc s o h.since, hvalue]
  by_cases hturn : P.look (P.serve o (after P s ops)).1 = P.look (after P s ops)
  · rw [if_pos hturn, hturn]
    exact htries
  · rw [if_neg hturn]
    split_ifs at htries ⊢ <;> omega

theorem missed_grow {ops : List O} {c : Call O} {n : Nat} (h : c.since ≤ ops.length ∧ n ≤ missed P s ops c) (o : O) :
    c.since ≤ (ops ++ [o]).length ∧ n ≤ missed P s (ops ++ [o]) c := by
  rw [missed_snoc s o h.1, List.length_append]
  exact ⟨Nat.le_add_right_of_le h.1, Nat.le_add_right_of_le h.2⟩

/-- A call goes on, or starts again. -/
theorem Inv.renew (h : Inv P s st) {pre post : List (Call O)} {c d : Call O} (hwait : st.waiting = pre ++ c :: post)
    (hop : d.operation = c.operation) (hd : Patient P s st.done d) : Inv P s { st with waiting := pre ++ d :: post } := by
  refine ⟨h.serial, ?_, fun e he => ?_, h.exhausted⟩
  · have hsame := h.accounted
    rw [hwait, List.map_append, List.map_cons, ← hop, ← List.map_cons, ← List.map_append] at hsame
    exact hsame
  · rcases List.mem_append.mp he with he | he
    · exact h.patient e (hwait ▸ List.mem_append_left _ he)
    · rcases List.mem_cons.mp he with rfl | he
      · exact hd
      · exact h.patient e (hwait ▸ List.mem_append_right _ (List.mem_cons_of_mem _ he))

theorem mem_waiting {pre post : List (Call O)} {c d : Call O} (hwait : st.waiting = pre ++ c :: post)
    (hd : d ∈ pre ++ post) : d ∈ st.waiting := by
  rw [hwait]
  exact (List.mem_append.mp hd).elim (List.mem_append_left _) (fun hd => List.mem_append_right _ (List.mem_cons_of_mem _ hd))

/-- An operation takes effect. -/
theorem Inv.commit (h : Inv P s st) (o : O) {waiting : List (Call O)} {asked : List O}
    (hsub : ∀ c ∈ waiting, c ∈ st.waiting)
    (hasked : (st.done ++ o :: (waiting.map Call.operation ++ st.given_up.map Call.operation)).Perm asked) :
    Inv P s ⟨(P.serve o st.value).1, st.log ++ [(o, (P.serve o st.value).2)], waiting, st.given_up, asked⟩ := by
  have hdone : (st.log ++ [(o, (P.serve o st.value).2)]).map Prod.fst = st.done ++ [o] := List.map_append
  refine ⟨?_, ?_, fun c hc => ?_, fun c hc => ?_⟩
  · rw [State.done, hdone, serial_snoc, h.value, h.serial, List.map_append]
    rfl
  · rw [State.done, hdone, List.append_assoc]
    exact hasked
  · rw [State.done, hdone]
    exact (h.patient c (hsub c hc)).grow o
  · rw [State.done, hdone]
    exact missed_grow (h.exhausted c hc) o

theorem Inv.step (h : Inv P s st) (hstep : Step P st st') : Inv P s st' := by
  cases hstep with
  | @serve o _ =>
      refine h.commit o (fun _ hc => hc) ?_
      exact List.perm_middle.trans ((h.accounted.cons o).trans (List.perm_append_singleton o st.asked).symm)
  | @arrive o hlooks =>
      refine ⟨h.serial, ?_, fun c hc => ?_, h.exhausted⟩
      · exact List.perm_middle.trans ((h.accounted.cons o).trans (List.perm_append_singleton o st.asked).symm)
      · rcases List.mem_cons.mp hc with rfl | hc
        · exact ⟨hlooks, Nat.le_of_eq (List.length_map Prod.fst).symm, Nat.zero_le _⟩
        · exact h.patient c hc
  | @look pre post c hwait hseen htries =>
      have hold := h.patient c (by simp [hwait])
      have hbefore := hold.tries
      rw [hseen, if_neg (by simp)] at hbefore
      refine h.renew hwait rfl ⟨hold.looks, hold.since, ?_⟩
      rw [h.value, if_pos rfl]
      exact Nat.succ_le_succ hbefore
  | @act pre post c b r hwait hseen hact =>
      have hlooks := (h.patient c (by simp [hwait])).looks
      obtain rfl : P.serve c.operation st.value = r := by
        by_cases hb : b = P.look st.value
        · rw [hb, P.in_time _ _ hlooks] at hact
          exact Option.some.inj hact
        · rw [P.too_late _ _ _ hlooks hb] at hact
          cases hact
      refine h.commit c.operation (fun d hd => mem_waiting hwait hd) (List.Perm.trans ?_ h.accounted)
      rw [hwait, List.map_append, List.map_append, List.map_cons]
      exact List.Perm.append_left _ (List.Perm.append_right _ List.perm_middle.symm)
  | @miss pre post c b hwait hseen hact =>
      have hold := h.patient c (by simp [hwait])
      have hturned : b ≠ P.look st.value := by
        rintro rfl
        rw [P.in_time _ _ hold.looks] at hact
        cases hact
      have hbefore := hold.tries
      rw [hseen, h.value, if_neg fun heq => hturned (Option.some.inj heq)] at hbefore
      exact h.renew hwait rfl ⟨hold.looks, hold.since, Nat.le_add_right_of_le hbefore⟩
  | @give_up pre post c hwait hseen htries =>
      have hold := h.patient c (by simp [hwait])
      have hbefore := hold.tries
      rw [hseen, if_neg (by simp)] at hbefore
      refine ⟨h.serial, List.Perm.trans ?_ h.accounted, fun d hd => h.patient d (mem_waiting hwait hd), fun d hd => ?_⟩
      · rw [hwait, List.map_append, List.map_append, List.map_cons, List.append_assoc, List.append_assoc]
        exact List.Perm.append_left _ (List.Perm.append_left _ List.perm_middle)
      · rcases List.mem_cons.mp hd with rfl | hd
        · exact ⟨hold.since, Nat.le_trans htries hbefore⟩
        · exact h.exhausted d hd

theorem Inv.of_reached (h : Reached P s st) : Inv P s st := by
  induction h with
  | refl => exact .start
  | tail _ hstep ih => exact ih.step hstep

end Runs

end AntaresBroker.Retry
