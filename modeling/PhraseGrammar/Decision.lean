/-!
# Decisions left to a selector

A `Decision` is a computation that needs choices it does not make: it is either done, or asks
for a number below some count and goes on with the reply. A `Selector` replies to any count with
any number, and may keep a state of its own. `Decision.run` lets a selector reply and notes each
count together with the reply; a reply that is not below its count ends the run.
-/

set_option autoImplicit false

namespace PhraseGrammar

/-- A value that depends on choices among finitely many candidates. -/
inductive Decision (α : Type) where
  | done (value : α)
  | choose (count : Nat) (next : Fin count → Decision α)

/-- Replies to a count of candidates, with a state that it reads and changes. -/
def Selector (σ : Type) : Type := σ → Nat → Nat × σ

/-- The end of a run: its value, the selector's state, and the counts asked for with the replies
to them, in order. -/
structure Run (σ α : Type) where
  value : α
  state : σ
  log : List (Nat × Nat)

namespace Decision

variable {α β σ : Type}

/-- Goes on from the value with further choices. -/
def bind : Decision α → (α → Decision β) → Decision β
  | done value, further => further value
  | choose count next, further => choose count fun index => (next index).bind further

/-- Changes the value and asks for nothing. -/
def map (f : α → β) : Decision α → Decision β
  | done value => done (f value)
  | choose count next => choose count fun index => (next index).map f

/-- Runs with the selector's replies. The value is `refusal index count` if the selector replies
with an index that is not below the count. -/
def run (select : Selector σ) (refusal : Nat → Nat → α) : Decision α → σ → Run σ α
  | done value, state => ⟨value, state, []⟩
  | choose count next, state =>
    let reply := select state count
    if h : reply.1 < count then
      let rest := (next ⟨reply.1, h⟩).run select refusal reply.2
      { rest with log := (count, reply.1) :: rest.log }
    else
      ⟨refusal reply.1 count, reply.2, [(count, reply.1)]⟩

theorem map_eq_bind (f : α → β) (decision : Decision α) :
    decision.map f = decision.bind fun value => .done (f value) := by
  induction decision with
  | done value => rfl
  | choose count next ih => simp only [map, bind, ih]

theorem run_choose_of_lt (select : Selector σ) (refusal : Nat → Nat → α) {count : Nat}
    (next : Fin count → Decision α) (state : σ) (h : (select state count).1 < count) :
    (choose count next).run select refusal state =
      let rest := (next ⟨(select state count).1, h⟩).run select refusal (select state count).2
      { rest with log := (count, (select state count).1) :: rest.log } :=
  dif_pos h

theorem run_choose_of_le (select : Selector σ) (refusal : Nat → Nat → α) {count : Nat}
    (next : Fin count → Decision α) (state : σ) (h : count ≤ (select state count).1) :
    (choose count next).run select refusal state =
      ⟨refusal (select state count).1 count, (select state count).2,
        [(count, (select state count).1)]⟩ :=
  dif_neg (Nat.not_lt.mpr h)

end Decision

end PhraseGrammar
