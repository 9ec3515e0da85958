/-
This file defines attempts: what an edit that may be refused hands back. An
attempt holds its result or the reason for its refusal, and in both cases the
state that it leaves behind, so what a refused edit has changed can be stated.
-/

import BitGraph.Error

namespace BitGraph

/-- The result of an edit of a state, and the state after it. -/
structure Attempt (State Result : Type) where
  result : Except GraphError Result
  state : State

namespace Attempt

variable {State Other Result Next Final : Type}

/-- An edit that went through. -/
def succeed (result : Result) (state : State) : Attempt State Result :=
  ⟨.ok result, state⟩

/-- An edit that was refused. -/
def fail (reason : GraphError) (state : State) : Attempt State Result :=
  ⟨.error reason, state⟩

/-- Go on from a result; a refusal ends the whole. -/
def andThen (attempt : Attempt State Result) (next : Result → State → Attempt State Next) :
    Attempt State Next :=
  match attempt.result with
  | .ok result => next result attempt.state
  | .error reason => fail reason attempt.state

/-- Put the state that an edit leaves behind into a larger one. -/
def within (attempt : Attempt State Result) (embed : State → Other) : Attempt Other Result :=
  ⟨attempt.result, embed attempt.state⟩

theorem succeed_inj {first second : Result} {before after : State} :
    succeed first before = succeed second after ↔ first = second ∧ before = after := by
  simp only [succeed, Attempt.mk.injEq, Except.ok.injEq]

@[simp] theorem succeed_andThen (result : Result) (state : State)
    (next : Result → State → Attempt State Next) :
    (succeed result state).andThen next = next result state := rfl

@[simp] theorem fail_andThen (reason : GraphError) (state : State)
    (next : Result → State → Attempt State Next) :
    (fail reason state).andThen next = fail reason state := rfl

theorem andThen_succeed (attempt : Attempt State Result) :
    (attempt.andThen fun result state => succeed result state) = attempt := by
  obtain ⟨outcome, state⟩ := attempt
  cases outcome <;> rfl

theorem andThen_assoc (attempt : Attempt State Result)
    (next : Result → State → Attempt State Next) (last : Next → State → Attempt State Final) :
    (attempt.andThen next).andThen last =
      attempt.andThen fun result state => (next result state).andThen last := by
  obtain ⟨outcome, state⟩ := attempt
  cases outcome <;> rfl

/-- An edit made of two goes through exactly when both do. -/
theorem andThen_eq_succeed_iff (attempt : Attempt State Result)
    (next : Result → State → Attempt State Next) (final : Next) (after : State) :
    attempt.andThen next = .succeed final after ↔
      ∃ result middle, attempt = .succeed result middle ∧
        next result middle = .succeed final after := by
  obtain ⟨outcome, state⟩ := attempt
  cases outcome with
  | ok result =>
    constructor
    · exact fun through => ⟨result, state, rfl, through⟩
    · rintro ⟨_, _, ⟨⟩, through⟩
      exact through
  | error reason =>
    constructor
    · nofun
    · rintro ⟨_, _, ⟨⟩, _⟩

end Attempt

end BitGraph
