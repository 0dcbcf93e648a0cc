import Mathlib.Tactic
import FsmLang.ActionArray

set_option relaxedAutoImplicit false
set_option autoImplicit false

/-!
# The user's functions

The generated code calls functions that the user writes: actions, transition functions, functions
for state changes. They are seen through their calls, and what they return may depend on everything
that has been called and on every state entered so far.

Some functions that the code calls are generated, as weak functions: the -tc table has `noAction`
in cells without action, and in a machine with transition functions `noTransitionFn` and
`transitionTo<S>` in cells without transition and with a plain one. A user's function of the same
name takes their place.

## Main definitions

* `Obs`, `World` — what can be observed, and a machine's state with what has been observed so far.
* `WeakStub`, `UserCode` — the generated weak functions, and what the user's functions return.
* `UserCode.callAction`, `UserCode.takeTransition` — an action, and an entry's transition.
* `UserCode.callNoAction`, `UserCode.takeTableTransition` — the same, in cells of the -tc table.
-/

namespace FsmLang

/-! ## Observations -/

/-- A call of one of the user's functions or of a sub-machine, with its arguments other than
the machine itself, or a change of the state. -/
inductive Obs (σ : Type*) where
  | action (name : String)
  | transitionFn (name : String) (e : ℤ)
  | transitionTo (s : σ) (e : ℤ)
  | machineTransition (name : String) (s : σ)
  | exitFn (name : String)
  | entryFn (name : String)
  | subMachine (k : ℕ) (e : ℤ)
  | enters (s : σ)
  deriving DecidableEq, Repr

/-- A call of an action or of the function for empty cells. -/
def Obs.isAction {σ : Type*} : Obs σ → Bool
  | .action _ => true
  | _ => false

/-- A call of a transition function. -/
def Obs.isTransition {σ : Type*} : Obs σ → Bool
  | .transitionFn _ _ => true
  | .transitionTo _ _ => true
  | _ => false

/-- A call of a function for state changes, or a change of the state. -/
def Obs.isStateChange {σ : Type*} : Obs σ → Bool
  | .machineTransition _ _ => true
  | .exitFn _ => true
  | .entryFn _ => true
  | .enters _ => true
  | _ => false

/-- Functions for state changes are no actions. -/
lemma Obs.isAction_of_isStateChange {σ : Type*} {o : Obs σ} (h : o.isStateChange = true) :
    o.isAction = false := by
  cases o <;> first | rfl | cases h

/-- They are no transition functions either. -/
lemma Obs.isTransition_of_isStateChange {σ : Type*} {o : Obs σ} (h : o.isStateChange = true) :
    o.isTransition = false := by
  cases o <;> first | rfl | cases h

/-- The machine's state, and what has been observed so far. -/
structure World (σ : Type*) where
  state : σ
  trace : List (Obs σ)
  deriving DecidableEq, Repr

/-- The weak functions that the generator defines (`defineWeakNoActionFunctionStubs`,
`writeNoTransition`, `writeStateTransitions`). -/
inductive WeakStub (σ : Type*) where
  | noAction
  | noTransitionFn
  | transitionTo (s : σ)
  deriving DecidableEq, Repr

/-- What the user's functions and the sub-machines return, from all that has been observed, their
own call included, and which of the generated weak functions the user replaces. -/
structure UserCode (σ : Type*) where
  action : List (Obs σ) → ℤ
  transitionFn : List (Obs σ) → σ
  subMachine : List (Obs σ) → ℤ
  replaces : WeakStub σ → Bool := fun _ => false

section World

variable {σ : Type*}

/-- One more observation. -/
def World.observe (w : World σ) (o : Obs σ) : World σ := { w with trace := w.trace ++ [o] }

/-- An observation leaves the state alone. -/
@[simp] lemma World.observe_state (w : World σ) (o : Obs σ) : (w.observe o).state = w.state := rfl

/-- An observation comes last. -/
@[simp] lemma World.observe_trace (w : World σ) (o : Obs σ) :
    (w.observe o).trace = w.trace ++ [o] := rfl

/-- Call an action, or another function of its type. -/
def UserCode.callAction (U : UserCode σ) (name : String) (w : World σ) : World σ × ℤ :=
  (w.observe (.action name), U.action (w.observe (.action name)).trace)

/-- The state to be in after an entry's transition; its function gets the event `e`. -/
def UserCode.takeTransition (U : UserCode σ) (t : Option (Transition σ)) (e : ℤ) (w : World σ) :
    World σ × σ :=
  match t with
  | none => (w, w.state)
  | some (.state s) => (w, s)
  | some (.fn name _) =>
    (w.observe (.transitionFn name e), U.transitionFn (w.observe (.transitionFn name e)).trace)

/-- A transition calls no action. -/
lemma UserCode.countP_takeTransition (U : UserCode σ) (t : Option (Transition σ)) (e : ℤ)
    (w : World σ) :
    (U.takeTransition t e w).1.trace.countP Obs.isAction = w.trace.countP Obs.isAction := by
  rcases t with _ | (s | ⟨name, returnsDecl⟩)
  · rfl
  · rfl
  · simp [takeTransition, List.countP_append, Obs.isAction]

/-- Call `noAction`. The generated one only prints a message and returns `noEvent`. -/
def UserCode.callNoAction (U : UserCode σ) (noEvent : ℤ) (w : World σ) : World σ × ℤ :=
  if U.replaces .noAction then U.callAction "noAction" w else (w, noEvent)

/-- Call the function in the transition part of a cell of the -tc table, in a machine with
transition functions. The generated `noTransitionFn` returns the machine's state, and
`transitionTo<S>` the state `S`. -/
def UserCode.takeTableTransition (U : UserCode σ) (t : Option (Transition σ)) (e : ℤ)
    (w : World σ) : World σ × σ :=
  match t with
  | none =>
    if U.replaces .noTransitionFn then U.takeTransition (some (.fn "noTransitionFn" [])) e w
    else (w, w.state)
  | some (.state s) =>
    if U.replaces (.transitionTo s) then
      (w.observe (.transitionTo s e), U.transitionFn (w.observe (.transitionTo s e)).trace)
    else (w, s)
  | some (.fn name returnsDecl) => U.takeTransition (some (.fn name returnsDecl)) e w

end World

end FsmLang
