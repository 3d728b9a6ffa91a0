import Mathlib.Logic.Relation

/-! # Machines that read events

A step may be impossible. A run may be restricted to steps that some condition on the state and
the event allows.
-/

namespace BitcoinGpuMiner

namespace Foundation

set_option autoImplicit false

variable {State Event : Type} {step : State → Event → Option State} {allowed : State → Event → Prop}
  {start state : State}

/-- The states reached from `start` by finitely many steps, each of them allowed where it is made. -/
def Reaches (step : State → Event → Option State) (allowed : State → Event → Prop) (start state : State) : Prop :=
  Relation.ReflTransGen (fun state state' => ∃ event, allowed state event ∧ step state event = some state') start state

namespace Reaches

theorem invariant {motive : State → Prop} (hStart : motive start)
    (hStep : ∀ state event state', motive state → allowed state event → step state event = some state' → motive state')
    (hRun : Reaches step allowed start state) : motive state := by
  induction hRun with
  | refl => exact hStart
  | tail _ hNext ih =>
    obtain ⟨event, hAllowed, hEq⟩ := hNext
    exact hStep _ event _ ih hAllowed hEq

/-- `base` is kept by every step and `motive` by the allowed ones. If those are just the steps that do what
`keeps` asks for, every state of a run has the property and the condition is exact in all of them. -/
theorem exact (base motive : State → Prop) (keeps : State → Event → State → Prop) (hBase : base start)
    (hStart : motive start)
    (hBaseStep : ∀ state event state', base state → step state event = some state' → base state')
    (hKeeps : ∀ state event state', keeps state event state' → motive state')
    (hStep : ∀ state event state', base state → motive state → step state event = some state' →
      (keeps state event state' ↔ allowed state event))
    (hRun : Reaches step allowed start state) : motive state ∧
      ∀ event state', step state event = some state' → (keeps state event state' ↔ allowed state event) := by
  have hBoth : base state ∧ motive state := by
    refine hRun.invariant (motive := fun state => base state ∧ motive state) ⟨hBase, hStart⟩ ?_
    rintro state event state' ⟨hBase, hMotive⟩ hAllowed hEq
    refine ⟨hBaseStep state event state' hBase hEq, ?_⟩
    exact hKeeps state event state' ((hStep state event state' hBase hMotive hEq).mpr hAllowed)
  refine ⟨hBoth.2, ?_⟩
  intro event state' hEq
  exact hStep state event state' hBoth.1 hBoth.2 hEq

theorem next {event : Event} {state' : State} (hRun : Reaches step allowed start state)
    (hAllowed : allowed state event) (hEq : step state event = some state') : Reaches step allowed start state' :=
  hRun.tail ⟨event, hAllowed, hEq⟩

theorem foldlM {state' : State} (events : List Event) (hRun : Reaches step (fun _ _ => True) start state)
    (hReplay : events.foldlM step state = some state') : Reaches step (fun _ _ => True) start state' := by
  induction events generalizing state with
  | nil =>
    cases hReplay
    exact hRun
  | cons event rest ih =>
    obtain ⟨between, hEq, hRest⟩ := Option.bind_eq_some_iff.mp hReplay
    exact ih (hRun.next trivial hEq) hRest

end Reaches

section Failing

variable {Item Fault Fault' : Type} {body : State → Item → Except Fault State} {body' : State → Item → Except Fault' State}
  {rename : Fault → Fault'} {motive : State → Prop}

theorem mapError_map {α β : Type} (rename : Fault → Fault') (f : α → β) (result : Except Fault α) :
    (result.map f).mapError rename = (result.mapError rename).map f := by
  cases result <;> rfl

/-- Two loops that do the same in every state with a property that the first one keeps. -/
theorem foldlM_eq_mapError (hSame : ∀ state item, motive state → body' state item = (body state item).mapError rename)
    (hKeeps : ∀ state item state', motive state → body state item = .ok state' → motive state') (items : List Item)
    (hState : motive state) : items.foldlM body' state = (items.foldlM body state).mapError rename := by
  induction items generalizing state with
  | nil => rfl
  | cons item rest ih =>
    rw [List.foldlM_cons, List.foldlM_cons, hSame state item hState]
    cases hBody : body state item with
    | error fault => rfl
    | ok next => exact ih (hKeeps state item next hState hBody)

theorem foldlM_keeps (hKeeps : ∀ state item state', motive state → body state item = .ok state' → motive state')
    (items : List Item) {state' : State} (hState : motive state) (hFold : items.foldlM body state = .ok state') :
    motive state' := by
  induction items generalizing state with
  | nil =>
    cases hFold
    exact hState
  | cons item rest ih =>
    rw [List.foldlM_cons] at hFold
    cases hBody : body state item with
    | error fault =>
      rw [hBody] at hFold
      cases hFold
    | ok next =>
      rw [hBody] at hFold
      exact ih (hKeeps state item next hState hBody) hFold

end Failing

end Foundation

end BitcoinGpuMiner
