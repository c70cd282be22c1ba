/-
  Xv6.Lib.Wait — sleepers and those who must wake them. A process may wait on a channel only while
  the channel is calm (there is something to wait for); whoever disturbs the calm owes a wakeup to
  every sleeper, until it has been paid.
-/

import Mathlib.Logic.Basic

namespace Xv6.Lib

variable {P : Type}

/-- Each process that `waits` does so in the `calm`, or is owed a wakeup by someone. -/
def Covered (waits : P → Prop) (calm : Prop) (owes : P → P → Prop) : Prop :=
  ∀ q, waits q → calm ∨ ∃ w, owes w q

variable {waits waits' : P → Prop} {calm calm' : Prop} {owes owes' : P → P → Prop}

theorem Covered.step (h : Covered waits calm owes)
    (enter : ∀ q, waits' q → waits q ∨ calm')
    (disturb : calm → ¬ calm' → ∃ w, ∀ q, waits' q → owes' w q)
    (debt : ∀ w q, owes w q → waits' q → calm' ∨ ∃ w, owes' w q) : Covered waits' calm' owes' := by
  intro q hq
  rcases enter q hq with hw | hc
  · rcases h q hw with hc | ⟨w, ho⟩
    · by_cases hc' : calm'
      · exact .inl hc'
      · obtain ⟨w, ho⟩ := disturb hc hc'
        exact .inr ⟨w, ho q hq⟩
    · exact debt w q ho hq
  · exact .inl hc

theorem Covered.calm_of_no_debt (h : Covered waits calm owes) (hno : ∀ w q, ¬ owes w q) {q : P} (hq : waits q) : calm :=
  (h q hq).resolve_right fun ⟨w, ho⟩ => hno w q ho

end Xv6.Lib
