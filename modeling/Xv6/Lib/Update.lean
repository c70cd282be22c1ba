/-
  Xv6.Lib.Update — a family with one member replaced.

  `update_ind`: what holds of the new member, and of the others as they were, holds of each.
  `update_unique`: what belongs to one member at most still does, if the new one takes only
  what no other has.
-/

import Mathlib.Logic.Function.Basic

namespace Xv6.Lib

open Function (update update_self update_of_ne)

variable {ι α β : Type} [DecidableEq ι] {f : ι → α} {i : ι} {a : α}

@[elab_as_elim]
theorem update_ind {motive : ι → α → Prop} (j : ι) (self : motive i a) (other : ∀ j, j ≠ i → motive j (f j)) :
    motive j (update f i a j) := by
  by_cases e : j = i
  · subst e
    rwa [update_self]
  · rw [update_of_ne e]
    exact other j e

theorem update_unique (R : α → β → Prop) (h : ∀ j k x, R (f j) x → R (f k) x → j = k)
    (ha : ∀ j, j ≠ i → ∀ x, R (f j) x → ¬ R a x) (j k : ι) (x : β) : R (update f i a j) x → R (update f i a k) x → j = k := by
  refine update_ind j (update_ind k (fun _ _ => rfl) fun k hk hj hx => absurd hj (ha k hk x hx)) fun j hj => ?_
  exact update_ind k (fun hx hk => absurd hk (ha j hj x hx)) fun k _ => h j k x

end Xv6.Lib
