/-
  Xv6.Lib.Lock — a table of locks against what each thread believes it holds.

  `Locked`: the table names thread `t` for lock `l` exactly when `t` holds `l`. Then no two
  threads hold one lock, and the three things a step can do (acquire, release, neither) keep
  it, given how the step changes what its own thread holds.
-/

import Mathlib.Logic.Function.Basic

namespace Xv6.Lib

open Function (update update_self update_of_ne)

variable {T L : Type}

def Locked (lock : L → Option T) (holds : T → L → Prop) : Prop := ∀ l t, lock l = some t ↔ holds t l

variable {lock : L → Option T} {holds holds' : T → L → Prop} {t : T} {l : L}

theorem Locked.unique (h : Locked lock holds) {u : T} (ht : holds t l) (hu : holds u l) : t = u :=
  Option.some.inj (((h l t).mpr ht).symm.trans ((h l u).mpr hu))

theorem Locked.not_free (h : Locked lock holds) (ht : holds t l) : lock l ≠ none := by
  rw [(h l t).mpr ht]; nofun

theorem Locked.congr (h : Locked lock holds) (same : ∀ u k, holds' u k ↔ holds u k) : Locked lock holds' :=
  fun k u => (h k u).trans (same u k).symm

variable [DecidableEq L]

theorem Locked.acquire (h : Locked lock holds) (free : lock l = none)
    (own : ∀ k, holds' t k ↔ k = l ∨ holds t k) (other : ∀ u, u ≠ t → ∀ k, holds' u k ↔ holds u k) :
    Locked (update lock l (some t)) holds' := by
  intro k u
  by_cases e : k = l
  · subst e
    rw [update_self]
    by_cases eu : u = t
    · subst eu; simp [own]
    · rw [other u eu, ← h, free]
      exact ⟨fun he => absurd (Option.some.inj he).symm eu, nofun⟩
  · rw [update_of_ne e, h]
    by_cases eu : u = t
    · subst eu; simp [own, e]
    · rw [other u eu]

theorem Locked.release (h : Locked lock holds) (has : holds t l)
    (own : ∀ k, holds' t k ↔ k ≠ l ∧ holds t k) (other : ∀ u, u ≠ t → ∀ k, holds' u k ↔ holds u k) :
    Locked (update lock l none) holds' := by
  intro k u
  by_cases e : k = l
  · subst e
    rw [update_self]
    refine ⟨nofun, fun hu => ?_⟩
    by_cases eu : u = t
    · subst eu; exact absurd rfl ((own k).mp hu).1
    · exact absurd (h.unique ((other u eu k).mp hu) has) eu
  · rw [update_of_ne e, h]
    by_cases eu : u = t
    · subst eu; simp [own, e]
    · rw [other u eu]

theorem Locked.pass (h : Locked lock holds) {u : T} (has : holds t l) (hne : t ≠ u)
    (own : ∀ k, holds' t k ↔ k ≠ l ∧ holds t k) (take : ∀ k, holds' u k ↔ k = l ∨ holds u k)
    (other : ∀ v, v ≠ t → v ≠ u → ∀ k, holds' v k ↔ holds v k) : Locked (update lock l (some u)) holds' := by
  intro k v
  by_cases e : k = l
  · subst e
    rw [update_self]
    by_cases eu : v = u
    · subst eu; simp [take]
    · refine ⟨fun he => absurd (Option.some.inj he).symm eu, fun hv => ?_⟩
      by_cases et : v = t
      · subst et; exact absurd rfl ((own k).mp hv).1
      · exact absurd (h.unique ((other v et eu k).mp hv) has) et
  · rw [update_of_ne e, h]
    by_cases eu : v = u
    · subst eu; simp [take, e]
    · by_cases et : v = t
      · subst et; simp [own, e]
      · rw [other v et eu]

end Xv6.Lib
