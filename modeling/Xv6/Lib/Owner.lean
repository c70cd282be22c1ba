/-
  Xv6.Lib.Owner — resources numbered `lo .. hi - 1`, a mark on those in use, and places that
  each own one of them (`f p`) or none (`f p = 0`).

  `Owned lo hi f used`: no two places own one resource, what a place owns is in the range,
  and a resource of the range is marked exactly when some place owns it. Giving an unmarked
  resource to an empty place (`give`) and taking one back (`drop`) keep it.
-/

import Mathlib.Logic.Function.Basic

namespace Xv6.Lib

open Function (update update_self update_of_ne)

variable {ι : Type}

structure Owned (lo hi : Nat) (f : ι → Nat) (used : Nat → Bool) : Prop where
  range : ∀ p, f p ≠ 0 → lo ≤ f p ∧ f p < hi
  inj : ∀ p q, f p ≠ 0 → f p = f q → p = q
  used_iff : ∀ b, lo ≤ b → b < hi → (used b = true ↔ ∃ p, f p = b)

namespace Owned

variable {lo hi : Nat} {f : ι → Nat} {used used' : Nat → Bool}

theorem used_of (h : Owned lo hi f used) {p : ι} (hp : f p ≠ 0) : used (f p) = true :=
  (h.used_iff _ (h.range p hp).1 (h.range p hp).2).mpr ⟨p, rfl⟩

theorem ne_of_unused (h : Owned lo hi f used) {b : Nat} (hb : used b = false) {p : ι} (hp : f p ≠ 0) : f p ≠ b := by
  rintro rfl
  rw [h.used_of hp] at hb
  cases hb

theorem congr_used (h : Owned lo hi f used) (hu : ∀ b, lo ≤ b → b < hi → used' b = used b) : Owned lo hi f used' :=
  ⟨h.range, h.inj, fun b h1 h2 => by rw [hu b h1 h2]; exact h.used_iff b h1 h2⟩

variable [DecidableEq ι]

theorem give (h : Owned lo hi f used) {p : ι} {b : Nat} (h0 : 0 < lo) (hp : f p = 0) (hlo : lo ≤ b) (hhi : b < hi)
    (hb : used b = false) : Owned lo hi (update f p b) (update used b true) := by
  have hne : ∀ q, q ≠ p → f q ≠ b := by
    intro q _ e
    have hq : f q ≠ 0 := by omega
    exact h.ne_of_unused hb hq e
  refine ⟨fun q hq => ?_, fun q r hq e => ?_, fun c h1 h2 => ?_⟩
  · rcases eq_or_ne q p with rfl | hqp
    · rw [update_self]; exact ⟨hlo, hhi⟩
    · rw [update_of_ne hqp] at hq ⊢; exact h.range q hq
  · rcases eq_or_ne q p with rfl | hqp <;> rcases eq_or_ne r q with rfl | hrq
    · rfl
    · rw [update_self, update_of_ne hrq] at e
      exact absurd e.symm (hne r hrq)
    · rfl
    · rcases eq_or_ne r p with rfl | hrp
      · rw [update_self, update_of_ne hqp] at e
        exact absurd e (hne q hqp)
      · rw [update_of_ne hqp] at hq e
        rw [update_of_ne hrp] at e
        exact h.inj q r hq e
  · rcases eq_or_ne c b with rfl | hcb
    · simp only [update_self, true_iff]
      exact ⟨p, update_self ..⟩
    · rw [update_of_ne hcb, h.used_iff c h1 h2]
      constructor
      · rintro ⟨q, rfl⟩
        have hqp : q ≠ p := by rintro rfl; omega
        exact ⟨q, update_of_ne hqp ..⟩
      · rintro ⟨q, hq⟩
        rcases eq_or_ne q p with rfl | hqp
        · rw [update_self] at hq; exact absurd hq.symm hcb
        · rw [update_of_ne hqp] at hq; exact ⟨q, hq⟩

/-- The resources are handed out in order, and the next one goes to an empty place. -/
theorem give_next {n : Nat} (h : Owned lo hi f fun b => decide (b < n)) {p : ι} (h0 : 0 < lo) (hp : f p = 0) (hlo : lo ≤ n)
    (hhi : n < hi) : Owned lo hi (update f p n) fun b => decide (b < n + 1) := by
  refine (h.give h0 hp hlo hhi (by simp)).congr_used fun b _ _ => ?_
  by_cases e : b = n
  · rw [e, update_self]
    simp
  · rw [update_of_ne e, decide_eq_decide]
    omega

theorem drop (h : Owned lo hi f used) {p : ι} (h0 : 0 < lo) (hp : f p ≠ 0) :
    Owned lo hi (update f p 0) (update used (f p) false) := by
  have hq0 : ∀ q, update f p 0 q ≠ 0 → q ≠ p ∧ update f p 0 q = f q := by
    intro q hq
    rcases eq_or_ne q p with rfl | hqp
    · exact absurd (update_self ..) hq
    · exact ⟨hqp, update_of_ne hqp ..⟩
  refine ⟨fun q hq => ?_, fun q r hq e => ?_, fun c h1 h2 => ?_⟩
  · have e := (hq0 q hq).2
    rw [e] at hq ⊢; exact h.range q hq
  · have hr : update f p 0 r ≠ 0 := e ▸ hq
    have eq := (hq0 q hq).2
    rw [eq, (hq0 r hr).2] at e
    exact h.inj q r (eq ▸ hq) e
  · rcases eq_or_ne c (f p) with rfl | hcb
    · simp only [update_self, Bool.false_eq_true, false_iff, not_exists]
      intro q e
      have hq : update f p 0 q ≠ 0 := e ▸ hp
      obtain ⟨hqp, hq'⟩ := hq0 q hq
      exact hqp (h.inj q p (hq' ▸ hq) (hq' ▸ e))
    · rw [update_of_ne hcb, h.used_iff c h1 h2]
      constructor
      · rintro ⟨q, rfl⟩
        have hqp : q ≠ p := by rintro rfl; exact hcb rfl
        exact ⟨q, update_of_ne hqp ..⟩
      · rintro ⟨q, hq⟩
        have hq' : update f p 0 q ≠ 0 := by omega
        exact ⟨q, (hq0 q hq').2 ▸ hq⟩

end Owned

end Xv6.Lib
