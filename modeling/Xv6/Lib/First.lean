/-
  Xv6.Lib.First — the first index of a range that satisfies a test: how a table or a bitmap
  is searched for a free entry.
-/

namespace Xv6.Lib

/-- The first `i` with `b ≤ i < b + n` and `p i`. -/
def first (p : Nat → Bool) : Nat → Nat → Option Nat
  | _, 0 => none
  | b, n + 1 => if p b then some b else first p (b + 1) n

variable {p : Nat → Bool} {b n i : Nat}

theorem first_some (h : first p b n = some i) : b ≤ i ∧ i < b + n ∧ p i = true ∧ ∀ j, b ≤ j → j < i → p j = false := by
  induction n generalizing b with
  | zero => cases h
  | succ n ih =>
    rw [first] at h
    split at h
    · rename_i hp
      cases h
      exact ⟨Nat.le_refl _, by omega, hp, fun j h1 h2 => by omega⟩
    · rename_i hp
      obtain ⟨h1, h2, h3, h4⟩ := ih h
      refine ⟨by omega, by omega, h3, fun j hj hji => ?_⟩
      rcases Nat.eq_or_lt_of_le hj with rfl | hj
      · simpa using hp
      · exact h4 j hj hji

theorem first_none (h : first p b n = none) : ∀ j, b ≤ j → j < b + n → p j = false := by
  induction n generalizing b with
  | zero => intro j h1 h2; omega
  | succ n ih =>
    rw [first] at h
    split at h
    · cases h
    · rename_i hp
      intro j hj hjn
      rcases Nat.eq_or_lt_of_le hj with rfl | hj
      · simpa using hp
      · exact ih h j hj (by omega)

end Xv6.Lib
