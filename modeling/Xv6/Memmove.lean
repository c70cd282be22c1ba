/-
  Xv6.Memmove — the two `memmove`s (kernel/string.c, user/ulib.c).

  Both copy byte by byte, upwards or downwards, and choose the direction by different tests: the
  kernel goes down when the destination starts inside the source, the user library whenever the
  source does not start above the destination. A pointer is an offset into the memory; one past
  its end is a pointer too, so `s + n` does not wrap.
-/

import Xv6.Str

namespace Xv6.Memmove

open Function (update update_self update_of_ne)
open Str (Mem)

/-- `while(n-- > 0) *d++ = *s++;` -/
def forward : Nat → Nat → Nat → Mem → Mem
  | 0, _, _, m => m
  | n + 1, d, s, m => forward n (d + 1) (s + 1) (update m d (m s))

/-- `while(n-- > 0) *--d = *--s;` -/
def backward : Nat → Nat → Nat → Mem → Mem
  | 0, _, _, m => m
  | n + 1, d, s, m => backward n (d - 1) (s - 1) (update m (d - 1) (m (s - 1)))

namespace Kernel

/-- The pointer it returns, and the memory. -/
def memmove (m : Mem) (dst src n : Nat) : Nat × Mem :=
  if n = 0 then (dst, m)
  else if src < dst ∧ src + n > dst then (dst, backward n (dst + n) (src + n) m)
  else (dst, forward n dst src m)

end Kernel

namespace User

/-- The count is an `int`; a loop `while(n-- > 0)` does nothing if it is negative. -/
def memmove (m : Mem) (vdst vsrc : Nat) (n : Int) : Nat × Mem :=
  if vsrc > vdst then (vdst, forward n.toNat vdst vsrc m)
  else (vdst, backward n.toNat (vdst + n).toNat (vsrc + n).toNat m)

end User

/-! ## One simultaneous copy -/

/-- Every byte of the destination is the byte the source had; every other byte is as it was. -/
def moved (m : Mem) (dst src n : Nat) : Mem :=
  fun a => if dst ≤ a ∧ a < dst + n then m (src + (a - dst)) else m a

variable {m : Mem} {dst src n a : Nat}

theorem moved_in (h1 : dst ≤ a) (h2 : a < dst + n) : moved m dst src n a = m (src + (a - dst)) := if_pos ⟨h1, h2⟩

theorem moved_out (h : ¬ (dst ≤ a ∧ a < dst + n)) : moved m dst src n a = m a := if_neg h

theorem moved_zero : moved m dst src 0 = m := by
  funext a
  apply moved_out
  omega

/-- The upward loop never writes a byte it still has to read, when the destination starts at or
below the source, or past its end. -/
theorem forward_eq (h : dst ≤ src ∨ src + n ≤ dst) : forward n dst src m = moved m dst src n := by
  induction n generalizing dst src m with
  | zero => exact moved_zero.symm
  | succ n ih =>
    rw [forward, ih (by omega)]
    funext a
    by_cases h0 : a = dst
    · -- the byte of this round is below those of the rounds that follow
      rw [h0, moved_out (by omega), moved_in (Nat.le_refl _) (by omega), update_self, Nat.sub_self, Nat.add_zero]
    · by_cases hin : dst ≤ a ∧ a < dst + (n + 1)
      · rw [moved_in (by omega) (by omega), moved_in hin.1 hin.2, update_of_ne (by omega)]
        congr 1
        omega
      · rw [moved_out (by omega), moved_out hin, update_of_ne h0]

/-- The downward loop, when the destination does not start below the source. -/
theorem backward_eq (h : src ≤ dst) : backward n (dst + n) (src + n) m = moved m dst src n := by
  induction n generalizing m with
  | zero => exact moved_zero.symm
  | succ n ih =>
    change backward n (dst + n) (src + n) (update m (dst + n) (m (src + n))) = _
    rw [ih]
    funext a
    by_cases h0 : a = dst + n
    · rw [h0, moved_out (by omega), moved_in (by omega) (by omega), update_self, Nat.add_sub_cancel_left]
    · by_cases hin : dst ≤ a ∧ a < dst + (n + 1)
      · rw [moved_in (by omega) (by omega), moved_in hin.1 hin.2, update_of_ne (by omega)]
      · rw [moved_out (by omega), moved_out hin, update_of_ne h0]

theorem kernel_memmove_eq : Kernel.memmove m dst src n = (dst, moved m dst src n) := by
  unfold Kernel.memmove
  split
  · rename_i h
    rw [h, moved_zero]
  · split
    · rename_i h
      rw [backward_eq (by omega)]
    · rw [forward_eq (by omega)]

theorem user_memmove_eq : User.memmove m dst src n = (dst, moved m dst src n) := by
  unfold User.memmove
  rw [Int.toNat_natCast, ← Int.natCast_add, ← Int.natCast_add, Int.toNat_natCast, Int.toNat_natCast]
  split
  · rw [forward_eq (by omega)]
  · rw [backward_eq (by omega)]

/-- Both leave the old source in the destination and everything else as it was, and so agree. -/
theorem memmove_simultaneous (m : Mem) (dst src n : Nat) :
    (∀ i < n, (Kernel.memmove m dst src n).2 (dst + i) = m (src + i) ∧
      (User.memmove m dst src n).2 (dst + i) = m (src + i)) ∧
    (∀ a, (∀ i < n, a ≠ dst + i) →
      (Kernel.memmove m dst src n).2 a = m a ∧ (User.memmove m dst src n).2 a = m a) ∧
    Kernel.memmove m dst src n = User.memmove m dst src n := by
  rw [kernel_memmove_eq, user_memmove_eq]
  refine ⟨?_, ?_, rfl⟩
  · intro i hi
    have h : moved m dst src n (dst + i) = m (src + i) := by
      rw [moved_in (by omega) (by omega), Nat.add_sub_cancel_left]
    exact ⟨h, h⟩
  · intro a ha
    have h : moved m dst src n a = m a := by
      apply moved_out
      intro hin
      exact ha (a - dst) (by omega) (by omega)
    exact ⟨h, h⟩

end Xv6.Memmove
