/-
  Xv6.Lib.Bytes — numbers as bytes, the least significant first.
-/

import Mathlib.Data.Nat.Basic
import Mathlib.Tactic.Ring

namespace Xv6.Lib

def ofBytes : Nat → (Nat → UInt8) → Nat
  | 0, _ => 0
  | n + 1, f => (f 0).toNat + 256 * ofBytes n fun k => f (k + 1)

def byteAt (v k : Nat) : UInt8 := UInt8.ofNat (v / 256 ^ k)

theorem ofBytes_congr {n : Nat} {f g : Nat → UInt8} (h : ∀ k < n, f k = g k) : ofBytes n f = ofBytes n g := by
  induction n generalizing f g with
  | zero => rfl
  | succ n ih =>
    rw [ofBytes, ofBytes, h 0 (Nat.succ_pos n), ih fun k hk => h (k + 1) (by omega)]

theorem ofBytes_byteAt (n v : Nat) : ofBytes n (byteAt v) = v % 256 ^ n := by
  induction n generalizing v with
  | zero => rw [Nat.pow_zero, Nat.mod_one]; rfl
  | succ n ih =>
    have hnext : (fun k => byteAt v (k + 1)) = byteAt (v / 256) := by
      funext k
      rw [byteAt, byteAt, Nat.div_div_eq_div_mul, Nat.pow_succ, Nat.mul_comm]
    have h0 : (byteAt v 0).toNat = v % 256 := by
      rw [byteAt, Nat.pow_zero, Nat.div_one, UInt8.toNat_ofNat']
    rw [ofBytes, hnext, ih, h0, Nat.pow_succ, Nat.mul_comm (256 ^ n), Nat.mod_mul]

theorem ofBytes_zero (n : Nat) : ofBytes n (fun _ => 0) = 0 := by
  induction n with
  | zero => rfl
  | succ n ih => rw [ofBytes, ih]; rfl

end Xv6.Lib
