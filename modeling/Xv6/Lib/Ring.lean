/-
  Xv6.Lib.Ring — a ring of `n` entries between a producer and a consumer, with free-running
  `w`-bit indices: the producer stores at its index modulo `n` and then advances it; the
  entries from the consumer's index up to the producer's are pending.

  `n` divides `2 ^ w`, so an index modulo `n` goes on evenly when the index wraps.
-/

import Mathlib.Algebra.Group.Nat.Defs
import Mathlib.Data.List.Basic

namespace Xv6.Lib

variable {α : Type} {w n : Nat} {r : Nat → α} {i j : BitVec w}

/-- The entries stored and not yet taken, oldest first. -/
def pending (r : Nat → α) (n : Nat) (i j : BitVec w) : List α :=
  (List.range (j - i).toNat).map fun k => r ((i.toNat + k) % n)

theorem pending_length : (pending r n i j).length = (j - i).toNat := by simp [pending]

theorem pending_self : pending r n i i = [] := by simp [pending]

theorem ring_index (i j : BitVec w) : j.toNat = (i.toNat + (j - i).toNat) % 2 ^ w := by
  rw [← BitVec.toNat_add]
  congr 1
  rw [BitVec.add_comm, BitVec.sub_add_cancel]

theorem ring_slot (hd : n ∣ 2 ^ w) (i j : BitVec w) : j.toNat % n = (i.toNat + (j - i).toNat) % n := by
  rw [ring_index i j, Nat.mod_mod_of_dvd _ hd]

theorem ring_slot_ne (hd : n ∣ 2 ^ w) (h : (j - i).toNat < n) {k : Nat} (hk : k < (j - i).toNat) :
    (i.toNat + k) % n ≠ j.toNat % n := by
  rw [ring_slot hd i j]
  intro e
  have h1 := Nat.div_add_mod (i.toNat + k) n
  have h2 := Nat.div_add_mod (i.toNat + (j - i).toNat) n
  rw [e] at h1
  rcases Nat.lt_trichotomy ((i.toNat + k) / n) ((i.toNat + (j - i).toNat) / n) with hq | hq | hq
  · have := Nat.mul_le_mul_left n hq
    rw [Nat.mul_succ] at this
    omega
  · rw [hq] at h1; omega
  · have := Nat.mul_le_mul_left n hq
    rw [Nat.mul_succ] at this
    omega

theorem ring_advance (h : (j - i).toNat + 1 < 2 ^ w) : (j + 1 - i).toNat = (j - i).toNat + 1 := by
  have e : j + 1 - i = (j - i) + 1 := by
    rw [BitVec.sub_eq_add_neg, BitVec.sub_eq_add_neg, BitVec.add_assoc, BitVec.add_assoc, BitVec.add_comm 1 (-i)]
  have h1 : (1 : BitVec w).toNat = 1 := by
    have : 1 < 2 ^ w := by omega
    simp [Nat.mod_eq_of_lt this]
  rw [e, BitVec.toNat_add, h1, Nat.mod_eq_of_lt h]

theorem pending_store (hd : n ∣ 2 ^ w) (h : (j - i).toNat < n) (x : α) :
    pending (Function.update r (j.toNat % n) x) n i j = pending r n i j := by
  refine List.map_congr_left fun k hk => ?_
  exact Function.update_of_ne (ring_slot_ne hd h (List.mem_range.mp hk)) ..

/-- Once the producer advances its index, what it has stored there is pending, last. -/
theorem pending_push (hd : n ∣ 2 ^ w) (h : (j - i).toNat + 1 < 2 ^ w) :
    pending r n i (j + 1) = pending r n i j ++ [r (j.toNat % n)] := by
  rw [pending, ring_advance h, List.range_succ, List.map_append, List.map_singleton, ← ring_slot hd i j, pending]

theorem ring_pos (h : i ≠ j) : 0 < (j - i).toNat := by
  refine Nat.pos_of_ne_zero fun h0 => h ?_
  have h0 : j - i = 0#w := BitVec.eq_of_toNat_eq (by simpa using h0)
  rw [← BitVec.sub_add_cancel j i, h0, BitVec.zero_add]

theorem toNat_one {x : BitVec w} (h : 0 < x.toNat) : (1 : BitVec w).toNat = 1 := by
  have := x.isLt
  simp [Nat.mod_eq_of_lt (show 1 < 2 ^ w by omega)]

theorem toNat_pred {x : BitVec w} (h : 0 < x.toNat) : (x - 1).toNat = x.toNat - 1 := by
  have h1 := toNat_one h
  rw [BitVec.toNat_sub_of_le (by rw [BitVec.le_def, h1]; exact h), h1]

theorem pending_pop (hd : n ∣ 2 ^ w) (h : i ≠ j) :
    pending r n i j = r (i.toNat % n) :: pending r n (i + 1) j := by
  have hpos := ring_pos h
  have h1 := toNat_one hpos
  have e : j - (i + 1) = (j - i) - 1 := by
    rw [BitVec.sub_eq_add_neg, BitVec.sub_eq_add_neg, BitVec.sub_eq_add_neg, BitVec.neg_add, BitVec.sub_eq_add_neg,
      BitVec.add_assoc]
  have hlen : (j - (i + 1)).toNat = (j - i).toNat - 1 := by rw [e, toNat_pred hpos]
  obtain ⟨m, hm⟩ : ∃ m, (j - i).toNat = m + 1 := ⟨_, (Nat.succ_pred_eq_of_pos hpos).symm⟩
  rw [pending, pending, hlen, hm, List.range_succ_eq_map, List.map_cons, List.map_map, Nat.add_zero, Nat.add_sub_cancel]
  congr 1
  refine List.map_congr_left fun k _ => ?_
  show r ((i.toNat + (k + 1)) % n) = r (((i + 1).toNat + k) % n)
  rw [BitVec.toNat_add, h1, Nat.add_mod ((i.toNat + 1) % 2 ^ w) k n, Nat.mod_mod_of_dvd _ hd, ← Nat.add_mod,
    Nat.add_right_comm, Nat.add_assoc]

/-! ## A third index between the two, and taking back -/

theorem ring_split (i m j : BitVec w) : j - i = (m - i) + (j - m) := by
  rw [BitVec.add_comm, BitVec.sub_eq_add_neg, BitVec.sub_eq_add_neg, BitVec.sub_eq_add_neg, BitVec.add_assoc,
    ← BitVec.add_assoc (-m), BitVec.add_left_neg, BitVec.zero_add]

theorem ring_between {m : BitVec w} (h : (m - i).toNat + (j - m).toNat < 2 ^ w) :
    (j - i).toNat = (m - i).toNat + (j - m).toNat := by
  rw [ring_split i m j, BitVec.toNat_add, Nat.mod_eq_of_lt h]

theorem ring_left {m : BitVec w} (h : (m - i).toNat ≤ (j - i).toNat) : (j - m).toNat = (j - i).toNat - (m - i).toNat := by
  have e : j - m = (j - i) - (m - i) := by rw [ring_split i m j, BitVec.add_comm, BitVec.add_sub_cancel]
  rw [e, BitVec.toNat_sub_of_le h]

theorem pending_between {m : BitVec w} (hd : n ∣ 2 ^ w) (h : (m - i).toNat + (j - m).toNat < 2 ^ w) :
    pending r n i j = pending r n i m ++ pending r n m j := by
  rw [pending, ring_between h, List.range_add, List.map_append, List.map_map]
  congr 1
  refine List.map_congr_left fun k _ => congrArg r ?_
  show (i.toNat + ((m - i).toNat + k)) % n = (m.toNat + k) % n
  rw [← Nat.add_assoc, Nat.add_mod, ← ring_slot hd i m, ← Nat.add_mod]

theorem pending_unpush (hd : n ∣ 2 ^ w) (h : i ≠ j) :
    (j - 1 - i).toNat + 1 = (j - i).toNat ∧ pending r n i j = pending r n i (j - 1) ++ [r ((j - 1).toNat % n)] := by
  have hpos := ring_pos h
  have e : j - 1 - i = j - i - 1 := by
    rw [BitVec.sub_eq_add_neg, BitVec.sub_eq_add_neg, BitVec.sub_eq_add_neg, BitVec.sub_eq_add_neg, BitVec.add_assoc,
      BitVec.add_comm (-1), BitVec.add_assoc]
  have hlen : (j - 1 - i).toNat + 1 = (j - i).toNat := by
    rw [e, toNat_pred hpos]
    omega
  have hpush := pending_push (r := r) hd (hlen ▸ (j - i).isLt)
  rw [BitVec.sub_add_cancel] at hpush
  exact ⟨hlen, hpush⟩

end Xv6.Lib
