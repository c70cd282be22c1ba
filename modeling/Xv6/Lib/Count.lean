/-
  Xv6.Lib.Count — sums and counts over a finite index type when one entry changes.
-/

import Mathlib.Algebra.BigOperators.Group.Finset.Piecewise
import Mathlib.Data.Fintype.Card

namespace Xv6.Lib

open Finset

variable {P α : Type} [Fintype P] [DecidableEq P] {n : Nat}

theorem sum_of_ne {f g : P → Nat} (p : P) (h : ∀ x, x ≠ p → f x = g x) : (∑ x, f x) + g p = (∑ x, g x) + f p := by
  have hrest : ∑ x ∈ univ.erase p, f x = ∑ x ∈ univ.erase p, g x := sum_congr rfl fun x hx => h x (ne_of_mem_erase hx)
  rw [← add_sum_erase _ f (mem_univ p), ← add_sum_erase _ g (mem_univ p), hrest]
  omega

theorem sum_update (g : α → Nat) (f : P → α) (p : P) (v : α) :
    (∑ x, g (Function.update f p v x)) + g (f p) = (∑ x, g (f x)) + g v := by
  have := sum_of_ne (f := fun x => g (Function.update f p v x)) (g := fun x => g (f x)) p
    fun x hx => by rw [Function.update_of_ne hx]
  simpa only [Function.update_self] using this

def count (q : α → Prop) [DecidablePred q] (f : P → α) : Nat := (univ.filter fun x => q (f x)).card

variable (q : α → Prop) [DecidablePred q]

theorem count_update (f : P → α) (p : P) (v : α) :
    count q (Function.update f p v) + (if q (f p) then 1 else 0) = count q f + if q v then 1 else 0 := by
  simp only [count, card_filter]
  exact sum_update (fun a => if q a then 1 else 0) f p v

theorem count_update_table (t : Nat → α) {k : Nat} (hk : k < n) (v : α) :
    count q (fun i : Fin n => Function.update t k v i) + (if q (t k) then 1 else 0) =
      count q (fun i : Fin n => t i) + if q v then 1 else 0 := by
  have e := Function.update_comp_eq_of_injective t Fin.val_injective ⟨k, hk⟩ v
  exact (congrArg (count q · + _) e).trans (count_update q (fun i : Fin n => t i) ⟨k, hk⟩ v)

variable {q}

omit [DecidableEq P] in
theorem count_congr {f f' : P → α} (h : ∀ x, q (f x) ↔ q (f' x)) : count q f = count q f' := by
  simp only [count, h]

omit [DecidableEq P] in
theorem count_le_card {f : P → α} : count q f ≤ Fintype.card P := card_le_univ _

omit [DecidableEq P] in
theorem count_eq_zero {f : P → α} : count q f = 0 ↔ ∀ x, ¬ q (f x) := by
  simp [count, filter_eq_empty_iff]

omit [DecidableEq P] in
theorem count_pos {f : P → α} : 0 < count q f ↔ ∃ x, q (f x) := by
  rw [Nat.pos_iff_ne_zero, Ne, count_eq_zero]
  simp

end Xv6.Lib
