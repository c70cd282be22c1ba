/-
  Xv6.Str — strings in memory (kernel/string.c: strncmp, strncpy), byte by byte.

  `cstr p n` is the string at `p` that ends at a 0 or after `n` bytes; the fixed-size names of
  directories are such strings.
-/

import Mathlib.Data.List.GetD
import Mathlib.Logic.Function.Basic

namespace Xv6.Str

abbrev Mem := Nat → UInt8

/-- The string `l` in memory, with its NUL. -/
def mem (l : List UInt8) : Mem := fun k => l.getD k 0

def strncmp (p q : Mem) : Nat → Nat → Int
  | _, 0 => 0
  | k, n + 1 => if p k ≠ 0 ∧ p k = q k then strncmp p q (k + 1) n else (p k).toNat - (q k).toNat

/-- The loop of `strncpy` that writes zeroes, `n` of them from `s + k` on. -/
def zeroFrom (s : Mem) : Nat → Nat → Mem
  | _, 0 => s
  | k, n + 1 => zeroFrom (Function.update s k 0) (k + 1) n

def strncpy (t s : Mem) : Nat → Nat → Mem
  | _, 0 => s
  | k, n + 1 =>
    if t k ≠ 0 then strncpy t (Function.update s k (t k)) (k + 1) n
    else zeroFrom (Function.update s k (t k)) (k + 1) n

/-- The string at `p + k`, of at most `n` bytes. -/
def cstr (p : Mem) : Nat → Nat → List UInt8
  | _, 0 => []
  | k, n + 1 => if p k ≠ 0 then p k :: cstr p (k + 1) n else []

variable {p q s t : Mem} {k n m : Nat}

theorem length_cstr_le : (cstr p k n).length ≤ n := by
  induction n generalizing k with
  | zero => exact Nat.le_refl 0
  | succ n ih =>
    unfold cstr
    split
    · exact Nat.succ_le_succ ih
    · exact Nat.zero_le _

theorem zero_not_mem_cstr : 0 ∉ cstr p k n := by
  induction n generalizing k with
  | zero => exact List.not_mem_nil
  | succ n ih =>
    unfold cstr
    split
    · rename_i h
      rw [List.mem_cons]
      rintro (h' | h')
      · exact h h'.symm
      · exact ih h'
    · exact List.not_mem_nil

theorem cstr_congr (h : ∀ o, k ≤ o → o < k + n → p o = q o) : cstr p k n = cstr q k n := by
  induction n generalizing k with
  | zero => rfl
  | succ n ih =>
    unfold cstr
    rw [h k (Nat.le_refl k) (by omega), ih fun o h1 h2 => h o (by omega) (by omega)]

theorem cstr_mem {l : List UInt8} (h : 0 ∉ l) : cstr (mem l) k n = (l.drop k).take n := by
  induction n generalizing k with
  | zero => rfl
  | succ n ih =>
    unfold cstr
    by_cases hk : k < l.length
    · have hbyte : mem l k = l[k] := List.getD_eq_getElem _ _ hk
      have hne : l[k] ≠ 0 := fun e => h (e ▸ List.getElem_mem hk)
      rw [hbyte, if_pos hne, ih, List.drop_eq_getElem_cons hk, List.take_succ_cons]
    · have hbyte : mem l k = 0 := List.getD_eq_default _ _ (Nat.le_of_not_lt hk)
      rw [hbyte, if_neg (not_not.mpr rfl), List.drop_eq_nil_of_le (Nat.le_of_not_lt hk), List.take_nil]

theorem strncmp_eq_zero : strncmp p q k n = 0 ↔ cstr p k n = cstr q k n := by
  induction n generalizing k with
  | zero => exact iff_of_true rfl rfl
  | succ n ih =>
    unfold strncmp cstr
    by_cases h : p k ≠ 0 ∧ p k = q k
    · rw [if_pos h, if_pos h.1, if_pos (h.2 ▸ h.1), ih, ← h.2, List.cons_inj_right]
    · rw [if_neg h]
      -- the bytes differ, or both strings end here
      have hbyte : ((p k).toNat : Int) - (q k).toNat = 0 ↔ p k = q k := by
        rw [Int.sub_eq_zero, Int.ofNat_inj, UInt8.toNat_inj]
      rw [hbyte]
      by_cases hp : p k = 0
      · by_cases hq : q k = 0
        · exact iff_of_true (hp.trans hq.symm) (by rw [if_neg (not_not.mpr hp), if_neg (not_not.mpr hq)])
        · refine iff_of_false (fun e => hq (e ▸ hp)) ?_
          rw [if_neg (not_not.mpr hp), if_pos hq]
          exact (List.cons_ne_nil _ _).symm
      · have hne : p k ≠ q k := fun e => h ⟨hp, e⟩
        refine iff_of_false hne ?_
        rw [if_pos hp]
        split
        · exact fun e => hne (List.cons.inj e).1
        · exact List.cons_ne_nil _ _

theorem zeroFrom_apply (o : Nat) : zeroFrom s k n o = if k ≤ o ∧ o < k + n then 0 else s o := by
  induction n generalizing k s with
  | zero => rw [zeroFrom, if_neg (by omega)]
  | succ n ih =>
    rw [zeroFrom, ih]
    by_cases e : o = k
    · subst e
      rw [Function.update_self, if_neg (by omega), if_pos (by omega)]
    · rw [Function.update_of_ne e]
      by_cases ho : k ≤ o ∧ o < k + (n + 1)
      · rw [if_pos ho, if_pos (by omega)]
      · rw [if_neg ho, if_neg (by omega)]

theorem strncpy_apply (o : Nat) : strncpy t s k n o = if k ≤ o ∧ o < k + n then (cstr t k n).getD (o - k) 0 else s o := by
  induction n generalizing k s with
  | zero => rw [strncpy, if_neg (by omega)]
  | succ n ih =>
    unfold strncpy cstr
    by_cases h0 : t k ≠ 0
    · rw [if_pos h0, if_pos h0, ih]
      by_cases e : o = k
      · subst e
        rw [Function.update_self, if_neg (by omega), if_pos (by omega), Nat.sub_self, List.getD_cons_zero]
      · rw [Function.update_of_ne e]
        by_cases ho : k ≤ o ∧ o < k + (n + 1)
        · rw [if_pos ho, if_pos (by omega), show o - k = o - (k + 1) + 1 by omega, List.getD_cons_succ]
        · rw [if_neg ho, if_neg (by omega)]
    · rw [if_neg h0, if_neg h0, List.getD_nil, not_not.mp h0]
      exact zeroFrom_apply (n := n + 1) o

end Xv6.Str
