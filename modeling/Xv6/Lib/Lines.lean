/-
  Xv6.Lib.Lines — a stream as the lines that a separator ends, and what is left after the last.

  - `lines_induction`: a stream has no separator, or it is a line and another stream.
-/

import Mathlib.Data.List.Basic

namespace Xv6.Lib

variable {α : Type} [DecidableEq α] {x : α} {s l r : List α}

/-- The lines of a stream that end with the separator. -/
def terminated (x : α) (s : List α) : List (List α) := (s.splitOn x).dropLast

/-- What comes after the last separator. -/
def remainder (x : α) (s : List α) : List α := (s.splitOn x).getLastD []

theorem splitOn_of_not_mem (h : x ∉ s) : s.splitOn x = [s] :=
  List.splitOnP_eq_singleton fun _ hy => beq_eq_false_iff_ne.mpr fun e => h (e ▸ hy)

theorem splitOn_line (h : x ∉ l) : (l ++ x :: r).splitOn x = l :: r.splitOn x := by
  have hs : (l ++ x :: r).splitOn x = l.splitOn x ++ r.splitOn x :=
    List.splitOnP_append_cons (p := fun y => y == x) l r (beq_self_eq_true x)
  rw [hs, splitOn_of_not_mem h, List.singleton_append]

theorem terminated_of_not_mem (h : x ∉ s) : terminated x s = [] := by
  rw [terminated, splitOn_of_not_mem h]
  rfl

theorem terminated_line (h : x ∉ l) : terminated x (l ++ x :: r) = l :: terminated x r := by
  rw [terminated, splitOn_line h, List.dropLast_cons_of_ne_nil (List.splitOn_ne_nil x r)]
  rfl

theorem remainder_of_not_mem (h : x ∉ s) : remainder x s = s := by
  rw [remainder, splitOn_of_not_mem h]
  rfl

theorem remainder_line (h : x ∉ l) : remainder x (l ++ x :: r) = remainder x r := by
  obtain ⟨a, as, ha⟩ := List.exists_cons_of_ne_nil (List.splitOn_ne_nil x r)
  rw [remainder, splitOn_line h, remainder, ha]
  rfl

theorem line_cases (x : α) (s : List α) : x ∉ s ∨ ∃ l r, s = l ++ x :: r ∧ x ∉ l := by
  by_cases h : x ∈ s
  · right
    exact List.eq_append_cons_of_mem h
  · left
    exact h

end Xv6.Lib
