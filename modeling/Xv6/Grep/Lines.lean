/-
  Xv6.Grep.Lines — the lines that grep prints (user/grep.c: grep).

  The buffer is the list of its `m` bytes; `input` is what is still to be read. Each call of
  `read` gives as many bytes as it likes, at least one while there are any and there is room:
  `size k` is what call `k` would give.
-/

import Xv6.Grep.Match
import Xv6.Lib.Lines

namespace Xv6.Grep

def newline : UInt8 := 0x0a

def bufsize : Nat := 1024

def strchr : List UInt8 → Option (List UInt8 × List UInt8)
  | [] => none
  | c :: p => if c = 0 then none else if c = newline then some ([], p) else (strchr p).map fun x => (c :: x.1, x.2)

def print (re line : List UInt8) : List UInt8 := if match_ re line then line ++ [newline] else []

/-- The inner loop, for at most `n` lines: what is written, and the rest from `p` on. -/
def scan (re : List UInt8) : Nat → List UInt8 → List UInt8 × List UInt8
  | 0, p => ([], p)
  | n + 1, p =>
    match strchr p with
    | none => ([], p)
    | some (line, q) => (print re line ++ (scan re n q).1, (scan re n q).2)

/-- The outer loop from call `k` of `read` on, for at most `n` calls: what is written. -/
def grepFrom (re : List UInt8) (size : Nat → Nat) : Nat → Nat → List UInt8 → List UInt8 → List UInt8
  | 0, _, _, _ => []
  | n + 1, k, buf, input =>
    let got := input.take (min (max 1 (size k)) (bufsize - buf.length - 1))
    if got = [] then []
    else
      let (out, rest) := scan re (buf.length + got.length) (buf ++ got)
      out ++ grepFrom re size n (k + 1) rest (input.drop got.length)

def grep (re : List UInt8) (size : Nat → Nat) (input : List UInt8) : List UInt8 :=
  grepFrom re size (input.length + 1) 0 [] input

/-! ## Lines -/

def lines (s : List UInt8) : List (List UInt8) := Lib.terminated newline s

/-- The lines that match, each with its newline. -/
def matching (re : List UInt8) (ls : List (List UInt8)) : List UInt8 := ls.flatMap (print re)

/-- The line and its newline fit in the buffer, and `strchr` sees its end. -/
def Fits (line : List UInt8) : Prop := line.length + 1 < bufsize ∧ 0 ∉ line

instance (line : List UInt8) : Decidable (Fits line) := inferInstanceAs (Decidable (_ ∧ _))

/-! ## The inner loop -/

variable {re l p q : List UInt8}

theorem strchr_some (h : strchr p = some (l, q)) : p = l ++ newline :: q ∧ newline ∉ l ∧ 0 ∉ l := by
  induction p generalizing l with
  | nil => cases h
  | cons c p ih =>
    simp only [strchr] at h
    split at h
    · cases h
    · rename_i h0
      split at h
      · rename_i hc
        cases h
        exact ⟨by rw [hc]; rfl, List.not_mem_nil, List.not_mem_nil⟩
      · rename_i hc
        obtain ⟨⟨l', q'⟩, hp, hx⟩ := Option.map_eq_some_iff.mp h
        cases hx
        obtain ⟨h1, h2, h3⟩ := ih hp
        refine ⟨by rw [h1]; rfl, ?_, ?_⟩
        · intro hm
          cases hm with
          | head => exact hc rfl
          | tail _ hm => exact h2 hm
        · intro hm
          cases hm with
          | head => exact h0 rfl
          | tail _ hm => exact h3 hm

theorem strchr_append (hl : newline ∉ l) (h0 : 0 ∉ l) : strchr (l ++ newline :: q) = some (l, q) := by
  induction l with
  | nil => rfl
  | cons c l ih =>
    rw [List.mem_cons, not_or] at hl h0
    have hc : c ≠ 0 := fun e => h0.1 e.symm
    have hn : c ≠ newline := fun e => hl.1 e.symm
    simp only [List.cons_append, strchr, if_neg hc, if_neg hn, ih hl.2 h0.2, Option.map_some]

/-- What the inner loop has done: it has cut off the lines `ls`, and `strchr` finds no other. -/
structure Scanned (re p : List UInt8) (r : List UInt8 × List UInt8) (ls : List (List UInt8)) : Prop where
  split : ∀ input, lines (p ++ input) = ls ++ lines (r.2 ++ input)
  written : r.1 = matching re ls
  fits : p.length < bufsize → ∀ l ∈ ls, Fits l
  rest : strchr r.2 = none
  length : r.2.length ≤ p.length

theorem scanned (re : List UInt8) {n : Nat} (hn : p.length ≤ n) : ∃ ls, Scanned re p (scan re n p) ls := by
  induction n generalizing p with
  | zero =>
    cases List.eq_nil_of_length_eq_zero (Nat.le_zero.mp hn)
    exact ⟨[], fun _ => rfl, rfl, fun _ l hl => absurd hl List.not_mem_nil, rfl, le_rfl⟩
  | succ n ih =>
    unfold scan
    cases hc : strchr p with
    | none => exact ⟨[], fun _ => rfl, rfl, fun _ l hl => absurd hl List.not_mem_nil, hc, le_rfl⟩
    | some lq =>
      obtain ⟨l, q⟩ := lq
      obtain ⟨hp, hl, h0⟩ := strchr_some hc
      have hlen : p.length = l.length + (q.length + 1) := by rw [hp, List.length_append, List.length_cons]
      obtain ⟨ls, h⟩ := ih (p := q) (by omega)
      refine ⟨l :: ls, ?_, ?_, ?_, h.rest, ?_⟩
      · intro input
        simp only [hp, List.append_assoc, List.cons_append, lines, Lib.terminated_line hl]
        exact congrArg (l :: ·) (h.split input)
      · simp only [h.written, matching, List.flatMap_cons]
      · intro hb l' hl'
        cases hl' with
        | head => exact ⟨by omega, h0⟩
        | tail _ hl' => exact h.fits (by omega) l' hl'
      · have := h.length
        simp only
        omega

/-! ## The outer loop -/

/-- Where the loop stops, no line is left that it could still print: the first one does not fit. -/
theorem takeWhile_fits_stuck {buf input : List UInt8} (hc : strchr buf = none) (h : input = [] ∨ bufsize ≤ buf.length + 1) :
    (lines (buf ++ input)).takeWhile (fun l => Fits l) = [] := by
  obtain hn | ⟨l, r, hs, hl⟩ := Lib.line_cases newline (buf ++ input)
  · rw [lines, Lib.terminated_of_not_mem hn]
    rfl
  · rw [hs, lines, Lib.terminated_line hl, List.takeWhile_cons_of_neg]
    intro hf
    obtain ⟨hlen, h0⟩ := of_decide_eq_true hf
    -- the line and its newline would lie in the buffer
    have hle : l.length + 1 ≤ buf.length := by
      cases h with
      | inl h =>
        have := congrArg List.length hs
        simp only [h, List.length_append, List.length_cons, List.length_nil] at this
        omega
      | inr h => omega
    have hpre : l ++ [newline] <+: buf := by
      have hline : l ++ [newline] <+: buf ++ input := ⟨r, by rw [hs]; simp⟩
      apply List.prefix_of_prefix_length_le hline ⟨input, rfl⟩
      simpa using hle
    obtain ⟨q, hq⟩ := hpre
    rw [← hq, List.append_assoc, List.singleton_append, strchr_append hl h0] at hc
    cases hc

theorem grepFrom_eq (size : Nat → Nat) {n k : Nat} {buf input : List UInt8} (hn : input.length < n)
    (hc : strchr buf = none) (hb : buf.length < bufsize) :
    grepFrom re size n k buf input = matching re ((lines (buf ++ input)).takeWhile (fun l => Fits l)) := by
  induction n generalizing k buf input with
  | zero => omega
  | succ n ih =>
    unfold grepFrom
    -- the bytes that this `read` gives
    obtain ⟨m, hm⟩ : ∃ m, m = min (max 1 (size k)) (bufsize - buf.length - 1) := ⟨_, rfl⟩
    simp only [← hm]
    split
    · rename_i hgot
      have hstop : input = [] ∨ bufsize ≤ buf.length + 1 := by
        cases List.take_eq_nil_iff.mp hgot with
        | inl h =>
          right
          omega
        | inr h => exact .inl h
      rw [takeWhile_fits_stuck hc hstop]
      rfl
    · rename_i hgot
      have hpos : 0 < (input.take m).length := List.length_pos_iff.mpr hgot
      have hle : (input.take m).length ≤ m := List.length_take_le ..
      have hin : (input.take m).length ≤ input.length := List.length_take_le' ..
      obtain ⟨ls, h⟩ := scanned re (p := buf ++ input.take m) (n := buf.length + (input.take m).length) (by simp)
      have hlen := h.length
      have hfits := h.fits (by simp only [List.length_append]; omega)
      have hinput : input = input.take m ++ input.drop (input.take m).length := by
        conv_lhs => rw [← List.take_append_drop m input]
        rw [List.length_take, List.drop_eq_drop_min]
      simp only [List.length_append] at hlen
      rw [ih (by rw [List.length_drop]; omega) h.rest (by omega), h.written]
      conv_rhs => rw [hinput, ← List.append_assoc, h.split]
      rw [List.takeWhile_append_of_pos (by simpa using hfits)]
      exact List.flatMap_append.symm

/-- Whatever the sizes of the reads, grep prints the lines that match up to the first line that does not fit. -/
theorem grep_eq (re : List UInt8) (size : Nat → Nat) (input : List UInt8) :
    grep re size input = matching re ((lines input).takeWhile (fun l => Fits l)) := by
  rw [grep, grepFrom_eq size (Nat.lt_succ_self _) rfl (by decide)]
  rfl

/-- The lines from the first that does not fit on. -/
def unread (input : List UInt8) : List (List UInt8) := (lines input).dropWhile (fun l => Fits l)

theorem matching_nil_iff {ls : List (List UInt8)} : matching re ls = [] ↔ ∀ l ∈ ls, match_ re l = false := by
  unfold matching print
  rw [List.flatMap_eq_nil_iff]
  refine forall₂_congr fun l _ => ?_
  cases match_ re l <;> simp

/-- For every split of the input into reads, grep prints exactly the lines that match iff none of those
    from the first line on that does not fit matches. -/
theorem grep_prints_iff (re input : List UInt8) (size : Nat → Nat) :
    grep re size input = matching re (lines input) ↔ ∀ l ∈ unread input, match_ re l = false := by
  have hsplit : matching re (lines input) =
      matching re ((lines input).takeWhile (fun l => Fits l)) ++ matching re (unread input) := by
    conv_lhs => rw [← List.takeWhile_append_dropWhile (p := fun l => decide (Fits l)) (l := lines input)]
    exact List.flatMap_append
  rw [grep_eq, hsplit, List.self_eq_append_right, matching_nil_iff]

/-- A line of 1023 bytes "a": its newline has no room in the buffer. -/
def longLine : List UInt8 := List.replicate 1023 0x61

theorem lines_longLine : lines (longLine ++ [newline]) = [longLine] := by
  have hl : newline ∉ longLine := fun h => absurd (List.eq_of_mem_replicate h) (by decide)
  rw [lines, Lib.terminated_line hl]
  rfl

theorem match_longLine : match_ [0x61] longLine = true := by decide +kernel

/-- `grep a` does not print it, here with reads of at most 512 bytes. -/
theorem grep_long_line : grep [0x61] (fun _ => 512) (longLine ++ [newline]) = [] ∧
    matching [0x61] (lines (longLine ++ [newline])) = longLine ++ [newline] := by
  have hlong : ¬ Fits longLine := by decide +kernel
  refine ⟨?_, ?_⟩
  · rw [grep_eq, lines_longLine, List.takeWhile_cons_of_neg (by simpa using hlong)]
    rfl
  · rw [lines_longLine, matching, List.flatMap_singleton, print, if_pos match_longLine]

end Xv6.Grep
