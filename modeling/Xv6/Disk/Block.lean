/-
  Xv6.Disk.Block — the contents of a disk block, the 32-bit words stored in it, the log
  header it may hold (`struct logheader`), and what an interrupted write of it leaves.

  A block is a byte at each offset. `uint`s are stored little-endian. The header is
  `int n` at offset 0 and `int block[i]` at offset 4 + 4i, so a header of at most LOGSIZE
  entries lies in the block's first sector, and a torn write of it leaves the old header
  or the new one (`readHead_tear`).
-/

import Xv6.Param
import Mathlib.Algebra.Order.Ring.Int
import Mathlib.Data.List.Basic

namespace Xv6

abbrev Block := Nat → UInt8

abbrev Disk := Nat → Block

/-! ## Words -/

def word (b : Block) (o : Nat) : Nat :=
  (b o).toNat + 256 * (b (o + 1)).toNat + 65536 * (b (o + 2)).toNat + 16777216 * (b (o + 3)).toNat

def setWord (b : Block) (o v : Nat) : Block := fun i =>
  if i = o then UInt8.ofNat v
  else if i = o + 1 then UInt8.ofNat (v / 256)
  else if i = o + 2 then UInt8.ofNat (v / 65536)
  else if i = o + 3 then UInt8.ofNat (v / 16777216)
  else b i

theorem word_lt (b : Block) (o : Nat) : word b o < 2 ^ 32 := by
  have h0 := (b o).toNat_lt
  have h1 := (b (o + 1)).toNat_lt
  have h2 := (b (o + 2)).toNat_lt
  have h3 := (b (o + 3)).toNat_lt
  unfold word; omega

theorem word_setWord (b : Block) (o v : Nat) : word (setWord b o v) o = v % 2 ^ 32 := by
  simp only [word, setWord, if_true, UInt8.toNat_ofNat', show o + 1 ≠ o by omega, show o + 2 ≠ o by omega,
    show o + 3 ≠ o by omega, show o + 2 ≠ o + 1 by omega, show o + 3 ≠ o + 1 by omega,
    show o + 3 ≠ o + 2 by omega, if_false]
  omega

theorem setWord_of_ne {b : Block} {o v i : Nat} (h : i < o ∨ o + 4 ≤ i) : setWord b o v i = b i := by
  simp only [setWord, show i ≠ o by omega, show i ≠ o + 1 by omega, show i ≠ o + 2 by omega,
    show i ≠ o + 3 by omega, if_false]

theorem word_congr {b c : Block} {o : Nat} (h : ∀ i, o ≤ i → i < o + 4 → b i = c i) : word b o = word c o := by
  simp only [word, h o (by omega) (by omega), h (o + 1) (by omega) (by omega), h (o + 2) (by omega) (by omega),
    h (o + 3) (by omega) (by omega)]

theorem word_setWord_of_ne {b : Block} {o o' v : Nat} (h : o' + 4 ≤ o ∨ o + 4 ≤ o') :
    word (setWord b o v) o' = word b o' :=
  word_congr fun _ _ _ => setWord_of_ne (by omega)

/-! ## The log header -/

/-- The 32 bits of `v` read as an `int`. -/
def toInt32 (v : Nat) : Int := if v < 2 ^ 31 then v else (v : Int) - 2 ^ 32

/-- `hb->block[i + k] = xs[k]` for each `k`. -/
def putBlocks : List Nat → Nat → Block → Block
  | [], _, b => b
  | x :: xs, i, b => putBlocks xs (i + 1) (setWord b (4 + 4 * i) x)

/-- `write_head`'s stores into the header buffer: `n`, then the block numbers. -/
def putHead (lh : List Nat) (b : Block) : Block := putBlocks lh 0 (setWord b 0 lh.length)

/-- `read_head`: `log.lh.block[0 .. log.lh.n)` as the header block has it. -/
def readHead (b : Block) : List Nat := (List.range (toInt32 (word b 0)).toNat).map fun i => word b (4 + 4 * i)

theorem putBlocks_of_lt {xs : List Nat} {i o : Nat} {b : Block} (h : o < 4 + 4 * i) : putBlocks xs i b o = b o := by
  induction xs generalizing i b with
  | nil => rfl
  | cons x xs ih => rw [putBlocks, ih (by omega), setWord_of_ne (by omega)]

theorem word_putBlocks {xs : List Nat} {i k : Nat} {b : Block} (hk : k < xs.length) (hx : ∀ x ∈ xs, x < 2 ^ 32) :
    word (putBlocks xs i b) (4 + 4 * (i + k)) = xs[k] := by
  induction xs generalizing i k b with
  | nil => simp at hk
  | cons x xs ih =>
    cases k with
    | zero =>
      have hb : ∀ j, 4 + 4 * i ≤ j → j < 4 + 4 * i + 4 →
          putBlocks xs (i + 1) (setWord b (4 + 4 * i) x) j = setWord b (4 + 4 * i) x j :=
        fun j _ _ => putBlocks_of_lt (by omega)
      have hlt : x < 2 ^ 32 := hx x (by simp)
      show word (putBlocks xs (i + 1) (setWord b (4 + 4 * i) x)) (4 + 4 * i) = x
      rw [word_congr hb, word_setWord, Nat.mod_eq_of_lt hlt]
    | succ k =>
      have := ih (i := i + 1) (b := setWord b (4 + 4 * i) x) (by simpa using hk) fun y hy => hx y (by simp [hy])
      rw [putBlocks, show i + (k + 1) = i + 1 + k by omega, this]
      rfl

theorem word_putHead_zero (lh : List Nat) (b : Block) : word (putHead lh b) 0 = lh.length % 2 ^ 32 := by
  rw [putHead, word_congr fun j _ _ => putBlocks_of_lt (by omega), word_setWord]

theorem readHead_putHead {lh : List Nat} (b : Block) (hn : lh.length < 2 ^ 31) (hx : ∀ x ∈ lh, x < 2 ^ 32) :
    readHead (putHead lh b) = lh := by
  have hlen : (toInt32 (word (putHead lh b) 0)).toNat = lh.length := by
    rw [word_putHead_zero, Nat.mod_eq_of_lt (by omega), toInt32, if_pos hn, Int.toNat_natCast]
  apply List.ext_getElem
  · simp [readHead, hlen]
  · intro k h1 h2
    have := word_putBlocks (i := 0) (b := setWord b 0 lh.length) h2 hx
    simpa [readHead, putHead] using this

theorem readHead_congr {b c : Block} (h : ∀ i < SECTOR, b i = c i) (hn : (readHead b).length ≤ LOGSIZE) :
    readHead c = readHead b := by
  have h0 : word c 0 = word b 0 := word_congr fun i _ hi => (h i (by unfold SECTOR; omega)).symm
  simp only [readHead, List.length_map, List.length_range] at hn ⊢
  rw [h0]
  apply List.map_congr_left
  intro k hk
  have hk' : k < LOGSIZE := Nat.lt_of_lt_of_le (List.mem_range.mp hk) hn
  exact word_congr fun i _ hi => (h i (by simp only [SECTOR, LOGSIZE, MAXOPBLOCKS] at *; omega)).symm

/-! ## Interrupted writes -/

/-- An interrupted write of `new` over `old`: one of the two sectors has reached the
    disk, the first (`hi = false`) or the second, in either order. -/
def tearAt (hi : Bool) (old new : Block) : Block := fun i => if decide (SECTOR ≤ i) = hi then new i else old i

def tear (old new mid : Block) : Prop := ∃ hi, mid = tearAt hi old new

theorem readHead_tear {lh : List Nat} {b mid : Block} (hn : lh.length ≤ LOGSIZE) (hx : ∀ x ∈ lh, x < 2 ^ 32)
    (hb : (readHead b).length ≤ LOGSIZE) (h : tear b (putHead lh b) mid) :
    readHead mid = readHead b ∨ readHead mid = lh := by
  obtain ⟨hi, rfl⟩ := h
  have hl : lh.length < 2 ^ 31 := by simp only [LOGSIZE, MAXOPBLOCKS] at hn; omega
  cases hi with
  | true =>
    left
    apply readHead_congr _ hb
    intro i hi
    simp only [tearAt, show ¬ SECTOR ≤ i by omega, decide_false, Bool.false_eq_true, if_false]
  | false =>
    right
    have hr := readHead_putHead b hl hx
    refine (readHead_congr (b := putHead lh b) ?_ (by rw [hr]; exact hn)).trans hr
    intro i hi
    simp only [tearAt, show ¬ SECTOR ≤ i by omega, decide_false, if_true]

end Xv6
