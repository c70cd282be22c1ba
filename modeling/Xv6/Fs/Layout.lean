/-
  Xv6.Fs.Layout — where the file system's structures lie on the disk (kernel/fs.h): inodes in the
  inode blocks, one bit per block in the bitmap blocks, the rest data.

  An inode is 64 bytes of its block, little-endian, in the order of `struct dinode`. A block's bit
  is bit `b % 8` of byte `b % BPB / 8` of its bitmap block.
-/

import Xv6.Disk.Block
import Mathlib.Tactic.IntervalCases

namespace Xv6.Fs

open Function (update update_self update_of_ne)

/-- The fields of the super block that the file system reads after `fsinit`. -/
structure Superblock where
  size : Nat
  ninodes : Nat
  inodestart : Nat
  bmapstart : Nat

variable (sb : Superblock)

def IBLOCK (i : Nat) : Nat := i / IPB + sb.inodestart

/-- Block of the free map containing the bit for block `b`. -/
def BBLOCK (b : Nat) : Nat := b / BPB + sb.bmapstart

/-- The first data block: mkfs makes `size / BPB + 1` bitmap blocks. -/
def dataStart : Nat := sb.bmapstart + sb.size / BPB + 1

/-- The inode blocks end before the bitmap, and numbers fit the fields that hold them. -/
structure Layout : Prop where
  inodes : sb.inodestart + sb.ninodes / IPB < sb.bmapstart
  size_lt : sb.size < 2 ^ 31
  ninodes_le : sb.ninodes ≤ 2 ^ 16
  root_lt : ROOTINO < sb.ninodes

variable {sb}

theorem IBLOCK_lt (hL : Layout sb) {i : Nat} (hi : i < sb.ninodes) : IBLOCK sb i < sb.bmapstart := by
  have := hL.inodes
  have hd : i / IPB ≤ sb.ninodes / IPB := Nat.div_le_div_right (by omega)
  unfold IBLOCK
  omega

theorem BBLOCK_ge (b : Nat) : sb.bmapstart ≤ BBLOCK sb b := Nat.le_add_left ..

theorem BBLOCK_lt {b : Nat} (hb : b < sb.size) : BBLOCK sb b < dataStart sb := by
  have hd : b / BPB ≤ sb.size / BPB := Nat.div_le_div_right (by omega)
  unfold BBLOCK dataStart
  omega

theorem dataStart_pos : 0 < dataStart sb := Nat.succ_pos _

theorem bmapstart_lt : sb.bmapstart < dataStart sb := Nat.lt_succ_of_le (Nat.le_add_right ..)

/-! ## Bytes and half-words -/

/-- Copy `n` bytes of `src` over `b` from offset `o` on. -/
def splice (b : Block) (o n : Nat) (src : Nat → UInt8) : Block := fun i =>
  if o ≤ i ∧ i < o + n then src (i - o) else b i

theorem splice_of_mem {b : Block} {o n i : Nat} {src : Nat → UInt8} (h1 : o ≤ i) (h2 : i < o + n) :
    splice b o n src i = src (i - o) := if_pos ⟨h1, h2⟩

theorem splice_of_not_mem {b : Block} {o n i : Nat} {src : Nat → UInt8} (h : i < o ∨ o + n ≤ i) :
    splice b o n src i = b i := if_neg (by omega)

def byteOf (v k : Nat) : UInt8 := UInt8.ofNat (v / 256 ^ k)

/-- The `short` at byte offset `o`, as its 16 bits. -/
def half (b : Block) (o : Nat) : Nat := (b o).toNat + 256 * (b (o + 1)).toNat

/-- The 16 bits of `v` read as a `short`. -/
def toInt16 (v : Nat) : Int := if v < 2 ^ 15 then v else (v : Int) - 2 ^ 16

theorem half_lt (b : Block) (o : Nat) : half b o < 2 ^ 16 := by
  have h0 := (b o).toNat_lt
  have h1 := (b (o + 1)).toNat_lt
  unfold half; omega

theorem half_of_bytes {b : Block} {o v : Nat} (h0 : b o = byteOf v 0) (h1 : b (o + 1) = byteOf v 1)
    (hv : v < 2 ^ 16) : half b o = v := by
  simp only [half, h0, h1, byteOf, UInt8.toNat_ofNat']
  omega

theorem word_of_bytes {b : Block} {o v : Nat} (h : ∀ k < 4, b (o + k) = byteOf v k) (hv : v < 2 ^ 32) :
    word b o = v := by
  have h0 := h 0 (by omega)
  simp only [word, Nat.add_zero] at h0 ⊢
  simp only [h0, h 1 (by omega), h 2 (by omega), h 3 (by omega), byteOf, UInt8.toNat_ofNat']
  omega

theorem half_congr {b c : Block} {o : Nat} (h0 : b o = c o) (h1 : b (o + 1) = c (o + 1)) : half b o = half c o := by
  simp only [half, h0, h1]

/-! ## Inodes -/

/-- `struct dinode`; the `short`s as their 16 bits. -/
structure Dinode where
  type : Nat
  major : Nat
  minor : Nat
  nlink : Nat
  size : Nat
  addrs : Fin (NDIRECT + 1) → Nat

namespace Dinode

/-- All zero, as `ialloc`'s memset leaves it. -/
def zero : Dinode := ⟨0, 0, 0, 0, 0, fun _ => 0⟩

@[grind] def addr (x : Dinode) (k : Nat) : Nat := if h : k < NDIRECT + 1 then x.addrs ⟨k, h⟩ else 0

def setAddr (x : Dinode) (k v : Nat) : Dinode := { x with addrs := fun j => if j.val = k then v else x.addrs j }

/-- The fields are values of their C types. -/
structure Fits (x : Dinode) : Prop where
  type : x.type < 2 ^ 16
  major : x.major < 2 ^ 16
  minor : x.minor < 2 ^ 16
  nlink : x.nlink < 2 ^ 16
  size : x.size < 2 ^ 32
  addrs : ∀ k, x.addrs k < 2 ^ 32

theorem addr_of_gt {x : Dinode} {k : Nat} (h : NDIRECT < k) : x.addr k = 0 := dif_neg (by omega)

theorem addr_setAddr (x : Dinode) {k : Nat} (v j : Nat) (hk : k ≤ NDIRECT) :
    (x.setAddr k v).addr j = if j = k then v else x.addr j := by
  unfold addr setAddr
  by_cases hj : j < NDIRECT + 1
  · rw [dif_pos hj, dif_pos hj]
  · rw [dif_neg hj, dif_neg hj, if_neg (by omega)]

def byte (x : Dinode) (k : Nat) : UInt8 :=
  if k < 2 then byteOf x.type k
  else if k < 4 then byteOf x.major (k - 2)
  else if k < 6 then byteOf x.minor (k - 4)
  else if k < 8 then byteOf x.nlink (k - 6)
  else if k < 12 then byteOf x.size (k - 8)
  else byteOf (x.addr ((k - 12) / 4)) ((k - 12) % 4)

end Dinode

def readDinode (b : Block) (o : Nat) : Dinode where
  type := half b o
  major := half b (o + 2)
  minor := half b (o + 4)
  nlink := half b (o + 6)
  size := word b (o + 8)
  addrs k := word b (o + 12 + 4 * k.val)

def putDinode (b : Block) (o : Nat) (x : Dinode) : Block := splice b o 64 x.byte

theorem readDinode_fits (b : Block) (o : Nat) : (readDinode b o).Fits :=
  ⟨half_lt .., half_lt .., half_lt .., half_lt .., word_lt .., fun _ => word_lt ..⟩

theorem readDinode_congr {b c : Block} {o : Nat} (h : ∀ i, o ≤ i → i < o + 64 → b i = c i) :
    readDinode b o = readDinode c o := by
  have hh : ∀ k, k ≤ 62 → half b (o + k) = half c (o + k) := fun k hk =>
    half_congr (h _ (by omega) (by omega)) (h _ (by omega) (by omega))
  have hw : ∀ k, k ≤ 60 → word b (o + k) = word c (o + k) := fun k hk =>
    word_congr fun i h1 h2 => h i (by omega) (by omega)
  have ha : (fun k : Fin (NDIRECT + 1) => word b (o + 12 + 4 * k.val)) = fun k => word c (o + 12 + 4 * k.val) := by
    funext k
    have hk := k.isLt
    simp only [NDIRECT] at hk
    have := hw (12 + 4 * k.val) (by omega)
    rwa [← Nat.add_assoc] at this
  have h0 := hh 0 (by omega)
  rw [Nat.add_zero] at h0
  simp only [readDinode, h0, hh 2 (by omega), hh 4 (by omega), hh 6 (by omega), hw 8 (by omega), ha]

theorem putDinode_byte {b : Block} {o k : Nat} {x : Dinode} (hk : k < 64) : putDinode b o x (o + k) = x.byte k := by
  rw [putDinode, splice_of_mem (by omega) (by omega), Nat.add_sub_cancel_left]

theorem readDinode_putDinode (b : Block) (o : Nat) {x : Dinode} (hx : x.Fits) :
    readDinode (putDinode b o x) o = x := by
  have hb : ∀ k < 64, putDinode b o x (o + k) = x.byte k := fun k hk => putDinode_byte hk
  -- each field is made of its own bytes
  have ht : half (putDinode b o x) o = x.type :=
    half_of_bytes (hb 0 (by omega)) (hb 1 (by omega)) hx.type
  have hM : half (putDinode b o x) (o + 2) = x.major :=
    half_of_bytes (hb 2 (by omega)) (hb 3 (by omega)) hx.major
  have hm : half (putDinode b o x) (o + 4) = x.minor :=
    half_of_bytes (hb 4 (by omega)) (hb 5 (by omega)) hx.minor
  have hn : half (putDinode b o x) (o + 6) = x.nlink :=
    half_of_bytes (hb 6 (by omega)) (hb 7 (by omega)) hx.nlink
  have hs : word (putDinode b o x) (o + 8) = x.size := by
    refine word_of_bytes (fun k hk => ?_) hx.size
    rw [Nat.add_assoc, hb (8 + k) (by omega)]
    simp only [Dinode.byte, show ¬ 8 + k < 2 by omega, show ¬ 8 + k < 4 by omega, show ¬ 8 + k < 6 by omega,
      show ¬ 8 + k < 8 by omega, show 8 + k < 12 by omega, if_true, if_false, Nat.add_sub_cancel_left]
  have ha : (fun j : Fin (NDIRECT + 1) => word (putDinode b o x) (o + 12 + 4 * j.val)) = x.addrs := by
    funext j
    have hj := j.isLt
    simp only [NDIRECT] at hj
    refine word_of_bytes (fun k hk => ?_) (hx.addrs j)
    rw [show o + 12 + 4 * j.val + k = o + (12 + 4 * j.val + k) by omega, hb _ (by omega)]
    simp only [Dinode.byte, show ¬ 12 + 4 * j.val + k < 2 by omega, show ¬ 12 + 4 * j.val + k < 4 by omega,
      show ¬ 12 + 4 * j.val + k < 6 by omega, show ¬ 12 + 4 * j.val + k < 8 by omega,
      show ¬ 12 + 4 * j.val + k < 12 by omega, if_false, show (12 + 4 * j.val + k - 12) / 4 = j.val by omega,
      show (12 + 4 * j.val + k - 12) % 4 = k by omega, Dinode.addr, j.isLt, dif_pos]
  simp only [readDinode, ht, hM, hm, hn, hs, ha]

variable (sb)

def dinode (d : Disk) (i : Nat) : Dinode := readDinode (d (IBLOCK sb i)) (i % IPB * 64)

def setDinode (d : Disk) (i : Nat) (x : Dinode) : Disk :=
  update d (IBLOCK sb i) (putDinode (d (IBLOCK sb i)) (i % IPB * 64) x)

variable {sb}

theorem dinode_fits (d : Disk) (i : Nat) : (dinode sb d i).Fits := readDinode_fits ..

theorem dinode_setDinode (d : Disk) (i : Nat) {x : Dinode} (hx : x.Fits) : dinode sb (setDinode sb d i x) i = x := by
  rw [dinode, setDinode, update_self, readDinode_putDinode _ _ hx]

theorem dinode_setDinode_of_ne (d : Disk) {i j : Nat} (x : Dinode) (h : j ≠ i) :
    dinode sb (setDinode sb d i x) j = dinode sb d j := by
  unfold dinode setDinode
  by_cases hb : IBLOCK sb j = IBLOCK sb i
  · -- in one block the two lie at different offsets
    rw [hb, update_self]
    refine readDinode_congr fun k h1 h2 => splice_of_not_mem ?_
    simp only [IBLOCK, IPB] at *
    omega
  · rw [update_of_ne hb]

theorem dinode_update_of_ne (d : Disk) {i b : Nat} (x : Block) (h : IBLOCK sb i ≠ b) :
    dinode sb (update d b x) i = dinode sb d i := by
  rw [dinode, update_of_ne h, dinode]

/-! ## The bitmap -/

def mask (bi : Nat) : UInt8 := 1 <<< UInt8.ofNat (bi % 8)

def marked (bp : Block) (bi : Nat) : Bool := (bp (bi / 8) &&& mask bi) != 0

def mark (bp : Block) (bi : Nat) : Block := update bp (bi / 8) (bp (bi / 8) ||| mask bi)

def unmark (bp : Block) (bi : Nat) : Block := update bp (bi / 8) (bp (bi / 8) &&& ~~~mask bi)

theorem mask_toBitVec (bi : Nat) : (mask bi).toBitVec = BitVec.twoPow 8 (bi % 8) := by
  have h : bi % 8 < 8 := Nat.mod_lt _ (by omega)
  unfold mask
  generalize bi % 8 = k at h
  interval_cases k <;> rfl

theorem marked_eq (bp : Block) (bi : Nat) : marked bp bi = (bp (bi / 8)).toBitVec.getLsbD (bi % 8) := by
  have h : bi % 8 < 8 := Nat.mod_lt _ (by omega)
  have e : ((bp (bi / 8) &&& mask bi) != 0) = !((bp (bi / 8)).toBitVec &&& BitVec.twoPow 8 (bi % 8) == 0) := by
    rw [← mask_toBitVec, ← UInt8.toBitVec_and, bne]
    congr 1
    rw [Bool.eq_iff_iff, beq_iff_eq, beq_iff_eq, ← UInt8.toBitVec_inj]
    rfl
  rw [marked, e, BitVec.and_twoPow]
  cases (bp (bi / 8)).toBitVec.getLsbD (bi % 8)
  · rfl
  · simp only [if_true, Bool.not_eq_true', beq_eq_false_iff_ne, ne_eq]
    intro h0
    have := congrArg (fun v => v.getLsbD (bi % 8)) h0
    simp [h] at this

theorem marked_mark (bp : Block) (bi bj : Nat) : marked (mark bp bi) bj = (bj == bi || marked bp bj) := by
  have h : bi % 8 < 8 := Nat.mod_lt _ (by omega)
  have h' : bj % 8 < 8 := Nat.mod_lt _ (by omega)
  rw [marked_eq, marked_eq, mark]
  by_cases e : bj / 8 = bi / 8
  · rw [e, update_self, UInt8.toBitVec_or, BitVec.getLsbD_or, mask_toBitVec, BitVec.getLsbD_twoPow, Bool.or_comm]
    congr 1
    have : (bi % 8 = bj % 8) ↔ (bj = bi) := by omega
    by_cases hj : bj = bi <;> simp [h, this, hj]
  · have : (bj == bi) = false := by simp; rintro rfl; exact e rfl
    rw [update_of_ne e, this, Bool.false_or]

theorem marked_unmark (bp : Block) (bi bj : Nat) : marked (unmark bp bi) bj = (bj != bi && marked bp bj) := by
  have h : bi % 8 < 8 := Nat.mod_lt _ (by omega)
  have h' : bj % 8 < 8 := Nat.mod_lt _ (by omega)
  rw [marked_eq, marked_eq, unmark]
  by_cases e : bj / 8 = bi / 8
  · rw [e, update_self, UInt8.toBitVec_and, UInt8.toBitVec_not, BitVec.getLsbD_and, BitVec.getLsbD_not,
      mask_toBitVec, BitVec.getLsbD_twoPow, Bool.and_comm]
    congr 1
    have : (bi % 8 = bj % 8) ↔ (bj = bi) := by omega
    by_cases hj : bj = bi <;> simp [h, h', this, hj]
  · have : (bj != bi) = true := by simp; rintro rfl; exact e rfl
    rw [update_of_ne e, this, Bool.true_and]

variable (sb)

def bit (d : Disk) (b : Nat) : Bool := marked (d (BBLOCK sb b)) (b % BPB)

def setBit (d : Disk) (b : Nat) : Disk := update d (BBLOCK sb b) (mark (d (BBLOCK sb b)) (b % BPB))

def clearBit (d : Disk) (b : Nat) : Disk := update d (BBLOCK sb b) (unmark (d (BBLOCK sb b)) (b % BPB))

variable {sb}

theorem bit_pos {b c : Nat} (h : BBLOCK sb c = BBLOCK sb b) : (c % BPB == b % BPB) = (c == b) := by
  rw [Bool.eq_iff_iff, beq_iff_eq, beq_iff_eq]
  simp only [BBLOCK, BPB, BSIZE] at *
  omega

theorem bit_setBit (d : Disk) (b c : Nat) : bit sb (setBit sb d b) c = (c == b || bit sb d c) := by
  unfold bit setBit
  by_cases e : BBLOCK sb c = BBLOCK sb b
  · rw [e, update_self, marked_mark, bit_pos e]
  · have : (c == b) = false := by simp; rintro rfl; exact e rfl
    rw [update_of_ne e, this, Bool.false_or]

theorem bit_clearBit (d : Disk) (b c : Nat) : bit sb (clearBit sb d b) c = (c != b && bit sb d c) := by
  unfold bit clearBit
  by_cases e : BBLOCK sb c = BBLOCK sb b
  · rw [e, update_self, marked_unmark, bne, bit_pos e, bne]
  · have : (c != b) = true := by simp; rintro rfl; exact e rfl
    rw [update_of_ne e, this, Bool.true_and]

theorem bit_update_of_ne (d : Disk) {b c : Nat} (x : Block) (h : BBLOCK sb c ≠ b) :
    bit sb (update d b x) c = bit sb d c := by
  rw [bit, update_of_ne h, bit]

end Xv6.Fs
