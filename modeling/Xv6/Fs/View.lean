/-
  Xv6.Fs.View — what an inode holds: the blocks it points to, directly or through its indirect
  block, and the file that these make.

  `ptr d x q`: the block at place `q` of inode `x`. Places 0 .. NDIRECT are the entries of
  `addrs`, the last of them the indirect block; the places after them are its words. `node d x`
  is the file: its fields, and its bytes below its size. It depends on the disk only at the
  blocks that the inode points to (`Agree`).
-/

import Xv6.Fs.Layout

namespace Xv6.Fs

/-- The block at place `q`, or 0. A free inode points to none. -/
def ptr (d : Disk) (x : Dinode) (q : Nat) : Nat :=
  if x.type = 0 then 0
  else if q ≤ NDIRECT then x.addr q
  else if x.addr NDIRECT = 0 ∨ NDIRECT + NINDIRECT < q then 0
  else word (d (x.addr NDIRECT)) (4 * (q - NDIRECT - 1))

/-- The place of the pointer to block `n` of the file. -/
@[grind] def place (n : Nat) : Nat := if n < NDIRECT then n else n + 1

@[grind] def blk (d : Disk) (x : Dinode) (n : Nat) : Nat := ptr d x (place n)

/-- A file or directory, as its users see it. -/
structure Node where
  type : Nat
  major : Nat
  minor : Nat
  nlink : Nat
  size : Nat
  byte : Nat → UInt8

def Node.free : Node := ⟨0, 0, 0, 0, 0, fun _ => 0⟩

def byteAt (d : Disk) (x : Dinode) (o : Nat) : UInt8 :=
  if o < x.size then d (blk d x (o / BSIZE)) (o % BSIZE) else 0

def node (d : Disk) (x : Dinode) : Node :=
  if x.type = 0 then .free else ⟨x.type, x.major, x.minor, x.nlink, x.size, byteAt d x⟩

/-- The file has a block for each of its bytes, and is not too long. -/
structure Sound (d : Disk) (x : Dinode) : Prop where
  size : x.size ≤ MAXFILE * BSIZE
  full : ∀ n, n * BSIZE < x.size → blk d x n ≠ 0

/-- What was on the disk when the system came up and will never be freed: allocated inodes that no name leads to,
    and marked blocks of no inode. A crash leaves them, while a file is open that has lost its name. -/
class Lost (sb : Superblock) where
  inode : Nat → Bool
  block : Nat → Bool
  root : inode ROOTINO = false

instance (priority := low) Lost.nothing (sb : Superblock) : Lost sb := ⟨fun _ => false, fun _ => false, rfl⟩

def Live (sb : Superblock) [Lost sb] (i : Nat) : Prop := Lost.inode sb i = false

theorem BSIZE_pos : 0 < BSIZE := by decide

theorem Sound.blk_ne {d : Disk} {x : Dinode} (h : Sound d x) {o : Nat} (ho : o < x.size) : blk d x (o / BSIZE) ≠ 0 :=
  h.full _ (Nat.lt_of_le_of_lt (Nat.div_mul_le_self o BSIZE) ho)

theorem node_of_type {d : Disk} {x : Dinode} (h : x.type ≠ 0) :
    node d x = ⟨x.type, x.major, x.minor, x.nlink, x.size, byteAt d x⟩ := if_neg h

theorem node_type (d : Disk) (x : Dinode) : (node d x).type = x.type := by
  unfold node
  split
  · rename_i h
    rw [h]
    rfl
  · rfl

section

variable {d d' : Disk} {x y : Dinode} {q : Nat}

theorem ptr_free (h : x.type = 0) : ptr d x q = 0 := if_pos h

theorem ptr_direct (h : x.type ≠ 0) (hq : q ≤ NDIRECT) : ptr d x q = x.addr q := by
  rw [ptr, if_neg h, if_pos hq]

theorem ptr_no_indirect (h0 : x.addr NDIRECT = 0) (hq : NDIRECT < q) : ptr d x q = 0 := by
  unfold ptr
  split
  · rfl
  · rw [if_neg (by omega), if_pos (.inl h0)]

theorem ptr_indirect (h : x.type ≠ 0) (h0 : x.addr NDIRECT ≠ 0) {k : Nat} (hk : k < NINDIRECT) :
    ptr d x (NDIRECT + 1 + k) = word (d (x.addr NDIRECT)) (4 * k) := by
  rw [ptr, if_neg h, if_neg (by omega), if_neg (by omega)]
  congr 1
  omega

theorem ptr_far (hq : NDIRECT + NINDIRECT < q) : ptr d x q = 0 := by
  unfold ptr
  split
  · rfl
  · rw [if_neg (by omega), if_pos (.inr hq)]

theorem place_cases (q : Nat) : q ≤ NDIRECT ∨ (∃ k, k < NINDIRECT ∧ q = NDIRECT + 1 + k) ∨ NDIRECT + NINDIRECT < q := by
  rcases Nat.lt_or_ge NDIRECT q with h | h
  · rcases Nat.lt_or_ge (NDIRECT + NINDIRECT) q with h' | h'
    · exact .inr (.inr h')
    · exact .inr (.inl ⟨q - NDIRECT - 1, by omega, by omega⟩)
  · exact .inl h

theorem place_ne : place q ≠ NDIRECT := by
  unfold place
  split <;> omega

theorem place_inj {m n : Nat} (h : place m = place n) : m = n := by
  unfold place at h
  split at h <;> split at h <;> omega

/-! ## The disk where the inode does not point -/

/-- The disks agree at every block of the inode. -/
def Agree (d d' : Disk) (x : Dinode) : Prop := ∀ q, ptr d x q ≠ 0 → d' (ptr d x q) = d (ptr d x q)

theorem ptr_congr (h : x.type ≠ 0 → x.addr NDIRECT ≠ 0 → d' (x.addr NDIRECT) = d (x.addr NDIRECT)) : ptr d' x q = ptr d x q := by
  by_cases ht : x.type = 0
  · rw [ptr_free ht, ptr_free ht]
  · rcases place_cases q with hq | ⟨k, hk, rfl⟩ | hq
    · rw [ptr_direct ht hq, ptr_direct ht hq]
    · by_cases h0 : x.addr NDIRECT = 0
      · rw [ptr_no_indirect h0 (by omega), ptr_no_indirect h0 (by omega)]
      · rw [ptr_indirect ht h0 hk, ptr_indirect ht h0 hk, h ht h0]
    · rw [ptr_far hq, ptr_far hq]

theorem Agree.ptr_eq (h : Agree d d' x) : ptr d' x q = ptr d x q := by
  refine ptr_congr fun ht h0 => ?_
  have hd := ptr_direct (d := d) ht (Nat.le_refl NDIRECT)
  have := h NDIRECT (by rw [hd]; exact h0)
  rwa [hd] at this

theorem Agree.sound (h : Agree d d' x) (hs : Sound d x) : Sound d' x :=
  ⟨hs.size, fun n hn => by rw [blk, h.ptr_eq]; exact hs.full n hn⟩

theorem Agree.node_eq (h : Agree d d' x) (hs : x.type ≠ 0 → Sound d x) : node d' x = node d x := by
  by_cases ht : x.type = 0
  · rw [node, node, if_pos ht, if_pos ht]
  · rw [node_of_type ht, node_of_type ht]
    congr 1
    funext o
    unfold byteAt
    by_cases ho : o < x.size
    · rw [if_pos ho, if_pos ho, blk, h.ptr_eq]
      exact congrFun (h _ ((hs ht).blk_ne ho)) _
    · rw [if_neg ho, if_neg ho]

theorem agree_update {b : Nat} {v : Block} (h : ∀ q, ptr d x q ≠ 0 → ptr d x q ≠ b) :
    Agree d (Function.update d b v) x := fun q hq => Function.update_of_ne (h q hq) ..

theorem Agree.trans {d'' : Disk} (h : Agree d d' x) (h' : Agree d' d'' x) : Agree d d'' x := by
  intro q hq
  have := h' q (by rw [h.ptr_eq]; exact hq)
  rw [h.ptr_eq] at this
  rw [this, h q hq]

/-! ## Changes of the inode and its indirect block -/

theorem ptr_setAddr (ht : x.type ≠ 0) {k : Nat} (hk : k < NDIRECT) (v : Nat) :
    ptr d (x.setAddr k v) q = if q = k then v else ptr d x q := by
  have ht' : (x.setAddr k v).type ≠ 0 := ht
  have hn : (x.setAddr k v).addr NDIRECT = x.addr NDIRECT := by
    rw [x.addr_setAddr v NDIRECT (by omega), if_neg (by omega)]
  rcases place_cases q with hq | ⟨j, hj, rfl⟩ | hq
  · rw [ptr_direct ht' hq, x.addr_setAddr v q (by omega), ptr_direct ht hq]
  · rw [if_neg (by omega)]
    by_cases h0 : x.addr NDIRECT = 0
    · rw [ptr_no_indirect (hn.trans h0) (by omega), ptr_no_indirect h0 (by omega)]
    · rw [ptr_indirect ht' (by rw [hn]; exact h0) hj, ptr_indirect ht h0 hj, hn]
  · rw [ptr_far hq, ptr_far hq, if_neg (by omega)]

theorem ptr_setIndirect (ht : x.type ≠ 0) (h0 : x.addr NDIRECT = 0) {b : Nat} (hb : d' b = fun _ => 0) :
    ptr d' (x.setAddr NDIRECT b) q = if q = NDIRECT then b else ptr d x q := by
  have ht' : (x.setAddr NDIRECT b).type ≠ 0 := ht
  have hn : (x.setAddr NDIRECT b).addr NDIRECT = b := by
    rw [x.addr_setAddr b NDIRECT (Nat.le_refl _), if_pos rfl]
  rcases place_cases q with hq | ⟨j, hj, rfl⟩ | hq
  · rw [ptr_direct ht' hq, x.addr_setAddr b q (Nat.le_refl _), ptr_direct ht hq]
  · rw [if_neg (by omega), ptr_no_indirect h0 (by omega)]
    by_cases hb0 : b = 0
    · exact ptr_no_indirect (hn.trans hb0) (by omega)
    · rw [ptr_indirect ht' (by rw [hn]; exact hb0) hj, hn, hb]
      rfl
  · rw [ptr_far hq, ptr_far hq, if_neg (by omega)]

theorem ptr_setWord (ht : x.type ≠ 0) (h0 : x.addr NDIRECT ≠ 0) {k : Nat} (hk : k < NINDIRECT) {v : Nat} (hv : v < 2 ^ 32)
    (hd : d' (x.addr NDIRECT) = setWord (d (x.addr NDIRECT)) (4 * k) v) :
    ptr d' x q = if q = NDIRECT + 1 + k then v else ptr d x q := by
  rcases place_cases q with hq | ⟨j, hj, rfl⟩ | hq
  · rw [ptr_direct ht hq, ptr_direct ht hq, if_neg (by omega)]
  · rw [ptr_indirect ht h0 hj, ptr_indirect ht h0 hj, hd]
    by_cases e : j = k
    · subst e
      rw [if_pos rfl, word_setWord, Nat.mod_eq_of_lt hv]
    · rw [if_neg (by omega), word_setWord_of_ne (by omega)]
  · rw [ptr_far hq, ptr_far hq, if_neg (by omega)]

end

end Xv6.Fs
