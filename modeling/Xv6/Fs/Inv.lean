/-
  Xv6.Fs.Inv — what always holds of the blocks and the inode table.

  `Blocks D d`: the inodes `D` own the data blocks, one place each block that the bitmap marks and
  that is not lost (`Lost`), and no place another. `Table D s`: an inode is in one entry of the
  inode table at most, and a valid entry has a copy of it. `Base s`: so it is between changes,
  with `D` the inodes on disk, and every file has the blocks for its bytes. `Inv s`: besides, an
  inode without links that is still allocated is in the table, so that the last `iput` will find
  it, unless it is lost. `Mid D i s`: so it is while inode `i` is changed in memory.
-/

import Xv6.Fs.View
import Xv6.Fs.Inode
import Xv6.Lib.Owner

namespace Xv6.Fs

open Function (update update_self update_of_ne)

variable {sb : Superblock} {D D' : Nat → Dinode} {d d' : Disk} {s s' s'' : Core} {i j : Nat}

/-- What a function that is not `end_op` does to the log: an inode block that it changes is in
    the transaction. -/
structure Logs (sb : Superblock) (s s' : Core) : Prop where
  out : s'.outstanding = s.outstanding
  home : s'.home = s.home
  past : s'.past = s.past
  logged : ∀ b, s.logged b = true → s'.logged b = true
  disk : ∀ b < sb.bmapstart, s'.disk b ≠ s.disk b → s'.logged b = true

theorem Logs.refl : Logs sb s s := ⟨rfl, rfl, rfl, fun _ h => h, fun _ _ h => absurd rfl h⟩

theorem Logs.trans (h : Logs sb s s') (h' : Logs sb s' s'') : Logs sb s s'' := by
  refine ⟨h'.out.trans h.out, h'.home.trans h.home, h'.past.trans h.past, fun b hb => h'.logged b (h.logged b hb),
    fun b hb hne => ?_⟩
  by_cases e : s''.disk b = s'.disk b
  · exact h'.logged b (h.disk b hb (e ▸ hne))
  · exact h'.disk b hb e

/-! ## Writes -/

section

variable (hL : Layout sb)
include hL

theorem IBLOCK_lt_dataStart (hi : i < sb.ninodes) : IBLOCK sb i < dataStart sb :=
  Nat.lt_trans (IBLOCK_lt hL hi) bmapstart_lt

theorem dinode_update_data {b : Nat} (v : Block) (hb : dataStart sb ≤ b) (hi : i < sb.ninodes) :
    dinode sb (update d b v) i = dinode sb d i :=
  dinode_update_of_ne d v (by have := IBLOCK_lt_dataStart hL hi; omega)

theorem dinode_update_bitmap {b : Nat} (v : Block) (hi : i < sb.ninodes) :
    dinode sb (update d (BBLOCK sb b) v) i = dinode sb d i :=
  dinode_update_of_ne d v (by have := IBLOCK_lt hL hi; have : sb.bmapstart ≤ BBLOCK sb b := BBLOCK_ge b; omega)

theorem bit_setDinode (x : Dinode) (hi : i < sb.ninodes) {c : Nat} : bit sb (setDinode sb d i x) c = bit sb d c :=
  bit_update_of_ne d _ (by have := IBLOCK_lt hL hi; have : sb.bmapstart ≤ BBLOCK sb c := BBLOCK_ge c; omega)

end

theorem bit_update_data {b c : Nat} (v : Block) (hb : dataStart sb ≤ b) (hc : c < sb.size) :
    bit sb (update d b v) c = bit sb d c :=
  bit_update_of_ne d v (by have := BBLOCK_lt hc; omega)

def allocated (sb : Superblock) (d : Disk) (b : Nat) : Disk := update (setBit sb d b) b fun _ => 0

theorem bit_allocated {b c : Nat} (hb : dataStart sb ≤ b) (hc : c < sb.size) :
    bit sb (allocated sb d b) c = (c == b || bit sb d c) := by
  rw [allocated, bit_update_data _ hb hc, bit_setBit]

theorem dinode_allocated (hL : Layout sb) {b : Nat} (hb : dataStart sb ≤ b) (hi : i < sb.ninodes) :
    dinode sb (allocated sb d b) i = dinode sb d i := by
  rw [allocated, dinode_update_data hL _ hb hi, setBit, dinode_update_bitmap hL _ hi]

/-! ## The invariant -/

section

variable (sb) [Lost sb]

/-- The block at each place of each inode. A lost block has a place of its own. -/
def owner (D : Nat → Dinode) (d : Disk) (p : Nat × Nat) : Nat :=
  if p.1 < sb.ninodes then ptr d (D p.1) p.2
  else if p.1 = sb.ninodes ∧ Lost.block sb p.2 = true then p.2
  else 0

theorem owner_congr {D D' : Nat → Dinode} {d d' : Disk} (h : ∀ k < sb.ninodes, ∀ q, ptr d' (D' k) q = ptr d (D k) q) :
    owner sb D' d' = owner sb D d := by
  funext p
  unfold owner
  split
  · exact h _ ‹_› _
  · rfl

structure Blocks (D : Nat → Dinode) (d : Disk) : Prop where
  own : Lib.Owned (dataStart sb) sb.size (owner sb D d) (bit sb d)
  low : ∀ b < dataStart sb, b < sb.size → bit sb d b = true
  fits : ∀ i, (D i).Fits

structure Table (D : Nat → Dinode) (s : Core) : Prop where
  high : ∀ j, NINODE ≤ j → (s.itable j).ref = 0
  unique : ∀ j k, 0 < (s.itable j).ref → 0 < (s.itable k).ref → (s.itable j).inum = (s.itable k).inum → j = k
  lt : ∀ j, 0 < (s.itable j).ref → (s.itable j).inum < sb.ninodes
  live : ∀ j, 0 < (s.itable j).ref → Live sb (s.itable j).inum
  copy : ∀ j, 0 < (s.itable j).ref → (s.itable j).valid = true →
    (s.itable j).d = D (s.itable j).inum ∧ (s.itable j).d.type ≠ 0

/-- Entry `j` is in use and has a copy of inode `i`. -/
structure Holds (s : Core) (j i : Nat) : Prop where
  ref : 0 < (s.itable j).ref
  inum : (s.itable j).inum = i
  valid : (s.itable j).valid = true

structure Mid (D : Nat → Dinode) (i : Nat) (s : Core) : Prop where
  blocks : Blocks sb D s.disk
  table : Table sb D s
  disk : ∀ k < sb.ninodes, k ≠ i → dinode sb s.disk k = D k

structure Base (s : Core) : Prop where
  blocks : Blocks sb (dinode sb s.disk) s.disk
  table : Table sb (dinode sb s.disk) s
  sound : ∀ k < sb.ninodes, (dinode sb s.disk k).type ≠ 0 → Sound s.disk (dinode sb s.disk k)
  lost : ∀ k < sb.ninodes, ¬ Live sb k → (dinode sb s.disk k).type ≠ 0

structure Inv (s : Core) : Prop extends Base sb s where
  orphan : ∀ i < sb.ninodes, Live sb i → (dinode sb s.disk i).type ≠ 0 → (dinode sb s.disk i).nlink = 0 → ∃ j, Holds s j i

end

theorem owner_of_nothing (p : Nat × Nat) : owner sb D d p = if p.1 < sb.ninodes then ptr d (D p.1) p.2 else 0 := by
  unfold owner
  split
  · rfl
  · exact if_neg fun h => Bool.noConfusion h.2

variable [Lost sb]

theorem Base.mid (h : Base sb s) (i : Nat) : Mid sb (dinode sb s.disk) i s :=
  ⟨h.blocks, h.table, fun _ _ _ => rfl⟩

theorem Mid.base (h : Mid sb D i s) (hd : i < sb.ninodes → dinode sb s.disk i = D i)
    (hs : ∀ k < sb.ninodes, (D k).type ≠ 0 → Sound s.disk (D k)) (hl : ∀ k < sb.ninodes, ¬ Live sb k → (D k).type ≠ 0) :
    Base sb s := by
  have hD : ∀ k < sb.ninodes, dinode sb s.disk k = D k := by
    intro k hk
    by_cases e : k = i
    · subst e; exact hd hk
    · exact h.disk k hk e
  have hown : owner sb (dinode sb s.disk) s.disk = owner sb D s.disk := owner_congr sb fun k hk q => by rw [hD k hk]
  refine ⟨⟨?_, h.blocks.low, fun i => dinode_fits ..⟩, { h.table with copy := fun j hr hv => ?_ }, fun k hk ht => ?_,
    fun k hk hk' => ?_⟩
  · rw [hown]; exact h.blocks.own
  · rw [hD _ (h.table.lt j hr)]
    exact h.table.copy j hr hv
  · rw [hD k hk] at ht ⊢
    exact hs k hk ht
  · rw [hD k hk]
    exact hl k hk hk'

theorem Mid.copy_eq (h : Mid sb D i s) (hj : Holds s j i) : (s.itable j).d = D i ∧ (D i).type ≠ 0 := by
  have := h.table.copy j hj.ref hj.valid
  rw [hj.inum] at this
  exact ⟨this.1, this.1 ▸ this.2⟩

theorem Mid.lt (h : Mid sb D i s) (hj : Holds s j i) : i < sb.ninodes := hj.inum ▸ h.table.lt j hj.ref

theorem Mid.live (h : Mid sb D i s) (hj : Holds s j i) : Live sb i := hj.inum ▸ h.table.live j hj.ref

theorem Table.same (h : Table sb D s) (e : s'.itable = s.itable) : Table sb D s' :=
  ⟨e ▸ h.high, e ▸ h.unique, e ▸ h.lt, e ▸ h.live, e ▸ h.copy⟩

theorem Table.lt_NINODE (h : Table sb D s) (hj : 0 < (s.itable j).ref) : j < NINODE := by
  by_contra hn
  have := h.high j (by omega)
  omega

/-! ## What a place owns -/

section

variable (h : Blocks sb D d)
include h

theorem Blocks.range (hi : i < sb.ninodes) {q : Nat} (hq : ptr d (D i) q ≠ 0) :
    dataStart sb ≤ ptr d (D i) q ∧ ptr d (D i) q < sb.size := by
  have e : owner sb D d (i, q) = ptr d (D i) q := if_pos hi
  have := h.own.range (i, q) (by rw [e]; exact hq)
  rwa [e] at this

theorem Blocks.marked (hi : i < sb.ninodes) {q : Nat} (hq : ptr d (D i) q ≠ 0) : bit sb d (ptr d (D i) q) = true := by
  have e : owner sb D d (i, q) = ptr d (D i) q := if_pos hi
  have := h.own.used_of (p := (i, q)) (by rw [e]; exact hq)
  rwa [e] at this

theorem Blocks.inj {k : Nat} (hi : i < sb.ninodes) (hk : k < sb.ninodes) {q r : Nat}
    (hq : ptr d (D i) q ≠ 0) (e : ptr d (D i) q = ptr d (D k) r) : i = k ∧ q = r := by
  have e1 : owner sb D d (i, q) = ptr d (D i) q := if_pos hi
  have e2 : owner sb D d (k, r) = ptr d (D k) r := if_pos hk
  have := h.own.inj (i, q) (k, r) (by rw [e1]; exact hq) (by rw [e1, e2]; exact e)
  exact ⟨congrArg Prod.fst this, congrArg Prod.snd this⟩

theorem Blocks.ne_of_clear {b : Nat} (hb : bit sb d b = false) (hi : i < sb.ninodes) {q : Nat}
    (hq : ptr d (D i) q ≠ 0) : ptr d (D i) q ≠ b := by
  rintro rfl
  rw [h.marked hi hq] at hb
  cases hb

theorem Blocks.ne_of_low {b : Nat} (hb : b < dataStart sb) (hi : i < sb.ninodes) {q : Nat}
    (hq : ptr d (D i) q ≠ 0) : ptr d (D i) q ≠ b := by
  have := (h.range hi hq).1
  omega

theorem Blocks.ne_of_other {k : Nat} (hi : i < sb.ninodes) (hk : k < sb.ninodes) (hki : k ≠ i)
    {q r : Nat} (hq : ptr d (D k) q ≠ 0) : ptr d (D k) q ≠ ptr d (D i) r := fun e => hki (h.inj hk hi hq e).1

end

theorem agree_allocated {b : Nat} (hs : b < sb.size) (h : Blocks sb D d) (hc : bit sb d b = false) (hi : i < sb.ninodes) :
    Agree d (allocated sb d b) (D i) := by
  intro q hq
  rw [allocated, update_of_ne (h.ne_of_clear hc hi hq), setBit,
    update_of_ne (h.ne_of_low (BBLOCK_lt hs) hi hq)]

theorem agree_setDinode (hL : Layout sb) (h : Blocks sb D d) {k : Nat} (x : Dinode) (hk : k < sb.ninodes)
    (hi : i < sb.ninodes) : Agree d (setDinode sb d k x) (D i) := by
  intro q hq
  rw [setDinode, update_of_ne (h.ne_of_low (IBLOCK_lt_dataStart hL hk) hi hq)]

/-! ## Ownership changes hands -/

theorem Blocks.give (h : Blocks sb D d) {q b : Nat} (hi : i < sb.ninodes) (hq : ptr d (D i) q = 0)
    (hb : dataStart sb ≤ b) (hs : b < sb.size) (hc : bit sb d b = false)
    (hown : ∀ p, owner sb D' d' p = if p = (i, q) then b else owner sb D d p)
    (hbit : ∀ c < sb.size, bit sb d' c = (c == b || bit sb d c)) (hfits : ∀ k, (D' k).Fits) : Blocks sb D' d' := by
  have e : owner sb D d (i, q) = 0 := by rw [owner, if_pos hi]; exact hq
  refine ⟨?_, fun c h1 h2 => by rw [hbit c h2, h.low c h1 h2, Bool.or_true], hfits⟩
  have := h.own.give dataStart_pos e hb hs hc
  have ho : owner sb D' d' = update (owner sb D d) (i, q) b := by
    funext p
    rw [hown p]
    by_cases ep : p = (i, q)
    · rw [if_pos ep, ep, update_self]
    · rw [if_neg ep, update_of_ne ep]
  rw [ho]
  refine this.congr_used fun c _ h2 => ?_
  rw [hbit c h2]
  by_cases ec : c = b
  · subst ec
    simp
  · rw [update_of_ne ec]
    simp [ec]

theorem Blocks.keep (h : Blocks sb D d) (hown : ∀ k < sb.ninodes, ∀ q, ptr d' (D' k) q = ptr d (D k) q)
    (hbit : ∀ c < sb.size, bit sb d' c = bit sb d c) (hfits : ∀ k, (D' k).Fits) : Blocks sb D' d' := by
  refine ⟨?_, fun c h1 h2 => by rw [hbit c h2]; exact h.low c h1 h2, hfits⟩
  rw [owner_congr sb hown]
  exact h.own.congr_used fun c _ h2 => hbit c h2

end Xv6.Fs
