/-
  Xv6.Fs.BlockSpecs — what `balloc`, `bfree`, `iupdate`, `bmap` and `itrunc` do, with the blocks
  changing hands between the bitmap and the inode that is changed.
-/

import Xv6.Fs.Inv
import Xv6.Lib.Update

namespace Xv6.Fs

open Function (update update_self update_of_ne update_eq_self update_idem)
open Lib (Wp wp_bind wp_ite wp_pure update_ind)

variable {sb : Superblock} {E : Panic → Prop} {D : Nat → Dinode} {s : Core} {i j : Nat}

/-! ## Buffers, entries -/

@[simp] theorem wp_bread {b : Nat} {Q : Block → Core → Prop} : Wp E (bread b) s Q = Q (s.disk b) s := rfl

@[simp] theorem wp_setBuf {b : Nat} {v : Block} {Q : Unit → Core → Prop} :
    Wp E (setBuf b v) s Q = Q () { s with disk := update s.disk b v } := rfl

@[simp] theorem wp_inode {Q : Inode → Core → Prop} : Wp E (inode j) s Q = Q (s.itable j) s := rfl

@[simp] theorem wp_setInode {ip : Inode} {Q : Unit → Core → Prop} :
    Wp E (setInode j ip) s Q = Q () { s with itable := update s.itable j ip } := rfl

@[simp] theorem wp_setCopy {f : Dinode → Dinode} {Q : Unit → Core → Prop} :
    Wp E (setCopy j f) s Q =
      Q () { s with itable := update s.itable j { s.itable j with d := f (s.itable j).d } } := rfl

theorem wp_bwrite (ho : 0 < s.outstanding) {b : Nat} {v : Block} {Q : Unit → Core → Prop} :
    Wp E (bwrite b v) s Q =
      Q () { s with disk := update s.disk b v, logged := update s.logged b true } := by
  have : ¬ s.outstanding < 1 := by omega
  simp only [bwrite, log_write, wp_bind, wp_setBuf, Lib.wp_get, this, if_false, Lib.wp_modify]

theorem logs_bwrite {b : Nat} {v : Block} : Logs sb s
    { s with disk := update s.disk b v, logged := update s.logged b true } := by
  refine ⟨rfl, rfl, rfl, fun c hc => ?_, fun c _ hne => ?_⟩
  · by_cases e : c = b
    · rw [e]; exact update_self ..
    · exact (update_of_ne e ..).trans hc
  · by_cases e : c = b
    · rw [e]; exact update_self ..
    · exact absurd (update_of_ne e ..) hne

theorem logs_itable {t : Nat → Inode} : Logs sb s { s with itable := t } :=
  ⟨rfl, rfl, rfl, fun _ h => h, fun _ _ h => absurd rfl h⟩

/-! ## balloc, bfree -/

def NoSpace (sb : Superblock) (d : Disk) : Prop := ∀ b < sb.size, bit sb d b = true

/-- Block `b` was the first free one, and has been allocated. -/
structure Allocated (sb : Superblock) (s : Core) (b : Nat) (s' : Core) : Prop where
  lt : b < sb.size
  free : bit sb s.disk b = false
  least : ∀ c < b, bit sb s.disk c = true
  disk : s'.disk = allocated sb s.disk b
  itable : s'.itable = s.itable
  logs : Logs sb s s'

theorem Allocated.others {s' : Core} {b k : Nat} (h : Allocated sb s b s') (h1 : k ≠ b) (h2 : k ≠ BBLOCK sb b) :
    s'.disk k = s.disk k := by
  rw [h.disk, allocated, update_of_ne h1, setBit, update_of_ne h2]

theorem Allocated.zeroed {s' : Core} {b : Nat} (h : Allocated sb s b s') : s'.disk b = fun _ => 0 := by
  rw [h.disk, allocated, update_self]

/-- By induction on the rounds; before round `m` every block below `m * BPB` is taken. -/
theorem wp_ballocFrom (ho : 0 < s.outstanding) {n m : Nat} (hn : sb.size ≤ (m + n) * BPB)
    (hfull : ∀ b < m * BPB, b < sb.size → bit sb s.disk b = true) :
    Wp E (ballocFrom sb n (m * BPB)) s fun b s' =>
      (b = 0 ∧ s' = s ∧ NoSpace sb s.disk) ∨ Allocated sb s b s' := by
  induction n generalizing m with
  | zero => exact .inl ⟨rfl, rfl, fun b hb => hfull b (Nat.lt_of_lt_of_le hb hn) hb⟩
  | succ n ih =>
    have hpos : 0 < BPB := by decide
    -- the bits of one bitmap block
    have hblock : ∀ bi < BPB, BBLOCK sb (m * BPB + bi) = BBLOCK sb (m * BPB) ∧ (m * BPB + bi) % BPB = bi := fun bi hlt => by
      have h1 : (m * BPB + bi) / BPB = m := by
        rw [Nat.mul_comm, Nat.mul_add_div hpos, Nat.div_eq_of_lt hlt, Nat.add_zero]
      rw [BBLOCK, BBLOCK, h1, Nat.mul_div_cancel _ hpos, Nat.mul_comm, Nat.mul_add_mod, Nat.mod_eq_of_lt hlt]
      exact ⟨rfl, rfl⟩
    -- blocks below the round, and those of it that are marked
    have hbelow : ∀ k ≤ BPB, (∀ bi < k, m * BPB + bi < sb.size → marked (s.disk (BBLOCK sb (m * BPB))) bi = true) →
        ∀ b < m * BPB + k, b < sb.size → bit sb s.disk b = true := by
      intro k hk hmarked b hb hs
      rcases Nat.lt_or_ge b (m * BPB) with hlt | hge
      · exact hfull b hlt hs
      · obtain ⟨h1, h2⟩ := hblock (b - m * BPB) (by omega)
        rw [Nat.add_sub_cancel' hge] at h1 h2
        rw [bit, h1, h2]
        exact hmarked _ (by omega) (by omega)
    simp only [ballocFrom, wp_bind, wp_bread]
    split
    · rename_i bi hbi
      obtain ⟨-, hlt, hfree, hleast⟩ := Lib.first_some hbi
      obtain ⟨hblock, hmod⟩ := hblock bi (by omega)
      simp only [bzero, wp_bind, wp_pure]
      rw [wp_bwrite ho, wp_bwrite (by exact ho)]
      refine .inr ⟨by omega, ?_, fun c hc => ?_, ?_, rfl, logs_bwrite.trans logs_bwrite⟩
      · rw [bit, hblock, hmod]
        simpa using hfree
      · refine hbelow bi (by omega) (fun c hc _ => ?_) c hc (by omega)
        simpa using hleast c (Nat.zero_le _) hc
      · show update (update s.disk (BBLOCK sb (m * BPB)) _) _ _ = _
        rw [allocated, setBit, hblock, hmod]
    · rename_i hnone
      have e : m * BPB + BPB = (m + 1) * BPB := by rw [Nat.add_mul, Nat.one_mul]
      rw [e]
      refine ih (by rw [Nat.add_right_comm, Nat.add_assoc]; exact hn) ?_
      rw [← e]
      refine hbelow BPB (Nat.le_refl _) fun bi hbi hs => ?_
      simpa using Lib.first_none hnone bi (Nat.zero_le _) (by omega)

theorem wp_balloc_first (ho : 0 < s.outstanding) :
    Wp E (balloc sb) s fun b s' => (b = 0 ∧ s' = s ∧ NoSpace sb s.disk) ∨ Allocated sb s b s' := by
  have hn : sb.size ≤ (0 + (sb.size + BPB - 1) / BPB) * BPB := by
    simp only [BPB, BSIZE]
    omega
  have := wp_ballocFrom (E := E) ho hn fun b hb => absurd hb (by omega)
  rwa [Nat.zero_mul] at this

/-- Where the blocks below the data area are marked, the block is one of it. -/
theorem wp_balloc (hlow : ∀ b < dataStart sb, b < sb.size → bit sb s.disk b = true) (ho : 0 < s.outstanding) :
    Wp E (balloc sb) s fun b s' =>
      (b = 0 ∧ s' = s ∧ NoSpace sb s.disk) ∨ (dataStart sb ≤ b ∧ b < sb.size ∧ bit sb s.disk b = false ∧
        s'.disk = allocated sb s.disk b ∧ s'.itable = s.itable ∧ Logs sb s s') := by
  refine (wp_balloc_first ho).mono fun b s' hb => hb.imp_right fun h => ⟨?_, h.lt, h.free, h.disk, h.itable, h.logs⟩
  by_contra hn
  have := hlow b (by omega) h.lt
  rw [h.free] at this
  cases this

theorem wp_bfree (ho : 0 < s.outstanding) {b : Nat} (hb : bit sb s.disk b = true) :
    Wp E (bfree sb b) s fun _ s' =>
      s'.disk = clearBit sb s.disk b ∧ s'.itable = s.itable ∧ Logs sb s s' := by
  have hb : marked (s.disk (BBLOCK sb b)) (b % BPB) = true := hb
  simp only [bfree, wp_bind, wp_bread, hb, if_true]
  rw [wp_bwrite ho]
  exact ⟨rfl, rfl, logs_bwrite⟩

/-! ## The copy of the inode that is changed -/

/-- The table after the copy in entry `j` has become `x`. -/
def setD (t : Nat → Inode) (j : Nat) (x : Dinode) : Nat → Inode := update t j { t j with d := x }

theorem setD_self (t : Nat → Inode) (j : Nat) (x : Dinode) : setD t j x j = { t j with d := x } := update_self ..

theorem setD_of_ne {t : Nat → Inode} {j k : Nat} (x : Dinode) (h : k ≠ j) : setD t j x k = t k := update_of_ne h ..

section

variable (t : Nat → Inode) (j : Nat)

@[simp] theorem setD_ref (x : Dinode) (k : Nat) : (setD t j x k).ref = (t k).ref := by
  rw [setD]
  exact update_ind k rfl fun _ _ => rfl

@[simp] theorem setD_inum (x : Dinode) (k : Nat) : (setD t j x k).inum = (t k).inum := by
  rw [setD]
  exact update_ind k rfl fun _ _ => rfl

@[simp] theorem setD_valid (x : Dinode) (k : Nat) : (setD t j x k).valid = (t k).valid := by
  rw [setD]
  exact update_ind k rfl fun _ _ => rfl

theorem setD_setD (x y : Dinode) : setD (setD t j x) j y = setD t j y := by
  rw [setD, setD_self, setD, setD, update_idem]

theorem setD_copy : setD t j (t j).d = t := update_eq_self ..

end

theorem Holds.setD {s' : Core} (h : Holds s j i) {k : Nat} {x : Dinode} (e : s'.itable = setD s.itable k x) : Holds s' j i :=
  ⟨by rw [e, setD_ref]; exact h.ref, by rw [e, setD_inum]; exact h.inum, by rw [e, setD_valid]; exact h.valid⟩

variable [Lost sb]

theorem Table.setD {s' : Core} (h : Table sb D s) (hj : Holds s j i) {x : Dinode} (hx : x.type ≠ 0)
    (e : s'.itable = setD s.itable j x) : Table sb (update D i x) s' := by
  refine ⟨fun k hk => ?_, fun k l => ?_, fun k => ?_, fun k => ?_, fun k hr hv => ?_⟩
  · rw [e, setD_ref]; exact h.high k hk
  · rw [e, setD_ref, setD_ref, setD_inum, setD_inum]; exact h.unique k l
  · rw [e, setD_ref, setD_inum]; exact h.lt k
  · rw [e, setD_ref, setD_inum]; exact h.live k
  · rw [e, setD_ref] at hr
    rw [e, setD_valid] at hv
    rw [e, setD_inum]
    by_cases ek : k = j
    · subst ek
      rw [setD_self, hj.inum, update_self]
      exact ⟨rfl, hx⟩
    · have hne : (s.itable k).inum ≠ i := fun hi => ek (h.unique k j hr hj.ref (hi.trans hj.inum.symm))
      rw [setD_of_ne x ek, update_of_ne hne]
      exact h.copy k hr hv

theorem Mid.setD {s' : Core} (h : Mid sb D i s) (hj : Holds s j i) {x : Dinode} (hx : x.type ≠ 0)
    (e : s'.itable = setD s.itable j x) (hb : Blocks sb (update D i x) s'.disk)
    (hd : ∀ k < sb.ninodes, dinode sb s'.disk k = dinode sb s.disk k) : Mid sb (update D i x) i s' := by
  refine ⟨hb, h.table.setD hj hx e, fun k hk hki => ?_⟩
  rw [update_of_ne hki, hd k hk]
  exact h.disk k hk hki

/-! ## bmap -/

/-- The file has kept its blocks, and may have got more, which are zero. -/
structure Grown (d d' : Disk) (x x' : Dinode) : Prop where
  type : x'.type = x.type
  major : x'.major = x.major
  minor : x'.minor = x.minor
  nlink : x'.nlink = x.nlink
  size : x'.size = x.size
  ptr : ∀ q, ptr d x q ≠ 0 → Fs.ptr d' x' q = Fs.ptr d x q
  data : ∀ n, blk d x n ≠ 0 → d' (blk d x n) = d (blk d x n)
  fresh : ∀ n, blk d x n = 0 → blk d' x' n ≠ 0 → d' (blk d' x' n) = fun _ => 0

section

variable {d d' d'' : Disk} {x x' x'' : Dinode}

theorem Grown.refl : Grown d d x x :=
  ⟨rfl, rfl, rfl, rfl, rfl, fun _ _ => rfl, fun _ _ => rfl, fun _ h0 hne => absurd h0 hne⟩

theorem Grown.blk_eq (h : Grown d d' x x') {n : Nat} (hn : blk d x n ≠ 0) : blk d' x' n = blk d x n := h.ptr _ hn

theorem Grown.trans (h : Grown d d' x x') (h' : Grown d' d'' x' x'') : Grown d d'' x x'' := by
  refine ⟨h'.type.trans h.type, h'.major.trans h.major, h'.minor.trans h.minor, h'.nlink.trans h.nlink,
    h'.size.trans h.size, fun q hq => ?_, fun n hn => ?_, fun n h0 hne => ?_⟩
  · rw [← h.ptr q hq]
    exact h'.ptr q (by rw [h.ptr q hq]; exact hq)
  · have e := h.blk_eq hn
    rw [← h.data n hn, ← e]
    exact h'.data n (by rw [e]; exact hn)
  · by_cases h1 : blk d' x' n = 0
    · exact h'.fresh n h1 hne
    · rw [h'.blk_eq h1, h'.data n h1]
      exact h.fresh n h0 h1

end

/-- What `bmap` leaves behind: the inode as `x'`, grown, and the rest as it was. -/
structure Mapped (sb : Superblock) [Lost sb] (D : Nat → Dinode) (i j : Nat) (s : Core) (x' : Dinode) (s' : Core) : Prop where
  mid : Mid sb (update D i x') i s'
  grown : Grown s.disk s'.disk (D i) x'
  itable : s'.itable = setD s.itable j x'
  others : ∀ k < sb.ninodes, k ≠ i → Agree s.disk s'.disk (D k)
  logs : Logs sb s s'

theorem Mapped.refl (hm : Mid sb D i s) (hj : Holds s j i) : Mapped sb D i j s (D i) s := by
  refine ⟨?_, .refl, ?_, fun _ _ _ _ _ => rfl, .refl⟩
  · rw [update_eq_self]; exact hm
  · rw [← (hm.copy_eq hj).1, setD_copy]

theorem Mapped.trans {s' s'' : Core} {x' x'' : Dinode} (h : Mapped sb D i j s x' s')
    (h' : Mapped sb (update D i x') i j s' x'' s'') : Mapped sb D i j s x'' s'' := by
  have hm := h'.mid
  rw [update_idem] at hm
  have hg := h'.grown
  rw [update_self] at hg
  refine ⟨hm, h.grown.trans hg, ?_, fun k hk hki => ?_, h.logs.trans h'.logs⟩
  · rw [h'.itable, h.itable, setD_setD]
  · have := h'.others k hk hki
    rw [update_of_ne hki] at this
    exact (h.others k hk hki).trans this

theorem fits_update (h : ∀ k, (D k).Fits) {x : Dinode} (hx : x.Fits) : ∀ k, (update D i x k).Fits :=
  (Function.forall_update_iff D fun _ => Dinode.Fits).mpr ⟨hx, fun k _ => h k⟩

theorem Dinode.Fits.setAddr {x : Dinode} (h : x.Fits) {k v : Nat} (hv : v < 2 ^ 32) : (x.setAddr k v).Fits := by
  refine ⟨h.type, h.major, h.minor, h.nlink, h.size, fun q => ?_⟩
  show (if q.val = k then v else x.addrs q) < 2 ^ 32
  split
  · exact hv
  · exact h.addrs q

theorem owner_update {d d' : Disk} (hi : i < sb.ninodes) {x : Dinode} {q b : Nat}
    (hx : ∀ r, ptr d' x r = if r = q then b else ptr d (D i) r)
    (ha : ∀ k < sb.ninodes, k ≠ i → Agree d d' (D k)) (p : Nat × Nat) :
    owner sb (update D i x) d' p = if p = (i, q) then b else owner sb D d p := by
  obtain ⟨k, r⟩ := p
  unfold owner
  by_cases hk : k < sb.ninodes
  · rw [if_pos hk, if_pos hk]
    by_cases e : k = i
    · subst e
      rw [update_self, hx r]
      simp
    · rw [update_of_ne e, if_neg (by simp [e]), (ha k hk e).ptr_eq]
  · have hne : (k, r) ≠ (i, q) := by
      rintro ⟨⟩
      exact hk hi
    rw [if_neg hk, if_neg hk, if_neg hne]

/-- The allocated block `b` becomes the one at place `q` of the inode, by a change of its copy
    and of the disk that leaves its other places alone. -/
theorem Mapped.give (hL : Layout sb) (hm : Mid sb D i s) (hj : Holds s j i) {s' : Core} {x : Dinode} {q b : Nat}
    (hq : ptr s.disk (D i) q = 0) (hb : dataStart sb ≤ b) (hs : b < sb.size) (hc : bit sb s.disk b = false)
    (hx : ∀ r, ptr s'.disk x r = if r = q then b else ptr s.disk (D i) r) (hfx : x.Fits)
    (he : x.type = (D i).type ∧ x.major = (D i).major ∧ x.minor = (D i).minor ∧ x.nlink = (D i).nlink ∧
      x.size = (D i).size)
    (hd : ∀ c, c ≠ (D i).addr NDIRECT ∨ (D i).addr NDIRECT = 0 → s'.disk c = allocated sb s.disk b c)
    (ht : s'.itable = setD s.itable j x) (hl : Logs sb s s') : Mapped sb D i j s x s' := by
  obtain ⟨-, htype⟩ := hm.copy_eq hj
  have hi := hm.lt hj
  have hind : (D i).addr NDIRECT = ptr s.disk (D i) NDIRECT := (ptr_direct htype (Nat.le_refl _)).symm
  -- the indirect block, which may have changed, is of the data area, and no other inode's
  have hdlow : ∀ c < dataStart sb, s'.disk c = allocated sb s.disk b c := by
    intro c hlt
    refine hd c ?_
    by_cases h0 : (D i).addr NDIRECT = 0
    · exact .inr h0
    · rw [hind] at h0
      have := hm.blocks.range hi h0
      exact .inl (by omega)
  have ha : ∀ k < sb.ninodes, k ≠ i → Agree s.disk s'.disk (D k) := by
    intro k hk hki r hr
    rw [hd _ ?_]
    · exact agree_allocated hs hm.blocks hc hk r hr
    · rw [hind]
      exact .inl (hm.blocks.ne_of_other hi hk hki hr)
  have hdn : ∀ k < sb.ninodes, dinode sb s'.disk k = dinode sb s.disk k := by
    intro k hk
    rw [dinode, hdlow _ (IBLOCK_lt_dataStart hL hk)]
    exact dinode_allocated hL hb hk
  have hbit : ∀ c < sb.size, bit sb s'.disk c = (c == b || bit sb s.disk c) := by
    intro c hcs
    rw [bit, hdlow _ (BBLOCK_lt hcs)]
    exact bit_allocated hb hcs
  have hblocks := hm.blocks.give hi hq hb hs hc (owner_update hi hx ha) hbit (fits_update hm.blocks.fits hfx)
  refine ⟨hm.setD hj (by rw [he.1]; exact htype) ht hblocks hdn, ?_, ht, ha, hl⟩
  have hbind : b ≠ (D i).addr NDIRECT ∨ (D i).addr NDIRECT = 0 := by
    by_cases h0 : (D i).addr NDIRECT = 0
    · exact .inr h0
    · rw [hind] at h0 ⊢
      exact .inl (hm.blocks.ne_of_clear hc hi h0).symm
  refine ⟨he.1, he.2.1, he.2.2.1, he.2.2.2.1, he.2.2.2.2, fun r hr => ?_, fun n hn => ?_, fun n h0 hne => ?_⟩
  · rw [hx r, if_neg]
    rintro rfl
    exact hr hq
  · have hne : blk s.disk (D i) n ≠ (D i).addr NDIRECT := by
      intro e
      rw [hind] at e
      exact place_ne (hm.blocks.inj hi hi hn e).2
    rw [hd _ (.inl hne)]
    exact agree_allocated hs hm.blocks hc hi _ hn
  · -- the only new block is `b`
    rw [blk, hx] at hne ⊢
    by_cases e : place n = q
    · rw [if_pos e, hd b hbind]
      exact update_self ..
    · rw [if_neg e] at hne
      exact absurd h0 hne

omit [Lost sb] in
theorem size_lt_word (hL : Layout sb) {b : Nat} (hb : b < sb.size) : b < 2 ^ 32 := by
  have := hL.size_lt
  omega

section

variable (hL : Layout sb) (hm : Mid sb D i s) (hj : Holds s j i)
include hL hm hj

theorem wp_bmapAddr {k : Nat} (hk : k ≤ NDIRECT)
    (ho : 0 < s.outstanding ∨ (D i).addr k ≠ 0) : Wp E (bmapAddr sb j k) s fun r s' =>
      ∃ x', Mapped sb D i j s x' s' ∧ x'.addr k = r ∧
        ((D i).addr k ≠ 0 → s' = s ∧ x' = D i ∧ r = (D i).addr k) ∧ (r = 0 → NoSpace sb s'.disk) ∧
        ∀ q, q ≠ k → ptr s'.disk x' q = ptr s.disk (D i) q := by
  obtain ⟨hcopy, htype⟩ := hm.copy_eq hj
  have hi := hm.lt hj
  simp only [bmapAddr, wp_bind, wp_inode, hcopy]
  refine wp_ite (fun h0 => ?_) fun h0 =>
    ⟨D i, .refl hm hj, rfl, fun _ => ⟨rfl, rfl, rfl⟩, fun h => absurd h h0, fun _ _ => rfl⟩
  have ho : 0 < s.outstanding := ho.resolve_right (not_not.mpr h0)
  simp only [wp_bind]
  refine (wp_balloc hm.blocks.low ho).mono fun b s' hb => ?_
  rcases hb with ⟨rfl, rfl, hfull⟩ | ⟨hb, hs, hc, hd, ht, hl⟩
  · rw [if_pos rfl]
    exact ⟨D i, .refl hm hj, h0, fun h => absurd h0 h, fun _ => hfull, fun _ _ => rfl⟩
  · have hb0 : b ≠ 0 := by have : 0 < dataStart sb := dataStart_pos; omega
    simp only [hb0, if_false, wp_bind, wp_setCopy, wp_pure]
    have e : { s'.itable j with d := (s'.itable j).d.setAddr k b } =
        { s'.itable j with d := (D i).setAddr k b } := by rw [ht, hcopy]
    rw [e]
    have hptr : ∀ r, ptr s'.disk ((D i).setAddr k b) r = if r = k then b else ptr s.disk (D i) r := fun r => by
      rw [hd]
      rcases Nat.lt_or_eq_of_le hk with hk | rfl
      · rw [ptr_setAddr htype hk, (agree_allocated hs hm.blocks hc hi).ptr_eq]
      · exact ptr_setIndirect htype h0 (update_self ..)
    refine ⟨(D i).setAddr k b, ?_, ?_, fun h => absurd h0 h, fun h => h.elim, fun q hq => by rw [hptr, if_neg hq]⟩
    · exact Mapped.give hL hm hj (q := k) (by rw [ptr_direct htype hk, h0]) hb hs hc hptr
        ((hm.blocks.fits i).setAddr (size_lt_word hL hs)) ⟨rfl, rfl, rfl, rfl, rfl⟩ (fun c _ => by rw [hd])
        (by rw [← ht]; rfl) (hl.trans logs_itable)
    · rw [(D i).addr_setAddr b k hk, if_pos rfl]

theorem wp_bmapWord {k : Nat} (hk : k < NINDIRECT) (h0 : (D i).addr NDIRECT ≠ 0)
    (ho : 0 < s.outstanding ∨ word (s.disk ((D i).addr NDIRECT)) (4 * k) ≠ 0) {c : M Nat}
    (hc : c = (do
      let addr := word (← bread ((D i).addr NDIRECT)) (4 * k)
      if addr = 0 then do
        let addr ← balloc sb
        if addr ≠ 0 then do
          let bp ← bread ((D i).addr NDIRECT)
          bwrite ((D i).addr NDIRECT) (setWord bp (4 * k) addr)
        return addr
      return addr)) : Wp E c s fun r s' =>
      ∃ x', Mapped sb D i j s x' s' ∧ ptr s'.disk x' (NDIRECT + 1 + k) = r ∧
        (ptr s.disk (D i) (NDIRECT + 1 + k) ≠ 0 → s' = s ∧ x' = D i ∧ r = ptr s.disk (D i) (NDIRECT + 1 + k)) ∧
        (r = 0 → NoSpace sb s'.disk) ∧ ∀ q, q ≠ NDIRECT + 1 + k → ptr s'.disk x' q = ptr s.disk (D i) q := by
  obtain ⟨hcopy, htype⟩ := hm.copy_eq hj
  have hi := hm.lt hj
  have hptr := ptr_indirect (d := s.disk) htype h0 hk
  have hind := ptr_direct (d := s.disk) htype (Nat.le_refl NDIRECT)
  subst hc
  simp only [wp_bind, wp_bread]
  refine wp_ite (fun hz => ?_) fun hz =>
    ⟨D i, .refl hm hj, hptr, fun _ => ⟨rfl, rfl, hptr.symm⟩, fun h => absurd h hz, fun _ _ => rfl⟩
  have ho : 0 < s.outstanding := ho.resolve_right (not_not.mpr hz)
  simp only [wp_bind]
  refine (wp_balloc hm.blocks.low ho).mono fun b s' hb => ?_
  rcases hb with ⟨rfl, rfl, hfull⟩ | ⟨hb, hs, hc, hd, ht, hl⟩
  · rw [if_neg (by simp)]
    exact ⟨D i, .refl hm hj, hptr.trans hz, fun h => absurd (hptr.trans hz) h, fun _ => hfull, fun _ _ => rfl⟩
  · have hb0 : b ≠ 0 := by have : 0 < dataStart sb := dataStart_pos; omega
    have ho' : 0 < s'.outstanding := by rw [hl.out]; exact ho
    simp only [ne_eq, hb0, not_false_eq_true, if_true, wp_bind, wp_bread, wp_pure]
    rw [wp_bwrite ho']
    -- the indirect block is not the new one, nor a bitmap block
    have hindb : s'.disk ((D i).addr NDIRECT) = s.disk ((D i).addr NDIRECT) := by
      have := agree_allocated hs hm.blocks hc hi NDIRECT (by rw [hind]; exact h0)
      rw [hind] at this
      rw [hd, this]
    have hword : ∀ r, ptr (update s'.disk ((D i).addr NDIRECT)
        (setWord (s'.disk ((D i).addr NDIRECT)) (4 * k) b)) (D i) r =
        if r = NDIRECT + 1 + k then b else ptr s.disk (D i) r := fun r =>
      ptr_setWord htype h0 hk (size_lt_word hL hs) (by rw [update_self, hindb])
    refine ⟨D i, ?_, by rw [hword, if_pos rfl], fun h => absurd (hptr.trans hz) h, fun h => h.elim,
      fun q hq => by rw [hword, if_neg hq]⟩
    refine Mapped.give hL hm hj (q := NDIRECT + 1 + k) (hptr.trans hz) hb hs hc hword (hm.blocks.fits i)
      ⟨rfl, rfl, rfl, rfl, rfl⟩ (fun c hc => ?_) ?_ (hl.trans logs_bwrite)
    · have hne : c ≠ (D i).addr NDIRECT := hc.resolve_right h0
      show update s'.disk _ _ c = _
      rw [update_of_ne hne, hd]
    · show s'.itable = _
      rw [ht, ← hcopy, setD_copy]

/-- `bmap` returns the block that is there afterwards, or 0 if there is none and no block is free. -/
theorem wp_bmap {bn : Nat} (hbn : bn < MAXFILE)
    (ho : 0 < s.outstanding ∨ blk s.disk (D i) bn ≠ 0) : Wp E (bmap sb j bn) s fun r s' =>
      ∃ x', Mapped sb D i j s x' s' ∧ blk s'.disk x' bn = r ∧
        (blk s.disk (D i) bn ≠ 0 → s' = s ∧ x' = D i ∧ r = blk s.disk (D i) bn) ∧ (r = 0 → NoSpace sb s'.disk) ∧
        ∀ m, m ≠ bn → blk s'.disk x' m = blk s.disk (D i) m := by
  obtain ⟨hcopy, htype⟩ := hm.copy_eq hj
  simp only [bmap]
  refine wp_ite (fun hdir => ?_) fun hdir => ?_
  · have hb : ∀ (d : Disk) (x : Dinode), x.type ≠ 0 → blk d x bn = x.addr bn := fun d x hx => by
      rw [blk, place, if_pos hdir, ptr_direct hx (by omega)]
    rw [hb s.disk (D i) htype] at ho ⊢
    refine (wp_bmapAddr hL hm hj (Nat.le_of_lt hdir) ho).mono fun r s' ⟨x', hx, hr, hs, hfull, hptr⟩ =>
      ⟨x', hx, ?_, hs, hfull, fun m hm => hptr _ fun e => hm (place_inj (e.trans (if_pos hdir).symm))⟩
    rw [hb s'.disk x' (by rw [hx.grown.type]; exact htype)]
    exact hr
  · have hk : bn - NDIRECT < NINDIRECT := by simp only [MAXFILE] at hbn; omega
    have hplace : place bn = NDIRECT + 1 + (bn - NDIRECT) := by rw [place, if_neg hdir]; omega
    rw [if_pos hk]
    -- where the block is there, so is the indirect block
    have hind : blk s.disk (D i) bn ≠ 0 → (D i).addr NDIRECT ≠ 0 := fun h h0 => by
      rw [blk, hplace] at h
      exact h (ptr_no_indirect h0 (by omega))
    simp only [wp_bind]
    refine (wp_bmapAddr hL hm hj (Nat.le_refl _) (ho.imp_right hind)).mono fun ind s1 ⟨x1, hx1, hr1, hs1, hfull, hptr1⟩ => ?_
    refine wp_ite (fun h0 => ?_) fun h0 => ?_
    · refine ⟨x1, hx1, ?_, fun h => absurd ((hs1 (hind h)).2.2.symm.trans h0) (hind h), fun _ => hfull h0,
        fun m _ => hptr1 _ place_ne⟩
      rw [blk, hplace]
      exact ptr_no_indirect (hr1.trans h0) (by omega)
    · have hD1 : update D i x1 i = x1 := update_self ..
      have hj1 : Holds s1 j i := hj.setD hx1.itable
      rw [← hr1, ← hD1] at h0
      refine Wp.mono (wp_bmapWord (c := _) hL hx1.mid hj1 hk h0 ?_ (by rw [hD1, hr1])) fun r s' ⟨x', hx, hr, hs, hfull,
        hptr⟩ => ?_
      · rw [hD1]
        refine ho.imp (fun h => by rw [hx1.logs.out]; exact h) fun h => ?_
        have h12 := hind h
        obtain ⟨hs1, hx1, -⟩ := hs1 h12
        rw [hs1, hx1]
        rw [blk, hplace, ptr_indirect htype h12 hk] at h
        exact h
      · rw [hD1] at hptr
        refine ⟨x', hx1.trans hx, ?_, fun h => ?_, hfull, fun m hm => ?_⟩
        · rw [blk, hplace]
          exact hr
        · obtain ⟨rfl, rfl, -⟩ := hs1 (hind h)
          rw [hD1, ← hplace] at hs
          exact hs h
        · rw [blk, hptr _ fun e => hm (place_inj (e.trans hplace.symm)), hptr1 _ place_ne]
          rfl

end

/-! ## Whether there is room -/

def Free (sb : Superblock) (d : Disk) (b : Nat) : Prop := b < sb.size ∧ bit sb d b = false

/-- Block `m` of the file is there, or the blocks are free that it takes: one, and one for the indirect block. -/
def Room (sb : Superblock) (d : Disk) (x : Dinode) (m : Nat) : Prop :=
  blk d x m ≠ 0 ∨ ((∃ b, Free sb d b) ∧ (NDIRECT ≤ m → x.addr NDIRECT = 0 → ∃ b c, b ≠ c ∧ Free sb d b ∧ Free sb d c))

omit [Lost sb] in
theorem not_free_of_noSpace {d : Disk} (h : NoSpace sb d) {b : Nat} : ¬ Free sb d b := fun ⟨h1, h2⟩ => by
  rw [h b h1] at h2
  cases h2

omit [Lost sb] in
theorem wp_balloc_free (hlow : ∀ b < dataStart sb, b < sb.size → bit sb s.disk b = true) (ho : 0 < s.outstanding) :
    Wp E (balloc sb) s fun b s' => (b = 0 ∧ NoSpace sb s.disk) ∨
      (b ≠ 0 ∧ dataStart sb ≤ b ∧ Free sb s.disk b ∧ s'.disk = allocated sb s.disk b ∧ s'.itable = s.itable ∧
        0 < s'.outstanding) := by
  refine (wp_balloc hlow ho).mono fun b s' hb => ?_
  rcases hb with ⟨rfl, -, hfull⟩ | ⟨hb, hs, hc, hd, ht, hl⟩
  · exact .inl ⟨rfl, hfull⟩
  · have : 0 < dataStart sb := dataStart_pos
    exact .inr ⟨by omega, hb, ⟨hs, hc⟩, hd, ht, by rw [hl.out]; exact ho⟩

omit [Lost sb] in
theorem free_allocated {d : Disk} {b c : Nat} (hb : dataStart sb ≤ b) : Free sb (allocated sb d b) c ↔ c ≠ b ∧ Free sb d c := by
  unfold Free
  constructor
  · rintro ⟨hc, h⟩
    rw [bit_allocated hb hc, Bool.or_eq_false_iff, beq_eq_false_iff_ne] at h
    exact ⟨h.1, hc, h.2⟩
  · rintro ⟨hne, hc, h⟩
    exact ⟨hc, by rw [bit_allocated hb hc, h, beq_eq_false_iff_ne.mpr hne]; rfl⟩

omit [Lost sb] in
theorem wp_bmap_room (hlow : ∀ b < dataStart sb, b < sb.size → bit sb s.disk b = true) (ho : 0 < s.outstanding)
    (htype : (s.itable j).d.type ≠ 0) {m : Nat} (hm : m < MAXFILE) :
    Wp E (bmap sb j m) s fun r _ => r ≠ 0 ↔ Room sb s.disk (s.itable j).d m := by
  set x := (s.itable j).d with hx
  have hnone : NoSpace sb s.disk → blk s.disk x m = 0 → ¬ Room sb s.disk x m := by
    rintro hfull h0 (h | ⟨⟨b, hb⟩, -⟩)
    · exact h h0
    · exact not_free_of_noSpace hfull hb
  simp only [bmap]
  refine wp_ite (fun hdir => ?_) fun hdir => ?_
  · have hblk : blk s.disk x m = x.addr m := by rw [blk, place, if_pos hdir, ptr_direct htype (by omega)]
    simp only [bmapAddr, wp_bind, wp_inode, ← hx]
    refine wp_ite (fun h0 => ?_) fun h0 => iff_of_true h0 (.inl (by rw [hblk]; exact h0))
    simp only [wp_bind]
    refine (wp_balloc_free hlow ho).mono fun b t hb => ?_
    rcases hb with ⟨rfl, hfull⟩ | ⟨hb0, -, hfree, -⟩
    · rw [if_pos rfl]
      exact iff_of_false (by simp) (hnone hfull (hblk.trans h0))
    · simp only [if_neg hb0, wp_bind, wp_setCopy, wp_pure]
      exact iff_of_true hb0 (.inr ⟨⟨b, hfree⟩, fun h => by omega⟩)
  · have hk : m - NDIRECT < NINDIRECT := by simp only [MAXFILE] at hm; omega
    have hplace : place m = NDIRECT + 1 + (m - NDIRECT) := by rw [place, if_neg hdir]; omega
    rw [if_pos hk]
    simp only [bmapAddr, wp_bind, wp_inode, ← hx]
    refine wp_ite (fun h0 => ?_) fun h0 => ?_
    · -- first the indirect block
      have hblk : blk s.disk x m = 0 := by rw [blk, hplace]; exact ptr_no_indirect h0 (by omega)
      simp only [wp_bind]
      refine (wp_balloc_free hlow ho).mono fun b t hb => ?_
      rcases hb with ⟨rfl, hfull⟩ | ⟨hb0, hdata, hfree, hd, -, ho'⟩
      · simp only [if_true, wp_pure]
        exact iff_of_false (by simp) (hnone hfull hblk)
      · have hzero : word (t.disk b) (4 * (m - NDIRECT)) = 0 := by
          rw [hd, allocated, update_self]
          rfl
        simp only [if_neg hb0, wp_bind, wp_setCopy, wp_pure, wp_bread]
        rw [if_pos hzero]
        simp only [wp_bind]
        refine Wp.mono (wp_balloc_free (fun c h1 h2 => ?_) (by exact ho')) fun c u hc => ?_
        · show bit sb t.disk c = true
          rw [hd, bit_allocated hdata h2, hlow c h1 h2, Bool.or_true]
        · rcases hc with ⟨rfl, hfull⟩ | ⟨hc0, hdata', hfree', hd', -, ho''⟩
          · rw [if_neg (by simp)]
            refine iff_of_false (by simp) ?_
            rintro (h | ⟨-, h⟩)
            · exact h hblk
            · obtain ⟨c, c', hne, hc, hc'⟩ := h (by omega) h0
              have hfull : NoSpace sb (allocated sb s.disk b) := by rw [← hd]; exact hfull
              have hall : ∀ c, Free sb s.disk c → c = b := fun c hc => by
                by_contra hcb
                exact not_free_of_noSpace hfull ((free_allocated hdata).mpr ⟨hcb, hc⟩)
              exact hne ((hall c hc).trans (hall c' hc').symm)
          · simp only [ne_eq, hc0, not_false_eq_true, if_true, wp_bind, wp_bread, wp_pure]
            rw [wp_bwrite ho'']
            have hfree' : Free sb (allocated sb s.disk b) c := by rw [← hd]; exact hfree'
            obtain ⟨hne, hfree'⟩ := (free_allocated hdata).mp hfree'
            exact iff_of_true trivial (.inr ⟨⟨b, hfree⟩, fun _ _ => ⟨c, b, hne, hfree', hfree⟩⟩)
    · have hblk : blk s.disk x m = word (s.disk (x.addr NDIRECT)) (4 * (m - NDIRECT)) := by
        rw [blk, hplace, ptr_indirect htype h0 hk]
      simp only [wp_pure, if_neg h0, wp_bind, wp_bread]
      refine wp_ite (fun hz => ?_) fun hz => iff_of_true hz (.inl (by rw [hblk]; exact hz))
      simp only [wp_bind]
      refine (wp_balloc_free hlow ho).mono fun b t hb => ?_
      rcases hb with ⟨rfl, hfull⟩ | ⟨hb0, -, hfree, -, -, ho'⟩
      · rw [if_neg (by simp)]
        exact iff_of_false (by simp) (hnone hfull (hblk.trans hz))
      · simp only [ne_eq, hb0, not_false_eq_true, if_true, wp_bind, wp_bread, wp_pure]
        rw [wp_bwrite ho']
        exact iff_of_true trivial (.inr ⟨⟨b, hfree⟩, fun _ h => absurd h h0⟩)

/-! ## iupdate -/

theorem wp_iupdate (hL : Layout sb) (hm : Mid sb D i s) (hj : Holds s j i) (ho : 0 < s.outstanding) :
    Wp E (iupdate sb j) s fun _ s' =>
      Mid sb D i s' ∧ dinode sb s'.disk i = D i ∧ s'.itable = s.itable ∧
        (∀ k < sb.ninodes, Agree s.disk s'.disk (D k)) ∧ Logs sb s s' := by
  have hi := hm.lt hj
  simp only [iupdate, wp_bind, wp_inode, wp_bread, (hm.copy_eq hj).1, hj.inum]
  rw [wp_bwrite ho]
  have ha : ∀ k < sb.ninodes, Agree s.disk (setDinode sb s.disk i (D i)) (D k) := fun k hk =>
    agree_setDinode hL hm.blocks (D i) hi hk
  refine ⟨⟨?_, hm.table.same rfl, fun k hk hki => ?_⟩,
    dinode_setDinode _ _ (hm.blocks.fits i), rfl, ha, logs_bwrite⟩
  · exact hm.blocks.keep (fun k hk q => (ha k hk).ptr_eq) (fun c _ => bit_setDinode hL (D i) hi) hm.blocks.fits
  · exact (dinode_setDinode_of_ne _ (D i) hki).trans (hm.disk k hk hki)

omit [Lost sb] in
theorem wp_iupdate_only (hj : Holds s j i) (ho : 0 < s.outstanding) :
    Wp E (iupdate sb j) s fun _ s' => s'.logged (IBLOCK sb i) = true ∧
      ∀ b, b ≠ IBLOCK sb i → s'.disk b = s.disk b ∧ s'.logged b = s.logged b := by
  simp only [iupdate, wp_bind, wp_inode, wp_bread, hj.inum]
  rw [wp_bwrite ho]
  exact ⟨update_self .., fun b hb => ⟨update_of_ne hb .., update_of_ne hb ..⟩⟩

/-! ## itrunc -/

def Dinode.empty (x : Dinode) : Dinode := { x with size := 0, addrs := fun _ => 0 }

theorem ptr_empty (d : Disk) (x : Dinode) (q : Nat) : ptr d x.empty q = 0 := by
  have h0 : ∀ k, x.empty.addr k = 0 := fun k => by
    unfold Dinode.addr
    split <;> rfl
  unfold ptr
  split
  · rfl
  · split
    · exact h0 q
    · rw [if_pos (.inl (h0 _))]

/-- In the middle of `itrunc`, which started in `s`: the blocks at the places `A` of the inode
    are free again, although the indirect block may still name them. -/
structure Freeing (sb : Superblock) [Lost sb] (D : Nat → Dinode) (i j : Nat) (s : Core) (A : Nat → Bool) (x : Dinode) (t : Core) :
    Prop where
  own : Lib.Owned (dataStart sb) sb.size (fun p => if p.1 = i ∧ A p.2 = true then 0 else owner sb D s.disk p) (bit sb t.disk)
  low : ∀ b < dataStart sb, b < sb.size → bit sb t.disk b = true
  rest : ∀ c, c < sb.bmapstart ∨ dataStart sb ≤ c → t.disk c = s.disk c
  itable : t.itable = setD s.itable j x
  logs : Logs sb s t

section

variable {A A' : Nat → Bool} {x : Dinode} {t : Core} (h : Freeing sb D i j s A x t) (hi : i < sb.ninodes)
include h hi

theorem Freeing.skip {q : Nat}
    (h0 : ptr s.disk (D i) q = 0) (hA : ∀ r, A' r = (A r || r == q)) : Freeing sb D i j s A' x t := by
  refine ⟨?_, h.low, h.rest, h.itable, h.logs⟩
  convert h.own using 1
  funext p
  rw [hA]
  by_cases e : p = (i, q)
  · subst e
    simp [owner, hi, h0]
  · by_cases e1 : p.1 = i
    · have e2 : p.2 ≠ q := fun e2 => e (Prod.ext e1 e2)
      simp [e2]
    · simp [e1]

theorem Freeing.free (ho : 0 < s.outstanding) {q : Nat} (hq : A q = false) (h0 : ptr s.disk (D i) q ≠ 0)
    (hA : ∀ r, A' r = (A r || r == q)) :
    Wp E (bfree sb (ptr s.disk (D i) q)) t fun _ t' => Freeing sb D i j s A' x t' := by
  have e : (if i = i ∧ A q = true then 0 else owner sb D s.disk (i, q)) = ptr s.disk (D i) q := by
    rw [if_neg (by simp [hq]), owner, if_pos hi]
  have hmark := h.own.used_of (p := (i, q)) (by show (if _ then _ else _) ≠ 0; rw [e]; exact h0)
  have hrange := h.own.range (i, q) (by show (if _ then _ else _) ≠ 0; rw [e]; exact h0)
  rw [e] at hmark hrange
  refine (wp_bfree (by rw [h.logs.out]; exact ho) hmark).mono fun _ t' h' => ?_
  obtain ⟨hd, ht, hl⟩ := h'
  have hbit : ∀ c, bit sb t'.disk c = (c != ptr s.disk (D i) q && bit sb t.disk c) := fun c => by rw [hd, bit_clearBit]
  refine ⟨?_, fun b h1 h2 => ?_, fun c hc => ?_, by rw [ht, h.itable], h.logs.trans hl⟩
  · have hdrop := h.own.drop (p := (i, q)) dataStart_pos (by show (if _ then _ else _) ≠ 0; rw [e]; exact h0)
    rw [e] at hdrop
    convert hdrop using 1
    · funext p
      rw [hA]
      by_cases ep : p = (i, q)
      · subst ep
        simp
      · rw [update_of_ne ep]
        by_cases e1 : p.1 = i
        · have e2 : p.2 ≠ q := fun e2 => ep (Prod.ext e1 e2)
          simp [e2]
        · simp [e1]
    · funext c
      rw [hbit c]
      by_cases ec : c = ptr s.disk (D i) q
      · rw [ec, update_self]
        simp
      · rw [update_of_ne ec]
        simp [ec]
  · rw [hbit, h.low b h1 h2]
    have : b ≠ ptr s.disk (D i) q := by omega
    simp [this]
  · rw [hd, clearBit, update_of_ne, h.rest c hc]
    have h1 : sb.bmapstart ≤ BBLOCK sb (ptr s.disk (D i) q) := BBLOCK_ge _
    have h2 := BBLOCK_lt hrange.2
    omega

end

theorem Freeing.setD {A : Nat → Bool} {x y : Dinode} {t : Core} (h : Freeing sb D i j s A x t) :
    Freeing sb D i j s A y { t with itable := Fs.setD t.itable j y } :=
  ⟨h.own, h.low, h.rest, by rw [h.itable, setD_setD], h.logs.trans logs_itable⟩

/-- The first loop: the direct blocks below `k` are free. -/
structure FreeingDirect (sb : Superblock) [Lost sb] (D : Nat → Dinode) (i j : Nat) (s : Core) (k : Nat) (t : Core) : Prop where
  ex : ∃ x, Freeing sb D i j s (fun q => decide (q < k)) x t ∧ (∀ q, x.addr q = if q < k then 0 else (D i).addr q) ∧
    { x with addrs := fun _ => 0 } = { D i with addrs := fun _ => 0 }

theorem wp_freeDirect (hm : Mid sb D i s) (hj : Holds s j i) (ho : 0 < s.outstanding) {k : Nat} {t : Core} (hk : k < NDIRECT)
    (h : FreeingDirect sb D i j s k t) :
    Wp E (freeDirect sb j k) t fun _ t' => FreeingDirect sb D i j s (k + 1) t' := by
  obtain ⟨x, h, haddr, hrest⟩ := h
  obtain ⟨-, htype⟩ := hm.copy_eq hj
  have hi := hm.lt hj
  have hptr : ptr s.disk (D i) k = (D i).addr k := ptr_direct htype (by omega)
  have hA : ∀ r, decide (r < k + 1) = (decide (r < k) || r == k) := fun r => by
    rw [Bool.eq_iff_iff]
    simp
    omega
  have hxk : x.addr k = (D i).addr k := by rw [haddr, if_neg (by omega)]
  have hsucc : ∀ q, (if q < k + 1 then 0 else (D i).addr q) = if q = k then 0 else if q < k then 0 else (D i).addr q := by
    intro q
    by_cases e : q = k
    · rw [if_pos e, if_pos (by omega)]
    · rw [if_neg e]
      by_cases e' : q < k
      · rw [if_pos e', if_pos (by omega)]
      · rw [if_neg e', if_neg (by omega)]
  simp only [freeDirect, wp_bind, wp_inode, h.itable, setD_self, hxk]
  refine wp_ite (fun h0 => ?_) fun h0 => ?_
  · rw [← hptr] at h0 ⊢
    simp only [wp_bind]
    refine (h.free hi ho (by simp) h0 hA).mono fun _ t' ht' => ?_
    simp only [wp_setCopy, ht'.itable, setD_self]
    refine ⟨x.setAddr k 0, ?_, fun q => ?_, hrest⟩
    · have := ht'.setD (y := x.setAddr k 0)
      rw [ht'.itable] at this
      simpa only [Fs.setD, update_self] using this
    · rw [x.addr_setAddr 0 q (by omega), haddr, hsucc]
  · have h0 : (D i).addr k = 0 := not_not.mp h0
    refine ⟨x, h.skip hi (hptr.trans h0) hA, fun q => ?_, hrest⟩
    rw [haddr, hsucc]
    by_cases e : q = k
    · rw [e, if_neg (by omega), if_pos rfl, h0]
    · rw [if_neg e]

/-- The second loop: the direct blocks, and the first `k` blocks that the indirect block names,
    are free. -/
def freedBelow (k : Nat) (q : Nat) : Bool := decide (q < NDIRECT ∨ (NDIRECT < q ∧ q < NDIRECT + 1 + k))

theorem wp_freeIndirect (hm : Mid sb D i s) (hj : Holds s j i) (ho : 0 < s.outstanding) {k : Nat} {x : Dinode} {t : Core}
    (hk : k < NINDIRECT) (h0 : (D i).addr NDIRECT ≠ 0) (h : Freeing sb D i j s (freedBelow k) x t) {c : M Unit}
    (hc : c = (do
      let addr := word (← bread ((D i).addr NDIRECT)) (4 * k)
      if addr ≠ 0 then bfree sb addr)) :
    Wp E c t fun _ t' => Freeing sb D i j s (freedBelow (k + 1)) x t' := by
  obtain ⟨-, htype⟩ := hm.copy_eq hj
  have hi := hm.lt hj
  have hind := ptr_direct (d := s.disk) htype (Nat.le_refl NDIRECT)
  have hptr := ptr_indirect (d := s.disk) htype h0 hk
  have hsame : t.disk ((D i).addr NDIRECT) = s.disk ((D i).addr NDIRECT) := by
    refine h.rest _ (.inr ?_)
    have := (hm.blocks.range hi (q := NDIRECT) (by rw [hind]; exact h0)).1
    rwa [hind] at this
  have hA : ∀ r, freedBelow (k + 1) r = (freedBelow k r || r == NDIRECT + 1 + k) := fun r => by
    rw [Bool.eq_iff_iff]
    simp [freedBelow]
    omega
  subst hc
  simp only [wp_bind, wp_bread, hsame, ← hptr]
  refine wp_ite (fun hz => ?_) fun hz => h.skip hi (not_not.mp hz) hA
  exact h.free hi ho (decide_eq_false (by omega)) hz hA

theorem Freeing.mid (hL : Layout sb) (hm : Mid sb D i s) (hj : Holds s j i) {A : Nat → Bool} {t : Core}
    (h : Freeing sb D i j s A (D i).empty t) (hA : ∀ q, ptr s.disk (D i) q ≠ 0 → A q = true) :
    Mid sb (update D i (D i).empty) i t ∧ ∀ k < sb.ninodes, k ≠ i → Agree s.disk t.disk (D k) := by
  obtain ⟨-, htype⟩ := hm.copy_eq hj
  have hi := hm.lt hj
  have hagree : ∀ k < sb.ninodes, Agree s.disk t.disk (D k) := fun k hk q hq =>
    h.rest _ (.inr (hm.blocks.range hk hq).1)
  have hdn : ∀ k < sb.ninodes, dinode sb t.disk k = dinode sb s.disk k := fun k hk => by
    rw [dinode, dinode, h.rest _ (.inl (IBLOCK_lt hL hk))]
  have hfits : (D i).empty.Fits := by
    have := hm.blocks.fits i
    exact ⟨this.type, this.major, this.minor, this.nlink, by simp [Dinode.empty], fun _ => by simp [Dinode.empty]⟩
  refine ⟨hm.setD hj htype h.itable ⟨?_, h.low, fits_update hm.blocks.fits hfits⟩ hdn, fun k hk _ => hagree k hk⟩
  convert h.own using 1
  funext p
  obtain ⟨k, q⟩ := p
  unfold owner
  by_cases hk : k < sb.ninodes
  · rw [if_pos hk, if_pos hk]
    by_cases e : k = i
    · subst e
      rw [update_self, ptr_empty]
      by_cases hz : ptr s.disk (D k) q = 0
      · rw [hz]; simp
      · rw [if_pos ⟨rfl, hA q hz⟩]
    · rw [update_of_ne e, (hagree k hk).ptr_eq, if_neg (by simp [e])]
  · have hne : ¬ (k = i ∧ A q = true) := fun h => hk (h.1 ▸ hi)
    rw [if_neg hk, if_neg hk, if_neg hne]

def Truncated (sb : Superblock) [Lost sb] (D : Nat → Dinode) (i j : Nat) (s s' : Core) : Prop :=
  Mid sb (update D i (D i).empty) i s' ∧ dinode sb s'.disk i = (D i).empty ∧ s'.itable = setD s.itable j (D i).empty ∧
    (∀ k < sb.ninodes, k ≠ i → Agree s.disk s'.disk (D k)) ∧ Logs sb s s'

section

variable (hL : Layout sb) (hm : Mid sb D i s) (hj : Holds s j i) (ho : 0 < s.outstanding)
include hL hm hj ho

/-- What is left to do once all places `A` are free, and the copy names no block. -/
theorem wp_truncEnd {A : Nat → Bool} {y : Dinode} {u : Core} (hu : Freeing sb D i j s A y u)
    (hA : ∀ q, ptr s.disk (D i) q ≠ 0 → A q = true) (hy : ∀ q, y.addr q = 0)
    (hyr : { y with addrs := fun _ => 0 } = { D i with addrs := fun _ => 0 }) :
    Wp E (do setCopy j fun x => { x with size := 0 }; iupdate sb j) u fun _ s' => Truncated sb D i j s s' := by
  have hye : { y with size := 0 } = (D i).empty := by
    have h1 : y.addrs = fun _ => 0 := by
      funext q
      have := hy q.val
      rwa [Dinode.addr, dif_pos q.isLt] at this
    have h2 := congrArg Dinode.empty hyr
    simp only [Dinode.empty] at h2 ⊢
    rw [← h2, h1]
  simp only [wp_bind, wp_setCopy]
  have hu' : Freeing sb D i j s A (D i).empty { u with itable := setD u.itable j (D i).empty } := hu.setD
  have hst : { u with itable := update u.itable j { u.itable j with d := { (u.itable j).d with size := 0 } } } =
      { u with itable := setD u.itable j (D i).empty } := by
    simp only [setD, hu.itable, update_self, hye]
  rw [hst]
  obtain ⟨hmid, hagree⟩ := hu'.mid hL hm hj hA
  have hj' : Holds { u with itable := setD u.itable j (D i).empty } j i := hj.setD hu'.itable
  refine (wp_iupdate hL hmid hj' (by rw [hu'.logs.out]; exact ho)).mono fun _ v ⟨h1, h2, h3, h4, h5⟩ => ?_
  rw [update_self] at h2
  refine ⟨h1, h2, h3.trans hu'.itable, fun k hk hki => ?_, hu'.logs.trans h5⟩
  have := h4 k hk
  rw [update_of_ne hki] at this
  exact (hagree k hk hki).trans this

theorem wp_itrunc : Wp E (itrunc sb j) s fun _ s' => Truncated sb D i j s s' := by
  obtain ⟨hcopy, htype⟩ := hm.copy_eq hj
  have hi := hm.lt hj
  simp only [itrunc, wp_bind]
  have h0 : FreeingDirect sb D i j s 0 s := by
    refine ⟨D i, ⟨?_, hm.blocks.low, fun _ _ => rfl, ?_, .refl⟩, fun q => by rw [if_neg (Nat.not_lt_zero q)], rfl⟩
    · convert hm.blocks.own using 1
      funext p
      simp
    · rw [← hcopy, setD_copy]
  refine (Lib.wp_forFrom (FreeingDirect sb D i j s) h0 fun k t _ hk ht => wp_freeDirect hm hj ho (by omega) ht).mono
    fun _ t ⟨x, ht, haddr, hrest⟩ => ?_
  have hx12 : x.addr NDIRECT = (D i).addr NDIRECT := by rw [haddr, if_neg (by omega)]
  simp only [wp_inode, ht.itable, setD_self, hx12]
  refine wp_ite (fun hne => ?_) fun heq => ?_
  · simp only [wp_bind]
    have hA0 : (fun q => decide (q < 0 + NDIRECT)) = freedBelow 0 := by
      funext q
      unfold freedBelow
      rw [decide_eq_decide]
      omega
    rw [hA0] at ht
    have hloop : Wp E (Lib.forFrom (fun k => do
        let addr := word (← bread ((D i).addr NDIRECT)) (4 * k)
        if addr ≠ 0 then bfree sb addr) 0 NINDIRECT) t _ :=
      Lib.wp_forFrom (fun k u => Freeing sb D i j s (freedBelow k) x u) ht
        fun k u _ hk hu => wp_freeIndirect hm hj ho (by omega) hne hu rfl
    refine hloop.mono fun _ u hu => ?_
    have hind := ptr_direct (d := s.disk) htype (Nat.le_refl NDIRECT)
    rw [← hind] at hne ⊢
    have hA : ∀ r, (fun q => freedBelow (0 + NINDIRECT) q || q == NDIRECT) r = (freedBelow (0 + NINDIRECT) r || r == NDIRECT) :=
      fun _ => rfl
    refine (hu.free hi ho (by simp [freedBelow]) hne hA).mono fun _ v hv => ?_
    simp only [wp_setCopy, hv.itable, setD_self]
    have hv' := hv.setD (y := x.setAddr NDIRECT 0)
    rw [hv.itable] at hv'
    simp only [setD, update_self] at hv'
    refine wp_truncEnd hL hm hj ho hv' (fun q hq => ?_) (fun q => ?_) hrest
    · rcases place_cases q with h | ⟨k, hk, rfl⟩ | h
      · simp [freedBelow]
        omega
      · simp [freedBelow]
        omega
      · exact absurd (ptr_far h) hq
    · rw [x.addr_setAddr 0 q (Nat.le_refl _)]
      by_cases e : q = NDIRECT
      · rw [if_pos e]
      · rw [if_neg e, haddr]
        by_cases e' : q < 0 + NDIRECT
        · rw [if_pos e']
        · rw [if_neg e', Dinode.addr_of_gt (by omega)]
  · have heq : (D i).addr NDIRECT = 0 := not_not.mp heq
    refine wp_truncEnd hL hm hj ho ht (fun q hq => ?_) (fun q => ?_) hrest
    · rcases place_cases q with h | ⟨k, hk, rfl⟩ | h
      · have : q ≠ NDIRECT := fun e => hq (by rw [e, ptr_direct htype (Nat.le_refl _), heq])
        simp
        omega
      · exact absurd (ptr_no_indirect heq (by omega)) hq
      · exact absurd (ptr_far h) hq
    · rw [haddr]
      by_cases e' : q < 0 + NDIRECT
      · rw [if_pos e']
      · rw [if_neg e']
        by_cases e : q = NDIRECT
        · rw [e, heq]
        · exact Dinode.addr_of_gt (by omega)

end

end Xv6.Fs
