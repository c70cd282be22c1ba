/-
  Xv6.Fs.Bitmap — the free map as a set of block numbers: `balloc` with its `int` counters,
  `bfree`, and the map that mkfs writes (kernel/fs.c, mkfs/mkfs.c).

  `Fs.balloc` counts blocks in natural numbers. Here `b` is an `int`: compared with `sb.size` it
  is unsigned, in `BBLOCK` it is divided as signed, and it wraps.
-/

import Xv6.Mkfs.Image

namespace Xv6.Fs.Bitmap

open Function (update update_self update_of_ne)

/-! ## balloc, with an `int` -/

variable (sb : Superblock)

/-- `BBLOCK(b, sb)`: the quotient of an `int` goes towards 0, the sum is a `uint`. -/
def bblock (b : BitVec 32) : Nat := ((b.toInt.tdiv BPB + sb.bmapstart) % 2 ^ 32).toNat

/-- The loop over the bitmap blocks: none if the rounds are used up. A round starts at a multiple
of BPB, so that `b + bi` does not wrap. -/
def ballocFrom : Nat → BitVec 32 → M (Option Nat)
  | 0, _ => return none
  | n + 1, b =>
    if b.toNat < sb.size then do
      let bp ← bread (bblock sb b)
      match Lib.first (fun bi => !marked bp bi) 0 (min BPB (sb.size - b.toNat)) with
      | some bi => do
        bwrite (bblock sb b) (mark bp bi)
        bzero (b.toNat + bi)
        return some (b.toNat + bi)
      | none => ballocFrom n (b + BitVec.ofNat 32 BPB)
    else return some 0

/-- After 2^32 / BPB rounds `b` is 0 again: a call that is not over by then does not end. -/
def balloc : M (Option Nat) := ballocFrom sb (2 ^ 19 + 1) 0

/-! ## The loop -/

variable {sb} {E : Panic → Prop} {s : Core} {n m : Nat}

theorem bblock_eq (hm : m * BPB < 2 ^ 31) (hb : BBLOCK sb (m * BPB) < 2 ^ 32) :
    bblock sb (BitVec.ofNat 32 (m * BPB)) = BBLOCK sb (m * BPB) := by
  have hnat : (BitVec.ofNat 32 (m * BPB)).toNat = m * BPB := by
    rw [BitVec.toNat_ofNat, Nat.mod_eq_of_lt (by omega)]
  have hint : (BitVec.ofNat 32 (m * BPB)).toInt = ((m * BPB : Nat) : Int) := by
    rw [BitVec.toInt_eq_toNat_cond, hnat, if_pos (by omega)]
  unfold BBLOCK at hb
  rw [bblock, hint, BBLOCK, ← Int.ofNat_tdiv, ← Int.natCast_add]
  generalize m * BPB / BPB + sb.bmapstart = k at hb ⊢
  omega

/-- What `balloc` needs of the map: few enough blocks, and the map's blocks and block 0 marked. -/
structure Ready (sb : Superblock) (d : Disk) : Prop where
  size : sb.size ≤ 2 ^ 31
  inside : ∀ c < sb.size, BBLOCK sb c < sb.size
  own : ∀ c < sb.size, bit sb d (BBLOCK sb c) = true
  boot : 0 < sb.size → bit sb d 0 = true

theorem toNat_round (hm : m ≤ 2 ^ 18) : (BitVec.ofNat 32 (m * BPB)).toNat = m * BPB := by
  have hmul : m * BPB ≤ 2 ^ 18 * BPB := Nat.mul_le_mul_right _ hm
  have hend : 2 ^ 18 * BPB = 2 ^ 31 := by decide
  rw [BitVec.toNat_ofNat, Nat.mod_eq_of_lt (by omega)]

theorem ballocFrom_eq {k : Nat} (hsize : sb.size ≤ 2 ^ 31) (hin : ∀ c < sb.size, BBLOCK sb c < sb.size) (hm : m + k ≤ 2 ^ 18)
    (hk : ∀ j < k, (m + j) * BPB < sb.size) (hlast : sb.size ≤ (m + k) * BPB) (hn : k < n) :
    ballocFrom sb n (BitVec.ofNat 32 (m * BPB)) = (do return some (← Fs.ballocFrom sb k (m * BPB))) := by
  induction k generalizing n m with
  | zero =>
    obtain ⟨n, rfl⟩ := Nat.exists_eq_add_one.mpr hn
    rw [Nat.add_zero] at hm hlast
    rw [ballocFrom, toNat_round hm, if_neg (Nat.not_lt.mpr hlast)]
    rfl
  | succ k ih =>
    obtain ⟨n, rfl⟩ := Nat.exists_eq_add_one.mpr (Nat.zero_lt_of_lt hn)
    have hlt : m * BPB < sb.size := hk 0 (Nat.succ_pos k)
    have := hin _ hlt
    have hnext : BitVec.ofNat 32 (m * BPB) + BitVec.ofNat 32 BPB = BitVec.ofNat 32 ((m + 1) * BPB) := by
      rw [← BitVec.ofNat_add, Nat.add_mul, Nat.one_mul]
    rw [ballocFrom, toNat_round (by omega), if_pos hlt, bblock_eq (by omega) (by omega), Fs.ballocFrom, bind_assoc, hnext]
    refine congrArg (bread _ >>= ·) (funext fun bp => ?_)
    cases Lib.first (fun bi => !marked bp bi) 0 (min BPB (sb.size - m * BPB)) with
    | some bi => simp only [bind_assoc, pure_bind]
    | none =>
      rw [← Nat.succ_mul]
      exact ih (by omega) (fun j hj => by have := hk (j + 1) (by omega); rwa [Nat.add_right_comm, Nat.add_assoc])
        (by rwa [Nat.add_right_comm, Nat.add_assoc]) (by omega)

theorem balloc_eq {d : Disk} (hr : Ready sb d) : balloc sb = (do return some (← Fs.balloc sb)) := by
  have hsize := hr.size
  have h := ballocFrom_eq (m := 0) (n := 2 ^ 19 + 1) (k := (sb.size + BPB - 1) / BPB) hsize hr.inside
    (by simp only [BPB, BSIZE]; omega) (fun j hj => by simp only [BPB, BSIZE] at hj ⊢; omega) (by simp only [BPB, BSIZE]; omega)
    (by simp only [BPB, BSIZE]; omega)
  rwa [Nat.zero_mul] at h

theorem wp_balloc (hr : Ready sb s.disk) (ho : 0 < s.outstanding) :
    Lib.Wp E (balloc sb) s fun r s' =>
      (r = some 0 ∧ s' = s ∧ NoSpace sb s.disk) ∨ ∃ b, r = some b ∧ Allocated sb s b s' := by
  rw [balloc_eq hr, Lib.wp_bind]
  exact (wp_balloc_first ho).mono fun b s' hb => hb.imp (fun h => ⟨congrArg some h.1, h.2⟩) fun h => ⟨b, rfl, h⟩

/-! ## The map as a set -/

theorem unmark_mark {bp : Block} {bi : Nat} (h : marked bp bi = false) : unmark (mark bp bi) bi = bp := by
  have hmask : bp (bi / 8) &&& mask bi = 0 := by
    unfold marked at h
    simpa using h
  have hbyte : (bp (bi / 8) ||| mask bi) &&& ~~~mask bi = bp (bi / 8) := by
    apply UInt8.toBitVec_inj.mp
    apply BitVec.eq_of_getLsbD_eq
    intro i hi
    have hi' := congrArg (fun v : UInt8 => v.toBitVec.getLsbD i) hmask
    simp only [UInt8.toBitVec_and, UInt8.toBitVec_or, UInt8.toBitVec_not, BitVec.getLsbD_and, BitVec.getLsbD_or,
      BitVec.getLsbD_not, hi, decide_true, Bool.true_and] at hi' ⊢
    generalize (bp (bi / 8)).toBitVec.getLsbD i = x at hi' ⊢
    cases x with
    | false => simp
    | true => simpa using hi'
  rw [unmark, mark, update_self, Function.update_idem, hbyte, Function.update_eq_self]

section

variable {b c : Nat} {s' : Core} (hr : Ready sb s.disk) (h : Allocated sb s b s')
include hr h

theorem Ready.ne_map (hc : c < sb.size) : BBLOCK sb c ≠ b := by
  intro e
  have := hr.own c hc
  rw [e, h.free] at this
  cases this

theorem Ready.bits (hc : c < sb.size) : bit sb s'.disk c = (c == b || bit sb s.disk c) := by
  rw [h.disk, allocated, bit_update_of_ne _ _ (hr.ne_map h hc), bit_setBit]

theorem Ready.map_block : s'.disk (BBLOCK sb b) = mark (s.disk (BBLOCK sb b)) (b % BPB) := by
  rw [h.disk, allocated, update_of_ne (hr.ne_map h h.lt), setBit, update_self]

theorem Ready.ne_zero : b ≠ 0 := by
  intro e
  have := hr.boot (Nat.lt_of_le_of_lt (Nat.zero_le _) h.lt)
  rw [← e, h.free] at this
  cases this

end

theorem mkfs_bits {used : Nat} (h : used < BPB) (t : Mkfs.St) :
    ∃ t', Mkfs.balloc used t = .ok ((), t') ∧ ∀ b < BPB, bit Mkfs.sb t'.img b = decide (b < used) := by
  refine ⟨_, by simp only [Mkfs.balloc, Mkfs.assert, h, if_true]; rfl, ?_⟩
  intro b hb
  have h1 : BBLOCK Mkfs.sb b = Mkfs.sb.bmapstart % 2 ^ 22 := by
    rw [BBLOCK, Nat.div_eq_of_lt hb]
    decide
  have h0 : marked (fun _ => 0) b = false := by simp [marked]
  rw [bit, h1, Nat.mod_eq_of_lt hb]
  change marked (update t.img (Mkfs.sb.bmapstart % 2 ^ 22) _ _) b = _
  rw [update_self, Mkfs.marked_foldl, h0, Bool.or_false]

theorem bfree_bits {b : Nat} (ho : 0 < s.outstanding) (hb : bit sb s.disk b = true) :
    ∃ s', bfree sb b s = .ok ((), s') ∧ s'.disk = clearBit sb s.disk b := by
  obtain ⟨_, s', hrun, hd, _⟩ := (wp_bfree (E := fun _ => False) ho hb).returns
  exact ⟨s', hrun, hd⟩

/-- `balloc` marks and zeroes the least block that is free, and returns 0 with nothing changed iff there is none.
    `bfree` clears the bit of its block and nothing else, and undoes what `balloc` did to the map. The map that mkfs
    writes has, bit for bit, the blocks it has used. -/
theorem bitmap_is_set (sb : Superblock) (s : Core) (hr : Ready sb s.disk) (ho : 0 < s.outstanding) :
    (∃ r s', balloc sb s = .ok (some r, s') ∧ (r = 0 ↔ ∀ c < sb.size, bit sb s.disk c = true) ∧
      (r = 0 → s' = s) ∧
      (r ≠ 0 → r < sb.size ∧ bit sb s.disk r = false ∧ (∀ c < r, bit sb s.disk c = true) ∧
        (∀ c < sb.size, bit sb s'.disk c = (c == r || bit sb s.disk c)) ∧
        s'.disk (BBLOCK sb r) = mark (s.disk (BBLOCK sb r)) (r % BPB) ∧ (s'.disk r = fun _ => 0) ∧
        (∀ k, k ≠ r → k ≠ BBLOCK sb r → s'.disk k = s.disk k) ∧
        ∃ t, bfree sb r s' = .ok ((), t) ∧ ∀ c < sb.size, t.disk (BBLOCK sb c) = s.disk (BBLOCK sb c))) ∧
    (∀ b < sb.size, bit sb s.disk b = true → ∃ t, bfree sb b s = .ok ((), t) ∧
      (∀ c, bit sb t.disk c = (c != b && bit sb s.disk c)) ∧ ∀ k ≠ BBLOCK sb b, t.disk k = s.disk k) ∧
    (∀ used < BPB, ∀ t, ∃ t', Mkfs.balloc used t = .ok ((), t') ∧
      ∀ b < BPB, bit Mkfs.sb t'.img b = decide (b < used)) := by
  refine ⟨?_, ?_, fun used h t => mkfs_bits h t⟩
  · obtain ⟨r, s', hrun, hout⟩ := (wp_balloc (E := fun _ => False) hr ho).returns
    rcases hout with ⟨rfl, rfl, hfull⟩ | ⟨b, rfl, hb⟩
    · exact ⟨0, s', hrun, iff_of_true rfl hfull, fun _ => rfl, fun h => absurd rfl h⟩
    · have hne := hr.ne_zero hb
      have hnot : ¬ ∀ c < sb.size, bit sb s.disk c = true := by
        intro h
        have := h b hb.lt
        rw [hb.free] at this
        cases this
      refine ⟨b, s', hrun, iff_of_false hne hnot, fun h => absurd h hne, fun _ => ?_⟩
      have hset : bit sb s'.disk b = true := by
        rw [hr.bits hb hb.lt, beq_self_eq_true, Bool.true_or]
      obtain ⟨t, hfree, ht⟩ := bfree_bits (by rw [hb.logs.out]; exact ho) hset
      refine ⟨hb.lt, hb.free, hb.least, fun c hc => hr.bits hb hc, hr.map_block hb, hb.zeroed,
        fun k h1 h2 => hb.others h1 h2, t, hfree, ?_⟩
      intro c hc
      rw [ht, clearBit]
      by_cases e : BBLOCK sb c = BBLOCK sb b
      · rw [e, update_self, hr.map_block hb]
        exact unmark_mark hb.free
      · rw [update_of_ne e, hb.others (hr.ne_map hb hc) e]
  · intro b _ hset
    obtain ⟨t, hfree, ht⟩ := bfree_bits ho hset
    refine ⟨t, hfree, ?_, ?_⟩
    · intro c
      rw [ht, bit_clearBit]
    · intro k hk
      rw [ht, clearBit, update_of_ne hk]

def start (d : Disk) : Core :=
  { disk := d, itable := fun _ => ⟨0, 0, false, Dinode.zero⟩, outstanding := 1, logged := fun _ => false, home := d, past := [] }

/-- Four blocks: boot, the map, two of data. -/
def smallSb : Superblock := ⟨4, 0, 0, 1⟩

def smallDisk : Disk := update (fun _ _ => 0) 1 (update (fun _ => 0) 0 7)

theorem smallDisk_ready : Ready smallSb smallDisk := by
  refine ⟨by decide, by decide, by decide, fun _ => by decide⟩

theorem bitmap_is_set_small : ∃ r s', balloc smallSb (start smallDisk) = .ok (some r, s') ∧
    (r = 0 ↔ ∀ c < smallSb.size, bit smallSb smallDisk c = true) := by
  obtain ⟨⟨r, s', h1, h2, _⟩, _⟩ := bitmap_is_set smallSb (start smallDisk) smallDisk_ready Nat.one_pos
  exact ⟨r, s', h1, h2⟩

/-! ## Where it is not one -/

theorem ballocFrom_over {b : BitVec 32} (hb : ¬ b.toNat < sb.size) : ballocFrom sb (n + 1) b s = .ok (some 0, s) := by
  rw [ballocFrom, if_neg hb]
  rfl

theorem ballocFrom_full {b : BitVec 32} (hb : b.toNat < sb.size)
    (hfull : ∀ bi, marked (s.disk (bblock sb b)) bi = true) :
    ballocFrom sb (n + 1) b s = ballocFrom sb n (b + BitVec.ofNat 32 BPB) s := by
  have hnone : Lib.first (fun bi => !marked (s.disk (bblock sb b)) bi) 0 (min BPB (sb.size - b.toNat)) = none := by
    cases h : Lib.first (fun bi => !marked (s.disk (bblock sb b)) bi) 0 (min BPB (sb.size - b.toNat)) with
    | none => rfl
    | some bi =>
      obtain ⟨_, _, hbi, _⟩ := Lib.first_some h
      simp [hfull bi] at hbi
  rw [ballocFrom, if_pos hb]
  change (match Lib.first (fun bi => !marked (s.disk (bblock sb b)) bi) 0 (min BPB (sb.size - b.toNat)) with
    | some bi => _
    | none => _ : M (Option Nat)) s = _
  rw [hnone]

theorem ballocFrom_skip (m : Nat) (hm : m ≤ 2 ^ 18) (hsize : 2 ^ 31 ≤ sb.size)
    (hfull : ∀ k < m, ∀ bi, marked (s.disk (bblock sb (BitVec.ofNat 32 (k * BPB)))) bi = true) :
    ballocFrom sb (n + m) 0 s = ballocFrom sb n (BitVec.ofNat 32 (m * BPB)) s := by
  induction m generalizing n with
  | zero =>
    rw [Nat.zero_mul, Nat.add_zero]
    rfl
  | succ m ih =>
    have hmul : m * BPB < 2 ^ 18 * BPB := Nat.mul_lt_mul_of_pos_right hm (by decide)
    have hend : 2 ^ 18 * BPB = 2 ^ 31 := by decide
    rw [show n + (m + 1) = n + 1 + m by omega, ih (by omega) fun k hk => hfull k (by omega),
      ballocFrom_full (by rw [toNat_round (by omega)]; omega) (hfull m (Nat.lt_succ_self m)), ← BitVec.ofNat_add, Nat.succ_mul]

/-- One block more than 2^31; the map starts at block 45. -/
def hugeSb : Superblock := ⟨2 ^ 31 + 1, 0, 0, 45⟩

/-- All blocks are taken but the last, whose bit is the first of block 45 + 2^18. -/
def hugeDisk : Disk := update (fun _ _ => 0xff) (45 + 2 ^ 18) fun _ => 0

theorem hugeDisk_full {k : Nat} (hk : k ≠ 45 + 2 ^ 18) (bi : Nat) : marked (hugeDisk k) bi = true := by
  have h : bi % 8 < 8 := Nat.mod_lt _ (by omega)
  rw [marked_eq, hugeDisk, update_of_ne hk]
  generalize bi % 8 = j at h
  interval_cases j <;> rfl

theorem balloc_huge : balloc hugeSb (start hugeDisk) = .ok (some 0, start hugeDisk) := by
  have hnat : (BitVec.ofNat 32 (2 ^ 18 * BPB)).toNat = 2 ^ 31 := by decide
  have hround : ∀ k < 2 ^ 18, bblock hugeSb (BitVec.ofNat 32 (k * BPB)) ≠ 45 + 2 ^ 18 := by
    intro k hk
    have hpos : 0 < BPB := by decide
    have hlt : k * BPB < 2 ^ 18 * BPB := Nat.mul_lt_mul_of_pos_right hk hpos
    have hend : 2 ^ 18 * BPB = 2 ^ 31 := by decide
    have hB : BBLOCK hugeSb (k * BPB) = k + 45 := by
      rw [BBLOCK, Nat.mul_div_cancel _ hpos]
      rfl
    rw [bblock_eq (by omega) (by omega), hB]
    omega
  have hlast : bblock hugeSb (BitVec.ofNat 32 (2 ^ 18 * BPB)) ≠ 45 + 2 ^ 18 := by decide
  have hskip : balloc hugeSb (start hugeDisk) =
      ballocFrom hugeSb (2 ^ 18 + 1) (BitVec.ofNat 32 (2 ^ 18 * BPB)) (start hugeDisk) := by
    have hrounds : 2 ^ 19 + 1 = 2 ^ 18 + 1 + 2 ^ 18 := by decide
    rw [balloc, hrounds]
    exact ballocFrom_skip (2 ^ 18) (Nat.le_refl _) (by decide) fun k hk bi => hugeDisk_full (hround k hk) bi
  rw [hskip, ballocFrom_full (by rw [hnat]; decide) fun bi => hugeDisk_full hlast bi]
  have hover : ¬ (BitVec.ofNat 32 (2 ^ 18 * BPB) + BitVec.ofNat 32 BPB).toNat < hugeSb.size := by decide
  exact ballocFrom_over (n := 2 ^ 18 - 1) hover

/-- The map of `smallSb` without the bit of its own block. -/
def selfDisk : Disk := update (fun _ _ => 0) 1 (update (fun _ => 0) 0 1)

/-- A map that does not mark its own block loses its bits to the `bzero` of that block; and of a
file system of 2^31 + 1 blocks the last is free and not found. -/
theorem bitmap_not_set :
    (∃ s', balloc smallSb (start selfDisk) = .ok (some 1, s') ∧ bit smallSb selfDisk 0 = true ∧
      bit smallSb s'.disk 0 = false) ∧
    balloc hugeSb (start hugeDisk) = .ok (some 0, start hugeDisk) ∧ 2 ^ 31 < hugeSb.size ∧
      bit hugeSb hugeDisk (2 ^ 31) = false := by
  refine ⟨⟨_, rfl, by decide, by decide⟩, balloc_huge, by decide, by decide⟩

end Xv6.Fs.Bitmap
