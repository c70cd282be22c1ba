/-
  Xv6.Fs.Reach — runs from a well-formed image: who owns each block, that there are no holes, and
  that a name operation that fails changes nothing.

  An image is `Consistent` but for what is lost. From there `World` holds in every state between
  two calls (`world_reach`). `open` with O_CREATE is the exception among the name operations: it
  can fail with the new file made (`Loses`).
-/

import Xv6.Fs.CallSteps

namespace Xv6.Fs

variable {sb : Superblock} {E : Panic → Prop} {s s' : St} {d : Disk} {p : Nat}

/-! ## The image -/

structure Image (sb : Superblock) [Lost sb] (d : Disk) : Prop where
  blocks : Blocks sb (dinode sb d) d
  sound : ∀ k < sb.ninodes, (dinode sb d k).type ≠ 0 → Sound d (dinode sb d k)
  lost : ∀ i < sb.ninodes, ¬ Live sb i → (dinode sb d i).type ≠ 0
  linked : ∀ i < sb.ninodes, Live sb i → (dinode sb d i).type ≠ 0 → (dinode sb d i).nlink ≠ 0
  dirs : Dirs sb (view sb d)
  root : (view sb d ROOTINO).type = T_DIR

theorem refs_boot (d : Disk) : refs (boot d).core = one 0 := by
  funext k
  by_cases e : k = 0
  · rw [e, one_self]; rfl
  · rw [one_of_ne e]
    show ((boot d).core.itable k).ref = 0
    simp [boot, e]

theorem users_boot (d : Disk) : users (boot d) = one 0 := by
  funext j
  have hfiles : Lib.count (File.uses j) (fun f : Fin NFILE => (boot d).ftable f) = 0 :=
    Lib.count_eq_zero.mpr fun f hf => by rcases hf.1 with h | h <;> cases h
  have hzero : (0 : Nat) < NPROC := by decide
  have hstate : ∀ q : Fin NPROC, ((boot d).proc q).uses j ↔ q = ⟨0, hzero⟩ ∧ j = 0 := by
    intro q
    constructor
    · rintro ⟨h1, h2⟩
      refine ⟨Fin.ext ?_, h2.symm⟩
      by_contra hq
      have : ((boot d).proc q).state = .unused := if_neg hq
      rw [this] at h1
      cases h1
    · rintro ⟨rfl, rfl⟩
      exact ⟨rfl, rfl⟩
  unfold users
  rw [hfiles, Nat.zero_add]
  by_cases e : j = 0
  · rw [e, one_self]
    subst e
    rw [Lib.count, Finset.card_eq_one]
    refine ⟨⟨0, hzero⟩, ?_⟩
    ext q
    simp [hstate]
  · rw [one_of_ne e]
    exact Lib.count_eq_zero.mpr fun q hq => e ((hstate q).mp hq).2

theorem boot_ref {k : Nat} (h : 0 < refs (boot d).core k) : k = 0 := by
  by_contra e
  rw [refs_boot, one_of_ne e] at h
  omega

section

variable [Lost sb]

theorem world_boot (hL : Layout sb) (hi : Image sb d) : World sb 0 0 (boot d) := by
  have hroot : (dinode sb d ROOTINO).type ≠ 0 := by
    rw [← view_type hL.root_lt, hi.root]
    decide
  have htable : Table sb (dinode sb d) (boot d).core := by
    refine ⟨fun j hj => ?_, fun j k hj hk _ => (boot_ref hj).trans (boot_ref hk).symm, fun j hj => ?_, fun j hj => ?_,
      fun j hj hv => ?_⟩
    · by_contra hne
      rw [boot_ref (d := d) (k := j) (Nat.pos_of_ne_zero hne)] at hj
      cases hj
    · rw [boot_ref hj]
      exact hL.root_lt
    · rw [boot_ref hj]
      exact Lost.root
    · rw [boot_ref hj] at hv
      cases hv
  have hlinked : ∀ i, Live sb i → (view sb d i).type ≠ 0 → (view sb d i).nlink ≠ 0 := fun i hl ht => by
    have hlt := lt_of_type ht
    rw [view_type hlt] at ht
    rw [view_nlink hlt ht]
    exact hi.linked i hlt hl ht
  refine ⟨⟨⟨⟨hi.blocks, htable, hi.sound, hi.lost⟩, fun i hlt hl ht hn => absurd hn (hi.linked i hlt hl ht)⟩,
    fun _ => Nat.le_refl _, fun k hk => ?_, fun i hl ht hn => absurd hn (hlinked i hl ht)⟩, ?_, hi.dirs, rfl,
      fun _ => rfl, fun _ _ => .inr rfl,
    fun _ _ _ => rfl, nofun, nofun⟩
  · rw [boot_ref hk]
    show (view sb d ROOTINO).type ≠ 0
    rw [hi.root]
    decide
  · rw [refs_boot, users_boot, add_zero]

/-! ## Runs -/

theorem done_next (hL : Layout sb) (hw : World sb 0 0 s) {a : Nat × Call} (h : next sb s a = some s') :
    Done sb a.1 a.2 s s' := by
  obtain ⟨hp, hu, -, r, hr⟩ := next_some h
  exact (world_call (E := fun _ => True) hL hw hp hu ⟨trivial, fun hn => absurd trivial hn,
    fun hn => absurd trivial hn⟩ a.2).of_ok hr

theorem world_reach (hL : Layout sb) (hs : (sys sb (Image sb)).Reach s) : World sb 0 0 s :=
  Lib.Sys.invariant (I := World sb 0 0) (fun s h => by obtain ⟨d, hd, rfl⟩ := h; exact world_boot hL hd)
    (fun _ _ _ _ hw h => (done_next hL hw h).world) hs

/-- A call panics with what the names in the image are to blame for, or not at all. -/
theorem call_panic (hL : Layout sb) (hw : World sb 0 0 s) (hp : p < NPROC) (hu : (s.proc p).state = .used) {c : Call}
    {e : Panic} (h : call sb p c s = .error (.fs e)) : e = .iget ∨ e = .ilockNoType ∨ e = .unlinkNlink :=
  (world_call (E := fun e => e = .iget ∨ e = .ilockNoType ∨ e = .unlinkNlink) hL hw hp hu
    ⟨.inl rfl, fun hn => absurd (.inr (.inl rfl)) hn, fun hn => absurd (.inr (.inr rfl)) hn⟩ c).of_error h

end

/-! ## Images with one block in use -/

/-- Only the root directory has a block, the first one of the data area. -/
structure Flat (sb : Superblock) (d : Disk) : Prop where
  type : (dinode sb d ROOTINO).type = T_DIR
  addr : ∀ q ≤ NDIRECT, (dinode sb d ROOTINO).addr q = if q = 0 then dataStart sb else 0
  size : (dinode sb d ROOTINO).size ≤ BSIZE
  rest : ∀ i < sb.ninodes, i ≠ ROOTINO → (dinode sb d i).size = 0 ∧ ∀ q ≤ NDIRECT, (dinode sb d i).addr q = 0

section

variable (hf : Flat sb d)
include hf

theorem Flat.root_ne : (dinode sb d ROOTINO).type ≠ 0 := by rw [hf.type]; decide

theorem Flat.ptr_root (q : Nat) : ptr d (dinode sb d ROOTINO) q = if q = 0 then dataStart sb else 0 := by
  rcases place_cases q with h | ⟨k, -, rfl⟩ | h
  · rw [ptr_direct hf.root_ne h, hf.addr q h]
  · rw [ptr_no_indirect ((hf.addr _ (Nat.le_refl _)).trans (if_neg (by decide))) (by omega), if_neg (by omega)]
  · rw [ptr_far h, if_neg (by omega)]

theorem Flat.ptr_rest {i : Nat} (hi : i < sb.ninodes) (hne : i ≠ ROOTINO) (q : Nat) : ptr d (dinode sb d i) q = 0 := by
  by_cases ht : (dinode sb d i).type = 0
  · exact ptr_free ht
  obtain ⟨-, h0⟩ := hf.rest i hi hne
  rcases place_cases q with h | ⟨k, -, rfl⟩ | h
  · rw [ptr_direct ht h, h0 q h]
  · exact ptr_no_indirect (h0 _ (Nat.le_refl _)) (by omega)
  · exact ptr_far h

theorem Flat.owner (hr : ROOTINO < sb.ninodes) (q : Nat × Nat) :
    owner sb (dinode sb d) d q = if q = (ROOTINO, 0) then dataStart sb else 0 := by
  obtain ⟨i, q⟩ := q
  by_cases e : i = ROOTINO
  · subst e
    rw [Fs.owner, if_pos hr, hf.ptr_root]
    simp
  · rw [if_neg fun h => e (congrArg Prod.fst h), owner_of_nothing]
    split
    · exact hf.ptr_rest ‹_› e q
    · rfl

theorem Flat.blocks (hr : ROOTINO < sb.ninodes) (hs : dataStart sb < sb.size)
    (hb : ∀ b < sb.size, bit sb d b = decide (b ≤ dataStart sb)) : Blocks sb (dinode sb d) d := by
  have h0 : 0 < dataStart sb := dataStart_pos
  have hq : ∀ {q b}, 0 < b → (Fs.owner sb (dinode sb d) d q = b ↔ q = (ROOTINO, 0) ∧ b = dataStart sb) := fun {q b} hb => by
    rw [hf.owner hr]
    split <;> simp_all <;> omega
  refine ⟨⟨fun q h => ?_, fun q r h e => ?_, fun b h1 h2 => ?_⟩, fun b h1 h2 => ?_, fun _ => dinode_fits ..⟩
  · have := ((hq (Nat.pos_of_ne_zero h)).mp rfl).2
    omega
  · rw [((hq (Nat.pos_of_ne_zero h)).mp rfl).1, ((hq (Nat.pos_of_ne_zero h)).mp e.symm).1]
  · rw [hb b h2, decide_eq_true_iff]
    constructor
    · exact fun h => ⟨(ROOTINO, 0), (hq (by omega)).mpr ⟨rfl, by omega⟩⟩
    · rintro ⟨q, h⟩
      exact ((hq (by omega)).mp h).2.le
  · rw [hb b h2, decide_eq_true_iff]
    omega

theorem Flat.sound {k : Nat} (hk : k < sb.ninodes) : Sound d (dinode sb d k) := by
  by_cases e : k = ROOTINO
  · subst e
    refine ⟨hf.size.trans (by decide), fun n hn => ?_⟩
    have hn0 : n = 0 := by
      have := hf.size
      have : n * 1024 < 1024 := Nat.lt_of_lt_of_le hn this
      omega
    rw [hn0, blk, hf.ptr_root]
    exact Nat.ne_of_gt dataStart_pos
  · obtain ⟨h0, -⟩ := hf.rest k hk e
    exact ⟨by rw [h0]; exact Nat.zero_le _, fun n hn => absurd (h0 ▸ hn) (Nat.not_lt_zero _)⟩

theorem Flat.entry (hr : ROOTINO < sb.ninodes) {e : Nat} (he : 16 * e + 16 ≤ (dinode sb d ROOTINO).size) :
    (view sb d ROOTINO).entry e = .ofBytes ((List.range 16).map fun k => d (dataStart sb) (16 * e + k)) := by
  rw [Node.entry, view_byte hr hf.root_ne]
  congr 1
  refine List.map_congr_left fun k hk => ?_
  have hk := List.mem_range.mp hk
  have hlt : 16 * e + k < BSIZE := by have := hf.size; omega
  rw [byteAt, if_pos (by omega), Nat.div_eq_of_lt hlt, Nat.mod_eq_of_lt hlt, blk, hf.ptr_root]
  rfl

end

/-! ## A small image -/

def tinySb : Superblock := ⟨32, 16, 2, 4⟩

def tinyRoot : Dinode := ⟨T_DIR, 0, 0, 1, 32, fun k => if k = 0 then 5 else 0⟩

def tinyDots (o : Nat) : UInt8 :=
  if o < 16 then Dirent.byte ⟨ROOTINO, dot⟩ o else if o < 32 then Dirent.byte ⟨ROOTINO, dotdot⟩ (o - 16) else 0

/-- Inodes from block 2 on, the bitmap in block 4, the root directory in block 5; `bits` marks the
    blocks below 8. -/
def tiny (bits : UInt8) : Disk := fun b =>
  if b = 2 then putDinode (fun _ => 0) 64 tinyRoot
  else if b = 4 then fun o => if o = 0 then bits else 0
  else if b = 5 then tinyDots
  else fun _ => 0

theorem tiny_layout : Layout tinySb := ⟨by decide, by decide, by decide, by decide⟩

theorem tinyRoot_fits : tinyRoot.Fits :=
  ⟨by decide, by decide, by decide, by decide, by decide, fun k => by unfold tinyRoot; dsimp only; split <;> omega⟩

section

variable {bits : UInt8} {i : Nat}

theorem tiny_dinode_root : dinode tinySb (tiny bits) ROOTINO = tinyRoot := readDinode_putDinode _ _ tinyRoot_fits

theorem readDinode_zero (o : Nat) : readDinode (fun _ => 0) o = .zero := rfl

theorem tiny_dinode (hi : i < 16) (hne : i ≠ ROOTINO) : dinode tinySb (tiny bits) i = .zero := by
  have hb : IBLOCK tinySb i = 2 := by
    unfold IBLOCK IPB
    show i / 16 + 2 = 2
    omega
  rw [dinode, hb, ← readDinode_zero (i % IPB * 64)]
  refine readDinode_congr fun k h1 h2 => ?_
  show putDinode (fun _ => 0) 64 tinyRoot k = 0
  refine splice_of_not_mem ?_
  have : i % IPB = i := Nat.mod_eq_of_lt hi
  have : i ≠ 1 := hne
  omega

theorem tiny_type (hi : i < 16) (ht : (dinode tinySb (tiny bits) i).type ≠ 0) : i = ROOTINO := by
  by_contra hne
  rw [tiny_dinode hi hne] at ht
  exact ht rfl

theorem tiny_flat : Flat tinySb (tiny bits) := by
  refine ⟨by rw [tiny_dinode_root]; rfl, fun q hq => ?_, by rw [tiny_dinode_root]; decide, fun i hi hne => ?_⟩
  · have h : ∀ q : Fin (NDIRECT + 1), tinyRoot.addr q = if q.val = 0 then 5 else 0 := by decide
    rw [tiny_dinode_root]
    exact h ⟨q, by omega⟩
  · rw [tiny_dinode hi hne]
    exact ⟨rfl, fun q _ => by unfold Dinode.addr; split <;> rfl⟩

theorem tiny_view_type (ht : (view tinySb (tiny bits) i).type ≠ 0) : i = ROOTINO := by
  have hlt := lt_of_type ht
  rw [view_type hlt] at ht
  exact tiny_type hlt ht

theorem tiny_view_root : view tinySb (tiny bits) ROOTINO = ⟨T_DIR, 0, 0, 1, 32, byteAt (tiny bits) tinyRoot⟩ := by
  rw [view_eq (by decide), tiny_dinode_root, node_of_type (by decide)]
  rfl

theorem tiny_entry (e : Fin 2) : (view tinySb (tiny bits) ROOTINO).entry e = ⟨ROOTINO, if e = 0 then dot else dotdot⟩ := by
  have hval : ∀ e : Fin 2, Dirent.ofBytes ((List.range 16).map fun k => tinyDots (16 * e + k)) =
      ⟨ROOTINO, if e = 0 then dot else dotdot⟩ := by decide
  rw [tiny_flat.entry (by decide) (by rw [tiny_dinode_root]; have := e.isLt; show _ ≤ 32; omega)]
  exact hval e

theorem tiny_image : Image tinySb (tiny 0x3f) := by
  have hbit : ∀ b : Fin 32, bit tinySb (tiny 0x3f) b = decide (b.val ≤ dataStart tinySb) := by decide
  refine ⟨tiny_flat.blocks (by decide) (by decide) fun b hb => hbit ⟨b, hb⟩, fun k hk _ => tiny_flat.sound hk,
    fun i _ h => absurd rfl h, fun i hi _ ht => ?_, ⟨fun i _ ht => ?_, fun i _ ht e he => ⟨?_, fun _ => rfl⟩⟩, ?_⟩
  · rw [tiny_type hi ht, tiny_dinode_root]
    decide
  · rw [tiny_view_type (i := i) (by rw [ht]; decide), tiny_view_root]
    rfl
  · have e1 := tiny_view_type (i := i) (by rw [ht]; decide)
    subst e1
    rw [tiny_view_root] at he
    rw [tiny_entry ⟨e, he⟩]
    exact (by decide : ROOTINO < 16)
  · rw [tiny_view_root]

end

def slashF : List UInt8 := [47, 102, 0]

/-- "/f" is created and written to, and loses its name. -/
def unnamed : List (Nat × Call) :=
  [(0, .open slashF (O_CREATE ||| O_RDWR)), (0, .write 0 (fun _ => 7) 3 3 0), (0, .unlink slashF)]

/-! ## Blocks -/

/-- The pointers of the inodes, in `addrs` and in indirect blocks, are to blocks of the data area,
    each once, and these are the blocks that the bitmap marks. -/
theorem block_ownership (hL : Layout sb) (hs : (sys sb (Image sb)).Reach s) :
    (∀ i < sb.ninodes, ∀ k < sb.ninodes, ∀ q r, ptr s.core.disk (dinode sb s.core.disk i) q ≠ 0 →
      ptr s.core.disk (dinode sb s.core.disk i) q = ptr s.core.disk (dinode sb s.core.disk k) r → i = k ∧ q = r) ∧
    (∀ i < sb.ninodes, ∀ q, ptr s.core.disk (dinode sb s.core.disk i) q ≠ 0 →
      dataStart sb ≤ ptr s.core.disk (dinode sb s.core.disk i) q ∧ ptr s.core.disk (dinode sb s.core.disk i) q < sb.size) ∧
    (∀ b, dataStart sb ≤ b → b < sb.size →
      (bit sb s.core.disk b = true ↔ ∃ i < sb.ninodes, ∃ q, ptr s.core.disk (dinode sb s.core.disk i) q = b)) ∧
    ∀ p < NPROC, (s.proc p).state = .used → ∀ c, call sb p c s ≠ .error (.fs .bfree) := by
  have hw := world_reach hL hs
  have hb := hw.ready.inv.blocks
  refine ⟨fun i hi k hk q r hq e => hb.inj hi hk hq e, fun i hi q hq => hb.range hi hq, fun b h1 h2 => ?_,
    fun p hp hu c hc => ?_⟩
  · rw [hb.own.used_iff b h1 h2]
    constructor
    · rintro ⟨⟨i, q⟩, e⟩
      have hi : i < sb.ninodes := by
        by_contra hn
        rw [owner_of_nothing, if_neg hn] at e
        have : 0 < dataStart sb := dataStart_pos
        omega
      rw [owner, if_pos hi] at e
      exact ⟨i, hi, q, e⟩
    · rintro ⟨i, hi, q, e⟩
      exact ⟨(i, q), (if_pos hi).trans e⟩
  · rcases call_panic hL hw hp hu hc with h | h | h <;> cases h

/-- The block that `close` will free. -/
theorem block_ownership_tiny : ∃ s, (sys tinySb (Image tinySb)).Reach s ∧
    ((dinode tinySb s.core.disk 2).nlink = 0 ∧ (dinode tinySb s.core.disk 2).addr 0 = 6) ∧
    (bit tinySb s.core.disk 6 = true ↔ ∃ i < tinySb.ninodes, ∃ q, ptr s.core.disk (dinode tinySb s.core.disk i) q = 6) ∧
    ∀ p < NPROC, (s.proc p).state = .used → ∀ c, call tinySb p c s ≠ .error (.fs .bfree) := by
  obtain ⟨s, hs, ht⟩ : ∃ s, (sys tinySb (Image tinySb)).Reach s ∧ _ := Lib.Sys.reach_of_any unnamed
    (fun s => decide ((dinode tinySb s.core.disk 2).nlink = 0 ∧ (dinode tinySb s.core.disk 2).addr 0 = 6))
    ⟨_, tiny_image, rfl⟩ (by decide +kernel)
  obtain ⟨-, -, hbit, hfree⟩ := block_ownership tiny_layout hs
  exact ⟨s, hs, of_decide_eq_true ht, hbit 6 (by decide) (by decide), hfree⟩

/-! ## Holes -/

/-- Every inode has a block for each index below its size. -/
def NoHoles (sb : Superblock) (d : Disk) : Prop :=
  ∀ i < sb.ninodes, (dinode sb d i).type ≠ 0 → ∀ n, n * BSIZE < (dinode sb d i).size → blk d (dinode sb d i) n ≠ 0

/-- Allocated, and without a link. -/
def Orphan (sb : Superblock) (d : Disk) (i : Nat) : Prop := (view sb d i).type ≠ 0 ∧ (view sb d i).nlink = 0

/-- The blocks below the data area and those of the inodes are marked, each block is at one place at most, there are
    no holes, and the directories are whole. There may be marked blocks at no place, and orphans that only orphans
    name. -/
structure Consistent (sb : Superblock) (d : Disk) : Prop where
  low : ∀ b < dataStart sb, b < sb.size → bit sb d b = true
  range : ∀ i < sb.ninodes, ∀ q, ptr d (dinode sb d i) q ≠ 0 →
    dataStart sb ≤ ptr d (dinode sb d i) q ∧ ptr d (dinode sb d i) q < sb.size
  marked : ∀ i < sb.ninodes, ∀ q, ptr d (dinode sb d i) q ≠ 0 → bit sb d (ptr d (dinode sb d i) q) = true
  once : ∀ i < sb.ninodes, ∀ k < sb.ninodes, ∀ q r, ptr d (dinode sb d i) q ≠ 0 →
    ptr d (dinode sb d i) q = ptr d (dinode sb d k) r → (i, q) = (k, r)
  full : NoHoles sb d
  root : (view sb d ROOTINO).type = T_DIR ∧ (view sb d ROOTINO).nlink ≠ 0
  size : ∀ i, (view sb d i).type = T_DIR → (view sb d i).nlink ≠ 0 → (view sb d i).size % 16 = 0
  names : ∀ i, (view sb d i).type = T_DIR → (view sb d i).nlink ≠ 0 → ∀ e < (view sb d i).slots,
    ((view sb d i).entry e).inum < sb.ninodes ∧ (((view sb d i).entry e).inum ≠ 0 → ¬ Orphan sb d ((view sb d i).entry e).inum)

theorem NoHoles.sound (h : NoHoles sb d) {i : Nat} (hi : i < sb.ninodes) (ht : (dinode sb d i).type ≠ 0) :
    Sound d (dinode sb d i) := by
  refine ⟨Nat.le_of_not_lt fun hlt => ?_, h i hi ht⟩
  exact h i hi ht MAXFILE hlt (ptr_far (by decide))

open Classical in
/-- The orphans and the marked blocks of no inode. -/
@[reducible] noncomputable def lostIn (sb : Superblock) (d : Disk) (h : (view sb d ROOTINO).nlink ≠ 0) : Lost sb where
  inode i := decide (Orphan sb d i)
  block b := decide (dataStart sb ≤ b ∧ b < sb.size ∧ bit sb d b = true ∧ ∀ i < sb.ninodes, ∀ q, ptr d (dinode sb d i) q ≠ b)
  root := decide_eq_false fun ho => h ho.2

open Classical in
theorem Consistent.owned (h : Consistent sb d) :
    letI := lostIn sb d h.root.2
    Lib.Owned (dataStart sb) sb.size (owner sb (dinode sb d) d) (bit sb d) := by
  let _ := lostIn sb d h.root.2
  have hpos : 0 < dataStart sb := dataStart_pos
  -- a place is one of an inode, or that of a lost block
  have hcases : ∀ p b, b ≠ 0 → owner sb (dinode sb d) d p = b →
      (p.1 < sb.ninodes ∧ ptr d (dinode sb d p.1) p.2 = b) ∨ (p = (sb.ninodes, b) ∧ Lost.block sb b = true) := by
    rintro ⟨i, q⟩ b hb e
    unfold owner at e
    split at e
    · exact .inl ⟨‹_›, e⟩
    · split at e
      · rename_i hl
        obtain ⟨rfl, hl⟩ : i = sb.ninodes ∧ Lost.block sb q = true := hl
        obtain rfl : q = b := e
        exact .inr ⟨rfl, hl⟩
      · exact absurd e.symm hb
  have hlost : ∀ b, Lost.block sb b = true → dataStart sb ≤ b ∧ b < sb.size ∧ bit sb d b = true ∧
      ∀ i < sb.ninodes, ∀ q, ptr d (dinode sb d i) q ≠ b := fun b hb => of_decide_eq_true hb
  refine ⟨fun p hp => ?_, fun p r hp e => ?_, fun b h1 h2 => ⟨fun hb => ?_, fun ⟨p, e⟩ => ?_⟩⟩
  · rcases hcases p _ hp rfl with ⟨hi, e⟩ | ⟨-, hl⟩
    · rw [← e] at hp ⊢
      exact h.range _ hi _ hp
    · exact ⟨(hlost _ hl).1, (hlost _ hl).2.1⟩
  · rcases hcases p _ hp rfl with ⟨hi, e1⟩ | ⟨hp', hl⟩ <;> rcases hcases r _ hp e.symm with ⟨hk, e2⟩ | ⟨hr', hl'⟩
    · exact h.once _ hi _ hk _ _ (e1 ▸ hp) (e1.trans e2.symm)
    · exact absurd e1 ((hlost _ hl').2.2.2 _ hi _)
    · exact absurd e2 ((hlost _ hl).2.2.2 _ hk _)
    · exact hp'.trans hr'.symm
  · by_cases hu : ∃ i < sb.ninodes, ∃ q, ptr d (dinode sb d i) q = b
    · obtain ⟨i, hi, q, e⟩ := hu
      exact ⟨(i, q), (if_pos hi).trans e⟩
    · have hl : Lost.block sb b = true := decide_eq_true ⟨h1, h2, hb, fun i hi q e => hu ⟨i, hi, q, e⟩⟩
      exact ⟨(sb.ninodes, b), (if_neg (Nat.lt_irrefl _)).trans (if_pos ⟨rfl, hl⟩)⟩
  · rcases hcases p b (by omega) e with ⟨hi, e⟩ | ⟨-, hl⟩
    · rw [← e]
      exact h.marked _ hi _ (by omega)
    · exact (hlost b hl).2.2.1

theorem Consistent.image (h : Consistent sb d) : ∃ _ : Lost sb, Image sb d := by
  let _ := lostIn sb d h.root.2
  have hlive : ∀ {i}, Live sb i ↔ ¬ Orphan sb d i := decide_eq_false_iff_not
  have hlinked : ∀ {i}, Live sb i → (view sb d i).type ≠ 0 → (view sb d i).nlink ≠ 0 := fun hl ht hn => hlive.mp hl ⟨ht, hn⟩
  have hdir : ∀ {i}, (view sb d i).type = T_DIR → (view sb d i).type ≠ 0 := fun ht => by rw [ht]; decide
  refine ⟨inferInstance, ⟨h.owned, h.low, fun _ => dinode_fits ..⟩, fun k hk => h.full.sound hk, fun i hi hl => ?_,
    fun i hi hl ht => ?_, ⟨fun i hl ht => h.size i ht (hlinked hl (hdir ht)), fun i hl ht e he => ?_⟩, h.root.1⟩
  · rw [← view_type hi]
    exact (not_not.mp (mt hlive.mpr hl)).1
  · rw [← view_nlink hi ht]
    exact hlinked hl (by rwa [view_type hi])
  · obtain ⟨h1, h2⟩ := h.names i ht (hlinked hl (hdir ht)) e he
    exact ⟨h1, fun hne => hlive.mpr (h2 hne)⟩

theorem consistent_reach (hL : Layout sb) (hs : (sys sb (Consistent sb)).Reach s) : ∃ _ : Lost sb, World sb 0 0 s := by
  refine Lib.Sys.invariant (I := fun s => ∃ _ : Lost sb, World sb 0 0 s) (fun s h => ?_) (fun _ _ _ _ hw h => ?_) hs
  · obtain ⟨d, hd, rfl⟩ := h
    obtain ⟨_, hi⟩ := hd.image
    exact ⟨inferInstance, world_boot hL hi⟩
  · obtain ⟨_, hw⟩ := hw
    exact ⟨inferInstance, (done_next hL hw h).world⟩

theorem no_holes (hL : Layout sb) (hs : (sys sb (Consistent sb)).Reach s) :
    NoHoles sb s.core.disk ∧
    (∀ i < sb.ninodes, (dinode sb s.core.disk i).type ≠ 0 → (dinode sb s.core.disk i).size ≤ MAXFILE * BSIZE) ∧
    (∀ j i, Holds s.core j i → ∀ lim off n, n < 2 ^ 32 → ∃ r, readi sb j lim off n s.core = .ok (r, s.core)) ∧
    (∀ f < NFILE, ∀ lim n r, (∀ v s', fileread sb f lim n r s = .ok (v, s') → Untouched s.core s'.core) ∧
      ∀ e, fileread sb f lim n r s ≠ .error (.fs e)) ∧
    ∀ p < NPROC, (s.proc p).state = .used → ∀ c,
      call sb p c s ≠ .error (.fs .logWrite) ∧ call sb p c s ≠ .error (.fs .bmap) := by
  obtain ⟨_, hw⟩ := consistent_reach hL hs
  have hsound := hw.ready.inv.sound
  refine ⟨fun i hi ht => (hsound i hi ht).full, fun i hi ht => (hsound i hi ht).size, fun j i hj lim off n hn => ?_,
    fun f hf lim n r => ⟨fun v s' h => ?_, fun e h => ?_⟩, fun p hp hu c => ⟨fun h => ?_, fun h => ?_⟩⟩
  · have hrd : Lib.Wp (fun _ => False) (readi sb j lim off n) s.core _ := wp_readi hw.ready.inv.toBase hj hn
    cases hr : readi sb j lim off n s.core with
    | error e => exact (hrd.of_error hr).elim
    | ok v =>
      obtain ⟨r, t⟩ := v
      have := (hrd.of_ok hr).1
      exact ⟨r, by rw [this]⟩
  · exact ((world_fileread (E := fun _ => True) hw hf).of_ok h).2
  · exact (world_fileread (E := fun _ => False) hw hf).of_error h
  · rcases call_panic hL hw hp hu h with h | h | h <;> cases h
  · rcases call_panic hL hw hp hu h with h | h | h <;> cases h

theorem tiny_consistent : Consistent tinySb (tiny 0x7f) := by
  have hlow : ∀ b : Fin 5, bit tinySb (tiny 0x7f) b = true := by decide
  have hptr : ∀ {i q}, i < 16 → ptr (tiny 0x7f) (dinode tinySb (tiny 0x7f) i) q ≠ 0 →
      (i, q) = (ROOTINO, 0) ∧ ptr (tiny 0x7f) (dinode tinySb (tiny 0x7f) i) q = 5 := fun {i q} hi hq => by
    by_cases e : i = ROOTINO
    · subst e
      rw [tiny_flat.ptr_root] at hq ⊢
      by_cases e : q = 0
      · exact ⟨by rw [e], if_pos e⟩
      · exact absurd (if_neg e) hq
    · exact absurd (tiny_flat.ptr_rest hi e q) hq
  have hroot : ∀ {i}, (view tinySb (tiny 0x7f) i).type = T_DIR → i = ROOTINO := fun ht => tiny_view_type (by rw [ht]; decide)
  refine ⟨fun b hb _ => hlow ⟨b, hb⟩, fun i hi q hq => ?_, fun i hi q hq => ?_, fun i hi k hk q r hq e => ?_,
    fun i hi _ => (tiny_flat.sound hi).full, ?_, fun i ht _ => ?_, fun i ht _ e he => ?_⟩
  · rw [(hptr hi hq).2]
    decide
  · rw [(hptr hi hq).2]
    decide
  · exact (hptr hi hq).1.trans (hptr hk (e ▸ hq)).1.symm
  · rw [tiny_view_root]
    exact ⟨rfl, by decide⟩
  · rw [hroot ht, tiny_view_root]
    rfl
  · obtain rfl := hroot ht
    rw [tiny_view_root] at he
    rw [tiny_entry ⟨e, he⟩]
    refine ⟨(by decide : ROOTINO < 16), fun _ ho => ?_⟩
    rw [Orphan, tiny_view_root] at ho
    exact absurd ho.2 (by decide)

/-- Block 6 is nobody's, and an open file has lost its name. -/
theorem no_holes_tiny : ∃ s, (sys tinySb (Consistent tinySb)).Reach s ∧
    ((dinode tinySb s.core.disk 2).nlink = 0 ∧ (dinode tinySb s.core.disk 2).size = 3) ∧ NoHoles tinySb s.core.disk := by
  obtain ⟨s, hs, ht⟩ : ∃ s, (sys tinySb (Consistent tinySb)).Reach s ∧ _ := Lib.Sys.reach_of_any unnamed
    (fun s => decide ((dinode tinySb s.core.disk 2).nlink = 0 ∧ (dinode tinySb s.core.disk 2).size = 3))
    ⟨_, tiny_consistent, rfl⟩ (by decide +kernel)
  exact ⟨s, hs, of_decide_eq_true ht, (no_holes tiny_layout hs).1⟩

/-- Inode 3 with a size and no block, at its place in block 2. -/
def forged (o : Nat) : UInt8 := if o = 192 then 2 else if o = 200 then 1 else 0

theorem tiny_noHoles (bits : UInt8) : NoHoles tinySb (tiny bits) := fun _ hi _ => (tiny_flat.sound hi).full

/-- Where the bitmap does not mark the inode blocks, a write to a file is a write to inodes. -/
theorem holes_of_unmarked_inodes : NoHoles tinySb (tiny 0x3b) ∧
    ∃ s, (sys tinySb fun d => d = tiny 0x3b).Reach s ∧ ¬ NoHoles tinySb s.core.disk := by
  refine ⟨tiny_noHoles _, ?_⟩
  obtain ⟨s, hs, ht⟩ : ∃ s, (sys tinySb fun d => d = tiny 0x3b).Reach s ∧ _ := Lib.Sys.reach_of_any
    [(0, .open slashF (O_CREATE ||| O_RDWR)), (0, .write 0 forged 201 201 0)]
    (fun s => decide ((dinode tinySb s.core.disk 3).type ≠ 0 ∧ 0 < (dinode tinySb s.core.disk 3).size ∧
      (dinode tinySb s.core.disk 3).addr 0 = 0)) ⟨_, rfl, rfl⟩ (by decide +kernel)
  obtain ⟨h1, h2, h3⟩ := of_decide_eq_true ht
  refine ⟨s, hs, fun hn => hn 3 (by decide) h1 0 (by simpa using h2) ?_⟩
  rw [blk, ptr_direct h1 (by decide)]
  exact h3

/-! ## Operations that fail -/

/-- The inode that a name leads to. -/
def Node.lookup (v : Node) (name : List UInt8) : Option Nat := (v.find name).map fun e => (v.entry e).inum

/-- Some path leads from the root to the inode. -/
def OnTree (V : Nat → Node) (i : Nat) : Prop := ∃ path name, walk V ROOTINO path false = some (i, name)

/-- The file system is what it was, for those who can see it. -/
structure SameFs (sb : Superblock) (c c' : Core) : Prop where
  dirs : ∀ i, (view sb c'.disk i).type = T_DIR ↔ (view sb c.disk i).type = T_DIR
  names : ∀ i, (view sb c.disk i).type = T_DIR → ∀ name, (view sb c'.disk i).lookup name = (view sb c.disk i).lookup name
  nodes : ∀ i, OnTree (view sb c.disk) i ∨ Held c i → view sb c'.disk i = view sb c.disk i

theorem SameFs.of_view {c c' : Core} (h : view sb c'.disk = view sb c.disk) : SameFs sb c c' := by
  refine ⟨fun i => ?_, fun i _ name => ?_, fun i _ => ?_⟩ <;> rw [h]

/-- `open`, `mkdir`, `mknod`, `link` and `unlink`. -/
def Call.onNames : Call → Bool
  | .open _ _ | .mkdir _ | .mknod _ _ _ | .link _ _ | .unlink _ => true
  | _ => false

/-- The call creates a file and then has no file or descriptor for it. -/
def Call.Loses (sb : Superblock) (s : St) (p : Nat) : Call → Prop
  | .open m omode => Fs.Loses sb s p m omode
  | _ => False

theorem lookup_created {V : Nat → Node} {i e k : Nat} {cwd : Nat} {path name : List UInt8} (hpos : 0 < i) (hi : i < 2 ^ 16)
    (he : NewEntry V cwd path k e name) (hn : NameOk name) (hs : (V k).size % 16 = 0) :
    (V k).lookup name = none ∧ ((V k).setEntry e ⟨i, name⟩).lookup name ≠ none := by
  constructor
  · rw [Node.lookup, he.find]
    rfl
  · rw [Node.lookup, Ne, Option.map_eq_none_iff]
    intro hnone
    have hself : ((V k).setEntry e ⟨i, name⟩).entry e = ⟨i, name⟩ := entry_setEntry_self hi hn.length hn.zero
    have := Lib.first_none hnone e (Nat.zero_le _) (by rw [slots_setEntry hs]; omega)
    rw [named_iff.mpr (by rw [hself]; exact ⟨Nat.ne_of_gt hpos, namecmp_iff.mpr rfl⟩)] at this
    cases this

/-- A name operation that fails changes nothing, unless it is an `open` that has created the file. -/
theorem failed_names_change_nothing (hL : Layout sb) (hw : World sb 0 0 s) (hp : p < NPROC) (hu : (s.proc p).state = .used)
    {c : Call} (hc : c.onNames = true) (h : call sb p c s = .ok (-1, s')) :
    SameFs sb s.core s'.core ↔ ¬ c.Loses sb s p := by
  have hG : Guard (fun _ => True) (view sb s.core.disk) :=
    ⟨trivial, fun hn => absurd trivial hn, fun hn => absurd trivial hn⟩
  cases c with
  | link old new =>
    exact iff_of_true (.of_view (((world_sys_link hL hw hp hu hG).of_ok h).2 rfl)) id
  | unlink path =>
    exact iff_of_true (.of_view (((world_sys_unlink hL hw hp hu hG).of_ok h).2 rfl)) id
  | mkdir path =>
    exact iff_of_true (.of_view (((world_sys_mkdir hL hw hp hu hG).of_ok h).2 rfl)) id
  | mknod path major minor =>
    exact iff_of_true (.of_view (((world_sys_mknod hL hw hp hu hG).of_ok h).2 rfl)) id
  | «open» m omode =>
    rcases ((world_sys_open hL hw hp hu hG).of_ok h).2 rfl with ⟨hv, hl⟩ | ⟨hl, path, i, k, e, name, hi, -, hpos, he, hn, hv⟩
    · exact iff_of_true (.of_view hv) hl
    · refine iff_of_false (fun hsame => ?_) (not_not.mpr hl)
      have htd : (view sb s.core.disk k).type = T_DIR := walkFrom_parent he.walk
      obtain ⟨h1, h2⟩ := lookup_created hpos (Nat.lt_of_lt_of_le hi hL.ninodes_le) he hn (hw.dirs.size k rfl htd)
      have hnames := hsame.names k htd name
      rw [h1, hv] at hnames
      refine h2 ?_
      have hd : created (view sb s.core.disk) T_FILE 0 0 i k e name k = (view sb s.core.disk k).setEntry e ⟨i, name⟩ := by
        unfold created
        rw [Function.update_self]
        rfl
      rwa [hd] at hnames
  | _ => cases hc

/-- An `open` of a file that is not there, without O_CREATE. -/
theorem failed_names_change_nothing_tiny : ∃ s', call tinySb 0 (.open slashF O_RDONLY) (boot (tiny 0x3f)) = .ok (-1, s') ∧
    SameFs tinySb (boot (tiny 0x3f)).core s'.core := by
  have hr : Lib.Wp (fun _ => False) (call tinySb 0 (.open slashF O_RDONLY)) (boot (tiny 0x3f)) fun r _ => r = -1 := by
    decide +kernel
  obtain ⟨_, s', h, rfl⟩ := hr.returns
  have hw := world_boot tiny_layout tiny_image
  refine ⟨s', h, (failed_names_change_nothing (p := 0) tiny_layout hw (by decide) rfl rfl h).mpr ?_⟩
  rintro ⟨hcr, -⟩
  exact hcr rfl

/-- Eight pipes take all descriptors; "/f" is created all the same. -/
theorem open_leaves_file : ∃ s s', (sys tinySb (Image tinySb)).Reach s ∧
    call tinySb 0 (.open slashF O_CREATE) s = .ok (-1, s') ∧ ¬ SameFs tinySb s.core s'.core := by
  obtain ⟨s, hs, ht⟩ : ∃ s, (sys tinySb (Image tinySb)).Reach s ∧ _ := Lib.Sys.reach_of_any
    (List.replicate 8 (0, .pipe true true))
    (fun s => decide (Lib.Wp (fun _ => False) (call tinySb 0 (.open slashF O_CREATE)) s fun r s' => r = -1 ∧
      (view tinySb s.core.disk ROOTINO).type = T_DIR ∧
      (view tinySb s'.core.disk ROOTINO).lookup [102] ≠ (view tinySb s.core.disk ROOTINO).lookup [102]))
    ⟨_, tiny_image, rfl⟩ (by decide +kernel)
  obtain ⟨_, s', h, rfl, hd, hne⟩ := (of_decide_eq_true ht).returns
  exact ⟨s, s', hs, h, fun hsame => hne (hsame.names ROOTINO hd [102])⟩

end Xv6.Fs
