/-
  Xv6.Fs.DirSpecs — what the functions on directories and paths do to the file system that users
  see: `dirlookup`, `isdirempty` and `namex` nothing, `dirlink` adds one entry or nothing.

  `Ready h s`: besides what always holds, the inodes in the entries that `h` refers to are
  allocated, and every inode that is allocated without links is one of them.
-/

import Xv6.Fs.DataSpecs
import Xv6.Fs.Names

namespace Xv6.Fs

open Lib (Wp wp_bind wp_ite wp_pure)

structure Ready (sb : Superblock) [Lost sb] (h : Nat → Nat) (s : Core) : Prop where
  inv : Inv sb s
  le : ∀ k, h k ≤ refs s k
  alive : ∀ k, 0 < h k → (view sb s.disk (s.itable k).inum).type ≠ 0
  orphan : ∀ i, Live sb i → (view sb s.disk i).type ≠ 0 → (view sb s.disk i).nlink = 0 → ∃ k, 0 < h k ∧ (s.itable k).inum = i

variable {sb : Superblock} [Lost sb] {E : Panic → Prop} {s s' : Core} {i j k : Nat} {h h' : Nat → Nat}

/-! ## References of the call itself -/

theorem Inv.view_type_ne (hI : Inv sb s) (hj : Holds s j i) : (view sb s.disk i).type ≠ 0 := by
  rw [view_type ((hI.mid i).lt hj)]
  exact ((hI.mid i).copy_eq hj).2

theorem Inv.nameable (hI : Inv sb s) (hj : Holds s j i) : Nameable sb i := ⟨(hI.mid i).lt hj, fun _ => (hI.mid i).live hj⟩

theorem Ready.tabled (hr : Ready sb h s) (ht : Tabled sb h s s') (hle : ∀ k, h k ≤ refs s' k) : Ready sb h s' := by
  have hI : Inv sb s' := by
    refine hr.inv.tabled ht fun j i hj hn => ?_
    have htype := hr.inv.view_type_ne hj
    have hi := (hr.inv.mid i).lt hj
    have hlink : (view sb s.disk i).nlink = 0 := (view_nlink hi (by rwa [← view_type hi])).trans hn
    obtain ⟨k, hk, hki⟩ := hr.orphan i ((hr.inv.mid i).live hj) htype hlink
    have hkr : 0 < refs s k := Nat.lt_of_lt_of_le hk (hr.le k)
    have : k = j := hr.inv.table.unique k j hkr hj.ref (hki.trans hj.inum.symm)
    subst this
    exact ⟨hk, Nat.lt_of_lt_of_le hk (hle k)⟩
  refine ⟨hI, hle, fun k hk => ?_, fun i hl h1 h2 => ?_⟩
  · rw [ht.still.disk, ht.ext.inum k hk]
    exact hr.alive k hk
  · rw [ht.still.disk] at h1 h2
    obtain ⟨k, hk, hki⟩ := hr.orphan i hl h1 h2
    exact ⟨k, hk, (ht.ext.inum k hk).trans hki⟩

theorem Ready.mono (hr : Ready sb h s) (hle : ∀ k, h k ≤ h' k) (hle' : ∀ k, h' k ≤ refs s k)
    (ha : ∀ k, h k < h' k → (view sb s.disk (s.itable k).inum).type ≠ 0) : Ready sb h' s := by
  refine ⟨hr.inv, hle', fun k hk => ?_, fun i hl h1 h2 => ?_⟩
  · by_cases hk' : 0 < h k
    · exact hr.alive k hk'
    · exact ha k (by omega)
  · obtain ⟨k, hk, hki⟩ := hr.orphan i hl h1 h2
    exact ⟨k, Nat.lt_of_lt_of_le hk (hle k), hki⟩

theorem le_add_one (h : Nat → Nat) (j k : Nat) : h k ≤ (h + one j) k := Nat.le_add_right ..

theorem wp_put (hr : Ready sb h s) (hle : ∀ k, h k ≤ h' k) (hrefs : refs s = h' + one j) :
    Wp E (iput sb j) s fun _ s' => Tabled sb h' s s' ∧ refs s' = h' ∧ Ready sb h s' := by
  refine (wp_iput_keep hr.inv hrefs fun h0 hv hn => ?_).mono fun _ s' ⟨_, h2, h3⟩ =>
    ⟨h2, h3, hr.tabled (h2.mono hle) fun k => by rw [h3]; exact hle k⟩
  have hpos := pos_of_refs hrefs
  obtain ⟨k, hk, hki⟩ := hr.orphan _ (hr.inv.table.live j hpos) (hr.inv.view_type_ne ⟨hpos, rfl, hv⟩) hn
  have e : k = j := hr.inv.table.unique k j (Nat.lt_of_lt_of_le hk (hr.le k)) hpos hki
  have := hle k
  rw [e] at this hk
  omega

theorem wp_unlockput (hr : Ready sb h s) (hle : ∀ k, h k ≤ h' k) (hrefs : refs s = h' + one j) :
    Wp E (iunlockput sb j) s fun _ s' => Tabled sb h' s s' ∧ refs s' = h' ∧ Ready sb h s' := by
  simp only [iunlockput, wp_bind]
  refine (wp_iunlock (pos_of_refs hrefs)).mono fun _ t ht => ?_
  subst ht
  exact wp_put hr hle hrefs

theorem le_self (k : Nat) : h k ≤ h k := Nat.le_refl _

/-! ## Reading a directory -/

omit [Lost sb] in
theorem view_byte (hi : i < sb.ninodes) {d : Disk} (ht : (dinode sb d i).type ≠ 0) :
    (view sb d i).byte = byteAt d (dinode sb d i) := by
  rw [view_eq hi, node_of_type ht]

theorem wp_readDirent (hI : Inv sb s) (hj : Holds s j i) {e : Nat} {p : Panic}
    (he : 16 * e + 16 ≤ (view sb s.disk i).size) :
    Wp E (readDirent sb p j (16 * e)) s fun r s' => s = s' ∧ r = (view sb s.disk i).entry e := by
  have hi := (hI.mid i).lt hj
  obtain ⟨-, htype⟩ := (hI.mid i).copy_eq hj
  rw [view_size hi htype] at he
  simp only [readDirent, wp_bind]
  refine (wp_readi hI.toBase hj (by omega)).mono fun r t ⟨ht, hr⟩ => ?_
  subst ht
  have hr := hr rfl he
  subst hr
  rw [if_neg (by simp)]
  refine ⟨rfl, ?_⟩
  unfold Node.entry bytes
  rw [view_byte hi htype]

/-- What the loops over a directory know. -/
structure OpenDir (sb : Superblock) [Lost sb] (s : Core) (j i : Nat) : Prop where
  inv : Inv sb s
  holds : Holds s j i
  type : (view sb s.disk i).type = T_DIR
  whole : (view sb s.disk i).size % 16 = 0

/-- Besides, every directory names inodes that there can be. -/
structure AtDir (sb : Superblock) [Lost sb] (s : Core) (j i : Nat) : Prop where
  inv : Inv sb s
  holds : Holds s j i
  type : (view sb s.disk i).type = T_DIR
  dirs : Dirs sb (view sb s.disk)

theorem AtDir.live (h : AtDir sb s j i) : Live sb i := (h.inv.mid i).live h.holds

theorem AtDir.openDir (h : AtDir sb s j i) : OpenDir sb s j i := ⟨h.inv, h.holds, h.type, h.dirs.size i h.live h.type⟩

theorem OpenDir.size_eq (h : OpenDir sb s j i) : (s.itable j).d.size = 16 * (view sb s.disk i).slots := by
  obtain ⟨hcopy, htype⟩ := (h.inv.mid i).copy_eq h.holds
  have := h.whole
  rw [hcopy, ← view_size ((h.inv.mid i).lt h.holds) htype]
  unfold Node.slots
  omega

theorem OpenDir.lt_size (h : OpenDir sb s j i) {e : Nat} : 16 * e < (s.itable j).d.size ↔ e < (view sb s.disk i).slots := by
  rw [h.size_eq]
  omega

theorem OpenDir.read (h : OpenDir sb s j i) {e : Nat} {p : Panic} (he : e < (view sb s.disk i).slots) :
    Wp E (readDirent sb p j (16 * e)) s fun r s' => s = s' ∧ r = (view sb s.disk i).entry e := by
  refine wp_readDirent h.inv h.holds ?_
  unfold Node.slots at he
  omega

theorem OpenDir.wp_dirlookupFrom (h : OpenDir sb s j i) {Q : Option (Nat × Nat) → Core → Prop} {name : List UInt8} {n e : Nat}
    (hn : (view sb s.disk i).slots < e + n)
    (hnone : Lib.first ((view sb s.disk i).named name) e ((view sb s.disk i).slots - e) = none → Q none s)
    (hsome : ∀ m, Lib.first ((view sb s.disk i).named name) e ((view sb s.disk i).slots - e) = some m →
      Wp E (iget ((view sb s.disk i).entry m).inum) s fun l s' => Q (some (l, 16 * m)) s') :
    Wp E (dirlookupFrom sb j name n (16 * e)) s Q := by
  induction n generalizing e with
  | zero =>
    have e0 : (view sb s.disk i).slots - e = 0 := by omega
    exact hnone (by rw [e0]; rfl)
  | succ n ih =>
    simp only [dirlookupFrom, wp_bind, wp_inode]
    refine wp_ite (fun hlt => ?_) fun hge => ?_
    · have he := h.lt_size.mp hlt
      obtain ⟨m, hm⟩ : ∃ m, (view sb s.disk i).slots - e = m + 1 := ⟨(view sb s.disk i).slots - e - 1, by omega⟩
      simp only [wp_bind]
      refine (h.read he).mono fun de t ⟨ht, hde⟩ => ?_
      subst ht hde
      rw [hm] at hnone hsome
      simp only [Lib.first] at hnone hsome
      by_cases hnamed : (view sb s.disk i).named name e = true
      · rw [if_pos (named_iff.mp hnamed)]
        simp only [wp_bind]
        exact hsome e (by rw [if_pos hnamed])
      · rw [if_neg (fun hc => hnamed (named_iff.mpr hc))]
        simp only [if_neg hnamed] at hnone hsome
        have hrest : (view sb s.disk i).slots - (e + 1) = m := by omega
        exact ih (e := e + 1) (by omega) (by rw [hrest]; exact hnone) (by rw [hrest]; exact hsome)
    · have he : ¬ e < (view sb s.disk i).slots := fun hc => hge (h.lt_size.mpr hc)
      have e0 : (view sb s.disk i).slots - e = 0 := by omega
      exact hnone (by rw [e0]; rfl)

/-- `dirlookup` is `iget` of the inode that the first entry with this name has. -/
theorem OpenDir.wp_dirlookup (h : OpenDir sb s j i) {Q : Option (Nat × Nat) → Core → Prop} {name : List UInt8}
    (hnone : (view sb s.disk i).find name = none → Q none s)
    (hsome : ∀ e, (view sb s.disk i).find name = some e →
      Wp E (iget ((view sb s.disk i).entry e).inum) s fun l s' => Q (some (l, 16 * e)) s') :
    Wp E (dirlookup sb j name) s Q := by
  obtain ⟨hcopy, htype⟩ := (h.inv.mid i).copy_eq h.holds
  have ht : (s.itable j).d.type = T_DIR := by rw [hcopy, ← view_type ((h.inv.mid i).lt h.holds)]; exact h.type
  simp only [dirlookup, wp_bind, wp_inode, ht]
  rw [if_neg (by simp)]
  refine h.wp_dirlookupFrom (e := 0) ?_ hnone hsome
  rw [h.size_eq]
  omega

theorem wp_dirlookup (h : AtDir sb s j i) (hE : (∀ k < NINODE, 0 < refs s k) → E .iget) {name : List UInt8} :
    Wp E (dirlookup sb j name) s fun r s' =>
      (r = none ∧ s = s' ∧ (view sb s.disk i).find name = none) ∨
        ∃ e l, (view sb s.disk i).find name = some e ∧ r = some (l, 16 * e) ∧
          Got sb ((view sb s.disk i).entry e).inum l s s' := by
  refine h.openDir.wp_dirlookup (fun hnone => .inl ⟨rfl, rfl, hnone⟩) fun e he => ?_
  obtain ⟨hlt, hne, -⟩ := find_some he
  have hnames := h.dirs.names i h.live h.type e hlt
  refine (wp_iget h.inv.table hnames.lt (hnames.live hne) hE).mono fun l t hg => ?_
  exact .inr ⟨e, l, he, rfl, hg⟩

theorem wp_isdiremptyFrom (h : OpenDir sb s j i) {n e : Nat} (hn : (view sb s.disk i).slots < e + n) :
    Wp E (isdiremptyFrom sb j n (16 * e)) s fun r s' => s = s' ∧
      (r = true ↔ ∀ m, e ≤ m → m < (view sb s.disk i).slots → ((view sb s.disk i).entry m).inum = 0) := by
  induction n generalizing e with
  | zero => exact ⟨rfl, fun _ m h1 h2 => by omega, fun _ => rfl⟩
  | succ n ih =>
    simp only [isdiremptyFrom, wp_bind, wp_inode]
    refine wp_ite (fun hlt => ?_) fun hge => ?_
    · have he := h.lt_size.mp hlt
      simp only [wp_bind]
      refine (h.read he).mono fun de t ⟨ht, hde⟩ => ?_
      subst ht hde
      refine wp_ite (fun hne => ?_) fun heq => ?_
      · refine ⟨rfl, ⟨fun hc => ?_, fun hc => absurd (hc e (Nat.le_refl _) he) hne⟩⟩
        cases hc
      have := ih (e := e + 1) (by omega)
      rw [show 16 * (e + 1) = 16 * e + 16 by omega] at this
      refine this.mono fun r t ⟨ht, hr⟩ => ⟨ht, hr.trans ⟨fun hall m h1 h2 => ?_, fun hall m h1 h2 => hall m (by omega) h2⟩⟩
      rcases Nat.eq_or_lt_of_le h1 with rfl | h1
      · exact not_not.mp heq
      · exact hall m h1 h2
    · have he := fun hc => hge (h.lt_size.mpr hc)
      exact ⟨rfl, fun _ m h1 h2 => absurd (Nat.lt_of_le_of_lt h1 h2) he, fun _ => rfl⟩

theorem wp_isdirempty (h : AtDir sb s j i) :
    Wp E (isdirempty sb j) s fun r s' => s = s' ∧ (r = true ↔ (view sb s.disk i).isEmpty) := by
  simp only [isdirempty, wp_bind, wp_inode]
  exact wp_isdiremptyFrom h.openDir (e := 2) (by rw [h.openDir.size_eq]; omega)

theorem wp_emptyFrom (h : OpenDir sb s j i) {n e : Nat} (hn : (view sb s.disk i).slots < e + n)
    (he : e ≤ (view sb s.disk i).slots) :
    Wp E (emptyFrom sb j n (16 * e)) s fun r s' => s = s' ∧
      ∃ m ≤ (view sb s.disk i).slots, r = 16 * m ∧ (m < (view sb s.disk i).slots → ((view sb s.disk i).entry m).inum = 0) ∧
        ∀ l, e ≤ l → l < m → ((view sb s.disk i).entry l).inum ≠ 0 := by
  induction n generalizing e with
  | zero => omega
  | succ n ih =>
    simp only [emptyFrom, wp_bind, wp_inode]
    refine wp_ite (fun hlt => ?_) fun hge =>
      ⟨rfl, e, he, rfl, fun hc => absurd (h.lt_size.mpr hc) hge, fun l h1 h2 => by omega⟩
    have he := h.lt_size.mp hlt
    simp only [wp_bind]
    refine (h.read he).mono fun de t ⟨ht, hde⟩ => ?_
    subst ht hde
    refine wp_ite (fun h0 => ⟨rfl, e, Nat.le_of_lt he, rfl, fun _ => h0, fun l h1 h2 => by omega⟩) fun h0 => ?_
    have := ih (e := e + 1) (by omega) (by omega)
    rw [show 16 * (e + 1) = 16 * e + 16 by omega] at this
    refine this.mono fun r t ⟨ht, m, hm, hr, hfree, hused⟩ => ⟨ht, m, hm, hr, hfree, fun l h1 h2 => ?_⟩
    rcases Nat.eq_or_lt_of_le h1 with rfl | h1
    · exact h0
    · exact hused l h1 h2

/-! ## Writing an entry -/

theorem entry_block (e : Nat) : 16 ≤ BSIZE - 16 * e % BSIZE := by
  have h1 : BSIZE = 16 * 64 := rfl
  rw [h1, Nat.mul_mod_mul_left]
  omega

theorem write_setEntry {v : Node} {e : Nat} {x : Dirent} : v.write (16 * e) 16 16 x.byte = v.setEntry e x := by
  unfold Node.write Node.setEntry
  congr 1
  funext o
  congr 1
  rw [eq_iff_iff]
  omega

theorem write_zero {v : Node} {o : Nat} (ho : o ≤ v.size) {src : Nat → UInt8} : v.write o 0 0 src = v := by
  unfold Node.write
  obtain ⟨t, a, b, c, sz, f⟩ := v
  congr 1
  · exact Nat.max_eq_left ho
  · funext q
    rw [if_neg (by omega)]

/-- There is room for one more entry at the end. -/
def Appendable (sb : Superblock) (d : Disk) (x : Dinode) : Prop := x.size + 16 ≤ MAXFILE * BSIZE ∧ Room sb d x (x.size / BSIZE)

omit [Lost sb] in
theorem wp_writei_room (hlow : ∀ b < dataStart sb, b < sb.size → bit sb s.disk b = true) (ho : 0 < s.outstanding)
    (htype : (s.itable j).d.type ≠ 0) {src : Nat → UInt8} {e : Nat} (he : 16 * e ≤ (s.itable j).d.size)
    (hmax : (s.itable j).d.size ≤ MAXFILE * BSIZE) :
    Wp (fun _ => True) (writei sb j src none (16 * e) 16) s fun r _ =>
      r = 16 ↔ 16 * e + 16 ≤ MAXFILE * BSIZE ∧ Room sb s.disk (s.itable j).d (16 * e / BSIZE) := by
  have hM : MAXFILE * BSIZE = 274432 := rfl
  have hsmall : (16 * e + 16) % 2 ^ 32 = 16 * e + 16 := Nat.mod_eq_of_lt (by omega)
  simp only [writei, wp_bind, wp_inode, hsmall]
  refine wp_ite (fun h => absurd h (by omega)) fun _ => ?_
  refine wp_ite (fun h => iff_of_false (by decide) fun hc => absurd hc.1 (by omega)) fun hle => ?_
  have hmin : min (16 - 0) (BSIZE - 16 * e % BSIZE) = 16 := Nat.min_eq_left (entry_block e)
  have hblock : 16 * e / BSIZE < MAXFILE := (Nat.div_lt_iff_lt_mul BSIZE_pos).mpr (by omega)
  simp only [writeiLoop, wp_bind, hmin, within, if_true, Nat.zero_add]
  rw [if_pos (by decide)]
  simp only [wp_bind]
  refine (wp_bmap_room hlow ho htype hblock).mono fun addr t haddr => ?_
  by_cases h0 : addr = 0
  · simp only [if_pos h0, wp_pure]
    refine .of_forall fun _ _ => .of_forall fun _ _ => iff_of_false (by decide) fun hc => haddr.mpr hc.2 h0
  · simp only [if_neg h0, wp_bind, wp_bread]
    refine .of_forall fun _ _ => ?_
    rw [if_neg (by decide)]
    simp only [wp_pure]
    exact .of_forall fun _ _ => .of_forall fun _ _ => iff_of_true rfl ⟨by omega, haddr.mp h0⟩

/-- An entry is written, or nothing is; one that was there can always be written. -/
theorem wp_writeDirent (hL : Layout sb) (h : OpenDir sb s j i) (ho : 0 < s.outstanding) {e : Nat} {x : Dirent}
    (he : e ≤ (view sb s.disk i).slots) :
    Wp E (writei sb j x.byte none (16 * e) 16) s fun r s' =>
      (r = 16 ∧ (e < (view sb s.disk i).slots ∨ Appendable sb s.disk (dinode sb s.disk i)) ∧
        Changed sb i ((view sb s.disk i).setEntry e x) s s') ∨
        (r ≠ 16 ∧ (view sb s.disk i).slots ≤ e ∧ ¬ Appendable sb s.disk (dinode sb s.disk i) ∧
          Changed sb i (view sb s.disk i) s s') := by
  have hsz := h.whole
  have hslots : (view sb s.disk i).size = 16 * (view sb s.disk i).slots := by unfold Node.slots; omega
  have hi := (h.inv.mid i).lt h.holds
  obtain ⟨hcopy, htype⟩ := (h.inv.mid i).copy_eq h.holds
  have hmax := (h.inv.sound i hi htype).size
  have hsize := view_size hi htype
  have hroom : Wp _ (writei sb j x.byte none (16 * e) 16) s _ := wp_writei_room h.inv.blocks.low ho (by rw [hcopy]; exact htype)
    (show 16 * e ≤ (s.itable j).d.size by rw [hcopy]; omega) (by rw [hcopy]; exact hmax)
  rw [hcopy] at hroom
  -- at the end of the directory that is whether there is room
  have happend : (view sb s.disk i).slots ≤ e → (16 * e + 16 ≤ MAXFILE * BSIZE ∧
      Room sb s.disk (dinode sb s.disk i) (16 * e / BSIZE) ↔ Appendable sb s.disk (dinode sb s.disk i)) := fun hge => by
    rw [Appendable, show 16 * e = (dinode sb s.disk i).size by omega]
  refine ((wp_writei hL h.inv h.holds ho (by omega)).and hroom).mono fun r t ⟨hr, hroom⟩ => ?_
  rw [← hsize] at hmax
  rcases hr with ⟨rfl, rfl, hbad⟩ | ⟨tot, w, rfl, hw, hc⟩
  · have hge : (view sb s.disk i).slots ≤ e := by omega
    refine .inr ⟨by decide, hge, fun ha => ?_, ⟨h.inv, by rw [Function.update_eq_self], rfl, .refl, .refl⟩⟩
    exact absurd (hroom.mpr ((happend hge).mpr ha)) (by decide)
  · have hwt := hw.kernel rfl
    subst hwt
    by_cases ht : w = 16
    · subst ht
      rw [write_setEntry] at hc
      refine .inl ⟨rfl, ?_, hc⟩
      rcases Nat.lt_or_ge e (view sb s.disk i).slots with hlt | hge
      · exact .inl hlt
      · exact .inr ((happend hge).mp (hroom.mp rfl))
    · have hlt : w < 16 := by have := hw.le_n; omega
      have h0 := hw.first hlt (Nat.lt_of_lt_of_le hlt (entry_block e))
      subst h0
      rw [write_zero (by omega)] at hc
      have hfull := hw.full rfl hlt
      have := Nat.div_mul_le_self (16 * e + 0) BSIZE
      have hge : (view sb s.disk i).slots ≤ e := by omega
      refine .inr ⟨by decide, hge, fun ha => ?_, hc⟩
      exact absurd (hroom.mpr ((happend hge).mpr ha)) (by decide)

/-- What others refer to in the inode table is as it was. -/
structure Returned (s s' : Core) : Prop where
  still : Still s s'
  refs : refs s' = refs s
  entry : ∀ k, 0 < Fs.refs s k → s'.itable k = s.itable k

theorem Returned.holds (h : Returned s s') (hj : Holds s j i) : Holds s' j i := by
  have e := h.entry j hj.ref
  exact ⟨by rw [e]; exact hj.ref, by rw [e]; exact hj.inum, by rw [e]; exact hj.valid⟩

theorem Returned.table {D : Nat → Dinode} (h : Returned s s') (ht : Table sb D s) : Table sb D s' := by
  have href : ∀ k, (s'.itable k).ref = (s.itable k).ref := fun k => congrFun h.refs k
  refine ⟨fun k hk => by rw [href]; exact ht.high k hk, fun k l hk hl => ?_, fun k hk => ?_, fun k hk => ?_,
    fun k hk => ?_⟩
  · rw [href] at hk hl
    rw [h.entry k hk, h.entry l hl]
    exact ht.unique k l hk hl
  · rw [href] at hk
    rw [h.entry k hk]
    exact ht.lt k hk
  · rw [href] at hk
    rw [h.entry k hk]
    exact ht.live k hk
  · rw [href] at hk
    rw [h.entry k hk]
    exact ht.copy k hk

theorem Returned.inv (h : Returned s s') (hI : Inv sb s) : Inv sb s' := by
  have hd := h.still.disk
  refine ⟨⟨?_, ?_, ?_, ?_⟩, fun i hi hl => ?_⟩ <;> rw [hd]
  · exact hI.blocks
  · exact h.table hI.table
  · exact hI.sound
  · exact hI.lost
  · intro ht hn
    obtain ⟨j, hj⟩ := hI.orphan i hi hl ht hn
    exact ⟨j, h.holds hj⟩

theorem Returned.changed (h : Returned s s') (hI : Inv sb s) : Changed sb i (view sb s.disk i) s s' := by
  refine ⟨h.inv hI, by rw [h.still.disk, Function.update_eq_self], h.refs, ⟨fun k hk => ?_, fun k hk => ?_⟩, h.still.logs⟩
  · rw [h.entry k hk]
  · rw [h.entry k hk]
    exact id

omit [Lost sb] in
theorem Took.wp_iput {s t : Core} (h : Took i k s t) : Wp E (iput sb k) t fun _ s' => Returned s s' := by
  have hnot : ¬ ((t.itable k).ref = 1 ∧ (t.itable k).valid = true ∧ (t.itable k).d.nlink = 0) := by
    rintro ⟨h1, h2, -⟩
    have href := h.ref
    have h0 : refs s k = 0 := by unfold refs; omega
    rw [(h.fresh h0).2.1] at h2
    cases h2
  simp only [iput, wp_bind, wp_inode, hnot, if_false, wp_setInode]
  have hset : Function.update t.itable k { t.itable k with ref := (t.itable k).ref - 1 } =
      Function.update s.itable k { t.itable k with ref := (t.itable k).ref - 1 } := by
    rw [h.itable, Function.update_idem, Function.update_self]
  refine ⟨⟨h.still.disk, h.still.out, h.still.logged, h.still.home, h.still.past⟩, ?_, fun l hl => ?_⟩
  · refine refs_decr (h := refs s) h.refs_eq rfl ?_
    rfl
  · show Function.update t.itable k _ l = _
    rw [hset]
    by_cases e : l = k
    · subst e
      rw [Function.update_self, h.found hl]
      rfl
    · rw [Function.update_of_ne e]

inductive Dirlinked (sb : Superblock) [Lost sb] (i : Nat) (name : List UInt8) (inum : Nat) (s : Core) : Bool → Core → Prop
  | there (e : Nat) (t : Core) : (view sb s.disk i).find name = some e → Changed sb i (view sb s.disk i) s t →
      Dirlinked sb i name inum s false t
  | full (t : Core) : (view sb s.disk i).find name = none →
      (∀ l < (view sb s.disk i).slots, ((view sb s.disk i).entry l).inum ≠ 0) →
      ¬ Appendable sb s.disk (dinode sb s.disk i) → Changed sb i (view sb s.disk i) s t → Dirlinked sb i name inum s false t
  /-- The first entry that is not in use, or one more. -/
  | linked (e : Nat) (t : Core) : (view sb s.disk i).find name = none → e ≤ (view sb s.disk i).slots →
      (e < (view sb s.disk i).slots → ((view sb s.disk i).entry e).inum = 0) →
      (∀ l < e, ((view sb s.disk i).entry l).inum ≠ 0) →
      (e < (view sb s.disk i).slots ∨ Appendable sb s.disk (dinode sb s.disk i)) →
      Changed sb i ((view sb s.disk i).setEntry e ⟨inum, name⟩) s t → Dirlinked sb i name inum s true t

theorem OpenDir.wp_dirlink (hL : Layout sb) (h : OpenDir sb s j i) (ho : 0 < s.outstanding) {name : List UInt8} {inum : Nat}
    (hE : (view sb s.disk i).find name ≠ none → (∀ k < NINODE, 0 < refs s k) → E .iget) :
    Wp E (dirlink sb j name inum) s (Dirlinked sb i name inum s) := by
  simp only [dirlink, wp_bind]
  refine h.wp_dirlookup (fun hnone => ?_) fun e he => ?_
  · simp only [wp_bind, wp_inode]
    have hempty := wp_emptyFrom (E := E) (n := (s.itable j).d.size / 16 + 1) (e := 0) h (by
      rw [h.size_eq]
      omega) (Nat.zero_le _)
    refine hempty.mono fun off t ⟨ht, e, he, hoff, hfree, hused⟩ => ?_
    subst ht hoff
    refine (wp_writeDirent hL h ho he).mono fun r t hw => ?_
    rcases hw with ⟨rfl, hroom, hc⟩ | ⟨hne, hge, hroom, hc⟩
    · exact .linked e t hnone he hfree (fun l hl => hused l (Nat.zero_le _) hl) hroom hc
    · rw [wp_pure, beq_eq_false_iff_ne.mpr hne]
      exact .full t hnone (fun l hl => hused l (Nat.zero_le _) (by omega)) hroom hc
  · refine (wp_iget_took fun hfull => hE (by rw [he]; simp) hfull).mono fun k t ht => ?_
    simp only [wp_bind]
    exact ht.wp_iput.mono fun _ t' hs => .there e t' he (hs.changed h.inv)

/-- Directory `i` has an entry that is not in use, or room for one more. -/
def HasSlot (sb : Superblock) (d : Disk) (i : Nat) : Prop :=
  (∃ e < (view sb d i).slots, ((view sb d i).entry e).inum = 0) ∨ Appendable sb d (dinode sb d i)

theorem appendable_setDinode (hL : Layout sb) {d : Disk} (hB : Blocks sb (dinode sb d) d) (hi : i < sb.ninodes)
    (hk : k < sb.ninodes) (hne : k ≠ i) {x : Dinode} :
    Appendable sb (setDinode sb d i x) (dinode sb (setDinode sb d i x) k) ↔ Appendable sb d (dinode sb d k) := by
  simp only [Appendable, Room, Free, blk, dinode_setDinode_of_ne d x hne, (agree_setDinode hL hB x hi hk).ptr_eq,
    bit_setDinode hL x hi]

theorem ready_of_got (hr : Ready sb h s) (hg : Got sb i j s s') (hle : ∀ k, h k ≤ refs s k) : Ready sb h s' := by
  refine hr.tabled (hg.tabled.mono hle) fun k => Nat.le_trans (hle k) ?_
  rw [hg.refs]
  exact le_add_one ..

theorem wp_dirlink (hL : Layout sb) (h : AtDir sb s j i) (ho : 0 < s.outstanding) (hE : E .iget) {name : List UInt8}
    {inum : Nat} :
    Wp E (dirlink sb j name inum) s fun r s' =>
      (r = true ∧ (view sb s.disk i).find name = none ∧ ∃ e ≤ (view sb s.disk i).slots,
        (e < (view sb s.disk i).slots → ((view sb s.disk i).entry e).inum = 0) ∧
          Changed sb i ((view sb s.disk i).setEntry e ⟨inum, name⟩) s s') ∨
        (r = false ∧ Changed sb i (view sb s.disk i) s s') := by
  refine (h.openDir.wp_dirlink hL ho fun _ _ => hE).mono fun r t hr => ?_
  cases hr with
  | there e _ _ hc => exact .inr ⟨rfl, hc⟩
  | full _ _ _ _ hc => exact .inr ⟨rfl, hc⟩
  | linked e _ hnone he hfree _ _ hc => exact .inl ⟨rfl, hnone, e, he, hfree, hc⟩

/-! ## Paths -/

theorem Inv.copy_type (hI : Inv sb s) (hj : Holds s j i) : (s.itable j).d.type = (view sb s.disk i).type := by
  rw [view_type ((hI.mid i).lt hj), ((hI.mid i).copy_eq hj).1]

theorem Inv.copy_nlink (hI : Inv sb s) (hj : Holds s j i) : (s.itable j).d.nlink = (view sb s.disk i).nlink := by
  obtain ⟨h1, h2⟩ := (hI.mid i).copy_eq hj
  rw [view_nlink ((hI.mid i).lt hj) h2, h1]

theorem wp_lock (hr : Ready sb h s) (hpos : 0 < refs s j)
    (hN : ¬ E .ilockNoType → (view sb s.disk (s.itable j).inum).type ≠ 0) :
    Wp E (ilock sb j) s fun _ s' =>
      Tabled sb h s s' ∧ refs s' = refs s ∧ Ready sb h s' ∧ Holds s' j (s.itable j).inum ∧
        (view sb s'.disk (s.itable j).inum).type ≠ 0 := by
  have hi := hr.inv.table.lt j hpos
  refine (wp_ilock (h := h) hr.inv.table hpos fun h0 => ?_).mono fun _ t ⟨h1, h2, h3, h4⟩ => ?_
  · by_contra hc
    exact hN hc (by rw [view_type hi, h0])
  · refine ⟨h1, h2, hr.tabled h1 fun k => by rw [h2]; exact hr.le k, h3, ?_⟩
    rw [h1.still.disk, view_type hi]
    exact h4

/-- The walk ends at `w`: nothing is returned, or an entry of the inode table with a reference to it. -/
def Walked (sb : Superblock) [Lost sb] (E : Panic → Prop) (h : Nat → Nat) (s : Core) (w r : Option (Nat × List UInt8))
    (s' : Core) : Prop :=
  Tabled sb h s s' ∧
    ((w = none ∧ r = none ∧ refs s' = h) ∨ ∃ i nm l, w = some (i, nm) ∧ r = some (l, nm) ∧ refs s' = h + one l ∧
      (s'.itable l).inum = i ∧ (¬ E .ilockNoType → (view sb s.disk i).type ≠ 0))

theorem Walked.after (ht : Tabled sb h s s') {w r : Option (Nat × List UInt8)} {s'' : Core} (hw : Walked sb E h s' w r s'') :
    Walked sb E h s w r s'' := by
  rw [Walked, ht.still.disk] at hw
  exact ⟨ht.trans hw.1, hw.2⟩

theorem wp_namexFrom (hE : (∃ j, ∀ k < NINODE, 0 < (h + one j) k) → E .iget) {fuel : Nat} {path name : List UInt8} {parent : Bool}
    (hr : Ready sb h s) (hrefs : refs s = h + one j) (hd : Dirs sb (view sb s.disk))
    (hN : ¬ E .ilockNoType → Closed (view sb s.disk))
    (hj : ¬ E .ilockNoType → (view sb s.disk (s.itable j).inum).type ≠ 0) (hfuel : path.length < fuel) :
    Wp E (namexFrom sb parent fuel j path name) s
      (Walked sb E h s (walkFrom (view sb s.disk) parent fuel (s.itable j).inum path name)) := by
  induction fuel generalizing s j path name with
  | zero => omega
  | succ fuel ih =>
    simp only [namexFrom, walkFrom]
    cases hskip : skipelem path with
    | none =>
      cases parent with
      | true =>
        simp only [if_true, wp_bind]
        exact (wp_put hr le_self hrefs).mono fun _ t h => ⟨h.1, .inl ⟨rfl, rfl, h.2.1⟩⟩
      | false =>
        exact ⟨⟨.refl, hr.inv.table, .refl⟩, .inr ⟨_, name, j, rfl, rfl, hrefs, rfl, hj⟩⟩
    | some np =>
      obtain ⟨name', path'⟩ := np
      have hshort := (skipelem_some hskip).1
      simp only [wp_bind]
      refine (wp_lock hr (pos_of_refs hrefs) hj).mono fun _ t ht => ?_
      obtain ⟨htab, hreft, hrt, hjt, -⟩ := ht
      have hview : view sb t.disk = view sb s.disk := by rw [htab.still.disk]
      have hreft : refs t = h + one j := hreft.trans hrefs
      set i := (s.itable j).inum with hi
      simp only [wp_inode, hrt.inv.copy_type hjt, hview]
      refine wp_ite (fun hnd => ?_) fun hdir => ?_
      · rw [if_pos hnd]
        simp only [wp_bind]
        exact (wp_unlockput hrt le_self hreft).mono fun _ u h => ⟨htab.trans h.1, .inl ⟨rfl, rfl, h.2.1⟩⟩
      · rw [if_neg hdir]
        refine wp_ite (fun hlast => ?_) fun hmore => ?_
        · rw [if_pos hlast]
          simp only [wp_bind]
          refine (wp_iunlock (pos_of_refs hreft)).mono fun _ u hu => ?_
          subst hu
          exact ⟨htab, .inr ⟨i, name', j, rfl, rfl, hreft, hjt.inum, hj⟩⟩
        · rw [if_neg hmore]
          have hat : AtDir sb t j i := ⟨hrt.inv, hjt, by rw [hview]; exact not_not.mp hdir, by rw [hview]; exact hd⟩
          simp only [wp_bind]
          refine (wp_dirlookup hat fun hfull => hE ⟨j, by rw [← hreft]; exact hfull⟩).mono fun r u hr' => ?_
          rw [hview] at hr'
          rcases hr' with ⟨rfl, rfl, hnone⟩ | ⟨e, l, hfind, rfl, hg⟩
          · rw [hnone]
            simp only [wp_bind]
            exact (wp_unlockput hrt le_self hreft).mono fun _ v h => ⟨htab.trans h.1, .inl ⟨rfl, rfl, h.2.1⟩⟩
          · rw [hfind]
            simp only [wp_bind]
            have hru := ready_of_got hrt hg hrt.le
            have hrefu : refs u = h + one l + one j := by rw [hg.refs, hreft]; exact add_right_comm ..
            have htu : Tabled sb h t u := hg.tabled.mono hrt.le
            -- the next inode is allocated, if this is to be relied on
            have hnext : ¬ E .ilockNoType → (view sb s.disk ((view sb s.disk i).entry e).inum).type ≠ 0 := fun hc => by
              obtain ⟨h1, h2, -⟩ := find_some hfind
              exact (hN hc).entry i (not_not.mp hdir) e h1 h2
            have hviewu : view sb u.disk = view sb s.disk := by rw [hg.tabled.still.disk]; exact hview
            -- dropping the reference to the directory keeps the one to the next inode
            refine (wp_unlockput hru (le_add_one h l) hrefu).mono fun _ v hv => ?_
            obtain ⟨htv, hrefv, hrv⟩ := hv
            have hinv : (v.itable l).inum = ((view sb s.disk i).entry e).inum :=
              (htv.ext.inum l add_one_pos).trans hg.inum
            have hviewv : view sb v.disk = view sb s.disk := by rw [htv.still.disk]; exact hviewu
            have : Wp E (namexFrom sb parent fuel l path' name') v _ := ih hrv hrefv (by rw [hviewv]; exact hd)
              (by rw [hviewv]; exact hN) (by rw [hviewv, hinv]; exact hnext) (by omega)
            rw [hviewv, hinv] at this
            exact this.mono fun r w => .after (htab.trans (htu.trans (htv.mono (le_add_one h l))))

theorem wp_namex (hL : Layout sb) (hE : (∃ j, ∀ k < NINODE, 0 < (refs s + one j) k) → E .iget) {cwd : Nat}
    {path : List UInt8} {parent : Bool} (hr : Ready sb (refs s) s) (hc : 0 < refs s cwd) (hd : Dirs sb (view sb s.disk))
    (hN : ¬ E .ilockNoType → Closed (view sb s.disk)) :
    Wp E (namex sb cwd path parent) s
      (Walked sb E (refs s) s (walk (view sb s.disk) (s.itable cwd).inum path parent)) := by
  have hloop : ∀ j t, Tabled sb (refs s) s t → refs t = refs s + one j →
      (t.itable j).inum = (if path.head? = some slash then ROOTINO else (s.itable cwd).inum) →
      Wp E (namexFrom sb parent (path.length + 1) j path []) t
        (Walked sb E (refs s) s (walk (view sb s.disk) (s.itable cwd).inum path parent)) := by
    intro j t htab hrefs hinum
    have hview : view sb t.disk = view sb s.disk := by rw [htab.still.disk]
    have hrt : Ready sb (refs s) t := hr.tabled htab fun k => by rw [hrefs]; exact le_add_one ..
    have : Wp E (namexFrom sb parent (path.length + 1) j path []) t _ := wp_namexFrom hE hrt hrefs
      (by rw [hview]; exact hd) (by rw [hview]; exact hN) (fun hn => ?_) (Nat.lt_succ_self _)
    · rw [hview, hinum] at this
      exact this.mono fun r u => .after htab
    · rw [hview, hinum]
      split
      · exact (hN hn).root
      · exact hr.alive cwd hc
  simp only [namex]
  refine wp_ite (fun hroot => ?_) fun hrel => ?_
  · rw [wp_bind]
    have hE' : (∀ k < NINODE, 0 < refs s k) → E .iget := fun hfull =>
      hE ⟨0, fun k hk => Nat.lt_of_lt_of_le (hfull k hk) (le_add_one ..)⟩
    refine (wp_iget hr.inv.table hL.root_lt Lost.root hE').mono fun j t hg => hloop j t hg.tabled hg.refs ?_
    rw [if_pos hroot, hg.inum]
  · rw [wp_bind]
    refine (wp_idup hr.inv.table hc).mono fun j t ⟨hj, htab, hrefs⟩ => hloop j t htab (by rw [hj]; exact hrefs) ?_
    rw [if_neg hrel, hj]
    exact htab.ext.inum cwd hc

end Xv6.Fs
