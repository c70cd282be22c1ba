/-
  Xv6.Fs.InodeSpecs — references to inodes: what `iget`, `idup`, `ilock`, `ialloc` and `iput` do.

  `refs s = h + one j`: of the references to entries of the inode table the caller has one, to
  entry `j`, and the rest are `h`. Whoever has a reference can rely on the entry: it keeps its
  inode, and its copy once it has one (`Ext h`). `view d` is the file system as its users see it,
  and only `wp_iput_free` changes it.
-/

import Xv6.Fs.BlockSpecs

namespace Xv6.Fs

open Function (update update_self update_of_ne update_eq_self update_idem)
open Lib (Wp wp_bind wp_ite wp_get wp_pure update_ind update_unique)

@[grind] def refs (s : Core) (k : Nat) : Nat := (s.itable k).ref

def one (j : Nat) : Nat → Nat := Pi.single j 1

def view (sb : Superblock) (d : Disk) (i : Nat) : Node := if i < sb.ninodes then node d (dinode sb d i) else .free

/-- The entries that `h` refers to keep their inodes and copies. -/
structure Ext (h : Nat → Nat) (s s' : Core) : Prop where
  inum : ∀ k, 0 < h k → (s'.itable k).inum = (s.itable k).inum
  valid : ∀ k, 0 < h k → (s.itable k).valid = true → (s'.itable k).valid = true

/-- Only the inode table changes. -/
structure Still (s s' : Core) : Prop where
  disk : s'.disk = s.disk
  out : s'.outstanding = s.outstanding
  logged : s'.logged = s.logged
  home : s'.home = s.home
  past : s'.past = s.past

/-- The inode table changes, and `h` can rely on it. -/
structure Tabled (sb : Superblock) [Lost sb] (h : Nat → Nat) (s s' : Core) : Prop where
  still : Still s s'
  table : Table sb (dinode sb s'.disk) s'
  ext : Ext h s s'

variable {sb : Superblock} {E : Panic → Prop} {D : Nat → Dinode} {s s' s'' : Core} {i j k : Nat} {h h' : Nat → Nat}

@[simp] theorem one_self : one j j = 1 := Pi.single_eq_same ..

theorem one_of_ne (hk : k ≠ j) : one j k = 0 := Pi.single_eq_of_ne hk _

theorem add_one (h : Nat → Nat) (j : Nat) : h + one j = update h j (h j + 1) := by
  funext k
  rw [Pi.add_apply]
  exact update_ind k (by rw [one_self]) fun k hk => by rw [one_of_ne hk, Nat.add_zero]

theorem add_one_pos : 0 < (h + one j) j := by
  rw [Pi.add_apply, one_self]
  omega

theorem Ext.refl : Ext h s s := ⟨fun _ _ => rfl, fun _ _ h => h⟩

theorem Ext.trans (h1 : Ext h s s') (h2 : Ext h s' s'') : Ext h s s'' :=
  ⟨fun k hk => (h2.inum k hk).trans (h1.inum k hk), fun k hk hv => h2.valid k hk (h1.valid k hk hv)⟩

theorem Ext.mono (h1 : Ext h s s') (hle : ∀ k, h' k ≤ h k) : Ext h' s s' :=
  ⟨fun k hk => h1.inum k (Nat.lt_of_lt_of_le hk (hle k)), fun k hk => h1.valid k (Nat.lt_of_lt_of_le hk (hle k))⟩

theorem Ext.setD {x : Dinode} (e : s'.itable = Fs.setD s.itable j x) : Ext h s s' :=
  ⟨fun k _ => by rw [e, setD_inum], fun k _ hv => by rw [e, setD_valid]; exact hv⟩

theorem Ext.set {y : Inode} (e : s'.itable = update s.itable j y)
    (hy : 0 < h j → y.inum = (s.itable j).inum ∧ ((s.itable j).valid = true → y.valid = true)) : Ext h s s' := by
  constructor <;> intro k <;> rw [e]
  · exact update_ind k (fun hk => (hy hk).1) fun _ _ _ => rfl
  · exact update_ind k (fun hk hv => (hy hk).2 hv) fun _ _ _ hv => hv

theorem Holds.ext (hj : Holds s j i) (he : Ext h s s') (hh : 0 < h j) (hr : 0 < refs s' j) : Holds s' j i :=
  ⟨hr, (he.inum j hh).trans hj.inum, he.valid j hh hj.valid⟩

theorem Holds.set {y : Inode} (e : s'.itable = update s.itable j y) (hr : 0 < y.ref) (hi : y.inum = i)
    (hv : y.valid = true) : Holds s' j i := by
  have e : s'.itable j = y := by rw [e, update_self]
  exact ⟨by rw [e]; exact hr, by rw [e]; exact hi, by rw [e]; exact hv⟩

theorem Holds.other {y : Inode} (hk : Holds s k i) (hne : k ≠ j) (e : s'.itable = update s.itable j y) : Holds s' k i := by
  have e : s'.itable k = s.itable k := by rw [e, update_of_ne hne]
  exact ⟨by rw [e]; exact hk.ref, by rw [e]; exact hk.inum, by rw [e]; exact hk.valid⟩

theorem Still.refl : Still s s := ⟨rfl, rfl, rfl, rfl, rfl⟩

theorem Still.trans (h1 : Still s s') (h2 : Still s' s'') : Still s s'' :=
  ⟨h2.disk.trans h1.disk, h2.out.trans h1.out, h2.logged.trans h1.logged, h2.home.trans h1.home, h2.past.trans h1.past⟩

theorem Still.logs (h : Still s s') : Logs sb s s' :=
  ⟨h.out, h.home, h.past, fun b hb => by rw [h.logged]; exact hb, fun b _ hne => absurd (by rw [h.disk]) hne⟩

theorem view_eq (hi : i < sb.ninodes) (d : Disk) : view sb d i = node d (dinode sb d i) := if_pos hi

theorem view_type (hi : i < sb.ninodes) (d : Disk) : (view sb d i).type = (dinode sb d i).type := by
  rw [view_eq hi, node_type]

theorem view_nlink (hi : i < sb.ninodes) {d : Disk} (ht : (dinode sb d i).type ≠ 0) :
    (view sb d i).nlink = (dinode sb d i).nlink := by
  rw [view_eq hi, node_of_type ht]

theorem view_size (hi : i < sb.ninodes) {d : Disk} (ht : (dinode sb d i).type ≠ 0) :
    (view sb d i).size = (dinode sb d i).size := by
  rw [view_eq hi, node_of_type ht]

theorem view_of_ge (hi : sb.ninodes ≤ i) (d : Disk) : view sb d i = .free := if_neg (by omega)

theorem view_of_free {d : Disk} (ht : (view sb d i).type = 0) : view sb d i = .free := by
  by_cases hi : i < sb.ninodes
  · rw [view_type hi] at ht
    rw [view_eq hi, node, if_pos ht]
  · exact view_of_ge (by omega) d

theorem view_update {d d' : Disk} {v : Node} (hi : i < sb.ninodes) (hv : node d' (dinode sb d' i) = v)
    (hd : ∀ k < sb.ninodes, k ≠ i → dinode sb d' k = dinode sb d k ∧ node d' (dinode sb d k) = node d (dinode sb d k)) :
    view sb d' = update (view sb d) i v := by
  funext k
  refine update_ind k (by rw [view_eq hi, hv]) fun k ek => ?_
  by_cases hk : k < sb.ninodes
  · rw [view_eq hk, view_eq hk, (hd k hk ek).1, (hd k hk ek).2]
  · rw [view_of_ge (by omega), view_of_ge (by omega)]

variable [Lost sb]

theorem Tabled.trans (h1 : Tabled sb h s s') (h2 : Tabled sb h s' s'') : Tabled sb h s s'' :=
  ⟨h1.still.trans h2.still, h2.table, h1.ext.trans h2.ext⟩

theorem Tabled.mono (h1 : Tabled sb h s s') (hle : ∀ k, h' k ≤ h k) : Tabled sb h' s s' :=
  ⟨h1.still, h1.table, h1.ext.mono hle⟩

theorem Table.set (ht : Table sb D s) {y : Inode} (e : s'.itable = update s.itable j y)
    (hy : 0 < y.ref → j < NINODE ∧ y.inum < sb.ninodes ∧ Live sb y.inum ∧
      (∀ k, k ≠ j → 0 < (s.itable k).ref → (s.itable k).inum ≠ y.inum) ∧
      (y.valid = true → y.d = D y.inum ∧ y.d.type ≠ 0)) : Table sb D s' := by
  refine ⟨fun k => ?_, ?_, fun k => ?_, fun k => ?_, fun k => ?_⟩ <;> rw [e]
  · refine update_ind k (fun hk => ?_) fun k _ => ht.high k
    by_contra hne
    exact absurd (hy (by omega)).1 (by omega)
  · intro k l hr hr' hi
    refine update_unique (fun (y : Inode) n => 0 < y.ref ∧ y.inum = n) ?_ ?_ k l _ ⟨hr, rfl⟩ ⟨hr', hi.symm⟩
    · exact fun k l n hk hl => ht.unique k l hk.1 hl.1 (hk.2.trans hl.2.symm)
    · exact fun k hk n hkn hyn => (hy hyn.1).2.2.2.1 k hk hkn.1 (hkn.2.trans hyn.2.symm)
  · exact update_ind k (fun hr => (hy hr).2.1) fun k _ => ht.lt k
  · exact update_ind k (fun hr => (hy hr).2.2.1) fun k _ => ht.live k
  · exact update_ind k (fun hr => (hy hr).2.2.2.2) fun k _ => ht.copy k

theorem Table.keep (ht : Table sb D s) (hr : 0 < refs s j) {y : Inode} (e : s'.itable = update s.itable j y)
    (hi : y.inum = (s.itable j).inum) (hc : y.valid = true → y.d = D y.inum ∧ y.d.type ≠ 0) : Table sb D s' :=
  ht.set e fun _ => ⟨ht.lt_NINODE hr, hi ▸ ht.lt j hr, hi ▸ ht.live j hr,
    fun k hk hrk hk' => hk (ht.unique k j hrk hr (hk'.trans hi)), hc⟩

theorem refs_update {y : Inode} (e : s'.itable = update s.itable j y) : refs s' = update (refs s) j y.ref := by
  show Inode.ref ∘ s'.itable = _
  rw [e]
  exact Function.comp_update ..

theorem tabled_ref (ht : Table sb (dinode sb s.disk) s) (hr : 0 < refs s j) (n : Nat) (h : Nat → Nat) :
    Tabled sb h s { s with itable := update s.itable j { s.itable j with ref := n } } :=
  ⟨⟨rfl, rfl, rfl, rfl, rfl⟩, ht.keep hr rfl rfl (ht.copy j hr), .set rfl fun _ => ⟨rfl, fun hv => hv⟩⟩

/-! ## Taking a reference -/

/-- `iget` finds inode `i` in entry `j`, or takes that entry, which is not in use. -/
structure Took (i j : Nat) (s s' : Core) : Prop where
  still : Still s s'
  itable : s'.itable = update s.itable j (s'.itable j)
  inum : (s'.itable j).inum = i
  ref : (s'.itable j).ref = (s.itable j).ref + 1
  found : 0 < refs s j → s'.itable j = { s.itable j with ref := (s.itable j).ref + 1 }
  fresh : refs s j = 0 → j < NINODE ∧ (s'.itable j).valid = false ∧ ∀ k < NINODE, 0 < refs s k → (s.itable k).inum ≠ i

theorem wp_iget_took (hE : (∀ k < NINODE, 0 < refs s k) → E .iget) : Wp E (iget i) s fun j s' => Took i j s s' := by
  simp only [iget, wp_bind, wp_get]
  split
  · rename_i j hj
    obtain ⟨-, -, hj, -⟩ := Lib.first_some hj
    rw [Bool.and_eq_true, decide_eq_true_eq, beq_iff_eq] at hj
    simp only [wp_bind, wp_setInode, wp_pure]
    refine ⟨⟨rfl, rfl, rfl, rfl, rfl⟩, ?_, ?_, ?_, fun _ => ?_, fun h0 => absurd h0 (Nat.pos_iff_ne_zero.mp hj.1)⟩
    · simp only [update_self]
    · simp only [update_self, hj.2]
    · simp only [update_self]
    · simp only [update_self]
  · rename_i hnone
    have hnone : ∀ k < NINODE, 0 < refs s k → (s.itable k).inum ≠ i := by
      intro k hlt hk hki
      have := Lib.first_none hnone k (Nat.zero_le _) (by rw [Nat.zero_add]; exact hlt)
      rw [Bool.and_eq_false_iff, decide_eq_false_iff_not, beq_eq_false_iff_ne] at this
      rcases this with h | h
      · exact h hk
      · exact h hki
    split
    · rename_i j hj
      obtain ⟨-, hlt, hj, -⟩ := Lib.first_some hj
      have hj : refs s j = 0 := beq_iff_eq.mp hj
      have hj' : (s.itable j).ref = 0 := hj
      simp only [wp_bind, wp_setInode, wp_pure]
      refine ⟨⟨rfl, rfl, rfl, rfl, rfl⟩, ?_, ?_, ?_, fun h => absurd hj (Nat.pos_iff_ne_zero.mp h),
        fun _ => ⟨by omega, ?_, hnone⟩⟩
      · simp only [update_self]
      · simp only [update_self]
      · simp only [update_self, hj']
      · simp only [update_self]
    · rename_i hfull
      refine hE fun k hk => ?_
      have : (refs s k == 0) = false := Lib.first_none hfull k (Nat.zero_le _) (by omega)
      exact Nat.pos_of_ne_zero (beq_eq_false_iff_ne.mp this)

theorem Took.refs_eq (h : Took i j s s') : refs s' = refs s + one j := by
  rw [refs_update h.itable, add_one, h.ref, refs]

/-- A reference to inode `i` is taken, in entry `j`. -/
structure Got (sb : Superblock) [Lost sb] (i j : Nat) (s s' : Core) : Prop where
  tabled : Tabled sb (refs s) s s'
  refs : refs s' = refs s + one j
  inum : (s'.itable j).inum = i
  fresh : Fs.refs s j = 0 → (s'.itable j).valid = false ∧ ∀ k, 0 < Fs.refs s k → (s.itable k).inum ≠ i

theorem wp_iget (ht : Table sb (dinode sb s.disk) s) (hi : i < sb.ninodes) (hl : Live sb i)
    (hE : (∀ k < NINODE, 0 < refs s k) → E .iget) :
    Wp E (iget i) s fun j s' => Got sb i j s s' := by
  refine (wp_iget_took hE).mono fun j s' h => ?_
  have hfresh : refs s j = 0 → ∀ k, 0 < refs s k → (s.itable k).inum ≠ i :=
    fun h0 k hk => (h.fresh h0).2.2 k (ht.lt_NINODE hk) hk
  have hdisk : dinode sb s'.disk = dinode sb s.disk := by rw [h.still.disk]
  refine ⟨⟨h.still, ?_, .set h.itable fun hk => ?_⟩, h.refs_eq, h.inum, fun h0 => ⟨(h.fresh h0).2.1, hfresh h0⟩⟩
  · rw [hdisk]
    rcases Nat.eq_zero_or_pos (refs s j) with h0 | hpos
    · refine ht.set h.itable fun _ => ?_
      obtain ⟨hlt, hv, -⟩ := h.fresh h0
      rw [h.inum, hv]
      exact ⟨hlt, hi, hl, fun k _ hrk => hfresh h0 k hrk, fun hv => nomatch hv⟩
    · have hf := h.found hpos
      exact ht.keep hpos h.itable (by rw [hf]) (by rw [hf]; exact ht.copy j hpos)
  · rw [h.found hk]
    exact ⟨rfl, fun hv => hv⟩

theorem wp_idup (ht : Table sb (dinode sb s.disk) s) (hr : 0 < refs s j) :
    Wp E (idup j) s fun r s' => r = j ∧ Tabled sb (refs s) s s' ∧ refs s' = refs s + one j := by
  simp only [idup, wp_bind, wp_inode, wp_setInode, wp_pure]
  exact ⟨trivial, tabled_ref ht hr _ _, (refs_update rfl).trans (add_one ..).symm⟩

/-! ## Locking -/

theorem wp_ilock (ht : Table sb (dinode sb s.disk) s) (hr : 0 < refs s j)
    (hE : (dinode sb s.disk (s.itable j).inum).type = 0 → E .ilockNoType) :
    Wp E (ilock sb j) s fun _ s' =>
      Tabled sb h s s' ∧ refs s' = refs s ∧ Holds s' j (s.itable j).inum ∧
        (dinode sb s.disk (s.itable j).inum).type ≠ 0 := by
  have hr' : ¬ (s.itable j).ref < 1 := Nat.not_lt.mpr hr
  simp only [ilock, wp_bind, wp_inode, hr', if_false]
  refine wp_ite (fun hv => ?_) fun hv => ?_
  · simp only [wp_bind, wp_get, wp_setInode]
    refine wp_ite hE fun hx => ?_
    exact ⟨⟨⟨rfl, rfl, rfl, rfl, rfl⟩, ht.keep hr rfl rfl fun _ => ⟨rfl, hx⟩, .set rfl fun _ => ⟨rfl, fun _ => rfl⟩⟩,
      by rw [refs_update (s := s) rfl]; exact update_eq_self .., .set rfl hr rfl rfl, hx⟩
  · have hv : (s.itable j).valid = true := by simpa using hv
    obtain ⟨h1, h2⟩ := ht.copy j hr hv
    exact ⟨⟨.refl, ht, .refl⟩, rfl, ⟨hr, rfl, hv⟩, h1 ▸ h2⟩

theorem wp_iunlock (hr : 0 < refs s j) : Wp E (iunlock j) s fun _ s' => s = s' := by
  have hr' : ¬ (s.itable j).ref < 1 := Nat.not_lt.mpr hr
  simp only [iunlock, wp_bind, wp_inode, hr', if_false]
  rfl

/-! ## The file system across a change of the table -/

theorem Base.tabled (hb : Base sb s) (ht : Tabled sb h s s') : Base sb s' := by
  refine ⟨?_, ht.table, ?_, ?_⟩ <;> rw [ht.still.disk]
  · exact hb.blocks
  · exact hb.sound
  · exact hb.lost

theorem Inv.tabled (hi : Inv sb s) (ht : Tabled sb h s s')
    (hr : ∀ j i, Holds s j i → (dinode sb s.disk i).nlink = 0 → 0 < h j ∧ 0 < refs s' j) : Inv sb s' := by
  refine ⟨hi.toBase.tabled ht, fun i hlt hl htype hn => ?_⟩
  rw [ht.still.disk] at htype hn
  obtain ⟨j, hj⟩ := hi.orphan i hlt hl htype hn
  have := hr j i hj hn
  exact ⟨j, hj.ext ht.ext this.1 this.2⟩

theorem Inv.more (hi : Inv sb s) (ht : Tabled sb (refs s) s s') (hr : ∀ k, refs s k ≤ refs s' k) : Inv sb s' :=
  hi.tabled ht fun j _ hj _ => ⟨hj.ref, Nat.lt_of_lt_of_le hj.ref (hr j)⟩

/-! ## Dropping a reference -/

theorem refs_decr {y : Inode} (hr : refs s = h + one j) (e : s'.itable = update s.itable j y)
    (hy : y.ref = refs s j - 1) : refs s' = h := by
  rw [refs_update e, hy, hr, add_one, update_idem, update_self, Nat.add_sub_cancel, update_eq_self]

theorem pos_of_refs (hr : refs s = h + one j) : 0 < refs s j := by
  rw [hr]
  exact add_one_pos

theorem wp_iput_keep (hI : Inv sb s) (hr : refs s = h + one j)
    (hk : h j = 0 → (s.itable j).valid = true → (view sb s.disk (s.itable j).inum).nlink ≠ 0) :
    Wp E (iput sb j) s fun _ s' => Inv sb s' ∧ Tabled sb h s s' ∧ refs s' = h := by
  have hpos := pos_of_refs hr
  have hj : h j = refs s j - 1 := by rw [hr, Pi.add_apply, one_self]; omega
  have hnot : ¬ ((s.itable j).ref = 1 ∧ (s.itable j).valid = true ∧ (s.itable j).d.nlink = 0) := by
    rintro ⟨h1, h2, h3⟩
    obtain ⟨hc, ht⟩ := hI.table.copy j hpos h2
    refine hk (by rw [hj]; exact Nat.sub_eq_zero_of_le (Nat.le_of_eq h1)) h2 ?_
    rw [view_nlink (hI.table.lt j hpos) (hc ▸ ht), ← hc]
    exact h3
  simp only [iput, wp_bind, wp_inode, hnot, if_false]
  simp only [wp_setInode]
  have hrefs : refs { s with itable := update s.itable j { s.itable j with ref := (s.itable j).ref - 1 } } = h :=
    refs_decr hr rfl rfl
  have htab := tabled_ref hI.table hpos ((s.itable j).ref - 1) h
  refine ⟨hI.tabled htab fun k i hk' hn => ?_, htab, hrefs⟩
  rw [hrefs]
  have hhk : h k ≠ 0 := by
    by_cases ek : k = j
    · subst ek
      intro h0
      obtain ⟨hc, ht⟩ := hI.table.copy k hpos hk'.valid
      refine hk h0 hk'.valid ?_
      rw [view_nlink (hI.table.lt k hpos) (hc ▸ ht), hk'.inum, hn]
    · have := hk'.ref
      have e : refs s k = h k := by rw [hr, Pi.add_apply, one_of_ne ek, Nat.add_zero]
      rw [← refs, e] at this
      omega
  exact ⟨by omega, by omega⟩

theorem Table.congr (ht : Table sb D s) {D' : Nat → Dinode}
    (hD : ∀ k, 0 < refs s k → D' (s.itable k).inum = D (s.itable k).inum) : Table sb D' s :=
  { ht with copy := fun k hr hv => by rw [hD k hr]; exact ht.copy k hr hv }

/-- The last reference to an inode without links goes, and the inode with it. -/
theorem wp_iput_free (hL : Layout sb) (hI : Inv sb s) (hr : refs s = h + one j) (ho : 0 < s.outstanding)
    (hj : Holds s j i) (h0 : h j = 0) (hn : (view sb s.disk i).nlink = 0) :
    Wp E (iput sb j) s fun _ s' =>
      Inv sb s' ∧ Logs sb s s' ∧ refs s' = h ∧ Ext h s s' ∧
        view sb s'.disk = update (view sb s.disk) i .free := by
  have hm := hI.mid i
  obtain ⟨hcopy, htype⟩ := hm.copy_eq hj
  have hi := hm.lt hj
  rw [view_nlink hi htype, ← hcopy] at hn
  have hone : (s.itable j).ref = 1 := by
    have : refs s j = h j + one j j := by rw [hr]; rfl
    rwa [h0, one_self] at this
  simp only [iput, wp_bind, wp_inode]
  rw [if_pos ⟨hone, hj.valid, hn⟩]
  simp only [wp_bind]
  refine (wp_itrunc hL hm hj ho).mono fun _ t ⟨hmt, _, htab, hagree, hlog⟩ => ?_
  have hot : 0 < t.outstanding := by rw [hlog.out]; exact ho
  have hjt : Holds t j i := hj.setD htab
  have hdt : (t.itable j).d = (dinode sb s.disk i).empty := by rw [htab, setD_self]
  simp only [iupdate, wp_bind, wp_setCopy, wp_inode, wp_bread, update_self, hjt.inum, hdt]
  rw [wp_bwrite (by exact hot)]
  simp only [wp_setInode, update_self, Function.update_idem]
  -- the inode that is left on the disk
  set x : Dinode := { (dinode sb s.disk i).empty with type := 0 } with hx
  have hxf : x.Fits := by
    have : (dinode sb s.disk i).Fits := dinode_fits s.disk i
    exact ⟨by simp [hx], this.major, this.minor, this.nlink, by simp [hx, Dinode.empty], fun _ => by simp [hx, Dinode.empty]⟩
  have hself : dinode sb (setDinode sb t.disk i x) i = x := dinode_setDinode _ _ hxf
  have hother : ∀ k < sb.ninodes, k ≠ i → dinode sb (setDinode sb t.disk i x) k = dinode sb s.disk k := fun k hk hki => by
    rw [dinode_setDinode_of_ne _ x hki, hmt.disk k hk hki, update_of_ne hki]
  have halive : ∀ k < sb.ninodes, (dinode sb (setDinode sb t.disk i x) k).type ≠ 0 → k ≠ i ∧ (dinode sb s.disk k).type ≠ 0 := by
    intro k hk ht
    have hki : k ≠ i := by rintro rfl; exact ht (congrArg Dinode.type hself)
    exact ⟨hki, by rwa [← hother k hk hki]⟩
  have hag : ∀ k < sb.ninodes, k ≠ i → Agree t.disk (setDinode sb t.disk i x) (dinode sb s.disk k) := fun k hk hki => by
    have := agree_setDinode hL hmt.blocks x hi hk
    rwa [update_of_ne hki] at this
  have hne : ∀ k, k ≠ j → 0 < refs t k → (t.itable k).inum ≠ i := fun k hk hrk e =>
    hk (hmt.table.unique k j hrk hjt.ref (e.trans hjt.inum.symm))
  have hzero : (t.itable j).ref - 1 = 0 := by rw [htab, setD_ref, hone]
  refine ⟨⟨⟨?_, ?_, fun k hk ht => ?_, fun k hk hlk => ?_⟩, fun k hk hlk ht hnk => ?_⟩,
    hlog.trans (logs_itable.trans (logs_bwrite.trans logs_itable)), ?_, ?_, ?_⟩
  · refine hmt.blocks.keep (fun k hk q => ?_) (fun c _ => bit_setDinode hL x hi) fun k => dinode_fits ..
    by_cases e : k = i
    · subst e
      rw [update_self, ptr_empty]
      exact (congrArg (ptr _ · q) hself).trans (ptr_free rfl)
    · rw [update_of_ne e]
      exact (congrArg (ptr _ · q) (hother k hk e)).trans (hag k hk e).ptr_eq
  · refine Table.congr (D := update (dinode sb s.disk) i (dinode sb s.disk i).empty) ?_ fun k hrk => ?_
    · exact hmt.table.set rfl fun hpos => absurd hpos (by simp only [hzero]; omega)
    · have hkj : k ≠ j := by
        rintro rfl
        rw [refs_update (s := t) rfl, update_self] at hrk
        exact absurd hrk (by simp only [hzero]; omega)
      rw [refs_update (s := t) rfl, update_of_ne hkj] at hrk
      have ek : ∀ y, update t.itable j y k = t.itable k := fun y => update_of_ne hkj ..
      simp only [ek]
      rw [update_of_ne (hne k hkj hrk)]
      exact hother _ (hmt.table.lt k hrk) (hne k hkj hrk)
  · obtain ⟨e, ht⟩ := halive k hk ht
    show Sound (setDinode sb t.disk i x) (dinode sb (setDinode sb t.disk i x) k)
    rw [hother k hk e]
    exact (hag k hk e).sound ((hagree k hk e).sound (hI.sound k hk ht))
  · have e : k ≠ i := fun e => hlk (e ▸ hm.live hj)
    show (dinode sb (setDinode sb t.disk i x) k).type ≠ 0
    rw [hother k hk e]
    exact hI.lost k hk hlk
  · obtain ⟨e, ht⟩ := halive k hk ht
    obtain ⟨l, hl⟩ := hI.orphan k hk hlk ht (by rw [← hother k hk e]; exact hnk)
    have hlj : l ≠ j := fun el => e (by rw [← hl.inum, el, hj.inum])
    exact ⟨l, (hl.setD htab).other hlj rfl⟩
  · have hrt : refs t = h + one j := by
      rw [← hr]
      funext k
      rw [refs, htab, setD_ref]
      rfl
    exact refs_decr hrt rfl rfl
  · exact (Ext.setD htab).trans (.set rfl fun hpos => by omega)
  · refine view_update hi ?_ fun k hk hki => ⟨hother k hk hki, ?_⟩
    · exact (congrArg (node _) hself).trans (if_pos rfl)
    · exact ((hagree k hk hki).trans (hag k hk hki)).node_eq (hI.sound k hk)

theorem wp_iput (hL : Layout sb) (hI : Inv sb s) (hr : refs s = h + one j) (ho : 0 < s.outstanding) :
    Wp E (iput sb j) s fun _ s' =>
      Inv sb s' ∧ Logs sb s s' ∧ refs s' = h ∧ Ext h s s' ∧
        view sb s'.disk =
          if h j = 0 ∧ (s.itable j).valid = true ∧ (view sb s.disk (s.itable j).inum).nlink = 0 then
            update (view sb s.disk) (s.itable j).inum .free
          else view sb s.disk := by
  by_cases hc : h j = 0 ∧ (s.itable j).valid = true ∧ (view sb s.disk (s.itable j).inum).nlink = 0
  · rw [if_pos hc]
    exact wp_iput_free hL hI hr ho ⟨pos_of_refs hr, rfl, hc.2.1⟩ hc.1 hc.2.2
  · rw [if_neg hc]
    refine (wp_iput_keep hI hr fun h0 hv hn => hc ⟨h0, hv, hn⟩).mono fun _ s' ⟨h1, h2, h3⟩ => ?_
    exact ⟨h1, h2.still.logs, h3, h2.ext, by rw [h2.still.disk]⟩

/-! ## A new inode -/

/-- What `ialloc` leaves behind: inode `i`, of type `type`, in entry `j`, and not linked yet. -/
structure Fresh (sb : Superblock) [Lost sb] (type i j : Nat) (s s' : Core) : Prop where
  lt : i < sb.ninodes
  pos : 0 < i
  old : (view sb s.disk i).type = 0
  base : Base sb s'
  orphan : ∀ k < sb.ninodes, Live sb k → k ≠ i → (dinode sb s'.disk k).type ≠ 0 → (dinode sb s'.disk k).nlink = 0 →
    ∃ l, Holds s' l k
  inode : dinode sb s'.disk i = { Dinode.zero with type }
  disk : s'.disk = setDinode sb s.disk i { Dinode.zero with type }
  view : view sb s'.disk = update (Fs.view sb s.disk) i { Node.free with type }
  free : refs s j = 0
  refs : refs s' = refs s + one j
  inum : (s'.itable j).inum = i
  ext : Ext (Fs.refs s) s s'
  logs : Logs sb s s'

theorem wp_ialloc (hL : Layout sb) (hI : Inv sb s) (ho : 0 < s.outstanding) (hE : E .iget) {type : Nat} (ht : type ≠ 0)
    (hlt : type < 2 ^ 16) (halive : ∀ k, 0 < refs s k → (dinode sb s.disk (s.itable k).inum).type ≠ 0) :
    Wp E (ialloc sb type) s fun r s' =>
      (r = none ∧ s = s' ∧ ∀ i, 0 < i → i < sb.ninodes → (dinode sb s.disk i).type ≠ 0) ∨
        ∃ i j, r = some j ∧ Fresh sb type i j s s' := by
  simp only [ialloc, wp_bind, wp_get]
  split
  · rename_i i hfirst
    obtain ⟨hpos, hlt', hfree, -⟩ := Lib.first_some hfirst
    have hi : i < sb.ninodes := by omega
    have hfree : (dinode sb s.disk i).type = 0 := beq_iff_eq.mp hfree
    have hli : Live sb i := by_contra fun h => hI.lost i hi h hfree
    have hxf : ({ Dinode.zero with type } : Dinode).Fits :=
      ⟨hlt, by simp [Dinode.zero], by simp [Dinode.zero], by simp [Dinode.zero], by simp [Dinode.zero],
        fun _ => by simp [Dinode.zero]⟩
    simp only [wp_bind]
    rw [wp_bwrite ho]
    set x : Dinode := { Dinode.zero with type } with hx
    have hself : dinode sb (setDinode sb s.disk i x) i = x := dinode_setDinode _ _ hxf
    have hother : ∀ k, k ≠ i → dinode sb (setDinode sb s.disk i x) k = dinode sb s.disk k := fun k hki =>
      dinode_setDinode_of_ne _ x hki
    have hag : ∀ k < sb.ninodes, Agree s.disk (setDinode sb s.disk i x) (dinode sb s.disk k) := fun k hk =>
      agree_setDinode hL hI.blocks x hi hk
    have hx0 : ∀ (d : Disk) q, ptr d x q = 0 := fun d q => ptr_empty d x q
    have hne : ∀ k, 0 < refs s k → (s.itable k).inum ≠ i := fun k hk e => halive k hk (by rw [e, hfree])
    -- the state before `iget`
    set t : Core := { s with
      disk := update s.disk (IBLOCK sb i) (putDinode (s.disk (IBLOCK sb i)) (i % IPB * 64) x)
      logged := update s.logged (IBLOCK sb i) true } with htdef
    have htd : t.disk = setDinode sb s.disk i x := rfl
    have hbt : Base sb t := by
      refine ⟨?_, ?_, fun k hk htk => ?_, fun k hk hlk => ?_⟩
      · refine hI.blocks.keep (fun k hk q => ?_) (fun c _ => bit_setDinode hL x hi) fun k => dinode_fits ..
        by_cases e : k = i
        · subst e
          rw [htd, hself, hx0, ptr_free hfree]
        · rw [htd, hother k e]
          exact (hag k hk).ptr_eq
      · have ht : Table sb (dinode sb s.disk) t := hI.table.same rfl
        exact ht.congr fun k hk => hother _ (hne k hk)
      · by_cases e : k = i
        · subst e
          rw [htd, hself]
          exact ⟨Nat.zero_le _, fun n hn => absurd hn (Nat.not_lt_zero _)⟩
        · rw [htd, hother k e] at htk ⊢
          exact (hag k hk).sound (hI.sound k hk htk)
      · have e : k ≠ i := by rintro rfl; exact hlk hli
        rw [htd, hother k e]
        exact hI.lost k hk hlk
    refine (wp_iget hbt.table hi hli fun _ => hE).mono fun j s' ⟨htab, hrefs, hinum, _⟩ => ?_
    have hj0 : refs s j = 0 := by
      by_contra hj
      have hj : 0 < refs t j := Nat.pos_of_ne_zero hj
      exact hne j hj ((htab.ext.inum j hj).symm.trans hinum)
    refine .inr ⟨i, j, rfl, hi, hpos, ?_, hbt.tabled htab, fun k hk hlk hki htk hnk => ?_, ?_, htab.still.disk,
      ?_, hj0, hrefs, hinum, ?_, ?_⟩
    · rw [view_type hi, hfree]
    · rw [htab.still.disk, htd, hother k hki] at htk hnk
      obtain ⟨l, hl⟩ := hI.orphan k hk hlk htk hnk
      have hlt : Holds t l k := ⟨hl.ref, hl.inum, hl.valid⟩
      refine ⟨l, hlt.ext htab.ext hl.ref ?_⟩
      rw [hrefs, Pi.add_apply]
      exact Nat.lt_of_lt_of_le hl.ref (Nat.le_add_right ..)
    · rw [htab.still.disk, htd, hself]
    · rw [htab.still.disk, htd]
      refine view_update hi ?_ fun k hk hki => ⟨hother k hki, (hag k hk).node_eq (hI.sound k hk)⟩
      rw [hself, node_of_type ht]
      congr 1
    · exact ⟨htab.ext.inum, htab.ext.valid⟩
    · exact logs_bwrite.trans htab.still.logs
  · rename_i hfirst
    exact .inl ⟨rfl, rfl, fun i h1 h2 => beq_eq_false_iff_ne.mp (Lib.first_none hfirst i h1 (by omega))⟩

end Xv6.Fs
