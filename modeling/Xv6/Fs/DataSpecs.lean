/-
  Xv6.Fs.DataSpecs — the contents of a file: what `readi`, `writei` and the changes of an inode
  that is locked do to the file system that users see.

  `readi` changes nothing. `writei` stops short when the disk is full or the user's memory ends;
  what it has copied by then stays (`Node.write`).
-/

import Xv6.Fs.InodeSpecs

namespace Xv6.Fs

open Function (update update_self update_of_ne update_idem)
open Lib (Wp wp_bind wp_ite)

variable {sb : Superblock} [Lost sb] {E : Panic → Prop} {D : Nat → Dinode} {s s' : Core} {i j : Nat}

/-! ## Changes of a locked inode -/

/-- Inode `i` becomes `v`, as users see it, and nothing else does. -/
structure Changed (sb : Superblock) [Lost sb] (i : Nat) (v : Node) (s s' : Core) : Prop where
  inv : Inv sb s'
  view : view sb s'.disk = update (Fs.view sb s.disk) i v
  refs : refs s' = refs s
  ext : Ext (Fs.refs s) s s'
  logs : Logs sb s s'

theorem Changed.holds {v : Node} (hc : Changed sb i v s s') {k l : Nat} (hl : Holds s l k) : Holds s' l k := by
  refine hl.ext hc.ext hl.ref ?_
  rw [hc.refs]
  exact hl.ref

theorem refs_setD {x : Dinode} (e : s'.itable = setD s.itable j x) : refs s' = refs s := by
  funext k
  rw [refs, e, setD_ref]
  rfl

theorem Changed.of_mid (hI : Inv sb s) (hj : Holds s j i) {x : Dinode}
    (hm : Mid sb (update (dinode sb s.disk) i x) i s') (hd : dinode sb s'.disk i = x) (hs : Sound s'.disk x)
    (ht : s'.itable = setD s.itable j x)
    (ha : ∀ k < sb.ninodes, k ≠ i → Agree s.disk s'.disk (dinode sb s.disk k)) (hl : Logs sb s s') :
    Changed sb i (node s'.disk x) s s' := by
  have hi := (hI.mid i).lt hj
  have hself : update (dinode sb s.disk) i x i = x := update_self ..
  have hother : ∀ k < sb.ninodes, k ≠ i → dinode sb s'.disk k = dinode sb s.disk k := fun k hk hki => by
    rw [hm.disk k hk hki, update_of_ne hki]
  refine ⟨⟨hm.base (fun _ => by rw [hself, hd]) (fun k hk => ?_) fun k hk hlk => ?_, fun k hk hlk hkt hkn => ?_⟩, ?_,
    refs_setD ht, .setD ht, hl⟩
  · by_cases e : k = i
    · rw [e, hself]
      exact fun _ => hs
    · rw [update_of_ne e]
      exact fun htk => (ha k hk e).sound (hI.sound k hk htk)
  · have e : k ≠ i := fun e => hlk (e ▸ (hI.mid i).live hj)
    rw [update_of_ne e]
    exact hI.lost k hk hlk
  · by_cases e : k = i
    · subst e
      exact ⟨j, hj.setD ht⟩
    · rw [hother k hk e] at hkt hkn
      obtain ⟨l, hl⟩ := hI.orphan k hk hlk hkt hkn
      exact ⟨l, hl.setD ht⟩
  · exact view_update hi (by rw [hd]) fun k hk hki => ⟨hother k hk hki, (ha k hk hki).node_eq (hI.sound k hk)⟩

theorem Mid.copy (hm : Mid sb D i s) (hj : Holds s j i) {x : Dinode} (hx : x.Fits) (ht : x.type = (D i).type)
    (ha : x.addrs = (D i).addrs) : Mid sb (update D i x) i { s with itable := Fs.setD s.itable j x } := by
  obtain ⟨-, htype⟩ := hm.copy_eq hj
  refine hm.setD hj (by rw [ht]; exact htype) rfl ?_ fun _ _ => rfl
  refine hm.blocks.keep (fun k _ q => ?_) (fun _ _ => rfl) (fits_update hm.blocks.fits hx)
  by_cases e : k = i
  · subst e
    rw [update_self]
    unfold ptr Dinode.addr
    rw [ht, ha]
  · rw [update_of_ne e]

/-- The inode with another device number and link count. -/
def Node.meta (v : Node) (major minor nlink : Nat) : Node := { v with major, minor, nlink }

theorem wp_setCopy_iupdate (hL : Layout sb) (hI : Inv sb s) (hj : Holds s j i) (ho : 0 < s.outstanding)
    {f : Dinode → Dinode} {x : Dinode} (hx : f (dinode sb s.disk i) = x) (hf : x.Fits)
    (ht : x.type = (dinode sb s.disk i).type) (ha : x.addrs = (dinode sb s.disk i).addrs)
    (hsz : x.size = (dinode sb s.disk i).size) :
    Wp E (do setCopy j f; iupdate sb j) s fun _ s' =>
      Changed sb i ((view sb s.disk i).meta x.major x.minor x.nlink) s s' := by
  have hm := hI.mid i
  obtain ⟨hcopy, htype⟩ := hm.copy_eq hj
  have hi := hm.lt hj
  simp only [wp_bind, wp_setCopy, hcopy, hx]
  have hm1 := hm.copy hj hf ht ha
  have hj1 : Holds { s with itable := setD s.itable j x } j i := hj.setD rfl
  refine (wp_iupdate hL hm1 hj1 ho).mono fun _ t ⟨h1, h2, h3, h4, h5⟩ => ?_
  have hag : ∀ k < sb.ninodes, k ≠ i → Agree s.disk t.disk (dinode sb s.disk k) := fun k hk hki => by
    have := h4 k hk
    rwa [update_of_ne hki] at this
  have hagi := h4 i hi
  rw [update_self] at h2 hagi
  have hptr : ∀ (d : Disk) q, ptr d x q = ptr d (dinode sb s.disk i) q := fun d q => by
    unfold ptr Dinode.addr
    rw [ht, ha]
  have hsound : Sound s.disk x := by
    have := hI.sound i hi htype
    exact ⟨by rw [hsz]; exact this.size, fun n hn => by rw [blk, hptr]; exact this.full n (by rw [← hsz]; exact hn)⟩
  have hc := Changed.of_mid hI hj h1 h2 (hagi.sound hsound) h3 hag (logs_itable.trans h5)
  have hnode : node t.disk x = (view sb s.disk i).meta x.major x.minor x.nlink := by
    rw [view_eq hi, hagi.node_eq fun _ => hsound, node_of_type htype, node_of_type (by rw [ht]; exact htype), ht, hsz]
    unfold Node.meta
    congr 1
    funext o
    unfold byteAt blk
    rw [hsz, hptr]
  rwa [hnode] at hc

omit [Lost sb] in
theorem wp_setCopy_iupdate_disk (ho : 0 < s.outstanding) {f : Dinode → Dinode} :
    Wp E (do setCopy j f; iupdate sb j) s fun _ s' =>
      s'.disk = setDinode sb s.disk (s.itable j).inum (f (s.itable j).d) := by
  simp only [wp_bind, wp_setCopy, iupdate, wp_inode, wp_bread, update_self]
  rw [wp_bwrite (by exact ho)]
  rfl

def Node.trunc (v : Node) : Node := { v with size := 0, byte := fun _ => 0 }

theorem wp_itrunc_view (hL : Layout sb) (hI : Inv sb s) (hj : Holds s j i) (ho : 0 < s.outstanding) :
    Wp E (itrunc sb j) s fun _ s' => Changed sb i (view sb s.disk i).trunc s s' := by
  have hm := hI.mid i
  obtain ⟨-, htype⟩ := hm.copy_eq hj
  have hi := hm.lt hj
  refine (wp_itrunc hL hm hj ho).mono fun _ t ⟨h1, h2, h3, h4, h5⟩ => ?_
  have hsound : Sound t.disk (dinode sb s.disk i).empty :=
    ⟨Nat.zero_le _, fun n hn => absurd hn (Nat.not_lt_zero _)⟩
  have hc := Changed.of_mid hI hj h1 h2 hsound h3 h4 h5
  have hnode : node t.disk (dinode sb s.disk i).empty = (view sb s.disk i).trunc := by
    rw [view_eq hi, node_of_type htype, node_of_type (x := (dinode sb s.disk i).empty) htype]
    rfl
  rwa [hnode] at hc

/-! ## Reading -/

theorem div_add {o k : Nat} (h : k < BSIZE - o % BSIZE) : (o + k) / BSIZE = o / BSIZE ∧ (o + k) % BSIZE = o % BSIZE + k := by
  have h1 := Nat.div_add_mod o BSIZE
  have e : o + k = BSIZE * (o / BSIZE) + (o % BSIZE + k) := by omega
  have hlt : o % BSIZE + k < BSIZE := by omega
  constructor
  · rw [e, Nat.mul_add_div BSIZE_pos, Nat.div_eq_of_lt hlt, Nat.add_zero]
  · rw [e, Nat.mul_add_mod, Nat.mod_eq_of_lt hlt]

def bytes (d : Disk) (x : Dinode) (o n : Nat) : List UInt8 := (List.range n).map fun k => byteAt d x (o + k)

theorem bytes_add (d : Disk) (x : Dinode) (o m n : Nat) : bytes d x o (m + n) = bytes d x o m ++ bytes d x (o + m) n := by
  unfold bytes
  rw [List.range_add, List.map_append, List.map_map]
  congr 2
  funext k
  show byteAt d x (o + (m + k)) = _
  rw [Nat.add_assoc]

section

variable {x : Dinode} (hc : (s.itable j).d = x)
include hc

omit [Lost sb] in
theorem wp_bmap_found (ht : x.type ≠ 0) {bn : Nat} (hbn : bn < MAXFILE)
    (hb : blk s.disk x bn ≠ 0) : Wp E (bmap sb j bn) s fun r s' => s = s' ∧ r = blk s.disk x bn := by
  have haddr : ∀ k, x.addr k ≠ 0 → Wp E (bmapAddr sb j k) s fun r s' => s = s' ∧ r = x.addr k := fun k hk => by
    simp only [bmapAddr, wp_bind, wp_inode, hc]
    exact wp_ite (fun h0 => absurd h0 hk) fun _ => ⟨rfl, rfl⟩
  simp only [bmap]
  refine wp_ite (fun hdir => ?_) fun hdir => ?_
  · rw [blk, place, if_pos hdir, ptr_direct ht (by omega)] at hb ⊢
    exact haddr bn hb
  · have hk : bn - NDIRECT < NINDIRECT := by simp only [MAXFILE] at hbn; omega
    have hplace : place bn = NDIRECT + 1 + (bn - NDIRECT) := by rw [place, if_neg hdir]; omega
    have hind : x.addr NDIRECT ≠ 0 := fun h0 => by
      rw [blk, hplace] at hb
      exact hb (ptr_no_indirect h0 (by omega))
    rw [blk, hplace, ptr_indirect ht hind hk] at hb ⊢
    rw [if_pos hk]
    simp only [wp_bind]
    refine (haddr NDIRECT hind).mono fun r t hr => ?_
    obtain ⟨rfl, rfl⟩ := hr
    rw [if_neg hind]
    simp only [wp_bind, wp_bread]
    exact wp_ite (fun h0 => absurd h0 hb) fun _ => ⟨rfl, rfl⟩

omit [Lost sb] in
theorem wp_readiLoop (ht : x.type ≠ 0) (hs : Sound s.disk x) {lim : Option Nat}
    {fuel tot off n : Nat} {buf : List UInt8} (hfuel : n - tot ≤ fuel) (htot : tot ≤ n) (hsize : off + (n - tot) ≤ x.size) :
    Wp E (readiLoop sb j lim fuel tot off n buf) s fun r s' => s = s' ∧
      ((lim ≠ none ∧ r.1 = -1) ∨ r = ((n : Int), buf ++ bytes s.disk x off (n - tot))) := by
  induction fuel generalizing tot off buf with
  | zero =>
    have e : n = tot := by omega
    subst e
    exact ⟨rfl, .inr (by simp [bytes])⟩
  | succ fuel ih =>
    simp only [readiLoop]
    refine wp_ite (fun hlt => ?_) fun hge => ?_
    · have ho : off < x.size := by omega
      have hblk := hs.blk_ne ho
      have hbn : off / BSIZE < MAXFILE := by
        have := hs.size
        exact Nat.div_lt_of_lt_mul (by rw [Nat.mul_comm]; omega)
      simp only [wp_bind]
      refine (wp_bmap_found hc ht hbn hblk).mono fun r t ⟨hst, hr⟩ => ?_
      subst hst
      rw [hr, if_neg hblk]
      simp only [wp_bind, wp_bread]
      set m := min (n - tot) (BSIZE - off % BSIZE) with hmdef
      have hmod : off % BSIZE < BSIZE := Nat.mod_lt _ BSIZE_pos
      have hbytes : (List.range m).map (fun k => s.disk (blk s.disk x (off / BSIZE)) (off % BSIZE + k)) =
        bytes s.disk x off m := by
        refine List.map_congr_left fun k hk => ?_
        have hk := List.mem_range.mp hk
        obtain ⟨h1, h2⟩ := div_add (o := off) (k := k) (by omega)
        rw [byteAt, if_pos (by omega), h1, h2]
      refine wp_ite (fun _ => ?_) fun hw => ?_
      · refine (ih (by omega) (by omega) (by omega)).mono fun r t' ⟨ht, hr⟩ => ?_
        refine ⟨ht, hr.imp_right fun hr => ?_⟩
        rw [hr, hbytes, List.append_assoc, ← bytes_add]
        congr 3
        omega
      · refine ⟨rfl, .inl ⟨?_, rfl⟩⟩
        rintro rfl
        exact hw rfl
    · have e : n = tot := by omega
      subst e
      exact ⟨rfl, .inr (by simp [bytes])⟩

omit [Lost sb] in
/-- Reading a copy of a file that has its blocks: the part of it that is there. -/
theorem wp_readi_part (ht : x.type ≠ 0) (hs : Sound s.disk x) {lim : Option Nat}
    {off n : Nat} (hoff : off ≤ x.size) (hn : off + n < 2 ^ 32) :
    Wp E (readi sb j lim off n) s fun r s' => s = s' ∧
      ((lim ≠ none ∧ r.1 = -1) ∨
        r = (((min n (x.size - off) : Nat) : Int), bytes s.disk x off (min n (x.size - off)))) := by
  simp only [readi, wp_bind, wp_inode, hc, Nat.mod_eq_of_lt hn]
  rw [if_neg (by omega)]
  have hm : (if x.size < off + n then x.size - off else n) = min n (x.size - off) := by
    split <;> omega
  rw [hm]
  refine (wp_readiLoop hc ht hs (by omega) (Nat.zero_le _) (by omega)).mono fun r t ⟨ht, hr⟩ => ⟨ht, hr.imp_right fun hr => ?_⟩
  rw [hr, List.nil_append, Nat.sub_zero]

omit [Lost sb] in
theorem readi_none {lim : Option Nat} {off n : Nat}
    (h : x.size < off ∨ (off + n) % 2 ^ 32 < off) : readi sb j lim off n s = .ok ((0, []), s) := by
  have hw : Wp (fun _ => False) (readi sb j lim off n) s fun r s' => s' = s ∧ r = (0, []) := by
    simp only [readi, wp_bind, wp_inode, hc]
    rw [if_pos h]
    exact ⟨rfl, rfl⟩
  obtain ⟨r, s', hr, rfl, rfl⟩ := hw.returns
  exact hr

end

theorem wp_readi (hB : Base sb s) (hj : Holds s j i) {lim : Option Nat} {off n : Nat} (hn : n < 2 ^ 32) :
    Wp E (readi sb j lim off n) s fun r s' => s = s' ∧
      (lim = none → off + n ≤ (dinode sb s.disk i).size → r = ((n : Int), bytes s.disk (dinode sb s.disk i) off n)) := by
  obtain ⟨hcopy, htype⟩ := (hB.mid i).copy_eq hj
  have hs := hB.sound i ((hB.mid i).lt hj) htype
  have hfits : (dinode sb s.disk i).size < 2 ^ 32 := (dinode_fits s.disk i).size
  by_cases hbad : (dinode sb s.disk i).size < off ∨ (off + n) % 2 ^ 32 < off
  · rw [Wp, readi_none hcopy hbad]
    refine ⟨rfl, fun _ hle => ?_⟩
    rw [Nat.mod_eq_of_lt (by omega)] at hbad
    omega
  · have hwrap : off + n < 2 ^ 32 := by
      by_contra h
      refine hbad (.inr ?_)
      rw [Nat.mod_eq_sub_mod (by omega), Nat.mod_eq_of_lt (by omega)]
      omega
    refine (wp_readi_part hcopy htype hs (by omega) hwrap).mono fun r t ⟨ht, hr⟩ => ⟨ht, fun hl hle => ?_⟩
    rcases hr with ⟨hl', -⟩ | hr
    · exact absurd hl hl'
    · rw [hr, Nat.min_eq_left (by omega)]

/-! ## Writing -/

theorem Mid.write {u : Core} (hL : Layout sb) (hm : Mid sb D i s) (hi : i < sb.ninodes) {n : Nat} (hb : blk s.disk (D i) n ≠ 0)
    {v : Block} (hd : u.disk = update s.disk (blk s.disk (D i) n) v) (ht : u.itable = s.itable) :
    Mid sb D i u ∧ (∀ q, ptr u.disk (D i) q = ptr s.disk (D i) q) ∧
      ∀ k < sb.ninodes, k ≠ i → Agree s.disk u.disk (D k) := by
  have hr : dataStart sb ≤ blk s.disk (D i) n ∧ blk s.disk (D i) n < sb.size := hm.blocks.range hi hb
  have hag : ∀ k < sb.ninodes, k ≠ i → Agree s.disk u.disk (D k) := fun k hk hki => by
    rw [hd]
    exact agree_update fun q hq => hm.blocks.ne_of_other hi hk hki hq
  -- it is not the indirect block
  have hptr : ∀ q, ptr u.disk (D i) q = ptr s.disk (D i) q := by
    intro q
    by_cases htype : (D i).type = 0
    · rw [ptr_free htype, ptr_free htype]
    · rcases place_cases q with hq | ⟨k, hk, rfl⟩ | hq
      · rw [ptr_direct htype hq, ptr_direct htype hq]
      · by_cases h0 : (D i).addr NDIRECT = 0
        · rw [ptr_no_indirect h0 (by omega), ptr_no_indirect h0 (by omega)]
        · have hind := ptr_direct (d := s.disk) htype (Nat.le_refl NDIRECT)
          have hne : (D i).addr NDIRECT ≠ blk s.disk (D i) n := by
            rw [← hind]
            intro e
            exact place_ne (hm.blocks.inj hi hi (by rw [hind]; exact h0) e).2.symm
          rw [ptr_indirect htype h0 hk, ptr_indirect htype h0 hk, hd, update_of_ne hne]
      · rw [ptr_far hq, ptr_far hq]
  refine ⟨⟨?_, hm.table.same ht, fun k hk hki => ?_⟩, hptr, hag⟩
  · refine hm.blocks.keep (fun k hk q => ?_) (fun c hc => by rw [hd, bit_update_data _ hr.1 hc]) hm.blocks.fits
    by_cases e : k = i
    · rw [e, hptr]
    · exact (hag k hk e).ptr_eq
  · rw [hd, dinode_update_data hL _ hr.1 hk]
    exact hm.disk k hk hki

/-- In the middle of `writei`, which started in `s` at offset `off`: the inode is `x` by now, and
    `w` bytes of `src` are copied. -/
structure Writing (sb : Superblock) [Lost sb] (D : Nat → Dinode) (i j : Nat) (s : Core) (src : Nat → UInt8) (off w : Nat)
    (x : Dinode) (t : Core) : Prop where
  mid : Mid sb (update D i x) i t
  itable : t.itable = setD s.itable j x
  others : ∀ k < sb.ninodes, k ≠ i → Agree s.disk t.disk (D k)
  logs : Logs sb s t
  same : x.type = (D i).type ∧ x.major = (D i).major ∧ x.minor = (D i).minor ∧ x.nlink = (D i).nlink ∧ x.size = (D i).size
  ptr : ∀ q, ptr s.disk (D i) q ≠ 0 → Fs.ptr t.disk x q = Fs.ptr s.disk (D i) q
  written : ∀ o, off ≤ o → o < off + w →
    blk t.disk x (o / BSIZE) ≠ 0 ∧ t.disk (blk t.disk x (o / BSIZE)) (o % BSIZE) = src (o - off)
  kept : ∀ o, blk s.disk (D i) (o / BSIZE) ≠ 0 → ¬ (off ≤ o ∧ o < off + w) →
    t.disk (blk s.disk (D i) (o / BSIZE)) (o % BSIZE) = s.disk (blk s.disk (D i) (o / BSIZE)) (o % BSIZE)
  fresh : ∀ o, blk s.disk (D i) (o / BSIZE) = 0 → blk t.disk x (o / BSIZE) ≠ 0 → ¬ (off ≤ o ∧ o < off + w) →
    t.disk (blk t.disk x (o / BSIZE)) (o % BSIZE) = 0

section

variable {src : Nat → UInt8} {off w : Nat} {x : Dinode} {t t' : Core}

theorem Writing.start (hm : Mid sb D i s) (hj : Holds s j i) : Writing sb D i j s src off 0 (D i) s := by
  refine ⟨by rw [Function.update_eq_self]; exact hm, by rw [← (hm.copy_eq hj).1, setD_copy], fun _ _ _ _ _ => rfl, .refl,
    ⟨rfl, rfl, rfl, rfl, rfl⟩, fun _ _ => rfl, fun o h1 h2 => by omega, fun _ _ _ => rfl, fun _ h0 hne => absurd h0 hne⟩

theorem Writing.mapped (h : Writing sb D i j s src off w x t) {x' : Dinode}
    (hm : Mapped sb (update D i x) i j t x' t') : Writing sb D i j s src off w x' t' := by
  have hmid := hm.mid
  rw [update_idem] at hmid
  have hg := hm.grown
  rw [update_self] at hg
  obtain ⟨h1, h2, h3, h4, h5⟩ := h.same
  refine ⟨hmid, by rw [hm.itable, h.itable, setD_setD], fun k hk hki => ?_, h.logs.trans hm.logs,
    ⟨hg.type.trans h1, hg.major.trans h2, hg.minor.trans h3, hg.nlink.trans h4, hg.size.trans h5⟩, fun q hq => ?_,
    fun o ho1 ho2 => ?_, fun o hb ho => ?_, fun o h0 hne ho => ?_⟩
  · have := hm.others k hk hki
    rw [update_of_ne hki] at this
    exact (h.others k hk hki).trans this
  · rw [← h.ptr q hq]
    exact hg.ptr q (by rw [h.ptr q hq]; exact hq)
  · obtain ⟨hb, hv⟩ := h.written o ho1 ho2
    rw [hg.blk_eq hb, hg.data _ hb]
    exact ⟨hb, hv⟩
  · have e : blk t.disk x (o / BSIZE) = blk s.disk (D i) (o / BSIZE) := h.ptr _ hb
    have := hg.data (o / BSIZE) (by rw [e]; exact hb)
    rw [e] at this
    rw [this]
    exact h.kept o hb ho
  · by_cases hb : blk t.disk x (o / BSIZE) = 0
    · rw [hg.fresh _ hb hne]
    · rw [hg.blk_eq hb, hg.data _ hb]
      exact h.fresh o h0 hb ho

theorem Writing.ptr_write (hL : Layout sb) (hi : i < sb.ninodes) (h : Writing sb D i j s src off w x t) {n : Nat}
    (hb : blk t.disk x n ≠ 0) {v : Block} (q : Nat) : Fs.ptr (update t.disk (blk t.disk x n) v) x q = Fs.ptr t.disk x q := by
  have := h.mid.write (u := { t with disk := update t.disk (blk t.disk x n) v }) (n := n) (v := v) hL hi
  rw [update_self] at this
  exact (this hb rfl rfl).2.1 q

theorem Writing.copy (hL : Layout sb) (hi : i < sb.ninodes) (h : Writing sb D i j s src off w x t)
    (hb : blk t.disk x ((off + w) / BSIZE) ≠ 0) {m : Nat} (hmod : m ≤ BSIZE - (off + w) % BSIZE) (hl : Logs sb t t')
    (hd : t'.disk = update t.disk (blk t.disk x ((off + w) / BSIZE))
      (splice (t.disk (blk t.disk x ((off + w) / BSIZE))) ((off + w) % BSIZE) m fun k => src (w + k)))
    (ht : t'.itable = t.itable) : Writing sb D i j s src off (w + m) x t' := by
  have hself : update D i x i = x := update_self ..
  obtain ⟨hmid, hptr, hag⟩ := h.mid.write hL hi (by rw [hself]; exact hb) (by rw [hself]; exact hd) ht
  rw [hself] at hptr
  have hblk : ∀ n, blk t'.disk x n = blk t.disk x n := fun n => hptr _
  -- where the new bytes are
  have hin : ∀ o, off + w ≤ o → o < off + w + m →
      o / BSIZE = (off + w) / BSIZE ∧ o % BSIZE = (off + w) % BSIZE + (o - (off + w)) := fun o h1 h2 => by
    have := div_add (o := off + w) (k := o - (off + w)) (by omega)
    rwa [show off + w + (o - (off + w)) = o by omega] at this
  -- everywhere else the disk is as it was
  have hout : ∀ o, blk t.disk x (o / BSIZE) ≠ 0 → ¬ (off + w ≤ o ∧ o < off + w + m) →
      t'.disk (blk t.disk x (o / BSIZE)) (o % BSIZE) = t.disk (blk t.disk x (o / BSIZE)) (o % BSIZE) := by
    intro o hob ho
    rw [hd]
    by_cases e : blk t.disk x (o / BSIZE) = blk t.disk x ((off + w) / BSIZE)
    · have hdiv : o / BSIZE = (off + w) / BSIZE := by
        have := h.mid.blocks.inj hi hi (q := place (o / BSIZE)) (r := place ((off + w) / BSIZE))
        rw [hself] at this
        exact place_inj (this hob e).2
      rw [e, update_self, splice_of_not_mem]
      have h1 := Nat.div_add_mod o BSIZE
      have h2 := Nat.div_add_mod (off + w) BSIZE
      rw [hdiv] at h1
      omega
    · rw [update_of_ne e]
  refine ⟨hmid, ht.trans h.itable, fun k hk hki => ?_, h.logs.trans hl, h.same, fun q hq => ?_, fun o ho1 ho2 => ?_,
    fun o hob ho => ?_, fun o h0 hob ho => ?_⟩
  · have := hag k hk hki
    rw [update_of_ne hki] at this
    exact (h.others k hk hki).trans this
  · rw [hptr, h.ptr q hq]
  · rw [hblk]
    by_cases hold : o < off + w
    · obtain ⟨h1, h2⟩ := h.written o ho1 hold
      exact ⟨h1, by rw [hout o h1 (by omega), h2]⟩
    · obtain ⟨h1, h2⟩ := hin o (by omega) (by omega)
      refine ⟨by rw [h1]; exact hb, ?_⟩
      rw [hd, h1, h2, update_self, splice_of_mem (by omega) (by omega)]
      congr 1
      omega
  · have e : blk t.disk x (o / BSIZE) = blk s.disk (D i) (o / BSIZE) := h.ptr _ hob
    rw [← e, hout o (by rw [e]; exact hob) (by omega), e]
    exact h.kept o hob (by omega)
  · rw [hblk] at hob ⊢
    rw [hout o hob (by omega)]
    exact h.fresh o h0 hob (by omega)

end

omit [Lost sb] in
theorem logs_setBuf {b : Nat} (hb : sb.bmapstart ≤ b) {v : Block} :
    Logs sb s { s with disk := update s.disk b v } :=
  ⟨rfl, rfl, rfl, fun _ h => h, fun c hc hne => absurd (update_of_ne (by omega) ..) hne⟩

/-- What the loop of `writei` returns: `tot` bytes are written and `w` copied. -/
structure Wrote (lim : Option Nat) (size off n tot w : Nat) : Prop where
  le : tot ≤ w
  le_n : w ≤ n
  kernel : lim = none → w = tot
  full : lim = none → tot < n → size ≤ (off + tot) / BSIZE * BSIZE
  first : tot < n → tot < BSIZE - off % BSIZE → tot = 0

/-- How the loop of `writei` ends, with the disk `d` and the inode `x`: everything is written; or there is no block
    for the next chunk, and no free one; or only `l` bytes of the user's memory are mapped, and the next chunk ends after them. -/
inductive Ended (sb : Superblock) (lim : Option Nat) (d : Disk) (x : Dinode) (off n : Nat) : Nat → Nat → Prop where
  | done : Ended sb lim d x off n n n
  | full {tot} : tot < n → tot = 0 ∨ (off + tot) % BSIZE = 0 → blk d x ((off + tot) / BSIZE) = 0 → NoSpace sb d →
      Ended sb lim d x off n tot tot
  | copy {tot l} : lim = some l → tot ≤ l → l < tot + min (n - tot) (BSIZE - (off + tot) % BSIZE) →
      tot = 0 ∨ (off + tot) % BSIZE = 0 → blk d x ((off + tot) / BSIZE) ≠ 0 → Ended sb lim d x off n tot l

omit [Lost sb] in
theorem Ended.wrote {lim : Option Nat} {d : Disk} {x : Dinode} {off n tot w size : Nat} (h : Ended sb lim d x off n tot w)
    (hs : ∀ m, m * BSIZE < size → blk d x m ≠ 0) : Wrote lim size off n tot w := by
  -- a chunk that is not the first starts at a block
  have hfirst : tot = 0 ∨ (off + tot) % BSIZE = 0 → tot < BSIZE - off % BSIZE → tot = 0 := by
    rintro (h | h) hlt
    · exact h
    · have := (div_add hlt).2
      have : off % BSIZE < BSIZE := Nat.mod_lt _ BSIZE_pos
      omega
  cases h with
  | done => exact ⟨Nat.le_refl _, Nat.le_refl _, fun _ => rfl, fun _ h => absurd h (Nat.lt_irrefl _),
    fun h => absurd h (Nat.lt_irrefl _)⟩
  | full hlt hal h0 _ =>
    refine ⟨Nat.le_refl _, Nat.le_of_lt hlt, fun _ => rfl, fun _ _ => ?_, fun _ => hfirst hal⟩
    by_contra hn
    exact hs _ (by omega) h0
  | copy hl hle hlt hal _ =>
    refine ⟨hle, by omega, fun h => ?_, fun h => ?_, fun _ => hfirst hal⟩
    · rw [hl] at h; cases h
    · rw [hl] at h; cases h

theorem wp_writeiLoop (hL : Layout sb) (hj : Holds s j i) (hm : Mid sb D i s) (ho : 0 < s.outstanding)
    {src : Nat → UInt8} {lim : Option Nat} {fuel tot off n : Nat} {x : Dinode} {t : Core}
    (h : Writing sb D i j s src off tot x t) (hfuel : n - tot ≤ fuel) (htot : tot ≤ n) (hmax : off + n ≤ MAXFILE * BSIZE)
    (hal : tot < n → tot = 0 ∨ (off + tot) % BSIZE = 0) (hlim : ∀ l, lim = some l → tot ≤ l) :
    Wp E (writeiLoop sb j src lim fuel tot (off + tot) n) t fun r t' =>
      ∃ x' w tot', r = (tot', off + tot') ∧ Writing sb D i j s src off w x' t' ∧ Ended sb lim t'.disk x' off n tot' w := by
  have hi := hm.lt hj
  induction fuel generalizing tot x t with
  | zero =>
    obtain rfl : tot = n := by omega
    exact ⟨x, tot, tot, rfl, h, .done⟩
  | succ fuel ih =>
    simp only [writeiLoop]
    refine wp_ite (fun hlt => ?_) fun hge => ?_
    swap
    · obtain rfl : tot = n := by omega
      exact ⟨x, tot, tot, rfl, h, .done⟩
    have hot : 0 < t.outstanding := by rw [h.logs.out]; exact ho
    have hbn : (off + tot) / BSIZE < MAXFILE := Nat.div_lt_of_lt_mul (by rw [Nat.mul_comm]; omega)
    have hjt : Holds t j i := hj.setD h.itable
    simp only [wp_bind]
    refine (wp_bmap hL h.mid hjt hbn (.inl hot)).mono fun b t1 ⟨x1, hmap, hb, _, hfull, _⟩ => ?_
    subst hb
    have h1 := h.mapped hmap
    refine wp_ite (fun h0 => ⟨x1, tot, tot, rfl, h1, .full hlt (hal hlt) h0 (hfull h0)⟩) fun h0 => ?_
    simp only [wp_bind, wp_bread]
    set m := min (n - tot) (BSIZE - (off + tot) % BSIZE) with hmdef
    have hmod : (off + tot) % BSIZE < BSIZE := Nat.mod_lt _ BSIZE_pos
    refine wp_ite (fun hw => ?_) fun hw => ?_
    · simp only [wp_bind]
      rw [wp_bwrite (by rw [h1.logs.out]; exact ho)]
      have h2 := h1.copy (m := m) hL hi h0 (by omega) logs_bwrite rfl rfl
      rw [Nat.add_assoc]
      refine ih h2 (by omega) (by omega) (fun h3 => .inr ?_) fun l hl => ?_
      · -- a chunk that is not the last ends with its block
        have hdiv := Nat.div_add_mod (off + tot) BSIZE
        have : off + (tot + m) = ((off + tot) / BSIZE + 1) * BSIZE := by
          rw [Nat.add_mul, Nat.one_mul, Nat.mul_comm]
          omega
        rw [this, Nat.mul_mod_left]
      · subst hl
        simpa [within] using hw
    · -- the user's memory ends here
      simp only [wp_bind, wp_setBuf, Lib.wp_pure]
      cases lim with
      | none => exact absurd rfl hw
      | some l =>
        have hl : l < tot + m := by simpa [within] using hw
        have hle : tot ≤ l := hlim l rfl
        have hself : update D i x1 i = x1 := update_self ..
        have hr : dataStart sb ≤ blk t1.disk x1 ((off + tot) / BSIZE) := by
          have := h1.mid.blocks.range hi (q := place ((off + tot) / BSIZE))
          rw [hself] at this
          exact (this h0).1
        have h2 := h1.copy (m := l - tot) hL hi h0 (by omega)
          (logs_setBuf (by have : sb.bmapstart < dataStart sb := bmapstart_lt; omega)) rfl rfl
        rw [Nat.add_sub_cancel' hle] at h2
        exact ⟨x1, l, tot, rfl, h2, .copy rfl hle hl (hal hlt) ((h1.ptr_write hL hi h0 _).trans_ne h0)⟩

/-- The file after `w` bytes were copied to it at offset `off`, and `tot` of them written. -/
def Node.write (v : Node) (off tot w : Nat) (src : Nat → UInt8) : Node :=
  { v with
    size := max v.size (off + tot)
    byte := fun o => if off ≤ o ∧ o < off + w ∧ o < max v.size (off + tot) then src (o - off) else v.byte o }

/-- What `writei` leaves behind when it has copied `w` bytes and `tot` of them count: inode `i` is `y`. -/
structure Stored (sb : Superblock) [Lost sb] (i j : Nat) (s : Core) (src : Nat → UInt8) (off tot w : Nat) (y : Dinode)
    (s' : Core) :
    Prop where
  mid : Mid sb (update (dinode sb s.disk) i y) i s'
  disk : dinode sb s'.disk i = y
  itable : s'.itable = setD s.itable j y
  others : ∀ k < sb.ninodes, k ≠ i → Agree s.disk s'.disk (dinode sb s.disk k)
  logs : Logs sb s s'
  same : y.type = (dinode sb s.disk i).type ∧ y.major = (dinode sb s.disk i).major ∧ y.minor = (dinode sb s.disk i).minor ∧
    y.nlink = (dinode sb s.disk i).nlink
  size : y.size = max (dinode sb s.disk i).size (off + tot)
  ptr : ∀ q, ptr s.disk (dinode sb s.disk i) q ≠ 0 → Fs.ptr s'.disk y q = Fs.ptr s.disk (dinode sb s.disk i) q
  written : ∀ o, off ≤ o → o < off + w →
    blk s'.disk y (o / BSIZE) ≠ 0 ∧ s'.disk (blk s'.disk y (o / BSIZE)) (o % BSIZE) = src (o - off)
  kept : ∀ o, blk s.disk (dinode sb s.disk i) (o / BSIZE) ≠ 0 → ¬ (off ≤ o ∧ o < off + w) →
    s'.disk (blk s.disk (dinode sb s.disk i) (o / BSIZE)) (o % BSIZE) =
      s.disk (blk s.disk (dinode sb s.disk i) (o / BSIZE)) (o % BSIZE)
  fresh : ∀ o, blk s.disk (dinode sb s.disk i) (o / BSIZE) = 0 → blk s'.disk y (o / BSIZE) ≠ 0 →
    ¬ (off ≤ o ∧ o < off + w) → s'.disk (blk s'.disk y (o / BSIZE)) (o % BSIZE) = 0

section

variable {src : Nat → UInt8} {off tot w : Nat} {y : Dinode}

omit [Lost sb] in
theorem Ended.congr {lim : Option Nat} {d d' : Disk} {x : Dinode} {n : Nat} (h : Ended sb lim d x off n tot w)
    (hb : ∀ m, blk d' y m = blk d x m) (hbit : ∀ b < sb.size, bit sb d' b = bit sb d b) : Ended sb lim d' y off n tot w := by
  cases h with
  | done => exact .done
  | full hlt hal h0 hf => exact .full hlt hal (by rw [hb]; exact h0) fun b hb => by rw [hbit b hb]; exact hf b hb
  | copy hl hle hlt hal h0 => exact .copy hl hle hlt hal (by rw [hb]; exact h0)

theorem Writing.stored {x : Dinode} {t : Core} (h : Writing sb (dinode sb s.disk) i j s src off w x t)
    (hi : i < sb.ninodes)
    (hy : y.type = x.type ∧ y.major = x.major ∧ y.minor = x.minor ∧ y.nlink = x.nlink ∧ y.addrs = x.addrs)
    (hsize : y.size = max (dinode sb s.disk i).size (off + tot)) (hm : Mid sb (update (dinode sb s.disk) i y) i s')
    (hd : dinode sb s'.disk i = y) (ht : s'.itable = setD t.itable j y)
    (ha : ∀ k < sb.ninodes, Agree t.disk s'.disk (update (dinode sb s.disk) i y k)) (hl : Logs sb t s') :
    Stored sb i j s src off tot w y s' ∧ ∀ m, blk s'.disk y m = blk t.disk x m := by
  have hptr : ∀ (d : Disk) q, Fs.ptr d y q = Fs.ptr d x q := fun d q => by
    unfold Fs.ptr Dinode.addr
    rw [hy.1, hy.2.2.2.2]
  have hag : Agree t.disk s'.disk y := by
    have := ha i hi
    rwa [update_self] at this
  have hptr' : ∀ q, Fs.ptr s'.disk y q = Fs.ptr t.disk x q := fun q => by rw [hag.ptr_eq, hptr]
  have hblk : ∀ n, blk s'.disk y n = blk t.disk x n := fun n => hptr' _
  have hdata : ∀ n, blk t.disk x n ≠ 0 → s'.disk (blk t.disk x n) = t.disk (blk t.disk x n) := fun n hn => by
    have := hag (place n) (by rw [hptr]; exact hn)
    rwa [hptr] at this
  obtain ⟨h1, h2, h3, h4, -⟩ := h.same
  refine ⟨⟨hm, hd, by rw [ht, h.itable, setD_setD], fun k hk hki => ?_, h.logs.trans hl,
    ⟨hy.1.trans h1, hy.2.1.trans h2, hy.2.2.1.trans h3, hy.2.2.2.1.trans h4⟩, hsize, fun q hq => by rw [hptr', h.ptr q hq],
    fun o ho1 ho2 => ?_, fun o hob ho => ?_, fun o h0 hob ho => ?_⟩, hblk⟩
  · have := ha k hk
    rw [update_of_ne hki] at this
    exact (h.others k hk hki).trans this
  · obtain ⟨hb, hv⟩ := h.written o ho1 ho2
    rw [hblk, hdata _ hb]
    exact ⟨hb, hv⟩
  · have e : blk t.disk x (o / BSIZE) = blk s.disk (dinode sb s.disk i) (o / BSIZE) := h.ptr _ hob
    rw [← e, hdata _ (by rw [e]; exact hob), e]
    exact h.kept o hob ho
  · rw [hblk] at hob ⊢
    rw [hdata _ hob]
    exact h.fresh o h0 hob ho

theorem Stored.node_eq (h : Stored sb i j s src off tot w y s') (hs : Sound s.disk (dinode sb s.disk i))
    (htype : (dinode sb s.disk i).type ≠ 0) (hoff : off ≤ (dinode sb s.disk i).size) (hle : tot ≤ w) :
    node s'.disk y = (node s.disk (dinode sb s.disk i)).write off tot w src := by
  obtain ⟨h1, h2, h3, h4⟩ := h.same
  rw [node_of_type (by rw [h1]; exact htype), node_of_type htype, h1, h2, h3, h4, h.size]
  unfold Node.write
  congr 1
  funext o
  show (if o < y.size then s'.disk (blk s'.disk y (o / BSIZE)) (o % BSIZE) else 0) = _
  rw [h.size]
  by_cases ho : o < max (dinode sb s.disk i).size (off + tot)
  · rw [if_pos ho]
    by_cases hw : off ≤ o ∧ o < off + w
    · rw [if_pos ⟨hw.1, hw.2, ho⟩, (h.written o hw.1 hw.2).2]
    · have hold : o < (dinode sb s.disk i).size := by omega
      have hb := hs.blk_ne hold
      have e : blk s'.disk y (o / BSIZE) = blk s.disk (dinode sb s.disk i) (o / BSIZE) := h.ptr _ hb
      rw [if_neg (fun hc => hw ⟨hc.1, hc.2.1⟩), e]
      exact (h.kept o hb hw).trans (if_pos hold).symm
  · rw [if_neg ho, if_neg (fun hc => ho hc.2.2)]
    exact (if_neg (by omega)).symm

theorem Stored.sound (h : Stored sb i j s src off tot w y s') (hs : Sound s.disk (dinode sb s.disk i))
    (hoff : off ≤ (dinode sb s.disk i).size) (hle : tot ≤ w) (hmax : off + tot ≤ MAXFILE * BSIZE) : Sound s'.disk y := by
  have := hs.size
  refine ⟨by rw [h.size]; omega, fun n hn => ?_⟩
  rw [h.size] at hn
  by_cases hold : n * BSIZE < (dinode sb s.disk i).size
  · have hb := hs.full n hold
    have e : blk s'.disk y n = blk s.disk (dinode sb s.disk i) n := h.ptr _ hb
    rw [e]
    exact hb
  · have := (h.written (n * BSIZE) (by omega) (by omega)).1
    rwa [Nat.mul_div_cancel _ BSIZE_pos] at this

end

/-- The loop of `writei` has left `t`; then the inode, `y`, has gone to its block. -/
structure AfterLoop (sb : Superblock) (i j : Nat) (y : Dinode) (t s' : Core) : Prop where
  blk : ∀ m, blk s'.disk y m = blk t.disk (t.itable j).d m
  logged : s'.logged (IBLOCK sb i) = true
  rest : ∀ b, b ≠ IBLOCK sb i → s'.disk b = t.disk b ∧ s'.logged b = t.logged b

theorem wp_writei_stored (hL : Layout sb) (hm : Mid sb (dinode sb s.disk) i s) (hj : Holds s j i) (ho : 0 < s.outstanding)
    {src : Nat → UInt8} {lim : Option Nat} {off n : Nat} (hn : n < 2 ^ 32) :
    Wp E (writei sb j src lim off n) s fun r s' =>
      (r = -1 ∧ s = s' ∧ ((dinode sb s.disk i).size < off ∨ MAXFILE * BSIZE < off + n)) ∨
        ∃ tot w y, r = (tot : Nat) ∧ off ≤ (dinode sb s.disk i).size ∧ off + n ≤ MAXFILE * BSIZE ∧
          Ended sb lim s'.disk y off n tot w ∧ Stored sb i j s src off tot w y s' ∧
          ∃ t, writeiLoop sb j src lim n 0 off n s = .ok ((tot, off + tot), t) ∧ AfterLoop sb i j y t s' := by
  obtain ⟨hcopy, -⟩ := hm.copy_eq hj
  have hi := hm.lt hj
  have hfits : (dinode sb s.disk i).size < 2 ^ 32 := (dinode_fits s.disk i).size
  have hmaxlt : MAXFILE * BSIZE < 2 ^ 32 := by decide
  simp only [writei, wp_bind, wp_inode, hcopy]
  refine wp_ite (fun hbad => .inl ⟨rfl, rfl, ?_⟩) fun hok => ?_
  · by_contra hc
    rw [Nat.mod_eq_of_lt (by omega)] at hbad
    omega
  · have hoff : off ≤ (dinode sb s.disk i).size := by omega
    have hwrap : (off + n) % 2 ^ 32 = off + n := by
      by_cases h : off + n < 2 ^ 32
      · exact Nat.mod_eq_of_lt h
      · exfalso
        refine hok (.inr ?_)
        rw [Nat.mod_eq_sub_mod (by omega), Nat.mod_eq_of_lt (by omega)]
        omega
    rw [hwrap]
    refine wp_ite (fun hbig => .inl ⟨rfl, rfl, .inr hbig⟩) fun hmax => ?_
    simp only [wp_bind]
    have hloop : Wp E (writeiLoop sb j src lim n 0 (off + 0) n) s _ :=
      wp_writeiLoop hL hj hm ho (.start hm hj) (by omega) (Nat.zero_le n) (by omega) (fun _ => .inl rfl) fun _ _ => Nat.zero_le _
    rw [Nat.add_zero] at hloop
    refine hloop.mono_run fun r t hrun ⟨x, w, tot, hr, hw, hend⟩ => ?_
    have hwrote : Wrote lim 0 off n tot w := hend.wrote fun m hm => absurd hm (Nat.not_lt_zero _)
    subst hr
    simp only [wp_setCopy]
    have hdx : (t.itable j).d = x := by rw [hw.itable, setD_self]
    have hsz : x.size = (dinode sb s.disk i).size := hw.same.2.2.2.2
    rw [hdx]
    set y : Dinode := if x.size < off + tot then { x with size := off + tot } else x with hy
    have hyt : y.type = x.type ∧ y.major = x.major ∧ y.minor = x.minor ∧ y.nlink = x.nlink ∧ y.addrs = x.addrs := by
      rw [hy]
      split <;> exact ⟨rfl, rfl, rfl, rfl, rfl⟩
    have hys : y.size = max (dinode sb s.disk i).size (off + tot) := by
      rw [hy]
      split
      · show off + tot = _
        omega
      · omega
    have hxf : x.Fits := by
      have := hw.mid.blocks.fits i
      rwa [update_self] at this
    have hle := hwrote.le
    have hlen := hwrote.le_n
    have hyf : y.Fits := ⟨by rw [hyt.1]; exact hxf.type, by rw [hyt.2.1]; exact hxf.major, by rw [hyt.2.2.1]; exact hxf.minor,
      by rw [hyt.2.2.2.1]; exact hxf.nlink, by rw [hys]; omega, by rw [hyt.2.2.2.2]; exact hxf.addrs⟩
    have hjt : Holds t j i := hj.setD hw.itable
    have hmid := hw.mid.copy hjt hyf (by rw [update_self]; exact hyt.1) (by rw [update_self]; exact hyt.2.2.2.2)
    rw [update_idem] at hmid
    have hot : 0 < t.outstanding := by rw [hw.logs.out]; exact ho
    have hit : update t.itable j { t.itable j with d := y } = setD t.itable j y := rfl
    rw [hit]
    have hju : Holds { t with itable := setD t.itable j y } j i := hjt.setD rfl
    refine ((wp_iupdate hL hmid hju hot).and (wp_iupdate_only (E := E) hju hot)).mono
      fun _ u ⟨⟨h1, h2, h3, h4, h5⟩, h6, h7⟩ => ?_
    rw [update_self] at h2
    obtain ⟨hst, hblk⟩ := hw.stored hi hyt hys h1 h2 h3 h4 (logs_itable.trans h5)
    have hbit : ∀ b < sb.size, bit sb u.disk b = bit sb t.disk b := fun b _ => by
      have := IBLOCK_lt hL hi
      have : sb.bmapstart ≤ BBLOCK sb b := BBLOCK_ge b
      rw [bit, (h7 _ (by omega)).1, bit]
    exact .inr ⟨tot, w, y, rfl, hoff, by omega, hend.congr hblk hbit, hst, t, hrun, by rw [hdx]; exact hblk, h6, h7⟩

theorem wp_writei (hL : Layout sb) (hI : Inv sb s) (hj : Holds s j i) (ho : 0 < s.outstanding) {src : Nat → UInt8}
    {lim : Option Nat} {off n : Nat} (hn : n < 2 ^ 32) :
    Wp E (writei sb j src lim off n) s fun r s' =>
      (r = -1 ∧ s = s' ∧ ((view sb s.disk i).size < off ∨ MAXFILE * BSIZE < off + n)) ∨
        ∃ tot w : Nat, r = tot ∧ Wrote lim (view sb s.disk i).size off n tot w ∧
          Changed sb i ((view sb s.disk i).write off tot w src) s s' := by
  have hm := hI.mid i
  obtain ⟨-, htype⟩ := hm.copy_eq hj
  have hi := hm.lt hj
  have hs := hI.sound i hi htype
  rw [view_size hi htype]
  refine (wp_writei_stored hL hm hj ho hn).mono fun r s' h => h.imp_right fun ⟨tot, w, y, hr, hoff, hmax, hend, h, _⟩ => ?_
  have hw : Wrote lim (dinode sb s.disk i).size off n tot w := hend.wrote fun m hm => by
    have hb := hs.full m hm
    have e : blk s'.disk y m = blk s.disk (dinode sb s.disk i) m := h.ptr _ hb
    rw [e]
    exact hb
  have hle := hw.le
  have hlen := hw.le_n
  have hc := Changed.of_mid hI hj h.mid h.disk (h.sound hs hoff hle (by omega)) h.itable h.others h.logs
  rw [h.node_eq hs htype hoff hle, ← view_eq hi] at hc
  exact ⟨tot, w, hr, hw, hc⟩

end Xv6.Fs
