/-
  Xv6.Mkfs.Append — what `iappend` and `ialloc` do to the image (see `Xv6.Mkfs.Model`), and
  that the kernel reads back what was appended.
-/

import Xv6.Mkfs.Files
import Mathlib.Algebra.Order.BigOperators.Group.Finset

namespace Xv6.Mkfs

open Fs (Dinode Dirent ptr blk place owner Agree dinode)
open Function (update update_self update_of_ne update_eq_self update_idem)
open Lib (Wp wp_bind wp_modify)

section

variable {F : Nat → List UInt8} {m : Nat → Nat} {D : Nat → Dinode} {t : St} {i : Nat} {x : Dinode} {E : Fail → Prop}

/-! ## iappend -/

theorem blocksOf_mono {a b : Nat} (h : a ≤ b) : blocksOf a ≤ blocksOf b := Nat.div_le_div_right (by omega)

theorem need_mono {a b : Nat} (h : a ≤ b) : need a ≤ need b := by
  unfold need
  split <;> split <;> omega

theorem div_le_blocksOf (n : Nat) : n / BSIZE ≤ blocksOf n := Nat.div_le_div_right (by simp only [BSIZE]; omega)

theorem blocksOf_add {n k : Nat} (h0 : 0 < k) (hk : n % BSIZE + k ≤ BSIZE) :
    blocksOf (n + k) = max (blocksOf n) (n / BSIZE + 1) := by
  simp only [blocksOf, BSIZE] at *
  omega

theorem Built.write (hB : Built F m D t) (hi : 1 ≤ i ∧ i < t.freeinode) {p : List UInt8} {n : Nat}
    (hlt : (F i).length / BSIZE < m i) (hn : n ≤ p.length) (hroom : (F i).length % BSIZE + n ≤ BSIZE) {b : Nat}
    (hb : blk t.img (D i) ((F i).length / BSIZE) = b) :
    Built (update F i (F i ++ p.take n)) m (update D i { D i with size := (F i).length + n })
      { t with img := update t.img b (Fs.splice (t.img b) ((F i).length % BSIZE) n fun k => p.getD k 0) } := by
  have hf := hB.files i hi.1 hi.2
  have hlti : i < NINODES := Nat.lt_of_lt_of_le hi.2 hB.inodes.2
  have hb0 : ptr t.img (D i) (place ((F i).length / BSIZE)) ≠ 0 := (hf.blks _).mpr hlt
  have hrange := hB.range hlti hb0
  have hb' : ptr t.img (D i) (place ((F i).length / BSIZE)) = b := hb
  rw [hb'] at hrange
  generalize himg : update t.img b (Fs.splice (t.img b) ((F i).length % BSIZE) n fun k => p.getD k 0) = img
  -- it is no indirect block
  have hptr : ∀ r, ptr img (D i) r = ptr t.img (D i) r := by
    intro r
    rcases Fs.place_cases r with hr | ⟨k, hk, rfl⟩ | hr
    · rw [Fs.ptr_direct hf.type hr, Fs.ptr_direct hf.type hr]
    · by_cases h0 : (D i).addr NDIRECT = 0
      · rw [Fs.ptr_no_indirect h0 (by omega), Fs.ptr_no_indirect h0 (by omega)]
      · have hind : ptr t.img (D i) NDIRECT = (D i).addr NDIRECT := Fs.ptr_direct hf.type (Nat.le_refl _)
        have hne : (D i).addr NDIRECT ≠ b := fun e =>
          Fs.place_ne (hB.inj hlti hlti hb0 (r := NDIRECT) (by rw [hind, e]; exact hb')).2
        rw [Fs.ptr_indirect hf.type h0 hk, Fs.ptr_indirect hf.type h0 hk, ← himg, update_of_ne hne]
    · rw [Fs.ptr_far hr, Fs.ptr_far hr]
  have hnew := hf.write hb hlt hn hroom (by rw [himg]; exact fun k => hptr _) fun k hk hne e =>
    hne (Fs.place_inj (hB.inj hlti hlti ((hf.blks k).mpr hk) (by rw [hb']; exact e)).2)
  rw [himg] at hnew
  refine hB.keep hi hptr (fun k hk hki => ?_) (fun c hc => ?_) hnew rfl
  · rw [← himg]
    exact Fs.agree_update fun q hq e => hki (hB.inj hk hlti hq (by rw [hb']; exact e)).1
  · rw [← himg, update_of_ne (by omega)]
    exact hB.fresh c hc

theorem IsFile.cost_eq {d : Disk} {c : List UInt8} {n : Nat} (h : IsFile d x c n) (hT : Tight x n) : cost x n = need n := by
  unfold cost need
  by_cases h0 : x.addr NDIRECT = 0
  · rw [if_pos h0, if_neg fun hlt => h.indirect hlt h0]
    rfl
  · rw [if_neg h0, if_pos (hT h0)]

theorem Built.count_update {F' : Nat → List UInt8} {t' : St} {x' : Dinode} {n : Nat} (hB : Built F m D t) (hi : i < t.freeinode)
    (hB' : Built F' (update m i n) (update D i x') t') :
    t'.freeblock + cost (D i) (m i) = t.freeblock + cost x' n := by
  have := sum_cost_update (m := m) (D := D) (x := x') (n := n) (Nat.lt_of_lt_of_le hi hB.inodes.2)
  have := hB.count
  have := hB'.count
  omega

/-- What the loop ends with. -/
structure Appended (F : Nat → List UInt8) (m : Nat → Nat) (D : Nat → Dinode) (i : Nat) (x : Dinode) (p : List UInt8) (t : St)
    (r : Dinode × Nat) (t' : St) : Prop where
  off : r.2 = (F i ++ p).length
  built : Built (update F i (F i ++ p)) (update m i (blocksOf (F i ++ p).length))
    (update D i { r.1 with size := (F i ++ p).length }) t'
  tight : Tight r.1 (blocksOf (F i ++ p).length)
  kind : r.1.type = x.type ∧ r.1.nlink = x.nlink
  frame : Frame t t'

theorem Appended.nil (hB : Built F m D t) (hx : D i = { x with size := (F i).length }) (hm : m i = blocksOf (F i).length)
    (hT : Tight x (m i)) : Appended F m D i x [] t (x, (F i).length) t := by
  refine ⟨by rw [List.append_nil], ?_, by rw [List.append_nil, ← hm]; exact hT, ⟨rfl, rfl⟩, .refl⟩
  rw [List.append_nil, update_eq_self, ← hm, update_eq_self, ← hx, update_eq_self]
  exact hB

theorem Appended.cons {p q : List UInt8} {x' : Dinode} {t' : St} {r : Dinode × Nat} {u : St}
    (h : Appended (update F i (F i ++ q)) (update m i (blocksOf (F i ++ q).length))
      (update D i { x' with size := (F i ++ q).length }) i x' p t' r u)
    (hkind : x'.type = x.type ∧ x'.nlink = x.nlink) (hfr : Frame t t') : Appended F m D i x (q ++ p) t r u := by
  obtain ⟨h1, h2, h3, h4, h5⟩ := h
  simp only [update_self, update_idem, List.append_assoc] at h1 h2 h3
  exact ⟨h1, h2, h3, ⟨h4.1.trans hkind.1, h4.2.trans hkind.2⟩, hfr.trans h5⟩

theorem wp_appendLoop (hB : Built F m D t) (hi : 1 ≤ i ∧ i < t.freeinode) (hx : D i = { x with size := (F i).length })
    (hm : m i = blocksOf (F i).length) (hT : Tight x (m i)) {fuel : Nat} {p : List UInt8} (hfuel : p.length ≤ fuel)
    (hlong : MAXFILE * BSIZE < (F i ++ p).length → E .assert) (hfull : Full t (m i) (blocksOf (F i ++ p).length) → E .die) :
    Wp E (appendLoop fuel x (F i).length p) t (Appended F m D i x p t) := by
  induction fuel generalizing F m D t x p with
  | zero =>
    obtain rfl : p = [] := List.eq_nil_of_length_eq_zero (by omega)
    exact .nil hB hx hm hT
  | succ fuel ih =>
    simp only [appendLoop]
    refine Lib.wp_ite (fun h => by subst h; exact .nil hB hx hm hT) fun hp => ?_
    have hpos : 0 < p.length := List.length_pos_iff.mpr hp
    have hlt22 := FSSIZE_lt
    have hdm := Nat.div_add_mod (F i).length BSIZE
    have hmod := Nat.mod_lt (F i).length Fs.BSIZE_pos
    -- what this round copies
    obtain ⟨n, hn⟩ : ∃ n, n = min p.length (((F i).length / BSIZE + 1) * BSIZE - (F i).length) := ⟨_, rfl⟩
    have hmul : ((F i).length / BSIZE + 1) * BSIZE = BSIZE * ((F i).length / BSIZE) + BSIZE := by
      rw [Nat.add_mul, Nat.one_mul, Nat.mul_comm]
    have hn0 : 0 < n := by omega
    have hnp : n ≤ p.length := by omega
    have hroom : (F i).length % BSIZE + n ≤ BSIZE := by omega
    have hlen : (F i ++ p.take n).length = (F i).length + n := by
      rw [List.length_append, List.length_take, Nat.min_eq_left hnp]
    have hlenp : (F i ++ p).length = (F i).length + p.length := List.length_append
    have hblocks : blocksOf (F i ++ p.take n).length = max (m i) ((F i).length / BSIZE + 1) := by
      rw [hlen, hm, blocksOf_add hn0 hroom]
    have hle : blocksOf (F i ++ p.take n).length ≤ blocksOf (F i ++ p).length := blocksOf_mono (by omega)
    simp only [wp_bind, ← hn]
    refine wp_assert (fun hmax => ?_) fun hmax => hlong ?_
    · have hstep : Full t (m i) (max (m i) ((F i).length / BSIZE + 1)) → E .die := fun h => hfull (by
        have := need_mono hle
        rw [← hblocks] at h
        unfold Full at *
        omega)
      refine (wp_imap hB hi hx (by rw [hm]; exact div_le_blocksOf _) hmax hT hstep).mono fun r t1 hr => ?_
      rcases hr with ⟨hB1, hblk, hT1, hkind, hfr⟩ | ⟨h1, h2, h3, h4⟩
      · rw [← hblocks] at hB1 hT1
        have hi1 : 1 ≤ i ∧ i < t1.freeinode := by rw [hfr.freeinode]; exact hi
        have hself : update D i { r.1 with size := (F i).length } i = { r.1 with size := (F i).length } :=
          update_self ..
        have hblk' : blk t1.img (update D i { r.1 with size := (F i).length } i) ((F i).length / BSIZE) = r.2 := by
          rw [hself, blk_size, hblk]
        have hltm : (F i).length / BSIZE < update m i (blocksOf (F i ++ p.take n).length) i := by
          rw [update_self, hblocks]
          omega
        have hf1 := hB1.files i hi1.1 hi1.2
        have hb0 := (hf1.blks _).mpr hltm
        have hrange := hB1.range (Nat.lt_of_lt_of_le hi1.2 hB1.inodes.2) hb0
        have e : ptr t1.img (update D i { r.1 with size := (F i).length } i) (place ((F i).length / BSIZE)) = r.2 := hblk'
        rw [e] at hrange
        have hroom1 := hB1.room
        refine wp_rsect (by omega) (fun _ => ?_) fun h => absurd (hB1.len ▸ h) (by omega)
        refine wp_wsect hB1.len (by omega) ?_
        have hB2 := hB1.write hi1 hltm hnp hroom hblk'
        rw [hself, update_idem] at hB2
        have hoff : (F i).length - (F i).length / BSIZE * BSIZE = (F i).length % BSIZE := by
          rw [Nat.mul_comm]
          omega
        rw [hoff]
        rw [← hlen] at hB2
        have hfr2 : ∀ v, Frame t { t1 with img := update t1.img r.2 v } := fun v =>
          ⟨hfr.freeinode, fun c hc => (update_of_ne (by omega) ..).trans (hfr.low c hc)⟩
        have hlong' : MAXFILE * BSIZE < (F i ++ p.take n ++ p.drop n).length → E .assert := by
          rw [List.append_assoc, List.take_append_drop]
          exact hlong
        have hfull' : Full t1 (blocksOf (F i ++ p.take n).length) (blocksOf (F i ++ p.take n ++ p.drop n).length) → E .die := by
          rw [List.append_assoc, List.take_append_drop]
          intro h
          rw [hself, update_self] at hf1
          have hcount := hB.count_update hi.2 hB1
          rw [(hB.files i hi.1 hi.2).cost_eq (by rw [hx]; exact hT), hf1.cost_eq hT1] at hcount
          have h1 := need_mono hle
          have h2 : need (m i) ≤ need (blocksOf (F i ++ p.take n).length) := need_mono (by omega)
          refine hfull ?_
          unfold Full at *
          omega
        have := ih hB2 hi1 (x := r.1) (p := p.drop n)
        simp only [update_self] at this
        rw [← hlen]
        refine (this trivial trivial hT1 (by rw [List.length_drop]; omega) hlong' hfull').mono fun r' u h => ?_
        have := h.cons hkind (hfr2 _)
        rwa [List.take_append_drop] at this
      · refine wp_rsect h2 (fun h => absurd h (by omega)) fun _ => h4
    · have h1 : MAXFILE * BSIZE ≤ (F i).length / BSIZE * BSIZE := Nat.mul_le_mul_right _ (Nat.le_of_not_lt hmax)
      have h2 := Nat.div_mul_le_self (F i).length BSIZE
      omega

/-- Between the calls: the inodes are in the image. -/
structure Image (F : Nat → List UInt8) (t : St) : Prop where
  built : Built F (fun k => blocksOf (F k).length) (dinode sb t.img) t
  tight : ∀ k < NINODES, Tight (dinode sb t.img k) (blocksOf (F k).length)

/-- Inodes keep their type and their link count. -/
structure Kept (t t' : St) : Prop where
  freeinode : t'.freeinode = t.freeinode
  kind : ∀ k < NINODES, (dinode sb t'.img k).type = (dinode sb t.img k).type ∧
    (dinode sb t'.img k).nlink = (dinode sb t.img k).nlink

theorem Kept.refl : Kept t t := ⟨rfl, fun _ _ => ⟨rfl, rfl⟩⟩

theorem Kept.trans {t' t'' : St} (h : Kept t t') (h' : Kept t' t'') : Kept t t'' :=
  ⟨h'.freeinode.trans h.freeinode, fun k hk =>
    ⟨(h'.kind k hk).1.trans (h.kind k hk).1, (h'.kind k hk).2.trans (h.kind k hk).2⟩⟩

theorem Image.count (hI : Image F t) : t.freeblock = nmeta + ∑ k : Fin NINODES, need (blocksOf (F k).length) := by
  have hsum : ∑ k : Fin NINODES, cost (dinode sb t.img k) (blocksOf (F k).length) =
      ∑ k : Fin NINODES, need (blocksOf (F k).length) := Finset.sum_congr rfl fun k _ => by
    by_cases h : 1 ≤ (k : Nat) ∧ (k : Nat) < t.freeinode
    · exact (hI.built.files k h.1 h.2).cost_eq (hI.tight k k.isLt)
    · obtain ⟨h1, -, h3⟩ := hI.built.rest k k.isLt (by omega)
      rw [h1, h3]
      rfl
  rw [hI.built.count, hsum]

theorem IBLOCK_lt_nmeta (hi : i < NINODES) : Fs.IBLOCK sb i < nmeta := Fs.IBLOCK_lt_dataStart layout hi

theorem wp_winode {Q : Unit → St → Prop} (hlen : t.len = FSSIZE) (hi : i < NINODES)
    (h : Q () { t with img := Fs.setDinode sb t.img i x }) : Wp E (winode i x) t Q := by
  have hb := IBLOCK_lt_nmeta hi
  have hm : nmeta < FSSIZE := by decide
  have hlt22 := FSSIZE_lt
  simp only [winode, wp_bind]
  refine wp_rsect (by omega) (fun _ => ?_) fun h => absurd h (by omega)
  exact wp_wsect hlen (by omega) h

theorem wp_rinode {Q : Dinode → St → Prop} (hlen : t.len = FSSIZE) (hi : i < NINODES) (h : Q (dinode sb t.img i) t) :
    Wp E (rinode i) t Q := by
  have hb := IBLOCK_lt_nmeta hi
  have hm : nmeta < FSSIZE := by decide
  have hlt22 := FSSIZE_lt
  simp only [rinode, wp_bind]
  exact wp_rsect (by omega) (fun _ => h) fun h => absurd h (by omega)

theorem dinode_low {t' : St} (h : Frame t t') (hi : i < NINODES) : dinode sb t'.img i = dinode sb t.img i := by
  rw [dinode, h.low _ (IBLOCK_lt_nmeta hi), dinode]

theorem setDinode_data {d : Disk} {b : Nat} (hi : i < NINODES) (hb : nmeta ≤ b) : Fs.setDinode sb d i x b = d b := by
  have := IBLOCK_lt_nmeta hi
  rw [Fs.setDinode, update_of_ne (by omega)]

theorem Built.flush {D : Nat → Dinode} (hB : Built F m D t) (hi : i < NINODES) (hf : (D i).Fits)
    (hD : ∀ k < NINODES, k ≠ i → dinode sb t.img k = D k) :
    Built F m (dinode sb (Fs.setDinode sb t.img i (D i))) { t with img := Fs.setDinode sb t.img i (D i) } := by
  refine hB.low_write (fun k hk => ?_) fun b hb => setDinode_data hi hb
  by_cases e : k = i
  · rw [e, Fs.dinode_setDinode _ _ hf]
  · rw [Fs.dinode_setDinode_of_ne _ _ e]
    exact hD k hk e

theorem update_blocksOf {c : List UInt8} :
    update (fun k => blocksOf (F k).length) i (blocksOf c.length) =
      fun k => blocksOf (update F i c k).length := by
  funext k
  by_cases e : k = i
  · rw [e, update_self, update_self]
  · rw [update_of_ne e, update_of_ne e]

theorem sum_need_update {c : List UInt8} (hi : i < NINODES) :
    (∑ k : Fin NINODES, need (blocksOf (update F i c k).length)) + need (blocksOf (F i).length) =
      (∑ k : Fin NINODES, need (blocksOf (F k).length)) + need (blocksOf c.length) := by
  have := Lib.sum_of_ne (f := fun k : Fin NINODES => need (blocksOf (update F i c k).length))
    (g := fun k : Fin NINODES => need (blocksOf (F k).length)) ⟨i, hi⟩ fun k hk => by
      rw [update_of_ne fun e => hk (Fin.ext e)]
  simpa only [update_self] using this

/-- `iappend` fails only if the file gets too long or there are too few blocks. -/
theorem wp_iappend (hI : Image F t) (hi : 1 ≤ i ∧ i < t.freeinode) {p : List UInt8}
    (hlong : MAXFILE * BSIZE < (F i ++ p).length → E .assert)
    (hfull : FSSIZE < nmeta + ∑ k : Fin NINODES, need (blocksOf (update F i (F i ++ p) k).length) → E .die) :
    Wp E (iappend i p) t fun _ t' => Image (update F i (F i ++ p)) t' ∧ Kept t t' := by
  have hB := hI.built
  have hlt : i < NINODES := Nat.lt_of_lt_of_le hi.2 hB.inodes.2
  have hf := hB.files i hi.1 hi.2
  have hx : dinode sb t.img i = { dinode sb t.img i with size := (F i).length } := by rw [← hf.size]
  have hfull' : Full t (blocksOf (F i).length) (blocksOf (F i ++ p).length) → E .die := fun h => hfull (by
    have h1 := hI.count
    have h2 := sum_need_update (F := F) (c := F i ++ p) hlt
    have h3 : need (blocksOf (F i).length) ≤ need (blocksOf (F i ++ p).length) :=
      need_mono (blocksOf_mono (by rw [List.length_append]; omega))
    unfold Full at h
    omega)
  simp only [iappend, wp_bind]
  refine wp_rinode hB.len hlt ?_
  rw [hf.size]
  refine (wp_appendLoop hB hi hx rfl (hI.tight i hlt) (Nat.le_refl _) hlong hfull').mono fun r t1 h => ?_
  have hB1 := h.built
  have hself : update (dinode sb t.img) i { r.1 with size := (F i ++ p).length } i =
      { r.1 with size := (F i ++ p).length } := update_self ..
  have hf1 := hB1.files i hi.1 (by rw [h.frame.freeinode]; exact hi.2)
  rw [hself] at hf1
  refine wp_winode hB1.len hlt ?_
  rw [h.off]
  have hflush := hB1.flush hlt (by rw [hself]; exact hf1.fits) fun k hk hki => by
    rw [update_of_ne hki, dinode_low h.frame hk]
  rw [hself, update_blocksOf] at hflush
  have hdi : dinode sb (Fs.setDinode sb t1.img i _) i = _ := Fs.dinode_setDinode t1.img i hf1.fits
  have hdk : ∀ k < NINODES, k ≠ i → dinode sb (Fs.setDinode sb t1.img i { r.1 with size := (F i ++ p).length }) k =
      dinode sb t.img k := fun k hk hki => by
    rw [Fs.dinode_setDinode_of_ne _ _ hki, dinode_low h.frame hk]
  refine ⟨⟨hflush, fun k hk => ?_⟩, h.frame.freeinode, fun k hk => ?_⟩
  · by_cases e : k = i
    · subst e
      rw [update_self]
      show Tight (dinode sb (Fs.setDinode sb t1.img k _) k) _
      rw [hdi]
      exact h.tight
    · rw [update_of_ne e]
      show Tight (dinode sb (Fs.setDinode sb t1.img i _) k) _
      rw [hdk k hk e]
      exact hI.tight k hk
  · by_cases e : k = i
    · subst e
      show (dinode sb (Fs.setDinode sb t1.img k _) k).type = _ ∧ (dinode sb (Fs.setDinode sb t1.img k _) k).nlink = _
      rw [hdi]
      exact h.kind
    · show (dinode sb (Fs.setDinode sb t1.img i _) k).type = _ ∧ (dinode sb (Fs.setDinode sb t1.img i _) k).nlink = _
      rw [hdk k hk e]
      exact ⟨rfl, rfl⟩

/-! ## ialloc, and the empty image -/

/-- What `ialloc` puts into the image. -/
def fresh (type : Nat) : Dinode := { Dinode.zero with type, nlink := 1 }

theorem fresh_addr (type k : Nat) : (fresh type).addr k = 0 := by
  unfold Dinode.addr
  split <;> rfl

theorem ptr_fresh (d : Disk) (type q : Nat) : ptr d (fresh type) q = 0 := by
  rcases Nat.lt_or_ge NDIRECT q with hq | hq
  · exact Fs.ptr_no_indirect (fresh_addr ..) hq
  · by_cases h : (fresh type).type = 0
    · exact Fs.ptr_free h
    · rw [Fs.ptr_direct h hq, fresh_addr]

theorem fresh_isFile {d : Disk} {type : Nat} (h0 : type ≠ 0) (h1 : type < 2 ^ 16) : IsFile d (fresh type) [] 0 where
  type := h0
  fits := ⟨h1, Nat.two_pow_pos 16, Nat.two_pow_pos 16, (by decide : 1 < 2 ^ 16), Nat.two_pow_pos 32,
    fun _ => Nat.two_pow_pos 32⟩
  size := rfl
  le := Nat.zero_le _
  max := Nat.zero_le _
  blks n := by rw [blk, ptr_fresh]; simp
  indirect h := absurd h (by decide)
  bytes o ho := absurd ho (by omega)

theorem wp_ialloc (hI : Image F t) (hlt : t.freeinode < NINODES) {type : Nat} (h0 : type ≠ 0) (h1 : type < 2 ^ 16) :
    Wp E (ialloc type) t fun r t' => r = t.freeinode ∧ Image F t' ∧ t'.freeinode = t.freeinode + 1 ∧
      dinode sb t'.img r = fresh type ∧ ∀ k < NINODES, k ≠ r → dinode sb t'.img k = dinode sb t.img k := by
  have hB := hI.built
  obtain ⟨hz, -, hF⟩ := hB.rest t.freeinode hlt (.inr (Nat.le_refl _))
  have hnew : ∀ d, IsFile d (fresh type) [] 0 := fun d => fresh_isFile h0 h1
  simp only [ialloc, newinode, wp_bind, Lib.wp_get, wp_modify]
  refine wp_winode hB.len hlt ?_
  show t.freeinode = t.freeinode ∧
    Image F { t with img := Fs.setDinode sb t.img t.freeinode (fresh type), freeinode := t.freeinode + 1 } ∧ _
  have hself : dinode sb (Fs.setDinode sb t.img t.freeinode (fresh type)) t.freeinode = fresh type :=
    Fs.dinode_setDinode _ _ (hnew t.img).fits
  have hother : ∀ k < NINODES, k ≠ t.freeinode →
      dinode sb (Fs.setDinode sb t.img t.freeinode (fresh type)) k = dinode sb t.img k := fun k _ hk =>
        Fs.dinode_setDinode_of_ne _ _ hk
  have hblocks : blocksOf (F t.freeinode).length = 0 := by rw [hF]; rfl
  refine ⟨rfl, ⟨⟨hB.len, ⟨Nat.succ_le_succ (Nat.zero_le _), hlt⟩, ?_, hB.room, ?_, fun b hb => ?_, fun k hk1 hk2 => ?_,
    fun k hk h => ?_⟩, fun k hk => ?_⟩, rfl, hself, hother⟩
  · have hsum : ∑ k : Fin NINODES, cost (dinode sb (Fs.setDinode sb t.img t.freeinode (fresh type)) k) (blocksOf (F k).length) =
        ∑ k : Fin NINODES, cost (dinode sb t.img k) (blocksOf (F k).length) := Finset.sum_congr rfl fun k _ => by
      by_cases e : (k : Nat) = t.freeinode
      · rw [e, hself, hz, cost, cost, fresh_addr]
        rfl
      · rw [hother k k.isLt e]
    rw [hsum]
    exact hB.count
  · dsimp only
    rw [Fs.owner_congr sb fun k hk q => ?_]
    · exact hB.own
    · by_cases e : k = t.freeinode
      · rw [e, hself, hz, ptr_fresh]
        exact (Fs.ptr_free rfl).symm
      · rw [hother _ hk e]
        have hag : Agree t.img (Fs.setDinode sb t.img t.freeinode (fresh type)) (dinode sb t.img k) := fun q hq =>
          setDinode_data hlt (hB.range hk hq).1
        exact hag.ptr_eq
  · exact (setDinode_data hlt (Nat.le_trans hB.low hb)).trans (hB.fresh b hb)
  · by_cases e : k = t.freeinode
    · subst e
      rw [hself, hF]
      exact hnew _
    · have hk : k < t.freeinode := Nat.lt_of_le_of_ne (Nat.le_of_lt_succ hk2) e
      have hkn : k < NINODES := Nat.lt_trans hk hlt
      rw [hother k hkn e]
      exact (hB.files k hk1 hk).agree fun q hq => setDinode_data hlt (hB.range hkn hq).1
  · have h' : k = 0 ∨ t.freeinode + 1 ≤ k := h
    have := hB.inodes.1
    rw [hother k hk (by omega)]
    exact hB.rest k hk (by omega)
  · by_cases e : k = t.freeinode
    · subst e
      show Tight (dinode sb (Fs.setDinode sb t.img _ _) _) _
      rw [hself]
      exact fun h => absurd (fresh_addr ..) h
    · show Tight (dinode sb (Fs.setDinode sb t.img _ _) _) _
      rw [hother k hk e]
      exact hI.tight k hk

def empty : Disk := update (fun _ _ => 0) 1 sbBlock

theorem dinode_empty : dinode sb empty i = .zero := by
  have h1 : (1 : Nat) < sb.inodestart := by decide
  have hne : Fs.IBLOCK sb i ≠ 1 := Nat.ne_of_gt (Nat.lt_of_lt_of_le h1 (Nat.le_add_left ..))
  rw [dinode, empty, update_of_ne hne]
  rfl

theorem image_empty : Image (fun _ => []) ⟨empty, FSSIZE, 1, nmeta⟩ := by
  have hzero : ∀ p, owner sb (dinode sb empty) empty p = 0 := fun p => by
    rw [Fs.owner_of_nothing, dinode_empty, Fs.ptr_free rfl, ite_self]
  have hsum : ∑ k : Fin NINODES, cost (dinode sb empty k) (blocksOf ([] : List UInt8).length) = 0 :=
    Finset.sum_eq_zero fun k _ => by
      rw [dinode_empty]
      rfl
  have hnm : nmeta ≤ FSSIZE := by decide
  refine ⟨⟨rfl, by decide, ?_, hnm, ⟨fun p hp => absurd (hzero p) hp, fun p q hp => absurd (hzero p) hp, fun b h1 h2 => ?_⟩,
    fun b hb => ?_, fun k h1 h2 => absurd h2 (Nat.not_lt.mpr h1), fun k hk _ => ⟨dinode_empty, rfl, rfl⟩⟩,
      fun k hk h => absurd ?_ h⟩
  · dsimp only
    rw [hsum, Nat.add_zero]
  · have hno : ∀ p, owner sb (dinode sb empty) empty p ≠ b := fun p => by
      have : 0 < nmeta := nmeta_pos
      rw [hzero]
      omega
    have : ¬ b < nmeta := by omega
    simp [this, hno]
  · have h1 : 1 < nmeta := by decide
    have hb : nmeta ≤ b := hb
    show empty b = _
    rw [empty, update_of_ne (by omega)]
  · show (dinode sb empty k).addr NDIRECT = 0
    rw [dinode_empty]
    rfl

theorem wp_zeroes {n : Nat} (hn : n < 2 ^ 22) :
    Wp E (Lib.forFrom (fun i => wsect i fun _ => 0) 0 n) ⟨fun _ _ => 0, 0, 1, nmeta⟩ fun _ t =>
      t = ⟨fun _ _ => 0, 0 + n, 1, nmeta⟩ := by
  refine Lib.wp_forFrom (fun k (t : St) => t = ⟨fun _ _ => 0, k, 1, nmeta⟩) rfl fun k t _ hk ht => ?_
  subst ht
  have hupd : update (fun _ _ => 0 : Disk) k (fun _ => 0) = fun _ _ => 0 := update_eq_self ..
  simp only [wsect, wp_modify, Nat.mod_eq_of_lt (show k < 2 ^ 22 by omega), hupd, Nat.max_eq_right (Nat.le_succ k)]

theorem wp_blank : Wp E blank start fun _ t => t = ⟨empty, FSSIZE, 1, nmeta⟩ := by
  rw [blank, wp_bind, wp_modify, wp_bind]
  refine (wp_zeroes FSSIZE_lt).mono fun _ t ht => ?_
  rw [Nat.zero_add] at ht
  subst ht
  exact wp_wsect rfl (by decide) rfl

end

/-! ## What the kernel reads -/

/-- A call of `ialloc` or `iappend`. -/
inductive Op where
  | ialloc (type : Nat)
  | iappend (inum : Nat) (p : List UInt8)

def Op.run : Op → M Unit
  | .ialloc type => do let _ ← Mkfs.ialloc type
  | .iappend inum p => Mkfs.iappend inum p

/-- With `n` inodes allocated: at most NINODES - 1 inodes get a type, and what is appended to is allocated. -/
def Valid : Nat → List Op → Prop
  | _, [] => True
  | n, .ialloc type :: ops => n + 1 < NINODES ∧ type ≠ 0 ∧ type < 2 ^ 16 ∧ Valid (n + 1) ops
  | n, .iappend inum _ :: ops => (1 ≤ inum ∧ inum ≤ n) ∧ Valid n ops

/-- What is appended to inode `i`. -/
def Op.chunk (i : Nat) : Op → List UInt8
  | .ialloc _ => []
  | .iappend inum p => if inum = i then p else []

/-- The chunks appended to inode `i`, one after the other. -/
def appended (ops : List Op) (i : Nat) : List UInt8 := ops.flatMap (Op.chunk i)

/-- How many inodes the calls allocate. -/
def allocs : List Op → Nat
  | [] => 0
  | .ialloc _ :: ops => allocs ops + 1
  | .iappend _ _ :: ops => allocs ops

theorem wp_ops {F : Nat → List UInt8} {ops : List Op} {t : St} {n : Nat} (hI : Image F t) (hn : t.freeinode = n + 1)
    (hv : Valid n ops) (hmax : ∀ i, (F i ++ appended ops i).length ≤ MAXFILE * BSIZE)
    (hroom : nmeta + ∑ i : Fin NINODES, need (blocksOf (F i ++ appended ops i).length) ≤ FSSIZE) :
    Wp (fun _ => False) (ops.forM Op.run) t fun _ t' =>
      Image (fun i => F i ++ appended ops i) t' ∧ t'.freeinode = n + allocs ops + 1 := by
  induction ops generalizing F t n with
  | nil =>
    refine ⟨?_, hn⟩
    simpa only [appended, List.flatMap_nil, List.append_nil] using hI
  | cons op ops ih =>
    show Wp _ (op.run >>= fun _ => ops.forM Op.run) t _
    rw [wp_bind]
    cases op with
    | ialloc type =>
      obtain ⟨h1, h2, h3, h4⟩ := hv
      simp only [Op.run, wp_bind]
      refine (wp_ialloc hI (by omega) h2 h3).mono fun r t1 ⟨_, hI1, hfree, _⟩ => ?_
      refine (ih hI1 (by omega) h4 hmax hroom).mono fun _ t2 ⟨hI2, h⟩ => ⟨hI2, ?_⟩
      simp only [allocs]
      omega
    | iappend inum p =>
      obtain ⟨h1, h2⟩ := hv
      have happ : ∀ i, F i ++ appended (.iappend inum p :: ops) i =
          update F inum (F inum ++ p) i ++ appended ops i := by
        intro i
        simp only [appended, List.flatMap_cons, Op.chunk]
        by_cases e : inum = i
        · subst e
          rw [if_pos rfl, update_self, List.append_assoc]
        · rw [if_neg e, List.nil_append, update_of_ne (Ne.symm e)]
      simp only [happ] at hmax hroom ⊢
      refine (wp_iappend hI (by omega) (fun h => ?_) fun h => ?_).mono fun _ t1 ⟨hI1, hk⟩ => ?_
      · have := hmax inum
        rw [update_self, List.length_append] at this
        omega
      · have : ∑ k : Fin NINODES, need (blocksOf (update F inum (F inum ++ p) k).length) ≤
            ∑ k : Fin NINODES, need (blocksOf (update F inum (F inum ++ p) k ++ appended ops k).length) :=
          Finset.sum_le_sum fun k _ => need_mono (blocksOf_mono (by rw [List.length_append]; omega))
        omega
      · exact ih hI1 (by rw [hk.freeinode]; exact hn) h2 hmax hroom

theorem wp_run {ops : List Op} (hv : Valid 0 ops) (hmax : ∀ i, (appended ops i).length ≤ MAXFILE * BSIZE)
    (hroom : nmeta + ∑ i : Fin NINODES, need (blocksOf (appended ops i).length) ≤ FSSIZE) :
    Wp (fun _ => False) (do blank; ops.forM Op.run) start fun _ t =>
      Image (appended ops) t ∧ t.freeinode = allocs ops + 1 := by
  rw [wp_bind]
  refine wp_blank.mono fun _ t ht => ?_
  subst ht
  refine (wp_ops image_empty rfl hv hmax hroom).mono fun _ t ⟨h1, h2⟩ => ⟨h1, ?_⟩
  omega

theorem readi_isFile {d : Disk} {x : Dinode} {c : List UInt8} {m : Nat} (hf : IsFile d x c m) {s : Fs.Core}
    (hs : s.disk = d) {j : Nat}
    (hj : (s.itable j).d = x) {off n : Nat} (hn : off + n < 2 ^ 32) :
    Fs.readi sb j none off n s = .ok (((((c.drop off).take n).length : Nat), (c.drop off).take n), s) := by
  subst hs
  rcases Nat.lt_or_ge x.size off with hoff | hoff
  · rw [Fs.readi_none hj (.inl hoff)]
    rw [hf.size] at hoff
    rw [List.drop_eq_nil_of_le (Nat.le_of_lt hoff)]
    simp
  · have hbytes : Fs.bytes s.disk x off (min n (x.size - off)) = (c.drop off).take n := by
      have hlen : ((c.drop off).take n).length = min n (x.size - off) := by
        rw [List.length_take, List.length_drop, hf.size]
      refine List.ext_getElem (by rw [hlen]; simp [Fs.bytes]) fun k h1 h2 => ?_
      simp only [Fs.bytes, List.getElem_map, List.getElem_range, List.getElem_take, List.getElem_drop]
      rw [hf.byteAt]
      exact List.getD_eq_getElem _ _ _
    have hw : Wp (fun _ => False) (Fs.readi sb j none off n) s _ := Fs.wp_readi_part hj hf.type hf.sound hoff hn
    obtain ⟨r, s', hr, rfl, h | h⟩ := hw.returns
    · exact absurd rfl h.1
    · rw [hr, h, hbytes, ← hbytes]
      simp [Fs.bytes]

/-- Every run of `ialloc` and `iappend` with inodes and blocks enough ends, with each file as long as what was appended to it;
    and `readi` of any part of it that does not end past what a `uint` counts returns those bytes. -/
theorem mkfs_readi {ops : List Op} (hv : Valid 0 ops) (hmax : ∀ i, (appended ops i).length ≤ MAXFILE * BSIZE)
    (hroom : nmeta + ∑ i : Fin NINODES, need (blocksOf (appended ops i).length) ≤ FSSIZE) :
    ∃ t, (do blank; ops.forM Op.run) start = .ok ((), t) ∧ ∀ i, 1 ≤ i → i ≤ allocs ops →
      (dinode sb t.img i).size = (appended ops i).length ∧
      ∀ (s : Fs.Core) (j : Nat), s.disk = t.img → (s.itable j).d = dinode sb t.img i → ∀ off n, off + n < 2 ^ 32 →
        Fs.readi sb j none off n s =
          .ok (((((appended ops i).drop off).take n).length, ((appended ops i).drop off).take n), s) := by
  obtain ⟨⟨⟩, t, hr, hI, hn⟩ := (wp_run hv hmax hroom).returns
  refine ⟨t, hr, fun i h1 h2 => ?_⟩
  have hf := hI.built.files i h1 (by omega)
  exact ⟨hf.size, fun s j hs hj off n hlt => readi_isFile hf hs hj hlt⟩

/-- An inode table with inode `i` in every entry. -/
def mounted (d : Disk) (i : Nat) : Fs.Core := ⟨d, fun _ => ⟨i, 1, true, dinode sb d i⟩, 0, fun _ => false, d, []⟩

def twoBytes : List Op := [.ialloc T_FILE, .iappend 1 [7, 8]]

theorem twoBytes_valid : Valid 0 twoBytes := by
  simp only [twoBytes, Valid]
  decide

theorem twoBytes_length (i : Nat) : (appended twoBytes i).length ≤ 2 := by
  simp only [appended, twoBytes, List.flatMap_cons, List.flatMap_nil, Op.chunk]
  split <;> decide

theorem twoBytes_max (i : Nat) : (appended twoBytes i).length ≤ MAXFILE * BSIZE :=
  Nat.le_trans (twoBytes_length i) (by decide)

theorem twoBytes_room : nmeta + ∑ i : Fin NINODES, need (blocksOf (appended twoBytes i).length) ≤ FSSIZE := by
  decide +kernel

theorem mkfs_readi_two_bytes : ∃ t, (do blank; twoBytes.forM Op.run) start = .ok ((), t) ∧
    Fs.readi sb 0 none 1 5 (mounted t.img 1) = .ok ((1, [8]), mounted t.img 1) := by
  obtain ⟨t, hr, h⟩ := mkfs_readi twoBytes_valid twoBytes_max twoBytes_room
  exact ⟨t, hr, (h 1 (by decide) (by decide)).2 (mounted t.img 1) 0 rfl rfl 1 5 (by decide)⟩

/-- Where `off + n` wraps around, `readi` returns nothing. -/
theorem readi_wraps : ∃ t, (do blank; twoBytes.forM Op.run) start = .ok ((), t) ∧ (dinode sb t.img 1).size = 2 ∧
    ((appended twoBytes 1).drop 1).take (2 ^ 32 - 1) = [8] ∧
    Fs.readi sb 0 none 1 (2 ^ 32 - 1) (mounted t.img 1) = .ok ((0, []), mounted t.img 1) := by
  obtain ⟨⟨⟩, t, hr, hI, hn⟩ := (wp_run twoBytes_valid twoBytes_max twoBytes_room).returns
  have hf := hI.built.files 1 (Nat.le_refl 1) (by rw [hn]; decide)
  exact ⟨t, hr, hf.size, rfl, Fs.readi_none (x := dinode sb t.img 1) rfl (.inr (by decide))⟩

end Xv6.Mkfs
