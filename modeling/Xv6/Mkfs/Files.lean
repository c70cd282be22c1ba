/-
  Xv6.Mkfs.Files — the files in the image that mkfs makes (see `Xv6.Mkfs.Model`), and the block
  that `imap` finds or makes for one of them.

  `Built F m D t`: the inodes below `freeinode` are files with the contents `F i`, the blocks
  below `freeblock` are theirs, one place each, and those above are still zero. `D` are the
  inodes, in the image or, while `iappend` runs, in its variable.
-/

import Xv6.Mkfs.Model
import Xv6.Fs.DataSpecs
import Xv6.Lib.Count
import Mathlib.Data.List.GetD

namespace Xv6.Mkfs

open Fs (Dinode Dirent ptr blk place owner Agree dinode)
open Lib (Wp wp_bind wp_ite wp_pure wp_get wp_modify)
open Function (update update_self update_of_ne update_eq_self)

/-! ## Layout -/

theorem layout : Fs.Layout sb := by constructor <;> decide

/-! ## Files -/

def blocksOf (n : Nat) : Nat := (n + BSIZE - 1) / BSIZE

/-- What `m` blocks of data take, with the indirect block. -/
def need (m : Nat) : Nat := if NDIRECT < m then m + 1 else m

/-- The blocks of an inode with `m` blocks of data. -/
def cost (x : Dinode) (m : Nat) : Nat := m + if x.addr NDIRECT = 0 then 0 else 1

/-- A file with contents `c` in `m` blocks; the blocks are zero past its end. -/
structure IsFile (d : Disk) (x : Dinode) (c : List UInt8) (m : Nat) : Prop where
  type : x.type ≠ 0
  fits : x.Fits
  size : x.size = c.length
  le : c.length ≤ m * BSIZE
  max : m ≤ MAXFILE
  blks : ∀ n, blk d x n ≠ 0 ↔ n < m
  indirect : NDIRECT < m → x.addr NDIRECT ≠ 0
  bytes : ∀ o, o < m * BSIZE → d (blk d x (o / BSIZE)) (o % BSIZE) = c.getD o 0

section

variable {d d' : Disk} {x x' : Dinode} {c : List UInt8} {m : Nat}

theorem getD_take {k n : Nat} (h : k < n) : (c.take n).getD k 0 = c.getD k 0 := by
  rw [List.getD_eq_getElem?_getD, List.getD_eq_getElem?_getD, List.getElem?_take_of_lt h]

section

variable (h : IsFile d x c m)
include h

theorem IsFile.same (hblk : ∀ n, blk d' x' n = blk d x n)
    (hdata : ∀ n < m, d' (blk d x n) = d (blk d x n)) (ht : x'.type ≠ 0) (hf : x'.Fits) (hs : x'.size = x.size)
    (hind : NDIRECT < m → x'.addr NDIRECT ≠ 0) : IsFile d' x' c m where
  type := ht
  fits := hf
  size := hs.trans h.size
  le := h.le
  max := h.max
  blks n := by rw [hblk]; exact h.blks n
  indirect := hind
  bytes o ho := by
    rw [hblk, hdata _ (Nat.div_lt_of_lt_mul (by rwa [Nat.mul_comm]))]
    exact h.bytes o ho

theorem IsFile.agree (ha : Agree d d' x) : IsFile d' x c m :=
  h.same (fun _ => ha.ptr_eq) (fun _ hn => ha _ ((h.blks _).mpr hn)) h.type h.fits rfl h.indirect

theorem IsFile.grow {b : Nat} (hm : m < MAXFILE)
    (hptr : ∀ r, ptr d' x' r = if r = place m then b else ptr d x r) (hb : b ≠ 0) (hzero : d' b = fun _ => 0)
    (hdata : ∀ n < m, d' (blk d x n) = d (blk d x n)) (ht : x'.type ≠ 0) (hf : x'.Fits) (hs : x'.size = x.size)
    (hind : NDIRECT < m + 1 → x'.addr NDIRECT ≠ 0) : IsFile d' x' c (m + 1) := by
  have hblk : ∀ n, blk d' x' n = if n = m then b else blk d x n := fun n => by
    rw [blk, hptr]
    by_cases e : n = m
    · rw [if_pos e, if_pos (by rw [e])]
    · rw [if_neg e, if_neg fun h => e (Fs.place_inj h), blk]
  have hle : c.length ≤ (m + 1) * BSIZE := Nat.le_trans h.le (Nat.mul_le_mul_right _ (Nat.le_succ m))
  refine ⟨ht, hf, hs.trans h.size, hle, hm, fun n => ?_, hind, fun o ho => ?_⟩
  · rw [hblk]
    by_cases e : n = m
    · rw [if_pos e]
      simp [e, hb]
    · rw [if_neg e, h.blks n]
      omega
  · have hlt : o / BSIZE < m + 1 := Nat.div_lt_of_lt_mul (by rwa [Nat.mul_comm])
    rw [hblk]
    by_cases e : o / BSIZE = m
    · -- past the end of the file
      have hge : m * BSIZE ≤ o := by rw [← e]; exact Nat.div_mul_le_self o BSIZE
      have := h.le
      rw [if_pos e, hzero, List.getD_eq_default _ _ (by omega)]
    · rw [if_neg e, hdata _ (by omega)]
      exact h.bytes o ((Nat.div_lt_iff_lt_mul Fs.BSIZE_pos).mp (by omega))

theorem IsFile.write {b n : Nat} {p : List UInt8} (hb : blk d x (c.length / BSIZE) = b)
    (hlt : c.length / BSIZE < m) (hn : n ≤ p.length) (hroom : c.length % BSIZE + n ≤ BSIZE)
    (hblk : ∀ k, blk (update d b (Fs.splice (d b) (c.length % BSIZE) n fun k => p.getD k 0)) x k = blk d x k)
    (hinj : ∀ k < m, k ≠ c.length / BSIZE → blk d x k ≠ b) :
    IsFile (update d b (Fs.splice (d b) (c.length % BSIZE) n fun k => p.getD k 0))
      { x with size := c.length + n } (c ++ p.take n) m := by
  have hdm := Nat.div_add_mod c.length BSIZE
  have hlen : (c ++ p.take n).length = c.length + n := by
    rw [List.length_append, List.length_take, Nat.min_eq_left hn]
  have hle : c.length + n ≤ m * BSIZE := by
    have : BSIZE * (c.length / BSIZE + 1) ≤ BSIZE * m := Nat.mul_le_mul_left _ hlt
    rw [Nat.mul_add, Nat.mul_one, Nat.mul_comm _ m] at this
    omega
  have hmax : m * BSIZE ≤ MAXFILE * BSIZE := Nat.mul_le_mul_right _ h.max
  have hsize : c.length + n < 2 ^ 32 := Nat.lt_of_le_of_lt (Nat.le_trans hle hmax) (by decide)
  refine ⟨h.type, ⟨h.fits.type, h.fits.major, h.fits.minor, h.fits.nlink, hsize, h.fits.addrs⟩, hlen.symm,
    by rw [hlen]; exact hle,
    h.max, fun k => by rw [show blk _ { x with size := c.length + n } k = _ from hblk k]; exact h.blks k, h.indirect,
      fun o ho => ?_⟩
  rw [show blk _ { x with size := c.length + n } (o / BSIZE) = _ from hblk _]
  have hold := h.bytes o ho
  have hdo := Nat.div_add_mod o BSIZE
  by_cases e : o / BSIZE = c.length / BSIZE
  · rw [e, hb] at hold ⊢
    rw [e] at hdo
    rw [update_self]
    by_cases hin : c.length ≤ o ∧ o < c.length + n
    · rw [Fs.splice_of_mem (by omega) (by omega), List.getD_append_right _ _ _ _ hin.1, getD_take (by omega)]
      congr 1
      omega
    · rw [Fs.splice_of_not_mem (by omega), hold]
      rcases Nat.lt_or_ge o c.length with hlt' | hge
      · rw [List.getD_append _ _ _ _ hlt']
      · rw [List.getD_eq_default _ _ hge, List.getD_eq_default _ _ (by omega)]
  · rw [update_of_ne (hinj _ (Nat.div_lt_of_lt_mul (by rwa [Nat.mul_comm])) e), hold]
    rcases Nat.lt_or_ge o c.length with hlt' | hge
    · rw [List.getD_append _ _ _ _ hlt']
    · -- the next block starts after what is written
      have hne : c.length / BSIZE < o / BSIZE := by
        have := Nat.div_le_div_right (c := BSIZE) hge
        omega
      have : BSIZE * (c.length / BSIZE + 1) ≤ BSIZE * (o / BSIZE) := Nat.mul_le_mul_left _ hne
      rw [Nat.mul_add, Nat.mul_one] at this
      rw [List.getD_eq_default _ _ hge, List.getD_eq_default _ _ (by omega)]

theorem IsFile.sound : Fs.Sound d x where
  size := by
    rw [h.size]
    exact Nat.le_trans h.le (Nat.mul_le_mul_right _ h.max)
  full n hn := by
    rw [h.size] at hn
    exact (h.blks n).mpr (Nat.lt_of_mul_lt_mul_right (Nat.lt_of_lt_of_le hn h.le))

theorem IsFile.byteAt (o : Nat) : Fs.byteAt d x o = c.getD o 0 := by
  unfold Fs.byteAt
  split
  · rename_i ho
    rw [h.size] at ho
    exact h.bytes o (Nat.lt_of_lt_of_le ho h.le)
  · rename_i ho
    rw [h.size] at ho
    rw [List.getD_eq_default _ _ (by omega)]

end

end

structure Built (F : Nat → List UInt8) (m : Nat → Nat) (D : Nat → Dinode) (t : St) : Prop where
  len : t.len = FSSIZE
  inodes : 1 ≤ t.freeinode ∧ t.freeinode ≤ NINODES
  count : t.freeblock = nmeta + ∑ i : Fin NINODES, cost (D i) (m i)
  room : t.freeblock ≤ FSSIZE
  own : Lib.Owned nmeta FSSIZE (owner sb D t.img) fun b => decide (b < t.freeblock)
  fresh : ∀ b, t.freeblock ≤ b → t.img b = fun _ => 0
  files : ∀ i, 1 ≤ i → i < t.freeinode → IsFile t.img (D i) (F i) (m i)
  rest : ∀ i < NINODES, i = 0 ∨ t.freeinode ≤ i → D i = .zero ∧ m i = 0 ∧ F i = []

section

variable {F : Nat → List UInt8} {m : Nat → Nat} {D : Nat → Dinode} {t : St} {i : Nat} {img : Disk}
  {x : Dinode} {c : List UInt8} {n : Nat}

theorem Built.low (hB : Built F m D t) : nmeta ≤ t.freeblock := by
  rw [hB.count]
  omega

theorem Built.inj (hB : Built F m D t) {k q r : Nat} (hi : i < NINODES) (hk : k < NINODES) (h : ptr t.img (D i) q ≠ 0)
    (e : ptr t.img (D i) q = ptr t.img (D k) r) : i = k ∧ q = r := by
  have e1 : owner sb D t.img (i, q) = ptr t.img (D i) q := if_pos hi
  have e2 : owner sb D t.img (k, r) = ptr t.img (D k) r := if_pos hk
  have := hB.own.inj (i, q) (k, r) (by rw [e1]; exact h) (by rw [e1, e2]; exact e)
  exact ⟨congrArg Prod.fst this, congrArg Prod.snd this⟩

theorem Built.range (hB : Built F m D t) {q : Nat} (hi : i < NINODES) (h : ptr t.img (D i) q ≠ 0) :
    nmeta ≤ ptr t.img (D i) q ∧ ptr t.img (D i) q < t.freeblock := by
  have e1 : owner sb D t.img (i, q) = ptr t.img (D i) q := if_pos hi
  have h1 := hB.own.range (i, q) (by rw [e1]; exact h)
  have h2 := hB.own.used_of (p := (i, q)) (by rw [e1]; exact h)
  rw [e1] at h1 h2
  exact ⟨h1.1, of_decide_eq_true h2⟩

theorem sum_cost_update (hi : i < NINODES) :
    (∑ k : Fin NINODES, cost (update D i x k) (update m i n k)) + cost (D i) (m i) =
      (∑ k : Fin NINODES, cost (D k) (m k)) + cost x n := by
  have := Lib.sum_of_ne (f := fun k : Fin NINODES => cost (update D i x k) (update m i n k))
    (g := fun k : Fin NINODES => cost (D k) (m k)) ⟨i, hi⟩ fun k hk => by
      have hne : (k : Nat) ≠ i := fun e => hk (Fin.ext e)
      rw [update_of_ne hne, update_of_ne hne]
  simpa only [update_self] using this

theorem Built.others (hB : Built F m D t) (hothers : ∀ k < NINODES, k ≠ i → Agree t.img img (D k))
    (hfile : IsFile img x c n) :
    (∀ k, 1 ≤ k → k < t.freeinode → IsFile img (update D i x k) (update F i c k) (update m i n k)) := by
  intro k h1 h2
  by_cases e : k = i
  · rw [e, update_self, update_self, update_self]
    exact hfile
  · rw [update_of_ne e, update_of_ne e, update_of_ne e]
    exact (hB.files k h1 h2).agree (hothers k (Nat.lt_of_lt_of_le h2 hB.inodes.2) e)

section

variable (hB : Built F m D t) (hi : 1 ≤ i ∧ i < t.freeinode)
include hB hi

theorem Built.rest_update : ∀ k < NINODES, k = 0 ∨ t.freeinode ≤ k → update D i x k = .zero ∧ update m i n k = 0 ∧
      update F i c k = [] := by
  intro k hk h
  have e : k ≠ i := by omega
  rw [update_of_ne e, update_of_ne e, update_of_ne e]
  exact hB.rest k hk h

theorem Built.give {q : Nat} (hq : ptr t.img (D i) q = 0)
    (hr : t.freeblock < FSSIZE) (hptr : ∀ r, ptr img x r = if r = q then t.freeblock else ptr t.img (D i) r)
    (hothers : ∀ k < NINODES, k ≠ i → Agree t.img img (D k)) (hfresh : ∀ b, t.freeblock < b → img b = fun _ => 0)
    (hfile : IsFile img x c n) (hcost : cost x n = cost (D i) (m i) + 1) :
    Built (update F i c) (update m i n) (update D i x)
      { t with img, freeblock := t.freeblock + 1 } where
  len := hB.len
  inodes := hB.inodes
  count := by
    have := hB.count
    have := sum_cost_update (m := m) (D := D) (x := x) (n := n) (Nat.lt_of_lt_of_le hi.2 hB.inodes.2)
    show t.freeblock + 1 = _
    omega
  room := hr
  own := by
    have hlt : i < NINODES := Nat.lt_of_lt_of_le hi.2 hB.inodes.2
    have h0 : owner sb D t.img (i, q) = 0 := by rw [owner, if_pos (show (i, q).1 < sb.ninodes from hlt)]; exact hq
    have := hB.own.give_next (by decide) h0 hB.low hr
    have ho : owner sb (update D i x) img = update (owner sb D t.img) (i, q) t.freeblock := by
      funext p
      rw [Fs.owner_update hlt hptr hothers p]
      by_cases e : p = (i, q)
      · rw [if_pos e, e, update_self]
      · rw [if_neg e, update_of_ne e]
    rw [ho]
    exact this
  fresh b hb := hfresh b hb
  files := hB.others hothers hfile
  rest := hB.rest_update hi

theorem Built.keep (hptr : ∀ r, ptr img x r = ptr t.img (D i) r)
    (hothers : ∀ k < NINODES, k ≠ i → Agree t.img img (D k)) (hfresh : ∀ b, t.freeblock ≤ b → img b = fun _ => 0)
    (hfile : IsFile img x c (m i)) (haddr : x.addr NDIRECT = (D i).addr NDIRECT) :
    Built (update F i c) m (update D i x) { t with img } where
  len := hB.len
  inodes := hB.inodes
  count := by
    have := hB.count
    have := sum_cost_update (m := m) (D := D) (x := x) (n := m i) (Nat.lt_of_lt_of_le hi.2 hB.inodes.2)
    rw [update_eq_self] at this
    have hcost : cost x (m i) = cost (D i) (m i) := by rw [cost, haddr, cost]
    show t.freeblock = _
    omega
  room := hB.room
  own := by
    have ho : owner sb (update D i x) img = owner sb D t.img := Fs.owner_congr sb fun k hk q => by
      by_cases e : k = i
      · rw [e, update_self, hptr]
      · rw [update_of_ne e, (hothers k hk e).ptr_eq]
    rw [ho]
    exact hB.own
  fresh b hb := hfresh b hb
  files := by
    have := hB.others (m := m) hothers hfile
    rwa [update_eq_self] at this
  rest := by
    have := hB.rest_update (m := m) (x := x) (c := c) (n := m i) hi
    rwa [update_eq_self] at this

end

theorem Built.low_write {D' : Nat → Dinode} (hB : Built F m D t) (hD : ∀ k < NINODES, D' k = D k)
    (himg : ∀ b, nmeta ≤ b → img b = t.img b) : Built F m D' { t with img } := by
  have hag : ∀ k < NINODES, Agree t.img img (D k) := fun k hk q hq => himg _ (hB.range hk hq).1
  refine ⟨hB.len, hB.inodes, ?_, hB.room, ?_, fun b hb => ?_, fun k h1 h2 => ?_, fun k hk h => ?_⟩
  · have hsum : ∑ k : Fin NINODES, cost (D' k) (m k) = ∑ k : Fin NINODES, cost (D k) (m k) :=
      Finset.sum_congr rfl fun k _ => by rw [hD k k.isLt]
    exact hB.count.trans (by rw [hsum])
  · have ho : owner sb D' img = owner sb D t.img := Fs.owner_congr sb fun k hk q => by
      rw [hD k hk]
      exact (hag k hk).ptr_eq
    rw [ho]
    exact hB.own
  · exact (himg b (Nat.le_trans hB.low hb)).trans (hB.fresh b hb)
  · have hk := Nat.lt_of_lt_of_le h2 hB.inodes.2
    rw [hD k hk]
    exact (hB.files k h1 h2).agree (hag k hk)
  · rw [hD k hk]
    exact hB.rest k hk h

end

/-! ## A block for the file -/

section

variable {F : Nat → List UInt8} {m : Nat → Nat} {D : Nat → Dinode} {t : St} {i : Nat} {x : Dinode}

theorem FSSIZE_lt : FSSIZE < 2 ^ 22 := by decide

theorem nmeta_pos : 0 < nmeta := by decide

section

variable (hB : Built F m D t) (hi : 1 ≤ i ∧ i < t.freeinode)
include hB hi

theorem Built.direct (hm : m i < NDIRECT) (hr : t.freeblock < FSSIZE) :
    Built F (update m i (m i + 1)) (update D i ((D i).setAddr (m i) t.freeblock))
      { t with freeblock := t.freeblock + 1 } := by
  have hf := hB.files i hi.1 hi.2
  have hplace : place (m i) = m i := if_pos hm
  have hptr : ∀ r, ptr t.img ((D i).setAddr (m i) t.freeblock) r = if r = m i then t.freeblock else ptr t.img (D i) r :=
    fun r => Fs.ptr_setAddr hf.type hm _
  have h0 : ptr t.img (D i) (m i) = 0 := by
    have := (hf.blks (m i)).not.mpr (Nat.lt_irrefl _)
    rwa [Fs.blk, hplace, ne_eq, not_not] at this
  have hlow := hB.low
  have hfresh := hB.fresh t.freeblock (Nat.le_refl _)
  have hpos := nmeta_pos
  have hlt := FSSIZE_lt
  have hn : ((D i).setAddr (m i) t.freeblock).addr NDIRECT = (D i).addr NDIRECT := by
    rw [(D i).addr_setAddr _ _ (by omega), if_neg (by omega)]
  have hnew : IsFile t.img ((D i).setAddr (m i) t.freeblock) (F i) (m i + 1) :=
    hf.grow (Nat.lt_of_lt_of_le hm (by decide)) (by rw [hplace]; exact hptr) (by omega) hfresh (fun _ _ => rfl) hf.type
      (hf.fits.setAddr (by omega)) rfl fun h => by omega
  have := hB.give hi h0 hr hptr (fun _ _ _ _ _ => rfl) (fun b hb => hB.fresh b (Nat.le_of_lt hb)) hnew
    (by rw [cost, hn, cost]; omega)
  rwa [update_eq_self] at this

theorem Built.indirect (h0 : (D i).addr NDIRECT = 0) (hr : t.freeblock < FSSIZE) :
    Built F m (update D i ((D i).setAddr NDIRECT t.freeblock)) { t with freeblock := t.freeblock + 1 } := by
  have hf := hB.files i hi.1 hi.2
  have hfresh := hB.fresh t.freeblock (Nat.le_refl _)
  have hlow := hB.low
  have hpos := nmeta_pos
  have hlt := FSSIZE_lt
  have hptr : ∀ r, ptr t.img ((D i).setAddr NDIRECT t.freeblock) r = if r = NDIRECT then t.freeblock else ptr t.img (D i) r :=
    fun r => Fs.ptr_setIndirect hf.type h0 hfresh
  have hblk : ∀ n, blk t.img ((D i).setAddr NDIRECT t.freeblock) n = blk t.img (D i) n := fun n => by
    rw [blk, hptr, if_neg Fs.place_ne, blk]
  have hn : ((D i).setAddr NDIRECT t.freeblock).addr NDIRECT = t.freeblock := by
    rw [(D i).addr_setAddr _ _ (Nat.le_refl _), if_pos rfl]
  have hnew : IsFile t.img ((D i).setAddr NDIRECT t.freeblock) (F i) (m i) :=
    hf.same hblk (fun _ _ => rfl) hf.type (hf.fits.setAddr (by omega)) rfl fun _ => by omega
  have hq : ptr t.img (D i) NDIRECT = 0 := by rw [Fs.ptr_direct hf.type (Nat.le_refl _), h0]
  have := hB.give hi hq hr hptr (fun _ _ _ _ _ => rfl) (fun b hb => hB.fresh b (Nat.le_of_lt hb)) hnew
    (by rw [cost, cost, h0, hn, if_neg (by omega), if_pos rfl])
  rwa [update_eq_self, update_eq_self] at this

theorem Built.word (h0 : (D i).addr NDIRECT ≠ 0) {k : Nat} (hk : k < NINDIRECT)
    (hm : m i = NDIRECT + k) (hr : t.freeblock < FSSIZE) :
    Built F (update m i (m i + 1)) D { t with
      img := update t.img ((D i).addr NDIRECT) (setWord (t.img ((D i).addr NDIRECT)) (4 * k) t.freeblock)
      freeblock := t.freeblock + 1 } := by
  have hf := hB.files i hi.1 hi.2
  have hlt : i < NINODES := Nat.lt_of_lt_of_le hi.2 hB.inodes.2
  have hlow := hB.low
  have hpos := nmeta_pos
  have hlt22 := FSSIZE_lt
  have hfresh := hB.fresh t.freeblock (Nat.le_refl _)
  have hplace : place (m i) = NDIRECT + 1 + k := by rw [place, if_neg (by omega)]; omega
  have hind : ptr t.img (D i) NDIRECT = (D i).addr NDIRECT := Fs.ptr_direct hf.type (Nat.le_refl _)
  have hrange := hB.range hlt (q := NDIRECT) (by rw [hind]; exact h0)
  rw [hind] at hrange
  generalize himg : update t.img ((D i).addr NDIRECT) (setWord (t.img ((D i).addr NDIRECT)) (4 * k) t.freeblock) = img
  have hother : ∀ b, b ≠ (D i).addr NDIRECT → img b = t.img b := fun b hb => by rw [← himg, update_of_ne hb]
  have hptr : ∀ r, ptr img (D i) r = if r = NDIRECT + 1 + k then t.freeblock else ptr t.img (D i) r := fun r =>
    Fs.ptr_setWord hf.type h0 hk (by omega) (by rw [← himg, update_self])
  have hq : ptr t.img (D i) (NDIRECT + 1 + k) = 0 := by
    have := (hf.blks (m i)).not.mpr (Nat.lt_irrefl _)
    rwa [Fs.blk, hplace, ne_eq, not_not] at this
  have hdata : ∀ n < m i, img (blk t.img (D i) n) = t.img (blk t.img (D i) n) := fun n hn => by
    refine hother _ fun e => ?_
    have := hB.inj hlt hlt ((hf.blks n).mpr hn) (r := NDIRECT) (by rw [hind]; exact e)
    exact Fs.place_ne this.2
  have hothers : ∀ j < NINODES, j ≠ i → Agree t.img img (D j) := fun j hj hji q hq => by
    refine hother _ fun e => ?_
    exact hji (hB.inj hj hlt hq (r := NDIRECT) (by rw [hind]; exact e)).1
  have hnew : IsFile img (D i) (F i) (m i + 1) :=
    hf.grow (by rw [hm]; show NDIRECT + k < NDIRECT + NINDIRECT; omega) (by rw [hplace]; exact hptr) (by omega)
      (by rw [hother _ (by omega)]; exact hfresh) hdata hf.type hf.fits rfl fun _ => h0
  have := hB.give hi hq hr hptr hothers
    (fun b hb => by rw [hother _ (by omega)]; exact hB.fresh b (Nat.le_of_lt hb)) hnew (by unfold cost; omega)
  rwa [update_eq_self, update_eq_self] at this

end

/-! ## imap -/

variable {E : Fail → Prop}

theorem wp_assert {p : Prop} [Decidable p] {Q : Unit → St → Prop} (ht : p → Q () t) (hf : ¬ p → E .assert) :
    Wp E (assert p) t Q := wp_ite ht hf

theorem wp_rsect {b : Nat} {Q : Block → St → Prop} (hb : b < 2 ^ 22) (ht : b < t.len → Q (t.img b) t)
    (hf : t.len ≤ b → E .die) : Wp E (rsect b) t Q := by
  simp only [rsect, wp_bind, wp_get, Nat.mod_eq_of_lt hb]
  exact wp_ite ht fun h => hf (Nat.le_of_not_lt h)

theorem wp_wsect {b : Nat} {v : Block} {Q : Unit → St → Prop} (hlen : t.len = FSSIZE) (hb : b < FSSIZE)
    (h : Q () { t with img := update t.img b v }) : Wp E (wsect b v) t Q := by
  have hlt := FSSIZE_lt
  have hmax : max t.len (b + 1) = t.len := Nat.max_eq_left (by omega)
  simp only [wsect, wp_modify, Nat.mod_eq_of_lt (Nat.lt_trans hb hlt), hmax]
  exact h

@[simp] theorem wp_newblock {Q : Nat → St → Prop} :
    Wp E newblock t Q = Q t.freeblock { t with freeblock := t.freeblock + 1 } := rfl

/-- No indirect block but for the blocks past the direct ones. -/
def Tight (x : Dinode) (n : Nat) : Prop := x.addr NDIRECT ≠ 0 → NDIRECT < n

/-- The blocks that `imap` and `iappend` change are data blocks. -/
structure Frame (t t' : St) : Prop where
  freeinode : t'.freeinode = t.freeinode
  low : ∀ b < nmeta, t'.img b = t.img b

theorem Frame.refl : Frame t t := ⟨rfl, fun _ _ => rfl⟩

theorem Frame.trans {t' t'' : St} (h : Frame t t') (h' : Frame t' t'') : Frame t t'' :=
  ⟨h'.freeinode.trans h.freeinode, fun b hb => (h'.low b hb).trans (h.low b hb)⟩

/-- What `imap` does for the block at index `fbn`: the inode is `x'`, the block `b`. -/
structure Found (F : Nat → List UInt8) (m : Nat → Nat) (D : Nat → Dinode) (i fbn : Nat) (x x' : Dinode) (b : Nat) (t t' : St) :
    Prop where
  built : Built F (update m i (max (m i) (fbn + 1))) (update D i { x' with size := (F i).length }) t'
  blk : b = blk t'.img x' fbn
  tight : Tight x' (max (m i) (fbn + 1))
  kind : x'.type = x.type ∧ x'.nlink = x.nlink
  frame : Frame t t'

/-- The blocks that an index needs are not there. -/
def Full (t : St) (n n' : Nat) : Prop := FSSIZE < t.freeblock + (need n' - need n)

theorem need_of_direct {n : Nat} (h : n < NDIRECT) : need (n + 1) - need n = 1 := by
  rw [need, need, if_neg (by omega), if_neg (by omega)]
  omega

theorem need_of_indirect {n : Nat} (h : NDIRECT < n) : need (n + 1) - need n = 1 := by
  rw [need, need, if_pos (by omega), if_pos h]
  omega

theorem need_at_indirect : need (NDIRECT + 1) - need NDIRECT = 2 := by decide

theorem blk_size (d : Disk) (x : Dinode) (n s : Nat) : blk d { x with size := s } n = blk d x n := rfl

theorem place_indirect (k : Nat) : place (NDIRECT + k) = NDIRECT + 1 + k := by
  rw [place, if_neg (by omega)]
  omega

/-- What `imap` ends with: the block, or a number past the end of the image. -/
def Mapped (E : Fail → Prop) (F : Nat → List UInt8) (m : Nat → Nat) (D : Nat → Dinode) (i fbn : Nat) (x : Dinode) (t : St)
    (r : Dinode × Nat) (t' : St) : Prop :=
  Found F m D i fbn x r.1 r.2 t t' ∨ (FSSIZE ≤ r.2 ∧ r.2 < 2 ^ 22 ∧ t'.len = FSSIZE ∧ E .die)

theorem wp_imapWord {y : Dinode} {u : St} (hU : Built F m (update D i { y with size := (F i).length }) u)
    (hi : 1 ≤ i ∧ i < u.freeinode) (hy : y.addr NDIRECT ≠ 0) (hfr : Frame t u) (hkind : y.type = x.type ∧ y.nlink = x.nlink)
    {k : Nat} (hk : k < NINDIRECT) (hle : NDIRECT + k ≤ m i) (hE : m i = NDIRECT + k → FSSIZE < u.freeblock + 1 → E .die) :
    Wp E (imapWord y (NDIRECT + k)) u (Mapped E F m D i (NDIRECT + k) x t) := by
  have hself : update D i { y with size := (F i).length } i = { y with size := (F i).length } := update_self ..
  have hlt : i < NINODES := Nat.lt_of_lt_of_le hi.2 hU.inodes.2
  have hf := hU.files i hi.1 hi.2
  rw [hself] at hf
  have hty : y.type ≠ 0 := hf.type
  have hind : ptr u.img (update D i { y with size := (F i).length } i) NDIRECT = y.addr NDIRECT := by
    rw [hself]
    exact Fs.ptr_direct (x := y) hty (Nat.le_refl _)
  have hrange := hU.range hlt (q := NDIRECT) (by rw [hind]; exact hy)
  rw [hind] at hrange
  have hroom := hU.room
  have hlow := hU.low
  have hlt22 := FSSIZE_lt
  have hblk : ∀ d, blk d y (NDIRECT + k) = Xv6.word (d (y.addr NDIRECT)) (4 * k) := fun d => by
    rw [blk, place_indirect, Fs.ptr_indirect hty hy hk]
  simp only [imapWord, Nat.add_sub_cancel_left, wp_bind]
  refine wp_rsect (by omega) (fun _ => ?_) fun h => absurd (hU.len ▸ h) (by omega)
  refine wp_ite (fun h0 => ?_) fun h0 => .inl ?_
  · have hm : m i = NDIRECT + k := by
      have := (hf.blks (NDIRECT + k)).not.mp (by rw [blk_size, hblk, h0]; simp)
      omega
    have e : max (m i) (NDIRECT + k + 1) = m i + 1 := by omega
    simp only [wp_bind, wp_newblock, wp_pure]
    refine wp_wsect hU.len (by omega) ?_
    have hw : Xv6.word (setWord (u.img (y.addr NDIRECT)) (4 * k) u.freeblock) (4 * k) = u.freeblock := by
      rw [word_setWord, Nat.mod_eq_of_lt (by omega)]
    rw [hw]
    rcases Nat.lt_or_ge u.freeblock FSSIZE with hr | hr
    · left
      have hB' := hU.word hi (by rw [hself]; exact hy) hk hm hr
      rw [hself] at hB'
      refine ⟨?_, ?_, fun _ => by omega, hkind, hfr.freeinode, fun b hb => ?_⟩
      · rw [e]
        exact hB'
      · rw [hblk]
        show _ = Xv6.word (update u.img _ _ _) _
        rw [update_self, hw]
      · exact (update_of_ne (by omega) ..).trans (hfr.low b hb)
    · exact .inr ⟨hr, Nat.lt_of_le_of_lt hroom hlt22, hU.len, hE hm (by omega)⟩
  · have hlt' := (hf.blks (NDIRECT + k)).mp (by rw [blk_size, hblk]; exact h0)
    have e : max (m i) (NDIRECT + k + 1) = m i := Nat.max_eq_left hlt'
    refine ⟨?_, (hblk _).symm, fun _ => by omega, hkind, hfr⟩
    rw [e, update_eq_self]
    exact hU

theorem wp_imap (hB : Built F m D t) (hi : 1 ≤ i ∧ i < t.freeinode) (hx : D i = { x with size := (F i).length }) {fbn : Nat}
    (hfbn : fbn ≤ m i) (hmax : fbn < MAXFILE) (hT : Tight x (m i)) (hE : Full t (m i) (max (m i) (fbn + 1)) → E .die) :
    Wp E (imap x fbn) t (Mapped E F m D i fbn x t) := by
  have hf := hB.files i hi.1 hi.2
  have htype : x.type ≠ 0 := by have := hf.type; rw [hx] at this; exact this
  have hroom := hB.room
  have hlow := hB.low
  have hlt22 := FSSIZE_lt
  have hpos := nmeta_pos
  have haddr : (D i).addr NDIRECT = x.addr NDIRECT := by rw [hx]; rfl
  simp only [imap]
  refine wp_ite (fun hdir => ?_) fun hdir => ?_
  · have hblk : ∀ y : Dinode, y.type ≠ 0 → blk t.img y fbn = y.addr fbn := fun y hy => by
      rw [blk, place, if_pos hdir, Fs.ptr_direct hy (by omega)]
    have hb : blk t.img (D i) fbn = x.addr fbn := by rw [hx]; exact hblk x htype
    refine wp_ite (fun h0 => ?_) fun h0 => .inl ?_
    · have hm : m i = fbn := by
        have := (hf.blks fbn).not.mp (by rw [hb, h0]; simp)
        omega
      have e : max (m i) (fbn + 1) = m i + 1 := by omega
      have hnew : (x.setAddr fbn t.freeblock).addr fbn = t.freeblock := by
        rw [x.addr_setAddr _ _ (by omega), if_pos rfl]
      simp only [wp_bind, wp_newblock, wp_pure, hnew]
      rcases Nat.lt_or_ge t.freeblock FSSIZE with hr | hr
      · left
        refine ⟨?_, ?_, fun hn => ?_, ⟨rfl, rfl⟩, rfl, fun _ _ => rfl⟩
        · have := hB.direct hi (by omega) hr
          rw [hx, hm] at this
          rw [e, hm]
          exact this
        · exact hnew.symm.trans (hblk (x.setAddr fbn t.freeblock) htype).symm
        · rw [x.addr_setAddr _ _ (by omega), if_neg (by omega)] at hn
          have := hT hn
          omega
      · exact .inr ⟨hr, Nat.lt_of_le_of_lt hroom hlt22, hB.len, hE (by rw [Full, e, need_of_direct (by omega)]; omega)⟩
    · have hlt := (hf.blks fbn).mp (by rw [hb]; exact h0)
      have e : max (m i) (fbn + 1) = m i := Nat.max_eq_left hlt
      refine ⟨?_, (hblk x htype).symm, by rw [e]; exact hT, ⟨rfl, rfl⟩, .refl⟩
      rw [e, update_eq_self, ← hx, update_eq_self]
      exact hB
  · obtain ⟨k, rfl⟩ : ∃ k, fbn = NDIRECT + k := ⟨fbn - NDIRECT, by omega⟩
    have hk : k < NINDIRECT := by
      have : NDIRECT + k < NDIRECT + NINDIRECT := hmax
      omega
    refine wp_ite (fun h0 => ?_) fun h0 => ?_
    · have hm : m i = NDIRECT := by
        have : ¬ NDIRECT < m i := fun h => hf.indirect h (haddr.trans h0)
        omega
      have hk0 : k = 0 := by omega
      subst hk0
      have hfull : FSSIZE < t.freeblock + 2 → E .die := fun h => hE (by
        rw [Full, show max (m i) (NDIRECT + 0 + 1) = NDIRECT + 1 by omega, hm, need_at_indirect]
        exact h)
      have hnew : (x.setAddr NDIRECT t.freeblock).addr NDIRECT = t.freeblock := by
        rw [x.addr_setAddr _ _ (Nat.le_refl _), if_pos rfl]
      simp only [wp_bind, wp_newblock]
      rcases Nat.lt_or_ge t.freeblock FSSIZE with hr | hr
      · have hB' := hB.indirect hi (haddr.trans h0) hr
        rw [hx] at hB'
        have hy : (x.setAddr NDIRECT t.freeblock).addr NDIRECT ≠ 0 := by omega
        exact wp_imapWord (x := x) (t := t) (y := x.setAddr NDIRECT t.freeblock)
          (u := { t with freeblock := t.freeblock + 1 }) hB'
          hi hy ⟨rfl, fun _ _ => rfl⟩ ⟨rfl, rfl⟩ hk hfbn fun _ => hfull
      · -- there is no block for the indirect block
        simp only [imapWord, wp_bind, hnew]
        refine wp_rsect (by omega) (fun h => ?_) fun _ => hfull (by omega)
        have := hB.len
        exact absurd (show t.freeblock < t.len from h) (by omega)
    · have hlt := hT h0
      refine wp_imapWord (by rw [← hx, update_eq_self]; exact hB) hi h0 .refl ⟨rfl, rfl⟩ hk hfbn fun hm h => hE ?_
      rw [Full, show max (m i) (NDIRECT + k + 1) = m i + 1 by omega, need_of_indirect hlt]
      exact h

end

end Xv6.Mkfs
