/-
  Xv6.Fs.Contents — a file is an array of bytes (kernel/fs.c: bmap, readi, writei).

  For any inode that has a block for each of its bytes, in a file system whose blocks are owned
  once each; other inodes may have holes.
-/

import Xv6.Fs.Reach

namespace Xv6.Fs

variable {sb : Superblock} {s s' : Core} {i j : Nat}

def contents (d : Disk) (x : Dinode) : List UInt8 := bytes d x 0 x.size

/-- The inode has its fields, its blocks and what is in them. -/
structure Unchanged (sb : Superblock) (s s' : Core) (k : Nat) : Prop where
  inode : dinode sb s'.disk k = dinode sb s.disk k
  blk : ∀ n, blk s'.disk (dinode sb s.disk k) n = blk s.disk (dinode sb s.disk k) n
  data : ∀ n, Fs.blk s.disk (dinode sb s.disk k) n ≠ 0 →
    s'.disk (Fs.blk s.disk (dinode sb s.disk k) n) = s.disk (Fs.blk s.disk (dinode sb s.disk k) n)

section

variable {d d' : Disk} {x y : Dinode}

@[simp] theorem length_bytes (d : Disk) (x : Dinode) (o n : Nat) : (bytes d x o n).length = n := by simp [bytes]

@[simp] theorem length_contents (d : Disk) (x : Dinode) : (contents d x).length = x.size := length_bytes ..

theorem bytes_congr {o n : Nat} {f : Nat → UInt8} (h : ∀ k < n, byteAt d x (o + k) = f k) :
    bytes d x o n = (List.range n).map f :=
  List.map_congr_left fun k hk => h k (List.mem_range.mp hk)

theorem take_contents {o : Nat} (ho : o ≤ x.size) : (contents d x).take o = bytes d x 0 o := by
  have : x.size = o + (x.size - o) := by omega
  rw [contents, this, bytes_add, List.take_left' (length_bytes ..)]

theorem drop_contents {o : Nat} (ho : o ≤ x.size) : (contents d x).drop o = bytes d x o (x.size - o) := by
  have : x.size = o + (x.size - o) := by omega
  rw [contents, this, bytes_add, List.drop_left' (length_bytes ..), Nat.zero_add, Nat.add_sub_cancel_left]

theorem slice_contents {o n : Nat} (ho : o ≤ x.size) : ((contents d x).drop o).take n = bytes d x o (min n (x.size - o)) := by
  rw [drop_contents ho]
  rcases Nat.le_total n (x.size - o) with h | h
  · have : x.size - o = n + (x.size - o - n) := by omega
    rw [Nat.min_eq_left h, this, bytes_add, List.take_left' (length_bytes ..)]
  · rw [Nat.min_eq_right h, List.take_of_length_le (by rw [length_bytes]; exact h)]

theorem contents_write {off n : Nat} {src : Nat → UInt8} (hoff : off ≤ x.size) (hsize : y.size = max x.size (off + n))
    (hin : ∀ k < n, byteAt d' y (off + k) = src k)
    (hout : ∀ o, o < x.size → ¬ (off ≤ o ∧ o < off + n) → byteAt d' y o = byteAt d x o) :
    contents d' y = (contents d x).take off ++ (List.range n).map src ++ (contents d x).drop (off + n) := by
  have hsplit : y.size = off + n + (y.size - (off + n)) := by omega
  rw [contents, hsplit, bytes_add, bytes_add, Nat.zero_add, Nat.zero_add, take_contents hoff]
  congr 1
  · congr 1
    · refine bytes_congr fun k hk => ?_
      rw [Nat.zero_add]
      exact hout k (by omega) (by omega)
    · exact bytes_congr hin
  · rcases Nat.le_total (off + n) x.size with h | h
    · have : y.size - (off + n) = x.size - (off + n) := by omega
      rw [drop_contents h, this]
      exact bytes_congr fun k hk => hout _ (by omega) (by omega)
    · have : y.size - (off + n) = 0 := by omega
      rw [List.drop_eq_nil_of_le (by rw [length_contents]; exact h), this]
      rfl

end

/-- What `readi` into kernel memory returns of a file that has its blocks. -/
theorem readi_slice {x : Dinode} (hc : (s.itable j).d = x) (ht : x.type ≠ 0) (hs : Sound s.disk x) {off n : Nat} (hn : n < 2 ^ 32)
    {l : List UInt8} (hl : l = if x.size < off ∨ 2 ^ 32 ≤ off + n then [] else ((contents s.disk x).drop off).take n) :
    readi sb j none off n s = .ok (((l.length : Int), l), s) := by
  by_cases hbad : x.size < off ∨ 2 ^ 32 ≤ off + n
  · rw [if_pos hbad] at hl
    subst hl
    refine readi_none hc ?_
    rcases Nat.lt_or_ge x.size off with h | h
    · exact .inl h
    · have := hs.size
      have hmax : MAXFILE * BSIZE < 2 ^ 32 := by decide
      rw [Nat.mod_eq_sub_mod (by omega), Nat.mod_eq_of_lt (by omega)]
      omega
  · rw [if_neg hbad, slice_contents (by omega)] at hl
    have hw : Lib.Wp (fun _ => False) (readi sb j none off n) s _ := wp_readi_part hc ht hs (by omega) (by omega)
    obtain ⟨r, t, hrun, rfl, hr⟩ := hw.returns
    rcases hr with ⟨h, -⟩ | hr
    · exact absurd rfl h
    · rw [hrun, hr, hl, length_bytes]

section

variable {src : Nat → UInt8} {off tot : Nat} {y : Dinode}

theorem Stored.unchanged (h : Stored sb i j s src off tot tot y s') {k : Nat} (hk : k < sb.ninodes) (hki : k ≠ i) :
    Unchanged sb s s' k := by
  have ha := h.others k hk hki
  refine ⟨?_, fun n => ha.ptr_eq, fun n hn => ha _ hn⟩
  rw [h.mid.disk k hk hki, Function.update_of_ne hki]

theorem Stored.contents (h : Stored sb i j s src off tot tot y s') (hs : Sound s.disk (dinode sb s.disk i))
    (hoff : off ≤ (dinode sb s.disk i).size) :
    Fs.contents s'.disk y = (Fs.contents s.disk (dinode sb s.disk i)).take off ++ (List.range tot).map src ++
      (Fs.contents s.disk (dinode sb s.disk i)).drop (off + tot) := by
  refine contents_write hoff h.size (fun k hk => ?_) fun o ho hn => ?_
  · rw [byteAt, if_pos (by rw [h.size]; omega), (h.written (off + k) (by omega) (by omega)).2, Nat.add_sub_cancel_left]
  · have hb := hs.blk_ne ho
    have e : blk s'.disk y (o / BSIZE) = blk s.disk (dinode sb s.disk i) (o / BSIZE) := h.ptr _ hb
    rw [byteAt, byteAt, if_pos (by rw [h.size]; omega), if_pos ho, e, h.kept o hb hn]

end

/-- `writei` and `readi` on an array of bytes. `x` and `y` are the inode before and after. -/
theorem writei_contents (hL : Layout sb) (hm : Mid sb (dinode sb s.disk) i s) (hj : Holds s j i)
    (hs : Sound s.disk (dinode sb s.disk i)) (ho : 0 < s.outstanding) (src : Nat → UInt8) (off n : Nat) (hn : n < 2 ^ 32) :
    ∃ r s', writei sb j src none off n s = .ok (r, s') ∧
      let x := dinode sb s.disk i
      let y := dinode sb s'.disk i
      (r = -1 ∧ s' = s ↔ x.size < off ∨ 2 ^ 32 ≤ off + n ∨ MAXFILE * BSIZE < off + n) ∧
      (¬ (r = -1 ∧ s' = s) → ∃ tot ≤ n, r = (tot : Nat) ∧
        (tot < n → blk s.disk x ((off + tot) / BSIZE) = 0 ∧ NoSpace sb s'.disk) ∧
        contents s'.disk y = (contents s.disk x).take off ++ (List.range tot).map src ++ (contents s.disk x).drop (off + tot) ∧
        y.size = max x.size (off + tot) ∧
        ∀ k < sb.ninodes, k ≠ i → Unchanged sb s s' k) ∧
      ∀ off' n', n' < 2 ^ 32 → ∀ l,
        l = (if y.size < off' ∨ 2 ^ 32 ≤ off' + n' then [] else ((contents s'.disk y).drop off').take n') →
        readi sb j none off' n' s' = .ok (((l.length : Int), l), s') := by
  obtain ⟨hcopy, htype⟩ := hm.copy_eq hj
  have hmax : MAXFILE * BSIZE < 2 ^ 32 := by decide
  have hsize := hs.size
  have hw : Lib.Wp (fun _ => False) (writei sb j src none off n) s _ := wp_writei_stored hL hm hj ho hn
  obtain ⟨r, s', hrun, h⟩ := hw.returns
  refine ⟨r, s', hrun, ?_⟩
  rcases h with ⟨rfl, rfl, hbad⟩ | ⟨tot, w, y, rfl, hoff, hle, hend, h, -⟩
  · refine ⟨⟨fun _ => by omega, fun _ => ⟨rfl, rfl⟩⟩, fun h => absurd ⟨rfl, rfl⟩ h, fun off' n' hn' l hl => ?_⟩
    exact readi_slice hcopy htype hs hn' hl
  · have hwrote : Wrote none 0 off n tot w := hend.wrote fun m hm => absurd hm (Nat.not_lt_zero _)
    obtain rfl : w = tot := hwrote.kernel rfl
    have htot := hwrote.le_n
    rw [h.disk]
    refine ⟨⟨fun h => absurd h.1 (by omega), fun h => by omega⟩, fun _ => ?_, fun off' n' hn' l hl => ?_⟩
    · refine ⟨w, htot, rfl, fun hlt => ?_, h.contents hs hoff, h.size, fun k hk hki => h.unchanged hk hki⟩
      cases hend with
      | done => exact absurd hlt (Nat.lt_irrefl _)
      | full _ _ h0 hfull =>
        refine ⟨?_, hfull⟩
        by_contra hb
        exact hb ((h.ptr _ hb).symm.trans h0)
      | copy hl => cases hl
    · refine readi_slice ?_ (by rw [h.same.1]; exact htype) (h.sound hs hoff (Nat.le_refl _) (by omega)) hn' hl
      rw [h.itable, setD_self]

/-! ## A small file system -/

/-- The small image in a transaction, with the root directory in entry 0. -/
def tinyOpen : Core :=
  { (boot (tiny 0x3f)).core with
    itable := Function.update (boot (tiny 0x3f)).core.itable 0 ⟨ROOTINO, 1, true, tinyRoot⟩
    outstanding := 1 }

theorem tinyOpen_root : dinode tinySb tinyOpen.disk ROOTINO = tinyRoot := tiny_dinode_root

theorem tinyOpen_holds : Holds tinyOpen 0 ROOTINO := ⟨by decide, rfl, rfl⟩

theorem tinyOpen_ref {k : Nat} (h : 0 < (tinyOpen.itable k).ref) : k = 0 := by
  by_contra e
  have : (tinyOpen.itable k).ref = refs (boot (tiny 0x3f)).core k := by
    show (Function.update (boot (tiny 0x3f)).core.itable 0 _ k).ref = _
    rw [Function.update_of_ne e]
    rfl
  rw [this] at h
  exact e (boot_ref h)

theorem tinyOpen_mid : Mid tinySb (dinode tinySb tinyOpen.disk) ROOTINO tinyOpen := by
  refine ⟨tiny_image.blocks, ⟨fun k hk => ?_, fun k l hk hl _ => (tinyOpen_ref hk).trans (tinyOpen_ref hl).symm, fun k hk => ?_,
    fun _ _ => rfl, fun k hk _ => ?_⟩, fun _ _ _ => rfl⟩
  · by_contra hne
    have h0 := tinyOpen_ref (Nat.pos_of_ne_zero hne)
    rw [h0] at hk
    exact absurd hk (by decide)
  · rw [tinyOpen_ref hk]
    exact (by decide : ROOTINO < tinySb.ninodes)
  · rw [tinyOpen_ref hk]
    exact ⟨tinyOpen_root.symm, by decide⟩

theorem tinyOpen_sound : Sound tinyOpen.disk (dinode tinySb tinyOpen.disk ROOTINO) :=
  tiny_flat.sound (by decide)

/-- Two bytes at the end. -/
theorem writei_contents_tiny : ∃ r s', writei tinySb 0 (fun _ => 7) none 32 2 tinyOpen = .ok (r, s') ∧ r = 2 ∧
    contents s'.disk (dinode tinySb s'.disk ROOTINO) =
      contents tinyOpen.disk (dinode tinySb tinyOpen.disk ROOTINO) ++ [7, 7] := by
  obtain ⟨r, s', hrun, hbad, hok, -⟩ := writei_contents tiny_layout tinyOpen_mid tinyOpen_holds tinyOpen_sound (by decide)
    (fun _ => 7) 32 2 (by decide)
  have hsize : (dinode tinySb tinyOpen.disk ROOTINO).size = 32 := congrArg Dinode.size tinyOpen_root
  have hmax : MAXFILE * BSIZE = 274432 := by decide
  obtain ⟨tot, htot, hr, hfull, hc, -⟩ := hok (fun h => by have := hbad.mp h; omega)
  have htwo : tot = 2 := by
    by_contra hne
    have h0 := (hfull (by omega)).1
    have hdiv : (32 + tot) / BSIZE = 0 := Nat.div_eq_of_lt (by unfold BSIZE; omega)
    rw [hdiv, blk, show tinyOpen.disk = tiny 0x3f from rfl, tiny_flat.ptr_root] at h0
    exact absurd h0 (by decide)
  subst htwo
  rw [List.take_of_length_le (by rw [length_contents, hsize]), List.drop_eq_nil_of_le (by rw [length_contents, hsize]; decide),
    List.append_nil] at hc
  exact ⟨r, s', hrun, hr, hc⟩

end Xv6.Fs
