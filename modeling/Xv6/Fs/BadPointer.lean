/-
  Xv6.Fs.BadPointer — a write from user memory that is only partly mapped (kernel/fs.c: writei;
  kernel/vm.c: copyin).

  `either_copyin` copies straight into the buffer and fails when it comes to a page that is not
  mapped; what it has copied by then stays in the buffer, and `writei` leaves the loop without
  `log_write`.
-/

import Xv6.Fs.Logged

namespace Xv6.Fs

open Function (update update_self)

variable {sb : Superblock} {E : Panic → Prop} {D : Nat → Dinode} {s s' t : Core} {i j : Nat}

/-! ## What later reads see -/

/-- The byte at offset `o` that `readi` copies: a block that it has to allocate is zero. -/
def seen (d : Disk) (x : Dinode) (o : Nat) : UInt8 :=
  if blk d x (o / BSIZE) = 0 then 0 else d (blk d x (o / BSIZE)) (o % BSIZE)

/-- What the cache may show: a buffer that is not in the transaction can be evicted, and its block read again. -/
def Later (s : Core) (d : Disk) : Prop := ∀ b, d b = s.disk b ∨ (s.logged b = false ∧ d b = s.home b)

structure LeftAlone (sb : Superblock) (i : Nat) (s s' : Core) (start : Nat) : Prop where
  bytes : ∀ d, Later s' d → ∀ o, start ≤ o → o < (dinode sb s.disk i).size →
    seen d (dinode sb s'.disk i) o = seen s.disk (dinode sb s.disk i) o
  logged : ∀ b, (∃ k < BSIZE, s'.disk b k ≠ s.disk b k) → s'.logged b = true

/-- How many bytes are written when only `l` bytes of the source are mapped: those of the chunks before the one
    that the `l` bytes end in. -/
def copied (off l : Nat) : Nat := if l < BSIZE - off % BSIZE then 0 else (off + l) / BSIZE * BSIZE - off

/-- The failing copy changes no byte, but bytes after the end of the file in a block that is new or in the transaction. -/
def Harmless (sb : Superblock) (i : Nat) (s : Core) (src : Nat → UInt8) (off l : Nat) : Prop :=
  ∀ k, copied off l ≤ k → k < l →
    (off + k < (dinode sb s.disk i).size ∨ (blk s.disk (dinode sb s.disk i) ((off + copied off l) / BSIZE) ≠ 0 ∧
      s.logged (blk s.disk (dinode sb s.disk i) ((off + copied off l) / BSIZE)) = false)) →
    src k = seen s.disk (dinode sb s.disk i) (off + k)

theorem copied_eq {off l tot m : Nat} (hle : tot ≤ l) (hlt : l < tot + min m (BSIZE - (off + tot) % BSIZE))
    (hal : tot = 0 ∨ (off + tot) % BSIZE = 0) : copied off l = tot := by
  unfold copied
  by_cases h : l < BSIZE - off % BSIZE
  · rw [if_pos h]
    simp only [BSIZE] at *
    omega
  · rw [if_neg h]
    simp only [BSIZE] at *
    omega

/-! ## What is in the transaction -/

/-- At the start of the chunk at `off + tot`, in a `writei` that started in `s`: what has changed is in the transaction,
    and the blocks from here on are as they were. -/
structure Recorded (D : Nat → Dinode) (i : Nat) (s : Core) (M : Nat) (x : Dinode) (t : Core) : Prop where
  dirty : ∀ b, t.disk b ≠ s.disk b → t.logged b = true
  mono : ∀ b, s.logged b = true → t.logged b = true
  blk : ∀ m, M ≤ m → blk t.disk x m = blk s.disk (D i) m
  ahead : ∀ m, M ≤ m → Fs.blk s.disk (D i) m ≠ 0 → t.logged (Fs.blk s.disk (D i) m) = s.logged (Fs.blk s.disk (D i) m)

section

variable {M r : Nat} {A B : Finset Nat} {x x1 : Dinode} {t1 t2 : Core}

theorem Recorded.adds (h : Recorded D i s M x t) (ha : Adds A t t1) :
    (∀ b, t1.disk b ≠ s.disk b → t1.logged b = true) ∧ ∀ b, s.logged b = true → t1.logged b = true := by
  refine ⟨fun b hb => ?_, fun b hb => (ha.logged b).mpr (.inl (h.mono b hb))⟩
  by_cases hA : b ∈ A
  · exact (ha.logged b).mpr (.inr hA)
  · rw [ha.disk b hA] at hb
    exact (ha.logged b).mpr (.inl (h.dirty b hb))

theorem Round.not_mem (hr : Round sb j M t r t1 A B x x1) (hmid : Mid sb (update D i x1) i t1) (hi : i < sb.ninodes)
    (htype : x1.type ≠ 0) (hret : blk t1.disk x1 M = r) {m : Nat} (hm : m ≠ M) (hb : blk t1.disk x1 m ≠ 0) :
    blk t1.disk x1 m ∉ A := by
  have hself : update D i x1 i = x1 := update_self ..
  have hinj : ∀ q, place m ≠ q → blk t1.disk x1 m ≠ ptr t1.disk x1 q := fun q hq e => by
    have := hmid.blocks.inj hi hi (q := place m) (r := q)
    rw [hself] at this
    exact hq (this hb e).2
  intro hA
  have hsub := hr.sub hA
  simp only [Finset.mem_union, Finset.mem_singleton] at hsub
  rcases hsub with (hB | e) | hI
  · obtain ⟨c, hc, e⟩ := hr.bitmap _ hB
    have h1 := BBLOCK_lt hc
    have h2 := hmid.blocks.range hi (q := place m)
    rw [hself] at h2
    have h3 := (h2 hb).1
    rw [← e] at h1
    have : dataStart sb ≤ blk t1.disk x1 m := h3
    omega
  · exact hinj _ (fun h => hm (place_inj h)) (e.trans hret.symm)
  · split at hI
    · cases hI
    · rw [Finset.mem_singleton, ← ptr_direct (d := t1.disk) htype (Nat.le_refl NDIRECT)] at hI
      exact hinj _ place_ne hI

theorem Recorded.bmap (h : Recorded D i s M x t) (hi : i < sb.ninodes) (htype : x1.type ≠ 0)
    (hmid : Mid sb (update D i x1) i t1) (hr : Round sb j M t r t1 A B x x1) (hret : Fs.blk t1.disk x1 M = r)
    (hfound : Fs.blk t.disk x M ≠ 0 → t1 = t ∧ x1 = x ∧ r = Fs.blk t.disk x M)
    (hothers : ∀ m, m ≠ M → Fs.blk t1.disk x1 m = Fs.blk t.disk x m) :
    Recorded D i s (M + 1) x1 t1 ∧ (Fs.blk s.disk (D i) M ≠ 0 → r = Fs.blk s.disk (D i) M ∧ t1.logged r = s.logged r) ∧
      (Fs.blk s.disk (D i) M = 0 → r ≠ 0 → t1.logged r = true) := by
  obtain ⟨hdirty, hmono⟩ := h.adds hr.adds
  have hblkM := h.blk M (Nat.le_refl _)
  refine ⟨⟨hdirty, hmono, fun m hm => ?_, fun m hm hb => ?_⟩, fun hb => ?_, fun hb hne => ?_⟩
  · rw [hothers m (by omega), h.blk m (by omega)]
  · have e : Fs.blk t1.disk x1 m = Fs.blk s.disk (D i) m := by rw [hothers m (by omega), h.blk m (by omega)]
    have hnot := hr.not_mem hmid hi htype hret (m := m) (by omega) (by rw [e]; exact hb)
    rw [e] at hnot
    rw [← h.ahead m (by omega) hb, Bool.eq_iff_iff, hr.adds.logged]
    exact or_iff_left hnot
  · obtain ⟨rfl, -, hr⟩ := hfound (by rw [hblkM]; exact hb)
    rw [hblkM] at hr
    exact ⟨hr, by rw [hr]; exact h.ahead M (Nat.le_refl _) hb⟩
  · exact (hr.adds.logged r).mpr (.inr (hr.fresh (by rw [← hr.type]; exact htype) (hblkM.trans hb) hne))

theorem Recorded.write (h : Recorded D i s (M + 1) x1 t1) (hi : i < sb.ninodes) (hmid : Mid sb (update D i x1) i t1)
    (hret : Fs.blk t1.disk x1 M = r) (ha : Adds {r} t1 t2) (hptr : ∀ q, ptr t2.disk x1 q = ptr t1.disk x1 q) :
    Recorded D i s (M + 1) x1 t2 := by
  obtain ⟨hdirty, hmono⟩ := h.adds ha
  refine ⟨hdirty, hmono, fun m hm => (hptr _).trans (h.blk m hm), fun m hm hb => ?_⟩
  rw [← h.ahead m hm hb, Bool.eq_iff_iff, ha.logged, Finset.mem_singleton]
  refine or_iff_left fun e => ?_
  have hinj := hmid.blocks.inj hi hi (q := place m) (r := place M)
  rw [update_self] at hinj
  have hbm : ptr t1.disk x1 (place m) = Fs.blk s.disk (D i) m := h.blk m hm
  have := place_inj (hinj (by rw [hbm]; exact hb) (by rw [hbm, e]; exact hret.symm)).2
  omega

end

/-- The loop has ended at the block `M` of the inode, now `y`, with a copy that failed. -/
structure Stopped (D : Nat → Dinode) (i : Nat) (s : Core) (M : Nat) (y : Dinode) (t : Core) : Prop where
  dirty : ∀ b, b ≠ blk t.disk y M → t.disk b ≠ s.disk b → t.logged b = true
  old : blk s.disk (D i) M ≠ 0 → t.logged (blk s.disk (D i) M) = s.logged (blk s.disk (D i) M)
  new : blk s.disk (D i) M = 0 → t.logged (blk t.disk y M) = true

theorem wp_writeiLoop_stopped (hE : E .logWrite) (hL : Layout sb) (hj : Holds s j i) (hm : Mid sb D i s) (ho : 0 < s.outstanding)
    {src : Nat → UInt8} {lim : Option Nat} {fuel tot off n : Nat} {x : Dinode}
    (h : Writing sb D i j s src off tot x t) (hfuel : n - tot ≤ fuel) (htot : tot ≤ n) (hmax : off + n ≤ MAXFILE * BSIZE)
    (hrec : tot < n → Recorded D i s ((off + tot) / BSIZE) x t) :
    Lib.Wp E (writeiLoop sb j src lim fuel tot (off + tot) n) t fun r t' =>
      r.1 < n → blk t'.disk (t'.itable j).d ((off + r.1) / BSIZE) ≠ 0 →
        Stopped D i s ((off + r.1) / BSIZE) (t'.itable j).d t' := by
  have hi := hm.lt hj
  induction fuel generalizing tot x t with
  | zero => exact fun hlt => absurd hlt (by simp only; omega)
  | succ fuel ih =>
    simp only [writeiLoop]
    refine Lib.wp_ite (fun hlt => ?_) fun hge => fun hlt => absurd hlt (by simpa using hge)
    have hot : 0 < t.outstanding := by rw [h.logs.out]; exact ho
    have hbn : (off + tot) / BSIZE < MAXFILE := Nat.div_lt_of_lt_mul (by rw [Nat.mul_comm]; omega)
    have hjt : Holds t j i := hj.setD h.itable
    have hself : update D i x i = x := update_self ..
    have hxt : (t.itable j).d = x := by rw [h.itable, setD_self]
    rw [Lib.wp_bind]
    refine ((wp_bmap (E := E) hL h.mid hjt hbn (.inl hot)).and (wp_bmap_adds hE hbn hxt)).mono
      fun b t1 ⟨⟨x1, hmap, hb, hfound, _, hothers⟩, A, B, x1', hround⟩ => ?_
    rw [hself] at hfound hothers
    have h1 := h.mapped hmap
    have hx1 : (t1.itable j).d = x1 := by rw [h1.itable, setD_self]
    obtain rfl : x1' = x1 := by rw [← hx1, hround.itable, setD_self]
    have htype : x1'.type ≠ 0 := by rw [h1.same.1]; exact (hm.copy_eq hj).2
    obtain ⟨hrec1, hold, hnew⟩ := (hrec hlt).bmap hi htype h1.mid hround hb hfound hothers
    refine Lib.wp_ite (fun h0 _ hne => ?_) fun h0 => ?_
    · rw [hx1, hb] at hne
      exact absurd h0 hne
    subst hb
    simp only [Lib.wp_bind, wp_bread]
    set m := min (n - tot) (BSIZE - (off + tot) % BSIZE) with hmdef
    refine Lib.wp_ite (fun hw => ?_) fun hw => ?_
    · have hot1 : 0 < t1.outstanding := by rw [h1.logs.out]; exact ho
      rw [Lib.wp_bind, wp_bwrite hot1, Nat.add_assoc]
      have hmod : (off + tot) % BSIZE < BSIZE := Nat.mod_lt _ BSIZE_pos
      refine ih (h1.copy hL hi h0 (by omega) logs_bwrite rfl rfl) (by omega) (by omega) fun hlt' => ?_
      have hnext : (off + (tot + m)) / BSIZE = (off + tot) / BSIZE + 1 := by
        have hdiv := Nat.div_add_mod (off + tot) BSIZE
        have : off + (tot + m) = ((off + tot) / BSIZE + 1) * BSIZE := by
          rw [Nat.add_mul, Nat.one_mul, Nat.mul_comm]
          omega
        rw [this, Nat.mul_div_cancel _ BSIZE_pos]
      rw [hnext]
      exact hrec1.write hi h1.mid rfl ((wp_bwrite hot1).mp (wp_bwrite_adds hE _ _)).1 (h1.ptr_write hL hi h0)
    · simp only [Lib.wp_bind, wp_setBuf, Lib.wp_pure]
      intro _ _
      rw [hx1]
      refine ⟨fun b hb hne => ?_, fun hb => ?_, fun hb => ?_⟩
      · refine hrec1.dirty b fun e => hne (.trans (Function.update_of_ne (fun e => hb ?_) ..) e)
        exact e.trans (h1.ptr_write hL hi h0 _).symm
      · obtain ⟨e, hl⟩ := hold hb
        rw [← e]
        exact hl
      · exact (congrArg t1.logged (h1.ptr_write hL hi h0 _)).trans (hnew hb h0)

/-- `writei` has returned `tot` after a copy of `l - tot` bytes that failed, in the block `M` of the inode. -/
structure Failed (sb : Superblock) (i j : Nat) (s : Core) (src : Nat → UInt8) (off tot l : Nat) (y : Dinode)
    (s' : Core) : Prop where
  stored : Stored sb i j s src off tot l y s'
  stopped : Stopped (dinode sb s.disk) i s ((off + tot) / BSIZE) y s'
  le : tot ≤ l
  lt : l < tot + (BSIZE - (off + tot) % BSIZE)
  start : tot = 0 ∨ (off + tot) % BSIZE = 0
  blk : blk s'.disk y ((off + tot) / BSIZE) ≠ 0

theorem Stopped.after {y : Dinode} {M : Nat} (h : Stopped D i s M (t.itable j).d t) (ha : AfterLoop sb i j y t s')
    (hdata : ∀ m, blk s'.disk y m ≠ 0 → blk s'.disk y m ≠ IBLOCK sb i)
    (hptr : ∀ m, blk s.disk (D i) m ≠ 0 → blk s'.disk y m = blk s.disk (D i) m) : Stopped D i s M y s' := by
  refine ⟨fun b hb hne => ?_, fun hb => ?_, fun hb => ?_⟩
  · by_cases e : b = IBLOCK sb i
    · rw [e]; exact ha.logged
    · obtain ⟨hd, hl⟩ := ha.rest b e
      rw [hl]
      refine h.dirty b (by rw [← ha.blk]; exact hb) (by rw [← hd]; exact hne)
  · have hne := hdata M (by rw [hptr M hb]; exact hb)
    rw [hptr M hb] at hne
    rw [(ha.rest _ hne).2]
    exact h.old hb
  · by_cases e : blk s'.disk y M = IBLOCK sb i
    · rw [e]; exact ha.logged
    · rw [(ha.rest _ e).2, ha.blk]
      exact h.new hb

section

variable {src : Nat → UInt8} {off tot l n : Nat} {y : Dinode}

theorem failed_of_run (hL : Layout sb) (hm : Mid sb (dinode sb s.disk) i s) (hj : Holds s j i) (ho : 0 < s.outstanding)
    (hn : n < 2 ^ 32) (hrun : writei sb j src (some l) off n s = .ok ((tot : Nat), s')) (hlt : tot < n)
    (hblk : blk s'.disk (dinode sb s'.disk i) ((off + tot) / BSIZE) ≠ 0) :
    Failed sb i j s src off tot l (dinode sb s'.disk i) s' := by
  have hi := hm.lt hj
  have hw : Lib.Wp (fun _ => True) (writei sb j src (some l) off n) s _ := wp_writei_stored hL hm hj ho hn
  rcases hw.of_ok hrun with ⟨h, -, -⟩ | ⟨tot', w, y, he, hoff, hmax, hend, hst, t, hloop, hafter⟩
  · omega
  · obtain rfl : tot = tot' := by exact_mod_cast he
    have hy := hst.disk
    rw [hy] at hblk ⊢
    cases hend with
    | done => exact absurd hlt (Nat.lt_irrefl _)
    | full _ _ h0 _ => exact absurd h0 hblk
    | @copy _ l' hl hle hlt' hal _ =>
      cases hl
      have hstop : Lib.Wp (fun _ => True) (writeiLoop sb j src (some l) n 0 (off + 0) n) s _ :=
        wp_writeiLoop_stopped trivial hL hj hm ho (.start hm hj) (by omega) (Nat.zero_le _) hmax fun _ =>
          ⟨fun _ h => absurd rfl h, fun _ h => h, fun _ _ => rfl, fun _ _ _ => rfl⟩
      have hdata : ∀ m, blk s'.disk y m ≠ 0 → blk s'.disk y m ≠ IBLOCK sb i := fun m hb => by
        have := hst.mid.blocks.range hi (q := place m)
        rw [update_self] at this
        have h1 : dataStart sb ≤ blk s'.disk y m := (this hb).1
        have := IBLOCK_lt_dataStart hL hi
        omega
      have := hstop.of_ok hloop hlt (by rw [← hafter.blk]; exact hblk)
      exact ⟨hst, this.after hafter hdata fun m hb => hst.ptr _ hb, hle, by omega, hal, hblk⟩

theorem Failed.in_chunk (h : Failed sb i j s src off tot l y s') {o : Nat} (h1 : off + tot ≤ o) (h2 : o < off + l) :
    o / BSIZE = (off + tot) / BSIZE ∧ s'.disk (Fs.blk s'.disk y ((off + tot) / BSIZE)) (o % BSIZE) = src (o - off) := by
  have hlt := h.lt
  have hd := (div_add (o := off + tot) (k := o - (off + tot)) (by omega)).1
  rw [show off + tot + (o - (off + tot)) = o by omega] at hd
  have hw := (h.stored.written o (by omega) h2).2
  rw [hd] at hw
  exact ⟨hd, hw⟩

theorem Failed.copied_eq (h : Failed sb i j s src off tot l y s') : copied off l = tot :=
  Fs.copied_eq (m := BSIZE - (off + tot) % BSIZE) h.le (by have := h.lt; omega) h.start

theorem Failed.harmless (h : Failed sb i j s src off tot l (dinode sb s'.disk i) s') (ha : LeftAlone sb i s s' (off + tot)) :
    Harmless sb i s src off l := by
  intro k hk hkl hcase
  rw [h.copied_eq] at hk hcase
  obtain ⟨hd, hw⟩ := h.in_chunk (o := off + k) (by omega) (by omega)
  rw [Nat.add_sub_cancel_left] at hw
  rcases hcase with hlt | ⟨hb, hl⟩
  · have := ha.bytes s'.disk (fun b => .inl rfl) (off + k) (by omega) hlt
    rw [← this, seen, hd, if_neg h.blk, hw]
  · -- otherwise the buffer has changed, and is not in the transaction
    by_contra hne
    have e : Fs.blk s'.disk (dinode sb s'.disk i) ((off + tot) / BSIZE) =
      Fs.blk s.disk (dinode sb s.disk i) ((off + tot) / BSIZE) :=
      h.stored.ptr _ hb
    rw [e] at hw
    have hlog := ha.logged _ ⟨(off + k) % BSIZE, Nat.mod_lt _ BSIZE_pos, by
      rw [hw]
      rwa [seen, hd, if_neg hb] at hne⟩
    rw [h.stopped.old hb, hl] at hlog
    cases hlog

section

variable (h : Failed sb i j s src off tot l y s')
include h

theorem Failed.logged (hs : Harmless sb i s src off l) {b k : Nat} (hk : k < BSIZE)
    (hne : s'.disk b k ≠ s.disk b k) : s'.logged b = true := by
  by_cases eb : b = Fs.blk s'.disk y ((off + tot) / BSIZE)
  swap
  · exact h.stopped.dirty b eb fun e => hne (by rw [e])
  by_cases hb : Fs.blk s.disk (dinode sb s.disk i) ((off + tot) / BSIZE) = 0
  · rw [eb]
    exact h.stopped.new hb
  have e : Fs.blk s'.disk y ((off + tot) / BSIZE) = Fs.blk s.disk (dinode sb s.disk i) ((off + tot) / BSIZE) := h.stored.ptr _ hb
  -- the byte's offset in the file
  obtain ⟨o, ho⟩ : ∃ o, o = (off + tot) / BSIZE * BSIZE + k := ⟨_, rfl⟩
  have hdiv : o / BSIZE = (off + tot) / BSIZE := by
    rw [ho, Nat.mul_comm, Nat.mul_add_div BSIZE_pos, Nat.div_eq_of_lt hk, Nat.add_zero]
  have hmod : o % BSIZE = k := by rw [ho, Nat.mul_comm, Nat.mul_add_mod, Nat.mod_eq_of_lt hk]
  rw [eb] at hne ⊢
  by_cases hin : off ≤ o ∧ o < off + l
  · have hge : off + tot ≤ o := by
      rcases h.start with h0 | h0
      · omega
      · have := Nat.div_add_mod' (off + tot) BSIZE
        omega
    have hw := (h.in_chunk hge hin.2).2
    rw [hmod] at hw
    rw [e, h.stopped.old hb]
    by_contra hl
    have := hs (o - off) (by rw [h.copied_eq]; omega) (by omega) (.inr ⟨by rw [h.copied_eq]; exact hb, by
      rw [h.copied_eq]
      simpa using hl⟩)
    rw [show off + (o - off) = o by omega, seen, hdiv, if_neg hb, hmod, ← hw, e] at this
    exact hne (by rw [e, this])
  · have := h.stored.kept o (by rw [hdiv]; exact hb) hin
    rw [hdiv, hmod, ← e] at this
    exact absurd this hne

variable (hclean : ∀ b, s.logged b = false → s.disk b = s.home b)
include hclean

theorem Failed.clean {b : Nat} (hl : s'.logged b = false) : s'.home b = s.disk b := by
  rw [h.stored.logs.home, hclean b (Bool.eq_false_iff.mpr fun hs => ?_)]
  rw [h.stored.logs.logged b hs] at hl
  cases hl

theorem Failed.later {d : Disk} (hd : Later s' d) {b : Nat} (hb : b ≠ Fs.blk s'.disk y ((off + tot) / BSIZE)) :
    d b = s'.disk b := by
  rcases hd b with e | ⟨hl, e⟩
  · exact e
  · have hsame : s'.disk b = s.disk b := by
      by_contra hne
      rw [h.stopped.dirty b hb hne] at hl
      cases hl
    rw [e, h.clean hclean hl, hsame]

theorem Failed.byte (hs : Harmless sb i s src off l) {d : Disk} (hd : Later s' d) {b k : Nat} (hk : k < BSIZE) :
    d b k = s'.disk b k := by
  rcases hd b with e | ⟨hl, e⟩
  · rw [e]
  · have hsame : s'.disk b k = s.disk b k := by
      by_contra hne
      rw [h.logged hs hk hne] at hl
      cases hl
    rw [e, h.clean hclean hl, hsame]

theorem Failed.blk_later (hi : i < sb.ninodes) {d : Disk} (hd : Later s' d) (m : Nat) :
    Fs.blk d y m = Fs.blk s'.disk y m := by
  refine ptr_congr fun hy h0 => h.later hclean hd fun e => ?_
  have hinj := h.stored.mid.blocks.inj hi hi (q := NDIRECT) (r := place ((off + tot) / BSIZE))
  rw [update_self, ptr_direct hy (Nat.le_refl _)] at hinj
  exact place_ne (hinj h0 e).2.symm

end

theorem Failed.leftAlone (h : Failed sb i j s src off tot l (dinode sb s'.disk i) s') (hi : i < sb.ninodes)
    (hclean : ∀ b, s.logged b = false → s.disk b = s.home b) (hs : Harmless sb i s src off l) :
    LeftAlone sb i s s' (off + tot) := by
  refine ⟨fun d hd o ho hsize => ?_, fun b ⟨k, hk, hne⟩ => h.logged hs hk hne⟩
  have hk : o % BSIZE < BSIZE := Nat.mod_lt _ BSIZE_pos
  rw [seen, h.blk_later hclean hi hd, h.byte hclean hs hd hk]
  by_cases hin : o < off + l
  · -- the failed copy has put the byte that was there
    obtain ⟨hdiv, hw⟩ := h.in_chunk ho hin
    rw [hdiv, if_neg h.blk, hw]
    have := hs (o - off) (by rw [h.copied_eq]; omega) (by omega) (.inl (by omega))
    rwa [show off + (o - off) = o by omega] at this
  · have hout : ¬(off ≤ o ∧ o < off + l) := fun hc => hin hc.2
    by_cases hb : Fs.blk s.disk (dinode sb s.disk i) (o / BSIZE) = 0
    · rw [seen, if_pos hb]
      by_cases hb' : Fs.blk s'.disk (dinode sb s'.disk i) (o / BSIZE) = 0
      · rw [if_pos hb']
      · rw [if_neg hb', h.stored.fresh o hb hb' hout]
    · have e : Fs.blk s'.disk (dinode sb s'.disk i) (o / BSIZE) = Fs.blk s.disk (dinode sb s.disk i) (o / BSIZE) :=
        h.stored.ptr _ hb
      rw [seen, e, if_neg hb, if_neg hb]
      exact h.stored.kept o hb hout

end

/-- `writei` of user memory of which the first `l` bytes are mapped returns less than `n`, with the block of the next
    byte at hand: the copy has failed. Then the rest of the file is left alone iff what was copied was harmless. -/
theorem writei_bad_pointer {src : Nat → UInt8} {off n l tot : Nat} (hL : Layout sb) (hm : Mid sb (dinode sb s.disk) i s)
    (hj : Holds s j i) (ho : 0 < s.outstanding) (hclean : ∀ b, s.logged b = false → s.disk b = s.home b) (hn : n < 2 ^ 32)
    (hrun : writei sb j src (some l) off n s = .ok ((tot : Nat), s')) (hlt : tot < n)
    (hblk : blk s'.disk (dinode sb s'.disk i) ((off + tot) / BSIZE) ≠ 0) :
    LeftAlone sb i s s' (off + tot) ↔ Harmless sb i s src off l := by
  have h := failed_of_run hL hm hj ho hn hrun hlt hblk
  exact ⟨h.harmless, h.leftAlone (hm.lt hj) hclean⟩

/-- "/f" is created with eight sevens. -/
def eightSevens : List (Nat × Call) :=
  [(0, .open slashF (O_CREATE ||| O_RDWR)), (0, .write 0 (fun _ => 7) 8 8 0)]

/-- In a transaction, and all blocks are as at home. -/
def started (c : Core) : Core := { c with outstanding := 1, home := c.disk }

/-- A write of eight bytes `v` of which four are mapped returns 0 and shows `v` at the front of the file. -/
abbrev ShowsFirst (v : UInt8) (c : Core) : Prop :=
  Lib.Wp (fun _ => False) (writei tinySb 1 (fun _ => v) (some 4) 0 8) (started c) fun r s' =>
    r = (0 : Nat) ∧ blk s'.disk (dinode tinySb s'.disk 2) 0 ≠ 0 ∧ seen s'.disk (dinode tinySb s'.disk 2) 0 = v

abbrev IsSevens (s : Core) : Prop :=
  ((dinode tinySb s.disk 2).type = T_FILE ∧ (dinode tinySb s.disk 2).size = 8 ∧
    ∀ k < 8, seen s.disk (dinode tinySb s.disk 2) k = 7) ∧
  (0 < (s.itable 1).ref ∧ (s.itable 1).inum = 2 ∧ (s.itable 1).valid = true) ∧ ShowsFirst 7 s ∧ ShowsFirst 5 s

theorem eightSevens_reach : ∃ s, (sys tinySb (Image tinySb)).Reach s ∧ IsSevens s.core := by
  obtain ⟨s, hs, ht⟩ : ∃ s, (sys tinySb (Image tinySb)).Reach s ∧ _ := Lib.Sys.reach_of_any eightSevens
    (fun s => decide (IsSevens s.core)) ⟨_, tiny_image, rfl⟩ (by decide +kernel)
  exact ⟨s, hs, of_decide_eq_true ht⟩

/-- Sevens on sevens. -/
theorem writei_bad_pointer_tiny : ∃ s s', (sys tinySb (Image tinySb)).Reach s ∧ (dinode tinySb s.core.disk 2).type = T_FILE ∧
    writei tinySb 1 (fun _ => 7) (some 4) 0 8 (started s.core) = .ok (((0 : Nat) : Int), s') ∧
    LeftAlone tinySb 2 (started s.core) s' 0 := by
  obtain ⟨s, hs, ⟨htype, -, hseen⟩, ⟨href, hinum, hvalid⟩, h7, -⟩ := eightSevens_reach
  obtain ⟨_, s', hrun, rfl, hb, -⟩ := h7.returns
  have hI := (world_reach tiny_layout hs).ready.inv
  have hm : Mid tinySb (dinode tinySb (started s.core).disk) 2 (started s.core) :=
    ⟨hI.blocks, ⟨hI.table.high, hI.table.unique, hI.table.lt, hI.table.live, hI.table.copy⟩, fun _ _ _ => rfl⟩
  refine ⟨s, s', hs, htype, hrun, (writei_bad_pointer tiny_layout hm ⟨href, hinum, hvalid⟩ Nat.one_pos (fun _ _ => rfl)
    (by decide) hrun (by decide) hb).mpr fun k _ hk _ => ?_⟩
  rw [Nat.zero_add]
  exact (hseen k (Nat.lt_trans hk (by decide))).symm

/-- Fives on sevens: `writei` returns 0, and the first byte of the file is another. -/
theorem partial_copy_shows : ∃ s s', (sys tinySb (Image tinySb)).Reach s ∧ (dinode tinySb s.core.disk 2).type = T_FILE ∧
    writei tinySb 1 (fun _ => 5) (some 4) 0 8 (started s.core) = .ok (((0 : Nat) : Int), s') ∧
    blk s'.disk (dinode tinySb s'.disk 2) 0 ≠ 0 ∧ ¬ LeftAlone tinySb 2 (started s.core) s' 0 := by
  obtain ⟨s, hs, ⟨htype, hsize, hseen⟩, -, -, h5⟩ := eightSevens_reach
  obtain ⟨_, s', hrun, rfl, hb, hv⟩ := h5.returns
  refine ⟨s, s', hs, htype, hrun, hb, fun h => ?_⟩
  have h0 := h.bytes s'.disk (fun _ => .inl rfl) 0 (Nat.le_refl 0) (by show 0 < (dinode tinySb s.core.disk 2).size; omega)
  rw [hv] at h0
  exact absurd (h0.trans (hseen 0 (by decide))) (by decide)

end Xv6.Fs
