/-
  Xv6.Fs.Logged — which blocks one `writei` puts in the transaction (kernel/fs.c: balloc, bmap,
  writei; kernel/file.c: filewrite).

  `Adds A s s'`: the blocks `A`, and no others, have been changed and passed to `log_write`.
-/

import Xv6.Fs.Contents

namespace Xv6.Fs

open Lib (Wp wp_bind wp_ite)

variable {sb : Superblock} {E : Panic → Prop} {s s' s'' : Core} {j : Nat}

/-- The blocks `A` have been changed and are in the transaction. -/
structure Adds (A : Finset Nat) (s s' : Core) : Prop where
  logged : ∀ b, s'.logged b = true ↔ s.logged b = true ∨ b ∈ A
  disk : ∀ b, b ∉ A → s'.disk b = s.disk b

theorem Adds.refl : Adds ∅ s s := ⟨fun _ => by simp, fun _ _ => rfl⟩

theorem Adds.trans {A B : Finset Nat} (h : Adds A s s') (h' : Adds B s' s'') : Adds (A ∪ B) s s'' := by
  refine ⟨fun b => ?_, fun b hb => ?_⟩
  · rw [h'.logged, h.logged, Finset.mem_union, or_assoc]
  · rw [Finset.mem_union, not_or] at hb
    rw [h'.disk b hb.2, h.disk b hb.1]

theorem Adds.of_eq (hl : s'.logged = s.logged) (hd : s'.disk = s.disk) : Adds ∅ s s' :=
  ⟨fun _ => by rw [hl]; simp, fun _ _ => by rw [hd]⟩

theorem wp_bwrite_adds (hE : E .logWrite) (b : Nat) (v : Block) :
    Wp E (bwrite b v) s fun _ s' => Adds {b} s s' ∧ s'.disk b = v ∧ s'.itable = s.itable := by
  simp only [bwrite, log_write, wp_bind, wp_setBuf, Lib.wp_get]
  refine wp_ite (fun _ => hE) fun _ => ?_
  refine ⟨⟨fun c => ?_, fun c hc => ?_⟩, Function.update_self .., rfl⟩
  · show Function.update s.logged b true c = true ↔ _
    by_cases e : c = b
    · simp [e]
    · simp [e]
  · exact Function.update_of_ne (by simpa using hc) ..

theorem wp_iupdate_adds (hE : E .logWrite) :
    Wp E (iupdate sb j) s fun _ s' => Adds {IBLOCK sb (s.itable j).inum} s s' := by
  simp only [iupdate, wp_bind, wp_inode, wp_bread]
  exact (wp_bwrite_adds hE _ _).mono fun _ _ h => h.1

/-! ## Allocation -/

/-- What `balloc` has done when it returns `r`: nothing, or it has marked block `r` and zeroed it. -/
def Balloc (sb : Superblock) (s : Core) (r : Nat) (s' : Core) : Prop :=
  (r = 0 ∧ s' = s) ∨ ∃ c < sb.size, Adds {BBLOCK sb c, r} s s' ∧ s'.disk r = (fun _ => 0) ∧ s'.itable = s.itable

theorem wp_balloc_adds (hE : E .logWrite) : Wp E (balloc sb) s fun r s' => Balloc sb s r s' := by
  have hfrom : ∀ n b, Wp E (ballocFrom sb n b) s fun r s' => Balloc sb s r s' := fun n => by
    induction n with
    | zero => exact fun _ => .inl ⟨rfl, rfl⟩
    | succ n ih =>
      intro b
      simp only [ballocFrom, wp_bind, wp_bread]
      split
      · rename_i bi hbi
        obtain ⟨-, hlt, -⟩ := Lib.first_some hbi
        rw [wp_bind]
        refine (wp_bwrite_adds hE _ _).mono fun _ t h1 => ?_
        rw [wp_bind]
        refine (wp_bwrite_adds hE _ _).mono fun _ u h2 => ?_
        exact .inr ⟨b, by omega, h1.1.trans h2.1, h2.2.1, h2.2.2.trans h1.2.2⟩
      · exact ih _
  exact hfrom _ _

theorem wp_bmapAddr_adds (hE : E .logWrite) {k : Nat} (hk : k ≤ NDIRECT) :
    Wp E (bmapAddr sb j k) s fun r s' => ∃ x', s'.itable = setD s.itable j x' ∧ x'.type = (s.itable j).d.type ∧
      (∀ q, x'.addr q = if q = k then r else (s.itable j).d.addr q) ∧
      (((s.itable j).d.addr k ≠ 0 ∧ s' = s) ∨ ((s.itable j).d.addr k = 0 ∧ ∃ t, Balloc sb s r t ∧ s'.disk = t.disk ∧
        s'.logged = t.logged)) := by
  simp only [bmapAddr, wp_bind, wp_inode]
  refine wp_ite (fun h0 => ?_) fun h0 => ?_
  · rw [wp_bind]
    refine (wp_balloc_adds hE).mono fun b t ht => ?_
    have hit : t.itable = s.itable := by
      rcases ht with ⟨-, rfl⟩ | ⟨_, _, _, _, h⟩
      · rfl
      · exact h
    refine wp_ite (fun hb => ?_) fun hb => ?_
    · subst hb
      refine ⟨(s.itable j).d, by rw [hit, setD_copy], rfl, fun q => ?_, .inr ⟨h0, t, ht, rfl, rfl⟩⟩
      by_cases e : q = k
      · rw [if_pos e, e, h0]
      · rw [if_neg e]
    · simp only [wp_bind, wp_setCopy, Lib.wp_pure]
      exact ⟨(s.itable j).d.setAddr k b, by rw [hit]; rfl, rfl, fun q => Dinode.addr_setAddr _ b q hk, .inr ⟨h0, t, ht, rfl, rfl⟩⟩
  · refine ⟨(s.itable j).d, (setD_copy ..).symm, rfl, fun q => ?_, .inl ⟨h0, rfl⟩⟩
    by_cases e : q = k
    · rw [if_pos e, e]
    · rw [if_neg e]

/-- What one `bmap` of block `bn` adds, with the inode `x` before and `x'` after: bitmap blocks `B`, the block that it
    returns, and the indirect block. -/
structure Round (sb : Superblock) (j bn : Nat) (s : Core) (r : Nat) (s' : Core) (A B : Finset Nat) (x x' : Dinode) : Prop where
  adds : Adds A s s'
  sub : A ⊆ B ∪ {r} ∪ if bn < NDIRECT then ∅ else {x'.addr NDIRECT}
  bitmap : ∀ b ∈ B, ∃ c < sb.size, b = BBLOCK sb c
  itable : s'.itable = setD s.itable j x'
  type : x'.type = x.type
  keeps : x.addr NDIRECT ≠ 0 ∨ bn < NDIRECT → x'.addr NDIRECT = x.addr NDIRECT
  gets : r ≠ 0 → NDIRECT ≤ bn → x'.addr NDIRECT ≠ 0
  card : B.card ≤ (if blk s.disk x bn = 0 then 1 else 0) + if x.addr NDIRECT = 0 ∧ NDIRECT ≤ bn then 1 else 0
  fresh : x.type ≠ 0 → blk s.disk x bn = 0 → r ≠ 0 → r ∈ A

theorem blk_of_direct {d : Disk} {x : Dinode} {bn : Nat} (hbn : bn < NDIRECT) (h0 : x.addr bn = 0) : blk d x bn = 0 := by
  by_cases ht : x.type = 0
  · exact ptr_free ht
  · rw [blk, place, if_pos hbn, ptr_direct ht (by omega), h0]

theorem blk_indirect {d : Disk} {x : Dinode} {bn : Nat} (hbn : ¬ bn < NDIRECT) (hk : bn - NDIRECT < NINDIRECT) (ht : x.type ≠ 0)
    (h0 : x.addr NDIRECT ≠ 0) : blk d x bn = word (d (x.addr NDIRECT)) (4 * (bn - NDIRECT)) := by
  have hplace : place bn = NDIRECT + 1 + (bn - NDIRECT) := by rw [place, if_neg hbn]; omega
  rw [blk, hplace, ptr_indirect ht h0 hk]

theorem blk_no_indirect {d : Disk} {x : Dinode} {bn : Nat} (hbn : ¬ bn < NDIRECT) (h0 : x.addr NDIRECT = 0) : blk d x bn = 0 := by
  rw [blk, place, if_neg hbn]
  exact ptr_no_indirect h0 (by omega)

theorem wp_bmap_direct (hE : E .logWrite) {bn : Nat} (hbn : bn < NDIRECT) {x : Dinode} (hx : (s.itable j).d = x) :
    Wp E (bmapAddr sb j bn) s fun r s' => ∃ A B x', Round sb j bn s r s' A B x x' := by
  subst hx
  refine (wp_bmapAddr_adds hE (Nat.le_of_lt hbn)).mono fun r s' ⟨x', hit, htype, haddr, h⟩ => ?_
  have hind : x'.addr NDIRECT = (s.itable j).d.addr NDIRECT := by rw [haddr, if_neg (by omega)]
  -- the parts that do not depend on what was there
  have hround : ∀ A B, Adds A s s' → A ⊆ B ∪ {r} → (∀ b ∈ B, ∃ c < sb.size, b = BBLOCK sb c) →
      B.card ≤ (if blk s.disk (s.itable j).d bn = 0 then 1 else 0) →
      ((s.itable j).d.type ≠ 0 → blk s.disk (s.itable j).d bn = 0 → r ≠ 0 → r ∈ A) →
        ∃ A B x', Round sb j bn s r s' A B (s.itable j).d x' :=
    fun A B h1 h2 h3 h4 h5 => ⟨A, B, x', h1, by rw [if_pos hbn, Finset.union_empty]; exact h2, h3, hit, htype, fun _ => hind,
      fun _ h => absurd h (by omega), by omega, h5⟩
  rcases h with ⟨hne, rfl⟩ | ⟨h0, t, ht, hd, hl⟩
  · refine hround ∅ ∅ .refl (by simp) (by simp) (by simp) fun ht hb hr => ?_
    rw [blk, place, if_pos hbn, ptr_direct ht (by omega)] at hb
    exact absurd hb hne
  · have hb : blk s.disk (s.itable j).d bn = 0 := blk_of_direct hbn h0
    rcases ht with ⟨rfl, rfl⟩ | ⟨c, hc, hadd, -, -⟩
    · exact hround ∅ ∅ (.of_eq hl hd) (by simp) (by simp) (by simp) fun _ _ hr => absurd rfl hr
    · have hadd : Adds {BBLOCK sb c, r} s s' := by
        have := hadd.trans (.of_eq hl hd)
        rwa [Finset.union_empty] at this
      refine hround _ {BBLOCK sb c} hadd ?_ (fun b hb => ⟨c, hc, Finset.mem_singleton.mp hb⟩) (by rw [if_pos hb]; simp)
        fun _ _ _ => by simp
      intro b hb
      simpa using hb

theorem wp_bmapWord_adds (hE : E .logWrite) {ind k : Nat} {c : M Nat}
    (hc : c = (do
      let addr := word (← bread ind) (4 * k)
      if addr = 0 then do
        let addr ← balloc sb
        if addr ≠ 0 then do
          let bp ← bread ind
          bwrite ind (setWord bp (4 * k) addr)
        return addr
      return addr)) :
    Wp E c s fun r s' => s'.itable = s.itable ∧
      ((s' = s ∧ (r = 0 ∨ word (s.disk ind) (4 * k) ≠ 0)) ∨ (word (s.disk ind) (4 * k) = 0 ∧
        ∃ c < sb.size, ∃ A, Adds A s s' ∧ A ⊆ {BBLOCK sb c, r, ind} ∧ r ∈ A)) := by
  subst hc
  simp only [wp_bind, wp_bread]
  refine wp_ite (fun h0 => ?_) fun h0 => ⟨rfl, .inl ⟨rfl, .inr h0⟩⟩
  rw [wp_bind]
  refine (wp_balloc_adds hE).mono fun b t ht => ?_
  rcases ht with ⟨rfl, rfl⟩ | ⟨c, hc, hadd, -, hit⟩
  · exact ⟨rfl, .inl ⟨rfl, .inl rfl⟩⟩
  · refine wp_ite (fun _ => ?_) fun _ => ⟨hit, .inr ⟨h0, c, hc, _, hadd, ?_, by simp⟩⟩
    · simp only [wp_bind, wp_bread, Lib.wp_pure]
      refine (wp_bwrite_adds hE _ _).mono fun _ u ⟨h1, _, hu⟩ => ⟨hu.trans hit, .inr ⟨h0, c, hc, _, hadd.trans h1, ?_, by simp⟩⟩
      intro x hx
      simp only [Finset.mem_union, Finset.mem_insert, Finset.mem_singleton] at hx ⊢
      tauto
    · intro x hx
      simp only [Finset.mem_insert, Finset.mem_singleton] at hx ⊢
      tauto

/-- What `bmap` has added when it has the indirect block `ind`, and whether that was there. -/
structure Indirect (sb : Superblock) (j : Nat) (s : Core) (ind : Nat) (s' : Core) (A B : Finset Nat) (x x' : Dinode) : Prop where
  adds : Adds A s s'
  sub : A ⊆ B ∪ {ind}
  bitmap : ∀ b ∈ B, ∃ c < sb.size, b = BBLOCK sb c
  itable : s'.itable = setD s.itable j x'
  type : x'.type = x.type
  addr : x'.addr NDIRECT = ind
  keeps : x.addr NDIRECT ≠ 0 → ind = x.addr NDIRECT ∧ s' = s
  card : B.card ≤ if x.addr NDIRECT = 0 then 1 else 0
  zero : x.addr NDIRECT = 0 → ind ≠ 0 → s'.disk ind = fun _ => 0

theorem wp_bmapAddr_indirect (hE : E .logWrite) {x : Dinode} (hx : (s.itable j).d = x) :
    Wp E (bmapAddr sb j NDIRECT) s fun ind s' => ∃ A B x', Indirect sb j s ind s' A B x x' := by
  subst hx
  refine (wp_bmapAddr_adds hE (Nat.le_refl _)).mono fun ind s' ⟨x', hit, htype, haddr, h⟩ => ?_
  have hind : x'.addr NDIRECT = ind := by rw [haddr, if_pos rfl]
  rcases h with ⟨hne, rfl⟩ | ⟨h0, t, ht, hd, hl⟩
  · have hx : (s'.itable j).d = x' := by
      have := congrArg (fun t => (t j).d) hit
      rwa [setD_self] at this
    exact ⟨∅, ∅, x', .refl, by simp, by simp, hit, htype, hind, fun _ => ⟨by rw [hx, hind], rfl⟩, by simp, fun h => absurd h hne⟩
  · rcases ht with ⟨rfl, rfl⟩ | ⟨c, hc, hadd, hz, -⟩
    · exact ⟨∅, ∅, x', .of_eq hl hd, by simp, by simp, hit, htype, hind, fun h => absurd h0 h, by simp, fun _ h => absurd rfl h⟩
    · have hadd : Adds {BBLOCK sb c, ind} s s' := by
        have := hadd.trans (.of_eq hl hd)
        rwa [Finset.union_empty] at this
      exact ⟨_, {BBLOCK sb c}, x', hadd, fun b hb => by simpa using hb, fun b hb => ⟨c, hc, Finset.mem_singleton.mp hb⟩, hit,
        htype, hind, fun h => absurd h0 h, by rw [if_pos h0]; simp, fun _ _ => by rw [hd]; exact hz⟩

section

variable {bn ind r : Nat} {A A' B : Finset Nat} {x x' : Dinode}

theorem Indirect.card_le (h : Indirect sb j s ind s' A B x x') (hdir : ¬ bn < NDIRECT) :
    B.card ≤ if x.addr NDIRECT = 0 ∧ NDIRECT ≤ bn then 1 else 0 := by
  have hc := h.card
  by_cases e : x.addr NDIRECT = 0
  · rwa [if_pos ⟨e, by omega⟩, ← if_pos (c := x.addr NDIRECT = 0) (t := 1) (e := 0) e]
  · rw [if_neg e] at hc
    omega

theorem Indirect.word_iff (h : Indirect sb j s ind s' A B x x') (hdir : ¬ bn < NDIRECT) (hk : bn - NDIRECT < NINDIRECT)
    (h0 : ind ≠ 0) (ht : x.type ≠ 0) : blk s.disk x bn = 0 ↔ word (s'.disk ind) (4 * (bn - NDIRECT)) = 0 := by
  by_cases e : x.addr NDIRECT = 0
  · refine iff_of_true (blk_no_indirect hdir e) ?_
    rw [h.zero e h0]
    rfl
  · obtain ⟨hind, rfl⟩ := h.keeps e
    rw [blk_indirect hdir hk ht e, hind]

theorem Indirect.none (h : Indirect sb j s 0 s' A B x x') (hdir : ¬ bn < NDIRECT) : Round sb j bn s 0 s' A B x x' where
  adds := h.adds
  sub := h.sub.trans Finset.subset_union_left
  bitmap := h.bitmap
  itable := h.itable
  type := h.type
  keeps hk := h.addr.trans (h.keeps (hk.resolve_right hdir)).1
  gets hr := absurd rfl hr
  card := Nat.le_trans (h.card_le hdir) (Nat.le_add_left ..)
  fresh _ _ hr := absurd rfl hr

section

variable (h : Indirect sb j s ind s' A B x x') (hdir : ¬ bn < NDIRECT) (hk : bn - NDIRECT < NINDIRECT) (h0 : ind ≠ 0)
include h hdir hk h0

theorem Indirect.found (hr : r = 0 ∨ word (s'.disk ind) (4 * (bn - NDIRECT)) ≠ 0) : Round sb j bn s r s' A B x x' where
  adds := h.adds
  sub b hb := by
    have := h.sub hb
    rw [if_neg hdir, h.addr]
    simp only [Finset.mem_union, Finset.mem_singleton] at this ⊢
    tauto
  bitmap := h.bitmap
  itable := h.itable
  type := h.type
  keeps hk := h.addr.trans (h.keeps (hk.resolve_right hdir)).1
  gets _ _ := by rw [h.addr]; exact h0
  card := Nat.le_trans (h.card_le hdir) (Nat.le_add_left ..)
  fresh ht hb hne := absurd ((h.word_iff hdir hk h0 ht).mp hb) (hr.resolve_left hne)

theorem Indirect.alloc (hw : word (s'.disk ind) (4 * (bn - NDIRECT)) = 0) {c : Nat} (hc : c < sb.size) (hadd : Adds A' s' s'')
    (hsub : A' ⊆ {BBLOCK sb c, r, ind}) (hr : r ∈ A') (hit : s''.itable = s'.itable) :
    Round sb j bn s r s'' (A ∪ A') (B ∪ {BBLOCK sb c}) x x' where
  adds := h.adds.trans hadd
  sub b hb := by
    rw [if_neg hdir, h.addr]
    rcases Finset.mem_union.mp hb with hb | hb
    · have := h.sub hb
      simp only [Finset.mem_union, Finset.mem_singleton] at this ⊢
      tauto
    · have := hsub hb
      simp only [Finset.mem_union, Finset.mem_insert, Finset.mem_singleton] at this ⊢
      tauto
  bitmap b hb := by
    rcases Finset.mem_union.mp hb with hb | hb
    · exact h.bitmap b hb
    · exact ⟨c, hc, Finset.mem_singleton.mp hb⟩
  itable := hit.trans h.itable
  type := h.type
  keeps hk := h.addr.trans (h.keeps (hk.resolve_right hdir)).1
  gets _ _ := by rw [h.addr]; exact h0
  card := by
    have hb : blk s.disk x bn = 0 := by
      by_cases ht : x.type = 0
      · exact ptr_free ht
      · exact (h.word_iff hdir hk h0 ht).mpr hw
    have h1 := h.card_le hdir
    have h2 := Finset.card_union_le B {BBLOCK sb c}
    rw [Finset.card_singleton] at h2
    rw [if_pos hb]
    omega
  fresh _ _ _ := Finset.mem_union_right _ hr

end

end

theorem wp_bmap_adds (hE : E .logWrite) {bn : Nat} (hbn : bn < MAXFILE) {x : Dinode} (hx : (s.itable j).d = x) :
    Wp E (bmap sb j bn) s fun r s' => ∃ A B x', Round sb j bn s r s' A B x x' := by
  simp only [bmap]
  refine wp_ite (fun hdir => wp_bmap_direct hE hdir hx) fun hdir => ?_
  have hk : bn - NDIRECT < NINDIRECT := by simp only [MAXFILE] at hbn; omega
  rw [if_pos hk, wp_bind]
  refine (wp_bmapAddr_indirect hE hx).mono fun ind s1 h => ?_
  obtain ⟨A, B, x', h⟩ := h
  refine wp_ite (fun h0 => ?_) fun h0 => ?_
  · subst h0
    exact ⟨A, B, x', h.none hdir⟩
  · refine Wp.mono (wp_bmapWord_adds hE rfl) fun r s' h2 => ?_
    rcases h2.2 with ⟨rfl, hr⟩ | ⟨hw, c, hc, A2, hadd, hsub, hr⟩
    · exact ⟨A, B, x', h.found hdir hk h0 hr⟩
    · exact ⟨_, _, x', h.alloc hdir hk h0 hw hc hadd hsub hr h2.1⟩

/-! ## The transaction of a write -/

/-- The number of chunks in `c` bytes from `off` on. -/
def rounds (off c : Nat) : Nat := if c = 0 then 0 else (off % BSIZE + c + BSIZE - 1) / BSIZE

theorem rounds_pos (off : Nat) {c : Nat} (hc : 0 < c) : 0 < rounds off c := by
  rw [rounds, if_neg (by omega)]
  simp only [BSIZE]
  omega

theorem rounds_step (off : Nat) {c m : Nat} (hc : 0 < c) (hm : m = min c (BSIZE - off % BSIZE)) :
    rounds (off + m) (c - m) + 1 = rounds off c := by
  simp only [rounds, BSIZE] at *
  split <;> split <;> omega

/-- What may be added from here on: the blocks `F`, and the indirect block `ind`. -/
structure Within (F : Finset Nat) (ind : Nat) (s s' : Core) (x : Dinode) : Prop where
  logged : ∀ b, s'.logged b = true → s.logged b = true ∨ b ∈ F ∨ b = ind
  ind : x.addr NDIRECT ≠ 0 → ind = x.addr NDIRECT

section

variable {bn r : Nat} {A B F : Finset Nat} {x x' : Dinode}

theorem Round.within (h : Round sb j bn s r s' A B x x') : Within (B ∪ {r}) (x'.addr NDIRECT) s s' x := by
  refine ⟨fun b hb => ?_, fun h0 => h.keeps (.inl h0)⟩
  refine (h.adds.logged b |>.mp hb).imp_right fun hb => ?_
  have := h.sub hb
  split at this
  · exact .inl (by simpa using this)
  · rw [Finset.mem_union, Finset.mem_singleton] at this
    exact this

theorem Round.and_within {ind : Nat} (h : Round sb j bn s r s' A B x x') (hr : r ≠ 0) (hs : Adds {r} s' s'')
    {t : Core} (ht : Within F ind s'' t x') : Within (B ∪ {r} ∪ F) ind s t x := by
  refine ⟨fun b hb => ?_, fun h0 => ?_⟩
  · rcases ht.logged b hb with hb | hb | hb
    · rcases (hs.logged b).mp hb with hb | hb
      · refine (h.adds.logged b |>.mp hb).imp_right fun hb => ?_
        have hsub := h.sub hb
        by_cases hdir : bn < NDIRECT
        · rw [if_pos hdir, Finset.union_empty] at hsub
          exact .inl (Finset.mem_union_left _ hsub)
        · rw [if_neg hdir, Finset.mem_union, Finset.mem_singleton] at hsub
          refine hsub.imp (fun h => Finset.mem_union_left _ h) fun e => ?_
          rw [e, ht.ind (h.gets hr (by omega))]
      · exact .inr (.inl (Finset.mem_union_left _ (Finset.mem_union_right _ hb)))
    · exact .inr (.inl (Finset.mem_union_right _ hb))
    · exact .inr (.inr hb)
  · have := h.keeps (.inl h0)
    rw [← this] at h0 ⊢
    exact ht.ind h0

theorem Round.card_le (h : Round sb j bn s r s' A B x x') :
    B.card + (if blk s.disk x bn ≠ 0 then 1 else 0) ≤ 1 + if x.addr NDIRECT = 0 then 1 else 0 := by
  have h2 := h.card
  by_cases e : x.addr NDIRECT = 0 <;> by_cases e' : blk s.disk x bn = 0 <;> simp only [e, e', ne_eq, not_true_eq_false,
    not_false_eq_true, if_true, if_false, false_and, true_and] at h2 ⊢
  · split at h2 <;> omega
  · split at h2 <;> omega
  · omega
  · omega

theorem Round.card_data (h : Round sb j bn s r s' A B x x') :
    (B ∪ {r}).card + (if blk s.disk x bn ≠ 0 then 1 else 0) ≤ 2 + if x.addr NDIRECT = 0 then 1 else 0 := by
  have h1 := Finset.card_union_le B {r}
  have h2 := h.card_le
  rw [Finset.card_singleton] at h1
  omega

theorem Round.card_next (h : Round sb j bn s r s' A B x x') (hr : r ≠ 0) :
    B.card + (if x'.addr NDIRECT = 0 then 1 else 0) + (if blk s.disk x bn ≠ 0 then 1 else 0) ≤
      1 + if x.addr NDIRECT = 0 then 1 else 0 := by
  have h2 := h.card
  by_cases hdir : bn < NDIRECT
  · rw [h.keeps (.inr hdir)]
    rw [if_neg (c := x.addr NDIRECT = 0 ∧ NDIRECT ≤ bn) fun h => absurd h.2 (by omega)] at h2
    by_cases e' : blk s.disk x bn = 0 <;> simp only [e', ne_eq, not_true_eq_false, not_false_eq_true, if_true,
      if_false] at h2 ⊢ <;>
      omega
  · rw [if_neg (h.gets hr (by omega))]
    exact h.card_le

end

/-- `F` and `ind` are enough for the rest of a write, and few. -/
def Fits (j : Nat) (s s' : Core) (x : Dinode) (tot off n : Nat) : Prop :=
  ∃ F ind x', Within F ind s s' x ∧ s'.itable = setD s.itable j x' ∧
    F.card + (if tot < n ∧ blk s.disk x (off / BSIZE) ≠ 0 then 1 else 0) ≤
      2 * rounds off (n - tot) + if x.addr NDIRECT = 0 then 1 else 0

theorem Fits.refl {x : Dinode} (hx : (s.itable j).d = x) (tot off n : Nat) : Fits j s s x tot off n := by
  refine ⟨∅, x.addr NDIRECT, x, ⟨fun _ h => .inl h, fun _ => rfl⟩, by rw [← hx, setD_copy], ?_⟩
  rw [Finset.card_empty]
  split
  · rename_i h
    have := rounds_pos off (c := n - tot) (by omega)
    omega
  · omega

theorem wp_writeiLoop_logged (hE : E .logWrite) {src : Nat → UInt8} {lim : Option Nat} {fuel tot off n : Nat} {x : Dinode}
    (hx : (s.itable j).d = x) (hmax : off + (n - tot) ≤ MAXFILE * BSIZE) :
    Wp E (writeiLoop sb j src lim fuel tot off n) s fun _ s' => Fits j s s' x tot off n := by
  induction fuel generalizing s tot off x with
  | zero => exact .refl hx ..
  | succ fuel ih =>
    simp only [writeiLoop]
    refine wp_ite (fun hlt => ?_) fun _ => .refl hx ..
    have hbn : off / BSIZE < MAXFILE := Nat.div_lt_of_lt_mul (by rw [Nat.mul_comm]; omega)
    have hpos := rounds_pos off (c := n - tot) (by omega)
    rw [wp_bind]
    refine (wp_bmap_adds hE hbn hx).mono fun r t ⟨A, B, x1, h⟩ => ?_
    -- the loop ends in this round
    have hstop : ∀ t', t'.logged = t.logged → t'.itable = t.itable → Fits j s t' x tot off n := fun t' hl ht => by
      refine ⟨B ∪ {r}, x1.addr NDIRECT, x1, ⟨fun b hb => h.within.logged b (hl ▸ hb), h.within.ind⟩, ht.trans h.itable, ?_⟩
      have := h.card_data
      simp only [hlt, true_and]
      omega
    refine wp_ite (fun _ => hstop t rfl rfl) fun hr => ?_
    simp only [wp_bind, wp_bread]
    refine wp_ite (fun _ => ?_) fun _ => hstop _ rfl rfl
    set m := min (n - tot) (BSIZE - off % BSIZE) with hm
    rw [wp_bind]
    refine (wp_bwrite_adds hE _ _).mono fun _ u ⟨hu, _, hut⟩ => ?_
    have hx1 : (u.itable j).d = x1 := by rw [hut, h.itable, setD_self]
    have hstep := rounds_step off (c := n - tot) (by omega) hm
    have hsub : n - (tot + m) = n - tot - m := by omega
    refine (ih hx1 (by omega)).mono fun _ t' ⟨F, ind, x2, hw, hit, hcard⟩ => ?_
    refine ⟨B ∪ {r} ∪ F, ind, x2, h.and_within hr hu hw, by rw [hit, hut, h.itable, setD_setD], ?_⟩
    have h1 := h.card_next hr
    have h2 := Finset.card_union_le (B ∪ {r}) F
    have h3 := Finset.card_union_le B {r}
    rw [Finset.card_singleton] at h3
    rw [hsub] at hcard
    simp only [hlt, true_and]
    omega

theorem rounds_le (off : Nat) {n : Nat} (hn : n ≤ 3 * BSIZE) : rounds off n ≤ 4 ∧ (off % BSIZE = 0 → rounds off n ≤ 3) := by
  simp only [rounds, BSIZE] at *
  split <;> omega

/-- A write that does not start at a block starts in a block that is there. -/
theorem Fits.card_le {x : Dinode} {off n : Nat} (h : Fits j s s' x 0 off n) (hs : Sound s.disk x) (hoff : off ≤ x.size)
    (hn : n ≤ 3 * BSIZE) : ∃ F ind x', Within F ind s s' x ∧ s'.itable = setD s.itable j x' ∧ F.card ≤ 8 := by
  obtain ⟨F, ind, x', hw, hit, hcard⟩ := h
  refine ⟨F, ind, x', hw, hit, ?_⟩
  obtain ⟨h4, h3⟩ := rounds_le off hn
  have hind : (if x.addr NDIRECT = 0 then 1 else 0) ≤ 1 := by split <;> omega
  rw [Nat.sub_zero] at hcard
  by_cases ha : off % BSIZE = 0
  · have := h3 ha
    omega
  · by_cases h0 : n = 0
    · rw [h0, rounds, if_pos rfl] at hcard
      omega
    · have hb : blk s.disk x (off / BSIZE) ≠ 0 := by
        refine hs.full _ ?_
        have := Nat.div_add_mod' off BSIZE
        omega
      rw [if_pos ⟨by omega, hb⟩] at hcard
      omega

theorem wp_writei_logged (hE : E .logWrite) {src : Nat → UInt8} {lim : Option Nat} {off n : Nat} (h0 : s.logged = fun _ => false)
    (hs : Sound s.disk (s.itable j).d) (hoff : off ≤ (s.itable j).d.size) (hn : n ≤ 3 * BSIZE) :
    Wp E (writei sb j src lim off n) s fun _ s' =>
      ∃ F : Finset Nat, F.card ≤ MAXOPBLOCKS ∧ ∀ b, s'.logged b = true → b ∈ F := by
  have hsize := hs.size
  have hmax : MAXFILE * BSIZE < 2 ^ 31 := by decide
  have hbs : BSIZE = 1024 := rfl
  have hmod : (off + n) % 2 ^ 32 = off + n := Nat.mod_eq_of_lt (by omega)
  have hnone : ∃ F : Finset Nat, F.card ≤ MAXOPBLOCKS ∧ ∀ b, s.logged b = true → b ∈ F :=
    ⟨∅, by simp, fun _ h => absurd h (by simp [h0])⟩
  simp only [writei, wp_bind, wp_inode]
  refine wp_ite (fun _ => hnone) fun _ => ?_
  rw [hmod]
  refine wp_ite (fun _ => hnone) fun hle => ?_
  rw [wp_bind]
  have hloop : off + (n - 0) ≤ MAXFILE * BSIZE := by omega
  refine (wp_writeiLoop_logged hE rfl hloop).mono fun r t ht => ?_
  obtain ⟨F, ind, x', hF, hit, hcard⟩ := ht.card_le hs hoff hn
  simp only [wp_bind, wp_setCopy]
  refine (wp_iupdate_adds hE).mono fun _ u hu => ?_
  generalize IBLOCK sb _ = c at hu
  refine ⟨F ∪ {ind} ∪ {c}, ?_, fun b hb => ?_⟩
  · have h1 := Finset.card_union_le (F ∪ {ind}) {c}
    have h2 := Finset.card_union_le F {ind}
    rw [Finset.card_singleton] at h1 h2
    have : MAXOPBLOCKS = 10 := rfl
    omega
  · rcases (hu.logged b).mp hb with hb | hb
    · rcases hF.logged b hb with hb | hb | hb
      · rw [h0] at hb
        cases hb
      · simp [hb]
      · simp [hb]
    · exact Finset.mem_union_right _ hb

/-- The blocks that one `writei` of `filewrite` passes to `log_write`. The transaction is empty at its start; the inode
    has its blocks, and nothing is said of the rest of the disk. It can panic only outside a transaction. -/
theorem filewrite_fits (sb : Superblock) (s : Core) (j : Nat) (src : Nat → UInt8) (lim : Option Nat) (off n : Nat)
    (hs : Sound s.disk (s.itable j).d) (hoff : off ≤ (s.itable j).d.size) (hn : n ≤ (MAXOPBLOCKS - 1 - 1 - 2) / 2 * BSIZE) :
    match writei sb j src lim off n { s with logged := fun _ => false } with
    | .ok (_, s') => ∃ F : Finset Nat, F.card ≤ MAXOPBLOCKS ∧ ∀ b, s'.logged b = true ↔ b ∈ F
    | .error e => e = .logWrite := by
  obtain ⟨t, ht⟩ : ∃ t : Core, t = { s with logged := fun _ => false } := ⟨_, rfl⟩
  have hw : Wp (fun e => e = .logWrite) (writei sb j src lim off n) t _ :=
    wp_writei_logged (E := fun e => e = .logWrite) rfl (by rw [ht]) (by rw [ht]; exact hs) (by rw [ht]; exact hoff) hn
  rw [← ht]
  split
  · rename_i r s' hr
    obtain ⟨F, hcard, hF⟩ := hw.of_ok hr
    refine ⟨F.filter (s'.logged · = true), Nat.le_trans (Finset.card_filter_le ..) hcard, fun b => ?_⟩
    rw [Finset.mem_filter]
    exact ⟨fun hb => ⟨hF b hb, hb⟩, fun hb => hb.2⟩
  · rename_i e hr
    exact hw.of_error hr

/-- Three blocks to the root directory. -/
theorem filewrite_fits_tiny : match writei tinySb 0 (fun _ => 7) (some 5000) 32 3072 tinyOpen with
    | .ok (_, s') => ∃ F : Finset Nat, F.card ≤ MAXOPBLOCKS ∧ ∀ b, s'.logged b = true ↔ b ∈ F
    | .error e => e = .logWrite :=
  filewrite_fits tinySb tinyOpen 0 (fun _ => 7) (some 5000) 32 3072
    (by have := tinyOpen_sound; rwa [tinyOpen_root] at this) (by decide) (by decide)

end Xv6.Fs
