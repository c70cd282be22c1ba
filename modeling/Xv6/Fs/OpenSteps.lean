/-
  Xv6.Fs.OpenSteps — `open`: the inode first, found or created, then a file and a descriptor.
  The second half can fail after the first has created a file; nothing takes that back.
-/

import Xv6.Fs.NameSteps

namespace Xv6.Fs

open Lib (Wp wp_bind wp_ite wp_when wp_get)

variable {sb : Superblock} [Lost sb] {E : Panic → Prop} {s s' : St} {n : Nat} {x : Nat → Nat} {c t : Core} {i j p cwd : Nat}
  {path : List UInt8} {omode : Nat}

/-! ## The inode -/

theorem wp_nameiLock (hL : Layout sb) (hG : Guard E (view sb c.disk)) (hr : Ready sb (refs c) c) (hc : 0 < refs c cwd)
    (hd : Dirs sb (view sb c.disk)) :
    Wp E (namei sb cwd path) c fun r t => (r = none ∧ Same sb c t) ∨
      ∃ j, r = some j ∧ Wp E (ilock sb j) t fun _ t' =>
        ∃ i, During sb c (one j) (view sb c.disk) t' ∧ Holds t' j i := by
  simp only [namei, wp_bind, Lib.wp_pure]
  refine (wp_namex hL (fun _ => hG.iget) hr hc hd hG.closed).mono fun r t ⟨ht, hr'⟩ => ?_
  rcases hr' with ⟨-, rfl, hrefs⟩ | ⟨i, nm, j, -, rfl, hrefs, hinum, halive⟩
  · exact .inl ⟨rfl, same_of_tabled hr ht hrefs⟩
  · have hrt := hr.tabled ht fun k => by rw [hrefs]; exact le_add_one ..
    refine .inr ⟨j, rfl, (wp_lock hrt (pos_of_refs hrefs) fun hn => ?_).mono fun _ t' ⟨h1, h2, _, h4, _⟩ => ?_⟩
    · rw [ht.still.disk, hinum]
      exact halive hn
    · exact ⟨_, during_one hr (ht.trans h1) (h2.trans hrefs) h4, h4⟩

/-- A `create` that returns has made a file iff it could. -/
theorem create_makes_iff (hL : Layout sb) (hr : Ready sb (refs c) c) (hc : 0 < refs c cwd) (hd : Dirs sb (view sb c.disk))
    (ho : 0 < c.outstanding) (hpath : 0 ∉ path) {r : Option Nat} (h : create sb cwd path T_FILE 0 0 c = .ok (r, t)) :
    (∃ j, r = some j ∧ (view sb c.disk (t.itable j).inum).type = 0) ↔ Creatable sb c.disk (c.itable cwd).inum path := by
  have hw := wp_create (E := fun _ => True) hL trivial hr hc hd (fun hn => absurd trivial hn) ho hpath (show T_FILE ≠ 0 by decide)
    (by decide) (Nat.two_pow_pos 16) (Nat.two_pow_pos 16)
  cases hw.of_ok h with
  | fail _ hm => exact iff_of_false nofun (hm (by decide))
  | old _ hty _ hj hm =>
    refine iff_of_false (fun ⟨j, e, h0⟩ => ?_) hm
    cases e
    rw [hj.inum] at h0
    rw [h0] at hty
    rcases hty with h | h <;> cases h
  | new hfree _ _ _ _ _ hj _ hm => exact iff_of_true ⟨_, rfl, by rw [hj.inum, hfree]; rfl⟩ (hm (by decide))

inductive OpenResult (sb : Superblock) [Lost sb] (c : Core) (cwd : Nat) (path : List UInt8) (omode : Nat)
  (t : Core) : Option Nat → Prop
  | fail : Same sb c t → (omode &&& O_CREATE ≠ 0 → ¬ Creatable sb c.disk (c.itable cwd).inum path) →
    OpenResult sb c cwd path omode t none
  | old {i j : Nat} : During sb c (one j) (view sb c.disk) t → Holds t j i →
      ((view sb c.disk i).type = T_DIR → omode = O_RDONLY) →
      (omode &&& O_CREATE ≠ 0 → ¬ Creatable sb c.disk (c.itable cwd).inum path) → OpenResult sb c cwd path omode t (some j)
  | new {i j d e n : Nat} {name : List UInt8} : omode &&& O_CREATE ≠ 0 →
      Creatable sb c.disk (c.itable cwd).inum path → view sb c.disk i = .free → 0 < i →
        NewEntry (view sb c.disk) (c.itable cwd).inum path d e name → NameOk name →
      (0 < n ↔ Held c d) → During sb c (one j) (release (created (view sb c.disk) T_FILE 0 0 i d e name) d n) t →
      Holds t j i → OpenResult sb c cwd path omode t (some j)

theorem rdonly_or_file (h : T_DIR = T_FILE ∨ T_DIR = T_DEVICE) : omode = O_RDONLY := by
  rcases h with h | h <;> cases h

theorem wp_openCheck (hr : Ready sb (refs c) c) (hd : During sb c (one j) (view sb c.disk) t) (hj : Holds t j i)
    (hT : (view sb c.disk i).type = T_DIR → omode = O_RDONLY)
    (hm : omode &&& O_CREATE ≠ 0 → ¬ Creatable sb c.disk (c.itable cwd).inum path) :
    Wp E (do
      let x := (← inode j).d
      if x.type = T_DEVICE ∧ (toInt16 x.major < 0 ∨ (NDEV : Int) ≤ toInt16 x.major) then do
        iunlockput sb j
        return none
      return some j) t fun r t' => OpenResult sb c cwd path omode t' r := by
  simp only [wp_bind, wp_inode]
  refine wp_ite (fun _ => ?_) fun _ => .old hd hj hT hm
  rw [wp_bind]
  exact (wp_putSame hr hd).mono fun _ t' h => .fail h hm

theorem wp_openInode (hL : Layout sb) (hG : Guard E (view sb c.disk)) (hr : Ready sb (refs c) c) (hc : 0 < refs c cwd)
    (hd : Dirs sb (view sb c.disk)) (ho : 0 < c.outstanding) (hpath : 0 ∉ path) :
    Wp E (openInode sb cwd path omode) c fun r t => OpenResult sb c cwd path omode t r := by
  simp only [openInode]
  refine wp_ite (fun hcr => ?_) fun hcr => ?_
  · rw [wp_bind]
    refine (wp_create hL hG.iget hr hc hd hG.closed ho hpath (show T_FILE ≠ 0 by decide) (by decide) (by decide)
      (by decide)).mono fun r t ht => ?_
    cases ht with
    | fail h hm => exact .fail h fun _ => hm (by decide)
    | @old i j _ hty h hj hm => exact wp_openCheck hr h hj (fun hT => rdonly_or_file (hT ▸ hty)) fun _ => hm
    | @new i j d e n name hfree hpos he hn hh h hj _ hm =>
      -- the new inode is a file, so the check of the device number passes
      have hid : i ≠ d := ne_of_free hfree (walkFrom_parent he.walk)
      have htype : (t.itable j).d.type = T_FILE := by
        rw [h.ready.inv.copy_type hj, h.view, release_of_ne hid, created_self hid]
        rfl
      simp only [wp_bind, wp_inode, htype]
      rw [if_neg fun hcon => nomatch hcon.1]
      exact .new hcr (hm (by decide)) hfree hpos he hn hh h hj
  · rw [wp_bind]
    refine (wp_nameiLock hL hG hr hc hd).mono fun r t hr' => ?_
    rcases hr' with ⟨rfl, h⟩ | ⟨j, rfl, hl⟩
    · exact .fail h fun h0 => absurd h0 hcr
    · rw [wp_bind]
      refine hl.mono fun _ t ⟨i, h, hj⟩ => ?_
      simp only [wp_bind, wp_inode, h.ready.inv.copy_type hj, h.view]
      refine wp_ite (fun _ => ?_) fun hT => ?_
      · rw [wp_bind]
        exact (wp_putSame hr h).mono fun _ t' h' => .fail h' fun h0 => absurd h0 hcr
      · exact wp_openCheck hr h hj (fun hd => by_contra fun hne => hT ⟨hd, hne⟩) fun h0 => absurd h0 hcr

/-! ## The file and the descriptor -/

/-- There is no free file, or the process has no free descriptor. -/
def Full (s : St) (p : Nat) : Prop :=
  (∀ f < NFILE, (s.ftable f).ref ≠ 0) ∨ ∀ fd < NOFILE, (s.proc p).ofile fd ≠ none

theorem world_fileAndFd (hw : World sb n x s) : Wp (Ev E) (fileAndFd sb p) s fun r s' =>
    World sb n x s' ∧ s'.core = s.core ∧ ((r = none ∧ Full s p) ∨
      ∃ f fd, r = some (f, fd) ∧ f < NFILE ∧ (s'.ftable f).type = .none ∧ (s'.ftable f).ref = 1 ∧ ¬ Full s p) := by
  simp only [fileAndFd, wp_bind]
  refine wp_filealloc.mono fun r s1 hr => ?_
  rcases hr with ⟨rfl, rfl, hall⟩ | ⟨f, hf, rfl, hz, rfl⟩
  · exact ⟨hw, rfl, .inl ⟨rfl, .inl hall⟩⟩
  simp only [wp_bind]
  have hself : Function.update s.ftable f { s.ftable f with ref := 1 } f = { s.ftable f with ref := 1 } :=
    Function.update_self ..
  have ht := (congrArg File.type hself).trans (hw.none f hf hz)
  refine wp_fdalloc.mono fun r s2 hr => ?_
  rcases hr with ⟨rfl, rfl, hall⟩ | ⟨fd, hfd, rfl, hnone, rfl⟩
  · simp only [wp_bind]
    refine (world_fileclose_none hw.alloc ht (congrArg File.ref hself)).mono fun _ s2 ⟨e2, hw2⟩ => ?_
    subst e2
    exact ⟨hw2, rfl, .inl ⟨rfl, .inr hall⟩⟩
  · refine ⟨hw.alloc.giveFd hf, rfl, .inr ⟨f, fd, rfl, hf, ht, congrArg File.ref hself, ?_⟩⟩
    rintro (h | h)
    · exact h f hf hz
    · exact h fd hfd hnone

theorem World.openFile (hw : World sb n (x + one j) s) {f : Nat} (hf : f < NFILE) (ht : (s.ftable f).type = .none) {y : File}
    (hy : y.type = .inode ∨ y.type = .device) (hip : y.ip = j) (hr : y.ref ≠ 0)
    (hp : y.type = .inode → y.writable = true → (view sb s.core.disk (s.core.itable j).inum).type ≠ T_DIR) :
    World sb n x (s.setFile f y) := by
  refine hw.setFile ?_ (fun _ h0 => absurd h0 hr) fun _ h1 h2 => by rw [hip]; exact hp h1 h2
  funext k
  have := users_update_file (s := s) hf y k
  rw [if_uses_file k hy, if_not_uses_file k (by rw [ht]; decide), hip] at this
  simp only [Pi.add_apply]
  omega

theorem world_openRest (hL : Layout sb) (hw : World sb 1 (0 + one j) s) (hj : Holds s.core j i)
    (hT : (view sb s.core.disk i).type = T_DIR → omode = O_RDONLY)
    (hkeep : release (view sb s.core.disk) i (users s j) = view sb s.core.disk) :
    Wp (Ev E) (show Sys Int from do
      match ← fileAndFd sb p with
      | none => do
        fs (iunlockput sb j)
        fs end_op
        return -1
      | some (f, fd) => do
        let x := (← fs (inode j)).d
        let old := (← get).ftable f
        let old := if x.type = T_DEVICE then { old with type := .device, major := x.major }
          else { old with type := .inode, off := 0 }
        setFile f { old with
          ip := j
          readable := omode &&& O_WRONLY = 0
          writable := omode &&& O_WRONLY ≠ 0 ∨ omode &&& O_RDWR ≠ 0 }
        if omode &&& O_TRUNC ≠ 0 ∧ x.type = T_FILE then fs (itrunc sb j)
        fs (iunlock j)
        fs end_op
        return fd) s fun r s' => ∃ s2, s' = { s2 with core := ended s2.core } ∧ World sb 1 0 s2 ∧
          s2.core.past = s.core.past ∧
          ((r = -1 ∧ Full s p ∧ view sb s2.core.disk = view sb s.core.disk) ∨
            (r ≠ -1 ∧ ¬ Full s p ∧ (view sb s2.core.disk = view sb s.core.disk ∨
              (view sb s.core.disk i).type = T_FILE ∧
                view sb s2.core.disk = Function.update (view sb s.core.disk) i (view sb s.core.disk i).trunc))) := by
  rw [wp_bind]
  refine (world_fileAndFd hw).mono fun r s1 ⟨hw1, hcore, hr⟩ => ?_
  rw [← hcore] at hj hT hkeep ⊢
  rcases hr with ⟨rfl, hfull⟩ | ⟨f, fd, rfl, hf, hnone, href, hfull⟩
  · have husers : users s1 = users s := by
      have h1 := hw1.refs
      rw [hcore, hw.refs] at h1
      exact (add_right_cancel h1).symm
    rw [wp_bind, wp_core, iunlockput, wp_bind]
    refine (wp_iunlock hj.ref).mono fun _ t ht => ?_
    subst ht
    refine (world_iput_core hL hw1).mono fun _ t ⟨hw2, _, hv, hp⟩ => ?_
    rw [wp_bind, wp_core, wp_end_op hw2.out]
    refine ⟨{ s1 with core := t }, rfl, hw2, hp, .inl ⟨rfl, hfull, ?_⟩⟩
    show view sb t.disk = _
    rw [hv, hj.inum, add_zero, husers, hkeep]
  · simp only
    rw [wp_bind, wp_core, wp_inode, wp_bind, wp_get, wp_bind, wp_setFile, hw1.ready.inv.copy_type hj]
    generalize hy : (if (view sb s1.core.disk i).type = T_DEVICE then _ else _ : File) = old
    have hold : (old.type = .inode ∨ old.type = .device) ∧ old.ref = 1 := by
      rw [← hy]
      split
      · exact ⟨.inr rfl, href⟩
      · exact ⟨.inl rfl, href⟩
    have hw2 := hw1.openFile (y := { old with
      ip := j
      readable := omode &&& O_WRONLY = 0
      writable := omode &&& O_WRONLY ≠ 0 ∨ omode &&& O_RDWR ≠ 0 }) hf hnone hold.1 rfl (by rw [hold.2]; exact Nat.one_ne_zero)
      fun _ hwr hdir => by
        rw [hj.inum] at hdir
        rw [hT hdir] at hwr
        have hwr : decide (O_RDONLY &&& O_WRONLY ≠ 0 ∨ O_RDONLY &&& O_RDWR ≠ 0) = true := hwr
        exact absurd hwr (by decide)
    refine wp_when (fun s2 => World sb 1 0 s2 ∧ s2.core.past = s1.core.past ∧ 0 < refs s2.core j ∧
      (view sb s2.core.disk = view sb s1.core.disk ∨ (view sb s1.core.disk i).type = T_FILE ∧
        view sb s2.core.disk = Function.update (view sb s1.core.disk) i (view sb s1.core.disk i).trunc)) (fun htr => ?_)
      (fun _ => ⟨hw2, rfl, hj.ref, .inl rfl⟩) fun s2 ⟨hs2, hpast, hpos, hv⟩ => ?_
    · rw [wp_core]
      refine (wp_itrunc_view hL hw2.ready.inv hj (Nat.lt_of_lt_of_eq Nat.one_pos hw2.out.symm)).mono fun _ t hc => ?_
      have halive := hw2.ready.inv.view_type_ne hj
      have hd := (during_zero hw2.ready).change hc halive
      have hm : Minor (view sb s1.core.disk) (Function.update (view sb s1.core.disk) i (view sb s1.core.disk i).trunc) :=
        .write halive (by rw [htr.2]; decide) rfl rfl
      have hw3 := hw2.during_zero hd (hm.dirs hw2.dirs) hm.keeps
      exact ⟨hw3, hd.logs.past, by rw [hd.refs, add_zero]; exact hj.ref, .inr ⟨htr.2, hd.view⟩⟩
    · -- the end, after the inode has perhaps been truncated
      rw [wp_bind, wp_core]
      refine (wp_iunlock hpos).mono fun _ t ht => ?_
      subst ht
      rw [wp_bind, wp_core, wp_end_op hs2.out]
      exact ⟨s2, rfl, hs2, hpast, .inr ⟨by omega, hfull, hv⟩⟩

/-! ## open -/

/-- `open` creates the file and then finds no file or no descriptor for it. -/
def Loses (sb : Superblock) (s : St) (p : Nat) (m : List UInt8) (omode : Nat) : Prop :=
  omode &&& O_CREATE ≠ 0 ∧
    (∃ path, argstr m = some path ∧ Creatable sb s.core.disk (s.core.itable (s.proc p).cwd).inum path) ∧ Full s p

theorem trunc_newNode : (newNode T_FILE 0 0).trunc = newNode T_FILE 0 0 := rfl

theorem world_sys_open (hL : Layout sb) (hw : World sb 0 0 s) (hp : p < NPROC) (hu : (s.proc p).state = .used)
    (hG : Guard E (view sb s.core.disk)) {m : List UInt8} :
    Wp (Ev E) (sys_open sb p m omode) s fun r s' => Done sb p (.open m omode) s s' ∧
      (r = -1 → (view sb s'.core.disk = view sb s.core.disk ∧ ¬ Loses sb s p m omode) ∨
        (Loses sb s p m omode ∧ ∃ path i d e name, i < sb.ninodes ∧ view sb s.core.disk i = .free ∧ 0 < i ∧
          NewEntry (view sb s.core.disk) (s.core.itable (s.proc p).cwd).inum path d e name ∧ NameOk name ∧
          view sb s'.core.disk = created (view sb s.core.disk) T_FILE 0 0 i d e name)) := by
  rw [sys_open]
  cases hm : argstr m with
  | none =>
    refine ⟨.of_evolves (.refl hw), fun _ => .inl ⟨rfl, ?_⟩⟩
    rintro ⟨-, ⟨path, h1, -⟩, -⟩
    rw [hm] at h1
    cases h1
  | some path =>
    simp only
    rw [wp_bind, wp_get, wp_bind, wp_core, wp_begin_op hw.out, wp_bind, wp_core]
    have hb := hw.begun
    refine (wp_openInode hL (c := begun s.core) hG hb.ready (hb.cwd_pos hp hu) hb.dirs Nat.one_pos (argstr_zero hm)).mono
      fun r t ht => ?_
    have hloses : (omode &&& O_CREATE ≠ 0 → ¬ Creatable sb s.core.disk (s.core.itable (s.proc p).cwd).inum path) →
        ¬ Loses sb s p m omode := by
      rintro h ⟨h1, ⟨path', h2, h3⟩, -⟩
      rw [hm] at h2
      cases h2
      exact h h1 h3
    have hview : view sb (begun s.core).disk = view sb s.core.disk := rfl
    cases ht with
    | fail h hn =>
      simp only
      have hw1 := hb.during_zero h.during hb.dirs .refl
      rw [wp_bind, wp_core, wp_end_op hw1.out]
      exact ⟨⟨hw1.ended, .same h.view (committed_ended hL hw1 h.logs.past)⟩, fun _ => .inl ⟨h.view, hloses hn⟩⟩
    | @old i j h hj hT hn =>
      have hw1 := hb.during h hb.dirs .refl
      have halive : (view sb s.core.disk i).type ≠ 0 := by
        have := h.ready.inv.view_type_ne hj
        rwa [h.view] at this
      have husers : users s j = refs (begun s.core) j := by rw [show refs (begun s.core) = _ from hw.refs, add_zero]
      refine (world_openRest (s := { s with core := t }) hL hw1 hj (by rw [h.view]; exact hT) ?_).mono
        fun r s' ⟨s2, e, hw2, hpast, hr⟩ => ?_
      · rw [h.view]
        have hheld : 0 < users s j ↔ Held (begun s.core) i := by
          rw [husers]
          exact during_held h hj
        exact release_parent hb.ready hheld ((h.ready.inv.mid i).live hj) halive rfl
      · subst e
        rw [h.view] at hr
        have hm : Minor (view sb s.core.disk) (view sb s2.core.disk) := by
          rcases hr with ⟨-, -, hv⟩ | ⟨-, -, hv | ⟨ht, hv⟩⟩
          · rw [hv]; exact .same
          · rw [hv]; exact .same
          · rw [hv]; exact .write halive (by rw [show (view sb s.core.disk i).type = T_FILE from ht]; decide) rfl rfl
        refine ⟨.of_evolves (.of_minor hL hw2 hm (hpast.trans h.logs.past)), fun h1 => .inl ⟨?_, hloses hn⟩⟩
        rcases hr with ⟨-, -, hv⟩ | ⟨h2, -⟩
        · exact hv
        · exact absurd h1 h2
    | @new i j d e n name hcr hmk hfree hpos he hn hh h hj =>
      have htd : (view sb s.core.disk d).type = T_DIR := walkFrom_parent he.walk
      have hid : i ≠ d := ne_of_free hfree htd
      have hi := h.ready.inv.nameable hj
      have hl : Live sb d := hw.live hp hu he.walk
      have hd : Nameable sb d := ⟨lt_of_type (b := s.core.disk) (by rw [htd]; decide), fun _ => hl⟩
      have hw1 := hb.during h (dirs_created hL hb.dirs hi hd htd he.le hn).release
        ((keeps_created (congrArg Node.type hfree) htd).trans fun _ => release_type)
      have hself : release (created (view sb s.core.disk) T_FILE 0 0 i d e name) d n i = newNode T_FILE 0 0 := by
        rw [release_of_ne hid, created_self hid]
        rfl
      refine (world_openRest (s := { s with core := t }) hL hw1 hj ?_ ?_).mono fun r s' ⟨s2, e, hw2, hpast, hr⟩ => ?_
      · rw [h.view, hview, hself]
        exact fun hc => nomatch hc
      · rw [h.view, hview]
        exact release_of_nlink (by rw [hself]; exact Nat.one_ne_zero)
      · subst e
        rw [h.view, hview, hself, trunc_newNode, ← hself, Function.update_eq_self, or_iff_left_of_imp And.right] at hr
        have hv : view sb s2.core.disk = _ := hr.elim (·.2.2) (·.2.2)
        refine ⟨⟨hw2.ended, .create ?_ hi.lt hfree hpos he hn hh hv (committed_ended hL hw2 (hpast.trans h.logs.past))⟩, ?_⟩
        · simp [Call.creates, hcr, hm]
        · intro h1
          rcases hr with ⟨-, hfull, -⟩ | ⟨h2, -⟩
          · refine .inr ⟨⟨hcr, ⟨path, hm, hmk⟩, hfull⟩, path, i, d, e, name, hi.lt, hfree, hpos, he, hn, hv.trans ?_⟩
            refine release_parent hb.ready hh hl (by rw [hview, htd]; decide) ?_
            unfold created
            rw [Function.update_self]
            rfl
          · exact absurd h1 h2

end Xv6.Fs
