/-
  Xv6.Fs.FileCalls — every call keeps the references to open files (`Quiet`), so they are
  right in every run (`file_references`).
-/

import Xv6.Fs.Files

namespace Xv6.Fs

open Function (update update_self update_of_ne forall_update_iff)
open Lib (Wp wp_bind wp_ite wp_when wp_get wp_pure)

variable {sb : Superblock} {s s' : St}

/-! ## The calls -/

structure Quiet (s : St) : Prop where
  files : Files (fun _ => 0) s
  idle : Idle s

theorem Quiet.core (h : Quiet s) (c : Core) : Quiet { s with core := c } := ⟨h.files.core c, h.idle⟩

theorem Quiet.zero (h : Quiet s) : Files 0 s := h.files

theorem Idle.setProc {p : Nat} {y : Proc}
    (h : ∀ q, q ≠ p → (s.proc q).state ≠ .used → ∀ fd < NOFILE, (s.proc q).ofile fd = none)
    (hy : y.state ≠ .used → ∀ fd < NOFILE, y.ofile fd = none) : Idle { s with proc := update s.proc p y } :=
  (forall_update_iff s.proc fun _ z => z.state ≠ .used → ∀ fd < NOFILE, z.ofile fd = none).mpr ⟨hy, h⟩

theorem Idle.setFd (h : Idle s) {p fd : Nat} {v : Option Nat} (hp : (s.proc p).state = .used) : Idle (s.setFd p fd v) :=
  .setProc (fun q _ => h q) fun hn => absurd hp hn

theorem Idle.congr (h : Idle s) (e : s'.proc = s.proc) : Idle s' := by
  intro p hp fd hfd
  rw [e] at hp ⊢
  exact h p hp fd hfd

theorem Quiet.setProc (h : Quiet s) {p : Nat} {y : Proc} (hf : y.ofile = (s.proc p).ofile)
    (hy : y.state ≠ .used → (s.proc p).state ≠ .used) : Quiet { s with proc := update s.proc p y } :=
  ⟨h.files.setProc fun _ _ => by rw [hf], .setProc (fun q _ => h.idle q) fun hn => hf ▸ h.idle p (hy hn)⟩

section

variable {α : Type} {p : Nat}

theorem Quiet.argfd (h : Quiet s) (hp : p < NPROC) {fd : Int} {Q : Option Nat → St → Prop} (hnone : Q none s)
    (hsome : ∀ f, fd.toNat < NOFILE → (s.proc p).ofile fd.toNat = some f → f < NFILE → 0 < (s.ftable f).ref → Q (some f) s) :
    Wp Allowed (argfd p fd) s Q :=
  wp_argfd hnone fun f hlt ho =>
    have ⟨hf, hpos⟩ := h.files.ref_pos (q := (⟨p, hp⟩, ⟨_, hlt⟩)) ho (Int.le_refl _)
    hsome f hlt ho hf hpos

theorem wp_sys_dup (hp : p < NPROC) (hu : (s.proc p).state = .used) (h : Quiet s) {fd : Int} :
    Wp Allowed (sys_dup p fd) s fun _ s' => Quiet s' := by
  simp only [sys_dup, wp_bind]
  refine h.argfd hp h fun f _ _ hf hpos => ?_
  simp only [wp_bind]
  refine wp_fdalloc.mono fun r s' hr => ?_
  rcases hr with ⟨rfl, rfl, -⟩ | ⟨fd', hlt, rfl, hnone, rfl⟩
  · exact h
  · simp only [wp_bind, wp_pure]
    -- the new descriptor owes its reference
    refine (wp_filedup (h.zero.giveFd hp hlt hnone hf) hpos).mono fun _ t ⟨_, hproc, ht⟩ => ?_
    rw [sub_add_cancel] at ht
    exact ⟨ht, (h.idle.setFd hu).congr hproc⟩

theorem Quiet.setOff (h : Quiet s) {f : Nat} (hf : f < NFILE) (o : Nat) : Quiet (s.setFile f { s.ftable f with off := o }) :=
  ⟨h.files.setFile _ (by simp) (fun i w => Iff.rfl) (h.files.none f hf), h.idle⟩

theorem wp_sys_read (hp : p < NPROC) (h : Quiet s) {fd : Int} {lim : Nat} {n r : Int} :
    Wp Allowed (sys_read sb p fd lim n r) s fun _ s' => Quiet s' := by
  simp only [sys_read, wp_bind]
  refine h.argfd hp h fun f _ _ hf _ => ?_
  simp only [fileread, wp_bind, wp_get]
  refine wp_ite (fun _ => h) fun _ => ?_
  split
  · exact h
  · exact h
  · simp only [wp_bind]
    refine wp_fs fun _ _ => wp_fs fun v core => ?_
    refine wp_ite (fun _ => ?_) fun _ => ?_
    · simp only [wp_bind, wp_setFile]
      exact wp_fs fun _ core => (h.core core).setOff hf _
    · simp only [wp_bind, wp_pure]
      exact wp_fs fun _ core => h.core core
  · exact ⟨nofun, nofun⟩

theorem wp_filewriteFrom (h : Quiet s) {f : Nat} (hf : f < NFILE) {src : Nat → UInt8} {lim n fuel i : Nat} :
    Wp Allowed (filewriteFrom sb f src lim n fuel i) s fun _ s' => Quiet s' := by
  induction fuel generalizing s i with
  | zero => exact h
  | succ fuel ih =>
    simp only [filewriteFrom]
    refine wp_ite (fun _ => ?_) fun _ => h
    simp only [wp_bind, wp_get]
    refine wp_fs fun _ c1 => wp_fs fun _ c2 => wp_fs fun r c3 => ?_
    refine wp_when Quiet (fun _ => (h.core c3).setOff hf _) (fun _ => h.core c3) fun t ht => ?_
    simp only [wp_bind]
    refine wp_fs fun _ c4 => wp_fs fun _ c5 => ?_
    exact wp_ite (fun _ => ht.core c5) fun _ => ih (ht.core c5)

theorem wp_sys_write (hp : p < NPROC) (h : Quiet s) {fd : Int} {src : Nat → UInt8} {lim : Nat} {n r : Int} :
    Wp Allowed (sys_write sb p fd src lim n r) s fun _ s' => Quiet s' := by
  simp only [sys_write, wp_bind]
  refine h.argfd hp h fun f _ _ hf _ => ?_
  simp only [filewrite, wp_bind, wp_get]
  refine wp_ite (fun _ => h) fun _ => ?_
  split
  · exact h
  · exact h
  · simp only [wp_bind, wp_pure]
    exact wp_filewriteFrom h hf
  · exact ⟨nofun, nofun⟩

theorem wp_sys_close (hp : p < NPROC) (hu : (s.proc p).state = .used) (h : Quiet s) {fd : Int} :
    Wp Allowed (sys_close sb p fd) s fun _ s' => Quiet s' := by
  simp only [sys_close, wp_bind]
  refine h.argfd hp h fun f hlt hfd hf hpos => ?_
  simp only [wp_bind, wp_setFd, wp_pure]
  refine (wp_fileclose (h.zero.takeFd hp hlt hfd) hf hpos).mono fun _ t ⟨hproc, ht⟩ => ?_
  rw [add_sub_cancel_right] at ht
  exact ⟨ht, (h.idle.setFd hu).congr hproc⟩

theorem wp_fileAndFd (hp : p < NPROC) (hu : (s.proc p).state = .used) (h : Quiet s) :
    Wp Allowed (fileAndFd sb p) s fun r s' => Quiet s' ∧ ∀ f fd, r = some (f, fd) →
      f < NFILE ∧ (s'.ftable f).type = .none ∧ 0 < (s'.ftable f).ref := by
  simp only [fileAndFd, wp_bind]
  refine wp_filealloc.mono fun r t hr => ?_
  rcases hr with ⟨rfl, rfl, -⟩ | ⟨f, hf, rfl, hz, rfl⟩
  · exact ⟨h, nofun⟩
  obtain ⟨hn, hft⟩ := h.zero.alloc hf hz
  have htf : update s.ftable f { s.ftable f with ref := 1 } f = { s.ftable f with ref := 1 } := update_self ..
  simp only [wp_bind]
  refine wp_fdalloc.mono fun r u hr => ?_
  rcases hr with ⟨rfl, rfl, -⟩ | ⟨fd, hfd, rfl, hnone, rfl⟩
  · simp only [wp_bind, wp_pure]
    refine (wp_fileclose hft hf (Nat.lt_of_lt_of_eq Nat.one_pos (congrArg File.ref htf).symm)).mono fun _ v ⟨hv, hfv⟩ => ?_
    rw [add_sub_cancel_right] at hfv
    exact ⟨⟨hfv, h.idle.congr hv⟩, nofun⟩
  · have hfu := hft.giveFd hp hfd hnone hf
    rw [add_sub_cancel_right] at hfu
    refine ⟨⟨hfu, (h.idle.setFd hu).congr rfl⟩, fun g fd' hg => ?_⟩
    cases hg
    show f < NFILE ∧ (update s.ftable f _ f).type = .none ∧ 0 < (update s.ftable f _ f).ref
    rw [htf]
    exact ⟨hf, hn, Nat.one_pos⟩

theorem Quiet.setType (h : Quiet s) {f : Nat} (hn : (s.ftable f).type = .none) (hr : 0 < (s.ftable f).ref) {y : File}
    (hy : y.ref = (s.ftable f).ref) (ht : y.type ≠ .pipe) : Quiet (s.setFile f y) := by
  refine ⟨h.files.setFile y ?_ (fun i w => ?_) fun h0 => ?_, h.idle⟩
  · simp [hy]
  · exact ⟨fun hh => absurd hh.2.1 ht, fun hh => by cases hn.symm.trans hh.2.1⟩
  · omega

theorem wp_sys_open (hp : p < NPROC) (hu : (s.proc p).state = .used) (h : Quiet s) {path : List UInt8} {omode : Nat} :
    Wp Allowed (sys_open sb p path omode) s fun _ s' => Quiet s' := by
  unfold sys_open
  split
  · exact h
  · simp only [wp_bind, wp_get]
    refine wp_fs fun _ c1 => wp_fs fun r c2 => ?_
    cases r with
    | none =>
      simp only [wp_bind, wp_pure]
      exact wp_fs fun _ c => h.core c
    | some j =>
      simp only [wp_bind]
      refine (wp_fileAndFd (s := { s with core := c2 }) hp hu (h.core c2)).mono fun r t ⟨ht, hr⟩ => ?_
      cases r with
      | none =>
        simp only [wp_bind, wp_pure]
        exact wp_fs fun _ _ => wp_fs fun _ c => ht.core c
      | some ffd =>
        obtain ⟨f, fd⟩ := ffd
        obtain ⟨hf, hn, hpos⟩ := hr f fd rfl
        simp only [wp_bind, wp_get, wp_setFile]
        refine wp_fs fun x c3 => ?_
        have hset : Quiet { t with
            core := c3
            ftable := update t.ftable f
              { (if x.d.type = T_DEVICE then { t.ftable f with type := .device, major := x.d.major }
                  else { t.ftable f with type := .inode, off := 0 }) with
                ip := j
                readable := omode &&& O_WRONLY = 0
                writable := omode &&& O_WRONLY ≠ 0 ∨ omode &&& O_RDWR ≠ 0 } } := by
          refine (ht.core c3).setType hn hpos ?_ ?_ <;> split <;> first | rfl | nofun
        refine wp_ite (fun _ => ?_) fun _ => ?_
        · simp only [wp_bind, wp_pure]
          exact wp_fs fun _ _ => wp_fs fun _ _ => wp_fs fun _ c => hset.core c
        · simp only [wp_bind, wp_pure]
          exact wp_fs fun _ _ => wp_fs fun _ c => hset.core c

theorem wp_close_two {f g : Nat} (hf : f < NFILE) (hg : g < NFILE) (h : Files (Pi.single f 1 + Pi.single g 1) s)
    {k : Sys α} {Q : α → St → Prop} (hk : ∀ t, Files 0 t → t.proc = s.proc → Wp Allowed k t Q) :
    Wp Allowed (do fileclose sb f; fileclose sb g; k) s Q := by
  simp only [wp_bind]
  refine (wp_fileclose h hf ?_).mono fun _ t ⟨ht, hft⟩ => ?_
  · have := h.refs f hf
    rw [Pi.add_apply, Pi.single_eq_same, Pi.single_apply] at this
    split at this <;> omega
  rw [add_sub_cancel_left] at hft
  refine (wp_fileclose hft hg ?_).mono fun _ u ⟨hu, hfu⟩ => ?_
  · have := hft.refs g hg
    rw [Pi.single_eq_same] at this
    omega
  rw [sub_self] at hfu
  exact hk u hfu (hu.trans ht)

theorem wp_pipealloc (h : Quiet s) {mem : Bool} : Wp Allowed (pipealloc sb mem) s fun r s' =>
    s'.proc = s.proc ∧
    match r with
    | none => Files 0 s'
    | some (f, g) => f < NFILE ∧ g < NFILE ∧ Files (Pi.single f 1 + Pi.single g 1) s' := by
  simp only [pipealloc, wp_bind]
  refine wp_filealloc.mono fun r t hr => ?_
  rcases hr with ⟨rfl, rfl, -⟩ | ⟨f, hf, rfl, hz, et⟩
  · exact ⟨rfl, h.files⟩
  obtain ⟨hn, hft⟩ := h.zero.alloc hf hz
  have htf : t.ftable f = { s.ftable f with ref := 1 } := by rw [et]; exact update_self ..
  have hproc : t.proc = s.proc := by rw [et]
  rw [← et, zero_add] at hft
  simp only [wp_bind]
  refine wp_filealloc.mono fun r u hr => ?_
  rcases hr with ⟨rfl, rfl, -⟩ | ⟨g, hg, rfl, hgz, eu⟩
  · simp only [wp_bind, wp_pure]
    refine (wp_fileclose hft hf (by rw [htf]; exact Nat.one_pos)).mono fun _ v ⟨hv, hfv⟩ => ⟨hv.trans hproc, ?_⟩
    rwa [sub_self] at hfv
  obtain ⟨hgn, hfu⟩ := hft.alloc hg hgz
  have hfg : f ≠ g := by
    rintro rfl
    rw [htf] at hgz
    cases hgz
  have huf : u.ftable f = { s.ftable f with ref := 1 } := by rw [eu, ← htf]; exact update_of_ne hfg ..
  have hug : u.ftable g = { t.ftable g with ref := 1 } := by rw [eu]; exact update_self ..
  have hproc' : u.proc = s.proc := by rw [eu]; exact hproc
  rw [← eu] at hfu
  refine wp_ite (fun _ => ?_) fun _ => ?_
  · exact wp_close_two hf hg hfu fun v hv hp => ⟨hp.trans hproc', hv⟩
  · refine ⟨hproc', hf, hg, ?_⟩
    refine hfu.newPipe hf hg hfg (by rw [huf]; exact hn) (by rw [hug]; exact hgn) ⟨rfl, ?_, rfl, rfl, rfl⟩
      ⟨?_, ?_, rfl, rfl, rfl⟩
    · show 0 < (u.ftable f).ref
      rw [huf]
      exact Nat.one_pos
    · show (update u.ftable f _ g).ref = _
      rw [update_of_ne (Ne.symm hfg)]
    · show 0 < (update u.ftable f _ g).ref
      rw [update_of_ne (Ne.symm hfg), hug]
      exact Nat.one_pos

theorem wp_sys_pipe (hp : p < NPROC) (hu : (s.proc p).state = .used) (h : Quiet s) {mem good : Bool} :
    Wp Allowed (sys_pipe sb p mem good) s fun _ s' => Quiet s' := by
  simp only [sys_pipe, wp_bind]
  refine (wp_pipealloc h).mono fun r t ⟨hproc, hr⟩ => ?_
  have hi : Idle t := h.idle.congr hproc
  have hu : (t.proc p).state = .used := by rw [hproc]; exact hu
  cases r with
  | none => exact ⟨hr, hi⟩
  | some fg =>
    obtain ⟨f, g⟩ := fg
    obtain ⟨hf, hg, hft⟩ := hr
    simp only [wp_bind]
    refine wp_fdalloc.mono fun r u hr => ?_
    rcases hr with ⟨rfl, rfl, -⟩ | ⟨fd0, hfd0, rfl, hnone0, eu⟩
    · exact wp_close_two hf hg hft fun v hv hp => ⟨hv, hi.congr hp⟩
    have hup : u.proc p = { t.proc p with ofile := update (t.proc p).ofile fd0 (some f) } := by rw [eu]; exact update_self ..
    have huu : (u.proc p).state = .used := by rw [hup]; exact hu
    have hu0 : (u.proc p).ofile fd0 = some f := by rw [hup]; exact update_self ..
    have hiu : Idle u := eu ▸ hi.setFd hu
    have hfu := hft.giveFd hp hfd0 hnone0 hf
    rw [← eu, add_sub_cancel_left] at hfu
    simp only [wp_bind]
    refine wp_fdalloc.mono fun r v hr => ?_
    rcases hr with ⟨rfl, rfl, -⟩ | ⟨fd1, hfd1, rfl, hnone1, ev⟩
    -- the descriptor is cleared again, and the reference is the call's
    · rw [wp_bind, wp_setFd]
      have hback := hfu.takeFd hp hfd0 hu0
      rw [add_comm] at hback
      exact wp_close_two hf hg hback fun w hw hp => ⟨hw, (hiu.setFd huu).congr hp⟩
    have hne : fd1 ≠ fd0 := by
      rintro rfl
      rw [hu0] at hnone1
      cases hnone1
    have hvp : v.proc p = { u.proc p with ofile := update (u.proc p).ofile fd1 (some g) } := by rw [ev]; exact update_self ..
    have hvu : (v.proc p).state = .used := by rw [hvp]; exact huu
    have hv0 : (v.proc p).ofile fd0 = some f := by rw [hvp]; exact (update_of_ne hne.symm ..).trans hu0
    have hiv : Idle v := ev ▸ hiu.setFd huu
    have hfv := hfu.giveFd hp hfd1 hnone1 hg
    rw [← ev, sub_self] at hfv
    refine wp_ite (fun _ => ?_) fun _ => ⟨hfv, hiv⟩
    rw [wp_bind, wp_setFd, wp_bind, wp_setFd]
    have hback := (hfv.takeFd hp hfd0 hv0).takeFd (f := g) hp hfd1 (by simp [hne, hvp])
    rw [zero_add] at hback
    refine wp_close_two hf hg hback fun w hw hp => ⟨hw, Idle.congr ?_ hp⟩
    exact (hiv.setFd hvu).setFd (by simp [hvu])

/-- In the loop of `fork` at descriptor `k`: the child `np` has the descriptors below `k`. -/
structure Forking (s : St) (p np k : Nat) (t : St) : Prop where
  files : Files (fun _ => 0) t
  others : ∀ q, q ≠ np → t.proc q = s.proc q
  state : (t.proc np).state = (s.proc np).state
  above : ∀ fd, k ≤ fd → fd < NOFILE → (t.proc np).ofile fd = none

theorem wp_dupFd {np k : Nat} {t : St} (hp : p < NPROC) (hnp : np < NPROC) (hk : k < NOFILE)
    (h : Forking s p np k t) : Wp Allowed (dupFd p np k) t fun _ u => Forking s p np (k + 1) u := by
  simp only [dupFd, wp_bind, wp_get]
  cases ho : (t.proc p).ofile k with
  | none => exact ⟨h.files, h.others, h.state, fun fd h1 h2 => h.above fd (by omega) h2⟩
  | some f =>
    obtain ⟨hf, hpos⟩ := h.files.ref_pos (q := (⟨p, hp⟩, ⟨k, hk⟩)) ho (Int.le_refl _)
    simp only [wp_bind]
    refine (wp_filedup h.files hpos).mono fun r u ⟨hr, hproc, hfu⟩ => ?_
    subst hr
    simp only [wp_setFd]
    have hfv := hfu.giveFd hnp hk (by rw [hproc]; exact h.above k (Nat.le_refl _) hk) hf
    rw [add_sub_cancel_right] at hfv
    refine ⟨hfv, fun q hq => ?_, ?_, fun fd h1 h2 => ?_⟩
    · show update u.proc np _ q = s.proc q
      rw [update_of_ne hq, hproc]
      exact h.others q hq
    · show (update u.proc np _ np).state = _
      rw [update_self, hproc]
      exact h.state
    · show (update u.proc np _ np).ofile fd = none
      rw [update_self, hproc]
      exact (update_of_ne (by omega) ..).trans (h.above fd (by omega) h2)

theorem wp_fork (hp : p < NPROC) (h : Quiet s) {mem : Bool} :
    Wp Allowed (fork p mem) s fun _ s' => Quiet s' := by
  simp only [fork, wp_bind, wp_get]
  split
  · exact h
  · rename_i np hnp
    obtain ⟨-, hlt, hun, -⟩ := Lib.first_some hnp
    have hlt : np < NPROC := by omega
    have hun : (s.proc np).state = .unused := by simpa using hun
    refine wp_ite (fun _ => h) fun _ => ?_
    simp only [wp_bind]
    have h0 : Forking s p np 0 s := ⟨h.files, fun _ _ => rfl, rfl, fun fd _ hfd => h.idle np (by rw [hun]; nofun) fd hfd⟩
    refine (Lib.wp_forFrom (Forking s p np) h0 fun k t _ hk ht => wp_dupFd hp hlt (by omega) ht).mono fun _ t ht => ?_
    refine wp_fs fun cwd core => ?_
    simp only [wp_get, wp_setProc, wp_pure]
    exact ⟨(ht.files.core core).setProc fun _ _ => rfl, .setProc (fun q hq => ht.others q hq ▸ h.idle q) fun hn => absurd rfl hn⟩

/-- In the loop of `exit` at descriptor `k`: those below are closed. -/
structure Exiting (s : St) (p k : Nat) (t : St) : Prop where
  files : Files (fun _ => 0) t
  others : ∀ q, q ≠ p → t.proc q = s.proc q
  below : ∀ fd < k, (t.proc p).ofile fd = none

theorem wp_closeFd {k : Nat} {t : St} (hp : p < NPROC) (hk : k < NOFILE) (h : Exiting s p k t) :
    Wp Allowed (closeFd sb p k) t fun _ u => Exiting s p (k + 1) u := by
  simp only [closeFd, wp_bind, wp_get]
  cases ho : (t.proc p).ofile k with
  | none =>
    refine ⟨h.files, h.others, fun fd hfd => ?_⟩
    rcases Nat.lt_succ_iff_lt_or_eq.mp hfd with hlt | rfl
    · exact h.below fd hlt
    · exact ho
  | some f =>
    obtain ⟨hf, hpos⟩ := h.files.ref_pos (q := (⟨p, hp⟩, ⟨k, hk⟩)) ho (Int.le_refl _)
    simp only [wp_bind]
    refine (wp_fileclose h.files hf hpos).mono fun _ u ⟨hproc, hfu⟩ => ?_
    simp only [wp_setFd]
    have hfv := hfu.takeFd hp hk (by rw [hproc]; exact ho)
    rw [sub_add_cancel] at hfv
    refine ⟨hfv, fun q hq => ?_, fun fd hfd => ?_⟩
    · show update u.proc p _ q = s.proc q
      rw [update_of_ne hq, hproc]
      exact h.others q hq
    · show (update u.proc p _ p).ofile fd = none
      rw [update_self, hproc]
      exact (forall_update_iff (t.proc p).ofile fun fd v => fd < k + 1 → v = none).mpr
        ⟨fun _ => rfl, fun fd e hfd => h.below fd (by omega)⟩ fd hfd

theorem wp_exit (hp : p < NPROC) (h : Quiet s) : Wp Allowed (exit sb p) s fun _ s' => Quiet s' := by
  simp only [exit, wp_bind]
  have h0 : Exiting s p 0 s := ⟨h.files, fun _ _ => rfl, nofun⟩
  refine (Lib.wp_forFrom (Exiting s p) h0 fun k t _ hk ht => wp_closeFd hp (by omega) ht).mono fun _ t ht => ?_
  simp only [wp_get]
  refine wp_transaction fun _ core => ?_
  simp only [wp_setProc]
  exact ⟨(ht.files.core core).setProc fun _ _ => rfl, .setProc (fun q hq => ht.others q hq ▸ h.idle q) fun _ fd hfd =>
    ht.below fd (by omega)⟩

theorem wp_call (hp : p < NPROC) (hu : (s.proc p).state = .used) (h : Quiet s) (c : Call) :
    Wp Allowed (call sb p c) s fun _ s' => Quiet s' := by
  cases c with
  | dup fd => exact wp_sys_dup hp hu h
  | read fd lim n r => exact wp_sys_read hp h
  | write fd src lim n r => exact wp_sys_write hp h
  | close fd => exact wp_sys_close hp hu h
  | link old new =>
    simp only [call, sys_link]
    split
    · simp only [wp_bind, wp_get, wp_pure]
      exact wp_transaction fun _ core => h.core core
    · exact h
  | unlink path =>
    simp only [call, sys_unlink]
    split
    · simp only [wp_bind, wp_get, wp_pure]
      exact wp_transaction fun _ core => h.core core
    · exact h
  | «open» path omode => exact wp_sys_open hp hu h
  | mkdir path =>
    simp only [call, sys_mkdir, wp_bind, wp_get, wp_pure]
    exact wp_transaction fun _ core => h.core core
  | mknod path major minor =>
    simp only [call, sys_mknod, wp_bind, wp_get, wp_pure]
    exact wp_transaction fun _ core => h.core core
  | chdir path =>
    simp only [call, sys_chdir, wp_bind, wp_get]
    split
    · exact wp_transaction fun _ core => h.core core
    · simp only [wp_bind]
      refine wp_transaction fun r core => ?_
      cases r with
      | none => exact h.core core
      | some j =>
        simp only [wp_bind, wp_setProc, wp_pure]
        exact (h.core core).setProc rfl id
  | pipe mem good => exact wp_sys_pipe hp hu h
  | fork mem => exact wp_fork hp h
  | exec path reads r =>
    simp only [call]
    split
    · exact h
    · simp only [wp_bind, wp_get, wp_pure]
      exact wp_transaction fun _ core => h.core core
  | exit =>
    simp only [call, wp_bind, wp_pure]
    exact wp_exit hp h
  | wait q =>
    simp only [call, wp_bind, wp_get]
    refine wp_ite (fun hz => ?_) fun _ => h
    simp only [wp_bind, wp_setProc, wp_pure]
    exact h.setProc rfl fun _ => by rw [hz]; nofun

end

/-! ## Runs -/

theorem Quiet.boot (d : Disk) : Quiet (Fs.boot d) := by
  have hslots : ∀ f, slots (Fs.boot d) f = 0 := fun f => Lib.count_eq_zero.mpr fun q hq => by cases hq
  have hend : ∀ f i w, ¬ ((Fs.boot d).ftable f).End i w := fun f i w hh => absurd hh.1 (Nat.lt_irrefl 0)
  refine ⟨⟨fun f _ => ?_, ?_, fun _ _ _ => rfl, nofun, fun f _ i w hh => absurd hh (hend f i w),
    fun f _ g _ i w hh => absurd hh (hend f i w), nofun⟩, fun _ _ _ _ => rfl⟩
  · rw [hslots]
    rfl
  · intro q f hq
    cases hq

theorem quiet {image : Disk → Prop} (h : (sys sb image).Reach s) : Quiet s := by
  refine Lib.Sys.invariant (fun s hs => ?_) (fun s a s' _ hi hs => ?_) h
  · obtain ⟨d, -, rfl⟩ := hs
    exact .boot d
  · obtain ⟨hp, hu, -, r, hr⟩ := next_some hs
    exact (wp_call hp hu hi a.2).of_ok hr

/-- A file that nothing has been stored in goes back as it was. -/
theorem fileclose_fresh {f : Nat} (hz : (s.ftable f).ref = 0) (hn : (s.ftable f).type = .none) :
    fileclose sb f (s.setFile f { s.ftable f with ref := 1 }) = .ok ((), s) := by
  have hc : Wp (fun _ => False) (fileclose sb f) (s.setFile f { s.ftable f with ref := 1 }) fun _ t => t = s := by
    have hback : { s.ftable f with ref := 0, type := .none } = s.ftable f := by rw [← hn, ← hz]
    simp [fileclose, St.setFile, hn, hback]
  obtain ⟨_, _, hc, rfl⟩ := hc.returns
  exact hc

/-- In every run from any disk: a file's count is the number of descriptors that name it, and a file without
    references has no type; a pipe's end is open as long as a file in use is that end, and its page is freed once,
    when both are closed. No call panics over a count. Files that `filealloc` has just returned, one in `open` or
    two in `pipealloc`, are closed without a trace. -/
theorem file_references {image : Disk → Prop} (h : (sys sb image).Reach s) :
    (∀ f < NFILE, (s.ftable f).ref = slots s f) ∧
    (∀ f < NFILE, (s.ftable f).ref = 0 → (s.ftable f).type = .none) ∧
    (∀ i < s.npipes,
      ((s.pipes i).readopen = true ↔ ∃ f < NFILE, (s.ftable f).End i false) ∧
      ((s.pipes i).writeopen = true ↔ ∃ f < NFILE, (s.ftable f).End i true) ∧
      (s.pipes i).freed = if (s.pipes i).readopen = false ∧ (s.pipes i).writeopen = false then 1 else 0) ∧
    (∀ p c e, p < NPROC → (s.proc p).state = .used → call sb p c s = .error e → e ≠ .filedup ∧ e ≠ .fileclose) ∧
    ∀ c f s', filealloc { s with core := c } = .ok (some f, s') → fileclose sb f s' = .ok ((), { s with core := c }) ∧
      ∀ g t, filealloc s' = .ok (some g, t) →
        ∃ t', fileclose sb f t = .ok ((), t') ∧ fileclose sb g t' = .ok ((), { s with core := c }) := by
  have hq := quiet h
  refine ⟨fun f hf => ?_, hq.files.none, fun i hi => ⟨hq.files.ends i hi false, hq.files.ends i hi true, hq.files.freed i hi⟩,
    fun p c e hp hu he => (wp_call hp hu hq c).of_error he, fun c f s' ha => ?_⟩
  · have := hq.files.refs f hf
    omega
  · obtain ⟨hr, -⟩ | ⟨f', hf, hr, hz, e⟩ := wp_filealloc.of_ok (E := Allowed) ha <;> cases hr
    have hn := hq.files.none f hf hz
    subst e
    refine ⟨fileclose_fresh hz hn, fun g t hb => ?_⟩
    obtain ⟨hr, -⟩ | ⟨g', hg, hr, hz', rfl⟩ := wp_filealloc.of_ok (E := Allowed) hb <;> cases hr
    have hne : g ≠ f := by
      rintro rfl
      simp at hz'
    have hg0 : ({ s with core := c }.setFile f { s.ftable f with ref := 1 }).ftable g = s.ftable g := update_of_ne hne ..
    rw [hg0] at hz' ⊢
    -- the two files are stored in either order
    set u : St := { s with core := c }.setFile g { s.ftable g with ref := 1 }
    have hf0 : u.ftable f = s.ftable f := update_of_ne hne.symm ..
    have hclose : fileclose sb f (u.setFile f { u.ftable f with ref := 1 }) = .ok ((), u) :=
      fileclose_fresh (by rw [hf0]; exact hz) (by rw [hf0]; exact hn)
    rw [hf0] at hclose
    refine ⟨u, ?_, fileclose_fresh hz' (hq.files.none g hg hz')⟩
    rw [← hclose]
    exact congrArg (fun t => fileclose sb f { s with core := c, ftable := t }) (Function.update_comm hne.symm ..)

/-- After `pipe` and `fork` each end of the pipe has two descriptors. -/
theorem file_references_forked : ∃ s, (sys ⟨0, 0, 0, 0⟩ fun _ => True).Reach s ∧ (s.ftable 0).ref = 2 ∧ slots s 0 = 2 ∧
    (s.pipes 0).readopen = true := by
  have hrun : (Lib.Sys.runAll (next ⟨0, 0, 0, 0⟩) (fun _ _ => true) (boot fun _ _ => 0)
      [(0, .pipe true true), (0, .fork true)]).any
        (fun s => decide ((s.ftable 0).ref = 2 ∧ 0 < s.npipes ∧ ((s.ftable 0).type = .pipe ∧ (s.ftable 0).pipe = 0 ∧
          (s.ftable 0).writable = false))) = true := by decide +kernel
  obtain ⟨s, hs, hp⟩ : ∃ s, (sys ⟨0, 0, 0, 0⟩ fun _ => True).Reach s ∧ _ := Lib.Sys.reach_of_any _ _ ⟨_, trivial, rfl⟩ hrun
  obtain ⟨hr, hn, he⟩ := of_decide_eq_true hp
  have h := file_references hs
  refine ⟨s, hs, hr, (h.1 0 (by decide)).symm.trans hr, (h.2.2.1 0 hn).1.mpr ⟨0, by decide, by omega, he⟩⟩

end Xv6.Fs
