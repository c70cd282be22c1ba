/-
  Xv6.Fs.CallSteps — every call keeps the file system and its users in step.
-/

import Xv6.Fs.OpenSteps

namespace Xv6.Fs

open Function (update update_self update_of_ne)
open Lib (Wp wp_bind wp_ite wp_get wp_pure)

variable {sb : Superblock} [Lost sb] {E : Panic → Prop} {s s' : St} {n : Nat} {x : Nat → Nat} {c t : Core} {i j p cwd : Nat}
  {path : List UInt8}

/-! ## The calls on descriptors -/

theorem world_sys_dup (hw : World sb 0 0 s) (hp : p < NPROC) {fd : Int} :
    Wp (Ev E) (sys_dup p fd) s fun _ s' => Evolves sb 0 s s' := by
  simp only [sys_dup, wp_bind]
  refine world_argfd hp hw (.refl hw) fun f hf => ?_
  simp only [wp_bind]
  refine wp_fdalloc.mono fun r s1 hr => ?_
  rcases hr with ⟨rfl, rfl, -⟩ | ⟨fd, -, rfl, -, rfl⟩
  · exact .refl hw
  · simp only [wp_bind, wp_pure]
    exact (world_filedup (hw.giveFd hf)).mono fun r s2 ⟨_, h2, _, h4⟩ => .of_eq h4 (by rw [h2]) (by rw [h2])

theorem world_sys_read (hw : World sb 0 0 s) (hp : p < NPROC) {fd : Int} {lim : Nat} {m r : Int} :
    Wp (Ev E) (sys_read sb p fd lim m r) s fun _ s' => Evolves sb 0 s s' ∧ Untouched s.core s'.core := by
  simp only [sys_read, wp_bind]
  refine world_argfd hp hw ⟨.refl hw, .refl, rfl⟩ fun f hf => ?_
  exact (world_fileread hw hf).mono fun _ s' ⟨h1, h2⟩ => ⟨.of_eq h1 h2.still.disk h2.still.past, h2⟩

theorem world_sys_write (hL : Layout sb) (hw : World sb 0 0 s) (hp : p < NPROC) {fd : Int} {src : Nat → UInt8} {lim : Nat}
    {m r : Int} : Wp (Ev E) (sys_write sb p fd src lim m r) s fun _ s' => Evolves sb 0 s s' := by
  simp only [sys_write, wp_bind]
  refine world_argfd hp hw (.refl hw) fun f hf => ?_
  exact world_filewrite hL hw hf

theorem world_sys_close (hL : Layout sb) (hw : World sb 0 0 s) (hp : p < NPROC) {fd : Int} :
    Wp (Ev E) (sys_close sb p fd) s fun _ s' => Evolves sb 0 s s' := by
  simp only [sys_close, wp_bind]
  refine world_argfd hp hw (.refl hw) fun f hf => ?_
  simp only [wp_bind, wp_setFd, wp_pure]
  exact (world_fileclose hL (hw.clearFd p fd.toNat) hf).mono fun _ s' h => ⟨h.1.world, h.1.minors⟩

/-! ## Pipes -/

theorem World.setFile_pipe (hw : World sb n x s) {f : Nat} (hn : (s.ftable f).type = .none) {y : File} (hy : y.type = .pipe)
    (hr : y.ref ≠ 0) : World sb n x (s.setFile f y) := by
  refine hw.setFile (congrArg (· + x) (users_congr_file fun j => ?_)) (fun _ h0 => absurd h0 hr) fun _ h1 => ?_
  · simp [File.uses, hy, hn]
  · rw [hy] at h1
    cases h1

theorem World.npipes (hw : World sb n x s) (i : Nat) (y : Pipe) :
    World sb n x { s with npipes := i + 1, pipes := update s.pipes i y } :=
  ⟨hw.ready, hw.refs, hw.dirs, hw.out, hw.clear, hw.synced, hw.none, hw.fd, hw.plain⟩

theorem world_pipealloc (hw : World sb 0 x s) {mem : Bool} : Wp (Ev E) (pipealloc sb mem) s fun r s' =>
    World sb 0 x s' ∧ s'.core = s.core ∧ ∀ f g, r = some (f, g) → f < NFILE ∧ g < NFILE := by
  simp only [pipealloc, wp_bind]
  refine wp_filealloc.mono fun r s1 hr => ?_
  rcases hr with ⟨rfl, rfl, -⟩ | ⟨f, hf, rfl, hz, e⟩
  · exact ⟨hw, rfl, nofun⟩
  simp only [wp_bind]
  have hself : s1.ftable f = { s.ftable f with ref := 1 } := by rw [e]; exact update_self ..
  have ht := hw.none f hf hz
  have hcore : s1.core = s.core := by rw [e]
  have hw1 : World sb 0 x s1 := e ▸ hw.alloc
  refine wp_filealloc.mono fun r s2 hr => ?_
  rcases hr with ⟨rfl, rfl, -⟩ | ⟨g, hg, rfl, hzg, e2⟩
  · simp only [wp_bind]
    refine (world_fileclose_none hw1 (by rw [hself]; exact ht) (by rw [hself])).mono fun _ s2 ⟨e2, hw2⟩ => ⟨hw2, ?_, nofun⟩
    subst e2
    exact hcore
  have hne : f ≠ g := by
    rintro rfl
    rw [hself] at hzg
    cases hzg
  have hf2 : s2.ftable f = { s.ftable f with ref := 1 } := by rw [e2]; exact (update_of_ne hne ..).trans hself
  have hg2 : s2.ftable g = { s1.ftable g with ref := 1 } := by rw [e2]; exact update_self ..
  have htg := hw1.none g hg hzg
  have hcore2 : s2.core = s.core := by rw [e2]; exact hcore
  have hw2 : World sb 0 x s2 := e2 ▸ hw1.alloc
  refine wp_ite (fun _ => ?_) fun _ => ?_
  · simp only [wp_bind]
    refine (world_fileclose_none hw2 (by rw [hf2]; exact ht) (by rw [hf2])).mono fun _ s3 ⟨e3, hw3⟩ => ?_
    have hg3 : s3.ftable g = { s1.ftable g with ref := 1 } := by
      subst e3
      exact (update_of_ne hne.symm ..).trans hg2
    refine (world_fileclose_none hw3 (by rw [hg3]; exact htg) (by rw [hg3])).mono fun _ s4 ⟨e4, hw4⟩ => ⟨hw4, ?_, nofun⟩
    subst e4 e3
    exact hcore2
  · simp only [wp_bind, wp_get, Lib.wp_modify, wp_setPipe, wp_setFile, wp_pure]
    have hw3 := (hw2.npipes s2.npipes ⟨true, true, 0⟩).setFile_pipe (f := f) (y := { s2.ftable f with
        type := .pipe, readable := true, writable := false, pipe := s2.npipes }) (by rw [hf2]; exact ht) rfl
      (by rw [hf2]; exact Nat.one_ne_zero)
    refine ⟨hw3.setFile_pipe (f := g) ?_ rfl ?_, hcore2, fun f' g' h => ?_⟩
    · show (update s2.ftable f _ g).type = _
      rw [update_of_ne hne.symm, hg2]
      exact htg
    · show (update s2.ftable f _ g).ref ≠ 0
      rw [update_of_ne hne.symm, hg2]
      exact Nat.one_ne_zero
    · cases h
      exact ⟨hf, hg⟩

theorem world_closeTwo (hL : Layout sb) (hw : World sb 0 x s) {f g : Nat} (hf : f < NFILE) (hg : g < NFILE) :
    Wp (Ev E) (do fileclose sb f; fileclose sb g; return (-1 : Int)) s fun _ s' => Evolves sb x s s' := by
  simp only [wp_bind, wp_pure]
  refine (world_fileclose hL hw hf).mono fun _ s1 ⟨h1, _⟩ => ?_
  exact (world_fileclose hL h1.world hg).mono fun _ s2 ⟨h2, _⟩ => h1.trans h2

theorem world_sys_pipe (hL : Layout sb) (hw : World sb 0 0 s) {mem good : Bool} :
    Wp (Ev E) (sys_pipe sb p mem good) s fun _ s' => Evolves sb 0 s s' := by
  simp only [sys_pipe]
  rw [wp_bind]
  refine (world_pipealloc hw).mono fun r s1 ⟨hw1, hcore, hr⟩ => ?_
  have h1 : Evolves sb 0 s s1 := .of_eq hw1 (by rw [hcore]) (by rw [hcore])
  rcases r with _ | ⟨f, g⟩
  · exact h1
  obtain ⟨hf, hg⟩ := hr f g rfl
  -- what follows leaves the file system alone until the ends are closed
  have hclose : ∀ s2 : St, World sb 0 0 s2 → s2.core = s.core →
      Wp (Ev E) (do fileclose sb f; fileclose sb g; return (-1 : Int)) s2 fun _ s' => Evolves sb 0 s s' :=
    fun s2 hw2 h2 => (world_closeTwo hL hw2 hf hg).mono fun _ s' h =>
      (Evolves.of_eq hw2 (by rw [h2]) (by rw [h2])).trans h
  simp only
  rw [wp_bind]
  refine wp_fdalloc.mono fun r s2 hr => ?_
  rcases hr with ⟨rfl, rfl, -⟩ | ⟨fd0, -, rfl, -, rfl⟩
  · exact hclose _ hw1 hcore
  have hw2 : World sb 0 0 (s1.setFd p fd0 (some f)) := hw1.giveFd hf
  simp only
  rw [wp_bind]
  refine wp_fdalloc.mono fun r s3 hr => ?_
  rcases hr with ⟨rfl, rfl, -⟩ | ⟨fd1, -, rfl, -, rfl⟩
  · rw [wp_bind, wp_setFd]
    exact hclose _ (hw2.clearFd p fd0) hcore
  · have hw3 : World sb 0 0 ((s1.setFd p fd0 (some f)).setFd p fd1 (some g)) := hw2.giveFd hg
    refine wp_ite (fun _ => ?_) fun _ => .of_eq hw3 (congrArg Core.disk hcore) (congrArg Core.past hcore)
    rw [wp_bind, wp_setFd, wp_bind, wp_setFd]
    exact hclose _ ((hw3.clearFd p fd0).clearFd p fd1) hcore

/-! ## Directories and programs -/

theorem World.setCwd {y : Proc} (hw : World sb n (x + one y.cwd) s) (hp : p < NPROC) (hu : (s.proc p).state = .used)
    (hy : y.state = .used) (hf : y.ofile = (s.proc p).ofile) :
    World sb n (x + one (s.proc p).cwd) { s with proc := update s.proc p y } := by
  refine hw.setProc ?_ fun _ => by rw [hf]; exact hw.fd p hp
  funext k
  have := users_update_proc (s := s) hp y k
  rw [if_uses_proc k hu, if_uses_proc k hy] at this
  simp only [Pi.add_apply]
  omega

theorem World.startProc {y : Proc} (hw : World sb n (x + one y.cwd) s) (hp : p < NPROC) (hu : (s.proc p).state ≠ .used)
    (hy : y.state = .used) (hf : y.ofile = (s.proc p).ofile) :
    World sb n x { s with proc := update s.proc p y } := by
  refine hw.setProc ?_ fun _ => by rw [hf]; exact hw.fd p hp
  funext k
  have := users_update_proc (s := s) hp y k
  rw [if_not_uses_proc k hu, if_uses_proc k hy] at this
  simp only [Pi.add_apply]
  omega

theorem World.endProc {y : Proc} (hw : World sb n x s) (hp : p < NPROC) (hu : (s.proc p).state = .used)
    (hy : y.state ≠ .used) (hf : y.ofile = (s.proc p).ofile) :
    World sb n (x + one (s.proc p).cwd) { s with proc := update s.proc p y } := by
  refine hw.setProc ?_ fun _ => by rw [hf]; exact hw.fd p hp
  funext k
  have := users_update_proc (s := s) hp y k
  rw [if_uses_proc k hu, if_not_uses_proc k hy] at this
  simp only [Pi.add_apply]
  omega

theorem World.setIdle {y : Proc} (hw : World sb n x s) (hu : (s.proc p).state ≠ .used)
    (hy : y.state ≠ .used) (hf : y.ofile = (s.proc p).ofile) :
    World sb n x { s with proc := update s.proc p y } := by
  refine hw.setProc (congrArg (· + x) (users_congr_proc fun j => ?_)) fun hp => by rw [hf]; exact hw.fd p hp
  simp [Proc.uses, hy, hu]

theorem wp_findDir (hL : Layout sb) (hw : World sb 1 0 s) (hp : p < NPROC) (hu : (s.proc p).state = .used)
    (hG : Guard E (view sb s.core.disk)) :
    Wp E (findDir sb (s.proc p).cwd path) s.core fun r t => (r = none ∧ Same sb s.core t) ∨
      ∃ j, r = some j ∧ World sb 1 0 { s with core := t, proc := update s.proc p { s.proc p with cwd := j } } ∧
        Minor (view sb s.core.disk) (view sb t.disk) ∧ t.past = s.core.past := by
  rw [findDir, wp_bind]
  refine (wp_nameiLock hL hG hw.ready (hw.cwd_pos hp hu) hw.dirs).mono fun r t hr => ?_
  rcases hr with ⟨rfl, h⟩ | ⟨j, rfl, hl⟩
  · exact .inl ⟨rfl, h⟩
  simp only
  rw [wp_bind]
  refine hl.mono fun _ t ⟨i, h, hj⟩ => ?_
  rw [wp_bind, wp_inode]
  refine wp_ite (fun _ => ?_) fun _ => ?_
  · rw [wp_bind]
    exact (wp_putSame hw.ready h).mono fun _ t' h' => .inl ⟨rfl, h'⟩
  · rw [wp_bind]
    refine (wp_iunlock hj.ref).mono fun _ t' ht' => ?_
    subst ht'
    -- the old directory is the call's to drop once the process has the new one
    have hw1 := (hw.during h hw.dirs .refl).setCwd (y := { s.proc p with cwd := j }) hp hu hu rfl
    rw [wp_bind]
    refine (world_iput_core hL hw1).mono fun _ t' ⟨hw2, halive, hv, hpast⟩ => .inr ⟨j, rfl, hw2, ?_, hpast.trans h.logs.past⟩
    rw [hv, ← h.view]
    exact minor_release halive

theorem world_sys_chdir (hL : Layout sb) (hw : World sb 0 0 s) (hp : p < NPROC) (hu : (s.proc p).state = .used)
    (hG : Guard E (view sb s.core.disk)) {m : List UInt8} :
    Wp (Ev E) (sys_chdir sb p m) s fun _ s' => Evolves sb 0 s s' := by
  rw [sys_chdir, wp_bind, wp_get]
  have hb := hw.begun
  cases hm : argstr m with
  | none =>
    rw [transaction, wp_bind, wp_core, wp_begin_op hw.out, wp_bind, wp_core, wp_pure, wp_bind, wp_core,
      wp_end_op hb.out]
    exact .of_minor hL hb .same rfl
  | some path =>
    simp only
    rw [wp_bind, transaction, wp_bind, wp_core, wp_begin_op hw.out, wp_bind, wp_core]
    refine (wp_findDir hL hb hp hu hG).mono fun r t hr => ?_
    rcases hr with ⟨rfl, h⟩ | ⟨j, rfl, hw1, hm, hpast⟩
    · have hw1 := hb.during_zero h.during hb.dirs .refl
      rw [wp_bind, wp_core, wp_end_op hw1.out]
      refine .of_minor hL hw1 ?_ h.logs.past
      show Minor _ (view sb t.disk)
      rw [h.view]
      exact .same
    · rw [wp_bind, wp_core, wp_end_op hw1.out]
      exact .of_minor hL hw1 hm hpast

theorem wp_reads (hI : Inv sb c) (hj : Holds c j i) (reads : List (Nat × Nat)) :
    Wp E (reads.forM fun (off, n) => do let _ ← readi sb j none off (n % 2 ^ 32)) c fun _ c' => c = c' := by
  induction reads with
  | nil => rfl
  | cons r reads ih =>
    rw [List.forM, wp_bind]
    simp only [wp_bind, wp_pure]
    refine (wp_readi hI.toBase hj (Nat.mod_lt _ (by decide))).mono fun _ c' ⟨h, _⟩ => ?_
    subst h
    exact ih

theorem wp_execRead (hL : Layout sb) (hr : Ready sb (refs c) c) (hc : 0 < refs c cwd) (hd : Dirs sb (view sb c.disk))
    (hG : Guard E (view sb c.disk)) {reads : List (Nat × Nat)} :
    Wp E (execRead sb cwd path reads) c fun _ t => Same sb c t := by
  rw [execRead, wp_bind]
  refine (wp_nameiLock hL hG hr hc hd).mono fun r t hr' => ?_
  rcases hr' with ⟨rfl, h⟩ | ⟨j, rfl, hl⟩
  · exact h
  simp only
  rw [wp_bind]
  refine hl.mono fun _ t ⟨i, h, hj⟩ => ?_
  rw [wp_bind]
  refine (wp_reads h.ready.inv hj reads).mono fun _ t' e => ?_
  subst e
  exact wp_putSame hr h

theorem world_exec (hL : Layout sb) (hw : World sb 0 0 s) (hp : p < NPROC) (hu : (s.proc p).state = .used)
    (hG : Guard E (view sb s.core.disk)) {reads : List (Nat × Nat)} :
    Wp (Ev E) (transaction (execRead sb (s.proc p).cwd path reads)) s fun _ s' => Evolves sb 0 s s' := by
  have hb := hw.begun
  have hex : Wp E (execRead sb (s.proc p).cwd path reads) (begun s.core) fun _ t => Same sb (begun s.core) t :=
    wp_execRead hL hb.ready (hb.cwd_pos hp hu) hb.dirs hG
  refine (world_transaction (y := fun _ => 0) hw hex fun r t h => hb.during_zero h.during hb.dirs .refl).mono
    fun r s' ⟨t, h, e, _, hw1⟩ => ?_
  subst e
  refine .of_minor hL hw1 ?_ h.logs.past
  show Minor _ (view sb t.disk)
  rw [h.view]
  exact .same

/-! ## Processes -/

theorem world_dupFd (hw : World sb 0 x s) (hp : p < NPROC) {np fd : Nat} (hfd : fd < NOFILE) :
    Wp (Ev E) (dupFd p np fd) s fun _ s' => World sb 0 x s' ∧ s'.core = s.core ∧ (s'.proc np).state = (s.proc np).state ∧
      ∀ q, q ≠ np → s'.proc q = s.proc q := by
  simp only [dupFd, wp_bind, wp_get]
  split
  · exact ⟨hw, rfl, rfl, fun _ _ => rfl⟩
  · rename_i f hf
    rw [wp_bind]
    refine (world_filedup hw).mono fun r s1 ⟨e, hcore, hproc, hw1⟩ => ?_
    subst e
    rw [wp_setFd]
    refine ⟨hw1.setFd fun g hg => ?_, hcore, ?_, fun q hq => ?_⟩
    · cases hg
      exact hw.fd p hp fd hfd _ hf
    · show (update s1.proc np _ np).state = _
      rw [update_self, hproc]
    · show update s1.proc np _ q = _
      rw [update_of_ne hq, hproc]

theorem world_fork (hw : World sb 0 0 s) (hp : p < NPROC) (hu : (s.proc p).state = .used) {mem : Bool} :
    Wp (Ev E) (fork p mem) s fun _ s' => Evolves sb 0 s s' := by
  simp only [fork, wp_bind, wp_get]
  split
  · exact .refl hw
  rename_i np hnp
  obtain ⟨-, hlt, hz, -⟩ := Lib.first_some hnp
  have hlt : np < NPROC := by omega
  have hz : (s.proc np).state = .unused := by simpa using hz
  refine wp_ite (fun _ => .refl hw) fun _ => ?_
  rw [wp_bind]
  refine (Lib.wp_forFrom (fun _ t => World sb 0 0 t ∧ t.core = s.core ∧ (t.proc np).state = .unused)
    ⟨hw, rfl, hz⟩ fun k t _ hk ⟨h1, h2, h3⟩ => ?_).mono fun _ t ⟨h1, h2, h3⟩ => ?_
  · exact (world_dupFd h1 hp (by omega)).mono fun _ u ⟨h4, h5, h6, _⟩ => ⟨h4, h5.trans h2, h6.trans h3⟩
  rw [wp_bind, wp_core, h2]
  have hpos : 0 < refs s.core (s.proc p).cwd := hw.cwd_pos hp hu
  refine (wp_idup hw.ready.inv.table hpos).mono fun r c ⟨e, htab, hrefs⟩ => ?_
  subst e
  rw [← h2] at htab hrefs hpos
  have hw1 := h1.tabled (g := one (s.proc p).cwd) htab hrefs fun k hk => ?_
  · rw [wp_bind, wp_get, wp_bind, wp_setProc]
    refine .of_eq (hw1.startProc (y := { t.proc np with state := .used, cwd := (s.proc p).cwd }) hlt ?_ rfl rfl) ?_ ?_
    · rw [h3]
      exact nofun
    · show c.disk = _
      rw [htab.still.disk, h2]
    · show c.past = _
      rw [htab.still.past, h2]
  · -- only the directory's count has grown, and the process is in it
    have hk0 : k = (s.proc p).cwd := by
      by_contra hne
      rw [hrefs, Pi.add_apply, one_of_ne hne] at hk
      omega
    rw [hk0, htab.still.disk, htab.ext.inum _ hpos]
    exact h1.ready.alive _ hpos

theorem world_closeFd (hL : Layout sb) (hw : World sb 0 x s) (hp : p < NPROC) {fd : Nat} (hfd : fd < NOFILE) :
    Wp (Ev E) (closeFd sb p fd) s fun _ s' => Evolves sb x s s' ∧ (s'.proc p).state = (s.proc p).state := by
  simp only [closeFd, wp_bind, wp_get]
  split
  · exact ⟨.refl hw, rfl⟩
  · rename_i f hf
    rw [wp_bind]
    refine (world_fileclose hL hw (hw.fd p hp fd hfd f hf)).mono fun _ s1 ⟨h1, hproc⟩ => ?_
    rw [wp_setFd]
    refine ⟨⟨h1.world.clearFd p fd, h1.minors⟩, ?_⟩
    show (update s1.proc p _ p).state = _
    rw [update_self, hproc]

theorem world_exit (hL : Layout sb) (hw : World sb 0 0 s) (hp : p < NPROC) (hu : (s.proc p).state = .used) :
    Wp (Ev E) (exit sb p) s fun _ s' => Evolves sb 0 s s' := by
  rw [exit, wp_bind]
  refine (Lib.wp_forFrom (fun _ t => Evolves sb 0 s t ∧ (t.proc p).state = .used) ⟨.refl hw, hu⟩
    fun k t _ hk ⟨h1, h2⟩ => ?_).mono fun _ t ⟨h1, h2⟩ => ?_
  · exact (world_closeFd hL h1.world hp (by omega)).mono fun _ u ⟨h3, h4⟩ => ⟨h1.trans h3, h4.trans h2⟩
  -- as if the process had ended before its directory is dropped
  have hw1 := h1.world.endProc (y := { t.proc p with state := .zombie }) hp h2 nofun rfl
  rw [wp_bind, wp_get, wp_bind, transaction, wp_bind, wp_core, wp_begin_op hw1.out, wp_bind, wp_core]
  refine (world_iput_core hL hw1.begun).mono fun _ c ⟨hw2, halive, hv, hpast⟩ => ?_
  rw [wp_bind, wp_core, wp_end_op hw2.out]
  have hm : Minor (view sb t.core.disk) (view sb c.disk) := hv ▸ minor_release halive
  exact h1.trans (Evolves.of_minor (s := t) hL hw2 hm hpast)

/-! ## Every call -/

theorem world_call (hL : Layout sb) (hw : World sb 0 0 s) (hp : p < NPROC) (hu : (s.proc p).state = .used)
    (hG : Guard E (view sb s.core.disk)) (c : Call) :
    Wp (Ev E) (call sb p c) s fun _ s' => Done sb p c s s' := by
  cases c with
  | dup fd => exact (world_sys_dup hw hp).mono fun _ _ h => .of_evolves h
  | read fd lim m r => exact (world_sys_read hw hp).mono fun _ _ h => .of_evolves h.1
  | write fd src lim m r => exact (world_sys_write hL hw hp).mono fun _ _ h => .of_evolves h
  | close fd => exact (world_sys_close hL hw hp).mono fun _ _ h => .of_evolves h
  | link old new => exact (world_sys_link hL hw hp hu hG).mono fun _ _ h => h.1
  | unlink path => exact (world_sys_unlink hL hw hp hu hG).mono fun _ _ h => h.1
  | «open» path omode => exact (world_sys_open hL hw hp hu hG).mono fun _ _ h => h.1
  | mkdir path => exact (world_sys_mkdir hL hw hp hu hG).mono fun _ _ h => h.1
  | mknod path major minor => exact (world_sys_mknod hL hw hp hu hG).mono fun _ _ h => h.1
  | chdir path => exact (world_sys_chdir hL hw hp hu hG).mono fun _ _ h => .of_evolves h
  | pipe mem good => exact (world_sys_pipe hL hw).mono fun _ _ h => .of_evolves h
  | fork mem => exact (world_fork hw hp hu).mono fun _ _ h => .of_evolves h
  | exec m reads r =>
    rw [call]
    cases argstr m with
    | none => exact .of_evolves (.refl hw)
    | some path =>
      simp only
      rw [wp_bind, wp_get, wp_bind]
      exact (world_exec hL hw hp hu hG).mono fun _ _ h => .of_evolves h
  | exit =>
    rw [call, wp_bind]
    exact (world_exit hL hw hp hu).mono fun _ _ h => .of_evolves h
  | wait q =>
    rw [call, wp_bind, wp_get]
    refine wp_ite (fun hz => ?_) fun _ => .of_evolves (.refl hw)
    rw [wp_bind, wp_setProc]
    refine .of_evolves (.of_eq (hw.setIdle ?_ ?_ rfl) rfl rfl)
    · rw [hz]
      exact nofun
    · exact nofun

end Xv6.Fs
