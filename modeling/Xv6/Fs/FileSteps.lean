/-
  Xv6.Fs.FileSteps — what the calls on open files do to the file system: they read, write to
  files that are not directories, and drop references. A reader changes nothing and is in no
  transaction.
-/

import Xv6.Fs.World

namespace Xv6.Fs

open Function (update update_self forall_update_iff)
open Lib (Wp wp_bind wp_ite wp_when wp_get)

variable {sb : Superblock} [Lost sb] {E : Panic → Prop} {s s' : St} {n : Nat} {x : Nat → Nat} {f p : Nat}

theorem Evolves.of_eq (hw : World sb 0 x s') (hd : s'.core.disk = s.core.disk) (hp : s'.core.past = s.core.past) :
    Evolves sb x s s' := by
  refine ⟨hw, ?_⟩
  rw [hd, hp]
  exact .refl

/-! ## The tables -/

section

variable (hw : World sb n x s)
include hw

theorem World.setFile_same {y : File} (ht : y.type = (s.ftable f).type) (hi : y.ip = (s.ftable f).ip)
    (hwr : y.writable = (s.ftable f).writable) (hn : f < NFILE → y.ref = 0 → y.type = .none) :
    World sb n x (s.setFile f y) := by
  have hu : users { s with ftable := update s.ftable f y } = users s :=
    users_congr_file fun j => by rw [File.uses, File.uses, ht, hi]
  refine hw.setFile (by rw [hu]) hn fun hf h1 h2 => ?_
  rw [ht] at h1
  rw [hwr] at h2
  rw [hi]
  exact hw.plain f hf h1 h2

theorem World.alloc : World sb n x (s.setFile f { s.ftable f with ref := 1 }) :=
  hw.setFile_same rfl rfl rfl fun _ h0 => absurd h0 Nat.one_ne_zero

theorem world_filedup : Wp (Ev E) (filedup f) s fun r s' =>
    r = f ∧ s'.core = s.core ∧ s'.proc = s.proc ∧ World sb n x s' := by
  simp only [filedup, wp_bind, wp_get]
  refine wp_ite (fun _ => trivial) fun hr => ?_
  exact ⟨rfl, rfl, rfl, hw.setFile_same rfl rfl rfl fun _ h0 => absurd h0 (Nat.succ_ne_zero _)⟩

theorem World.setFd {fd : Nat} {v : Option Nat} (hv : ∀ f, v = some f → f < NFILE) : World sb n x (s.setFd p fd v) :=
  hw.setProc (congrArg (· + x) (users_congr_proc fun _ => Iff.rfl)) fun hp =>
    (forall_update_iff (s.proc p).ofile fun k w => k < NOFILE → ∀ f, w = some f → f < NFILE).mpr
      ⟨fun _ => hv, fun k _ => hw.fd p hp k⟩

theorem World.giveFd {fd : Nat} (hf : f < NFILE) : World sb n x (s.setFd p fd (some f)) :=
  hw.setFd fun _ hg => by cases hg; exact hf

theorem World.clearFd (p fd : Nat) : World sb n x (s.setFd p fd Option.none) := hw.setFd nofun

end

theorem world_argfd (hp : p < NPROC) (hw : World sb n x s) {fd : Int} {Q : Option Nat → St → Prop} (hnone : Q none s)
    (hsome : ∀ f < NFILE, Q (some f) s) : Wp (Ev E) (argfd p fd) s Q :=
  wp_argfd hnone fun f hlt hf => hsome f (hw.fd p hp _ hlt f hf)

/-! ## Closing -/

theorem world_fileclose_none (hw : World sb n x s) (ht : (s.ftable f).type = .none) (hr : (s.ftable f).ref = 1) :
    Wp (Ev E) (fileclose sb f) s fun _ s' =>
      s' = s.setFile f { s.ftable f with ref := 0, type := .none } ∧ World sb n x s' := by
  simp only [fileclose, wp_bind, wp_get, hr, ht]
  rw [if_neg (by omega), if_neg (by omega)]
  simp only [wp_bind, wp_setFile]
  exact ⟨rfl, hw.setFile_same ht.symm rfl rfl fun _ _ => rfl⟩

theorem world_iput_core (hL : Layout sb) {j : Nat} (hw : World sb 1 (x + one j) s) :
    Wp E (iput sb j) s.core fun _ t =>
      World sb 1 x { s with core := t } ∧ (view sb s.core.disk (s.core.itable j).inum).type ≠ 0 ∧
        view sb t.disk = release (view sb s.core.disk) (s.core.itable j).inum ((users s + x) j) ∧ t.past = s.core.past := by
  have hrefs : refs s.core = users s + x + one j := hw.refs.trans (add_assoc ..).symm
  have halive := hw.ready.alive j (pos_of_refs hrefs)
  refine (wp_release hL hw.ready hrefs rfl (Nat.lt_of_lt_of_eq Nat.one_pos hw.out.symm)).mono
    fun _ t ⟨h1, h2, h3, h4, h5⟩ => ?_
  have hm := minor_release (k := (users s + x) j) halive
  rw [← h5] at hm
  refine ⟨⟨h1, h2, hm.dirs hw.dirs, h4.out.trans hw.out, nofun, h4.synced hw.synced, hw.none, hw.fd, fun f hf hfi hfw => ?_⟩,
    halive, h5, h4.past⟩
  have hpos : 0 < users s (s.ftable f).ip := users_pos_of_file hf (File.uses_of_inode hfi)
  show (view sb t.disk (t.itable (s.ftable f).ip).inum).type ≠ T_DIR
  rw [h3.inum _ (by rw [Pi.add_apply]; omega)]
  exact fun hT => hw.plain f hf hfi hfw (hm.keeps _ (hw.ready.alive _ (hw.pos hpos)) hT)

theorem world_iput (hL : Layout sb) {j : Nat} (hw : World sb 0 (x + one j) s) :
    Wp (Ev E) (do fs begin_op; fs (iput sb j); fs end_op) s fun _ s' =>
      Evolves sb x s s' ∧ s'.ftable = s.ftable ∧ s'.proc = s.proc := by
  rw [wp_bind, wp_core, wp_begin_op hw.out, wp_bind, wp_core]
  refine (world_iput_core hL hw.begun).mono fun _ t ⟨hw2, halive, hv, hp⟩ => ?_
  rw [wp_core, wp_end_op hw2.out]
  have hm : Minor (view sb s.core.disk) (view sb t.disk) := hv ▸ minor_release halive
  exact ⟨.of_minor hL hw2 hm hp, rfl, rfl⟩

theorem World.dropFile (hw : World sb n x s) (hf : f < NFILE) {y : File} (hy : y.type = .none)
    (ht : (s.ftable f).type = .inode ∨ (s.ftable f).type = .device) :
    World sb n (x + one (s.ftable f).ip) (s.setFile f y) := by
  refine hw.setFile ?_ (fun _ _ => hy) fun _ hc => ?_
  · funext j
    have := users_update_file (s := s) hf y j
    rw [if_uses_file j ht, if_not_uses_file j (by rw [hy]; decide)] at this
    simp only [Pi.add_apply]
    omega
  · rw [hy] at hc
    cases hc

theorem World.setPipe (hw : World sb n x s) (i : Nat) (y : Pipe) : World sb n x { s with pipes := update s.pipes i y } :=
  ⟨hw.ready, hw.refs, hw.dirs, hw.out, hw.clear, hw.synced, hw.none, hw.fd, hw.plain⟩

theorem world_pipeclose (hw : World sb n x s) {i : Nat} {w : Bool} : Wp (Ev E) (pipeclose i w) s fun _ s' =>
    World sb n x s' ∧ s'.core = s.core ∧ s'.proc = s.proc := by
  simp only [pipeclose, wp_bind, wp_get]
  exact wp_ite (fun _ => ⟨hw.setPipe .., rfl, rfl⟩) fun _ => ⟨hw.setPipe .., rfl, rfl⟩

theorem world_fileclose (hL : Layout sb) (hw : World sb 0 x s) (hf : f < NFILE) :
    Wp (Ev E) (fileclose sb f) s fun _ s' => Evolves sb x s s' ∧ s'.proc = s.proc := by
  simp only [fileclose, wp_bind, wp_get]
  refine wp_ite (fun _ => trivial) fun hr => ?_
  refine wp_ite (fun h1 => ?_) fun h1 => ?_
  · exact ⟨.of_eq (hw.setFile_same rfl rfl rfl fun _ h0 => absurd h0 (Nat.ne_of_gt h1)) rfl rfl, rfl⟩
  · simp only [wp_bind, wp_setFile]
    have hput : (s.ftable f).type = .inode ∨ (s.ftable f).type = .device →
        Wp (Ev E) (do fs begin_op; fs (iput sb (s.ftable f).ip); fs end_op)
          (s.setFile f { s.ftable f with ref := 0, type := .none }) fun _ s' => Evolves sb x s s' ∧ s'.proc = s.proc := fun ht =>
      (world_iput hL (hw.dropFile hf rfl ht)).mono fun _ s' h => ⟨⟨h.1.world, h.1.minors⟩, h.2.2⟩
    split
    · rename_i ht
      have hw1 : World sb 0 x (s.setFile f { s.ftable f with ref := 0, type := .none }) := by
        refine hw.setFile ?_ (fun _ _ => rfl) fun _ hc => by cases hc
        rw [users_congr_file fun j => ?_]
        simp [File.uses, ht]
      exact (world_pipeclose hw1).mono fun _ s' h => ⟨.of_eq h.1 (by rw [h.2.1]) (by rw [h.2.1]), h.2.2⟩
    · rename_i ht
      exact hput (.inl ht)
    · rename_i ht
      exact hput (.inr ht)
    · rename_i ht
      exact ⟨.of_eq (hw.setFile_same ht.symm rfl rfl fun _ _ => rfl) rfl rfl, rfl⟩

/-! ## Reading -/

theorem world_ilock (hw : World sb n x s) {j : Nat} (hj : 0 < users s j) : Wp (Ev E) (fs (ilock sb j)) s fun _ s' =>
    ∃ t, s' = { s with core := t } ∧ Still s.core t ∧ refs t = refs s.core ∧ World sb n x s' ∧
      Holds t j (s.core.itable j).inum ∧ Tabled sb (refs s.core) s.core t := by
  rw [wp_core]
  have hpos := hw.pos hj
  refine (wp_lock hw.ready hpos fun _ => hw.ready.alive j hpos).mono fun _ t ⟨h1, h2, _, h4, _⟩ => ?_
  have hw1 := hw.tabled (g := 0) h1 (by rw [h2, add_zero]) fun k hk => absurd hk (by rw [h2]; exact Nat.lt_irrefl _)
  rw [add_zero] at hw1
  exact ⟨t, rfl, h1.still, h2, hw1, h4, h1⟩

/-- What `fileread` leaves alone. -/
structure Untouched (s s' : Core) : Prop where
  still : Still s s'
  refs : refs s' = refs s

theorem world_fileread (hw : World sb 0 x s) (hf : f < NFILE) {lim : Nat} {m r : Int} :
    Wp (Ev E) (fileread sb f lim m r) s fun _ s' => World sb 0 x s' ∧ Untouched s.core s'.core := by
  simp only [fileread, wp_bind, wp_get]
  refine wp_ite (fun _ => ⟨hw, .refl, rfl⟩) fun _ => ?_
  split
  · exact ⟨hw, .refl, rfl⟩
  · exact ⟨hw, .refl, rfl⟩
  · rename_i ht
    rw [wp_bind]
    refine (world_ilock hw (users_pos_of_file hf (File.uses_of_inode ht))).mono fun _ s1 ⟨t, e, hst, href, hw1, hj, _⟩ => ?_
    subst e
    rw [wp_bind, wp_core]
    refine (wp_readi hw1.ready.inv.toBase hj ?_).mono fun v t' ⟨ht', _⟩ => ?_
    · have := Int.emod_lt_of_pos m (show (0 : Int) < 2 ^ 32 by decide)
      omega
    · subst ht'
      have hr : 0 < refs t (s.ftable f).ip := hj.ref
      refine wp_ite (fun _ => ?_) fun _ => ?_
      · rw [wp_bind, wp_setFile, wp_bind, wp_core]
        refine (wp_iunlock hr).mono fun _ t' ht' => ?_
        subst ht'
        exact ⟨hw1.setFile_same rfl rfl rfl (hw.none f), hst, href⟩
      · rw [wp_bind, wp_core]
        refine (wp_iunlock hr).mono fun _ t' ht' => ?_
        subst ht'
        exact ⟨hw1, hst, href⟩
  · exact trivial

/-! ## Writing -/

theorem minor_write {V : Nat → Node} {i off tot w : Nat} {src : Nat → UInt8} (h0 : (V i).type ≠ 0) (ht : (V i).type ≠ T_DIR) :
    Minor V (update V i ((V i).write off tot w src)) := .write h0 ht rfl rfl

/-- The state of a file that is being written to. -/
structure Writable (s : St) (f : Nat) : Prop where
  lt : f < NFILE
  type : (s.ftable f).type = .inode
  writable : (s.ftable f).writable = true

theorem world_filewriteFrom (hL : Layout sb) (hw : World sb 0 x s) (hf : Writable s f) {src : Nat → UInt8} {lim m fuel i : Nat} :
    Wp (Ev E) (filewriteFrom sb f src lim m fuel i) s fun _ s' => Evolves sb x s s' := by
  induction fuel generalizing s i with
  | zero => exact .refl hw
  | succ fuel ih =>
    simp only [filewriteFrom]
    refine wp_ite (fun _ => ?_) fun _ => .refl hw
    rw [wp_bind, wp_core, wp_begin_op hw.out, wp_bind, wp_get, wp_bind]
    have hw0 := hw.begun
    have hu : 0 < users s (s.ftable f).ip := users_pos_of_file hf.lt (File.uses_of_inode hf.type)
    refine (world_ilock hw0 hu).mono fun _ s1 ⟨t, e, hst, href, hw1, hj, htab⟩ => ?_
    subst e
    rw [wp_bind, wp_core]
    have ho : 0 < t.outstanding := Nat.lt_of_lt_of_eq Nat.one_pos hw1.out.symm
    have halive := hw1.ready.inv.view_type_ne hj
    have hplain := hw1.plain f hf.lt hf.type hf.writable
    rw [show (t.itable (s.ftable f).ip).inum = _ from hj.inum] at hplain
    refine (wp_writei hL hw1.ready.inv hj ho ?_).mono fun r t' hr => ?_
    · exact Nat.lt_of_le_of_lt (Nat.min_le_right ..) (by decide)
    -- a minor step, either way
    have hstep : ∃ V, During sb t 0 V t' ∧ Minor (view sb s.core.disk) V := by
      have hv : view sb t.disk = view sb s.core.disk := by rw [hst.disk]; rfl
      rcases hr with ⟨-, e, -⟩ | ⟨tot, w, -, -, hc⟩
      · subst e
        exact ⟨_, during_zero hw1.ready, by rw [hv]; exact .same⟩
      · refine ⟨_, (during_zero hw1.ready).change hc halive, ?_⟩
        rw [hv] at halive hplain ⊢
        exact minor_write halive hplain
    obtain ⟨V, hd, hm⟩ := hstep
    have hw2 : World sb 1 x { s with core := t' } := hw1.during_zero hd (hm.dirs hw.dirs) (by
      rw [show view sb t.disk = view sb s.core.disk by rw [hst.disk]; rfl]
      exact hm.keeps)
    have hpos : 0 < refs t' (s.ftable f).ip := by rw [hd.refs, add_zero]; exact hj.ref
    have hpast : t'.past = s.core.past := hd.logs.past.trans hst.past
    rw [← hd.view] at hm
    refine wp_when (fun s2 => World sb 1 x s2 ∧ s2.core = t' ∧ Writable s2 f) (fun _ => ?_)
      (fun _ => ⟨hw2, rfl, hf.lt, hf.type, hf.writable⟩) fun s2 ⟨hs2, e, hf2⟩ => ?_
    · rw [wp_setFile]
      refine ⟨hw2.setFile_same rfl rfl rfl (hw.none f), rfl, hf.lt, ?_, ?_⟩
      · show (update s.ftable f _ f).type = _
        rw [update_self]
        exact hf.type
      · show (update s.ftable f _ f).writable = _
        rw [update_self]
        exact hf.writable
    -- the end of the round, with the file's offset as it may be
    subst e
    rw [wp_bind, wp_core]
    refine (wp_iunlock hpos).mono fun _ t2 ht2 => ?_
    subst ht2
    rw [wp_bind, wp_core, wp_end_op hs2.out]
    have hev := Evolves.of_minor (s := s) hL hs2 hm hpast
    refine wp_ite (fun _ => hev) fun _ => ?_
    exact (ih hev.world ⟨hf2.lt, hf2.type, hf2.writable⟩).mono fun _ s' h => hev.trans h

theorem world_filewrite (hL : Layout sb) (hw : World sb 0 x s) (hf : f < NFILE) {src : Nat → UInt8} {lim : Nat} {m r : Int} :
    Wp (Ev E) (filewrite sb f src lim m r) s fun _ s' => Evolves sb x s s' := by
  simp only [filewrite, wp_bind, wp_get]
  refine wp_ite (fun _ => .refl hw) fun hwr => ?_
  split
  · exact .refl hw
  · exact .refl hw
  · rename_i ht
    rw [wp_bind]
    exact (world_filewriteFrom hL hw ⟨hf, ht, by simpa using hwr⟩).mono fun _ s' h => h
  · exact trivial

end Xv6.Fs
