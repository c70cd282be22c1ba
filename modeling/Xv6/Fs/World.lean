/-
  Xv6.Fs.World — the file system together with those who use it.

  `World n x s`: with `n` operations under way, the references to inodes are those of open files
  and current directories and the call's own, `x`; the inodes on the disk are those in the
  transaction or at home. What a transaction does to the file system is a step from one view to
  another; the commit at its end shows the new one (`Shows`). A call that is not about names only
  makes minor steps (`Minor`).
-/

import Xv6.Fs.LinkSpecs
import Xv6.Fs.Files

namespace Xv6.Fs

open Function (update update_self update_of_ne forall_update_iff)

/-- The file has a reference to entry `j` of the inode table. -/
def File.uses (j : Nat) (x : File) : Prop := (x.type = .inode ∨ x.type = .device) ∧ x.ip = j

instance (j : Nat) (x : File) : Decidable (x.uses j) := inferInstanceAs (Decidable (_ ∧ _))

/-- The process has one. -/
def Proc.uses (j : Nat) (x : Proc) : Prop := x.state = .used ∧ x.cwd = j

instance (j : Nat) (x : Proc) : Decidable (x.uses j) := inferInstanceAs (Decidable (_ ∧ _))

/-- The references of files and processes. -/
def users (s : St) (j : Nat) : Nat :=
  Lib.count (File.uses j) (fun f : Fin NFILE => s.ftable f) + Lib.count (Proc.uses j) (fun p : Fin NPROC => s.proc p)

structure World (sb : Superblock) [Lost sb] (n : Nat) (x : Nat → Nat) (s : St) : Prop where
  ready : Ready sb (refs s.core) s.core
  refs : refs s.core = users s + x
  dirs : Dirs sb (view sb s.core.disk)
  out : s.core.outstanding = n
  clear : n = 0 → s.core.logged = fun _ => false
  synced : ∀ b < sb.bmapstart, s.core.logged b = true ∨ s.core.home b = s.core.disk b
  none : ∀ f < NFILE, (s.ftable f).ref = 0 → (s.ftable f).type = .none
  fd : ∀ p < NPROC, ∀ fd < NOFILE, ∀ f, (s.proc p).ofile fd = some f → f < NFILE
  plain : ∀ f < NFILE, (s.ftable f).type = .inode → (s.ftable f).writable = true →
    (view sb s.core.disk (s.core.itable (s.ftable f).ip).inum).type ≠ T_DIR

/-- The panics that are allowed: of the file system those in `E`. -/
def Ev (E : Panic → Prop) : SysPanic → Prop
  | .fs e => E e
  | _ => True

variable {sb : Superblock} [Lost sb] {E : Panic → Prop} {s s' : St} {n : Nat} {x g : Nat → Nat} {V : Nat → Node} {t : Core}

theorem wp_core {α : Type} {c : M α} {Q : α → St → Prop} :
    Lib.Wp (Ev E) (fs c) s Q = Lib.Wp E c s.core fun a t => Q a { s with core := t } := Lib.wp_onPart

/-! ## Transactions -/

def begun (s : Core) : Core := { s with outstanding := 1 }

def ended (s : Core) : Core :=
  { s with outstanding := 0, logged := fun _ => false, home := s.commit, past := s.commit :: s.past }

theorem wp_begin_op {c : Core} (h : c.outstanding = 0) {Q : Unit → Core → Prop} : Lib.Wp E begin_op c Q = Q () (begun c) := by
  rw [begin_op, Lib.wp_modify, h]
  rfl

theorem wp_end_op {c : Core} (h : c.outstanding = 1) {Q : Unit → Core → Prop} : Lib.Wp E end_op c Q = Q () (ended c) := by
  rw [end_op, Lib.wp_modify, h]
  rfl

section

variable {c c' : Core} {h : Nat → Nat}

theorem Inv.congr (hi : Inv sb c) (hd : c'.disk = c.disk) (ht : c'.itable = c.itable) : Inv sb c' := by
  refine ⟨⟨?_, ?_, ?_, ?_⟩, fun i h1 hl => ?_⟩ <;> rw [hd]
  · exact hi.blocks
  · exact hi.table.same ht
  · exact hi.sound
  · exact hi.lost
  · intro h2 h3
    obtain ⟨j, hj⟩ := hi.orphan i h1 hl h2 h3
    exact ⟨j, by rw [ht]; exact hj.ref, by rw [ht]; exact hj.inum, by rw [ht]; exact hj.valid⟩

theorem Ready.congr (hr : Ready sb h c) (hd : c'.disk = c.disk) (ht : c'.itable = c.itable) : Ready sb h c' := by
  have hrefs : refs c' = refs c := by funext k; rw [refs, ht]; rfl
  refine ⟨hr.inv.congr hd ht, by rw [hrefs]; exact hr.le, ?_, ?_⟩
  · rw [hd, ht]; exact hr.alive
  · rw [hd, ht]; exact hr.orphan

omit [Lost sb] in
theorem Logs.synced (hl : Logs sb c c') (hs : ∀ b < sb.bmapstart, c.logged b = true ∨ c.home b = c.disk b) :
    ∀ b < sb.bmapstart, c'.logged b = true ∨ c'.home b = c'.disk b := by
  intro b hb
  by_cases e : c'.disk b = c.disk b
  · rcases hs b hb with h | h
    · exact .inl (hl.logged b h)
    · exact .inr (by rw [hl.home, e, h])
  · exact .inl (hl.disk b hb e)

omit [Lost sb] in
theorem commit_eq (hs : ∀ b < sb.bmapstart, c.logged b = true ∨ c.home b = c.disk b) :
    ∀ b < sb.bmapstart, c.commit b = c.disk b := by
  intro b hb
  unfold Core.commit
  split
  · rfl
  · rename_i hn
    exact (hs b hb).resolve_left hn

end

/-- The inodes on the disk `c` are those of the view `V`. -/
def Shows (sb : Superblock) (c : Disk) (V : Nat → Node) : Prop :=
  ∀ i < sb.ninodes, (dinode sb c i).type = (V i).type ∧ ((V i).type ≠ 0 → (dinode sb c i).nlink = (V i).nlink)

omit [Lost sb] in
theorem shows_commit (hL : Layout sb) {c : Core} (hs : ∀ b < sb.bmapstart, c.logged b = true ∨ c.home b = c.disk b) :
    Shows sb c.commit (view sb c.disk) := by
  intro i hi
  have e : dinode sb c.commit i = dinode sb c.disk i := by
    rw [dinode, dinode, commit_eq hs _ (IBLOCK_lt hL hi)]
  rw [e, view_type hi]
  exact ⟨rfl, fun ht => (view_nlink hi ht).symm⟩

theorem World.begun (hw : World sb 0 x s) : World sb 1 x { s with core := Fs.begun s.core } :=
  ⟨hw.ready.congr rfl rfl, hw.refs, hw.dirs, rfl, nofun, hw.synced, hw.none, hw.fd, hw.plain⟩

theorem World.ended (hw : World sb 1 x s) : World sb 0 x { s with core := Fs.ended s.core } :=
  ⟨hw.ready.congr rfl rfl, hw.refs, hw.dirs, rfl, fun _ => rfl, fun b hb => .inr (commit_eq hw.synced b hb), hw.none, hw.fd,
    hw.plain⟩

/-- Nothing becomes a directory that was something else. -/
def Keeps (V V' : Nat → Node) : Prop := ∀ k, (V k).type ≠ 0 → (V' k).type = T_DIR → (V k).type = T_DIR

theorem Keeps.refl : Keeps V V := fun _ _ h => h

theorem File.uses_of_inode {f : File} (h : f.type = .inode) : f.uses f.ip := ⟨.inl h, rfl⟩

theorem users_pos_of_file {f : Nat} (hf : f < NFILE) {j : Nat} (h : (s.ftable f).uses j) : 0 < users s j :=
  Nat.lt_of_lt_of_le (Lib.count_pos.mpr ⟨⟨f, hf⟩, h⟩) (Nat.le_add_right ..)

theorem users_pos_of_proc {p : Nat} (hp : p < NPROC) {j : Nat} (h : (s.proc p).uses j) : 0 < users s j :=
  Nat.lt_of_lt_of_le (Lib.count_pos.mpr ⟨⟨p, hp⟩, h⟩) (Nat.le_add_left ..)

theorem World.pos (hw : World sb n x s) {j : Nat} (h : 0 < users s j) : 0 < Fs.refs s.core j := by
  rw [hw.refs, Pi.add_apply]
  omega

theorem World.during (hw : World sb 1 x s) (hd : During sb s.core g V t) (hdirs : Dirs sb V)
    (hk : Keeps (view sb s.core.disk) V) : World sb 1 (x + g) { s with core := t } := by
  refine ⟨hd.ready, ?_, by rw [hd.view]; exact hdirs, by rw [← hw.out]; exact hd.logs.out, nofun, hd.logs.synced hw.synced,
    hw.none, hw.fd, fun f hf hfi hfw => ?_⟩
  · show Fs.refs t = users s + (x + g)
    rw [hd.refs, hw.refs, add_assoc]
  · have hpos := hw.pos (users_pos_of_file hf (File.uses_of_inode hfi))
    show (view sb t.disk (t.itable (s.ftable f).ip).inum).type ≠ T_DIR
    rw [hd.view, hd.ext.inum _ hpos]
    exact fun hT => hw.plain f hf hfi hfw (hk _ (hw.ready.alive _ hpos) hT)

theorem World.during_zero (hw : World sb 1 x s) (hd : During sb s.core 0 V t) (hdirs : Dirs sb V)
    (hk : Keeps (view sb s.core.disk) V) : World sb 1 x { s with core := t } := by
  have := hw.during hd hdirs hk
  rwa [add_zero] at this

theorem World.tabled (hw : World sb n x s) (ht : Tabled sb (Fs.refs s.core) s.core t) (hg : Fs.refs t = Fs.refs s.core + g)
    (ha : ∀ k, Fs.refs s.core k < Fs.refs t k → (view sb t.disk (t.itable k).inum).type ≠ 0) :
    World sb n (x + g) { s with core := t } := by
  have hle : ∀ k, Fs.refs s.core k ≤ Fs.refs t k := fun k => by rw [hg]; exact Nat.le_add_right ..
  have hr := hw.ready.tabled ht hle
  refine ⟨hr.mono hle le_self ha, ?_, ?_, by rw [← hw.out]; exact ht.still.out, fun h0 => ?_, ht.still.logs.synced hw.synced,
    hw.none, hw.fd, fun f hf hfi hfw => ?_⟩
  · show Fs.refs t = users s + (x + g)
    rw [hg, hw.refs, add_assoc]
  · show Dirs sb (view sb t.disk)
    rw [ht.still.disk]
    exact hw.dirs
  · show t.logged = _
    rw [ht.still.logged]
    exact hw.clear h0
  · have hpos := hw.pos (users_pos_of_file hf (File.uses_of_inode hfi))
    show (view sb t.disk (t.itable (s.ftable f).ip).inum).type ≠ T_DIR
    rw [ht.still.disk, ht.ext.inum _ hpos]
    exact hw.plain f hf hfi hfw

/-! ## Files and processes -/

theorem users_congr_file {f : Nat} {y : File} (hy : ∀ j, y.uses j ↔ (s.ftable f).uses j) :
    users { s with ftable := update s.ftable f y } = users s := by
  funext j
  unfold users
  congr 1
  exact Lib.count_congr fun k =>
    (forall_update_iff s.ftable fun k z => z.uses j ↔ (s.ftable k).uses j).mpr ⟨hy j, fun _ _ => .rfl⟩ k

theorem users_update_file {f : Nat} (hf : f < NFILE) (y : File) (j : Nat) :
    users { s with ftable := update s.ftable f y } j + (if (s.ftable f).uses j then 1 else 0) =
      users s j + if y.uses j then 1 else 0 := by
  have := Lib.count_update_table (File.uses j) s.ftable hf y
  simp only [users]
  omega

theorem users_update_proc {p : Nat} (hp : p < NPROC) (y : Proc) (j : Nat) :
    users { s with proc := update s.proc p y } j + (if (s.proc p).uses j then 1 else 0) =
      users s j + if y.uses j then 1 else 0 := by
  have := Lib.count_update_table (Proc.uses j) s.proc hp y
  simp only [users]
  omega

theorem if_eq_one {q : Prop} [Decidable q] {i j : Nat} (h : q) : (if q ∧ i = j then 1 else 0) = one i j := by
  by_cases e : j = i
  · rw [e, one_self, if_pos ⟨h, rfl⟩]
  · rw [one_of_ne e, if_neg fun hc => e hc.2.symm]

theorem if_uses_file {f : File} (j : Nat) (h : f.type = .inode ∨ f.type = .device) :
    (if f.uses j then 1 else 0) = one f.ip j := if_eq_one h

theorem if_not_uses_file {f : File} (j : Nat) (h : ¬ (f.type = .inode ∨ f.type = .device)) : (if f.uses j then 1 else 0) = 0 :=
  if_neg fun hc => h hc.1

theorem if_uses_proc {p : Proc} (j : Nat) (h : p.state = .used) : (if p.uses j then 1 else 0) = one p.cwd j := if_eq_one h

theorem if_not_uses_proc {p : Proc} (j : Nat) (h : p.state ≠ .used) : (if p.uses j then 1 else 0) = 0 := if_neg fun hc => h hc.1

theorem World.setFile (hw : World sb n x s) {f : Nat} {y : File} {x' : Nat → Nat}
    (hu : users { s with ftable := update s.ftable f y } + x' = users s + x)
    (hn : f < NFILE → y.ref = 0 → y.type = .none)
    (hp : f < NFILE → y.type = .inode → y.writable = true → (view sb s.core.disk (s.core.itable y.ip).inum).type ≠ T_DIR) :
    World sb n x' { s with ftable := update s.ftable f y } := by
  refine ⟨hw.ready, hw.refs.trans hu.symm, hw.dirs, hw.out, hw.clear, hw.synced, ?_, hw.fd, ?_⟩
  · exact (forall_update_iff s.ftable fun k z => k < NFILE → z.ref = 0 → z.type = .none).mpr ⟨hn, fun k _ => hw.none k⟩
  · exact (forall_update_iff s.ftable fun k z => k < NFILE → z.type = .inode → z.writable = true →
      (view sb s.core.disk (s.core.itable z.ip).inum).type ≠ T_DIR).mpr ⟨hp, fun k _ => hw.plain k⟩

theorem World.setProc (hw : World sb n x s) {p : Nat} {y : Proc} {x' : Nat → Nat}
    (hu : users { s with proc := update s.proc p y } + x' = users s + x)
    (hf : p < NPROC → ∀ fd < NOFILE, ∀ f, y.ofile fd = some f → f < NFILE) :
    World sb n x' { s with proc := update s.proc p y } := by
  refine ⟨hw.ready, hw.refs.trans hu.symm, hw.dirs, hw.out, hw.clear, hw.synced, hw.none, ?_, hw.plain⟩
  exact (forall_update_iff s.proc fun q z => q < NPROC → ∀ fd < NOFILE, ∀ f, z.ofile fd = some f → f < NFILE).mpr
    ⟨hf, fun q _ => hw.fd q⟩

theorem users_congr_proc {p : Nat} {y : Proc} (hy : ∀ j, y.uses j ↔ (s.proc p).uses j) :
    users { s with proc := update s.proc p y } = users s := by
  funext j
  unfold users
  congr 1
  exact Lib.count_congr fun k => (forall_update_iff s.proc fun k z => z.uses j ↔ (s.proc k).uses j).mpr ⟨hy j, fun _ _ => .rfl⟩ k

/-! ## Minor steps -/

inductive Minor (V : Nat → Node) : (Nat → Node) → Prop
  | same : Minor V V
  /-- A file gets other contents. -/
  | write {i : Nat} {v : Node} : (V i).type ≠ 0 → (V i).type ≠ T_DIR → v.type = (V i).type → v.nlink = (V i).nlink →
      Minor V (update V i v)
  /-- The last reference to an inode without links goes. -/
  | free {i : Nat} : (V i).type ≠ 0 → (V i).nlink = 0 → Minor V (update V i .free)

/-- One commit after the other, each after a minor step. -/
inductive Minors (sb : Superblock) (V : Nat → Node) (past : List Disk) : (Nat → Node) → List Disk → Prop
  | refl : Minors sb V past V past
  | step {V1 V2 : Nat → Node} {past1 : List Disk} {c : Disk} :
      Minors sb V past V1 past1 → Minor V1 V2 → Shows sb c V2 → Minors sb V past V2 (c :: past1)

omit [Lost sb] in
theorem Minors.trans {V0 V1 V2 : Nat → Node} {p0 p1 p2 : List Disk} (h1 : Minors sb V0 p0 V1 p1) (h2 : Minors sb V1 p1 V2 p2) :
    Minors sb V0 p0 V2 p2 := by
  induction h2 with
  | refl => exact h1
  | step _ hm hs ih => exact ih.step hm hs

theorem Minor.keeps {V V' : Nat → Node} (h : Minor V V') : Keeps V V' := by
  intro k _ hT
  cases h with
  | same => exact hT
  | write _ _ ht =>
    exact (forall_update_iff V fun k z => z.type = T_DIR → (V k).type = T_DIR).mpr ⟨ht.symm.trans, fun _ _ => id⟩ k hT
  | free => exact (forall_update_iff V fun k z => z.type = T_DIR → (V k).type = T_DIR).mpr ⟨fun h => absurd h (by decide),
    fun _ _ => id⟩ k hT

theorem Minor.dirs {V V' : Nat → Node} (h : Minor V V') (hd : Dirs sb V) : Dirs sb V' := by
  cases h with
  | same => exact hd
  | write _ hne ht _ => exact hd.update fun _ hT => absurd (ht ▸ hT) hne
  | free _ _ => exact hd.update fun _ => .of_size rfl

theorem minor_release {i k : Nat} (ht : (V i).type ≠ 0) : Minor V (release V i k) := by
  unfold release
  split
  · rename_i hc
    exact .free ht hc.2
  · exact .same

/-- What a call that is not about names does. -/
structure Evolves (sb : Superblock) [Lost sb] (x : Nat → Nat) (s s' : St) : Prop where
  world : World sb 0 x s'
  minors : Minors sb (view sb s.core.disk) s.core.past (view sb s'.core.disk) s'.core.past

theorem Evolves.refl (hw : World sb 0 x s) : Evolves sb x s s := ⟨hw, .refl⟩

theorem Evolves.trans {s'' : St} {x' : Nat → Nat} (h1 : Evolves sb x s s') (h2 : Evolves sb x' s' s'') : Evolves sb x' s s'' :=
  ⟨h2.world, h1.minors.trans h2.minors⟩

theorem Evolves.of_minor (hL : Layout sb) (hw : World sb 1 x s') (hm : Minor (view sb s.core.disk) (view sb s'.core.disk))
    (hp : s'.core.past = s.core.past) : Evolves sb x s { s' with core := ended s'.core } := by
  refine ⟨hw.ended, ?_⟩
  show Minors sb _ _ (view sb s'.core.disk) (s'.core.commit :: s'.core.past)
  rw [hp]
  exact Minors.refl.step hm (shows_commit hL hw.synced)

end Xv6.Fs
