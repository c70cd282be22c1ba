/-
  Xv6.Fs.Files — the references to open files: a file's count is the number of descriptors
  that name it, a file without references has no type, a pipe's end is open as long as there
  is a file for it, and a pipe's page is freed once.

  `Files x s`: so it is in the middle of a call that holds `x f` references to file `f` of its
  own (fewer than none where a descriptor is about to be cleared).
-/

import Mathlib.Data.Fintype.Prod
import Xv6.Fs.Sys
import Xv6.Lib.Count

namespace Xv6.Fs

open Function (update update_self update_of_ne forall_update_iff)
open Lib (Wp wp_bind wp_ite wp_get)

variable {sb : Superblock} {s s' : St} {x x' : Nat → Int}

/-- Descriptor `q.2` of process `q.1`. -/
def slot (s : St) (q : Fin NPROC × Fin NOFILE) : Option Nat := (s.proc q.1).ofile q.2

def slots (s : St) (f : Nat) : Nat := Lib.count (· = some f) (slot s)

def Pipe.open (x : Pipe) (write : Bool) : Bool := if write then x.writeopen else x.readopen

/-- The file is an end of pipe `i`. -/
def File.End (x : File) (i : Nat) (write : Bool) : Prop :=
  0 < x.ref ∧ x.type = .pipe ∧ x.pipe = i ∧ x.writable = write

structure Files (x : Nat → Int) (s : St) : Prop where
  refs : ∀ f < NFILE, ((s.ftable f).ref : Int) = slots s f + x f
  fd : ∀ q f, slot s q = some f → f < NFILE
  none : ∀ f < NFILE, (s.ftable f).ref = 0 → (s.ftable f).type = .none
  ends : ∀ i < s.npipes, ∀ w, (s.pipes i).open w = true ↔ ∃ f < NFILE, (s.ftable f).End i w
  lt : ∀ f < NFILE, ∀ i w, (s.ftable f).End i w → i < s.npipes
  unique : ∀ f < NFILE, ∀ g < NFILE, ∀ i w, (s.ftable f).End i w → (s.ftable g).End i w → f = g
  freed : ∀ i < s.npipes, (s.pipes i).freed = if (s.pipes i).readopen = false ∧ (s.pipes i).writeopen = false then 1 else 0

/-- A process that is not running has no descriptors. -/
def Idle (s : St) : Prop := ∀ p, (s.proc p).state ≠ .used → ∀ fd < NOFILE, (s.proc p).ofile fd = none

/-! ## Changes of the state -/

abbrev St.setFile (s : St) (f : Nat) (y : File) : St := { s with ftable := update s.ftable f y }

abbrev St.setFd (s : St) (p fd : Nat) (v : Option Nat) : St :=
  { s with proc := update s.proc p { s.proc p with ofile := update (s.proc p).ofile fd v } }

section

variable (h : Files x s)
include h

theorem Files.core (c : Core) : Files x { s with core := c } :=
  ⟨h.refs, h.fd, h.none, h.ends, h.lt, h.unique, h.freed⟩

theorem Files.ref_pos {q : Fin NPROC × Fin NOFILE} {f : Nat} (hq : slot s q = some f) (hx : 0 ≤ x f) :
    f < NFILE ∧ 0 < (s.ftable f).ref := by
  have hf := h.fd q f hq
  have hpos : 0 < slots s f := Lib.count_pos.mpr ⟨q, hq⟩
  have := h.refs f hf
  exact ⟨hf, by omega⟩

theorem Files.refs_update {f : Nat} {y : File} (hx : x' = x + Pi.single f (y.ref - (s.ftable f).ref : Int)) :
    ∀ g < NFILE, ((update s.ftable f y g).ref : Int) = slots s g + x' g := by
  subst hx
  refine (forall_update_iff s.ftable fun g z => g < NFILE →
    (z.ref : Int) = slots s g + (x + Pi.single f (y.ref - (s.ftable f).ref : Int) : Nat → Int) g).mpr
    ⟨fun hf => ?_, fun g e hg => ?_⟩
  · have := h.refs f hf
    rw [Pi.add_apply, Pi.single_eq_same]
    omega
  · rw [Pi.add_apply, Pi.single_eq_of_ne e, add_zero, h.refs g hg]

theorem Files.none_update {f : Nat} {y : File} (hn : y.ref = 0 → y.type = .none) :
    ∀ g < NFILE, (update s.ftable f y g).ref = 0 → (update s.ftable f y g).type = .none :=
  (forall_update_iff s.ftable fun g z => g < NFILE → z.ref = 0 → z.type = .none).mpr ⟨fun _ => hn, fun g _ => h.none g⟩

theorem Files.setFile {f : Nat} (y : File) (hx : x' = x + Pi.single f (y.ref - (s.ftable f).ref : Int))
    (he : ∀ i w, y.End i w ↔ (s.ftable f).End i w) (hn : y.ref = 0 → y.type = .none) : Files x' (s.setFile f y) := by
  have hend : ∀ g i w, (update s.ftable f y g).End i w ↔ (s.ftable g).End i w :=
    (forall_update_iff s.ftable fun g z => ∀ i w, z.End i w ↔ (s.ftable g).End i w).mpr ⟨he, fun _ _ _ _ => .rfl⟩
  refine ⟨h.refs_update hx, h.fd, h.none_update hn, fun i hi w => ?_, fun g hg i w h1 => ?_,
    fun g hg k hk i w h1 h2 => ?_, h.freed⟩
  · rw [h.ends i hi w]
    exact exists_congr fun g => and_congr_right fun _ => (hend g i w).symm
  · exact h.lt g hg i w ((hend g i w).mp h1)
  · exact h.unique g hg k hk i w ((hend g i w).mp h1) ((hend k i w).mp h2)

theorem Files.closeEnd {f : Nat} (hf : f < NFILE) {i : Nat} {w : Bool} (hend : (s.ftable f).End i w)
    {y : File} (hy : y.ref = 0 ∧ y.type = .none) {z : Pipe} (hx : x' = x + Pi.single f (y.ref - (s.ftable f).ref : Int))
    (hz : z.open w = false ∧ z.open (!w) = (s.pipes i).open (!w))
    (hzf : z.freed = (s.pipes i).freed + if z.open (!w) = false then 1 else 0) :
    Files x' { s.setFile f y with pipes := update s.pipes i z } := by
  have hi := h.lt f hf i w hend
  have hopen : (s.pipes i).open w = true := (h.ends i hi w).mpr ⟨f, hf, hend⟩
  have hend' : ∀ g < NFILE, ∀ j v, (update s.ftable f y g).End j v ↔ (s.ftable g).End j v ∧ ¬ (j = i ∧ v = w) := by
    refine (forall_update_iff s.ftable fun g t => g < NFILE → ∀ j v, t.End j v ↔ (s.ftable g).End j v ∧ ¬ (j = i ∧ v = w)).mpr
      ⟨fun _ j v => ⟨fun hh => absurd hh.1 (by omega), fun ⟨hh, hne⟩ => absurd ?_ hne⟩,
        fun g e hg j v => ⟨fun hh => ⟨hh, ?_⟩, And.left⟩⟩
    · exact ⟨hh.2.2.1.symm.trans hend.2.2.1, hh.2.2.2.symm.trans hend.2.2.2⟩
    · rintro ⟨rfl, rfl⟩
      exact e (h.unique g hg f hf _ _ hh hend)
  refine ⟨h.refs_update hx, h.fd, h.none_update fun _ => hy.2, fun j hj v => ?_, fun g hg j v h1 => ?_,
    fun g hg k hk j v h1 h2 => ?_, ?_⟩
  · have hex : (∃ g < NFILE, (update s.ftable f y g).End j v) ↔ (s.pipes j).open v = true ∧ ¬ (j = i ∧ v = w) := by
      rw [h.ends j hj v, ← exists_and_right]
      exact exists_congr fun g => (and_congr_right fun hg => hend' g hg j v).trans and_assoc.symm
    refine Iff.trans ?_ hex.symm
    refine (forall_update_iff s.pipes fun j t => t.open v = true ↔ (s.pipes j).open v = true ∧ ¬ (j = i ∧ v = w)).mpr
      ⟨?_, fun j e => by simp [e]⟩ j
    by_cases ev : v = w
    · simp [ev, hz.1]
    · have ev' : v = !w := by cases v <;> cases w <;> simp_all
      rw [ev', hz.2]
      simp
  · exact h.lt g hg j v ((hend' g hg j v).mp h1).1
  · exact h.unique g hg k hk j v ((hend' g hg j v).mp h1).1 ((hend' k hk j v).mp h2).1
  · refine (forall_update_iff s.pipes fun j t => j < s.npipes →
      t.freed = if t.readopen = false ∧ t.writeopen = false then 1 else 0).mpr ⟨fun _ => ?_, fun j _ => h.freed j⟩
    rw [hzf, h.freed i hi]
    obtain ⟨hz1, hz2⟩ := hz
    revert hz1 hz2 hopen
    cases w <;> simp only [Pipe.open, Bool.not_true, Bool.not_false, if_true, Bool.false_eq_true, if_false] <;>
      intro h1 h2 h3 <;> simp [h1, h2]

theorem Files.setFd {p fd : Nat} (hp : p < NPROC) (hfd : fd < NOFILE) {v : Option Nat}
    (hv : ∀ f, v = some f → f < NFILE)
    (hx : ∀ f, x' f = x f + (if (s.proc p).ofile fd = some f then 1 else 0) - if v = some f then 1 else 0) :
    Files x' (s.setFd p fd v) := by
  have hslot : slot (s.setFd p fd v) = update (slot s) (⟨p, hp⟩, ⟨fd, hfd⟩) v := by
    funext ⟨⟨a, ha⟩, ⟨b, hb⟩⟩
    show (update s.proc p _ a).ofile b = _
    by_cases e1 : a = p
    · subst e1
      rw [update_self]
      by_cases e2 : b = fd
      · subst e2
        rw [update_self]
        exact update_self ..
      · rw [update_of_ne (by simpa using e2)]
        exact update_of_ne e2 ..
    · rw [update_of_ne e1, update_of_ne (by simp [e1])]
      rfl
  refine ⟨fun f hf => ?_, ?_, h.none, h.ends, h.lt, h.unique, h.freed⟩
  · have hcount := Lib.count_update (· = some f) (slot s) (⟨p, hp⟩, ⟨fd, hfd⟩) v
    have hold : slot s (⟨p, hp⟩, ⟨fd, hfd⟩) = (s.proc p).ofile fd := rfl
    rw [hold] at hcount
    show ((s.ftable f).ref : Int) = slots _ f + x' f
    rw [slots, hslot, h.refs f hf, slots, hx f]
    have hint : (Lib.count (· = some f) (update (slot s) (⟨p, hp⟩, ⟨fd, hfd⟩) v) : Int) +
        (if (s.proc p).ofile fd = some f then 1 else 0) =
        Lib.count (· = some f) (slot s) + if v = some f then 1 else 0 := by exact_mod_cast hcount
    omega
  · rw [hslot]
    exact (forall_update_iff (slot s) fun _ w => ∀ f, w = some f → f < NFILE).mpr ⟨hv, fun q _ => h.fd q⟩

theorem Files.giveFd {p fd f : Nat} (hp : p < NPROC) (hfd : fd < NOFILE) (hn : (s.proc p).ofile fd = .none)
    (hf : f < NFILE) : Files (x - Pi.single f 1) (s.setFd p fd (some f)) :=
  h.setFd hp hfd (fun _ hg => by cases hg; exact hf) fun g => by simp [hn, Pi.single_apply, eq_comm]

theorem Files.takeFd {p fd f : Nat} (hp : p < NPROC) (hfd : fd < NOFILE) (ho : (s.proc p).ofile fd = some f) :
    Files (x + Pi.single f 1) (s.setFd p fd .none) :=
  h.setFd hp hfd nofun fun g => by simp [ho, Pi.single_apply, eq_comm]

theorem Files.setProc {p : Nat} {y : Proc} (hy : ∀ fd < NOFILE, y.ofile fd = (s.proc p).ofile fd) :
    Files x { s with proc := update s.proc p y } := by
  have hslot : slot { s with proc := update s.proc p y } = slot s := funext fun q =>
    (forall_update_iff s.proc fun a z => z.ofile q.2 = (s.proc a).ofile q.2).mpr ⟨hy _ q.2.isLt, fun _ _ => rfl⟩ q.1
  refine ⟨fun f hf => ?_, fun q f hq => ?_, h.none, h.ends, h.lt, h.unique, h.freed⟩
  · rw [slots, hslot]; exact h.refs f hf
  · rw [hslot] at hq; exact h.fd q f hq

theorem Files.newPipe {f g : Nat} (hf : f < NFILE) (hg : g < NFILE) (hfg : f ≠ g) {y z : File}
    (hfn : (s.ftable f).type = .none) (hgn : (s.ftable g).type = .none)
    (hy : y.ref = (s.ftable f).ref ∧ y.End s.npipes false) (hz : z.ref = (s.ftable g).ref ∧ z.End s.npipes true) :
    Files x { s with
      npipes := s.npipes + 1
      pipes := update s.pipes s.npipes ⟨true, true, 0⟩
      ftable := update (update s.ftable f y) g z } := by
  -- what holds of the two new files and of the old ones holds of all
  have hall : ∀ P : Nat → File → Prop, P f y → P g z → (∀ k, k ≠ f → k ≠ g → P k (s.ftable k)) →
      ∀ k, P k (update (update s.ftable f y) g z k) := fun P h1 h2 h3 =>
    (forall_update_iff _ P).mpr ⟨h2, fun k e => (forall_update_iff s.ftable fun k t => k ≠ g → P k t).mpr
      ⟨fun _ => h1, h3⟩ k e⟩
  -- an end of the new pipe is one of the two, an end of an old one is as before
  have hend : ∀ k, ∀ i w, (update (update s.ftable f y) g z k).End i w ↔
      (s.ftable k).End i w ∨ (i = s.npipes ∧ ((k = f ∧ w = false) ∨ (k = g ∧ w = true))) := by
    refine hall (fun k t => ∀ i w, t.End i w ↔ (s.ftable k).End i w ∨
      (i = s.npipes ∧ ((k = f ∧ w = false) ∨ (k = g ∧ w = true)))) (fun i w => ⟨fun hh => ?_, ?_⟩)
      (fun i w => ⟨fun hh => ?_, ?_⟩) fun k ef eg i w => by simp [ef, eg]
    · exact .inr ⟨hh.2.2.1.symm.trans hy.2.2.2.1, .inl ⟨rfl, hh.2.2.2.symm.trans hy.2.2.2.2⟩⟩
    · rintro (hh | ⟨rfl, ⟨-, rfl⟩ | ⟨e, -⟩⟩)
      · cases hfn.symm.trans hh.2.1
      · exact hy.2
      · exact absurd e hfg
    · exact .inr ⟨hh.2.2.1.symm.trans hz.2.2.2.1, .inr ⟨rfl, hh.2.2.2.symm.trans hz.2.2.2.2⟩⟩
    · rintro (hh | ⟨rfl, ⟨e, -⟩ | ⟨-, rfl⟩⟩)
      · cases hgn.symm.trans hh.2.1
      · exact absurd e.symm hfg
      · exact hz.2
  have hold : ∀ k < NFILE, ∀ w, ¬ (s.ftable k).End s.npipes w := fun k hk w hh => absurd (h.lt k hk _ w hh) (by omega)
  have hlt : ∀ i, i ≠ s.npipes → i < s.npipes + 1 → i < s.npipes := fun i e hi => by omega
  refine ⟨?_, h.fd, ?_, fun i hi w => ?_, fun k hk i w h1 => ?_, fun k hk l hl i w h1 h2 => ?_, ?_⟩
  · exact hall (fun k t => k < NFILE → (t.ref : Int) = slots s k + x k) (fun _ => by rw [hy.1, h.refs f hf])
      (fun _ => by rw [hz.1, h.refs g hg]) fun k _ _ => h.refs k
  · exact hall (fun k t => k < NFILE → t.ref = 0 → t.type = .none) (fun _ h0 => absurd hy.2.1 (by omega))
      (fun _ h0 => absurd hz.2.1 (by omega)) fun k _ _ => h.none k
  · have hex : (∃ k < NFILE, (update (update s.ftable f y) g z k).End i w) ↔
        (∃ k < NFILE, (s.ftable k).End i w) ∨ i = s.npipes := by
      constructor
      · rintro ⟨k, hk, hh⟩
        exact ((hend k i w).mp hh).imp (fun h1 => ⟨k, hk, h1⟩) And.left
      · rintro (⟨k, hk, h1⟩ | h1)
        · exact ⟨k, hk, (hend k i w).mpr (.inl h1)⟩
        · cases w with
          | false => exact ⟨f, hf, (hend f i false).mpr (.inr ⟨h1, .inl ⟨rfl, rfl⟩⟩)⟩
          | true => exact ⟨g, hg, (hend g i true).mpr (.inr ⟨h1, .inr ⟨rfl, rfl⟩⟩)⟩
    refine Iff.trans ?_ hex.symm
    refine (forall_update_iff s.pipes fun i t => i < s.npipes + 1 →
      (t.open w = true ↔ (∃ k < NFILE, (s.ftable k).End i w) ∨ i = s.npipes)).mpr ⟨fun _ => ?_, fun i e hi => ?_⟩ i hi
    · cases w <;> simp [Pipe.open]
    · rw [h.ends i (hlt i e hi) w]
      simp [e]
  · show i < s.npipes + 1
    rcases (hend k i w).mp h1 with h2 | h2
    · exact Nat.lt_succ_of_lt (h.lt k hk i w h2)
    · omega
  · rcases (hend k i w).mp h1 with h3 | ⟨e, h3⟩
    · rcases (hend l i w).mp h2 with h4 | ⟨e', -⟩
      · exact h.unique k hk l hl i w h3 h4
      · exact absurd (e' ▸ h3) (hold k hk w)
    · rcases (hend l i w).mp h2 with h4 | ⟨-, h4⟩
      · exact absurd (e ▸ h4) (hold l hl w)
      · rcases h3 with ⟨h3, rfl⟩ | ⟨h3, rfl⟩ <;> rcases h4 with ⟨h4, hw⟩ | ⟨h4, hw⟩ <;> cases hw <;> exact h3.trans h4.symm
  · exact (forall_update_iff s.pipes fun i t => i < s.npipes + 1 →
      t.freed = if t.readopen = false ∧ t.writeopen = false then 1 else 0).mpr ⟨fun _ => rfl,
        fun i e hi => h.freed i (hlt i e hi)⟩

end

/-! ## The functions -/

section

variable {E : SysPanic → Prop}

@[simp] theorem wp_setFile {f : Nat} {y : File} {Q : Unit → St → Prop} :
    Wp E (setFile f y) s Q = Q () (s.setFile f y) := rfl

@[simp] theorem wp_setPipe {i : Nat} {y : Pipe} {Q : Unit → St → Prop} :
    Wp E (setPipe i y) s Q = Q () { s with pipes := update s.pipes i y } := rfl

@[simp] theorem wp_setProc {p : Nat} {y : Proc} {Q : Unit → St → Prop} :
    Wp E (setProc p y) s Q = Q () { s with proc := update s.proc p y } := rfl

@[simp] theorem wp_setFd {p fd : Nat} {v : Option Nat} {Q : Unit → St → Prop} :
    Wp E (setFd p fd v) s Q = Q () (s.setFd p fd v) := rfl

theorem wp_filealloc : Wp E filealloc s fun r s' =>
    (r = none ∧ s = s' ∧ ∀ f < NFILE, (s.ftable f).ref ≠ 0) ∨
      ∃ f < NFILE, r = some f ∧ (s.ftable f).ref = 0 ∧ s' = s.setFile f { s.ftable f with ref := 1 } := by
  simp only [filealloc, wp_bind, wp_get]
  split
  · rename_i f hf
    obtain ⟨-, hlt, hz, -⟩ := Lib.first_some hf
    exact .inr ⟨f, by omega, rfl, by simpa using hz, rfl⟩
  · rename_i hf
    exact .inl ⟨rfl, rfl, fun f hlt => by simpa using Lib.first_none hf f (Nat.zero_le _) (by omega)⟩

theorem wp_fdalloc {p f : Nat} : Wp E (fdalloc p f) s fun r s' =>
    (r = none ∧ s = s' ∧ ∀ fd < NOFILE, (s.proc p).ofile fd ≠ none) ∨
      ∃ fd < NOFILE, r = some fd ∧ (s.proc p).ofile fd = none ∧ s' = s.setFd p fd (some f) := by
  simp only [fdalloc, wp_bind, wp_get]
  split
  · rename_i fd hfd
    obtain ⟨-, hlt, hz, -⟩ := Lib.first_some hfd
    exact .inr ⟨fd, by omega, rfl, by simpa using hz, rfl⟩
  · rename_i hfd
    have hall := fun fd hlt => Lib.first_none hfd fd (Nat.zero_le _) hlt
    exact .inl ⟨rfl, rfl, fun fd hlt => by simpa [Option.isSome_iff_ne_none] using hall fd (by omega)⟩

theorem wp_argfd {p : Nat} {fd : Int} {Q : Option Nat → St → Prop} (hnone : Q none s)
    (hsome : ∀ f, fd.toNat < NOFILE → (s.proc p).ofile fd.toNat = some f → Q (some f) s) : Wp E (argfd p fd) s Q := by
  simp only [argfd, wp_bind, wp_get, Lib.wp_pure]
  split
  · exact hnone
  · cases hf : (s.proc p).ofile fd.toNat with
    | none => exact hnone
    | some f => exact hsome f (by omega) hf

end

def Allowed (e : SysPanic) : Prop := e ≠ .filedup ∧ e ≠ .fileclose

section

variable {α : Type} {c : M α} {Q : α → St → Prop} (h : ∀ a core, Q a { s with core })
include h

theorem wp_fs : Wp Allowed (fs c) s Q := by
  rw [fs, Lib.wp_onPart]
  unfold Wp
  split
  · exact h _ _
  · exact ⟨nofun, nofun⟩

theorem wp_transaction : Wp Allowed (transaction c) s Q := by
  simp only [transaction, wp_bind, Lib.wp_pure]
  exact wp_fs fun _ _ => wp_fs fun a _ => wp_fs fun _ core => h a core

end

theorem Files.alloc (h : Files x s) {f : Nat} (hf : f < NFILE) (hz : (s.ftable f).ref = 0) :
    (s.ftable f).type = .none ∧ Files (x + Pi.single f 1) (s.setFile f { s.ftable f with ref := 1 }) := by
  have hn := h.none f hf hz
  refine ⟨hn, h.setFile _ (by simp [hz]) (fun i w => ⟨fun hh => ?_, fun hh => ?_⟩) nofun⟩
  · cases hn.symm.trans hh.2.1
  · cases hn.symm.trans hh.2.1

theorem wp_filedup (h : Files x s) {f : Nat} (hr : 0 < (s.ftable f).ref) :
    Wp Allowed (filedup f) s fun r s' => r = f ∧ s'.proc = s.proc ∧ Files (x + Pi.single f 1) s' := by
  simp only [filedup, wp_bind, wp_get]
  refine wp_ite (fun h0 => absurd hr (by omega)) fun _ => ?_
  refine ⟨rfl, rfl, h.setFile _ ?_ ?_ ?_⟩
  · simp
  · exact fun i w => ⟨fun hh => ⟨hr, hh.2⟩, fun hh => ⟨Nat.succ_pos _, hh.2⟩⟩
  · exact fun h0 => absurd h0 (Nat.succ_ne_zero _)

theorem sub_single {f a b : Nat} (h : b + 1 = a) : x - Pi.single f 1 = x + Pi.single f (b - a : Int) := by
  funext k
  simp only [Pi.sub_apply, Pi.add_apply, Pi.single_apply]
  split <;> omega

theorem wp_pipeclose_end (h : Files x s) {f : Nat} (hf : f < NFILE) (hr : (s.ftable f).ref = 1)
    (ht : (s.ftable f).type = .pipe) {y : File} (hy : y.ref = 0 ∧ y.type = .none) :
    Wp Allowed (pipeclose (s.ftable f).pipe (s.ftable f).writable) (s.setFile f y) fun _ s' =>
      s'.proc = s.proc ∧ Files (x - Pi.single f 1) s' := by
  have hend : (s.ftable f).End (s.ftable f).pipe (s.ftable f).writable := ⟨by omega, ht, rfl, rfl⟩
  have hx := sub_single (x := x) (f := f) (show y.ref + 1 = (s.ftable f).ref by rw [hr, hy.1])
  simp only [pipeclose, wp_bind, wp_get]
  cases hw : (s.ftable f).writable <;> rw [hw] at hend
  · refine wp_ite (fun hc => ⟨rfl, h.closeEnd hf hend hy hx ⟨rfl, rfl⟩ ?_⟩) fun hc =>
      ⟨rfl, h.closeEnd hf hend hy hx ⟨rfl, rfl⟩ ?_⟩
    · have hc : (s.pipes (s.ftable f).pipe).writeopen = false := hc.2
      simp [Pipe.open, hc]
    · have hc : (s.pipes (s.ftable f).pipe).writeopen = true := by simpa using hc
      simp [Pipe.open, hc]
  · refine wp_ite (fun hc => ⟨rfl, h.closeEnd hf hend hy hx ⟨rfl, rfl⟩ ?_⟩) fun hc =>
      ⟨rfl, h.closeEnd hf hend hy hx ⟨rfl, rfl⟩ ?_⟩
    · have hc : (s.pipes (s.ftable f).pipe).readopen = false := hc.1
      simp [Pipe.open, hc]
    · have hc : (s.pipes (s.ftable f).pipe).readopen = true := by simpa using hc
      simp [Pipe.open, hc]

theorem wp_fileclose (h : Files x s) {f : Nat} (hf : f < NFILE) (hr : 0 < (s.ftable f).ref) :
    Wp Allowed (fileclose sb f) s fun _ s' => s'.proc = s.proc ∧ Files (x - Pi.single f 1) s' := by
  simp only [fileclose, wp_bind, wp_get]
  refine wp_ite (fun h0 => absurd hr (by omega)) fun _ => ?_
  refine wp_ite (fun h1 => ?_) fun h1 => ?_
  · refine ⟨rfl, h.setFile _ (sub_single (Nat.sub_add_cancel hr)) ?_ ?_⟩
    · exact fun i w => ⟨fun hh => ⟨hr, hh.2⟩, fun hh => ⟨h1, hh.2⟩⟩
    · exact fun h0 => absurd h0 (Nat.ne_of_gt h1)
  · have hr1 : (s.ftable f).ref = 1 := by omega
    simp only [wp_bind, wp_setFile]
    -- only an end of a pipe leaves something more to do
    have hother : (s.ftable f).type ≠ .pipe → ∀ core, Files (x - Pi.single f 1)
        { s.setFile f { s.ftable f with ref := 0, type := .none } with core } := by
      intro ht core
      refine (h.core core).setFile _ (sub_single ?_) (fun i w => ?_) fun _ => rfl
      · exact hr1.symm
      · exact ⟨fun hh => absurd hh.1 (by simp), fun hh => absurd hh.2.1 ht⟩
    split
    · rename_i ht
      exact wp_pipeclose_end h hf hr1 ht ⟨rfl, rfl⟩
    · rename_i ht
      simp only [wp_bind]
      exact wp_fs fun _ _ => wp_fs fun _ _ => wp_fs fun _ core => ⟨rfl, hother (by rw [ht]; nofun) core⟩
    · rename_i ht
      simp only [wp_bind]
      exact wp_fs fun _ _ => wp_fs fun _ _ => wp_fs fun _ core => ⟨rfl, hother (by rw [ht]; nofun) core⟩
    · rename_i ht
      exact ⟨rfl, hother (by rw [ht]; nofun) s.core⟩

end Xv6.Fs
