/-
  Xv6.Sleep.SleepLock — a sleep-lock excludes, and no release of it is missed (see
  `Xv6.Sleep.Model`).

  A process that has set out to sleep does so while the lock is taken, or the releaser, which
  holds `lk->lk`, has yet to look at its slot (`Lib.Covered`). It takes `p->lock` before it gives
  up `lk->lk`, so a look at its slot comes before both or after it is SLEEPING.
-/

import Xv6.Sleep.Model
import Xv6.Lib.Lock
import Xv6.Lib.Update
import Xv6.Lib.Wait

namespace Xv6.Sleep

open Proc (PState)
open Function (update update_self update_of_ne update_eq_self)
open Lib (update_ind)

variable {N : Nat} {pid : Fin N → Int} {s s' : St N} {m m' : Mem N} {p q i : Fin N} {a b : Pc N} {op : Op N} {l : Lock N}

/-! ## What a place tells -/

def Pc.lk : Pc N → Bool
  | .aTest | .aSet | .aPid | .aRel | .sAcq | .sRel | .rClr | .rPid | .wAcq _ | .wState _ | .wChan _ | .wSet _ | .wRel _
  | .rRel | .hLoad _ | .hRel _ _ => true
  | _ => false

def Pc.slot (p : Fin N) : Pc N → Option (Fin N)
  | .sRel | .sChan | .sState | .sSched | .sTidy | .sPRel | .yState _ | .ySched _ | .yRel _ => some p
  | .wState i | .wChan i | .wSet i | .wRel i | .xPid _ i _ | .xSet i _ | .xState i _ | .xRun i _ | .xRel i _
  | .xNext _ i _ => some i
  | _ => none

def Pc.Holds (p : Fin N) (a : Pc N) : Lock N → Prop
  | .lk => a.lk = true
  | .proc i => some i = a.slot p

/-- Whether the process has the sleep-lock: from the store of `locked = 1` to that of 0. -/
def Pc.owner : Pc N → Bool
  | .aPid | .aRel | .crit | .rAcq | .rClr => true
  | .hAcq r | .hLoad r | .hRel r _ | .xAcq _ _ r | .xPid _ _ r | .xSet _ r | .xState _ r | .xRun _ r | .xRel _ r
  | .xNext _ _ r | .yAcq r | .yState r | .ySched r | .yOff r | .yRel r => r
  | _ => false

/-- Whether it has stored its pid since. -/
def Pc.named : Pc N → Bool
  | .aPid => false
  | a => a.owner

/-- The places where a process may be SLEEPING. -/
def Pc.drowsy : Pc N → Bool
  | .sSched | .asleep => true
  | _ => false

/-- The process has given up `lk->lk` to sleep, and has not been woken. -/
def Pc.waits (st : PState) : Pc N → Bool
  | .sChan | .sState | .sSched => true
  | .asleep => st == .sleeping
  | _ => false

/-- The process will look at slot `q` before it releases `lk->lk`. -/
def Pc.owes (q : Fin N) : Pc N → Bool
  | .rPid => true
  | .wAcq i => decide (i ≤ q)
  | .wState i | .wChan i | .wSet i => decide (i ≤ q)
  | .wRel i => decide (i < q)
  | _ => false

/-- What the process has found out, or done, under the locks that it holds. -/
def Pc.Knows (p : Fin N) (m : Mem N) : Pc N → Prop
  | .aSet | .rPid | .wAcq _ | .wState _ | .wSet _ | .wRel _ | .rRel => m.locked = false
  | .wChan i => m.locked = false ∧ m.state i = .sleeping
  | .sAcq | .sRel => m.locked = true
  | .sState | .asleep => m.chan p = true
  | .sSched => m.chan p = true ∧ m.state p = .sleeping
  | _ => True

/-! ## What a step does -/

/-- The moves of one process, each with its operation. -/
inductive Edge (pid : Fin N → Int) (p : Fin N) (m : Mem N) : Pc N → Op N → Pc N → Prop
  | callA : Edge pid p m .out .nop .aAcq
  | callR : Edge pid p m .crit .nop .rAcq
  | callH (r) : Edge pid p m (home r) .nop (.hAcq r)
  | callX (k r) : Edge pid p m (home r) .nop (.xAcq k 0 r)
  | callY (r) : Edge pid p m (home r) .nop (.yAcq r)
  | aAcq : Edge pid p m .aAcq (.acquire .lk) .aTest
  | aWait : m.locked = true → Edge pid p m .aTest .nop .sAcq
  | aGo : m.locked = false → Edge pid p m .aTest .nop .aSet
  | aSet : Edge pid p m .aSet (.locked true) .aPid
  | aPid : Edge pid p m .aPid (.lkpid (pid p)) .aRel
  | aRel : Edge pid p m .aRel (.release .lk) .crit
  | sAcq : Edge pid p m .sAcq (.acquire (.proc p)) .sRel
  | sRel : Edge pid p m .sRel (.release .lk) .sChan
  | sChan : Edge pid p m .sChan (.chan p true) .sState
  | sState : Edge pid p m .sState (.state p .sleeping) .sSched
  | sTidy : Edge pid p m .sTidy (.chan p false) .sPRel
  | sPRel : Edge pid p m .sPRel (.release (.proc p)) .sReacq
  | sReacq : Edge pid p m .sReacq (.acquire .lk) .aTest
  | rAcq : Edge pid p m .rAcq (.acquire .lk) .rClr
  | rClr : Edge pid p m .rClr (.locked false) .rPid
  | rPid : Edge pid p m .rPid (.lkpid 0) (.wAcq 0)
  | wSelf : Edge pid p m (.wAcq p) .nop (.wAcq (p + 1))
  | wAcq (i : Fin N) : i ≠ p → Edge pid p m (.wAcq i) (.acquire (.proc i)) (.wState i)
  | wEnd (k) : N ≤ k → Edge pid p m (.wAcq k) .nop .rRel
  | wAsleep (i : Fin N) : m.state i = .sleeping → Edge pid p m (.wState i) .nop (.wChan i)
  | wAwake (i : Fin N) : m.state i ≠ .sleeping → Edge pid p m (.wState i) .nop (.wRel i)
  | wHere (i : Fin N) : m.chan i = true → Edge pid p m (.wChan i) .nop (.wSet i)
  | wElse (i : Fin N) : m.chan i = false → Edge pid p m (.wChan i) .nop (.wRel i)
  | wSet (i : Fin N) : Edge pid p m (.wSet i) (.state i .runnable) (.wRel i)
  | wRel (i : Fin N) : Edge pid p m (.wRel i) (.release (.proc i)) (.wAcq (i + 1))
  | rRel : Edge pid p m .rRel (.release .lk) .out
  | hAcq (r) : Edge pid p m (.hAcq r) (.acquire .lk) (.hLoad r)
  | hLoad (r) : Edge pid p m (.hLoad r) .nop (.hRel r (m.locked && m.lkpid == pid p))
  | hRel (r v) : Edge pid p m (.hRel r v) (.release .lk) (home r)
  | xAcq (k r) (i : Fin N) : Edge pid p m (.xAcq k i r) (.acquire (.proc i)) (.xPid k i r)
  | xEnd (k j r) : Edge pid p m (.xAcq k j r) .nop (home r)
  | xHit (k) (i : Fin N) (r) : Edge pid p m (.xPid k i r) .nop (.xSet i r)
  | xMiss (k) (i : Fin N) (r) : Edge pid p m (.xPid k i r) .nop (.xNext k i r)
  | xSet (i : Fin N) (r) : Edge pid p m (.xSet i r) (.killed i) (.xState i r)
  | xAsleep (i : Fin N) (r) : m.state i = .sleeping → Edge pid p m (.xState i r) .nop (.xRun i r)
  | xAwake (i : Fin N) (r) : Edge pid p m (.xState i r) .nop (.xRel i r)
  | xRun (i : Fin N) (r) : Edge pid p m (.xRun i r) (.state i .runnable) (.xRel i r)
  | xRel (i : Fin N) (r) : Edge pid p m (.xRel i r) (.release (.proc i)) (home r)
  | xNext (k r) (i : Fin N) : Edge pid p m (.xNext k i r) (.release (.proc i)) (.xAcq k (i + 1) r)
  | yAcq (r) : Edge pid p m (.yAcq r) (.acquire (.proc p)) (.yState r)
  | yState (r) : Edge pid p m (.yState r) (.state p .runnable) (.ySched r)
  | yRel (r) : Edge pid p m (.yRel r) (.release (.proc p)) (home r)

theorem edge_of_prog (h : prog pid p m a = some (op, b)) : Edge pid p m a op b := by
  cases a with
  | aTest =>
    cases h
    split
    · exact .aWait ‹_›
    · exact .aGo (by simpa using ‹¬ m.locked = true›)
  | wAcq k =>
    simp only [prog] at h
    split at h
    · rename_i hk
      split at h
      · rename_i e; subst e; cases h; exact .wSelf
      · cases h; exact .wAcq ⟨k, hk⟩ ‹_›
    · cases h; exact .wEnd k (by omega)
  | wState i =>
    cases h
    split
    · exact .wAsleep i ‹_›
    · exact .wAwake i ‹_›
  | wChan i =>
    cases h
    split
    · exact .wHere i ‹_›
    · exact .wElse i (by simpa using ‹¬ m.chan i = true›)
  | xAcq k j r =>
    simp only [prog] at h
    split at h
    · rename_i hj
      cases h; exact .xAcq k r ⟨j, hj⟩
    · cases h; exact .xEnd k j r
  | xPid k i r =>
    cases h
    split
    · exact .xHit k i r
    · exact .xMiss k i r
  | xState i r =>
    cases h
    split
    · exact .xAsleep i r ‹_›
    · exact .xAwake i r
  | _ => cases h <;> constructor

theorem edge_of_entry {c : Call} (h : c.entry a = some b) : Edge pid p m a .nop b := by
  cases c <;> cases a <;> cases h
  · exact .callA
  · exact .callR
  · exact .callH false
  · exact .callH true
  · exact .callX _ false
  · exact .callX _ true
  · exact .callY false
  · exact .callY true

/-- What a step does: a move of a process, a switch to the scheduler, or a step of the
    scheduler at a slot. -/
inductive Eff (pid : Fin N → Int) (s s' : St N) : Prop
  | code (p : Fin N) (op : Op N) (b : Pc N) : Edge pid p s.mem (s.pc p) op b → op.run (.proc p) s.mem = some s'.mem →
      s'.pc = update s.pc p b → s'.disp = s.disp → Eff pid s s'
  | off (p : Fin N) (b : Pc N) : (s.pc p).off = some b →
      s' = ((s.setPc p b).setDisp p .back).pass p (.sched p) → Eff pid s s'
  | look (i : Fin N) : s.disp i = .idle → s.mem.lock (.proc i) = none →
      s' = (s.setDisp i .test).pass i (.sched i) → Eff pid s s'
  | test (i : Fin N) (d : Disp) : s.disp i = .test → (d = .set → s.mem.state i = .runnable) → d ≠ .idle →
      s' = s.setDisp i d → Eff pid s s'
  | run (i : Fin N) (b : Pc N) : s.disp i = .set → (s.pc i).resume = some b →
      s' = ({ (s.setPc i b).setDisp i .idle with
        mem := { s.mem with state := update s.mem.state i .running } }).pass i (.proc i) → Eff pid s s'
  | leave (i : Fin N) : s.disp i = .back →
      s' = { s.setDisp i .idle with mem := { s.mem with lock := update s.mem.lock (.proc i) none } } →
      Eff pid s s'

theorem next_cases {x : Act N} (h : next pid s x = some s') : Eff pid s s' := by
  cases x with
  | call p c =>
    obtain ⟨b, hb, rfl⟩ := Option.map_eq_some_iff.mp h
    exact .code p .nop b (edge_of_entry hb) rfl rfl rfl
  | step p =>
    simp only [next, stepProc] at h
    split at h
    · rename_i b hb
      exact .off p b hb (Option.some.inj h).symm
    · obtain ⟨⟨op, b⟩, hprog, h⟩ := Option.bind_eq_some_iff.mp h
      obtain ⟨m, hm, rfl⟩ := Option.map_eq_some_iff.mp h
      exact .code p op b (edge_of_prog hprog) hm rfl rfl
  | sched i =>
    simp only [next, stepSched] at h
    split at h
    · rename_i hd
      simp only [Op.run] at h
      split at h
      · rename_i hl
        exact .look i hd hl (Option.some.inj h).symm
      · cases h
    · rename_i hd
      refine .test i _ hd (fun e => ?_) ?_ (Option.some.inj h).symm
      · by_contra hr
        simp [hr] at e
      · split <;> nofun
    · rename_i hd
      obtain ⟨b, hb, rfl⟩ := Option.map_eq_some_iff.mp h
      exact .run i b hd hb rfl
    · rename_i hd
      exact .leave i hd (Option.some.inj h).symm

/-! ## Moves and roles -/

@[simp] theorem home_lk (r : Bool) : (home r : Pc N).lk = false := by cases r <;> rfl
@[simp] theorem home_slot (r : Bool) : (home r : Pc N).slot p = none := by cases r <;> rfl
@[simp] theorem home_owner (r : Bool) : (home r : Pc N).owner = r := by cases r <;> rfl
@[simp] theorem home_named (r : Bool) : (home r : Pc N).named = r := by cases r <;> rfl
@[simp] theorem home_drowsy (r : Bool) : (home r : Pc N).drowsy = false := by cases r <;> rfl
@[simp] theorem home_waits (r : Bool) (st : PState) : (home r : Pc N).waits st = false := by cases r <;> rfl
@[simp] theorem home_owes (r : Bool) : (home r : Pc N).owes q = false := by cases r <;> rfl
@[simp] theorem home_knows (r : Bool) : (home r : Pc N).Knows p m := by cases r <;> trivial

theorem Edge.acquire (e : Edge pid p m a (.acquire l) b) (k : Lock N) : b.Holds p k ↔ k = l ∨ a.Holds p k := by
  cases e <;> cases k <;> simp [Pc.Holds, Pc.lk, Pc.slot]

theorem Edge.release (e : Edge pid p m a (.release l) b) :
    a.Holds p l ∧ ∀ k, b.Holds p k ↔ k ≠ l ∧ a.Holds p k := by
  cases e <;> refine ⟨rfl, fun k => ?_⟩ <;> cases k <;> simp only [Pc.Holds, home_lk, home_slot] <;> simp [Pc.lk, Pc.slot]

theorem Edge.holds (e : Edge pid p m a op b) (ha : ∀ l, op ≠ .acquire l) (hr : ∀ l, op ≠ .release l) (k : Lock N) :
    b.Holds p k ↔ a.Holds p k := by
  cases e <;> first
    | exact absurd rfl (ha _)
    | exact absurd rfl (hr _)
    | (cases k <;> simp only [Pc.Holds, home_lk, home_slot] <;> simp [Pc.lk, Pc.slot])

theorem Edge.locked {v : Bool} (e : Edge pid p m a (.locked v) b) :
    a.lk = true ∧ ((v = true ∧ a = .aSet ∧ b = .aPid) ∨ (v = false ∧ a = .rClr ∧ b = .rPid)) := by
  cases e
  · exact ⟨rfl, .inl ⟨rfl, rfl, rfl⟩⟩
  · exact ⟨rfl, .inr ⟨rfl, rfl, rfl⟩⟩

theorem Edge.owner (e : Edge pid p m a op b) (h : ∀ v, op ≠ .locked v) : b.owner = a.owner := by
  cases e <;> first
    | exact absurd rfl (h _)
    | rfl
    | exact home_owner _
    | exact (home_owner _).symm

theorem Edge.lkpid {k : Int} (e : Edge pid p m a (.lkpid k) b) :
    (a = .aPid ∧ b = .aRel ∧ k = pid p) ∨ (a = .rPid ∧ b.owner = false) := by
  cases e
  · exact .inl ⟨rfl, rfl, rfl⟩
  · exact .inr ⟨rfl, rfl⟩

theorem Edge.named (e : Edge pid p m a op b) (h : ∀ k, op ≠ .lkpid k) (hb : b.named = true) : a.named = true := by
  cases e <;> first
    | exact absurd rfl (h _)
    | exact hb
    | exact (home_named _).trans hb
    | exact (home_named _).symm.trans hb
    | cases hb

theorem Edge.state {v : PState} (e : Edge pid p m a (.state i v) b) :
    a.Holds p (.proc i) ∧ (v = .runnable ∨ (v = .sleeping ∧ i = p ∧ a = .sState ∧ b = .sSched)) := by
  cases e
  · exact ⟨rfl, .inr ⟨rfl, rfl, rfl, rfl⟩⟩
  · exact ⟨rfl, .inl rfl⟩
  · exact ⟨rfl, .inl rfl⟩
  · exact ⟨rfl, .inl rfl⟩

theorem Edge.chan {v : Bool} (e : Edge pid p m a (.chan i v) b) : i = p ∧ a.drowsy = false := by
  cases e <;> exact ⟨rfl, rfl⟩

theorem Edge.drowsy (e : Edge pid p m a op b) : a.drowsy = false ∧ (b.drowsy = true → b = .sSched ∧ op = .state p .sleeping) := by
  cases e <;> refine ⟨?_, fun hb => ?_⟩ <;> first
    | rfl
    | exact home_drowsy _
    | (cases hb; done)
    | exact ⟨rfl, rfl⟩
    | exact absurd ((home_drowsy _).symm.trans hb) nofun

/-! ## The locks -/

/-- What a thread holds. -/
def St.Holds (s : St N) : Thread N → Lock N → Prop
  | .proc p, k => (s.pc p).Holds p k
  | .sched i, k => k = .proc i ∧ s.disp i ≠ .idle

theorem Pc.off_cases (h : a.off = some b) : (a = .sSched ∧ b = .asleep) ∨ ∃ r, a = .ySched r ∧ b = .yOff r := by
  cases a <;> cases h
  · exact .inl ⟨rfl, rfl⟩
  · exact .inr ⟨_, rfl, rfl⟩

theorem Pc.resume_cases (h : a.resume = some b) : (a = .asleep ∧ b = .sTidy) ∨ ∃ r, a = .yOff r ∧ b = .yRel r := by
  cases a <;> cases h
  · exact .inl ⟨rfl, rfl⟩
  · exact .inr ⟨_, rfl, rfl⟩

theorem Pc.off_holds (h : a.off = some b) : a.Holds p (.proc p) ∧ (∀ k, b.Holds p k ↔ k ≠ .proc p ∧ a.Holds p k) := by
  rcases off_cases h with ⟨rfl, rfl⟩ | ⟨r, rfl, rfl⟩ <;> refine ⟨rfl, fun k => ?_⟩ <;> cases k <;> simp [Pc.Holds, Pc.lk, Pc.slot]

theorem Pc.resume_holds (h : a.resume = some b) (k : Lock N) : b.Holds p k ↔ k = .proc p ∨ a.Holds p k := by
  rcases resume_cases h with ⟨rfl, rfl⟩ | ⟨r, rfl, rfl⟩ <;> cases k <;> simp [Pc.Holds, Pc.lk, Pc.slot]

theorem Op.run_lock {t : Thread N} (h : op.run t m = some m') (ha : ∀ l, op ≠ .acquire l) (hr : ∀ l, op ≠ .release l) :
    m'.lock = m.lock := by
  cases op <;> first
    | exact absurd rfl (ha _)
    | exact absurd rfl (hr _)
    | (cases h; rfl)

theorem holds_other {t : Thread N} {d : Disp} (hpc : s'.pc = update s.pc p b) (hd : s'.disp = update s.disp p d)
    (hb : t = .proc p → b = s.pc p) (hd' : t = .sched p → d = s.disp p) (k : Lock N) : s'.Holds t k ↔ s.Holds t k := by
  cases t with
  | proc q =>
    simp only [St.Holds, hpc]
    revert hb
    exact update_ind q (fun hb => by rw [hb rfl]) fun _ _ _ => Iff.rfl
  | sched i =>
    simp only [St.Holds, hd]
    revert hd'
    exact update_ind i (fun hd => by rw [hd rfl]) fun _ _ _ => Iff.rfl

theorem holds_idle (hd : s'.disp = update s.disp i .idle) (k : Lock N) :
    s'.Holds (.sched i) k ↔ k ≠ .proc i ∧ s.Holds (.sched i) k := by
  simp only [St.Holds, hd, update_self]
  exact ⟨fun hk => absurd rfl hk.2, fun hk => absurd hk.2.1 hk.1⟩

theorem locks_code (h : Lib.Locked s.mem.lock s.Holds) (e : Edge pid p s.mem (s.pc p) op b)
    (hm : op.run (.proc p) s.mem = some s'.mem) (hpc : s'.pc = update s.pc p b) (hd : s'.disp = s.disp) :
    Lib.Locked s'.mem.lock s'.Holds := by
  have hown : ∀ k, s'.Holds (.proc p) k ↔ b.Holds p k := fun k => by simp only [St.Holds, hpc, update_self]
  have hoth : ∀ t, t ≠ Thread.proc p → ∀ k, s'.Holds t k ↔ s.Holds t k := fun t ht =>
    holds_other hpc (hd.trans (update_eq_self ..).symm) (absurd · ht) fun _ => rfl
  by_cases ha : ∃ l, op = .acquire l
  · obtain ⟨l, rfl⟩ := ha
    obtain ⟨hfree, hm⟩ := Option.ite_none_right_eq_some.mp hm
    rw [← Option.some.inj hm]
    exact h.acquire hfree (fun k => (hown k).trans (e.acquire k)) hoth
  by_cases hr : ∃ l, op = .release l
  · obtain ⟨l, rfl⟩ := hr
    rw [← Option.some.inj hm]
    exact h.release (show s.Holds (.proc p) l from e.release.1) (fun k => (hown k).trans (e.release.2 k)) hoth
  · have ha : ∀ l, op ≠ .acquire l := fun l e => ha ⟨l, e⟩
    have hr : ∀ l, op ≠ .release l := fun l e => hr ⟨l, e⟩
    rw [Op.run_lock hm ha hr]
    refine h.congr fun t k => ?_
    by_cases ht : t = .proc p
    · subst ht; exact (hown k).trans (e.holds ha hr k)
    · exact hoth t ht k

theorem locks_step (h : Lib.Locked s.mem.lock s.Holds) (e : Eff pid s s') : Lib.Locked s'.mem.lock s'.Holds := by
  cases e with
  | code p op b he hm hpc hd => exact locks_code h he hm hpc hd
  | off p b hb hs =>
    subst hs
    obtain ⟨hhas, hown⟩ := Pc.off_holds (p := p) hb
    -- while the process holds `p->lock`, no scheduler looks at its slot
    refine h.pass (t := .proc p) (show s.Holds (.proc p) (.proc p) from hhas) nofun (fun k => ?_) (fun k => ?_)
      fun v hv hv' => holds_other rfl rfl (absurd · hv) (absurd · hv')
    · show (update s.pc p b p).Holds p k ↔ _
      rw [update_self]; exact hown k
    · show (k = .proc p ∧ update s.disp p .back p ≠ .idle) ↔ _
      rw [update_self]
      exact ⟨fun hk => .inl hk.1, fun hk => ⟨hk.elim id And.left, nofun⟩⟩
  | look i hd hl hs =>
    subst hs
    refine h.acquire (t := .sched i) hl (fun k => ?_) fun v hv k => ?_
    · show (k = .proc i ∧ update s.disp i .test i ≠ .idle) ↔ k = .proc i ∨ (k = .proc i ∧ s.disp i ≠ .idle)
      rw [update_self, hd]
      simp
    · exact holds_other (by exact (update_eq_self i s.pc).symm) rfl (fun _ => rfl) (absurd · hv) k
  | test i d hd _ hdi hs =>
    subst hs
    refine h.congr fun v k => ?_
    cases v with
    | proc q => exact Iff.rfl
    | sched j =>
      show (k = .proc j ∧ update s.disp i d j ≠ .idle) ↔ (k = .proc j ∧ s.disp j ≠ .idle)
      exact update_ind j (by simp [hd, hdi]) fun _ _ => Iff.rfl
  | run i b hd hb hs =>
    subst hs
    have hown := Pc.resume_holds (p := i) hb
    have hhas : s.Holds (.sched i) (.proc i) := ⟨rfl, by rw [hd]; nofun⟩
    refine h.pass (t := .sched i) hhas nofun (holds_idle rfl) (fun k => ?_)
      fun v hv hv' => holds_other rfl rfl (absurd · hv') (absurd · hv)
    show (update s.pc i b i).Holds i k ↔ _
    rw [update_self]; exact hown k
  | leave i hd hs =>
    subst hs
    have hhas : s.Holds (.sched i) (.proc i) := ⟨rfl, by rw [hd]; nofun⟩
    refine h.release (t := .sched i) hhas (holds_idle rfl) fun v hv k => ?_
    exact holds_other (by exact (update_eq_self i s.pc).symm) rfl (fun _ => rfl) (absurd · hv) k

/-! ## The memory -/

section Frame

variable {t : Thread N} (h : op.run t m = some m')
include h

theorem Op.run_locked (hn : ∀ v, op ≠ .locked v) : m'.locked = m.locked := by
  cases op with
  | locked v => exact absurd rfl (hn v)
  | acquire l => obtain ⟨-, ⟨⟩⟩ := Option.ite_none_right_eq_some.mp h; rfl
  | _ => cases h; rfl

theorem Op.run_lkpid (hn : ∀ k, op ≠ .lkpid k) : m'.lkpid = m.lkpid := by
  cases op with
  | lkpid k => exact absurd rfl (hn k)
  | acquire l => obtain ⟨-, ⟨⟩⟩ := Option.ite_none_right_eq_some.mp h; rfl
  | _ => cases h; rfl

theorem Op.run_chan (hn : ∀ v, op ≠ .chan q v) : m'.chan q = m.chan q := by
  cases op with
  | chan i v =>
    cases h
    refine update_of_ne ?_ ..
    rintro rfl
    exact hn v rfl
  | acquire l => obtain ⟨-, ⟨⟩⟩ := Option.ite_none_right_eq_some.mp h; rfl
  | _ => cases h; rfl

theorem Op.run_state (hn : ∀ v, op ≠ .state q v) : m'.state q = m.state q := by
  cases op with
  | state i v =>
    cases h
    refine update_of_ne ?_ ..
    rintro rfl
    exact hn v rfl
  | acquire l => obtain ⟨-, ⟨⟩⟩ := Option.ite_none_right_eq_some.mp h; rfl
  | _ => cases h; rfl

end Frame

theorem Pc.Knows.congr (h : a.Knows q m) (hl : a.lk = true → m'.locked = m.locked) (hc : m'.chan q = m.chan q)
    (hs : ∀ i, a.Holds q (.proc i) → m'.state i = m.state i) : a.Knows q m' := by
  cases a with
  | wChan i => exact ⟨(hl rfl).trans h.1, (hs i rfl).trans h.2⟩
  | sState | asleep => exact hc.trans h
  | sSched => exact ⟨hc.trans h.1, (hs q rfl).trans h.2⟩
  | aSet | rPid | wAcq | wState | wSet | wRel | rRel | sAcq | sRel => exact (hl rfl).trans h
  | _ => trivial

theorem Edge.knows (e : Edge pid p m a op b) (h : a.Knows p m) (hm : op.run (.proc p) m = some m') : b.Knows p m' := by
  cases e with
  | aWait h1 => cases hm; exact h1
  | aGo h1 => cases hm; exact h1
  | sAcq => exact (Op.run_locked hm nofun).trans h
  | wAcq i hi => exact (Op.run_locked hm nofun).trans h
  | sChan => cases hm; exact update_self ..
  | sState => cases hm; exact ⟨h, update_self ..⟩
  | rClr => cases hm; rfl
  | wAsleep i h1 => cases hm; exact ⟨h, h1⟩
  | wHere i h1 => cases hm; exact h.1
  | wElse i h1 => cases hm; exact h.1
  | rPid | wSelf | wEnd | wAwake | wSet | wRel => cases hm; exact h
  | hRel r v => exact home_knows r
  | xEnd k j r => exact home_knows r
  | xRel i r => exact home_knows r
  | yRel r => exact home_knows r
  | _ => trivial

/-! ## Waiting -/

theorem Edge.waits (e : Edge pid p m a op b) (h : a.Knows p m) (hm : op.run (.proc p) m = some m')
    (hb : b.waits (m'.state p) = true) : a.waits (m.state p) = true ∨ m'.locked = true := by
  cases e with
  | sRel => exact .inr ((Op.run_locked hm nofun).trans h)
  | sChan | sState => exact .inl rfl
  | hRel r | xEnd _ _ r | xRel _ r | yRel r => exact absurd ((home_waits r _).symm.trans hb) nofun
  | _ => cases hb

/-- A debt to `q` stays, or `q` has just been looked at: it is the process itself, it does
    not sleep on the lock, or it is made RUNNABLE. -/
theorem Edge.owes (e : Edge pid p m a op b) (h : a.owes q = true) :
    b.owes q = true ∨ q = p ∨
    (a.Holds p (.proc q) ∧ ((op = .nop ∧ m.state q ≠ .sleeping) ∨ (op = .nop ∧ m.chan q = false) ∨ op = .state q .runnable)) := by
  have here {i : Fin N} (h : decide (i ≤ q) = true) : decide (i < q) = true ∨ i = q :=
    (Nat.lt_or_eq_of_le (of_decide_eq_true h)).imp decide_eq_true Fin.ext
  cases e with
  | rPid => exact .inl (decide_eq_true (show 0 ≤ (q : Nat) from Nat.zero_le _))
  | wSelf => exact (here h).imp_right fun e => .inl e.symm
  | wAcq | wAsleep | wHere => exact .inl h
  | wEnd k hk =>
    have hle : k ≤ q := of_decide_eq_true h
    have := q.isLt
    omega
  | wRel i => exact .inl (decide_eq_true (show (i : Nat) + 1 ≤ q from of_decide_eq_true h))
  | wAwake i h1 => exact (here h).imp_right fun e => by cases e; exact .inr ⟨rfl, .inl ⟨rfl, h1⟩⟩
  | wElse i h1 => exact (here h).imp_right fun e => by cases e; exact .inr ⟨rfl, .inr (.inl ⟨rfl, h1⟩)⟩
  | wSet i => exact (here h).imp_right fun e => by cases e; exact .inr ⟨rfl, .inr (.inr rfl)⟩
  | callH r | callX _ r | callY r => exact absurd ((home_owes r).symm.trans h) nofun
  | _ => cases h

theorem Pc.waits_cases {st : PState} (h : a.waits st = true) : a.Holds q (.proc q) ∨ (a = .asleep ∧ st = .sleeping) := by
  cases a with
  | sChan | sState | sSched => exact .inl rfl
  | asleep => exact .inr ⟨rfl, by simpa [Pc.waits] using h⟩
  | _ => cases h

theorem Pc.owes_waits {st : PState} (h : a.owes q = true) : a.waits st = false := by
  cases a <;> first | rfl | cases h

/-! ## The invariant -/

structure Inv (pid : Fin N → Int) (s : St N) : Prop where
  locks : Lib.Locked s.mem.lock s.Holds
  alone : ∀ p q, (s.pc p).owner = true → (s.pc q).owner = true → p = q
  taken : s.mem.locked = true ↔ ∃ p, (s.pc p).owner = true
  named : ∀ p, (s.pc p).named = true → s.mem.lkpid = pid p
  knows : ∀ p, (s.pc p).Knows p s.mem
  awake : ∀ p, (s.pc p).drowsy = false → s.mem.state p ≠ .sleeping
  covered : Lib.Covered (fun q => (s.pc q).waits (s.mem.state q) = true) (s.mem.locked = true)
    fun w q => (s.pc w).owes q = true

theorem Pc.named_owner (h : a.named = true) : a.owner = true := by
  cases a <;> first | exact h | cases h

/-- A move of `p`, with what it leaves alone. -/
structure Code (pid : Fin N → Int) (s s' : St N) (p : Fin N) (op : Op N) (b : Pc N) : Prop where
  edge : Edge pid p s.mem (s.pc p) op b
  run : op.run (.proc p) s.mem = some s'.mem
  pc : s'.pc = update s.pc p b
  disp : s'.disp = s.disp

namespace Code

section

variable (k : Code pid s s' p op b)
include k

theorem pc_self : s'.pc p = b := by rw [k.pc, update_self]

theorem pc_other (h : q ≠ p) : s'.pc q = s.pc q := by rw [k.pc, update_of_ne h]

theorem locked_other (hi : Inv pid s) (h : q ≠ p) (hq : (s.pc q).lk = true) :
    s'.mem.locked = s.mem.locked := by
  refine Op.run_locked k.run ?_
  rintro v rfl
  have hp : s.Holds (.proc p) .lk := k.edge.locked.1
  have hq : s.Holds (.proc q) .lk := hq
  cases hi.locks.unique hq hp
  exact h rfl

theorem state_other (hi : Inv pid s) (h : q ≠ p) (hq : (s.pc q).Holds q (.proc i)) :
    s'.mem.state i = s.mem.state i := by
  refine Op.run_state k.run ?_
  rintro v rfl
  have hp : s.Holds (.proc p) (.proc i) := k.edge.state.1
  have hq : s.Holds (.proc q) (.proc i) := hq
  cases hi.locks.unique hq hp
  exact h rfl

theorem chan_other (h : q ≠ p) : s'.mem.chan q = s.mem.chan q := by
  refine Op.run_chan k.run ?_
  rintro v rfl
  exact h k.edge.chan.1

theorem sleeping (hq : s'.mem.state q = .sleeping) : s.mem.state q = .sleeping ∨ (q = p ∧ b = .sSched) := by
  by_cases ho : ∃ v, op = .state q v
  · obtain ⟨v, rfl⟩ := ho
    have hv : s'.mem.state q = v := by rw [← Option.some.inj k.run]; exact update_self ..
    rcases k.edge.state.2 with e | ⟨-, e, -, hb⟩
    · rw [hv, e] at hq; cases hq
    · exact .inr ⟨e, hb⟩
  · rw [Op.run_state k.run fun v e => ho ⟨v, e⟩] at hq
    exact .inl hq

theorem sleeping_other (h : q ≠ p) (hq : s'.mem.state q = .sleeping) : s.mem.state q = .sleeping :=
  (k.sleeping hq).resolve_right fun e => h e.1

end

section

variable (k : Code pid s s' p op b) (hi : Inv pid s)
include k hi

theorem knows (q : Fin N) : (s'.pc q).Knows q s'.mem := by
  rw [k.pc]
  exact update_ind q (k.edge.knows (hi.knows p) k.run) fun q e =>
    (hi.knows q).congr (k.locked_other hi e) (k.chan_other e) fun i => k.state_other hi e

theorem awake (q : Fin N) : (s'.pc q).drowsy = false → s'.mem.state q ≠ .sleeping := by
  rw [k.pc]
  refine update_ind q (fun hb hs => ?_) fun q e hq hs => hi.awake q hq (k.sleeping_other e hs)
  rcases k.sleeping hs with hs | ⟨-, rfl⟩
  · exact hi.awake p k.edge.drowsy.1 hs
  · cases hb

theorem owners :
    (∀ q r, (s'.pc q).owner = true → (s'.pc r).owner = true → q = r) ∧
    (s'.mem.locked = true ↔ ∃ q, (s'.pc q).owner = true) := by
  by_cases ho : ∃ v, op = .locked v
  · obtain ⟨v, rfl⟩ := ho
    have hv : s'.mem.locked = v := by rw [← Option.some.inj k.run]
    rcases k.edge.locked.2 with ⟨rfl, ha, rfl⟩ | ⟨rfl, ha, rfl⟩
    · -- it was free, so nobody had it
      have hfree : s.mem.locked = false := by have := hi.knows p; rwa [ha] at this
      have hself : ∀ q, (s'.pc q).owner = true → q = p := fun q => by
        rw [k.pc]
        refine update_ind q (fun _ => rfl) fun q _ ho => ?_
        have := hi.taken.mpr ⟨q, ho⟩
        rw [hfree] at this
        cases this
      exact ⟨fun q r hq hr => (hself q hq).trans (hself r hr).symm, fun _ => ⟨p, by rw [k.pc_self]; rfl⟩, fun _ => hv⟩
    · have hp : (s.pc p).owner = true := by rw [ha]; rfl
      have hno : ∀ q, (s'.pc q).owner ≠ true := by
        intro q
        rw [k.pc]
        exact update_ind q nofun fun q e ho => e (hi.alone q p ho hp)
      exact ⟨fun q r hq => absurd hq (hno q), fun h => (by rw [hv] at h; cases h), fun ⟨q, hq⟩ => absurd hq (hno q)⟩
  · have ho : ∀ v, op ≠ .locked v := fun v e => ho ⟨v, e⟩
    have hsame : ∀ q, (s'.pc q).owner = (s.pc q).owner := by
      intro q
      rw [k.pc]
      exact update_ind q (k.edge.owner ho) fun _ _ => rfl
    simp only [hsame, Op.run_locked k.run ho]
    exact ⟨hi.alone, hi.taken⟩

theorem named (q : Fin N) : (s'.pc q).named = true → s'.mem.lkpid = pid q := by
  rw [k.pc]
  by_cases ho : ∃ n, op = .lkpid n
  · obtain ⟨n, rfl⟩ := ho
    have hn : s'.mem.lkpid = n := by rw [← Option.some.inj k.run]
    rcases k.edge.lkpid with ⟨ha, hb, rfl⟩ | ⟨ha, hb⟩
    · -- the one that has it stores its pid
      have hp : (s.pc p).owner = true := by rw [ha]; rfl
      exact update_ind q (fun _ => hn) fun q e hq => absurd (hi.alone q p (Pc.named_owner hq) hp) e
    · -- pid 0 is stored with the lock free
      have hfree : s.mem.locked = false := by have := hi.knows p; rwa [ha] at this
      refine update_ind q (fun hq => ?_) fun q _ hq => ?_
      · rw [Pc.named_owner hq] at hb; cases hb
      · have := hi.taken.mpr ⟨q, Pc.named_owner hq⟩
        rw [hfree] at this
        cases this
  · have ho : ∀ n, op ≠ .lkpid n := fun n e => ho ⟨n, e⟩
    rw [Op.run_lkpid k.run ho]
    exact update_ind q (fun hq => hi.named p (k.edge.named ho hq)) fun q _ => hi.named q

theorem covered :
    Lib.Covered (fun q => (s'.pc q).waits (s'.mem.state q) = true) (s'.mem.locked = true)
      fun w q => (s'.pc w).owes q = true := by
  -- who is to wake others does not wait itself
  have own : (s'.pc p).waits (s'.mem.state p) = true → (s.pc p).owes p = true → s'.mem.locked = true := by
    intro hq ho
    rw [k.pc_self] at hq
    refine (k.edge.waits (hi.knows p) k.run hq).resolve_left ?_
    rw [Pc.owes_waits ho]
    nofun
  refine hi.covered.step (fun q hq => ?_) (fun hc hc' => ?_) fun w q ho hq => ?_
  · by_cases e : q = p
    · subst e
      rw [k.pc_self] at hq
      exact k.edge.waits (hi.knows q) k.run hq
    · rw [k.pc_other e] at hq
      refine .inl ?_
      rcases Pc.waits_cases (q := q) hq with hh | ⟨ha, hs⟩
      · rwa [k.state_other hi e hh] at hq
      · rw [ha, k.sleeping_other e hs]; rfl
  · have hl : ∃ v, op = .locked v := by
      by_contra hn
      exact hc' ((Op.run_locked k.run fun v e => hn ⟨v, e⟩).trans hc)
    obtain ⟨v, rfl⟩ := hl
    have hv : s'.mem.locked = v := by rw [← Option.some.inj k.run]
    rcases k.edge.locked.2 with ⟨rfl, -, -⟩ | ⟨rfl, -, rfl⟩
    · exact absurd hv hc'
    · exact ⟨p, fun q _ => by rw [k.pc_self]; rfl⟩
  · by_cases e : w = p
    · subst e
      rcases k.edge.owes ho with ho | rfl | ⟨hh, hdone⟩
      · exact .inr ⟨w, by rw [k.pc_self]; exact ho⟩
      · exact .inl (own hq ho)
      · by_cases eq : q = w
        · subst eq; exact .inl (own hq ho)
        · exfalso
          rw [k.pc_other eq] at hq
          rcases Pc.waits_cases (q := q) hq with hh' | ⟨ha, hs⟩
          · have h1 : s.Holds (.proc w) (.proc q) := hh
            have h2 : s.Holds (.proc q) (.proc q) := hh'
            cases hi.locks.unique h2 h1
            exact eq rfl
          · rcases hdone with ⟨rfl, hne⟩ | ⟨rfl, hch⟩ | rfl
            · exact hne (k.sleeping_other eq hs)
            · have := hi.knows q
              rw [ha] at this
              rw [show s.mem.chan q = true from this] at hch
              cases hch
            · have hv : s'.mem.state q = .runnable := by rw [← Option.some.inj k.run]; exact update_self ..
              rw [hv] at hs; cases hs
    · exact .inr ⟨w, by rw [k.pc_other e]; exact ho⟩

end

end Code

theorem Inv.switch (hi : Inv pid s) (hl : Lib.Locked s'.mem.lock s'.Holds) (st : PState) (ha : s.pc i = a)
    (hpc : s'.pc = update s.pc i b) (hs : s'.mem.state = update s.mem.state i st)
    (hlk : s'.mem.locked = s.mem.locked) (hp : s'.mem.lkpid = s.mem.lkpid) (hc : s'.mem.chan = s.mem.chan)
    (how : b.owner = a.owner) (hna : b.named = a.named) (hk : b.Knows i s'.mem)
    (haw : b.drowsy = false → st ≠ .sleeping) (hwa : b.waits st = true → a.waits (s.mem.state i) = true)
    (hoe : ∀ q : Fin N, a.owes q = false) (hst : ∀ q, q ≠ i → (s.pc q).Holds q (.proc i) → s'.mem.state i = s.mem.state i) :
    Inv pid s' := by
  subst ha
  have hown : ∀ q, (s'.pc q).owner = (s.pc q).owner := by
    intro q
    rw [hpc]
    exact update_ind q how fun _ _ => rfl
  refine ⟨hl, ?_, ?_, fun q => ?_, fun q => ?_, fun q => ?_, ?_⟩
  · simp only [hown]; exact hi.alone
  · simp only [hown, hlk]; exact hi.taken
  · rw [hp, hpc]
    exact update_ind q (fun hq => hi.named i (hna ▸ hq)) fun q _ => hi.named q
  · rw [hpc]
    refine update_ind q hk fun q e => (hi.knows q).congr (fun _ => hlk) (by rw [hc]) fun j hj => ?_
    by_cases ej : j = i
    · subst ej; exact hst q e hj
    · rw [hs, update_of_ne ej]
  · rw [hpc, hs]
    by_cases e : q = i
    · subst e; rwa [update_self, update_self]
    · rw [update_of_ne e, update_of_ne e]; exact hi.awake q
  · rw [hpc, hs]
    refine hi.covered.step (fun q hq => .inl ?_) (fun hc hc' => absurd (hlk.trans hc) hc') fun w q ho _ => .inr ⟨w, ?_⟩
    · by_cases e : q = i
      · subst e; rw [update_self, update_self] at hq; exact hwa hq
      · rwa [update_of_ne e, update_of_ne e] at hq
    · revert ho
      exact update_ind w (fun ho => absurd ((hoe q).symm.trans ho) nofun) fun _ _ ho => ho

theorem Inv.step (hi : Inv pid s) (e : Eff pid s s') : Inv pid s' := by
  have hl := locks_step hi.locks e
  cases e with
  | code p op b he hm hpc hd =>
    have k : Code pid s s' p op b := ⟨he, hm, hpc, hd⟩
    exact ⟨hl, (k.owners hi).1, (k.owners hi).2, k.named hi, k.knows hi, k.awake hi, k.covered hi⟩
  | off p b hb hs =>
    subst hs
    have hk := hi.knows p
    have haw := hi.awake p
    rcases Pc.off_cases hb with ⟨ha, rfl⟩ | ⟨r, ha, rfl⟩ <;> rw [ha] at hk haw
    · exact hi.switch hl (s.mem.state p) ha rfl (update_eq_self ..).symm rfl rfl rfl rfl rfl hk.1 nofun (fun _ => rfl)
        (fun _ => rfl) fun _ _ _ => rfl
    · exact hi.switch hl (s.mem.state p) ha rfl (update_eq_self ..).symm rfl rfl rfl rfl rfl trivial (fun _ => haw rfl)
        nofun (fun _ => rfl) fun _ _ _ => rfl
  | run i b hd hb hs =>
    subst hs
    have hexcl : ∀ q, ¬ (s.pc q).Holds q (.proc i) := fun q hq => by
      have h1 : s.Holds (.sched i) (.proc i) := ⟨rfl, by rw [hd]; nofun⟩
      have h2 : s.Holds (.proc q) (.proc i) := hq
      cases hi.locks.unique h2 h1
    rcases Pc.resume_cases hb with ⟨ha, rfl⟩ | ⟨r, ha, rfl⟩
    · exact hi.switch hl .running ha rfl rfl rfl rfl rfl rfl rfl trivial (fun _ => nofun) nofun (fun _ => rfl)
        fun q _ h => absurd h (hexcl q)
    · exact hi.switch hl .running ha rfl rfl rfl rfl rfl rfl rfl trivial (fun _ => nofun) nofun (fun _ => rfl)
        fun q _ h => absurd h (hexcl q)
  | look _ _ _ hs | test _ _ _ _ _ hs | leave _ _ hs =>
    subst hs
    exact ⟨hl, hi.alone, hi.taken, hi.named, hi.knows, hi.awake, hi.covered⟩

theorem init_inv : Inv pid (init N) := by
  refine ⟨fun l t => ⟨nofun, fun h => ?_⟩, nofun, ⟨nofun, nofun⟩, nofun, fun _ => trivial, fun _ _ => nofun, nofun⟩
  cases t with
  | proc p => cases l <;> cases h
  | sched i => exact absurd rfl h.2

theorem inv (hs : (sys pid).Reach s) : Inv pid s :=
  Lib.Sys.invariant (fun _ h0 => h0 ▸ init_inv) (fun _ _ _ _ h hst => h.step (next_cases hst)) hs

/-! ## The sleep-lock -/

/-- Back from `acquiresleep`, and not yet in `releasesleep`. -/
def Pc.inside : Pc N → Bool
  | .crit => true
  | .hAcq r | .hLoad r | .hRel r _ | .xAcq _ _ r | .xPid _ _ r | .xSet _ r | .xState _ r | .xRun _ r | .xRel _ r
  | .xNext _ _ r | .yAcq r | .yState r | .ySched r | .yOff r | .yRel r => r
  | _ => false

theorem Pc.inside_named (h : a.inside = true) : a.named = true := by
  cases a <;> first | exact h | cases h

theorem Pc.owes_lk (h : a.owes q = true) : a.lk = true := by
  cases a <;> first | rfl | cases h

theorem Pc.waits_of_drowsy {st : PState} (h : a.drowsy = true) (hs : st = .sleeping) : a.waits st = true := by
  subst hs
  cases a <;> first | rfl | cases h

theorem Inv.holding_test (hi : Inv pid s) (hpid : Function.Injective pid) {r : Bool} (h : s.pc p = .hLoad r) :
    (s.mem.locked && s.mem.lkpid == pid p) = r := by
  have hlk : s.Holds (.proc p) .lk := by show (s.pc p).lk = true; rw [h]; rfl
  cases r with
  | true =>
    have hn : (s.pc p).named = true := by rw [h]; rfl
    rw [hi.taken.mpr ⟨p, Pc.named_owner hn⟩, hi.named p hn]
    simp
  | false =>
    cases hl : s.mem.locked with
    | false => rfl
    | true =>
      obtain ⟨q, hq⟩ := hi.taken.mp hl
      have hqp : q ≠ p := by rintro rfl; rw [h] at hq; cases hq
      have hqn : (s.pc q).named = true := by
        -- who is about to store its pid holds `lk->lk`
        by_contra hn
        have : s.pc q = .aPid := by
          revert hq hn
          generalize s.pc q = a
          intro hq hn
          cases a <;> first | rfl | exact absurd hq hn
        have h2 : s.Holds (.proc q) .lk := by show (s.pc q).lk = true; rw [this]; rfl
        cases hi.locks.unique h2 hlk
        exact hqp rfl
      rw [hi.named q hqn]
      simpa using fun e => hqp (hpid e)

theorem Edge.answer {r v : Bool} (e : Edge pid p m a op b) (hb : b = .hRel r v) :
    a = .hLoad r ∧ (m.locked && m.lkpid == pid p) = v := by
  cases e with
  | hLoad => cases hb; exact ⟨rfl, rfl⟩
  | hRel r | xEnd _ _ r | xRel _ r | yRel r => cases r <;> cases hb
  | _ => cases hb

/-- An answer of `holdingsleep` was there, or has just been computed. -/
theorem Eff.answer {r v : Bool} (e : Eff pid s s') (h : s'.pc p = .hRel r v) :
    s.pc p = .hRel r v ∨ s.pc p = .hLoad r ∧ (s.mem.locked && s.mem.lkpid == pid p) = v := by
  cases e with
  | code q op b hed _ hpc _ =>
    rw [hpc] at h
    by_cases e : p = q
    · subst e
      rw [update_self] at h
      exact .inr (hed.answer h)
    · exact .inl ((update_of_ne e ..).symm.trans h)
  | off q b hb hs | run q b _ hb hs =>
    subst hs
    have h : update s.pc q b p = .hRel r v := h
    by_cases e : p = q
    · subst e
      rw [update_self] at h
      subst h
      revert hb
      cases s.pc p <;> nofun
    · exact .inl ((update_of_ne e ..).symm.trans h)
  | look _ _ _ hs | test _ _ _ _ _ hs | leave _ _ hs =>
    subst hs
    exact .inl h

/-- `holdingsleep` answers whether its caller has the sleep-lock, if no two processes share
    a pid. -/
theorem holdingsleep_right (hs : (sys pid).Reach s) (hpid : Function.Injective pid) {r v : Bool} (h : s.pc p = .hRel r v) :
    v = (s.pc p).inside := by
  have hall : ∀ p r v, s.pc p = .hRel r v → v = r := by
    refine Lib.Sys.invariant (I := fun s => ∀ p r v, s.pc p = .hRel r v → v = r) ?_ ?_ hs
    · rintro _ rfl p r v h
      cases h
    · intro s _ s' hr ih hst p r v h
      rcases (next_cases hst).answer h with h | ⟨h, hv⟩
      · exact ih p r v h
      · exact hv.symm.trans ((inv hr).holding_test hpid h)
  rw [hall p r v h, h]
  rfl

theorem holdingsleep_right_holder : ∃ s : St 2, (sys fun i => (i : Int) + 1).Reach s ∧ s.pc 0 = .hRel true true ∧
    true = (s.pc 0).inside := by
  have hr : ∃ s : St 2, Lib.Sys.runAll (next fun i => (i : Int) + 1) (fun _ _ => true) (init 2)
      (.call 0 .acquiresleep :: List.replicate 5 (.step 0) ++ [.call 0 .holdingsleep, .step 0, .step 0]) = some s ∧
      s.pc 0 = .hRel true true := ⟨_, rfl, rfl⟩
  obtain ⟨s, hrun, hp⟩ := hr
  have hs : (sys fun i : Fin 2 => (i : Int) + 1).Reach s := Lib.Sys.reach_of_runAll_true rfl hrun
  exact ⟨s, hs, hp, holdingsleep_right hs (fun i j h => by have h : (i : Int) + 1 = j + 1 := h; omega) hp⟩

/-- Mutual exclusion, with the holder's pid in the lock, and no missed release: when
    `lk->lk` is free, whoever sleeps on the lock sleeps on a lock that is taken. -/
theorem sleeplock (hs : (sys pid).Reach s) :
    (∀ p q, (s.pc p).inside = true → (s.pc q).inside = true → p = q) ∧
    (∀ p, (s.pc p).inside = true → s.mem.locked = true ∧ s.mem.lkpid = pid p) ∧
    (s.mem.lock .lk = none → ∀ p, s.mem.state p = .sleeping → s.mem.chan p = true → s.mem.locked = true) := by
  have hi := inv hs
  have hown : ∀ p, (s.pc p).inside = true → (s.pc p).owner = true := fun p hp => Pc.named_owner (Pc.inside_named hp)
  refine ⟨fun p q hp hq => hi.alone p q (hown p hp) (hown q hq),
    fun p hp => ⟨hi.taken.mpr ⟨p, hown p hp⟩, hi.named p (Pc.inside_named hp)⟩, fun hfree p hsl _ => ?_⟩
  have hd : (s.pc p).drowsy = true := by
    by_contra hd
    exact hi.awake p (by simpa using hd) hsl
  refine hi.covered.calm_of_no_debt (fun w q ho => ?_) (Pc.waits_of_drowsy hd hsl)
  have hw : s.Holds (.proc w) .lk := Pc.owes_lk ho
  exact hi.locks.not_free hw hfree

/-- One process has the lock, another sleeps on it. -/
theorem sleeplock_contended : ∃ s : St 2, (sys fun i => (i : Int) + 1).Reach s ∧ s.mem.lock .lk = none ∧
    (s.pc 0).inside = true ∧ s.mem.lkpid = 1 ∧ s.mem.state 1 = .sleeping ∧ s.mem.locked = true := by
  have hr : ∃ s : St 2, Lib.Sys.runAll (next fun i => (i : Int) + 1) (fun _ _ => true) (init 2)
      ([.call 0 .acquiresleep, .step 0, .step 0, .step 0, .step 0, .step 0] ++
        [.call 1 .acquiresleep, .step 1, .step 1, .step 1, .step 1, .step 1, .step 1, .step 1, .sched 1]) = some s ∧
      s.mem.lock .lk = none ∧ (s.pc 0).inside = true ∧ s.mem.state 1 = .sleeping ∧ s.mem.chan 1 = true :=
    ⟨_, rfl, rfl, rfl, rfl, rfl⟩
  obtain ⟨s, hrun, hlk, hin, hst, hch⟩ := hr
  have hs : (sys fun i : Fin 2 => (i : Int) + 1).Reach s := Lib.Sys.reach_of_runAll_true rfl hrun
  obtain ⟨-, hpid, hmiss⟩ := sleeplock hs
  exact ⟨s, hs, hlk, hin, (hpid 0 hin).2, hst, hmiss hlk 1 hst hch⟩

end Xv6.Sleep
