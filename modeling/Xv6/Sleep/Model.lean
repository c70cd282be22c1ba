/-
  Xv6.Sleep.Model — one sleep-lock and the processes that take it (kernel/sleeplock.c, with sleep,
  wakeup, yield, kill, sched and scheduler of kernel/proc.c).

  The process table has `N` slots. Each acquire and release of a spinlock and each load or store
  of a field is a step. `sched` hands the CPU, with `p->lock` held, to the scheduler, which
  releases the lock; a scheduler that finds a process RUNNABLE hands it the lock back. There is no
  bound on the CPUs: `disp i` is what the scheduler at slot `i` does.

  A process may call `kill`, `holdingsleep`, or be interrupted by the timer and `yield`, with or
  without the sleep-lock (`r` in a place tells which). It sleeps on nothing but the lock.
-/

import Xv6.Proc.Model

namespace Xv6.Sleep

open Function (update)
open Proc (PState)

inductive Lock (N : Nat) where
  /-- `lk->lk`. -/
  | lk
  /-- `proc[i].lock`. -/
  | proc (i : Fin N)
  deriving DecidableEq, Repr

inductive Thread (N : Nat) where
  | proc (p : Fin N)
  /-- The scheduler that looks at slot `i`. -/
  | sched (i : Fin N)
  deriving DecidableEq, Repr

inductive Pc (N : Nat) where
  | out
  /-- Between `acquiresleep` and `releasesleep`. -/
  | crit
  -- acquiresleep
  | aAcq
  | aTest
  | aSet
  | aPid
  | aRel
  -- sleep
  | sAcq
  | sRel
  | sChan
  | sState
  | sSched
  | asleep
  | sTidy
  | sPRel
  | sReacq
  -- releasesleep, with wakeup
  | rAcq
  | rClr
  | rPid
  | wAcq (i : Nat)
  | wState (i : Fin N)
  | wChan (i : Fin N)
  | wSet (i : Fin N)
  | wRel (i : Fin N)
  | rRel
  -- holdingsleep; `v` is its answer
  | hAcq (r : Bool)
  | hLoad (r : Bool)
  | hRel (r v : Bool)
  -- kill
  | xAcq (k : Int) (i : Nat) (r : Bool)
  | xPid (k : Int) (i : Fin N) (r : Bool)
  | xSet (i : Fin N) (r : Bool)
  | xState (i : Fin N) (r : Bool)
  | xRun (i : Fin N) (r : Bool)
  | xRel (i : Fin N) (r : Bool)
  | xNext (k : Int) (i : Fin N) (r : Bool)
  -- yield
  | yAcq (r : Bool)
  | yState (r : Bool)
  | ySched (r : Bool)
  | yOff (r : Bool)
  | yRel (r : Bool)
  deriving DecidableEq, Repr

inductive Disp where
  | idle
  | test
  | set
  | back
  deriving DecidableEq, Repr

structure Mem (N : Nat) where
  locked : Bool
  /-- `lk->pid`. -/
  lkpid : Int
  state : Fin N → PState
  /-- Whether `p->chan` is the lock's address, or else 0. -/
  chan : Fin N → Bool
  killed : Fin N → Bool
  lock : Lock N → Option (Thread N)

inductive Op (N : Nat) where
  | nop
  | acquire (l : Lock N)
  | release (l : Lock N)
  | locked (v : Bool)
  | lkpid (k : Int)
  | state (i : Fin N) (v : PState)
  | chan (i : Fin N) (v : Bool)
  | killed (i : Fin N)
  deriving DecidableEq, Repr

structure St (N : Nat) where
  mem : Mem N
  pc : Fin N → Pc N
  disp : Fin N → Disp

variable {N : Nat}

def Op.run (t : Thread N) (m : Mem N) : Op N → Option (Mem N)
  | .nop => some m
  | .acquire l => if m.lock l = none then some { m with lock := update m.lock l (some t) } else none
  | .release l => some { m with lock := update m.lock l none }
  | .locked v => some { m with locked := v }
  | .lkpid k => some { m with lkpid := k }
  | .state i v => some { m with state := update m.state i v }
  | .chan i v => some { m with chan := update m.chan i v }
  | .killed i => some { m with killed := update m.killed i true }

/-- Where a call goes back to. -/
def home : Bool → Pc N
  | true => .crit
  | false => .out

/-- The code of process `p`: the operation at each place, and the place after it. -/
def prog (pid : Fin N → Int) (p : Fin N) (m : Mem N) : Pc N → Option (Op N × Pc N)
  | .out | .crit | .sSched | .asleep | .ySched _ | .yOff _ => none
  | .aAcq => some (.acquire .lk, .aTest)
  | .aTest => some (.nop, if m.locked then .sAcq else .aSet)
  | .aSet => some (.locked true, .aPid)
  | .aPid => some (.lkpid (pid p), .aRel)
  | .aRel => some (.release .lk, .crit)
  | .sAcq => some (.acquire (.proc p), .sRel)
  | .sRel => some (.release .lk, .sChan)
  | .sChan => some (.chan p true, .sState)
  | .sState => some (.state p .sleeping, .sSched)
  | .sTidy => some (.chan p false, .sPRel)
  | .sPRel => some (.release (.proc p), .sReacq)
  | .sReacq => some (.acquire .lk, .aTest)
  | .rAcq => some (.acquire .lk, .rClr)
  | .rClr => some (.locked false, .rPid)
  | .rPid => some (.lkpid 0, .wAcq 0)
  | .wAcq i =>
    if h : i < N then
      if ⟨i, h⟩ = p then some (.nop, .wAcq (i + 1)) else some (.acquire (.proc ⟨i, h⟩), .wState ⟨i, h⟩)
    else some (.nop, .rRel)
  | .wState i => some (.nop, if m.state i = .sleeping then .wChan i else .wRel i)
  | .wChan i => some (.nop, if m.chan i then .wSet i else .wRel i)
  | .wSet i => some (.state i .runnable, .wRel i)
  | .wRel i => some (.release (.proc i), .wAcq (i + 1))
  | .rRel => some (.release .lk, .out)
  | .hAcq r => some (.acquire .lk, .hLoad r)
  | .hLoad r => some (.nop, .hRel r (m.locked && m.lkpid == pid p))
  | .hRel r _ => some (.release .lk, home r)
  | .xAcq k i r => if h : i < N then some (.acquire (.proc ⟨i, h⟩), .xPid k ⟨i, h⟩ r) else some (.nop, home r)
  | .xPid k i r => some (.nop, if pid i = k then .xSet i r else .xNext k i r)
  | .xSet i r => some (.killed i, .xState i r)
  | .xState i r => some (.nop, if m.state i = .sleeping then .xRun i r else .xRel i r)
  | .xRun i r => some (.state i .runnable, .xRel i r)
  | .xRel i r => some (.release (.proc i), home r)
  | .xNext k i r => some (.release (.proc i), .xAcq k (i + 1) r)
  | .yAcq r => some (.acquire (.proc p), .yState r)
  | .yState r => some (.state p .runnable, .ySched r)
  | .yRel r => some (.release (.proc p), home r)

inductive Call where
  | acquiresleep
  | releasesleep
  | holdingsleep
  | kill (k : Int)
  | yield
  deriving DecidableEq, Repr

/-- The first place of a call: only who has the sleep-lock releases it, and not twice. -/
def Call.entry : Call → Pc N → Option (Pc N)
  | .acquiresleep, .out => some .aAcq
  | .releasesleep, .crit => some .rAcq
  | .holdingsleep, .out => some (.hAcq false)
  | .holdingsleep, .crit => some (.hAcq true)
  | .kill k, .out => some (.xAcq k 0 false)
  | .kill k, .crit => some (.xAcq k 0 true)
  | .yield, .out => some (.yAcq false)
  | .yield, .crit => some (.yAcq true)
  | _, _ => none

inductive Act (N : Nat) where
  | call (p : Fin N) (c : Call)
  | step (p : Fin N)
  /-- The next step of the scheduler at slot `i`. -/
  | sched (i : Fin N)

namespace St

def setPc (s : St N) (p : Fin N) (b : Pc N) : St N := { s with pc := update s.pc p b }

def setDisp (s : St N) (i : Fin N) (d : Disp) : St N := { s with disp := update s.disp i d }

def pass (s : St N) (p : Fin N) (t : Thread N) : St N :=
  { s with mem := { s.mem with lock := update s.mem.lock (.proc p) (some t) } }

end St

/-- `sched`'s way to the scheduler: where the process will go on when it is run again. -/
def Pc.off : Pc N → Option (Pc N)
  | .sSched => some .asleep
  | .ySched r => some (.yOff r)
  | _ => none

/-- Where a process that is switched to goes on. -/
def Pc.resume : Pc N → Option (Pc N)
  | .asleep => some .sTidy
  | .yOff r => some (.yRel r)
  | _ => none

def stepProc (pid : Fin N → Int) (s : St N) (p : Fin N) : Option (St N) :=
  match (s.pc p).off with
  | some b => some (((s.setPc p b).setDisp p .back).pass p (.sched p))
  | none =>
    (prog pid p s.mem (s.pc p)).bind fun (op, b) =>
      (op.run (.proc p) s.mem).map fun m => { s.setPc p b with mem := m }

def stepSched (s : St N) (i : Fin N) : Option (St N) :=
  match s.disp i with
  | .idle => ((Op.acquire (.proc i)).run (.sched i) s.mem).map fun m => { s.setDisp i .test with mem := m }
  | .test => some (s.setDisp i (if s.mem.state i = .runnable then .set else .back))
  | .set =>
    (s.pc i).resume.map fun b =>
      ({ (s.setPc i b).setDisp i .idle with
        mem := { s.mem with state := update s.mem.state i .running } }).pass i (.proc i)
  | .back => ((Op.release (.proc i)).run (.sched i) s.mem).map fun m => { s.setDisp i .idle with mem := m }

def next (pid : Fin N → Int) (s : St N) : Act N → Option (St N)
  | .call p c => (c.entry (s.pc p)).map (s.setPc p)
  | .step p => stepProc pid s p
  | .sched i => stepSched s i

/-- After `initsleeplock`, with every process running. -/
def init (N : Nat) : St N where
  mem :=
    { locked := false
      lkpid := 0
      state := fun _ => .running
      chan := fun _ => false
      killed := fun _ => false
      lock := fun _ => none }
  pc := fun _ => .out
  disp := fun _ => .idle

def sys (pid : Fin N → Int) : Lib.Sys (St N) (Act N) := .ofFn (· = init N) (next pid)

end Xv6.Sleep
