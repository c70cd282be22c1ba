/-
  Xv6.Proc.Model — the process table (kernel/proc.c: allocproc, freeproc, fork, reparent, exit,
  wait, scheduler, sched, yield, forkret, sleep, wakeup, kill, killed), on `C` CPUs and `N` slots,
  under sequential consistency.

  Each load or store of a field of a process, each acquire and each release is a step of its own.
  `prog` gives, for each place in the code, the operation there (`Op`) and the place that follows.
  A CPU is in its scheduler or runs a process; `swtch` hands the CPU, with `p->lock` held, from
  one to the other. A process that holds no lock may be interrupted at any time by the timer, and
  then calls `yield` (`Irq`).

  Memory for a new process, and `copyout`, succeed or fail as the label says. `sleep` and `wakeup`
  are called by `wait` and `exit`, and by the rest of the kernel on channels (`Chan.other`) and
  with locks of its own. A device interrupt calls `wakeup` too, on a CPU that is in its scheduler
  (one that is taken while a process runs reads the table as another CPU's would, since that
  process is not SLEEPING). `init` never exits (`exit` panics).

  Pids are 32 bits and wrap; a pid has the number of its draw with it, which tells processes apart
  that have one pid (`Pid`). That number and `Hist` are history: no step reads them.
-/

import Xv6.Lib.System
import Mathlib.Logic.Function.Basic

namespace Xv6.Proc

open Function (update)

inductive PState where
  | unused
  | used
  | sleeping
  | runnable
  | running
  | zombie
  deriving DecidableEq, Repr

inductive Chan (N : Nat) where
  /-- The address of a slot, which `wait` sleeps on. -/
  | proc (i : Fin N)
  | other (n : Nat)
  deriving DecidableEq, Repr

inductive Lock (N : Nat) where
  /-- `proc[i].lock`. -/
  | proc (i : Fin N)
  | wait
  | pid
  deriving DecidableEq, Repr

/-- Who calls `sleep`: `wait`, with `addr != 0` or not, or another part of the kernel. -/
inductive Sleeper where
  | wait (addr : Bool)
  | other (n : Nat)
  deriving DecidableEq, Repr

/-- An `int`, and the number of the draw in `allocpid` that it comes from, which nothing reads.
    A slot without a process has 0, from no draw. -/
structure Pid where
  val : BitVec 32
  draw : Nat
  deriving DecidableEq, Repr

def Pid.zero : Pid := ⟨0, 0⟩

def Pid.succ (k : Pid) : Pid := ⟨k.val + 1, k.draw + 1⟩

/-- Who calls `wakeup`. -/
inductive Waker where
  /-- `reparent`, at slot `j`, in `exit(st)`. -/
  | reparent (st : Int) (j : Nat)
  | exit (st : Int)
  | other
  deriving DecidableEq, Repr

/-- Who calls `freeproc`: a `fork` that fails, or `wait`, with the pid that it returns and
    the status that it has copied out. -/
inductive Freer where
  | fork
  | wait (addr : Bool) (pid : Pid) (st : Option Int)
  deriving DecidableEq, Repr

/-- The next store of `freeproc`. -/
inductive Field where
  | pid
  | parent
  | chan
  | killed
  | xstate
  | state
  deriving DecidableEq, Repr

inductive Pc (N : Nat) where
  /-- No thread: the slot is unused, or its process has exited. -/
  | dead
  /-- Outside the code here; `ret` is what the last call returned. -/
  | user (ret : Int)
  | forkret
  -- fork, with allocproc and allocpid
  | fAcq (i : Nat)
  | fTest (i : Fin N)
  | fNext (i : Fin N)
  | fPidAcq (i : Fin N)
  | fPidLoad (i : Fin N)
  | fPidInc (i : Fin N) (k : Pid)
  | fPidRel (i : Fin N) (k : Pid)
  | fSetPid (i : Fin N) (k : Pid)
  | fSetUsed (i : Fin N)
  | fBuild (i : Fin N)
  | fCopy (i : Fin N)
  | fGetPid (i : Fin N)
  | fRel (i : Fin N) (k : Pid)
  | fWait (i : Fin N) (k : Pid)
  | fParent (i : Fin N) (k : Pid)
  | fWaitRel (i : Fin N) (k : Pid)
  | fPublish (i : Fin N) (k : Pid)
  -- freeproc, and the releases after it
  | free (f : Field) (i : Fin N) (r : Freer)
  | freeRel (i : Fin N) (r : Freer)
  | waitRet (a : Bool) (k : Pid) (st : Option Int)
  -- wait
  | wAcq (a : Bool)
  | wScan (a : Bool) (i : Nat) (havekids : Bool)
  | wLock (a : Bool) (i : Fin N)
  | wTest (a : Bool) (i : Fin N)
  | wNext (a : Bool) (i : Fin N)
  | wPid (a : Bool) (i : Fin N)
  | wCopy (a : Bool) (i : Fin N) (k : Pid)
  | wBad (i : Fin N)
  | wFail
  | wKAcq (a : Bool)
  | wKLoad (a : Bool)
  | wKRel (a : Bool) (killed : Bool)
  -- sleep
  | sAcq (w : Sleeper)
  | sRel (w : Sleeper)
  | sChan (w : Sleeper)
  | sState (w : Sleeper)
  | sSched (w : Sleeper)
  | sTidy (w : Sleeper)
  | sPRel (w : Sleeper)
  | sReacq (w : Sleeper)
  -- exit(st), with reparent
  | eAcq (st : Int)
  | eScan (st : Int) (j : Nat)
  | eSetPar (st : Int) (j : Fin N)
  | eLoadPar (st : Int)
  | eLock (st : Int)
  | eXstate (st : Int)
  | eZombie (st : Int)
  | eWaitRel
  | eSched
  -- wakeup
  | kAcq (ch : Option (Chan N)) (i : Nat) (w : Waker)
  | kState (ch : Option (Chan N)) (i : Fin N) (w : Waker)
  | kChan (ch : Option (Chan N)) (i : Fin N) (w : Waker)
  | kSet (ch : Option (Chan N)) (i : Fin N) (w : Waker)
  | kRel (ch : Option (Chan N)) (i : Fin N) (w : Waker)
  -- kill; `d` (history): the draws when kill was called
  | xAcq (k : BitVec 32) (d : Nat) (i : Nat)
  | xPid (k : BitVec 32) (d : Nat) (i : Fin N)
  | xSet (k : BitVec 32) (i : Fin N)
  | xState (k : BitVec 32) (i : Fin N)
  | xRun (k : BitVec 32) (i : Fin N)
  | xRel (k : BitVec 32) (i : Fin N)
  | xNext (k : BitVec 32) (d : Nat) (i : Fin N)
  deriving DecidableEq, Repr

inductive Irq where
  | none
  | acq
  | store
  | sched
  | rel
  deriving DecidableEq, Repr

inductive SPc (N : Nat) where
  | acq (i : Nat)
  | test (i : Fin N)
  | setRunning (i : Fin N)
  | setProc (i : Fin N)
  /-- Switched to process `i`. -/
  | run (i : Fin N)
  /-- Back from it, about to store `c->proc = 0`. -/
  | back (i : Fin N)
  | rel (i : Fin N)
  -- `wakeup`, in an interrupt taken before `acq r`
  | wAcq (n : Nat) (i : Nat) (r : Nat)
  | wState (n : Nat) (i : Fin N) (r : Nat)
  | wChan (n : Nat) (i : Fin N) (r : Nat)
  | wSet (n : Nat) (i : Fin N) (r : Nat)
  | wRel (n : Nat) (i : Fin N) (r : Nat)
  deriving DecidableEq, Repr

structure Mem (N C : Nat) where
  state : Fin N → PState
  pid : Fin N → Pid
  killed : Fin N → Bool
  xstate : Fin N → Int
  parent : Fin N → Option (Fin N)
  chan : Fin N → Option (Chan N)
  nextpid : Pid
  lock : Lock N → Option (Fin C)
  /-- `cpus[c].proc`. -/
  proc : Fin C → Option (Fin N)

/-- What a step asks of the memory. -/
inductive Op (N : Nat) where
  | nop
  | acquire (l : Lock N)
  | release (l : Lock N)
  | state (i : Fin N) (v : PState)
  | pid (i : Fin N) (k : Pid)
  | killed (i : Fin N) (v : Bool)
  | xstate (i : Fin N) (st : Int)
  | parent (i : Fin N) (q : Option (Fin N))
  | chan (i : Fin N) (ch : Option (Chan N))
  | nextpid (k : Pid)
  /-- `allocproc`'s last stores: the new process will start in `forkret`. -/
  | context (i : Fin N)
  /-- The store of `c->proc`. -/
  | proc (q : Option (Fin N))
  deriving DecidableEq, Repr

structure Report where
  /-- The pid of the process that called `wait`. -/
  waiter : Pid
  /-- Whether `addr != 0`. -/
  addr : Bool
  pid : Pid
  /-- What was copied out. -/
  status : Option Int
  deriving DecidableEq, Repr

structure Hist where
  /-- Each forked pid, with its parent's. -/
  forks : List (Pid × Pid)
  /-- Each process that has exited, with the status it called `exit` with. -/
  exits : List (Pid × Int)
  reports : List Report
  /-- What each `kill` that returned 0 was asked for, and what it found. -/
  kills : List (BitVec 32 × Pid)

structure St (N C : Nat) where
  mem : Mem N C
  pc : Fin N → Pc N
  irq : Fin N → Irq
  spc : Fin C → SPc N
  hist : Hist

variable {N C : Nat}

def Op.run (c : Fin C) (m : Mem N C) : Op N → Option (Mem N C)
  | .nop | .context _ => some m
  | .acquire l => if m.lock l = none then some { m with lock := update m.lock l (some c) } else none
  | .release l => some { m with lock := update m.lock l none }
  | .state i v => some { m with state := update m.state i v }
  | .pid i k => some { m with pid := update m.pid i k }
  | .killed i v => some { m with killed := update m.killed i v }
  | .xstate i st => some { m with xstate := update m.xstate i st }
  | .parent i q => some { m with parent := update m.parent i q }
  | .chan i ch => some { m with chan := update m.chan i ch }
  | .nextpid k => some { m with nextpid := k }
  | .proc q => some { m with proc := update m.proc c q }

/-- The stores of `freeproc`, one by one. -/
def Field.clear (i : Fin N) : Field → Op N
  | .pid => .pid i .zero
  | .parent => .parent i none
  | .chan => .chan i none
  | .killed => .killed i false
  | .xstate => .xstate i 0
  | .state => .state i .unused

def Field.next : Field → Option Field
  | .pid => some .parent
  | .parent => some .chan
  | .chan => some .killed
  | .killed => some .xstate
  | .xstate => some .state
  | .state => none

def Sleeper.chan (p : Fin N) : Sleeper → Chan N
  | .wait _ => .proc p
  | .other n => .other n

/-- Where the caller goes on after `wakeup`. -/
def Waker.pc : Waker → Pc N
  | .reparent st j => .eScan st (j + 1)
  | .exit st => .eLock st
  | .other => .user 0

/-- The code of process `p`: the operation at each place, and the place after it. -/
def prog (ini p : Fin N) (m : Mem N C) (ok : Bool) : Pc N → Option (Op N × Pc N)
  | .dead | .user _ | .sSched _ | .eSched => none
  | .forkret => some (.release (.proc p), .user 0)
  | .fAcq i => if h : i < N then some (.acquire (.proc ⟨i, h⟩), .fTest ⟨i, h⟩) else some (.nop, .user (-1))
  | .fTest i => some (.nop, if m.state i = .unused then .fPidAcq i else .fNext i)
  | .fNext i => some (.release (.proc i), .fAcq (i + 1))
  | .fPidAcq i => some (.acquire .pid, .fPidLoad i)
  | .fPidLoad i => some (.nop, .fPidInc i m.nextpid)
  | .fPidInc i k => some (.nextpid k.succ, .fPidRel i k)
  | .fPidRel i k => some (.release .pid, .fSetPid i k)
  | .fSetPid i k => some (.pid i k, .fSetUsed i)
  | .fSetUsed i => some (.state i .used, .fBuild i)
  | .fBuild i => if ok then some (.context i, .fCopy i) else some (.nop, .free .pid i .fork)
  | .fCopy i => some (.nop, if ok then .fGetPid i else .free .pid i .fork)
  | .fGetPid i => some (.nop, .fRel i (m.pid i))
  | .fRel i k => some (.release (.proc i), .fWait i k)
  | .fWait i k => some (.acquire .wait, .fParent i k)
  | .fParent i k => some (.parent i (some p), .fWaitRel i k)
  | .fWaitRel i k => some (.release .wait, .fPublish i k)
  -- without np->lock
  | .fPublish i k => some (.state i .runnable, .user k.val.toInt)
  | .free f i r => some (f.clear i, match f.next with | some f' => .free f' i r | none => .freeRel i r)
  | .freeRel i r => some (.release (.proc i), match r with | .fork => .user (-1) | .wait a k st => .waitRet a k st)
  | .waitRet _ k _ => some (.release .wait, .user k.val.toInt)
  | .wAcq a => some (.acquire .wait, .wScan a 0 false)
  | .wScan a i hk =>
    if h : i < N then some (.nop, if m.parent ⟨i, h⟩ = some p then .wLock a ⟨i, h⟩ else .wScan a (i + 1) hk)
    else some (.nop, if hk then .wKAcq a else .wFail)
  | .wLock a i => some (.acquire (.proc i), .wTest a i)
  | .wTest a i => some (.nop, if m.state i = .zombie then .wPid a i else .wNext a i)
  | .wNext a i => some (.release (.proc i), .wScan a (i + 1) true)
  | .wPid a i => some (.nop, .wCopy a i (m.pid i))
  | .wCopy a i k =>
    some (.nop, if a then (if ok then .free .pid i (.wait a k (some (m.xstate i))) else .wBad i)
      else .free .pid i (.wait a k none))
  | .wBad i => some (.release (.proc i), .wFail)
  | .wFail => some (.release .wait, .user (-1))
  | .wKAcq a => some (.acquire (.proc p), .wKLoad a)
  | .wKLoad a => some (.nop, .wKRel a (m.killed p))
  | .wKRel a k => some (.release (.proc p), if k then .wFail else .sAcq (.wait a))
  | .sAcq w => some (.acquire (.proc p), .sRel w)
  | .sRel w => some (match w with | .wait _ => .release .wait | .other _ => .nop, .sChan w)
  | .sChan w => some (.chan p (some (w.chan p)), .sState w)
  | .sState w => some (.state p .sleeping, .sSched w)
  | .sTidy w => some (.chan p none, .sPRel w)
  | .sPRel w => some (.release (.proc p), .sReacq w)
  | .sReacq w => some (match w with | .wait a => (.acquire .wait, .wScan a 0 false) | .other _ => (.nop, .user 0))
  | .eAcq st => some (.acquire .wait, .eScan st 0)
  | .eScan st j =>
    if h : j < N then some (.nop, if m.parent ⟨j, h⟩ = some p then .eSetPar st ⟨j, h⟩ else .eScan st (j + 1))
    else some (.nop, .eLoadPar st)
  | .eSetPar st j => some (.parent j (some ini), .kAcq (some (.proc ini)) 0 (.reparent st j))
  | .eLoadPar st => some (.nop, .kAcq ((m.parent p).map .proc) 0 (.exit st))
  | .eLock st => some (.acquire (.proc p), .eXstate st)
  | .eXstate st => some (.xstate p st, .eZombie st)
  | .eZombie _ => some (.state p .zombie, .eWaitRel)
  | .eWaitRel => some (.release .wait, .eSched)
  | .kAcq ch i w =>
    if h : i < N then
      if ⟨i, h⟩ = p then some (.nop, .kAcq ch (i + 1) w) else some (.acquire (.proc ⟨i, h⟩), .kState ch ⟨i, h⟩ w)
    else some (.nop, w.pc)
  | .kState ch i w => some (.nop, if m.state i = .sleeping then .kChan ch i w else .kRel ch i w)
  | .kChan ch i w => some (.nop, if m.chan i = ch then .kSet ch i w else .kRel ch i w)
  | .kSet ch i w => some (.state i .runnable, .kRel ch i w)
  | .kRel ch i w => some (.release (.proc i), .kAcq ch (i + 1) w)
  | .xAcq k d i => if h : i < N then some (.acquire (.proc ⟨i, h⟩), .xPid k d ⟨i, h⟩) else some (.nop, .user (-1))
  | .xPid k d i => some (.nop, if (m.pid i).val = k then .xSet k i else .xNext k d i)
  | .xSet k i => some (.killed i true, .xState k i)
  | .xState k i => some (.nop, if m.state i = .sleeping then .xRun k i else .xRel k i)
  | .xRun k i => some (.state i .runnable, .xRel k i)
  | .xRel _ i => some (.release (.proc i), .user 0)
  | .xNext k d i => some (.release (.proc i), .xAcq k d (i + 1))

/-- What history records of a step of `p`. -/
def note (p : Fin N) (m : Mem N C) (h : Hist) : Pc N → Hist
  | .fParent i _ => { h with forks := (m.pid i, m.pid p) :: h.forks }
  | .eZombie st => { h with exits := (m.pid p, st) :: h.exits }
  | .waitRet a k st => { h with reports := ⟨m.pid p, a, k, st⟩ :: h.reports }
  | .xRel k i => { h with kills := (k, m.pid i) :: h.kills }
  | _ => h

inductive Call where
  | fork
  | wait (addr : Bool)
  | exit (st : Int)
  | kill (pid : BitVec 32)
  | sleep (n : Nat)
  | wakeup (n : Nat)
  deriving DecidableEq, Repr

inductive Act (C : Nat) where
  /-- The next step of CPU `c`'s scheduler. -/
  | sched (c : Fin C)
  /-- The next step of the process that `c` runs; `ok`: memory for a process is there,
      `copyout` succeeds. -/
  | step (c : Fin C) (ok : Bool)
  | call (c : Fin C) (k : Call)
  /-- A timer interrupt. -/
  | preempt (c : Fin C)
  /-- An interrupt whose handler calls `wakeup(n)`. -/
  | intr (c : Fin C) (n : Nat)

/-- The first place of a call of `p`; `init` does not exit. -/
def Call.entry (ini p : Fin N) (m : Mem N C) : Call → Option (Pc N)
  | .fork => some (.fAcq 0)
  | .wait a => some (.wAcq a)
  | .exit st => if p = ini then none else some (.eAcq st)
  | .kill k => some (.xAcq k m.nextpid.draw 0)
  | .sleep n => some (.sAcq (.other n))
  | .wakeup n => some (.kAcq (some (.other n)) 0 .other)

namespace St

def setPc (s : St N C) (p : Fin N) (a : Pc N) : St N C := { s with pc := update s.pc p a }

def setIrq (s : St N C) (p : Fin N) (x : Irq) : St N C := { s with irq := update s.irq p x }

def setSpc (s : St N C) (c : Fin C) (x : SPc N) : St N C := { s with spc := update s.spc c x }

/-- The thread of a slot whose context `op` sets up. -/
def start (s : St N C) : Op N → St N C
  | .context i => s.setPc i .forkret
  | _ => s

end St

/-- The code of a CPU in `scheduler`, or in an interrupt taken there. -/
def schedProg (m : Mem N C) : SPc N → Option (Op N × SPc N)
  | .acq i => if h : i < N then some (.acquire (.proc ⟨i, h⟩), .test ⟨i, h⟩) else some (.nop, .acq 0)
  | .test i => some (.nop, if m.state i = .runnable then .setRunning i else .rel i)
  | .setRunning i => some (.state i .running, .setProc i)
  | .setProc i => some (.proc (some i), .run i)
  | .run _ => none
  | .back i => some (.proc none, .rel i)
  | .rel i => some (.release (.proc i), .acq (i + 1))
  | .wAcq n i r => if h : i < N then some (.acquire (.proc ⟨i, h⟩), .wState n ⟨i, h⟩ r) else some (.nop, .acq r)
  | .wState n i r => some (.nop, if m.state i = .sleeping then .wChan n i r else .wRel n i r)
  | .wChan n i r => some (.nop, if m.chan i = some (.other n) then .wSet n i r else .wRel n i r)
  | .wSet n i r => some (.state i .runnable, .wRel n i r)
  | .wRel n i r => some (.release (.proc i), .wAcq n (i + 1) r)

def schedStep (s : St N C) (c : Fin C) : Option (St N C) :=
  (schedProg s.mem (s.spc c)).bind fun (op, x) => (op.run c s.mem).map fun m => { s.setSpc c x with mem := m }

/-- One operation of `p`, which CPU `c` runs, in its own code. -/
def codeStep (ini : Fin N) (s : St N C) (c : Fin C) (p : Fin N) (ok : Bool) : Option (St N C) :=
  match s.pc p with
  -- `sched`: back to the scheduler, which runs on in `swtch`
  | .sSched w => some ((s.setSpc c (.back p)).setPc p (.sTidy w))
  | .eSched => some ((s.setSpc c (.back p)).setPc p .dead)
  | a =>
    (prog ini p s.mem ok a).bind fun (op, b) =>
      (op.run c s.mem).map fun m => { (s.start op).setPc p b with mem := m, hist := note p s.mem s.hist a }

/-- The code of `yield`, called from the timer interrupt. -/
def yieldProg (p : Fin N) : Irq → Option (Op N × Irq)
  | .none | .sched => none
  | .acq => some (.acquire (.proc p), .store)
  | .store => some (.state p .runnable, .sched)
  | .rel => some (.release (.proc p), .none)

def yieldStep (s : St N C) (c : Fin C) (p : Fin N) : Option (St N C) :=
  match s.irq p with
  | .sched => some ((s.setSpc c (.back p)).setIrq p .rel)
  | x => (yieldProg p x).bind fun (op, y) => (op.run c s.mem).map fun m => { s.setIrq p y with mem := m }

/-- The slot whose lock a process holds in its own code, if any: it holds no two. -/
def Pc.slot (p : Fin N) : Pc N → Option (Fin N)
  | .forkret | .wKLoad _ | .wKRel _ _ | .sRel _ | .sChan _ | .sState _ | .sSched _ | .sTidy _ | .sPRel _ | .eXstate _
  | .eZombie _ | .eWaitRel | .eSched => some p
  | .fTest i | .fNext i | .fPidAcq i | .fPidLoad i | .fPidInc i _ | .fPidRel i _ | .fSetPid i _ | .fSetUsed i | .fBuild i
  | .fCopy i | .fGetPid i | .fRel i _ | .free _ i _ | .freeRel i _ | .wTest _ i | .wNext _ i | .wPid _ i | .wCopy _ i _ | .wBad i
  | .kState _ i _ | .kChan _ i _ | .kSet _ i _ | .kRel _ i _ | .xPid _ _ i | .xSet _ i | .xState _ i | .xRun _ i
  | .xRel _ i | .xNext _ _ i => some i
  | _ => none

/-- Whether the caller holds `wait_lock`: `wait`, and `exit` with `reparent`. -/
def Freer.locked : Freer → Bool
  | .wait _ _ _ => true
  | .fork => false

@[inherit_doc Freer.locked]
def Sleeper.locked : Sleeper → Bool
  | .wait _ => true
  | .other _ => false

@[inherit_doc Freer.locked]
def Waker.locked : Waker → Bool
  | .reparent _ _ | .exit _ => true
  | .other => false

def Pc.waitLock : Pc N → Bool
  | .fParent _ _ | .fWaitRel _ _ | .waitRet _ _ _ | .wScan _ _ _ | .wLock _ _ | .wTest _ _ | .wNext _ _ | .wPid _ _
  | .wCopy _ _ _ | .wBad _ | .wFail | .wKAcq _ | .wKLoad _ | .wKRel _ _ | .eScan _ _ | .eSetPar _ _ | .eLoadPar _
  | .eLock _ | .eXstate _ | .eZombie _ | .eWaitRel => true
  | .free _ _ r | .freeRel _ r => r.locked
  | .sAcq w | .sRel w => w.locked
  | .kAcq _ _ w | .kState _ _ w | .kChan _ _ w | .kSet _ _ w | .kRel _ _ w => w.locked
  | _ => false

def Pc.pidLock : Pc N → Bool
  | .fPidLoad _ | .fPidInc _ _ | .fPidRel _ _ => true
  | _ => false

/-- Interrupts are on where no lock is held. -/
def Pc.Open (p : Fin N) (a : Pc N) : Prop := a.slot p = none ∧ a.waitLock = false ∧ a.pidLock = false

instance (p : Fin N) (a : Pc N) : Decidable (a.Open p) := inferInstanceAs (Decidable (_ ∧ _ ∧ _))

def next (ini : Fin N) (s : St N C) : Act C → Option (St N C)
  | .sched c => schedStep s c
  | .step c ok =>
    match s.spc c with
    | .run p => if s.irq p = .none then codeStep ini s c p ok else yieldStep s c p
    | _ => none
  | .call c k =>
    match s.spc c with
    | .run p =>
      match s.irq p, s.pc p with
      | .none, .user _ => (k.entry ini p s.mem).map (s.setPc p)
      | _, _ => none
    | _ => none
  | .preempt c =>
    match s.spc c with
    | .run p => if s.irq p = .none ∧ (s.pc p).Open p then some (s.setIrq p .acq) else none
    | _ => none
  | .intr c n =>
    match s.spc c with
    | .acq r => some (s.setSpc c (.wAcq n 0 r))
    | _ => none

/-- After `userinit`: `init` is RUNNABLE, with pid 1, and every CPU enters its scheduler. -/
def init (ini : Fin N) (C : Nat) : St N C where
  mem :=
    { state := fun i => if i = ini then .runnable else .unused
      pid := fun i => if i = ini then ⟨1, 1⟩ else .zero
      killed := fun _ => false
      xstate := fun _ => 0
      parent := fun _ => none
      chan := fun _ => none
      nextpid := ⟨2, 2⟩
      lock := fun _ => none
      proc := fun _ => none }
  pc := fun i => if i = ini then .forkret else .dead
  irq := fun _ => .none
  spc := fun _ => .acq 0
  hist := ⟨[], [], [], []⟩

def sys (ini : Fin N) (C : Nat) : Lib.Sys (St N C) (Act C) := .ofFn (· = init ini C) (next ini)

end Xv6.Proc
