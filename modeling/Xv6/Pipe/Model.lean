/-
  Xv6.Pipe.Model — a pipe and the processes that read, write, close and wait on it (kernel/pipe.c,
  with sleep, wakeup, kill and killed of kernel/proc.c).

  The process table has `N` slots. Each look at the pipe, each byte, each entry of the table that
  `wakeup` looks at and each half of `sleep` is a step. A section under one `p->lock` is one step,
  save that `sleep` takes `p->lock` before it gives up `pi->lock` and keeps it until the process
  is SLEEPING: until then `wakeup` and `kill` wait at that entry.

  What `copyin` and `copyout` say is the label's choice. A kill may come at any time. `fresh` in a
  program counter, which no step reads, says that no byte has been stored since `pi->lock` was
  last taken.
-/

import Xv6.Lib.System
import Mathlib.Logic.Function.Basic

namespace Xv6

open Function (update)

def PIPESIZE : Nat := 512

structure Pipe where
  data : Nat → UInt8
  nread : BitVec 32
  nwrite : BitVec 32
  readopen : Bool
  writeopen : Bool

namespace Pipe

def alloc (data : Nat → UInt8) : Pipe := ⟨data, 0, 0, true, true⟩

def full (pi : Pipe) : Bool := pi.nwrite = pi.nread + BitVec.ofNat 32 PIPESIZE

def empty (pi : Pipe) : Bool := pi.nread = pi.nwrite

def put (pi : Pipe) (ch : UInt8) : Pipe :=
  { pi with data := update pi.data (pi.nwrite.toNat % PIPESIZE) ch, nwrite := pi.nwrite + 1 }

def take (pi : Pipe) : UInt8 × Pipe :=
  (pi.data (pi.nread.toNat % PIPESIZE), { pi with nread := pi.nread + 1 })

def close (pi : Pipe) (writable : Bool) : Pipe :=
  if writable then { pi with writeopen := false } else { pi with readopen := false }

/-- The addresses slept on. -/
inductive Chan where
  | nread
  | nwrite
  deriving DecidableEq, Repr

inductive Call where
  | write (n : Int)
  | read (n : Int)
  | close (writable : Bool)
  deriving DecidableEq, Repr

/-- The loop a sleeper goes back to: `pipewrite` with `i` bytes stored, or `piperead`. -/
inductive Loop where
  | write (n : Int) (i : Nat)
  | read (n : Int)
  deriving DecidableEq, Repr

/-- The channel each loop sleeps on. -/
def Loop.chan : Loop → Chan
  | .write _ _ => .nwrite
  | .read _ => .nread

inductive Then where
  | sleep (l : Loop)
  | ret (i : Nat)
  | close
  deriving DecidableEq, Repr

inductive Pc where
  | out
  /-- About to take `pi->lock`. -/
  | enter (c : Call)
  /-- `pipewrite`: at `while(i < n)`, then at `pi->readopen == 0`. -/
  | wTest (n : Int) (i : Nat) (fresh : Bool)
  /-- `pipewrite`: at `killed(pr)`. -/
  | wKilled (n : Int) (i : Nat) (fresh : Bool)
  /-- `pipewrite`: at the test for a full pipe, then `copyin`. -/
  | wCopy (n : Int) (i : Nat) (fresh : Bool)
  /-- `piperead`: at the test for an empty pipe. -/
  | rTest (n : Int)
  /-- `piperead`: at `killed(pr)`. -/
  | rKilled (n : Int)
  /-- `piperead`: in the copying loop. -/
  | rCopy (n : Int) (i : Nat)
  | cSet (writable : Bool)
  /-- In `wakeup(c)`, about to look at `proc[k]`. -/
  | wake (c : Chan) (k : Nat) (t : Then)
  /-- About to release `pi->lock` and return. -/
  | leave (r : Int)
  /-- `pipeclose`: about to look whether both ends are closed. -/
  | cLeave
  | free
  /-- In `sleep`, about to take `p->lock`. -/
  | sleep (l : Loop)
  /-- In `sleep`, holding `p->lock`, about to release `pi->lock`. -/
  | locked (l : Loop)
  /-- In `sleep`, holding `p->lock` alone, about to become SLEEPING. -/
  | parting (l : Loop)
  /-- In `sched`, called by `sleep`. -/
  | asleep (l : Loop)
  /-- In `sleep`, about to take `pi->lock` again. -/
  | retake (l : Loop)
  deriving DecidableEq, Repr

structure St (N : Nat) where
  pi : Pipe
  /-- Who holds `pi->lock`. -/
  lock : Option (Fin N)
  freed : Bool
  pc : Fin N → Pc
  /-- `p->state == SLEEPING`. -/
  sleeping : Fin N → Bool
  chan : Fin N → Option Chan
  killed : Fin N → Bool
  /-- What the last call returned. -/
  ret : Fin N → Int

def init (N : Nat) (data : Nat → UInt8) : St N where
  pi := .alloc data
  lock := none
  freed := false
  pc := fun _ => .out
  sleeping := fun _ => false
  chan := fun _ => none
  killed := fun _ => false
  ret := fun _ => 0

inductive Act (N : Nat) where
  | call (p : Fin N) (c : Call)
  /-- The next step of `p`. Where it copies to or from user memory, `ch` is the byte that
      `copyin` finds; with `none`, `copyin` or `copyout` fails. -/
  | step (p : Fin N) (ch : Option UInt8)
  | kill (p : Fin N)

variable {N : Nat}

/-- Whether the process holds its own `p->lock` between steps. -/
def Pc.plock : Pc → Bool
  | .locked _ | .parting _ => true
  | _ => false

/-- Where a call goes on once it has `pi->lock`. -/
def Call.body : Call → Pc
  | .write n => .wTest n 0 true
  | .read n => .rTest n
  | .close w => .cSet w

def Loop.body : Loop → Pc
  | .write n i => .wTest n i true
  | .read n => .rTest n

def Then.pc : Then → Pc
  | .sleep l => .sleep l
  | .ret i => .leave i
  | .close => .cLeave

namespace St

def goto (s : St N) (p : Fin N) (c : Pc) : St N := { s with pc := update s.pc p c }

def acquire (s : St N) (p : Fin N) (c : Pc) : Option (St N) :=
  if s.lock = none then some { s.goto p c with lock := some p } else none

/-- One turn of `wakeup`'s loop: `q` is the entry looked at. -/
def wakeOne (s : St N) (p : Fin N) (c : Chan) (q : Fin N) : Option (St N) :=
  if q = p then some s
  else if (s.pc q).plock then none
  else if s.sleeping q ∧ s.chan q = some c then some { s with sleeping := update s.sleeping q false }
  else some s

end St

/-- The next step of `p`, if it has one. -/
def step (s : St N) (p : Fin N) (ch : Option UInt8) : Option (St N) :=
  match s.pc p with
  | .out => none
  | .enter c => s.acquire p c.body
  | .wTest n i fresh =>
    some (s.goto p
      (if i < n then
        if s.pi.readopen then .wKilled n i fresh else .leave (-1)
      else .wake .nread 0 (.ret i)))
  | .wKilled n i fresh => some (s.goto p (if s.killed p then .leave (-1) else .wCopy n i fresh))
  | .wCopy n i _ =>
    if s.pi.full then some (s.goto p (.wake .nread 0 (.sleep (.write n i))))
    else
      match ch with
      | none => some (s.goto p (.wake .nread 0 (.ret i)))
      | some ch => some { s.goto p (.wTest n (i + 1) false) with pi := s.pi.put ch }
  | .rTest n => some (s.goto p (if s.pi.empty ∧ s.pi.writeopen then .rKilled n else .rCopy n 0))
  | .rKilled n => some (s.goto p (if s.killed p then .leave (-1) else .sleep (.read n)))
  | .rCopy n i =>
    if i < n ∧ ¬ s.pi.empty then
      let pi := s.pi.take.2
      match ch with
      | none => some { s.goto p (.wake .nwrite 0 (.ret i)) with pi }
      | some _ => some { s.goto p (.rCopy n (i + 1)) with pi }
    else some (s.goto p (.wake .nwrite 0 (.ret i)))
  | .cSet w => some { s.goto p (.wake (if w then .nread else .nwrite) 0 .close) with pi := s.pi.close w }
  | .wake c k t =>
    if hk : k < N then (s.wakeOne p c ⟨k, hk⟩).map (·.goto p (.wake c (k + 1) t))
    else some (s.goto p t.pc)
  | .leave r => some { s.goto p .out with lock := none, ret := update s.ret p r }
  | .cLeave =>
    some { s.goto p (if s.pi.readopen = false ∧ s.pi.writeopen = false then .free else .out) with lock := none }
  | .free => some { s.goto p .out with freed := true }
  | .sleep l => some (s.goto p (.locked l))
  | .locked l => some { s.goto p (.parting l) with lock := none }
  | .parting l =>
    some { s.goto p (.asleep l) with
      chan := update s.chan p (some l.chan)
      sleeping := update s.sleeping p true }
  | .asleep l =>
    if s.sleeping p then none else some { s.goto p (.retake l) with chan := update s.chan p none }
  | .retake l => s.acquire p l.body

def kill (s : St N) (p : Fin N) : Option (St N) :=
  if (s.pc p).plock then none
  else some { s with
    killed := update s.killed p true
    sleeping := update s.sleeping p false }

/-- What may happen next. Nobody touches the pipe once `kfree` has it. -/
def next (s : St N) (a : Act N) : Option (St N) :=
  if s.freed then none
  else
    match a with
    | .call p c => if s.pc p = .out then some (s.goto p (.enter c)) else none
    | .step p ch => step s p ch
    | .kill p => kill s p

/-- A pipe fresh from `pipealloc`, whose page still holds the bytes `data`. -/
def sys (N : Nat) (data : Nat → UInt8) : Lib.Sys (St N) (Act N) := .ofFn (· = init N data) next

end Pipe

end Xv6
