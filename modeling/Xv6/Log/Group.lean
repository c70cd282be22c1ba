/-
  Xv6.Log.Group — group commit (kernel/log.c: begin_op, end_op, log_write, commit): many
  system calls share one transaction, which commits when the last of them ends.

  Every section under `log.lock` is one step. `commit` runs without the lock: its steps
  interleave with every other process's. Of the block cache only what `bpin` and `bunpin` do to
  it is here (`pin b`: how often `b` is pinned); `Xv6.Cache` has the rest. A sleeper goes on when
  `wakeup(&log)` or a `kill` makes it runnable, at the top of `begin_op`'s loop.

  History, which no step reads: each operation has a number (`opId`), `logs` lists every
  `log_write` as (operation, block), `cur` those since the last commit, `ended` the operations
  that have reached `end_op`, and `txns` each committed transaction with its header.
-/

import Xv6.Param
import Xv6.Lib.System
import Mathlib.Data.Fintype.Card

namespace Xv6.Log.Group

open Function (update)

inductive Pc where
  /-- Outside any operation. -/
  | out
  /-- In `begin_op`, about to take `log.lock`. -/
  | begin
  /-- Sleeping on `&log` in `begin_op`. -/
  | asleep
  /-- Between `begin_op` and `end_op`. -/
  | op
  /-- In `commit`, about to look at `log.lh.n`. -/
  | commit
  /-- After `write_log`, about to write the header. -/
  | writeHead
  /-- In `install_trans`, about to start iteration `tail`. -/
  | install (tail : Nat)
  /-- `log.lh.n` is 0 again, the header on disk not yet. -/
  | eraseHead
  /-- `commit` has returned to `end_op`. -/
  | finish
  deriving DecidableEq, Repr

inductive Panic where
  /-- `end_op`: "log.committing". -/
  | committing
  /-- `log_write`: "log_write outside of trans". -/
  | outside
  /-- `log_write`: "too big a transaction". -/
  | tooBig
  deriving DecidableEq, Repr

structure St (P : Type) where
  outstanding : Int
  committing : Bool
  /-- `log.lh.block[0 .. log.lh.n)`. -/
  lh : List Nat
  pin : Nat → Nat
  pc : P → Pc
  panicked : Option Panic
  opId : P → Nat
  nextOp : Nat
  logs : List (Nat × Nat)
  cur : List (Nat × Nat)
  ended : List Nat
  txns : List (List (Nat × Nat) × List Nat)

variable {P : Type} [DecidableEq P]

def init (P : Type) : St P where
  outstanding := 0
  committing := false
  lh := []
  pin := fun _ => 0
  pc := fun _ => .out
  panicked := none
  opId := fun _ => 0
  nextOp := 0
  logs := []
  cur := []
  ended := []
  txns := []

inductive Act (P : Type) where
  | call (p : P)
  /-- One turn of `begin_op`'s loop. -/
  | begin (p : P)
  | kill (p : P)
  | logWrite (p : P) (b : Nat)
  | endOp (p : P)
  /-- The next step of a process in `commit`, or of `end_op` after it. -/
  | commit (p : P)

def setPc (s : St P) (p : P) (c : Pc) : St P := { s with pc := update s.pc p c }

def wakeup (pc : P → Pc) : P → Pc := fun q => if pc q = .asleep then .begin else pc q

/-- `begin_op` waits: a commit is running, or the log might overflow. -/
def Full (s : St P) : Prop :=
  s.committing = true ∨ (s.lh.length : Int) + (s.outstanding + 1) * MAXOPBLOCKS > LOGSIZE

instance (s : St P) : Decidable (Full s) := inferInstanceAs (Decidable (_ ∨ _))

def beginOp (s : St P) (p : P) : St P :=
  if Full s then setPc s p .asleep
  else { setPc s p .op with
    outstanding := s.outstanding + 1
    opId := update s.opId p s.nextOp
    nextOp := s.nextOp + 1 }

/-- `log_write` of block `b`; `size` is `log.size`. -/
def logWrite (size : Nat) (s : St P) (p : P) (b : Nat) : St P :=
  if (s.lh.length : Int) ≥ LOGSIZE ∨ (s.lh.length : Int) ≥ size - 1 then { s with panicked := some .tooBig }
  else if s.outstanding < 1 then { s with panicked := some .outside }
  else
    let s := { s with logs := s.logs ++ [(s.opId p, b)], cur := s.cur ++ [(s.opId p, b)] }
    -- absorption: a block already in the header keeps its place and its pin
    if b ∈ s.lh then s
    else { s with lh := s.lh ++ [b], pin := update s.pin b (s.pin b + 1) }

def endOp (s : St P) (p : P) : St P :=
  let s := { s with outstanding := s.outstanding - 1 }
  if s.committing then { s with panicked := some .committing }
  else
    let s := { s with ended := s.opId p :: s.ended }
    if s.outstanding = 0 then { setPc s p .commit with committing := true }
    else { s with pc := wakeup (update s.pc p .out) }

def commitStep (s : St P) (p : P) : Option (St P) :=
  match s.pc p with
  | .commit => some (setPc s p (if s.lh = [] then .finish else .writeHead))
  | .writeHead => some { setPc s p (.install 0) with txns := s.txns ++ [(s.cur, s.lh)], cur := [] }
  | .install tail =>
    match s.lh[tail]? with
    | some b => some { setPc s p (.install (tail + 1)) with pin := update s.pin b (s.pin b - 1) }
    | none => some { setPc s p .eraseHead with lh := [] }
  | .eraseHead => some (setPc s p .finish)
  | .finish => some { s with committing := false, pc := wakeup (update s.pc p .out) }
  | _ => none

/-- What a process may do next. Nothing runs after a panic. -/
def next (size : Nat) (s : St P) (a : Act P) : Option (St P) :=
  if s.panicked = none then
    match a with
    | .call p => if s.pc p = .out then some (setPc s p .begin) else none
    | .begin p => if s.pc p = .begin then some (beginOp s p) else none
    | .kill p => if s.pc p = .asleep then some (setPc s p .begin) else none
    | .logWrite p b => if s.pc p = .op then some (logWrite size s p b) else none
    | .endOp p => if s.pc p = .op then some (endOp s p) else none
    | .commit p => commitStep s p
  else none

/-- The log of `size` blocks, shared by the processes `P`. -/
def sys (P : Type) [DecidableEq P] (size : Nat) : Lib.Sys (St P) (Act P) := .ofFn (· = init P) (next size)

end Xv6.Log.Group
