/-
  Xv6.Cache.Model — the buffer cache under the log (kernel/bio.c, with write_log, write_head,
  install_trans, commit and log_write of kernel/log.c).

  Processes read, change and log blocks outside the log area, with the discipline log.c asks for:
  data is changed only inside an operation, by the holder of the buffer, and logged before
  `brelse` and `end_op`. `bget` may recycle any buffer with `refcnt` 0; where there is none and it
  panics, the process makes no step.

  A section under `bcache.lock` or `log.lock` is one step. `bread` is three (`bget` takes a
  reference, `acquiresleep`, the read from disk), `brelse` two (`releasesleep`, the decrement). A
  `memmove` into a buffer and the `bwrite` after it are one, as the buffer is locked. The log's
  own state is that of `Xv6.Log.Group`, whose steps these refine.

  History, which no step reads: `dirty` (changed since it was last logged), `last` (what was last
  logged for each block, at first the disk's contents), `snap` (the buffers when the running
  commit began).
-/

import Xv6.Log.Group
import Xv6.Log.Recovery

namespace Xv6.Cache

open Function (update)
open Log

/-- `struct buf`; `lock` is the holder of its sleeplock. -/
structure Buf (P : Type) where
  dev : Nat
  blockno : Nat
  valid : Bool
  refcnt : Nat
  data : Block
  lock : Option P
  dirty : Bool

/-- Where a process is in `bread` or `brelse`. -/
inductive Io (B : Type) where
  | none
  /-- `bget` has a reference to the buffer and waits for its lock. -/
  | lock (i : B)
  /-- `bread` has the lock and is about to look at `b->valid`. -/
  | read (i : B)
  /-- `brelse` has released the lock and still has its reference. -/
  | drop (i : B)
  deriving DecidableEq, Repr

/-- Where a process is in `commit`; what it is about to do, once its `bread` or `brelse` is over. -/
inductive CPc (B : Type) where
  | idle
  /-- `write_log`, at the head of the loop: `bread` the log block. -/
  | logTo (t : Nat)
  /-- `bread` the cached block. -/
  | logFrom (t : Nat) (l : B)
  /-- `memmove` and `bwrite` the log block. -/
  | logCopy (t : Nat) (l c : B)
  | logRelFrom (t : Nat) (l c : B)
  | logRelTo (t : Nat) (l : B)
  /-- `write_head`, the first time or the second: `bread` the header block. -/
  | head (erase : Bool)
  | headWrite (erase : Bool) (h : B)
  | headRel (erase : Bool) (h : B)
  /-- `install_trans`, at the head of the loop: `bread` the log block. -/
  | insFrom (t : Nat)
  /-- `bread` the destination. -/
  | insTo (t : Nat) (l : B)
  /-- `memmove` and `bwrite` the destination. -/
  | insCopy (t : Nat) (l d : B)
  | insUnpin (t : Nat) (l d : B)
  | insRelFrom (t : Nat) (l d : B)
  | insRelTo (t : Nat) (d : B)
  /-- Back in `end_op`. -/
  | done
  deriving DecidableEq, Repr

structure St (P B : Type) where
  g : Group.St P
  disk : Disk
  buf : B → Buf P
  io : P → Io B
  /-- The block number that the last `bread` was called with. -/
  arg : P → Nat
  cpc : P → CPc B
  last : Disk
  snap : B → Buf P

inductive Act (P B : Type) where
  | call (p : P)
  | begin (p : P)
  | kill (p : P)
  | endOp (p : P)
  /-- `bread(b)` begins; `bget` settles on buffer `i`. -/
  | bread (p : P) (b : Nat) (i : B)
  | modify (p : P) (i : B) (data : Block)
  | logWrite (p : P) (i : B)
  | brelse (p : P) (i : B)
  /-- The next step of the `bread` or `brelse` that `p` is in. -/
  | io (p : P)
  /-- The next step of `commit`; where it calls `bread`, `bget` settles on `i`. -/
  | commit (p : P) (i : B)

variable {P B : Type} [DecidableEq P] [DecidableEq B]

namespace St

/-- Buffer `i` stands for block `b`. -/
def Caches (s : St P B) (i : B) (b : Nat) : Prop := (s.buf i).dev = ROOTDEV ∧ (s.buf i).blockno = b

instance (s : St P B) (i : B) (b : Nat) : Decidable (s.Caches i b) := inferInstanceAs (Decidable (_ ∧ _))

def setBuf (s : St P B) (i : B) (x : Buf P) : St P B := { s with buf := update s.buf i x }

def setIo (s : St P B) (p : P) (x : Io B) : St P B := { s with io := update s.io p x }

def setArg (s : St P B) (p : P) (b : Nat) : St P B := { s with arg := update s.arg p b }

def setCpc (s : St P B) (p : P) (c : CPc B) : St P B := { s with cpc := update s.cpc p c }

/-- `bget(ROOTDEV, b)`, up to `acquiresleep`: a buffer that stands for `b` if there is one,
    else an unused one, recycled. -/
def bget [Fintype B] (s : St P B) (p : P) (b : Nat) (i : B) : Option (St P B) :=
  if ∃ j, s.Caches j b then
    if s.Caches i b then
      some (((s.setBuf i { s.buf i with refcnt := (s.buf i).refcnt + 1 }).setIo p (.lock i)).setArg p b)
    else none
  else if (s.buf i).refcnt = 0 then
    some (((s.setBuf i { s.buf i with
      dev := ROOTDEV, blockno := b, valid := false, refcnt := 1, dirty := false }).setIo p (.lock i)).setArg p b)
  else none

def ioStep (s : St P B) (p : P) : Option (St P B) :=
  match s.io p with
  | .none => none
  | .lock i =>
    if (s.buf i).lock = none then some ((s.setBuf i { s.buf i with lock := some p }).setIo p (.read i)) else none
  | .read i =>
    let x := s.buf i
    some ((s.setBuf i (if x.valid then x else { x with data := s.disk x.blockno, valid := true })).setIo p .none)
  | .drop i => some ((s.setBuf i { s.buf i with refcnt := (s.buf i).refcnt - 1 }).setIo p .none)

def release (s : St P B) (p : P) (i : B) : St P B := (s.setBuf i { s.buf i with lock := none }).setIo p (.drop i)

def bwrite (s : St P B) (i : B) (data : Block) : St P B :=
  { s.setBuf i { s.buf i with data } with disk := update s.disk (s.buf i).blockno data }

def unpin (s : St P B) (i : B) : St P B := s.setBuf i { s.buf i with refcnt := (s.buf i).refcnt - 1 }

def log (s : St P B) (size : Nat) (a : Group.Act P) : Option (St P B) := (Group.next size s.g a).map fun g => { s with g }

end St

variable (L : Geom)

def commitStep [Fintype B] (s : St P B) (p : P) (i : B) : Option (St P B) :=
  match s.cpc p with
  | .idle => none
  | .logTo t =>
    if t < s.g.lh.length then (s.bget p (L.start + t + 1) i).map (·.setCpc p (.logFrom t i))
    else (s.log L.nlog (.commit p)).map (·.setCpc p (if s.g.lh = [] then .done else .head false))
  | .logFrom t l => (s.bget p (s.g.lh.getD t 0) i).map (·.setCpc p (.logCopy t l i))
  | .logCopy t l c => some ((s.bwrite l (s.buf c).data).setCpc p (.logRelFrom t l c))
  | .logRelFrom t l c => some ((s.release p c).setCpc p (.logRelTo t l))
  | .logRelTo t l => some ((s.release p l).setCpc p (.logTo (t + 1)))
  | .head erase => (s.bget p L.start i).map (·.setCpc p (.headWrite erase i))
  | .headWrite erase h =>
    ((s.bwrite h (putHead s.g.lh (s.buf h).data)).log L.nlog (.commit p)).map (·.setCpc p (.headRel erase h))
  | .headRel erase h => some ((s.release p h).setCpc p (if erase then .done else .insFrom 0))
  | .insFrom t =>
    if t < s.g.lh.length then (s.bget p (L.start + t + 1) i).map (·.setCpc p (.insTo t i))
    -- `log.lh.n = 0`
    else (s.log L.nlog (.commit p)).map (·.setCpc p (.head true))
  | .insTo t l => (s.bget p (s.g.lh.getD t 0) i).map (·.setCpc p (.insCopy t l i))
  | .insCopy t l d => some ((s.bwrite d (s.buf l).data).setCpc p (.insUnpin t l d))
  | .insUnpin t l d => ((s.unpin d).log L.nlog (.commit p)).map (·.setCpc p (.insRelFrom t l d))
  | .insRelFrom t l d => some ((s.release p l).setCpc p (.insRelTo t d))
  | .insRelTo t d => some ((s.release p d).setCpc p (.insFrom (t + 1)))
  | .done => (s.log L.nlog (.commit p)).map (·.setCpc p .idle)

def logWrite (s : St P B) (p : P) (i : B) : Option (St P B) :=
  let x := s.buf i
  (Group.next L.nlog s.g (.logWrite p x.blockno)).map fun g =>
    if g.panicked = none then
      { s.setBuf i { x with
          -- `bpin`, unless the block is in the header already
          refcnt := if x.blockno ∈ s.g.lh then x.refcnt else x.refcnt + 1
          dirty := false } with
        g
        last := update s.last x.blockno x.data }
    else { s with g }

/-- `end_op`; the last operation to end starts the commit. -/
def endOp (s : St P B) (p : P) : Option (St P B) :=
  (Group.next L.nlog s.g (.endOp p)).map fun g =>
    if g.pc p = .commit then { s.setCpc p (.logTo 0) with g, snap := s.buf } else { s with g }

/-- What may happen next. A process in `bread` or `brelse` does nothing else, one in
    `commit` nothing but that. -/
def next [Fintype B] (s : St P B) (a : Act P B) : Option (St P B) :=
  if s.g.panicked ≠ none then none
  else
    match a with
    | .call p => if s.io p = .none then s.log L.nlog (.call p) else none
    | .begin p => s.log L.nlog (.begin p)
    | .kill p => s.log L.nlog (.kill p)
    | .endOp p => if s.io p = .none ∧ ∀ i, (s.buf i).lock = some p → (s.buf i).dirty = false then endOp L s p else none
    | .bread p b i =>
      if s.io p = .none ∧ (s.g.pc p = .out ∨ s.g.pc p = .op) ∧ ¬ L.InLog b then s.bget p b i else none
    | .modify p i data =>
      if s.io p = .none ∧ s.g.pc p = .op ∧ (s.buf i).lock = some p ∧ ¬ L.InLog (s.buf i).blockno then
        some (s.setBuf i { s.buf i with data, dirty := true })
      else none
    | .logWrite p i =>
      if s.io p = .none ∧ (s.buf i).lock = some p ∧ ¬ L.InLog (s.buf i).blockno then logWrite L s p i else none
    | .brelse p i =>
      if s.io p = .none ∧ s.cpc p = .idle ∧ (s.buf i).lock = some p ∧ (s.buf i).dirty = false then some (s.release p i)
      else none
    | .io p => s.ioStep p
    | .commit p i => if s.io p = .none then commitStep L s p i else none

/-- A cache at rest: nobody uses it, no two buffers stand for one block, and what is valid
    is what the disk has. -/
structure Init (s : St P B) : Prop where
  g : s.g = Group.init P
  io : ∀ p, s.io p = .none
  cpc : ∀ p, s.cpc p = .idle
  buf : ∀ i, (s.buf i).refcnt = 0 ∧ (s.buf i).lock = none ∧ (s.buf i).dirty = false
  uniq : ∀ i j b, s.Caches i b → s.Caches j b → i = j
  valid : ∀ i b, s.Caches i b → (s.buf i).valid = true → (s.buf i).data = s.disk b
  last : s.last = s.disk

/-- The cache, the log `L` and the disk, from a cache at rest and an empty log. -/
def sys (P B : Type) [DecidableEq P] [DecidableEq B] [Fintype B] (L : Geom) : Lib.Sys (St P B) (Act P B) :=
  .ofFn Init (next L)

end Xv6.Cache
