/-
  Xv6.Bio.Model — the buffer cache's list, keys and reference counts (kernel/bio.c).

  The buffers are linked in a ring through `bcache.head`; a pointer is `none` for the head.
  A process may have any number of buffers locked, and is in one call at a time. A section
  under `bcache.lock` is one step; so are `acquiresleep`, `releasesleep` and the read from
  disk. What the buffers hold is left to `Xv6.Cache.Model`.

  The history keeps, for each buffer, when its `refcnt` last dropped to 0 (at first, never: 0)
  and the pins: the calls of `bpin` that no `bunpin` has undone.
-/

import Xv6.Lib.Count
import Xv6.Lib.Dlist
import Xv6.Lib.System
import Xv6.Param

namespace Xv6.Bio

abbrev Ix := Fin NBUF

/-- `struct buf`, without its data and links; `lock` is the holder of its sleeplock. -/
structure Buf (N : Nat) where
  valid : Bool
  dev : Nat
  blockno : Nat
  lock : Option (Fin N)
  refcnt : BitVec 32

inductive Pc where
  | out
  /-- `bget` has a reference to the buffer and waits for its lock. -/
  | wait (b : Ix)
  /-- `bread` has the lock and is about to read the block. -/
  | fill (b : Ix)
  /-- `brelse` has released the lock and still has its reference. -/
  | drop (b : Ix)
  deriving DecidableEq, Repr

structure St (N : Nat) where
  buf : Ix → Buf N
  links : Lib.Links Ix
  pc : Fin N → Pc
  panicked : Bool

inductive Act (N : Nat) where
  | bread (p : Fin N) (dev blockno : Nat)
  | acquiresleep (p : Fin N)
  | virtio_disk_rw (p : Fin N)
  | brelse (p : Fin N) (b : Ix)
  | drop (p : Fin N)
  | bpin (p : Fin N) (b : Ix)
  | bunpin (p : Fin N) (b : Ix)

variable {N : Nat}

def binit (N : Nat) : St N where
  buf := fun _ => ⟨false, 0, 0, none, 0⟩
  links := (List.finRange NBUF).foldl (fun k b => k.insert b) ⟨fun _ => none, fun _ => none⟩
  pc := fun _ => .out
  panicked := false

namespace St

def set (s : St N) (b : Ix) (v : Buf N) : St N := { s with buf := Function.update s.buf b v }

def goto (s : St N) (p : Fin N) (a : Pc) : St N := { s with pc := Function.update s.pc p a }

/-- The first loop of `bget`. -/
def lookup (s : St N) (dev blockno : Nat) : Option Ix :=
  Lib.scan s.links.next (fun b => (s.buf b).dev = dev ∧ (s.buf b).blockno = blockno) (NBUF + 1) none

/-- Its second loop. -/
def victim (s : St N) : Option Ix :=
  Lib.scan s.links.prev (fun b => (s.buf b).refcnt = 0) (NBUF + 1) none

def bget (s : St N) (p : Fin N) (dev blockno : Nat) : St N :=
  match s.lookup dev blockno with
  | some b => (s.set b { s.buf b with refcnt := (s.buf b).refcnt + 1 }).goto p (.wait b)
  | none =>
    match s.victim with
    | some b => (s.set b { s.buf b with dev, blockno, valid := false, refcnt := 1 }).goto p (.wait b)
    | none => { s with panicked := true }

/-- `brelse`, past the `releasesleep`. -/
def unref (s : St N) (b : Ix) : St N :=
  let s := s.set b { s.buf b with refcnt := (s.buf b).refcnt - 1 }
  if (s.buf b).refcnt = 0 then { s with links := (s.links.unlink b).insert b } else s

end St

/-- What may happen next. Nothing does after a panic. -/
def next (s : St N) (a : Act N) : Option (St N) :=
  if s.panicked then none
  else
    match a with
    | .bread p dev blockno => if s.pc p = .out then some (s.bget p dev blockno) else none
    | .acquiresleep p =>
      match s.pc p with
      | .wait b =>
        if (s.buf b).lock = none then
          some ((s.set b { s.buf b with lock := some p }).goto p (if (s.buf b).valid then .out else .fill b))
        else none
      | _ => none
    | .virtio_disk_rw p =>
      match s.pc p with
      | .fill b => some ((s.set b { s.buf b with valid := true }).goto p .out)
      | _ => none
    | .brelse p b =>
      if s.pc p = .out then
        if (s.buf b).lock = some p then some ((s.set b { s.buf b with lock := none }).goto p (.drop b))
        else some { s with panicked := true }
      else none
    | .drop p =>
      match s.pc p with
      | .drop b => some ((s.unref b).goto p .out)
      | _ => none
    | .bpin p b =>
      if s.pc p = .out then some (s.set b { s.buf b with refcnt := (s.buf b).refcnt + 1 }) else none
    | .bunpin p b =>
      if s.pc p = .out then some (s.set b { s.buf b with refcnt := (s.buf b).refcnt - 1 }) else none

def sys (N : Nat) : Lib.Sys (St N) (Act N) := .ofFn (· = binit N) next

/-! ## History -/

structure Hist where
  now : Nat
  zeroAt : Ix → Nat
  pins : Ix → Nat

def note (s : St N) (a : Act N) (s' : St N) (h : Hist) : Hist where
  now := h.now + 1
  zeroAt := fun b => if (s.buf b).refcnt ≠ 0 ∧ (s'.buf b).refcnt = 0 then h.now + 1 else h.zeroAt b
  pins :=
    match a with
    | .bpin _ b => Function.update h.pins b (h.pins b + 1)
    | .bunpin _ b => Function.update h.pins b (h.pins b - 1)
    | _ => h.pins

def traced (N : Nat) : Lib.Sys (St N × Hist) (Act N) := (sys N).traced ⟨0, fun _ => 0, fun _ => 0⟩ note

/-- `bunpin` undoes a `bpin`, and only the holder of the buffer calls it. Nobody pins a buffer
    so often that `refcnt` could wrap. -/
def Proper (x : St N × Hist) : Act N → Prop
  | .bpin _ b => x.2.pins b + 2 * N + 2 < 2 ^ 32
  | .bunpin p b => (x.1.buf b).lock = some p ∧ 0 < x.2.pins b
  | _ => True

/-! ## Who has a reference -/

/-- One, if somebody holds the buffer's lock. -/
def holders (s : St N) (b : Ix) : Nat := if (s.buf b).lock = none then 0 else 1

def waiters (s : St N) (b : Ix) : Nat := Lib.count (· = Pc.wait b) s.pc

def leavers (s : St N) (b : Ix) : Nat := Lib.count (· = Pc.drop b) s.pc

end Xv6.Bio
