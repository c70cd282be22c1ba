/-
  Xv6.Virtio.Model — the disk driver (kernel/virtio_disk.c: alloc_desc, free_desc, free_chain,
  alloc3_desc, virtio_disk_rw, virtio_disk_intr), the device, and the memory they share.

  `N` processes call `virtio_disk_rw`, each on a buffer that no other one is in a call with (the
  callers hold the buffers' sleep-locks). Under `vdisk_lock` the stores that the device may see at
  once and the loads of what it stores are steps of their own, the work between them is one step.
  `sleep` gives up the lock and may return at any time. The interrupt handler runs whenever it can
  get the lock.

  The device takes the entries of the avail ring in order and follows the descriptors of the chain
  to its end, where the address of the status byte is. It completes the chains in any order: it
  stores the status 0, then the head in the used ring, then the used index. Indices are 16 bits
  and wrap.

  History, which no step reads: the heads published, taken, completed and consumed, each in order,
  and which of the requests with its head a process's request is (`mine`, from 1).
-/

import Xv6.Lib.System
import Xv6.Lib.First
import Xv6.Lib.Ring
import Xv6.Param

namespace Xv6.Virtio

open Function (update)

def NUM : Nat := 8

def VRING_DESC_F_NEXT : Nat := 1
def VRING_DESC_F_WRITE : Nat := 2
def VIRTIO_BLK_T_IN : Nat := 0
def VIRTIO_BLK_T_OUT : Nat := 1

/-- The addresses given to the device. -/
inductive Addr where
  | null
  /-- `&disk.ops[i]`. -/
  | ops (i : Nat)
  /-- `b->data`. -/
  | data (b : Nat)
  /-- `&disk.info[i].status`. -/
  | status (i : Nat)
  deriving DecidableEq, Repr

structure Desc where
  addr : Addr
  len : Nat
  flags : Nat
  next : Nat
  deriving DecidableEq, Repr

structure Req where
  type : Nat
  reserved : Nat
  sector : Nat
  deriving DecidableEq, Repr

structure Info where
  b : Option Nat
  status : Nat
  deriving DecidableEq, Repr

/-- `struct disk`, with the rings that it points to, and `b->disk` of each buffer. -/
structure Disk where
  desc : Nat → Desc
  availIdx : BitVec 16
  availRing : Nat → Nat
  usedIdx : BitVec 16
  usedRing : Nat → Nat
  free : Nat → Bool
  used_idx : BitVec 16
  info : Nat → Info
  ops : Nat → Req
  bdisk : Nat → Bool

inductive Panic where
  /-- "free_desc 1". -/
  | freeDesc1
  /-- "free_desc 2". -/
  | freeDesc2
  /-- "virtio_disk_intr status". -/
  | intrStatus
  /-- The handler has found no buffer to store into. -/
  | noBuf
  deriving DecidableEq, Repr

/-! ## The driver's functions -/

def alloc_desc (d : Disk) : Option (Nat × Disk) :=
  (Lib.first d.free 0 NUM).map fun i => (i, { d with free := update d.free i false })

def free_desc (d : Disk) (i : Nat) : Except Panic Disk :=
  if NUM ≤ i then .error .freeDesc1
  else if d.free i then .error .freeDesc2
  else .ok { d with desc := update d.desc i ⟨.null, 0, 0, 0⟩, free := update d.free i true }

def alloc3_desc (d : Disk) : Except Panic (Option (Nat × Nat × Nat) × Disk) :=
  match alloc_desc d with
  | none => .ok (none, d)
  | some (i, d) =>
    match alloc_desc d with
    | none => (free_desc d i).map (none, ·)
    | some (j, d) =>
      match alloc_desc d with
      | none => (free_desc d i).bind fun d => (free_desc d j).map (none, ·)
      | some (k, d) => .ok (some (i, j, k), d)

/-- What `virtio_disk_rw` stores in the three descriptors, `ops` and `info`, and `b->disk = 1`. -/
def format (blockno : Nat → Nat) (d : Disk) (b : Nat) (write : Bool) (i j k : Nat) : Disk :=
  let req : Req := ⟨if write then VIRTIO_BLK_T_OUT else VIRTIO_BLK_T_IN, 0, blockno b * (BSIZE / 512) % 2 ^ 32⟩
  let di : Desc := ⟨.ops i, 16, VRING_DESC_F_NEXT, j⟩
  let dj : Desc := ⟨.data b, BSIZE, (if write then 0 else VRING_DESC_F_WRITE) ||| VRING_DESC_F_NEXT, k⟩
  let dk : Desc := ⟨.status i, 1, VRING_DESC_F_WRITE, 0⟩
  { d with
    ops := update d.ops i req
    desc := update (update (update d.desc i di) j dj) k dk
    info := update d.info i ⟨some b, 0xff⟩
    bdisk := update d.bdisk b true }

/-! ## Processes, handler, device -/

/-- Where a process is in `virtio_disk_rw(b, w)`; `i`, `j`, `k` are `idx[]`. -/
inductive Pc where
  | idle
  | enter (b : Nat) (w : Bool)
  | alloc (b : Nat) (w : Bool)
  /-- In `sleep(&disk.free[0], ..)`. -/
  | sleepFree (b : Nat) (w : Bool)
  | format (b : Nat) (w : Bool) (i j k : Nat)
  /-- About to store into the avail ring. -/
  | ring (b i j k : Nat)
  /-- About to advance the avail index, and notify the device. -/
  | publish (b i j k : Nat)
  /-- At `while(b->disk == 1)`. -/
  | wait (b i j k : Nat)
  /-- In `sleep(b, ..)`. -/
  | sleepBuf (b i j k : Nat)
  /-- About to store `info[idx[0]].b = 0`. -/
  | clear (b i j k : Nat)
  /-- `free_chain`, at descriptor `c`; `left` is still to be freed. -/
  | free (b c : Nat) (left : List Nat)
  | rel (b : Nat)
  deriving DecidableEq, Repr

/-- Where the handler is; `id` is the head that it has read from the used ring. -/
inductive IPc where
  | off
  | test
  | load
  | status (id : Nat)
  | done (id : Nat)
  | rel
  deriving DecidableEq, Repr

inductive Who (N : Nat) where
  | proc (p : Fin N)
  | intr
  deriving DecidableEq, Repr

/-- A chain that the device has taken. -/
structure Flight where
  head : Nat
  /-- Where the chain says to store the status. -/
  status : Addr
  /-- The status has been stored. -/
  done : Bool
  deriving DecidableEq, Repr

structure Dev where
  /-- How far it has taken the avail ring. -/
  last : BitVec 16
  flight : List Flight
  /-- The position in `flight` of the head that is stored in the used ring, with the used
      index still to be advanced. -/
  storing : Option Nat

structure St (N : Nat) where
  d : Disk
  dev : Dev
  pc : Fin N → Pc
  ipc : IPc
  /-- Who holds `vdisk_lock`. -/
  lock : Option (Who N)
  published : List Nat
  taken : List Nat
  completed : List Nat
  consumed : List Nat
  mine : Fin N → Nat
  /-- What the process has published since its call: the head, and where the chain in memory
      says the data is. -/
  reqs : Fin N → List (Nat × Addr)

inductive Act (N : Nat) where
  | call (p : Fin N) (b : Nat) (w : Bool)
  | step (p : Fin N)
  /-- An interrupt. -/
  | intr
  | istep
  | take
  /-- The device does the work of chain `n` of those it has. -/
  | work (n : Nat)
  | store (n : Nat)
  | push

/-- The buffer of the call. -/
def Pc.buf : Pc → Option Nat
  | .idle => none
  | .enter b _ | .alloc b _ | .sleepFree b _ | .format b _ _ _ _ | .ring b _ _ _ | .publish b _ _ _ | .wait b _ _ _
  | .sleepBuf b _ _ _ | .clear b _ _ _ | .free b _ _ | .rel b => some b

/-- The end of the chain that starts at `h`, as a device finds it that follows at most `n`
    links. -/
def chainEnd (desc : Nat → Desc) : Nat → Nat → Desc
  | 0, h => desc h
  | n + 1, h => if (desc h).flags &&& VRING_DESC_F_NEXT ≠ 0 then chainEnd desc n (desc h).next else desc h

variable {N : Nat}

def St.goto (s : St N) (p : Fin N) (a : Pc) : St N := { s with pc := update s.pc p a }

def St.acquire (s : St N) (p : Fin N) (a : Pc) : Option (Except Panic (St N)) :=
  if s.lock = none then some (.ok { s.goto p a with lock := some (.proc p) }) else none

/-- The next step of `p`: not there, a panic, or a state. -/
def stepProc (blockno : Nat → Nat) (s : St N) (p : Fin N) : Option (Except Panic (St N)) :=
  match s.pc p with
  | .idle => none
  | .enter b w => s.acquire p (.alloc b w)
  | .alloc b w =>
    some ((alloc3_desc s.d).map fun
      | (some (i, j, k), d) => { s.goto p (.format b w i j k) with d }
      | (none, d) => { s.goto p (.sleepFree b w) with d, lock := none })
  | .sleepFree b w => s.acquire p (.alloc b w)
  | .format b w i j k => some (.ok { s.goto p (.ring b i j k) with d := format blockno s.d b w i j k })
  | .ring b i j k =>
    some (.ok { s.goto p (.publish b i j k) with
      d := { s.d with availRing := update s.d.availRing (s.d.availIdx.toNat % NUM) i } })
  | .publish b i j k =>
    some (.ok { s.goto p (.wait b i j k) with
      d := { s.d with availIdx := s.d.availIdx + 1 }
      published := s.published ++ [i]
      mine := update s.mine p ((s.published ++ [i]).count i)
      reqs := update s.reqs p (s.reqs p ++ [(i, (s.d.desc (s.d.desc i).next).addr)]) })
  | .wait b i j k =>
    if s.d.bdisk b then some (.ok { s.goto p (.sleepBuf b i j k) with lock := none })
    else some (.ok (s.goto p (.clear b i j k)))
  | .sleepBuf b i j k => s.acquire p (.wait b i j k)
  | .clear b i j k =>
    some (.ok { s.goto p (.free b i [i, j, k]) with
      d := { s.d with info := update s.d.info i { s.d.info i with b := none } } })
  | .free b c left =>
    let x := s.d.desc c
    some ((free_desc s.d c).map fun d =>
      { s.goto p (if x.flags &&& VRING_DESC_F_NEXT ≠ 0 then .free b x.next left.tail else .rel b) with d })
  | .rel _ => some (.ok { s.goto p .idle with lock := none })

def stepIntr (s : St N) : Option (Except Panic (St N)) :=
  match s.ipc with
  | .off => none
  | .test => some (.ok { s with ipc := if s.d.used_idx ≠ s.d.usedIdx then .load else .rel })
  | .load => some (.ok { s with ipc := .status (s.d.usedRing (s.d.used_idx.toNat % NUM)) })
  | .status id => some (if (s.d.info id).status ≠ 0 then .error .intrStatus else .ok { s with ipc := .done id })
  | .done id =>
    some (match (s.d.info id).b with
      | none => .error .noBuf
      | some b =>
        .ok { s with
          ipc := .test
          d := { s.d with bdisk := update s.d.bdisk b false, used_idx := s.d.used_idx + 1 }
          consumed := s.consumed ++ [id] })
  | .rel => some (.ok { s with ipc := .off, lock := none })

def stepDev (s : St N) : Act N → Option (St N)
  | .take =>
    if s.dev.last = s.d.availIdx then none
    else
      let h := s.d.availRing (s.dev.last.toNat % NUM)
      let f : Flight := ⟨h, (chainEnd s.d.desc NUM h).addr, false⟩
      some { s with
        dev := { s.dev with last := s.dev.last + 1, flight := s.dev.flight ++ [f] }
        taken := s.taken ++ [h] }
  | .work n =>
    (s.dev.flight[n]?).map fun f =>
      { s with
        dev := { s.dev with flight := s.dev.flight.set n { f with done := true } }
        d := match f.status with
          | .status i => { s.d with info := update s.d.info i { s.d.info i with status := 0 } }
          | _ => s.d }
  | .store n =>
    match s.dev.flight[n]?, s.dev.storing with
    | some f, none =>
      if f.done then
        some { s with
          dev := { s.dev with storing := some n }
          d := { s.d with usedRing := update s.d.usedRing (s.d.usedIdx.toNat % NUM) f.head } }
      else none
    | _, _ => none
  | .push =>
    s.dev.storing.bind fun n =>
      (s.dev.flight[n]?).map fun f =>
        { s with
          dev := { s.dev with storing := none, flight := s.dev.flight.eraseIdx n }
          d := { s.d with usedIdx := s.d.usedIdx + 1 }
          completed := s.completed ++ [f.head] }
  | _ => none

/-- What may happen next: nothing, a panic, or a state. -/
def next (blockno : Nat → Nat) (s : St N) : Act N → Option (Except Panic (St N))
  | .call p b w =>
    if s.pc p = .idle ∧ ∀ q, (s.pc q).buf ≠ some b then
      some (.ok { s.goto p (.enter b w) with reqs := update s.reqs p [] })
    else none
  | .step p => stepProc blockno s p
  | .intr => if s.lock = none then some (.ok { s with ipc := .test, lock := some .intr }) else none
  | .istep => stepIntr s
  | a => (stepDev s a).map .ok

/-- After `virtio_disk_init`. -/
def init (N : Nat) : St N where
  d :=
    { desc := fun _ => ⟨.null, 0, 0, 0⟩
      availIdx := 0
      availRing := fun _ => 0
      usedIdx := 0
      usedRing := fun _ => 0
      free := fun _ => true
      used_idx := 0
      info := fun _ => ⟨none, 0⟩
      ops := fun _ => ⟨0, 0, 0⟩
      bdisk := fun _ => false }
  dev := ⟨0, [], none⟩
  pc := fun _ => .idle
  ipc := .off
  lock := none
  published := []
  taken := []
  completed := []
  consumed := []
  mine := fun _ => 0
  reqs := fun _ => []

/-- The runs; a step that panics leads nowhere. -/
def sys (N : Nat) (blockno : Nat → Nat) : Lib.Sys (St N) (Act N) :=
  .ofFn (· = init N) fun s a => (next blockno s a).bind Except.toOption

end Xv6.Virtio
