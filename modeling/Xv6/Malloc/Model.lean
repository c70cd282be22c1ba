/-
  Xv6.Malloc.Model — malloc and free (user/umalloc.c).

  An address is a number of bytes; the headers are kept by address. `size` is a `uint`. The
  operating system is a state of its own with an `sbrk` that is not fixed here: it is given the
  `int` and returns an address, or none for (char*)-1. `asks` keeps the calls of `sbrk` with
  what they were for; the program does not read it.

  The loops take fuel, and stop with `fuel` when it is used up.
-/

import Xv6.Lib.Prog
import Mathlib.Algebra.Order.Ring.Int

namespace Xv6.Malloc

def hsize : Nat := 16

structure Header where
  ptr : Nat
  size : Nat
  deriving DecidableEq, Repr

/-- A call of `sbrk`: the units that `morecore` wants, the argument and the result, and the system before and after. -/
structure Ask (σ : Type) where
  nu : Nat
  arg : Int
  got : Option Nat
  before : σ
  after : σ

structure Heap (σ : Type) where
  hdr : Nat → Header
  /-- 0 before the first call of `malloc`. -/
  freep : Nat
  os : σ
  asks : List (Ask σ)

inductive Stop (ε : Type) where
  /-- The model has run out of fuel. -/
  | fuel
  /-- The system has stopped. -/
  | os (e : ε)

abbrev M (σ ε : Type) := Lib.Prog (Heap σ) (Stop ε)

variable {σ ε : Type}

def load (a : Nat) : M σ ε Header := do return (← get).hdr a

def setPtr (a v : Nat) : M σ ε Unit :=
  modify fun s => { s with hdr := Function.update s.hdr a { s.hdr a with ptr := v } }

/-- `v` is cut to a `uint`. -/
def setSize (a v : Nat) : M σ ε Unit :=
  modify fun s => { s with hdr := Function.update s.hdr a { s.hdr a with size := v % 2 ^ 32 } }

def setFreep (p : Nat) : M σ ε Unit := modify fun s => { s with freep := p }

section

variable {E : Stop ε → Prop} {a v : Nat} {s : Heap σ}

@[simp] theorem wp_load {Q : Header → Heap σ → Prop} : Lib.Wp E (load a) s Q = Q (s.hdr a) s := rfl

@[simp] theorem wp_setPtr {Q : Unit → Heap σ → Prop} : Lib.Wp E (setPtr a v) s Q =
    Q () { s with hdr := Function.update s.hdr a { s.hdr a with ptr := v } } := rfl

@[simp] theorem wp_setSize {Q : Unit → Heap σ → Prop} : Lib.Wp E (setSize a v) s Q =
    Q () { s with hdr := Function.update s.hdr a { s.hdr a with size := v % 2 ^ 32 } } := rfl

@[simp] theorem wp_setFreep {Q : Unit → Heap σ → Prop} : Lib.Wp E (setFreep v) s Q = Q () { s with freep := v } := rfl

end

/-! ## free -/

/-- The loop of `free` goes on at `p` unless this holds. -/
def stops (hdr : Nat → Header) (bp p : Nat) : Bool :=
  (p < bp && bp < (hdr p).ptr) || (decide ((hdr p).ptr ≤ p) && (decide (p < bp) || decide (bp < (hdr p).ptr)))

def freeSearch (bp : Nat) : Nat → Nat → M σ ε Nat
  | 0, _ => throw .fuel
  | fuel + 1, p => do
    let s ← get
    if stops s.hdr bp p then return p else freeSearch bp fuel (s.hdr p).ptr

def free (fuel ap : Nat) : M σ ε Unit := do
  let bp := ap - hsize
  let p ← freeSearch bp fuel (← get).freep
  let b ← load bp
  let next := (← load p).ptr
  if bp + hsize * b.size = next then do
    let n ← load next
    setSize bp (b.size + n.size)
    setPtr bp n.ptr
  else setPtr bp next
  let h ← load p
  if p + hsize * h.size = bp then do
    let b ← load bp
    setSize p (h.size + b.size)
    setPtr p b.ptr
  else setPtr p bp
  setFreep p

/-! ## malloc -/

/-- A `uint64` passed as an `int`. -/
def toInt (n : Nat) : Int := if n % 2 ^ 32 < 2 ^ 31 then n % 2 ^ 32 else (n % 2 ^ 32 : Nat) - 2 ^ 32

/-- `sbrk(n)`, for `morecore(nu)`. -/
def callSbrk (sbrk : Int → Lib.Prog σ ε (Option Nat)) (nu : Nat) (n : Int) : M σ ε (Option Nat) := do
  let before := (← get).os
  let got ← Lib.onPart (fun s => s.os) (fun s os => { s with os := os }) .os (sbrk n)
  modify fun s => { s with asks := ⟨nu, n, got, before, s.os⟩ :: s.asks }
  return got

/-- The address of a `Header`, 0 for none. -/
def morecore (sbrk : Int → Lib.Prog σ ε (Option Nat)) (fuel nu : Nat) : M σ ε Nat := do
  let nu := if nu < 4096 then 4096 else nu
  match ← callSbrk sbrk nu (toInt (nu * hsize)) with
  | none => return 0
  | some p => do
    setSize p nu
    free fuel (p + hsize)
    return (← get).freep

def nunits (nbytes : Nat) : Nat := (nbytes + hsize - 1) / hsize + 1

/-- The units that `morecore` wants for a request. -/
def wanted (nbytes : Nat) : Nat := if nunits nbytes < 4096 then 4096 else nunits nbytes

theorem wanted_pos (nbytes : Nat) : 0 < wanted nbytes := by
  unfold wanted
  split <;> omega

theorem wanted_le {nbytes : Nat} (h : nbytes < 2 ^ 32) : wanted nbytes ≤ 2 ^ 28 + 1 := by
  unfold wanted nunits hsize
  split <;> omega

/-- What `malloc` does with a block that is large enough. -/
def take (nunits prevp p : Nat) : M σ ε Nat := do
  let h ← load p
  if h.size = nunits then do
    setPtr prevp h.ptr
    setFreep prevp
    return p + hsize
  else do
    setSize p (h.size - nunits)
    let p := p + hsize * (h.size - nunits)
    setSize p nunits
    setFreep prevp
    return p + hsize

/-- The loop of `malloc`. -/
def search (sbrk : Int → Lib.Prog σ ε (Option Nat)) (nunits : Nat) : Nat → Nat → Nat → M σ ε Nat
  | 0, _, _ => throw .fuel
  | fuel + 1, prevp, p => do
    let s ← get
    if nunits ≤ (s.hdr p).size then take nunits prevp p
    else if p = s.freep then do
      let p ← morecore sbrk fuel nunits
      if p = 0 then return 0
      search sbrk nunits fuel p (← load p).ptr
    else search sbrk nunits fuel p (s.hdr p).ptr

/-- `base` is the address of the list's first header. -/
def malloc (sbrk : Int → Lib.Prog σ ε (Option Nat)) (base fuel nbytes : Nat) : M σ ε Nat := do
  if (← get).freep = 0 then do
    setPtr base base
    setFreep base
    setSize base 0
  let prevp := (← get).freep
  search sbrk (nunits nbytes) fuel prevp (← load prevp).ptr

end Xv6.Malloc
