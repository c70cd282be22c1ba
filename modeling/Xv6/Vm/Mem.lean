/-
  Xv6.Vm.Mem — physical memory, page table entries and the page allocator (kernel/riscv.h,
  kernel/memlayout.h, kernel/kalloc.c).

  Memory is its pages by number; an address is a page and an offset. A page table entry is 8 bytes
  of a page. `kalloc` can fail at any call: `deny` says of the calls to come which do. The free
  list is kept as a list; each page on it is junk.
-/

import Xv6.Lib.Bytes
import Xv6.Lib.Prog
import Mathlib.Data.Nat.Bitwise
import Mathlib.Logic.Function.Basic

namespace Xv6.Vm

@[grind] def PGSIZE : Nat := 4096
@[grind] def MAXVA : Nat := 2 ^ 38
def KERNBASE : Nat := 0x80000000
def PHYSTOP : Nat := KERNBASE + 128 * 1024 * 1024
def TRAMPOLINE : Nat := MAXVA - PGSIZE
def TRAPFRAME : Nat := TRAMPOLINE - PGSIZE

def PTE_V : Nat := 1
def PTE_R : Nat := 2
def PTE_W : Nat := 4
def PTE_X : Nat := 8
def PTE_U : Nat := 16

def PGROUNDUP (a : Nat) : Nat := (a + (PGSIZE - 1)) % 2 ^ 64 / PGSIZE * PGSIZE
def PGROUNDDOWN (a : Nat) : Nat := a / PGSIZE * PGSIZE

def PX (level va : Nat) : Nat := va >>> (12 + 9 * level) &&& 0x1FF

def PA2PTE (pa : Nat) : Nat := pa >>> 12 <<< 10
def PTE2PA (pte : Nat) : Nat := pte >>> 10 <<< 12 % 2 ^ 64
def PTE_FLAGS (pte : Nat) : Nat := pte &&& 0x3FF

/-! ## Indices -/

theorem PX_eq (level va : Nat) : PX level va = va / PGSIZE / 512 ^ level % 512 := by
  have h : (0x1FF : Nat) = 2 ^ 9 - 1 := rfl
  have hp : 2 ^ (12 + 9 * level) = PGSIZE * 512 ^ level := by
    rw [Nat.pow_add, Nat.pow_mul]
    rfl
  rw [PX, h, Nat.and_two_pow_sub_one_eq_mod, Nat.shiftRight_eq_div_pow, hp, Nat.div_div_eq_div_mul]

theorem PX_lt (level va : Nat) : PX level va < 512 := by
  rw [PX_eq]
  exact Nat.mod_lt _ (by decide)

theorem PX_page (level n : Nat) : PX level (n * PGSIZE) = n / 512 ^ level % 512 := by
  rw [PX_eq, Nat.mul_div_cancel _ (by decide : 0 < PGSIZE)]

theorem PX_page_of_va (level va : Nat) : PX level va = PX level (va / PGSIZE * PGSIZE) := by
  rw [PX_page, PX_eq]

theorem page_eq_of_PX {va va' : Nat} (h : va < MAXVA) (h' : va' < MAXVA) (h2 : PX 2 va = PX 2 va') (h1 : PX 1 va = PX 1 va')
    (h0 : PX 0 va = PX 0 va') : va / PGSIZE = va' / PGSIZE := by
  simp only [PX_eq, PGSIZE, MAXVA] at *
  omega

/-! ## Entries -/

theorem valid_iff {e : Nat} : e &&& PTE_V ≠ 0 ↔ e % 2 = 1 := by
  rw [PTE_V, Nat.and_one_is_mod]
  omega

theorem PTE_FLAGS_eq (e : Nat) : PTE_FLAGS e = e % 1024 := Nat.and_two_pow_sub_one_eq_mod e 10

def ppn (e : Nat) : Nat := PTE2PA e / PGSIZE

theorem ppn_eq (e : Nat) : ppn e = e / 1024 % 2 ^ 52 := by
  rw [ppn, PTE2PA, Nat.shiftLeft_eq, Nat.shiftRight_eq_div_pow]
  simp only [PGSIZE]
  omega

theorem PTE2PA_eq (e : Nat) : PTE2PA e = ppn e * PGSIZE := by
  rw [ppn_eq, PTE2PA, Nat.shiftLeft_eq, Nat.shiftRight_eq_div_pow]
  simp only [PGSIZE]
  omega

theorem PA2PTE_eq (p : Nat) : PA2PTE (p * PGSIZE) = 2 ^ 10 * p := by
  rw [PA2PTE, Nat.shiftLeft_eq, Nat.shiftRight_eq_div_pow]
  simp only [PGSIZE]
  omega

/-- The entry that `mappages` makes. -/
structure IsPte (e p f : Nat) : Prop where
  lt : e < 2 ^ 64
  ppn : ppn e = p
  flags : PTE_FLAGS e = f ||| PTE_V
  valid : e &&& PTE_V ≠ 0

theorem isPte {p f : Nat} (hp : p < 2 ^ 52) (hf : f < 1024) : IsPte (PA2PTE (p * PGSIZE) ||| f ||| PTE_V) p f := by
  have hv : f ||| PTE_V < 2 ^ 10 := Nat.or_lt_two_pow hf (by decide)
  have hodd : (f ||| PTE_V) % 2 = 1 := Nat.or_mod_two_eq_one.mpr (.inr rfl)
  have he : PA2PTE (p * PGSIZE) ||| f ||| PTE_V = 2 ^ 10 * p + (f ||| PTE_V) := by
    rw [Nat.or_assoc, PA2PTE_eq, Nat.two_pow_add_eq_or_of_lt hv]
  rw [he]
  refine ⟨by omega, ?_, ?_, ?_⟩
  · rw [ppn_eq]
    omega
  · rw [PTE_FLAGS_eq]
    omega
  · rw [valid_iff]
    omega

theorem and_flags (e f : Nat) (hf : 0x3FF &&& f = f) : PTE_FLAGS e &&& f = e &&& f := by
  rw [PTE_FLAGS, Nat.and_assoc, hf]

/-! ## Pages -/

abbrev Page := Nat → UInt8

def Page.pte (g : Page) (i : Nat) : Nat := Lib.ofBytes 8 fun k => g (8 * i + k)

def Page.setPte (g : Page) (i v : Nat) : Page := fun o => if 8 * i ≤ o ∧ o < 8 * i + 8 then Lib.byteAt v (o - 8 * i) else g o

theorem Page.pte_setPte_self (g : Page) (i : Nat) {v : Nat} (hv : v < 2 ^ 64) : (g.setPte i v).pte i = v := by
  have h : (g.setPte i v).pte i = Lib.ofBytes 8 (Lib.byteAt v) := Lib.ofBytes_congr fun k hk => by
    rw [Page.setPte, if_pos (by omega), Nat.add_sub_cancel_left]
  rw [h, Lib.ofBytes_byteAt]
  exact Nat.mod_eq_of_lt hv

theorem Page.pte_setPte_of_ne (g : Page) {i k : Nat} (v : Nat) (h : k ≠ i) : (g.setPte i v).pte k = g.pte k :=
  Lib.ofBytes_congr fun j hj => by rw [Page.setPte, if_neg (by omega)]

theorem Page.pte_zero (i : Nat) : Page.pte (fun _ => 0) i = 0 := Lib.ofBytes_zero 8

/-! ## The allocator -/

structure Mem where
  page : Nat → Page
  /-- `kmem.freelist`. -/
  free : List Nat
  /-- `end`: the first address after the kernel. -/
  kend : Nat
  /-- Which of the next calls of `kalloc` fail. -/
  deny : Nat → Bool

inductive Panic where
  /-- "kfree". -/
  | kfree
  /-- "walk". -/
  | walk
  /-- "mappages: va not aligned", "mappages: size not aligned", "mappages: size". -/
  | mappagesVa | mappagesSize | mappagesZero
  /-- "mappages: remap". -/
  | remap
  /-- "uvmunmap: not aligned", "uvmunmap: walk", "uvmunmap: not mapped", "uvmunmap: not a leaf". -/
  | unmapAlign | unmapWalk | notMapped | notLeaf
  /-- "freewalk: leaf". -/
  | freewalk
  /-- "argraw". -/
  | argraw
  /-- No panic: a page table deeper than three levels. -/
  | depth
  deriving DecidableEq, Repr

abbrev M := Lib.Prog Mem Panic

def setPage (p : Nat) (g : Page) : M Unit := modify fun s => { s with page := Function.update s.page p g }

/-- A page, filled with junk, unless there is none or the call fails. -/
def kalloc : M (Option Nat) := do
  let s ← get
  modify fun s => { s with deny := fun n => s.deny (n + 1) }
  if s.deny 0 then return none
  match s.free with
  | [] => return none
  | p :: l => do
    modify fun s => { s with free := l }
    setPage p fun _ => 5
    return some p

def kfree (pa : Nat) : M Unit := do
  if pa % PGSIZE ≠ 0 ∨ pa < (← get).kend ∨ PHYSTOP ≤ pa then throw .kfree
  setPage (pa / PGSIZE) fun _ => 1
  modify fun s => { s with free := pa / PGSIZE :: s.free }

end Xv6.Vm
