/-
  Xv6.Vm.Model — page tables and user memory (kernel/vm.c; kernel/proc.c: growproc;
  kernel/syscall.c: fetchstr, argstr).

  A page table is the number of its root page. A pointer to an entry is a page and an index.
  `perm` is a set of flags as a `uint64`. The loops of the source are recursion on the number of
  rounds they have left at most.

  `copyout` reads the kernel's memory from `src` on; `copyin` and `copyinstr` return what they
  have written to the kernel's memory, from the start of the buffer on.
-/

import Xv6.Vm.Mem

namespace Xv6.Vm

def pte (p i : Nat) : M Nat := do return ((← get).page p).pte i

def setPte (p i v : Nat) : M Unit := do
  let s ← get
  setPage p ((s.page p).setPte i v)

/-! ## Page tables -/

def walkFrom (va : Nat) (alloc : Bool) : Nat → Nat → M (Option (Nat × Nat))
  | 0, p => return some (p, PX 0 va)
  | level + 1, p => do
    let e ← pte p (PX (level + 1) va)
    if e &&& PTE_V ≠ 0 then walkFrom va alloc level (ppn e)
    else if alloc then do
      match ← kalloc with
      | none => return none
      | some q => do
        setPage q fun _ => 0
        setPte p (PX (level + 1) va) (PA2PTE (q * PGSIZE) ||| PTE_V)
        walkFrom va alloc level q
    else return none

def walk (pagetable va : Nat) (alloc : Bool) : M (Option (Nat × Nat)) := do
  if MAXVA ≤ va then throw .walk
  walkFrom va alloc 2 pagetable

def walkaddr (pagetable va : Nat) : M Nat := do
  if MAXVA ≤ va then return 0
  match ← walk pagetable va false with
  | none => return 0
  | some (p, i) => do
    let e ← pte p i
    if e &&& PTE_V = 0 then return 0
    if e &&& PTE_U = 0 then return 0
    return PTE2PA e

def mappagesFrom (pagetable perm last : Nat) : Nat → Nat → Nat → M Int
  | 0, _, _ => return 0
  | n + 1, a, pa => do
    match ← walk pagetable a true with
    | none => return -1
    | some (p, i) => do
      if (← pte p i) &&& PTE_V ≠ 0 then throw .remap
      setPte p i (PA2PTE pa ||| perm ||| PTE_V)
      if a = last then return 0
      mappagesFrom pagetable perm last n ((a + PGSIZE) % 2 ^ 64) ((pa + PGSIZE) % 2 ^ 64)

def mappages (pagetable va size pa perm : Nat) : M Int := do
  if va % PGSIZE ≠ 0 then throw .mappagesVa
  if size % PGSIZE ≠ 0 then throw .mappagesSize
  if size = 0 then throw .mappagesZero
  mappagesFrom pagetable perm ((va + size - PGSIZE) % 2 ^ 64) (size / PGSIZE) va pa

def uvmunmapFrom (pagetable : Nat) (do_free : Bool) (stop : Nat) : Nat → Nat → M Unit
  | 0, _ => return ()
  | n + 1, a =>
    if a < stop then do
      match ← walk pagetable a false with
      | none => throw .unmapWalk
      | some (p, i) => do
        let e ← pte p i
        if e &&& PTE_V = 0 then throw .notMapped
        if PTE_FLAGS e = PTE_V then throw .notLeaf
        if do_free then kfree (PTE2PA e)
        setPte p i 0
        uvmunmapFrom pagetable do_free stop n ((a + PGSIZE) % 2 ^ 64)
    else return ()

def uvmunmap (pagetable va npages : Nat) (do_free : Bool) : M Unit := do
  if va % PGSIZE ≠ 0 then throw .unmapAlign
  uvmunmapFrom pagetable do_free ((va + npages * PGSIZE) % 2 ^ 64) npages va

def ofInt (x : Nat) : Nat := if x % 2 ^ 32 < 2 ^ 31 then x % 2 ^ 32 else x % 2 ^ 32 + (2 ^ 64 - 2 ^ 32)

def uvmdealloc (pagetable oldsz newsz : Nat) : M Nat := do
  if oldsz ≤ newsz then return oldsz
  if PGROUNDUP newsz < PGROUNDUP oldsz then
    uvmunmap pagetable (PGROUNDUP newsz) (ofInt ((PGROUNDUP oldsz - PGROUNDUP newsz) / PGSIZE)) true
  return newsz

def uvmallocFrom (pagetable oldsz newsz xperm : Nat) : Nat → Nat → M Nat
  | 0, _ => return newsz
  | n + 1, a =>
    if a < newsz then do
      match ← kalloc with
      | none => do
        let _ ← uvmdealloc pagetable a oldsz
        return 0
      | some mem => do
        setPage mem fun _ => 0
        if (← mappages pagetable a PGSIZE (mem * PGSIZE) (PTE_R ||| PTE_U ||| xperm)) ≠ 0 then do
          kfree (mem * PGSIZE)
          let _ ← uvmdealloc pagetable a oldsz
          return 0
        uvmallocFrom pagetable oldsz newsz xperm n ((a + PGSIZE) % 2 ^ 64)
    else return newsz

def uvmalloc (pagetable oldsz newsz xperm : Nat) : M Nat := do
  if newsz < oldsz then return oldsz
  uvmallocFrom pagetable (PGROUNDUP oldsz) newsz xperm (newsz / PGSIZE + 1) (PGROUNDUP oldsz)

/-- Free a table of this many levels, and those below it. -/
def freewalk : Nat → Nat → M Unit
  | 0, _ => throw .depth
  | n + 1, p => do
    let each (i : Nat) : M Unit := do
      let e ← pte p i
      if e &&& PTE_V ≠ 0 ∧ e &&& (PTE_R ||| PTE_W ||| PTE_X) = 0 then do
        freewalk n (ppn e)
        setPte p i 0
      else if e &&& PTE_V ≠ 0 then throw .freewalk
    Lib.forFrom each 0 512
    kfree (p * PGSIZE)

/-! ## Growing and shrinking -/

def addInt (sz : Nat) (n : Int) : Nat := (((sz : Int) + n) % 2 ^ 64).toNat

/-- What it returns, and the new `p->sz`. -/
def growproc (pagetable sz : Nat) (n : Int) : M (Int × Nat) := do
  if 0 < n then do
    let sz' ← uvmalloc pagetable sz (addInt sz n) PTE_W
    if sz' = 0 then return (-1, sz)
    return (0, sz')
  else if n < 0 then do
    let sz' ← uvmdealloc pagetable sz (addInt sz n)
    return (0, sz')
  else return (0, sz)

/-! ## Copying -/

def Page.put (g : Page) (o n : Nat) (src : Nat → UInt8) : Page := fun k => if o ≤ k ∧ k < o + n then src (k - o) else g k

def copyoutFrom (pagetable : Nat) (src : Nat → UInt8) : Nat → Nat → Nat → Nat → M Int
  | 0, _, _, _ => return 0
  | fuel + 1, dstva, k, len =>
    if 0 < len then do
      let va0 := PGROUNDDOWN dstva
      if MAXVA ≤ va0 then return -1
      match ← walk pagetable va0 false with
      | none => return -1
      | some (p, i) => do
        let e ← pte p i
        if e &&& PTE_V = 0 ∨ e &&& PTE_U = 0 ∨ e &&& PTE_W = 0 then return -1
        let n := min (PGSIZE - (dstva - va0)) len
        let s ← get
        setPage (ppn e) ((s.page (ppn e)).put (dstva - va0) n fun j => src (k + j))
        copyoutFrom pagetable src fuel ((va0 + PGSIZE) % 2 ^ 64) (k + n) (len - n)
    else return 0

def copyout (pagetable dstva : Nat) (src : Nat → UInt8) (len : Nat) : M Int := copyoutFrom pagetable src len dstva 0 len

def copyinFrom (pagetable : Nat) : Nat → Nat → Nat → List UInt8 → M (Int × List UInt8)
  | 0, _, _, dst => return (0, dst)
  | fuel + 1, srcva, len, dst =>
    if 0 < len then do
      let va0 := PGROUNDDOWN srcva
      let pa0 ← walkaddr pagetable va0
      if pa0 = 0 then return (-1, dst)
      let n := min (PGSIZE - (srcva - va0)) len
      let g := (← get).page (pa0 / PGSIZE)
      copyinFrom pagetable fuel ((va0 + PGSIZE) % 2 ^ 64) (len - n) (dst ++ (List.range n).map fun j => g (srcva - va0 + j))
    else return (0, dst)

def copyin (pagetable srcva len : Nat) : M (Int × List UInt8) := copyinFrom pagetable len srcva len []

/-- The inner loop of `copyinstr`, over at most `n` bytes from offset `o` of the page: whether it came to a 0,
  and what it wrote. -/
def copyinstrPage (g : Page) : Nat → Nat → List UInt8 → Bool × List UInt8
  | 0, _, dst => (false, dst)
  | n + 1, o, dst => if g o = 0 then (true, dst ++ [0]) else copyinstrPage g n (o + 1) (dst ++ [g o])

def copyinstrFrom (pagetable : Nat) : Nat → Nat → Nat → List UInt8 → M (Int × List UInt8)
  | 0, _, _, dst => return (-1, dst)
  | fuel + 1, srcva, max, dst =>
    if 0 < max then do
      let va0 := PGROUNDDOWN srcva
      let pa0 ← walkaddr pagetable va0
      if pa0 = 0 then return (-1, dst)
      let n := min (PGSIZE - (srcva - va0)) max
      match copyinstrPage ((← get).page (pa0 / PGSIZE)) n (srcva - va0) dst with
      | (true, dst) => return (0, dst)
      | (false, dst) => copyinstrFrom pagetable fuel ((va0 + PGSIZE) % 2 ^ 64) (max - n) dst
    else return (-1, dst)

def copyinstr (pagetable srcva max : Nat) : M (Int × List UInt8) := copyinstrFrom pagetable max srcva max []

def strlen (buf : List UInt8) : Nat := (buf.takeWhile (· ≠ 0)).length

/-- Fetch the string at `addr`: its length or -1, and the buffer. `max` is an `int`. -/
def fetchstr (pagetable addr : Nat) (max : Int) : M (Int × List UInt8) := do
  let (r, buf) ← copyinstr pagetable addr (max % 2 ^ 64).toNat
  if r < 0 then return (-1, buf)
  return (strlen buf, buf)

def argraw (reg : Nat → Nat) (n : Nat) : M Nat := if n < 6 then return reg n else throw .argraw

def argstr (pagetable : Nat) (reg : Nat → Nat) (n : Nat) (max : Int) : M (Int × List UInt8) := do
  let addr ← argraw reg n
  fetchstr pagetable addr max

end Xv6.Vm
