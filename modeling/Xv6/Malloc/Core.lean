/-
  Xv6.Malloc.Core — what morecore asks the kernel for (see `Xv6.Malloc.Model` and
  `Xv6.Vm.Grow`).

  Here the system is the kernel's: a process with its memory and size, whose `sbrk` is
  `sys_sbrk` (kernel/sysproc.c) over `growproc`. The heap may be in any state.
-/

import Xv6.Malloc.Model
import Xv6.Vm.Grow

namespace Xv6.Malloc

open Lib (Wp wp_bind wp_ite wp_get)

/-- What the kernel keeps of the process. -/
structure Proc where
  mem : Vm.Mem
  sz : Nat

/-- `sys_sbrk`, for the process with this page table. -/
def sbrk (pagetable : Nat) (n : Int) : Lib.Prog Proc Vm.Panic (Option Nat) := do
  let addr := (← get).sz
  let (r, sz) ← Lib.onPart (fun s => s.mem) (fun s mem => { s with mem := mem }) id (Vm.growproc pagetable addr n)
  modify fun s => { s with sz := sz }
  return if r < 0 then none else some addr

variable {σ ε : Type} {E : ε → Prop} {root base fuel nbytes : Nat} {s : Heap Proc} {n : Int}

def Proc.Ok (root : Nat) (p : Proc) : Prop := Vm.Space p.mem root p.sz

/-- The process stays well formed, and if it gets memory this is what it has asked for. -/
theorem wp_sbrk {E : Vm.Panic → Prop} {p : Proc} (h : p.Ok root) (hmin : -2 ^ 31 ≤ n) (hmax : n < 2 ^ 31) :
    Wp E (sbrk root n) p fun got p' => p'.Ok root ∧ (0 ≤ n → got ≠ none → got = some p.sz ∧ (p'.sz : Int) = p.sz + n) := by
  simp only [sbrk, wp_bind, wp_get, Lib.wp_onPart, Lib.wp_modify, Lib.wp_pure]
  by_cases hpos : 0 ≤ (p.sz : Int) + n
  · refine (Vm.wp_growproc h hmax hpos).mono fun (r, sz) mem hr => ?_
    refine ⟨hr.space, ?_⟩
    intro _ hgot
    cases hr.ret with
    | inl h0 =>
      rw [h0]
      exact ⟨rfl, hr.size h0⟩
    | inr h1 =>
      rw [h1] at hgot
      exact absurd rfl hgot
  · have hw : Wp (fun e => E (id e)) (Vm.growproc root p.sz n) p.mem fun r mem => r = (0, p.sz) ∧ mem = p.mem := by
      unfold Wp
      rw [Vm.growproc_negative h hmin (by omega)]
      exact ⟨rfl, rfl⟩
    refine hw.mono fun r mem hr => ?_
    obtain ⟨rfl, rfl⟩ := hr
    exact ⟨h, fun hn => absurd hn (by omega)⟩

theorem wp_sbrk_room {m k c : Nat} {p : Proc} (h : Vm.Room (k + c) p.mem) (hc : 3 * (Vm.addInt p.sz m / Vm.PGSIZE + 1) = c)
    (hm : 0 < m) (hlt : p.sz < Vm.addInt p.sz m) :
    Wp (fun _ => True) (sbrk root m) p fun got p' => got ≠ none ∧ Vm.Room k p'.mem := by
  subst hc
  simp only [sbrk, Vm.growproc, if_pos (Int.natCast_pos.mpr hm), Vm.uvmalloc, if_neg (Nat.not_lt.mpr (Nat.le_of_lt hlt)), wp_bind,
    wp_get, Lib.wp_onPart, Lib.wp_modify, Lib.wp_pure]
  refine (Vm.wp_uvmallocFrom_room h).mono fun r mem hr => ?_
  rw [if_neg (by omega)]
  exact ⟨Option.some_ne_none _, hr.2⟩

/-! ## The calls that malloc makes -/

section

variable {σ ε : Type} {fuel : Nat} {s : Heap σ}

/-- Neither the system nor the calls of it have changed. -/
def SameOs (s s' : Heap σ) : Prop := s'.os = s.os ∧ s'.asks = s.asks

theorem wp_freeSearch_same {bp p : Nat} :
    Wp (fun _ => True) (freeSearch bp fuel p : M σ ε Nat) s fun _ s' => s' = s := by
  induction fuel generalizing p with
  | zero => trivial
  | succ fuel ih =>
    simp only [freeSearch, wp_bind, wp_get]
    exact wp_ite (fun _ => rfl) fun _ => ih

theorem wp_free_same {ap : Nat} : Wp (fun _ => True) (free fuel ap : M σ ε Unit) s fun _ s' => SameOs s s' := by
  simp only [free, wp_bind, wp_get]
  refine wp_freeSearch_same.mono fun p s' hs => ?_
  subst hs
  simp only [wp_load]
  refine wp_ite (fun _ => ?_) fun _ => ?_
  · simp only [wp_bind, wp_load, wp_setSize, wp_setPtr]
    exact wp_ite (fun _ => ⟨rfl, rfl⟩) fun _ => ⟨rfl, rfl⟩
  · simp only [wp_bind, wp_load, wp_setPtr]
    exact wp_ite (fun _ => ⟨rfl, rfl⟩) fun _ => ⟨rfl, rfl⟩

theorem wp_take_same {nunits prevp p : Nat} :
    Wp (fun _ => True) (take nunits prevp p : M σ ε Nat) s fun _ s' => SameOs s s' := by
  simp only [take, wp_bind, wp_load]
  exact wp_ite (fun _ => ⟨rfl, rfl⟩) fun _ => ⟨rfl, rfl⟩

end

/-- A call of `sbrk` that `malloc(nbytes)` makes. -/
structure Asked (root nbytes : Nat) (k : Ask Proc) : Prop where
  nu : k.nu = wanted nbytes
  arg : k.arg = toInt (k.nu * hsize)
  before : k.before.Ok root
  gets : 0 ≤ k.arg → k.got ≠ none → k.got = some k.before.sz ∧ (k.after.sz : Int) = k.before.sz + k.arg

/-- The process is well formed, and all calls so far were made by `malloc(nbytes)`. -/
structure Asks (root nbytes : Nat) (s : Heap Proc) : Prop where
  ok : s.os.Ok root
  asked : ∀ k ∈ s.asks, Asked root nbytes k

theorem SameOs.asks {s' : Heap Proc} (h : SameOs s s') (hs : Asks root nbytes s) : Asks root nbytes s' :=
  ⟨h.1 ▸ hs.ok, h.2 ▸ hs.asked⟩

theorem toInt_bounds (n : Nat) : -2 ^ 31 ≤ toInt n ∧ toInt n < 2 ^ 31 := by
  unfold toInt
  split <;> omega

theorem wp_morecore_asks (hs : Asks root nbytes s) :
    Wp (fun _ => True) (morecore (sbrk root) fuel (nunits nbytes)) s fun _ s' => Asks root nbytes s' := by
  obtain ⟨hmin, hmax⟩ := toInt_bounds (wanted nbytes * hsize)
  simp only [morecore, callSbrk, wp_bind, wp_get, Lib.wp_onPart, Lib.wp_modify, Lib.wp_pure]
  refine (wp_sbrk hs.ok hmin hmax).mono fun got p' ⟨hok, hgot⟩ => ?_
  have hasks : Asks root nbytes
      { s with os := p', asks := ⟨wanted nbytes, toInt (wanted nbytes * hsize), got, s.os, p'⟩ :: s.asks } := by
    refine ⟨hok, ?_⟩
    intro k hk
    cases hk with
    | head => exact ⟨rfl, rfl, hs.ok, hgot⟩
    | tail _ hk => exact hs.asked k hk
  cases got with
  | none => exact hasks
  | some a =>
    simp only [wp_bind, wp_setSize]
    refine wp_free_same.mono fun _ s' hsame => ?_
    exact hsame.asks ⟨hasks.ok, hasks.asked⟩

theorem wp_search_asks {prevp p : Nat} (hs : Asks root nbytes s) :
    Wp (fun _ => True) (search (sbrk root) (nunits nbytes) fuel prevp p) s fun _ s' => Asks root nbytes s' := by
  induction fuel generalizing prevp p s with
  | zero => trivial
  | succ fuel ih =>
    simp only [search, wp_bind, wp_get]
    refine wp_ite (fun _ => wp_take_same.mono fun _ s' h => h.asks hs) fun _ => wp_ite (fun _ => ?_) fun _ => ih hs
    rw [wp_bind]
    refine (wp_morecore_asks hs).mono fun p s' hs' => ?_
    exact wp_ite (fun _ => hs') fun _ => ih hs'

theorem wp_malloc_asks (hs : Asks root nbytes s) :
    Wp (fun _ => True) (malloc (sbrk root) base fuel nbytes) s fun _ s' => Asks root nbytes s' := by
  simp only [malloc, wp_bind, wp_get]
  refine wp_ite (fun _ => ?_) fun _ => wp_search_asks hs
  simp only [wp_bind, wp_setPtr, wp_setFreep, wp_setSize]
  exact wp_search_asks ⟨hs.ok, hs.asked⟩

/-! ## The memory behind a block -/

/-- The `nu` units from what `sbrk` has returned on are memory that the process did not have before. -/
structure Backed (k : Ask Proc) : Prop where
  arg : k.arg = (k.nu * hsize : Nat)
  pos : 0 < k.arg
  start : k.got = some k.before.sz
  size : k.after.sz = k.before.sz + k.nu * hsize

theorem toInt_wanted_iff {nbytes : Nat} (h : nbytes < 2 ^ 32) :
    toInt (wanted nbytes * hsize) = (wanted nbytes * hsize : Nat) ↔ nbytes ≤ 2 ^ 31 - 32 := by
  have hle := wanted_le h
  have hiff : wanted nbytes * hsize < 2 ^ 31 ↔ nbytes ≤ 2 ^ 31 - 32 := by
    unfold wanted nunits hsize
    split <;> omega
  rw [← hiff]
  simp only [hsize] at *
  unfold toInt
  split <;> omega

theorem Asked.backed_iff {k : Ask Proc} (hk : Asked root nbytes k) (h : nbytes < 2 ^ 32) (hgot : k.got ≠ none) :
    Backed k ↔ nbytes ≤ 2 ^ 31 - 32 := by
  rw [← toInt_wanted_iff h]
  constructor
  · intro hb
    have := hb.arg
    rw [hk.arg, hk.nu] at this
    exact this
  · intro hexact
    have harg : k.arg = (k.nu * hsize : Nat) := by rw [hk.arg, hk.nu, hexact]
    have hpos := wanted_pos nbytes
    rw [← hk.nu] at hpos
    simp only [hsize] at harg
    obtain ⟨hstart, hsize'⟩ := hk.gets (by omega) hgot
    refine ⟨harg, by omega, hstart, ?_⟩
    simp only [hsize]
    omega

/-- For every heap, every request and every process: if `malloc` gets memory from the kernel, then the block that it
    records is that memory, with the size asked for as an exact number, iff the request is at most 2^31 - 32 bytes. -/
theorem malloc_backed_iff (root base fuel nbytes : Nat) (hn : nbytes < 2 ^ 32) (s s' : Heap Proc) (hs : s.os.Ok root)
    (hasks : s.asks = []) (r : Nat) (hrun : malloc (sbrk root) base fuel nbytes s = .ok (r, s'))
    (hgot : ∃ k ∈ s'.asks, k.got ≠ none) :
    (∀ k ∈ s'.asks, k.got ≠ none → Backed k) ↔ nbytes ≤ 2 ^ 31 - 32 := by
  have hstart : Asks root nbytes s := ⟨hs, by rw [hasks]; exact fun _ h => absurd h List.not_mem_nil⟩
  have hall := (wp_malloc_asks hstart).of_ok hrun |>.asked
  constructor
  · intro hb
    obtain ⟨k, hk, hgot⟩ := hgot
    exact ((hall k hk).backed_iff hn hgot).mp (hb k hk hgot)
  · intro hle k hk hgot
    exact ((hall k hk).backed_iff hn hgot).mpr hle

/-- Physical memory of one empty page table and 64 free pages. -/
def roomy : Vm.Mem := ⟨fun _ _ => 0, List.range' (Vm.tinyRoot + 1) 64, Vm.KERNBASE, fun _ => false⟩

theorem roomy_space : Vm.Space roomy Vm.tinyRoot 0 :=
  have ht : Vm.IsPageTable roomy Vm.tinyRoot := ⟨⟨by decide, by decide⟩, .empty rfl (by decide) (by decide)⟩
  ht.space rfl

def onePage : Proc := match sbrk Vm.tinyRoot 4096 ⟨roomy, 0⟩ with
  | .ok (_, p) => p
  | .error _ => ⟨roomy, 0⟩

theorem onePage_spec : onePage.Ok Vm.tinyRoot ∧ onePage.sz = 4096 ∧ Vm.Room 54 onePage.mem := by
  have hroom : Vm.Room (54 + 6) roomy := ⟨by decide, fun _ => rfl⟩
  have hw : Wp (fun _ => False) (sbrk Vm.tinyRoot 4096) ⟨roomy, 0⟩ _ :=
    (wp_sbrk (show Proc.Ok Vm.tinyRoot ⟨roomy, 0⟩ from roomy_space) (by decide) (by decide)).and
      (wp_sbrk_room (m := 4096) hroom (by decide) (by decide) (by decide))
  obtain ⟨got, p, hrun, ⟨hok, hgot⟩, hne, hroom⟩ := hw.returns
  rw [onePage, hrun]
  exact ⟨hok, Int.ofNat_inj.mp (hgot (by decide) hne).2, hroom⟩

def newHeap : Heap Proc := ⟨fun _ => ⟨0, 0⟩, 0, onePage, []⟩

/-- The heap after `malloc(2^32 - 1)`, with `base` at 64. -/
def maxRun : Nat × Heap Proc := match malloc (sbrk Vm.tinyRoot) 64 4 (2 ^ 32 - 1) newHeap with
  | .ok r => r
  | .error _ => (0, newHeap)

theorem maxRun_asks : (maxRun.2.asks.map fun k => (k.nu, k.arg, k.got, k.before.sz, k.after.sz)) =
    [(2 ^ 28 + 1, 16, some 4096, 4096, 4112)] := by
  decide +kernel

theorem maxRun_eq : malloc (sbrk Vm.tinyRoot) 64 4 (2 ^ 32 - 1) newHeap = .ok maxRun := by
  cases h : malloc (sbrk Vm.tinyRoot) 64 4 (2 ^ 32 - 1) newHeap with
  | ok r => rw [maxRun, h]
  | error e =>
    have := maxRun_asks
    rw [maxRun, h] at this
    cases this

theorem maxRun_ask : ∃ k, maxRun.2.asks = [k] ∧ k.nu = 2 ^ 28 + 1 ∧ k.arg = 16 ∧ k.got = some 4096 := by
  obtain ⟨k, hk, hfields⟩ := List.map_eq_singleton_iff.mp maxRun_asks
  simp only [Prod.mk.injEq] at hfields
  exact ⟨k, hk, hfields.1, hfields.2.1, hfields.2.2.1⟩

theorem malloc_hundred {p : Proc} (hok : p.Ok root) (hsz : p.sz = 4096) (hroom : Vm.Room 54 p.mem) :
    ∃ r s', malloc (sbrk root) 64 2 100 ⟨fun _ => ⟨0, 0⟩, 0, p, []⟩ = .ok (r, s') ∧ ∃ k ∈ s'.asks, k.got ≠ none := by
  have hw : Wp (fun _ => False) (sbrk root 65536) p fun got _ => got = some 4096 :=
    ((wp_sbrk hok (by decide) (by decide)).and (wp_sbrk_room (k := 0) (c := 54) (m := 65536) hroom (by rw [hsz]; decide)
      (by decide) (by rw [hsz]; decide))).mono fun _ _ h => hsz ▸ (h.1.2 (by decide) h.2.1).1
  -- variables, so that nothing is evaluated before `sbrk` is called
  have hm : ∀ base nbytes, base = 64 → nbytes = 100 →
      Wp (fun _ => False) (malloc (sbrk root) base 2 nbytes) ⟨fun _ => ⟨0, 0⟩, 0, p, []⟩ fun _ s' =>
        ∃ p', s'.asks = [⟨4096, 65536, some 4096, p, p'⟩] := by
    intro base nbytes hb hn
    simp only [malloc, wp_bind, wp_get]
    refine wp_ite (fun _ => ?_) fun h => absurd trivial h
    simp only [wp_bind, wp_setPtr, wp_setFreep, wp_setSize, wp_get, wp_load, search, Function.update_self, Nat.zero_mod]
    refine wp_ite (fun h => absurd h (by rw [hn]; decide)) fun _ => wp_ite (fun _ => ?_) fun h => absurd trivial h
    simp only [wp_bind, morecore, callSbrk, wp_get, Lib.wp_onPart]
    subst hb hn
    refine hw.mono fun got p' hgot => ?_
    subst hgot
    exact ⟨p', rfl⟩
  obtain ⟨r, s', hrun, p', hp⟩ := (hm _ _ rfl rfl).returns
  exact ⟨r, s', hrun, ⟨4096, 65536, some 4096, p, p'⟩, hp ▸ List.mem_singleton_self _, nofun⟩

theorem malloc_backed_hundred : ∃ r s', malloc (sbrk Vm.tinyRoot) 64 2 100 newHeap = .ok (r, s') ∧
    (∃ k ∈ s'.asks, k.got ≠ none) ∧ ∀ k ∈ s'.asks, k.got ≠ none → Backed k := by
  obtain ⟨r, s', hrun, hgot⟩ := malloc_hundred onePage_spec.1 onePage_spec.2.1 onePage_spec.2.2
  exact ⟨r, s', hrun, hgot, (malloc_backed_iff Vm.tinyRoot 64 2 100 (by decide) newHeap s' onePage_spec.1 rfl r hrun hgot).mpr
    (by decide)⟩

/-- `malloc(2^32 - 1)` gets 16 bytes and takes them for 2^28 + 1 units. -/
theorem malloc_unbacked : onePage.Ok Vm.tinyRoot ∧ malloc (sbrk Vm.tinyRoot) 64 4 (2 ^ 32 - 1) newHeap = .ok maxRun ∧
    ∃ k ∈ maxRun.2.asks, k.got = some 4096 ∧ k.nu = 2 ^ 28 + 1 ∧ k.arg = 16 ∧ ¬ Backed k := by
  obtain ⟨k, hk, hnu, harg, hgot⟩ := maxRun_ask
  refine ⟨onePage_spec.1, maxRun_eq, k, hk ▸ List.mem_singleton_self k, hgot, hnu, harg, ?_⟩
  intro hb
  have := hb.arg
  rw [hnu, harg] at this
  exact absurd this (by decide)

end Xv6.Malloc
