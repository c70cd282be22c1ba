/-
  Xv6.Pipe.Read — the bytes of a read that `copyout` cuts short (kernel/pipe.c, piperead).

  A read holds `pi->lock` from its last look for an empty pipe to its end, so that it is one step
  here; memory and the page table are those of `Xv6.Vm.Model`. The loop takes a byte from the pipe
  before `copyout` has found the address writable.
-/

import Xv6.Pipe.Fifo
import Xv6.Vm.Copy

namespace Xv6.Pipe

open Vm (Mem Apart Writable user)

/-- The copying loop of `piperead`, with `left` rounds to go. -/
def copyLoop (pagetable addr : Nat) : Nat → Nat → Pipe → Vm.M (Nat × Pipe)
  | 0, i, pi => return (i, pi)
  | left + 1, i, pi =>
    if pi.empty then return (i, pi)
    else do
      let (ch, pi) := pi.take
      if (← Vm.copyout pagetable ((addr + i) % 2 ^ 64) (fun _ => ch) 1) = -1 then return (i, pi)
      copyLoop pagetable addr left (i + 1) pi

/-- `piperead` by a process that has been killed or not; with `none` it sleeps. -/
def piperead (pagetable addr : Nat) (n : Int) (killed : Bool) (pi : Pipe) : Vm.M (Option Int × Pipe) :=
  if pi.empty ∧ pi.writeopen then return (if killed then some (-1) else none, pi)
  else do
    let (i, pi) ← copyLoop pagetable addr n.toNat 0 pi
    return (some i, pi)

/-- How many bytes the read says it has read. -/
def count : Option Int → Nat
  | some r => r.toNat
  | none => 0

/-! ## One read -/

section

variable {E : Vm.Panic → Prop} {root addr left i r : Nat} {pi pi' : Pipe} {s s' : Mem}

/-- How many bytes a loop of so many rounds is to take. -/
def due (left : Nat) (pi : Pipe) : Nat := min left (contents pi).length

theorem due_of_empty (h : pi.empty = true) : due left pi = 0 := by
  rw [due, contents_length, (empty_iff pi).mp h, Nat.min_zero]

theorem due_take (h : pi.empty = false) : due (left + 1) pi = due left pi.take.2 + 1 := by
  rw [due, due, contents_take h, List.length_cons, Nat.succ_min_succ]

/-- What the loop does from `addr` on: it puts down `r` bytes, and takes one more where it is stopped. -/
structure Got (root addr left : Nat) (pi : Pipe) (s : Mem) (r : Nat) (pi' : Pipe) (s' : Mem) : Prop where
  le : r ≤ due left pi
  writable : ∀ j < r, Writable s.page root ((addr + j) % 2 ^ 64)
  stop : r < due left pi → ¬ Writable s.page root ((addr + r) % 2 ^ 64)
  pipe : pi' = { pi with nread := pi.nread + BitVec.ofNat 32 (if r < due left pi then r + 1 else r) }
  bytes : ∀ j < r, (contents pi)[j]? = some (user s'.page root ((addr + j) % 2 ^ 64))
  others : ∀ a, Writable s.page root a → (∀ j < r, a ≠ (addr + j) % 2 ^ 64) → user s'.page root a = user s.page root a

theorem Got.done (h : due left pi = 0) : Got root addr left pi s 0 pi s where
  le := Nat.zero_le _
  writable _ hj := absurd hj (Nat.not_lt_zero _)
  stop hlt := by omega
  pipe := by rw [h, if_neg (Nat.lt_irrefl 0), BitVec.add_zero]
  bytes _ hj := absurd hj (Nat.not_lt_zero _)
  others _ _ _ := rfl

theorem Got.fail (hne : pi.empty = false) (hw : ¬ Writable s.page root (addr % 2 ^ 64))
    (h : Vm.CopiedOut root (addr % 2 ^ 64) 1 (fun _ => pi.take.1) s s' (-1)) : Got root addr (left + 1) pi s 0 pi.take.2 s' := by
  have hsame : s'.page = s.page := by
    funext p o
    by_contra hch
    obtain ⟨j, _, hr, _⟩ := h.others p o hch
    exact hw (hr 0 (Nat.zero_le j))
  refine ⟨Nat.zero_le _, nofun, fun _ => hw, ?_, nofun, fun a _ _ => by rw [hsame]⟩
  rw [due_take hne, if_pos (Nat.succ_pos _)]
  rfl

theorem Got.step {s1 : Mem} (hap : Apart s.page root) (hne : pi.empty = false) (hw : Writable s.page root (addr % 2 ^ 64))
    (hput : Vm.CopiedOut root (addr % 2 ^ 64) 1 (fun _ => pi.take.1) s s1 0)
    (h : Got root (addr + 1) left pi.take.2 s1 r pi' s') : Got root addr (left + 1) pi s (r + 1) pi' s' := by
  have hfirst : ∀ j < 1, Writable s.page root (addr % 2 ^ 64 + j) := fun j hj => by rwa [Nat.lt_one_iff.mp hj]
  have hwr : ∀ a, Writable s1.page root a ↔ Writable s.page root a := Vm.writable_frame (hput.tables hap)
  have hidx : ∀ j, addr + 1 + j = addr + (j + 1) := fun j => by omega
  -- the loop cannot come round to the first address
  have hround : ∀ j < r, addr % 2 ^ 64 ≠ (addr + 1 + j) % 2 ^ 64 := by
    intro j hj
    have := h.le
    have := (pi.take.2.nwrite - pi.take.2.nread).isLt
    rw [due, contents_length] at *
    omega
  refine ⟨?_, ?_, ?_, ?_, ?_, ?_⟩
  · rw [due_take hne]
    exact Nat.succ_le_succ h.le
  · intro j hj
    cases j with
    | zero => exact hw
    | succ j => exact hidx j ▸ (hwr _).mp (h.writable j (Nat.lt_of_succ_lt_succ hj))
  · intro hlt
    rw [due_take hne] at hlt
    exact fun hc => h.stop (Nat.lt_of_succ_lt_succ hlt) ((hwr _).mpr (hidx r ▸ hc))
  · have hnr : pi.take.2.nread = pi.nread + 1 := rfl
    have hadd : ∀ k, 1#32 + BitVec.ofNat 32 k = BitVec.ofNat 32 (k + 1) := fun k => by
      rw [BitVec.add_comm, BitVec.ofNat_add]
    rw [h.pipe, due_take hne, hnr, BitVec.add_assoc]
    simp only [Nat.add_lt_add_iff_right]
    split <;> exact congrArg (fun k => { pi with nread := pi.nread + k }) (hadd _)
  · intro j hj
    rw [contents_take hne]
    cases j with
    | zero =>
      rw [List.getElem?_cons_zero, Nat.add_zero, h.others _ ((hwr _).mpr hw) hround]
      exact congrArg some (hput.user hap hfirst Nat.one_pos).symm
    | succ j =>
      rw [List.getElem?_cons_succ, ← hidx]
      exact h.bytes j (Nat.lt_of_succ_lt_succ hj)
  · intro a ha hother
    rw [h.others a ((hwr a).mpr ha) fun j hj => hidx j ▸ hother (j + 1) (Nat.succ_lt_succ hj)]
    exact hput.user_ne hap ha fun j hj => by
      rw [Nat.lt_one_iff.mp hj]
      exact hother 0 (Nat.succ_pos r)

theorem wp_copyLoop (hap : Apart s.page root) :
    Lib.Wp E (copyLoop root addr left i pi) s fun x s' => ∃ r, x.1 = i + r ∧ Got root (addr + i) left pi s r x.2 s' := by
  induction left generalizing i pi s with
  | zero => exact ⟨0, rfl, .done (Nat.zero_min _)⟩
  | succ left ih =>
    unfold copyLoop
    refine Lib.wp_ite (fun he => ⟨0, rfl, .done (due_of_empty he)⟩) fun he => ?_
    have hne : pi.empty = false := Bool.eq_false_of_not_eq_true he
    rw [Lib.wp_bind]
    refine (Vm.wp_copyout hap).mono fun c s1 hput => ?_
    by_cases hw : Writable s.page root ((addr + i) % 2 ^ 64)
    · have hc : c = 0 := hput.ok fun j hj => by rwa [Nat.lt_one_iff.mp hj]
      subst hc
      refine (ih (hap.frame (hput.tables hap))).mono fun x s' ⟨r, hx, hg⟩ => ?_
      exact ⟨r + 1, by omega, .step hap hne hw hput hg⟩
    · have hc : c = -1 := hput.bad ⟨0, Nat.one_pos, hw⟩
      subst hc
      exact ⟨0, rfl, .fail hne hw hput⟩

theorem wp_piperead {n : Int} {killed : Bool} (hap : Apart s.page root) :
    Lib.Wp E (piperead root addr n killed pi) s fun x s' => Got root addr n.toNat pi s (count x.1) x.2 s' := by
  unfold piperead
  refine Lib.wp_ite (fun he => ?_) fun _ => ?_
  · have hz : count (if killed then some (-1) else none) = 0 := by cases killed <;> rfl
    show Got root addr n.toNat pi s (count (if killed then some (-1) else none)) pi s
    rw [hz]
    exact .done (due_of_empty he.1)
  · rw [Lib.wp_bind]
    refine (wp_copyLoop hap).mono fun x s' ⟨r, hx, hg⟩ => ?_
    rw [Nat.zero_add] at hx
    show Got root addr n.toNat pi s x.1 x.2 s'
    rw [hx]
    exact hg

/-- The read has taken what it returns, and user memory has it. -/
structure Keeps (root addr : Nat) (pi : Pipe) (x : Option Int × Pipe) (s' : Mem) : Prop where
  advance : (x.2.nread - pi.nread).toNat = count x.1
  bytes : ∀ j < count x.1, (contents pi)[j]? = some (user s'.page root ((addr + j) % 2 ^ 64))

theorem Got.advance (h : Got root addr left pi s r pi' s') :
    (pi'.nread - pi.nread).toNat = if r < due left pi then r + 1 else r := by
  have hle := h.le
  have hdue : due left pi ≤ (pi.nwrite - pi.nread).toNat := contents_length pi ▸ Nat.min_le_right ..
  have hlt := (pi.nwrite - pi.nread).isLt
  have hfits : (if r < due left pi then r + 1 else r) < 2 ^ 32 := by
    split <;> omega
  rw [h.pipe, BitVec.add_comm, BitVec.add_sub_cancel, BitVec.toNat_ofNat, Nat.mod_eq_of_lt hfits]

theorem Got.keeps_iff {x : Option Int × Pipe} (h : Got root addr left pi s (count x.1) x.2 s') :
    Keeps root addr pi x s' ↔ ∀ j < due left pi, Writable s.page root ((addr + j) % 2 ^ 64) := by
  have hadv := h.advance
  by_cases hlt : count x.1 < due left pi
  · rw [if_pos hlt] at hadv
    refine ⟨fun hk => ?_, fun hw => absurd (hw _ hlt) (h.stop hlt)⟩
    have := hk.advance
    omega
  · rw [if_neg hlt] at hadv
    have heq : count x.1 = due left pi := Nat.le_antisymm h.le (Nat.le_of_not_lt hlt)
    exact ⟨fun _ => heq ▸ h.writable, fun _ => ⟨hadv, h.bytes⟩⟩

theorem Got.contents {x : Option Int × Pipe} (h : Got root addr left pi s (count x.1) x.2 s') (hk : Keeps root addr pi x s') :
    contents pi = ((List.range (count x.1)).map fun j => user s'.page root ((addr + j) % 2 ^ 64)) ++ contents x.2 := by
  have hdue : due left pi ≤ (pi.nwrite - pi.nread).toNat := contents_length pi ▸ Nat.min_le_right ..
  have hle : (x.2.nread - pi.nread).toNat ≤ (pi.nwrite - pi.nread).toNat := hk.advance ▸ Nat.le_trans h.le hdue
  have hleft := Lib.ring_left hle
  have hlt := (pi.nwrite - pi.nread).isLt
  have hrest : Pipe.contents x.2 = Lib.pending pi.data PIPESIZE x.2.nread pi.nwrite := by rw [h.pipe]; rfl
  have hsplit : Pipe.contents pi = Lib.pending pi.data PIPESIZE pi.nread x.2.nread ++ Pipe.contents x.2 := by
    rw [hrest]
    exact Lib.pending_between PIPESIZE_dvd (by omega)
  have htaken : (Lib.pending pi.data PIPESIZE pi.nread x.2.nread).length = count x.1 := by rw [Lib.pending_length, hk.advance]
  have hbytes : Lib.pending pi.data PIPESIZE pi.nread x.2.nread =
      (List.range (count x.1)).map fun j => user s'.page root ((addr + j) % 2 ^ 64) := by
    refine List.ext_getElem? fun j => ?_
    by_cases hj : j < count x.1
    · have hb := hk.bytes j hj
      rw [hsplit, List.getElem?_append_left (htaken ▸ hj)] at hb
      rw [hb, List.getElem?_map, List.getElem?_range hj]
      rfl
    · rw [List.getElem?_eq_none (by omega), List.getElem?_eq_none (by rw [List.length_map, List.length_range]; omega)]
  rw [hsplit, hbytes]

end

/-! ## Reads and writes -/

structure Tally where
  pi : Pipe
  /-- The bytes that have been written. -/
  sent : List UInt8
  /-- What is in user memory after each read, as far as it says it has read. -/
  got : List (List UInt8)

inductive Op where
  /-- A byte is stored. -/
  | write (ch : UInt8)
  /-- A read, with the memory at its time. -/
  | read (pagetable addr : Nat) (n : Int) (killed : Bool) (s : Mem)
  | close (writable : Bool)

def nextOp (t : Tally) : Op → Option Tally
  | .write ch => if t.pi.full then none else some { t with pi := t.pi.put ch, sent := t.sent ++ [ch] }
  | .read pagetable addr n killed s =>
    match piperead pagetable addr n killed t.pi s with
    | .ok ((r, pi), s') =>
      some { t with pi, got := t.got ++ [(List.range (count r)).map fun j => user s'.page pagetable ((addr + j) % 2 ^ 64)] }
    | .error _ => none
  | .close writable => some { t with pi := t.pi.close writable }

def calls (data : Nat → UInt8) : Lib.Sys Tally Op := .ofFn (· = ⟨.alloc data, [], []⟩) nextOp

/-- A read finds writable pages for all it is to take. -/
def Whole (t : Tally) : Op → Prop
  | .read pagetable addr n _ s => Apart s.page pagetable ∧
      ∀ j < due n.toNat t.pi, Writable s.page pagetable ((addr + j) % 2 ^ 64)
  | _ => True

/-- Every byte has been delivered once or is in the pipe. -/
structure Tally.Sound (t : Tally) : Prop where
  le : (t.pi.nwrite - t.pi.nread).toNat ≤ PIPESIZE
  eq : t.sent = t.got.flatten ++ contents t.pi

theorem sound_reach {data : Nat → UInt8} {t : Tally} (h : ((calls data).restrict Whole).Reach t) : t.Sound := by
  refine Lib.Sys.invariant ?_ ?_ h
  · intro t ht
    cases ht
    exact ⟨by show (0#32 - 0#32).toNat ≤ PIPESIZE; decide, Lib.pending_self.symm⟩
  · intro t o t' _ hk ⟨hs, hw⟩
    cases o with
    | write ch =>
      change (if t.pi.full then none else some _) = some t' at hs
      split at hs
      · cases hs
      · rename_i hfull
        cases hs
        have hlt : (t.pi.nwrite - t.pi.nread).toNat < PIPESIZE :=
          Nat.lt_of_le_of_ne hk.le fun e => hfull ((full_iff t.pi).mpr e)
        refine ⟨?_, ?_⟩
        · rw [length_put hlt]
          exact hlt
        · rw [contents_put hlt, hk.eq, List.append_assoc]
    | read root addr n killed s =>
      have hwp : Lib.Wp (fun _ => False) (piperead root addr n killed t.pi) s _ := wp_piperead hw.1
      obtain ⟨x, s', hrun, hg⟩ := hwp.returns
      have hkeep := hg.keeps_iff.mpr hw.2
      have hcont := hg.contents hkeep
      simp only [calls, Lib.Sys.ofFn, nextOp, hrun, Option.some.injEq] at hs
      subst hs
      refine ⟨?_, ?_⟩
      · have hlen := congrArg List.length hcont
        rw [List.length_append, contents_length, contents_length] at hlen
        have := hk.le
        dsimp only
        omega
      · rw [hk.eq, hcont, List.flatten_append, List.flatten_singleton, List.append_assoc]
    | close writable =>
      cases hs
      have hsame : contents (t.pi.close writable) = contents t.pi := by cases writable <;> rfl
      refine ⟨?_, by rw [hsame]; exact hk.eq⟩
      rw [← contents_length, hsame, contents_length]
      exact hk.le

/-- A read loses nothing iff all the addresses it goes to are writable, and runs of such reads lose nothing. -/
theorem piperead_keeps_iff (data : Nat → UInt8) :
    (∀ root addr n killed pi s, Apart s.page root → ∃ x s', piperead root addr n killed pi s = .ok (x, s') ∧
      (Keeps root addr pi x s' ↔ ∀ j < due n.toNat pi, Writable s.page root ((addr + j) % 2 ^ 64))) ∧
    ∀ t, ((calls data).restrict Whole).Reach t → t.sent = t.got.flatten ++ contents t.pi := by
  refine ⟨fun root addr n killed pi s hap => ?_, fun t ht => (sound_reach ht).eq⟩
  have hwp : Lib.Wp (fun _ => False) (piperead root addr n killed pi) s _ := wp_piperead hap
  obtain ⟨x, s', hrun, hg⟩ := hwp.returns
  exact ⟨x, s', hrun, hg.keeps_iff⟩

def oneIn : Pipe := (Pipe.alloc fun _ => 0).put 7

/-- The byte is read to a page that is mapped. -/
theorem piperead_keeps_one : ∃ x s', piperead Vm.tinyRoot 0 5 false oneIn (Vm.oneMapped 524300) = .ok (x, s') ∧
    Keeps Vm.tinyRoot 0 oneIn x s' := by
  obtain ⟨x, s', hrun, hiff⟩ :=
    (piperead_keeps_iff fun _ => 0).1 Vm.tinyRoot 0 5 false oneIn (Vm.oneMapped 524300) Vm.oneMapped_apart
  exact ⟨x, s', hrun, hiff.mpr (by decide +kernel)⟩

/-- The byte is read to a page that is not mapped, and then to one that is. -/
def twoReads : List Op :=
  [.write 7, .read Vm.tinyRoot 4096 1 false (Vm.oneMapped 524300), .close true,
    .read Vm.tinyRoot 0 1 false (Vm.oneMapped 524300)]

/-- Neither read gets the byte, and it is not in the pipe. -/
theorem piperead_loses : Apart (Vm.oneMapped 524300).page Vm.tinyRoot ∧ ∃ t, (calls fun _ => 0).Reach t ∧
    t.sent = [7] ∧ t.got = [[], []] ∧ contents t.pi = [] := by
  have hrun : ∃ t, (calls fun _ => 0).Reach t ∧ decide (t.sent = [7] ∧ t.got = [[], []] ∧ contents t.pi = []) = true :=
    Lib.Sys.reach_of_any twoReads _ rfl (by decide +kernel)
  obtain ⟨t, hr, ht⟩ := hrun
  exact ⟨Vm.oneMapped_apart, t, hr, of_decide_eq_true ht⟩

end Xv6.Pipe
