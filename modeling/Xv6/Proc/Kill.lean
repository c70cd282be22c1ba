/-
  Xv6.Proc.Kill — which processes `kill` reaches (kernel/proc.c: kill, setkilled, allocproc,
  freeproc, fork, exit, wait, sleep, wakeup).

  A table of `N` slots, changed by whole sections under `p->lock`. `nextpid` is an `int` and
  wraps. A new process keeps the `killed` that its slot had: `freeproc` clears it, `allocproc`
  does not store it. History (`asked`), which no step reads: whether, since `allocpid` gave the
  process in the slot its pid, `kill` was called with that pid or `setkilled` on it.

  An UNUSED slot has pid 0, and `kill` does not look at the state: `kill(0)` marks the
  first UNUSED slot and reports success, and the next process there is born killed.
-/

import Xv6.Proc.Model
import Mathlib.Algebra.Group.Int.Defs

namespace Xv6.Proc.Table

open Function (update update_self update_of_ne)

/-- The fields of `struct proc` that the functions here store or load. -/
structure Slot (N : Nat) where
  state : PState
  pid : Int
  killed : Bool
  chan : Option Nat
  xstate : Int
  parent : Option (Fin N)
  deriving DecidableEq

structure St (N : Nat) where
  table : Fin N → Slot N
  nextpid : Int
  asked : Fin N → Bool

variable {N : Nat}

/-- The value of an `int` after `k` is stored in it. -/
def wrap32 (k : Int) : Int := (k + 2 ^ 31) % 2 ^ 32 - 2 ^ 31

def hit (t : Fin N → Slot N) (k : Int) : Option (Fin N) := (List.finRange N).find? fun i => (t i).pid == k

def Slot.kill (x : Slot N) : Slot N := { x with killed := true, state := if x.state = .sleeping then .runnable else x.state }

def kill (t : Fin N → Slot N) (k : Int) : Int × (Fin N → Slot N) :=
  match hit t k with
  | some i => (0, update t i (t i).kill)
  | none => (-1, t)

/-- The slot as `freeproc` leaves it. -/
def freed : Slot N := ⟨.unused, 0, false, none, 0, none⟩

def free (t : Fin N → Slot N) : Option (Fin N) := (List.finRange N).find? fun i => (t i).state == .unused

inductive Act (N : Nat) where
  /-- `allocproc`; `ok`: there is memory for the process. -/
  | alloc (ok : Bool)
  /-- The rest of a successful `fork` by `p`. -/
  | publish (p i : Fin N)
  /-- The rest of a `fork` that has no memory for a copy of its parent's. -/
  | forkFail (i : Fin N)
  | run (i : Fin N)
  | yield (i : Fin N)
  | sleep (i : Fin N) (ch : Nat)
  /-- `p->chan = 0`, back from `sleep`. -/
  | tidy (i : Fin N)
  | wakeup (ch : Nat)
  | exit (i ini : Fin N) (st : Int)
  /-- `wait` has found `i` a zombie. -/
  | reap (i : Fin N)
  | setkilled (i : Fin N)
  | kill (k : Int)

namespace St

def set (s : St N) (i : Fin N) (x : Slot N) : St N := { s with table := update s.table i x }

/-- `i`'s state goes from `a` to `b`, with what else `f` stores in the slot. -/
def move (s : St N) (i : Fin N) (a b : PState) (f : Slot N → Slot N) : Option (St N) :=
  if (s.table i).state = a then some (s.set i { f (s.table i) with state := b }) else none

end St

def next (s : St N) : Act N → Option (St N)
  | .alloc ok =>
    match free s.table with
    | some i =>
      let x : Slot N := { s.table i with pid := s.nextpid, state := .used }
      some { s.set i (if ok then x else freed) with
        nextpid := wrap32 (s.nextpid + 1), asked := update s.asked i false }
    | none => some s
  | .publish p i => s.move i .used .runnable fun x => { x with parent := some p }
  | .forkFail i => if (s.table i).state = .used then some (s.set i freed) else none
  | .run i => s.move i .runnable .running id
  | .yield i => s.move i .running .runnable id
  | .sleep i ch => s.move i .running .sleeping fun x => { x with chan := some ch }
  | .tidy i => s.move i .running .running fun x => { x with chan := none }
  | .wakeup ch =>
    let wake (x : Slot N) : Slot N := if x.state = .sleeping ∧ x.chan = some ch then { x with state := .runnable } else x
    some { s with table := fun i => wake (s.table i) }
  | .exit i ini st =>
    let adopt (x : Slot N) : Slot N := if x.parent = some i then { x with parent := some ini } else x
    { s with table := fun j => adopt (s.table j) }.move i .running .zombie fun x => { x with xstate := st }
  | .reap i => if (s.table i).state = .zombie then some (s.set i freed) else none
  | .setkilled i =>
    if (s.table i).state = .unused then none
    else some { s.set i { s.table i with killed := true } with asked := update s.asked i true }
  | .kill k =>
    let called (i : Fin N) : Bool := decide ((s.table i).state ≠ .unused ∧ (s.table i).pid = k)
    some { s with table := (kill s.table k).2, asked := fun i => s.asked i || called i }

def init (ini : Fin N) : St N where
  table i := if i = ini then { (freed : Slot N) with state := .runnable, pid := 1 } else freed
  nextpid := 2
  asked _ := false

def sys (ini : Fin N) : Lib.Sys (St N) (Act N) := .ofFn (· = init ini) next

/-- The call does not name the UNUSED slots. -/
def Meant (s : St N) : Act N → Prop
  | .kill k => k ≠ 0 ∨ ∀ i, (s.table i).state ≠ .unused
  | _ => True

/-! ## What a slot may hold -/

/-- An UNUSED slot has pid 0 and is not killed; a killed process was asked to be. -/
structure Slot.Ok (x : Slot N) (asked : Bool) : Prop where
  pid : x.state = .unused → x.pid = 0
  killed : x.killed = true → x.state ≠ .unused ∧ asked = true

theorem freed_ok (b : Bool) : (freed : Slot N).Ok b := ⟨fun _ => rfl, nofun⟩

theorem Slot.Ok.move {x y : Slot N} {b : Bool} (h : x.Ok b) (hy : y.state ≠ .unused) (hk : y.killed = x.killed) : y.Ok b :=
  ⟨fun h' => absurd h' hy, fun h' => ⟨hy, (h.killed (hk ▸ h')).2⟩⟩

def Inv (s : St N) : Prop := ∀ i, (s.table i).Ok (s.asked i)

variable {s s' : St N} {i : Fin N} {t : Fin N → Slot N} {k : Int}

theorem Inv.set (h : Inv s) {x : Slot N} (hx : x.Ok (s.asked i)) : Inv (s.set i x) := by
  intro j
  simp only [St.set]
  rcases eq_or_ne j i with rfl | hj
  · rw [update_self]; exact hx
  · rw [update_of_ne hj]; exact h j

theorem Inv.move (h : Inv s) {a b : PState} {f : Slot N → Slot N} (hs : s.move i a b f = some s')
    (hf : ∀ x, (f x).killed = x.killed) (hb : b ≠ .unused) : Inv s' := by
  unfold St.move at hs
  split at hs
  · cases hs
    exact h.set ((h i).move hb (hf _))
  · cases hs

theorem free_unused (h : free t = some i) : (t i).state = .unused := by
  simpa using List.find?_some h

theorem hit_pid (h : hit t k = some i) : (t i).pid = k := by
  simpa using List.find?_some h

theorem hit_none (h : hit t k = none) (i : Fin N) : (t i).pid ≠ k := by
  simpa using List.find?_eq_none.mp h i (List.mem_finRange i)

theorem Inv.hit_live (h : Inv s) (hm : Meant s (.kill k)) (hi : hit s.table k = some i) : (s.table i).state ≠ .unused := by
  rcases hm with h0 | hall
  · intro hu
    exact h0 ((hit_pid hi).symm.trans ((h i).pid hu))
  · exact hall i

theorem Inv.kill (h : Inv s) (hm : Meant s (.kill k)) (hs : next s (.kill k) = some s') : Inv s' := by
  cases hs
  intro j
  have keep : (s.table j).Ok (s.asked j || decide ((s.table j).state ≠ .unused ∧ (s.table j).pid = k)) :=
    ⟨(h j).pid, fun hk => ⟨((h j).killed hk).1, by rw [((h j).killed hk).2, Bool.true_or]⟩⟩
  show ((Table.kill s.table k).2 j).Ok _
  unfold Table.kill
  cases hi : hit s.table k with
  | none => exact keep
  | some i =>
    show (update s.table i (s.table i).kill j).Ok _
    rcases eq_or_ne j i with rfl | hj
    · have hl := h.hit_live hm hi
      have hl' : (s.table j).kill.state ≠ .unused := by
        unfold Slot.kill
        split
        · exact nofun
        · exact hl
      rw [update_self]
      refine ⟨fun hu => absurd hu hl', fun _ => ⟨hl', ?_⟩⟩
      show (s.asked j || decide ((s.table j).state ≠ .unused ∧ (s.table j).pid = k)) = true
      rw [decide_eq_true ⟨hl, hit_pid hi⟩, Bool.or_true]
    · rw [update_of_ne hj]
      exact keep

theorem Inv.alloc (h : Inv s) {ok : Bool} (hs : next s (.alloc ok) = some s') : Inv s' := by
  simp only [next] at hs
  split at hs
  · rename_i i hi
    cases hs
    intro j
    show (update s.table i _ j).Ok (update s.asked i false j)
    rcases eq_or_ne j i with rfl | hj
    · rw [update_self, update_self]
      -- the slot was UNUSED, so its `killed`, which is kept, is clear
      have hk : (s.table j).killed ≠ true := fun hk => ((h j).killed hk).1 (free_unused hi)
      cases ok
      · exact freed_ok _
      · exact ⟨nofun, fun hk' => absurd hk' hk⟩
    · rw [update_of_ne hj, update_of_ne hj]
      exact h j
  · cases hs; exact h

theorem Inv.step (h : Inv s) {a : Act N} (hm : Meant s a) (hs : next s a = some s') : Inv s' := by
  cases a with
  | alloc ok => exact h.alloc hs
  | kill k => exact h.kill hm hs
  | publish p i =>
    simp only [next] at hs
    exact h.move hs (fun _ => rfl) nofun
  | run i =>
    simp only [next] at hs
    exact h.move hs (fun _ => rfl) nofun
  | yield i =>
    simp only [next] at hs
    exact h.move hs (fun _ => rfl) nofun
  | sleep i ch =>
    simp only [next] at hs
    exact h.move hs (fun _ => rfl) nofun
  | tidy i =>
    simp only [next] at hs
    exact h.move hs (fun _ => rfl) nofun
  | wakeup ch =>
    cases hs
    intro i
    dsimp only
    split
    · exact (h i).move nofun rfl
    · exact h i
  | exit i ini st =>
    simp only [next] at hs
    refine Inv.move (fun j => ?_) hs (fun _ => rfl) nofun
    dsimp only
    split
    · exact ⟨(h j).pid, (h j).killed⟩
    · exact h j
  | forkFail i =>
    simp only [next] at hs
    split at hs
    · cases hs; exact h.set (freed_ok _)
    · cases hs
  | reap i =>
    simp only [next] at hs
    split at hs
    · cases hs; exact h.set (freed_ok _)
    · cases hs
  | setkilled i =>
    simp only [next] at hs
    split at hs
    · cases hs
    · rename_i hl
      cases hs
      intro j
      show (update s.table i _ j).Ok (update s.asked i true j)
      rcases eq_or_ne j i with rfl | hj
      · rw [update_self, update_self]
        exact ⟨fun hu => absurd hu hl, fun _ => ⟨hl, rfl⟩⟩
      · rw [update_of_ne hj, update_of_ne hj]
        exact h j

theorem init_inv (ini : Fin N) : Inv (init ini) := by
  intro i
  simp only [init]
  split
  · exact ⟨nofun, nofun⟩
  · exact freed_ok _

theorem inv {ini : Fin N} (hs : ((sys ini).restrict Meant).Reach s) : Inv s :=
  Lib.Sys.invariant (fun _ h0 => h0 ▸ init_inv ini) (fun _ _ _ _ h hst => h.step hst.2 hst.1) hs

/-! ## kill -/

/-- What `kill(k)` should do: succeed exactly if a process has the pid, and then change
    that process's `killed` and wake it, and nothing else. -/
structure Exact (t : Fin N → Slot N) (k : Int) : Prop where
  found : (kill t k).1 = 0 ↔ ∃ i, (t i).state ≠ .unused ∧ (t i).pid = k
  only : (kill t k).1 = 0 → ∃ i, (t i).state ≠ .unused ∧ (t i).pid = k ∧ (kill t k).2 = update t i
    { t i with killed := true, state := if (t i).state = .sleeping then .runnable else (t i).state }
  absent : (kill t k).1 ≠ 0 → (kill t k).1 = -1 ∧ (kill t k).2 = t

theorem Inv.exact (h : Inv s) (hm : Meant s (.kill k)) : Exact s.table k := by
  cases hi : hit s.table k with
  | none =>
    have e : Table.kill s.table k = (-1, s.table) := by simp only [Table.kill, hi]
    have hno : ¬ ∃ i, (s.table i).state ≠ .unused ∧ (s.table i).pid = k := fun ⟨i, _, hp⟩ => hit_none hi i hp
    refine ⟨?_, ?_, ?_⟩ <;> rw [e]
    · exact ⟨fun h' => absurd h' (show (-1 : Int) ≠ 0 by decide), fun h' => absurd h' hno⟩
    · exact fun h' => absurd h' (show (-1 : Int) ≠ 0 by decide)
    · exact fun _ => ⟨rfl, rfl⟩
  | some i =>
    have e : Table.kill s.table k = (0, update s.table i (s.table i).kill) := by simp only [Table.kill, hi]
    have hi' : (s.table i).state ≠ .unused ∧ (s.table i).pid = k := ⟨h.hit_live hm hi, hit_pid hi⟩
    refine ⟨?_, ?_, ?_⟩ <;> rw [e]
    · exact ⟨fun _ => ⟨i, hi'⟩, fun _ => rfl⟩
    · exact fun _ => ⟨i, hi'.1, hi'.2, rfl⟩
    · exact fun h' => absurd rfl h'

/-- In a run in which `kill` is not called with 0 while a slot is UNUSED, every further such
    call is exact, a new process is not killed, and a process is killed only after it has
    been asked to be. -/
theorem kill_names_live {ini : Fin N} (hs : ((sys ini).restrict Meant).Reach s) :
    (∀ k, Meant s (.kill k) → Exact s.table k) ∧
    (∀ i s', next s (.alloc true) = some s' → free s.table = some i →
      (s'.table i).killed = false ∧ (s'.table i).state = .used ∧ (s'.table i).pid = s.nextpid) ∧
    ∀ i, (s.table i).state ≠ .unused → (s.table i).killed = true → s.asked i = true := by
  have h := inv hs
  refine ⟨fun k hm => h.exact hm, fun i s' hst hi => ?_, fun i _ hk => ((h i).killed hk).2⟩
  simp only [next, hi] at hst
  cases hst
  have hk : (s.table i).killed = false := by
    by_contra hk
    exact ((h i).killed (by simpa using hk)).1 (free_unused hi)
  have e : ∀ x, (s.set i x).table i = x := fun x => update_self ..
  exact ⟨(congrArg Slot.killed (e _)).trans hk, congrArg Slot.state (e _), congrArg Slot.pid (e _)⟩

/-- After `kill` of `init` the theorem is about a process that has been killed. -/
theorem kill_names_live_init : ∃ s : St 2, ((sys 0).restrict Meant).Reach s ∧ (s.table 0).killed = true ∧
    s.asked 0 = true ∧ Exact s.table 1 := by
  have h0 : ((sys (0 : Fin 2)).restrict Meant).Reach (init 0) := .init rfl
  have hm : Meant (init (0 : Fin 2)) (.kill 1) := .inl (by decide)
  have h1 := Lib.Sys.Reach.step h0 (And.intro (show next _ (.kill 1) = some _ from rfl) hm)
  have h := kill_names_live h1
  refine ⟨_, h1, by decide, h.2.2 0 (by decide) (by decide), h.1 1 (show _ ∨ _ from .inl (by decide))⟩

/-- `kill(0)` reports success though no process has pid 0, and the next process forked is
    killed though nobody has asked for it. -/
theorem killed_at_birth : ∃ s s' : St 2, (sys 0).Reach s ∧ (sys 0).Reach s' ∧ ¬ Exact s.table 0 ∧
    (s'.table 1).state = .runnable ∧ (s'.table 1).pid = 2 ∧ (s'.table 1).killed = true ∧ s'.asked 1 = false := by
  have h0 : (sys (0 : Fin 2)).Reach (init 0) := .init rfl
  have h1 := Lib.Sys.Reach.step h0 (show next _ (.kill 0) = some _ from rfl)
  have h2 := Lib.Sys.Reach.step h1 (show next _ (.alloc true) = some _ from rfl)
  have h3 := Lib.Sys.Reach.step h2 (show next _ (.publish 0 1) = some _ from rfl)
  refine ⟨_, _, h0, h3, fun h => ?_, by decide, by decide, by decide, by decide⟩
  obtain ⟨i, hl, hp⟩ := h.found.mp (by decide)
  revert i
  decide

end Xv6.Proc.Table
