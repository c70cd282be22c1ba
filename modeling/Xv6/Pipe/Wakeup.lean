/-
  Xv6.Pipe.Wakeup — no wakeup of a pipe's sleepers is lost (see `Xv6.Pipe.Model`).

  Whoever waits on `&pi->nwrite` does so while the pipe is full and open for reading, or
  the holder of `pi->lock` still owes it a wakeup; likewise for `&pi->nread`, an empty
  pipe and the write end. The first holds in every run. The second fails: `pipewrite`
  returns -1 without a `wakeup` when it finds itself killed, and it may have stored bytes
  since it took the lock. It holds in the runs without a kill at such a moment.
-/

import Xv6.Pipe.Model
import Xv6.Lib.Update
import Xv6.Lib.Wait

namespace Xv6.Pipe

open Function (update update_self update_of_ne)
open Lib (update_ind)

variable {N : Nat}

/-! ## What a program counter tells -/

def Pc.HasLock : Pc → Bool
  | .out | .enter _ | .free | .parting _ | .asleep _ | .retake _ => false
  | _ => true

/-- What the holder of `pi->lock` has found out about the pipe since it took the lock. -/
def Pc.Knows (pi : Pipe) : Pc → Prop
  | .wTest _ _ fresh => fresh = false → pi.readopen = true
  | .wKilled _ _ _ | .wCopy _ _ _ => pi.readopen = true
  | .rKilled _ => pi.empty = true ∧ pi.writeopen = true
  | .wake _ _ (.sleep l) | .sleep l | .locked l =>
    match l with
    | .write _ _ => pi.full = true ∧ pi.readopen = true
    | .read _ => pi.empty = true ∧ pi.writeopen = true
  | _ => True

/-- The channel a process has set out to sleep on, past the release of `pi->lock`. -/
def Pc.waits (sleeping : Bool) : Pc → Option Chan
  | .parting l => some l.chan
  | .asleep l => if sleeping then some l.chan else none
  | _ => none

/-- The process is bound to wake `q`, should it sleep on `c`, before it releases `pi->lock`. -/
def Pc.Owes (c : Chan) (q : Fin N) : Pc → Prop
  | .wTest _ _ fresh | .wKilled _ _ fresh | .wCopy _ _ fresh => c = .nread ∧ fresh = false
  | .rCopy _ _ => c = .nwrite
  | .wake c' k _ => c' = c ∧ k ≤ q
  | _ => False

/-- There is something to wait for on `c`. -/
def Calm (pi : Pipe) : Chan → Prop
  | .nread => pi.empty = true ∧ pi.writeopen = true
  | .nwrite => pi.full = true ∧ pi.readopen = true

theorem Pc.knows_of_not_hasLock {a : Pc} (h : a.HasLock = false) (pi : Pipe) : a.Knows pi := by
  cases a <;> simp_all [HasLock, Knows]

theorem Pc.waits_eq_some {a : Pc} {sl : Bool} {c : Chan} :
    a.waits sl = some c ↔ ∃ l, l.chan = c ∧ (a = .parting l ∨ a = .asleep l ∧ sl = true) := by
  cases a with
  | parting l => simp [waits]
  | asleep l =>
    constructor
    · intro h
      rw [waits, Option.ite_none_right_eq_some] at h
      exact ⟨l, Option.some.inj h.2, .inr ⟨rfl, h.1⟩⟩
    · rintro ⟨l', rfl, h | ⟨h, rfl⟩⟩
      · cases h
      · cases h; rfl
  | _ => simp [waits]

section

variable (s : St N) (p : Fin N) (b : Pc)

@[simp] theorem St.goto_pc : (s.goto p b).pc = update s.pc p b := rfl
@[simp] theorem St.goto_pi : (s.goto p b).pi = s.pi := rfl
@[simp] theorem St.goto_lock : (s.goto p b).lock = s.lock := rfl

end

/-! ## What a step does -/

/-- The moves of one process, from its program counter to the next, with the pipe left behind.
    The wakeup of another process and the store of SLEEPING are not among them. -/
inductive Edge (N : Nat) (pi : Pipe) (killed : Bool) : Pc → Pc → Pipe → Prop
  | call (c) : Edge N pi killed .out (.enter c) pi
  | enter (c) : Edge N pi killed (.enter c) c.body pi
  | wDone (n) (i : Nat) (f) : ¬ (i : Int) < n → Edge N pi killed (.wTest n i f) (.wake .nread 0 (.ret i)) pi
  | wShut (n) (i : Nat) (f) : (i : Int) < n → pi.readopen = false → Edge N pi killed (.wTest n i f) (.leave (-1)) pi
  | wGo (n) (i : Nat) (f) : (i : Int) < n → pi.readopen = true → Edge N pi killed (.wTest n i f) (.wKilled n i f) pi
  | wDie (n) (i : Nat) (f) : killed = true → Edge N pi killed (.wKilled n i f) (.leave (-1)) pi
  | wLive (n) (i : Nat) (f) : killed = false → Edge N pi killed (.wKilled n i f) (.wCopy n i f) pi
  | wFull (n) (i : Nat) (f) : pi.full = true → Edge N pi killed (.wCopy n i f) (.wake .nread 0 (.sleep (.write n i))) pi
  | wBad (n) (i : Nat) (f) : pi.full = false → Edge N pi killed (.wCopy n i f) (.wake .nread 0 (.ret i)) pi
  | wPut (n) (i : Nat) (f ch) : pi.full = false → Edge N pi killed (.wCopy n i f) (.wTest n (i + 1) false) (pi.put ch)
  | rWait (n) : pi.empty = true → pi.writeopen = true → Edge N pi killed (.rTest n) (.rKilled n) pi
  | rGo (n) : Edge N pi killed (.rTest n) (.rCopy n 0) pi
  | rDie (n) : killed = true → Edge N pi killed (.rKilled n) (.leave (-1)) pi
  | rLive (n) : killed = false → Edge N pi killed (.rKilled n) (.sleep (.read n)) pi
  | rTake (n i) : pi.empty = false → Edge N pi killed (.rCopy n i) (.rCopy n (i + 1)) pi.take.2
  | rBad (n i) : pi.empty = false → Edge N pi killed (.rCopy n i) (.wake .nwrite 0 (.ret i)) pi.take.2
  | rDone (n i) : Edge N pi killed (.rCopy n i) (.wake .nwrite 0 (.ret i)) pi
  | cSet (w) : Edge N pi killed (.cSet w) (.wake (if w then .nread else .nwrite) 0 .close) (pi.close w)
  | woken (c k t) : N ≤ k → Edge N pi killed (.wake c k t) t.pc pi
  | leave (r) : Edge N pi killed (.leave r) .out pi
  | cFree : Edge N pi killed .cLeave .free pi
  | cOut : Edge N pi killed .cLeave .out pi
  | free : Edge N pi killed .free .out pi
  | sleep (l) : Edge N pi killed (.sleep l) (.locked l) pi
  | locked (l) : Edge N pi killed (.locked l) (.parting l) pi
  | asleep (l) : Edge N pi killed (.asleep l) (.retake l) pi
  | retake (l) : Edge N pi killed (.retake l) l.body pi

/-- `p` takes an edge to `b`. The lock changes hands where the program counters say so. -/
structure Move (s : St N) (p : Fin N) (b : Pc) (s' : St N) : Prop where
  edge : Edge N s.pi (s.killed p) (s.pc p) b s'.pi
  awake : ∀ l, s.pc p = .asleep l → s.sleeping p = false
  pc : s'.pc = update s.pc p b
  lock : (s'.lock = s.lock ∧ b.HasLock = (s.pc p).HasLock) ∨ (s.lock = none ∧ s'.lock = some p ∧ b.HasLock = true) ∨
    ((s.pc p).HasLock = true ∧ s'.lock = none ∧ b.HasLock = false)
  sleeping : s'.sleeping = s.sleeping
  chan : ∀ q, q ≠ p → s'.chan q = s.chan q
  killed : s'.killed = s.killed

theorem Call.body_hasLock (c : Call) : c.body.HasLock = true := by cases c <;> rfl

theorem Loop.body_hasLock (l : Loop) : l.body.HasLock = true := by cases l <;> rfl

theorem Then.pc_hasLock (t : Then) : t.pc.HasLock = true := by cases t <;> rfl

theorem Move.goto {s : St N} {p : Fin N} {a b : Pc} {pi : Pipe} (hpc : s.pc p = a)
    (he : Edge N s.pi (s.killed p) a b pi) (ha : ∀ l, a ≠ .asleep l) (hl : b.HasLock = a.HasLock) (fr : Bool) :
    Move s p b { s.goto p b with pi, freed := fr } :=
  ⟨hpc ▸ he, fun l h => absurd (hpc.symm.trans h) (ha l), rfl, .inl ⟨rfl, hpc ▸ hl⟩, rfl, fun _ _ => rfl, rfl⟩

theorem Move.acquire {s s' : St N} {p : Fin N} {a b : Pc} (hpc : s.pc p = a)
    (he : Edge N s.pi (s.killed p) a b s.pi) (ha : ∀ l, a ≠ .asleep l) (hl : b.HasLock = true)
    (h : s.acquire p b = some s') : Move s p b s' := by
  obtain ⟨h0, ⟨⟩⟩ := Option.ite_none_right_eq_some.mp h
  exact ⟨hpc ▸ he, fun l h => absurd (hpc.symm.trans h) (ha l), rfl, .inr (.inl ⟨h0, rfl, hl⟩), rfl, fun _ _ => rfl, rfl⟩

theorem Move.release {s : St N} {p : Fin N} {a b : Pc} (hpc : s.pc p = a)
    (he : Edge N s.pi (s.killed p) a b s.pi) (ha : a.HasLock = true) (hl : b.HasLock = false) (r : Fin N → Int) :
    Move s p b { s.goto p b with lock := none, ret := r } :=
  ⟨hpc ▸ he, fun l h => by simp [← hpc, h, Pc.HasLock] at ha, rfl, .inr (.inr ⟨hpc ▸ ha, rfl, hl⟩), rfl, fun _ _ => rfl, rfl⟩

/-- `p` has gone to sleep. -/
def St.park (s : St N) (p : Fin N) (l : Loop) : St N :=
  { s.goto p (.asleep l) with chan := update s.chan p (some l.chan), sleeping := update s.sleeping p true }

theorem step_cases {s s' : St N} {p : Fin N} {ch : Option UInt8} (h : step s p ch = some s') :
    (∃ b, Move s p b s') ∨
    (∃ c q t u, s.pc p = .wake c (Fin.val q) t ∧ s.wakeOne p c q = some u ∧ s' = u.goto p (.wake c (q + 1) t)) ∨
    (∃ l, s.pc p = .parting l ∧ s' = s.park p l) := by
  cases hpc : s.pc p <;> simp only [step, hpc] at h
  case out => cases h
  case enter c => exact .inl ⟨_, .acquire hpc (.enter c) nofun c.body_hasLock h⟩
  case wTest n i f =>
    cases h
    refine .inl ⟨_, .goto hpc ?_ nofun ?_ _⟩
    · split
      · split
        · exact .wGo n i f ‹_› ‹_›
        · exact .wShut n i f ‹_› (by simpa using ‹¬ s.pi.readopen = true›)
      · exact .wDone n i f ‹_›
    · split
      · split <;> rfl
      · rfl
  case wKilled n i f =>
    cases h
    refine .inl ⟨_, .goto hpc ?_ nofun ?_ _⟩
    · split
      · exact .wDie n i f ‹_›
      · exact .wLive n i f (by simpa using ‹¬ s.killed p = true›)
    · split <;> rfl
  case wCopy n i f =>
    split at h
    · cases h
      exact .inl ⟨_, .goto hpc (.wFull n i f ‹_›) nofun rfl _⟩
    · rename_i hf
      cases ch <;> cases h
      · exact .inl ⟨_, .goto hpc (.wBad n i f (by simpa using hf)) nofun rfl _⟩
      · exact .inl ⟨_, .goto hpc (.wPut n i f _ (by simpa using hf)) nofun rfl _⟩
  case rTest n =>
    cases h
    refine .inl ⟨_, .goto hpc ?_ nofun ?_ _⟩
    · split
      · rename_i hw
        exact .rWait n hw.1 hw.2
      · exact .rGo n
    · split <;> rfl
  case rKilled n =>
    cases h
    refine .inl ⟨_, .goto hpc ?_ nofun ?_ _⟩
    · split
      · exact .rDie n ‹_›
      · exact .rLive n (by simpa using ‹¬ s.killed p = true›)
    · split <;> rfl
  case rCopy n i =>
    split at h
    · rename_i he
      have he : s.pi.empty = false := by simpa using he.2
      cases ch <;> cases h
      · exact .inl ⟨_, .goto hpc (.rBad n i he) nofun rfl _⟩
      · exact .inl ⟨_, .goto hpc (.rTake n i he) nofun rfl _⟩
    · cases h
      exact .inl ⟨_, .goto hpc (.rDone n i) nofun rfl _⟩
  case cSet w =>
    cases h
    exact .inl ⟨_, .goto hpc (.cSet w) nofun rfl _⟩
  case wake c k t =>
    split at h
    · rename_i hk
      obtain ⟨u, hu, rfl⟩ := Option.map_eq_some_iff.mp h
      exact .inr (.inl ⟨c, ⟨k, hk⟩, t, u, rfl, hu, rfl⟩)
    · cases h
      exact .inl ⟨_, .goto hpc (.woken c k t (by omega)) nofun t.pc_hasLock _⟩
  case leave r =>
    cases h
    exact .inl ⟨_, .release hpc (.leave r) rfl rfl _⟩
  case cLeave =>
    cases h
    refine .inl ⟨_, .release hpc ?_ rfl ?_ _⟩
    · split
      · exact .cFree
      · exact .cOut
    · split <;> rfl
  case free =>
    cases h
    exact .inl ⟨_, .goto hpc .free nofun rfl _⟩
  case sleep l =>
    cases h
    exact .inl ⟨_, .goto hpc (.sleep l) nofun rfl _⟩
  case locked l =>
    cases h
    exact .inl ⟨_, .release hpc (.locked l) rfl rfl _⟩
  case parting l => exact .inr (.inr ⟨l, rfl, (Option.some.inj h).symm⟩)
  case asleep l =>
    obtain ⟨hs, ⟨⟩⟩ := Option.ite_none_left_eq_some.mp h
    exact .inl ⟨_, hpc ▸ .asleep l, fun _ _ => by simpa using hs, rfl, .inl ⟨rfl, hpc ▸ rfl⟩, rfl,
      fun q e => update_of_ne e _ _, rfl⟩
  case retake l => exact .inl ⟨_, .acquire hpc (.retake l) nofun l.body_hasLock h⟩

theorem next_cases {s s' : St N} {a : Act N} (h : next s a = some s') :
    (∃ p b, Move s p b s') ∨
    (∃ p c q t u, s.pc p = .wake c (Fin.val q) t ∧ s.wakeOne p c q = some u ∧ s' = u.goto p (.wake c (q + 1) t)) ∨
    (∃ p l, s.pc p = .parting l ∧ s' = s.park p l) ∨
    (∃ p, a = .kill p ∧ s' = { s with
      killed := update s.killed p true, sleeping := update s.sleeping p false }) := by
  obtain ⟨-, h⟩ := Option.ite_none_left_eq_some.mp h
  cases a with
  | call p c =>
    obtain ⟨hpc, ⟨⟩⟩ := Option.ite_none_right_eq_some.mp h
    exact .inl ⟨p, _, .goto hpc (.call c) nofun rfl _⟩
  | step p ch =>
    rcases step_cases h with ⟨b, hm⟩ | hw | hl
    · exact .inl ⟨p, b, hm⟩
    · exact .inr (.inl ⟨p, hw⟩)
    · exact .inr (.inr (.inl ⟨p, hl⟩))
  | kill p =>
    obtain ⟨-, ⟨⟩⟩ := Option.ite_none_left_eq_some.mp h
    exact .inr (.inr (.inr ⟨p, rfl, rfl⟩))

/-- A turn of `wakeup`'s loop leaves its entry awake or not sleeping on the channel, and the
    rest as it was. -/
theorem wakeOne_spec {s u : St N} {p q : Fin N} {c : Chan} (h : s.wakeOne p c q = some u) :
    (u = s ∨ u = { s with sleeping := update s.sleeping q false }) ∧
    (q = p ∨ (s.pc q).plock = false ∧ ¬ (u.sleeping q = true ∧ s.chan q = some c)) := by
  unfold St.wakeOne at h
  split at h
  · exact ⟨.inl (Option.some.inj h).symm, .inl ‹_›⟩
  · split at h
    · cases h
    · rename_i hl
      have hl : (s.pc q).plock = false := by simpa using hl
      split at h <;> cases h
      · exact ⟨.inr rfl, .inr ⟨hl, by simp⟩⟩
      · exact ⟨.inl rfl, .inr ⟨hl, ‹_›⟩⟩

/-! ## What an edge keeps -/

variable {pi pi' : Pipe} {killed : Bool} {a b : Pc} {c : Chan}

section

variable (e : Edge N pi killed a b pi')
include e

theorem Edge.pipe : pi' = pi ∨ a.HasLock = true := by
  cases e <;> simp [Pc.HasLock]

theorem Edge.knows (h : a.Knows pi) : b.Knows pi' := by
  cases e with
  | enter c => cases c <;> simp [Call.body, Pc.Knows]
  | retake l => cases l <;> simp [Loop.body, Pc.Knows]
  | woken c k t => cases t <;> simp_all [Then.pc, Pc.Knows]
  | _ => simp_all [Pc.Knows, Pipe.put]

theorem Edge.waits (h : a.Knows pi) {sl : Bool} (hw : b.waits sl = some c) : Calm pi' c := by
  cases e with
  | enter c => cases c <;> simp [Call.body, Pc.waits] at hw
  | retake l => cases l <;> simp [Loop.body, Pc.waits] at hw
  | woken c k t => cases t <;> simp [Then.pc, Pc.waits] at hw
  | locked l => cases l <;> cases hw <;> exact h
  | _ => simp [Pc.waits] at hw

theorem Edge.disturb (hc : Calm pi c) (hc' : ¬ Calm pi' c) : b.HasLock = true ∧ ∀ q : Fin N, b.Owes c q := by
  cases e with
  | wPut | rTake | rBad => cases c <;> simp_all [Calm, Pc.HasLock, Pc.Owes]
  | cSet w => cases c <;> cases w <;> simp_all [Calm, Pc.HasLock, Pc.Owes, Pipe.close, Pipe.full, Pipe.empty]
  | _ => exact absurd hc hc'

end

/-- A kill of a process here is one that `pipewrite` will find with bytes stored since it
    took the lock: it has stored some and will look at `killed` again, or is about to. -/
def Pc.Untimely (pi : Pipe) : Pc → Prop
  | .wTest n i fresh => fresh = false ∧ i < n
  | .wKilled _ _ fresh => fresh = false
  | .wCopy n i _ => i + 1 < n ∧ pi.full = false
  | _ => False

theorem Pc.hasLock_of_untimely (h : a.Untimely pi) : a.HasLock = true := by
  cases a <;> simp_all [Untimely, HasLock]

theorem Edge.untimely (e : Edge N pi killed a b pi') (h : a.Untimely pi → killed = false)
    (hb : b.Untimely pi') : killed = false := by
  cases e with
  | enter c => cases c <;> simp [Call.body, Pc.Untimely] at hb
  | retake l => cases l <;> simp [Loop.body, Pc.Untimely] at hb
  | woken c k t => cases t <;> simp [Then.pc, Pc.Untimely] at hb
  | _ => simp_all [Pc.Untimely]

theorem Edge.owes (e : Edge N pi killed a b pi') (h : a.Knows pi) (hk : c = .nread → a.Untimely pi → killed = false)
    {q : Fin N} (ho : a.Owes c q) : b.HasLock = true ∧ b.Owes c q := by
  cases e with
  | woken c' k t hk =>
    have := ho.2
    omega
  | _ => simp_all [Pc.Owes, Pc.HasLock, Pc.Knows, Pc.Untimely]

/-! ## Facts of every reachable state -/

structure Inv (s : St N) : Prop where
  lock : ∀ q, s.lock = some q ↔ (s.pc q).HasLock = true
  knows : ∀ q, (s.pc q).Knows s.pi
  sleeping : ∀ q, s.sleeping q = true → ∃ l, s.pc q = .asleep l ∧ s.chan q = some l.chan

theorem inv_init (N : Nat) (data : Nat → UInt8) : Inv (init N data) where
  lock q := by simp [init, Pc.HasLock]
  knows q := by simp [init, Pc.Knows]
  sleeping q h := by simp [init] at h

theorem Inv.holder_eq {s : St N} (h : Inv s) {p q : Fin N} (hp : (s.pc p).HasLock = true)
    (hq : (s.pc q).HasLock = true) : q = p :=
  Option.some.inj (((h.lock q).mpr hq).symm.trans ((h.lock p).mpr hp))

theorem Inv.awake_of_ne {s : St N} (h : Inv s) {p : Fin N} (hp : ∀ l, s.pc p ≠ .asleep l) : s.sleeping p = false := by
  by_contra hc
  obtain ⟨l, hl, -⟩ := h.sleeping p (by simpa using hc)
  exact hp l hl

theorem Inv.move {s s' : St N} (h : Inv s) {p : Fin N} {b : Pc} (m : Move s p b s') : Inv s' := by
  refine ⟨fun q => ?_, fun q => ?_, fun q hq => ?_⟩
  · rw [m.pc]
    refine update_ind q ?_ fun q e => ?_
    · rcases m.lock with ⟨h1, h2⟩ | ⟨-, h1, h2⟩ | ⟨-, h1, h2⟩
      · rw [h1, h2, h.lock p]
      · simp [h1, h2]
      · simp [h1, h2]
    · rcases m.lock with ⟨h1, -⟩ | ⟨h0, h1, -⟩ | ⟨h0, h1, -⟩
      · rw [h1, h.lock q]
      · simp [h1, ← h.lock q, h0, Ne.symm e]
      · simp [h1, ← h.lock q, (h.lock p).mpr h0, Ne.symm e]
  · rw [m.pc]
    refine update_ind q (m.edge.knows (h.knows p)) fun q e => ?_
    -- only the holder of the lock knows anything that a change of the pipe could make false
    rcases m.edge.pipe with hpi | hp
    · rw [hpi]; exact h.knows q
    · exact Pc.knows_of_not_hasLock (by simpa using fun hq => e (h.holder_eq hp hq)) _
  · rw [m.sleeping] at hq
    obtain ⟨l, hl, hc⟩ := h.sleeping q hq
    by_cases e : q = p
    · subst e; exact absurd hq (by simp [m.awake l hl])
    · exact ⟨l, by rw [m.pc, update_of_ne e, hl], by rw [m.chan q e, hc]⟩

theorem sleeping_of_update {f : Fin N → Bool} {q r : Fin N} : update f q false r = true → f r = true :=
  update_ind r nofun fun _ _ => id

theorem Inv.wake {s : St N} (h : Inv s) (q : Fin N) (k : Fin N → Bool) :
    Inv { s with killed := k, sleeping := update s.sleeping q false } :=
  ⟨h.lock, h.knows, fun r hr => h.sleeping r (sleeping_of_update hr)⟩

theorem Inv.turn {s : St N} (h : Inv s) {p : Fin N} {c : Chan} {k : Nat} {t : Then} (hpc : s.pc p = .wake c k t) :
    Inv (s.goto p (.wake c (k + 1) t)) := by
  have hk := h.knows p
  rw [hpc] at hk
  refine ⟨fun q => ?_, fun q => ?_, fun q hq => ?_⟩ <;> by_cases e : q = p
  · subst e; simpa [St.goto, hpc, Pc.HasLock] using h.lock q
  · simpa [St.goto, update_of_ne e] using h.lock q
  · subst e; cases t <;> simp_all [St.goto, Pc.Knows]
  · simpa [St.goto, update_of_ne e] using h.knows q
  · subst e; exact absurd hq (by simp [St.goto, h.awake_of_ne (p := q) (by simp [hpc])])
  · simpa [St.goto, update_of_ne e] using h.sleeping q hq

theorem Inv.park {s : St N} (h : Inv s) {p : Fin N} {l : Loop} (hpc : s.pc p = .parting l) :
    Inv (s.park p l) := by
  refine ⟨fun q => ?_, fun q => ?_, fun q hq => ?_⟩ <;> by_cases e : q = p
  · subst e; simpa [St.park, St.goto, hpc, Pc.HasLock] using h.lock q
  · simpa [St.park, St.goto, update_of_ne e] using h.lock q
  · subst e; simp [St.park, St.goto, Pc.Knows]
  · simpa [St.park, St.goto, update_of_ne e] using h.knows q
  · subst e; exact ⟨l, by simp [St.park, St.goto], by simp [St.park]⟩
  · simpa [St.park, St.goto, update_of_ne e] using h.sleeping q (by simpa [St.park, update_of_ne e] using hq)

theorem inv_next {s s' : St N} {a : Act N} (h : Inv s) (hs : next s a = some s') : Inv s' := by
  rcases next_cases hs with ⟨p, b, m⟩ | ⟨p, c, q, t, u, hpc, hu, rfl⟩ | ⟨p, l, hpc, rfl⟩ | ⟨p, -, rfl⟩
  · exact h.move m
  · rcases (wakeOne_spec hu).1 with rfl | rfl
    · exact h.turn hpc
    · exact (h.wake q _).turn hpc
  · exact h.park hpc
  · exact h.wake p _

theorem inv {data : Nat → UInt8} {s : St N} (h : (sys N data).Reach s) : Inv s :=
  Lib.Sys.invariant (I := Inv) (by rintro s rfl; exact inv_init N data) (fun _ _ _ _ => inv_next) h

/-! ## Debts -/

/-- `q` has set out to sleep on `c`. -/
def Waits (s : St N) (c : Chan) (q : Fin N) : Prop := (s.pc q).waits (s.sleeping q) = some c

def Owes (s : St N) (c : Chan) (w q : Fin N) : Prop := s.lock = some w ∧ (s.pc w).Owes c q

/-- Every sleeper on `c` sleeps in the calm, or is owed a wakeup. -/
def Owed (s : St N) (c : Chan) : Prop := Lib.Covered (Waits s c) (Calm s.pi c) (Owes s c)

/-- No killed process is at a point where a kill is untimely. -/
def Spared (s : St N) : Prop := ∀ q, (s.pc q).Untimely s.pi → s.killed q = false

theorem owed_move {s s' : St N} {p : Fin N} (hI : Inv s) (m : Move s p b s')
    (hk : c = .nread → (s.pc p).Untimely s.pi → s.killed p = false) (h : Owed s c) : Owed s' c := by
  have hI' := hI.move m
  have hpc : s'.pc p = b := by rw [m.pc, update_self]
  have hne : ∀ q, q ≠ p → s'.pc q = s.pc q := fun q e => by rw [m.pc, update_of_ne e]
  refine h.step (fun q hq => ?_) (fun hc hc' => ?_) (fun w q ho hq => .inr ?_)
  · rw [Waits, m.pc, m.sleeping] at hq
    revert hq
    exact update_ind q (fun hq => .inr (m.edge.waits (hI.knows p) hq)) fun _ _ => .inl
  · obtain ⟨hl, ho⟩ := m.edge.disturb hc hc'
    exact ⟨p, fun q _ => ⟨(hI'.lock p).mpr (hpc ▸ hl), hpc ▸ ho q⟩⟩
  · by_cases e : w = p
    · subst e
      obtain ⟨hl, ho⟩ := m.edge.owes (hI.knows w) hk ho.2
      exact ⟨w, (hI'.lock w).mpr (hpc ▸ hl), hpc ▸ ho⟩
    · exact ⟨w, (hI'.lock w).mpr (hne w e ▸ (hI.lock w).mp ho.1), hne w e ▸ ho.2⟩

theorem owed_turn {s u : St N} {p q : Fin N} {t : Then} {c' : Chan} (hI : Inv s) (hpc : s.pc p = .wake c' q t)
    (hu : s.wakeOne p c' q = some u) (h : Owed s c) : Owed (u.goto p (.wake c' (q + 1) t)) c := by
  obtain ⟨hu, hq⟩ := wakeOne_spec hu
  obtain ⟨hpcs, hpi, hlk⟩ : u.pc = s.pc ∧ u.pi = s.pi ∧ u.lock = s.lock := by rcases hu with rfl | rfl <;> exact ⟨rfl, rfl, rfl⟩
  have hsl : ∀ r, u.sleeping r = true → s.sleeping r = true := by
    rcases hu with rfl | rfl
    · exact fun _ => id
    · exact fun _ => sleeping_of_update
  have hp : ∀ r, Waits (u.goto p (.wake c' (q + 1) t)) c r → r ≠ p := by
    rintro r hr rfl
    simp [Waits, St.goto, Pc.waits] at hr
  have hw : ∀ r, Waits (u.goto p (.wake c' (q + 1) t)) c r →
      ∃ l, l.chan = c ∧ (s.pc r = .parting l ∨ s.pc r = .asleep l ∧ u.sleeping r = true) := by
    intro r hr
    have := Pc.waits_eq_some.mp hr
    rwa [St.goto_pc, update_of_ne (hp r hr), hpcs] at this
  refine h.step (fun r hr => .inl ?_) (fun hc hc' => absurd hc ?_) (fun w r ho hr => .inr ⟨p, ?_⟩)
  · obtain ⟨l, hl, hr⟩ := hw r hr
    exact Pc.waits_eq_some.mpr ⟨l, hl, hr.imp_right fun hr => ⟨hr.1, hsl r hr.2⟩⟩
  · rwa [St.goto_pi, hpi] at hc'
  · -- `p` has the lock, so the debt is its own
    obtain rfl : w = p := hI.holder_eq (by simp [hpc, Pc.HasLock]) ((hI.lock w).mp ho.1)
    have hd := ho.2
    rw [hpc] at hd
    refine ⟨by rw [St.goto_lock, hlk]; exact ho.1, ?_⟩
    have hlt : r ≠ q := by
      rintro rfl
      obtain ⟨l, hl, hr'⟩ := hw r hr
      rcases hq with hq | ⟨hpl, hq⟩
      · exact hp r hr hq
      · rcases hr' with e | ⟨e, hs⟩
        · simp [e, Pc.plock] at hpl
        · obtain ⟨l', hl', hch⟩ := hI.sleeping r (hsl r hs)
          obtain rfl : l = l' := by simpa [e] using hl'
          exact hq ⟨hs, by rw [hch, hl, hd.1]⟩
    have := hd.2
    rw [St.goto_pc, update_self]
    exact ⟨hd.1, by omega⟩

theorem owed_park {s : St N} {p : Fin N} {l : Loop} (hpc : s.pc p = .parting l) (h : Owed s c) :
    Owed (s.park p l) c := by
  refine h.step (fun r hr => .inl ?_) (fun hc hc' => absurd hc hc') (fun w r ho _ => .inr ⟨w, ho.1, ?_⟩)
  · by_cases e : r = p
    · subst e
      simpa [Waits, St.park, St.goto, hpc, Pc.waits] using hr
    · simpa [Waits, St.park, St.goto, update_of_ne e] using hr
  · by_cases e : w = p
    · subst e
      exact absurd ho.2 (by simp [hpc, Pc.Owes])
    · simpa [St.park, St.goto, update_of_ne e] using ho.2

theorem owed_kill {s : St N} {p : Fin N} (h : Owed s c) :
    Owed { s with killed := update s.killed p true, sleeping := update s.sleeping p false } c := by
  refine h.step (fun r hr => .inl ?_) (fun hc hc' => absurd hc hc') (fun w r ho _ => .inr ⟨w, ho⟩)
  obtain ⟨l, hl, hr⟩ := Pc.waits_eq_some.mp hr
  exact Pc.waits_eq_some.mpr ⟨l, hl, hr.imp_right fun hr => ⟨hr.1, sleeping_of_update hr.2⟩⟩

theorem owed_next {s s' : St N} {x : Act N} (hI : Inv s) (hx : next s x = some s') (hk : c = .nread → Spared s)
    (h : Owed s c) : Owed s' c := by
  rcases next_cases hx with ⟨p, b, m⟩ | ⟨p, c', q, t, u, hpc, hu, rfl⟩ | ⟨p, l, hpc, rfl⟩ | ⟨p, -, rfl⟩
  · exact owed_move hI m (fun e => hk e p) h
  · exact owed_turn hI hpc hu h
  · exact owed_park hpc h
  · exact owed_kill h

theorem owed_init (N : Nat) (data : Nat → UInt8) (c : Chan) : Owed (init N data) c := by
  intro q hq
  simp [Waits, init, Pc.waits] at hq

theorem owed_nwrite {data : Nat → UInt8} {s : St N} (h : (sys N data).Reach s) : Owed s .nwrite :=
  Lib.Sys.invariant (I := (Owed · .nwrite)) (by rintro s rfl; exact owed_init N data _)
    (fun _ _ _ hr ih hx => owed_next (inv hr) hx nofun ih) h

/-! ## Readers, when no kill is untimely -/

/-- No kill hits a `pipewrite` that will then leave bytes behind without a wakeup. -/
def Timely (s : St N) (a : Act N) : Prop := ∀ p, a = .kill p → ¬ (s.pc p).Untimely s.pi

theorem spared_move {s s' : St N} {p : Fin N} (hI : Inv s) (m : Move s p b s') (h : Spared s) : Spared s' := by
  intro q
  rw [m.killed, m.pc]
  refine update_ind q (m.edge.untimely (h p)) fun q e hq => ?_
  rcases m.edge.pipe with hpi | hp
  · exact h q (hpi ▸ hq)
  · exact absurd (hI.holder_eq hp (Pc.hasLock_of_untimely hq)) e

theorem spared_turn {s u : St N} {p q : Fin N} {t : Then} {c' : Chan} (hu : s.wakeOne p c' q = some u)
    (h : Spared s) : Spared (u.goto p (.wake c' (q + 1) t)) := by
  intro r
  rw [St.goto_pc]
  refine update_ind r nofun fun r _ hr => ?_
  rcases (wakeOne_spec hu).1 with rfl | rfl <;> exact h r hr

theorem spared_next {s s' : St N} {x : Act N} (hI : Inv s) (hx : next s x = some s') (ht : Timely s x)
    (h : Spared s) : Spared s' := by
  rcases next_cases hx with ⟨p, b, m⟩ | ⟨p, c', q, t, u, -, hu, rfl⟩ | ⟨p, l, hpc, rfl⟩ | ⟨p, rfl, rfl⟩
  · exact spared_move hI m h
  · exact spared_turn hu h
  · exact fun r => update_ind (motive := fun r a => Pc.Untimely s.pi a → s.killed r = false) r nofun fun r _ => h r
  · exact fun r => update_ind (motive := fun r b => (s.pc r).Untimely s.pi → b = false) r (fun hr => absurd hr (ht p rfl))
      fun r _ => h r

theorem spared {data : Nat → UInt8} {s : St N} (h : ((sys N data).restrict Timely).Reach s) : Spared s :=
  Lib.Sys.invariant (I := Spared) (by rintro s rfl q hq; simp [init, Pc.Untimely] at hq)
    (fun _ _ _ hr ih hx => spared_next (inv hr.mono) hx.1 hx.2 ih) h

theorem owed_nread {data : Nat → UInt8} {s : St N} (h : ((sys N data).restrict Timely).Reach s) : Owed s .nread :=
  Lib.Sys.invariant (I := (Owed · .nread)) (by rintro s rfl; exact owed_init N data _)
    (fun _ _ _ hr ih hx => owed_next (inv hr.mono) hx.1 (fun _ => spared hr) ih) h

def Asleep (s : St N) (q : Fin N) (c : Chan) : Prop := s.sleeping q = true ∧ s.chan q = some c

theorem calm_of_asleep {s : St N} (hI : Inv s) (h : Owed s c) (hl : s.lock = none) {q : Fin N} (hq : Asleep s q c) :
    Calm s.pi c := by
  refine h.calm_of_no_debt (q := q) (fun w q ho => by simp [Owes, hl] at ho) ?_
  obtain ⟨l, hpc, hch⟩ := hI.sleeping q hq.1
  exact Pc.waits_eq_some.mpr ⟨l, Option.some.inj (hch.symm.trans hq.2), .inr ⟨hpc, hq.1⟩⟩

theorem not_full_of_lt (h : pi.nwrite - pi.nread < BitVec.ofNat 32 PIPESIZE) : pi.full = false := by
  simp only [Pipe.full, decide_eq_false_iff_not]
  intro e
  rw [e, BitVec.add_comm, BitVec.add_sub_cancel] at h
  exact absurd h (BitVec.lt_irrefl _)

/-- Whenever `pi->lock` is free: nobody sleeps on `&pi->nread` with a byte to read or the write
    end closed, in the runs without an untimely kill; nobody sleeps on `&pi->nwrite` with room
    for a byte or the read end closed, in any run. -/
theorem no_lost_wakeup (N : Nat) (data : Nat → UInt8) :
    (∀ s : St N, ((sys N data).restrict Timely).Reach s → s.lock = none → ∀ q, Asleep s q .nread →
      ¬ (s.pi.nread ≠ s.pi.nwrite ∨ s.pi.writeopen = false)) ∧
    (∀ s : St N, (sys N data).Reach s → s.lock = none → ∀ q, Asleep s q .nwrite →
      ¬ (s.pi.nwrite - s.pi.nread < BitVec.ofNat 32 PIPESIZE ∨ s.pi.readopen = false)) := by
  refine ⟨fun s hr hl q hq => ?_, fun s hr hl q hq => ?_⟩
  · obtain ⟨he, hw⟩ := calm_of_asleep (inv hr.mono) (owed_nread hr) hl hq
    rintro (h | h)
    · exact h (by simpa [Pipe.empty] using he)
    · simp [hw] at h
  · obtain ⟨hf, ho⟩ := calm_of_asleep (inv hr) (owed_nwrite hr) hl hq
    rintro (h | h)
    · simp [not_full_of_lt h] at hf
    · simp [ho] at h

/-- `p` reads from the empty pipe and goes to sleep. -/
def readerSleeps (p : Fin 2) : List (Act 2) :=
  .call p (.read 1) :: List.replicate 6 (.step p none)

theorem no_lost_wakeup_reader : ∃ s : St 2, ((sys 2 fun _ => 0).restrict Timely).Reach s ∧ s.lock = none ∧
    Asleep s 0 .nread ∧ ¬ (s.pi.nread ≠ s.pi.nwrite ∨ s.pi.writeopen = false) := by
  have hrun : ∃ s, Lib.Sys.runAll next (fun _ a => match a with | .kill _ => false | _ => true)
      (init 2 fun _ => 0) (readerSleeps 0) = some s ∧ s.lock = none ∧ Asleep s 0 .nread := ⟨_, rfl, rfl, rfl, rfl⟩
  obtain ⟨s, hs, hl, ha⟩ := hrun
  have hr : ((sys 2 fun _ => 0).restrict Timely).Reach s :=
    Lib.Sys.reach_of_runAll (fun _ a h p e => by simp [e] at h) (.init rfl) hs
  exact ⟨s, hr, hl, ha, (no_lost_wakeup 2 fun _ => 0).1 s hr hl 0 ha⟩

/-- Then `p` writes two bytes, and is killed after the first. -/
def writerKilled (p : Fin 2) : List (Act 2) :=
  .call p (.write 2) :: List.replicate 4 (.step p (some 7)) ++ .kill p :: List.replicate 3 (.step p none)

/-- The writer returns -1 with the lock free, a byte in the pipe and the reader asleep. -/
theorem killed_writer_strands_reader : ∃ s : St 2, (sys 2 fun _ => 0).Reach s ∧ s.lock = none ∧ s.ret 1 = -1 ∧
    Asleep s 0 .nread ∧ s.pi.nread ≠ s.pi.nwrite := by
  have hrun : ∃ s, Lib.Sys.runAll next (fun _ _ => true) (init 2 fun _ => 0) (readerSleeps 0 ++ writerKilled 1) = some s ∧
      s.lock = none ∧ s.ret 1 = -1 ∧ Asleep s 0 .nread ∧ s.pi.nread ≠ s.pi.nwrite :=
    ⟨_, rfl, rfl, rfl, ⟨rfl, rfl⟩, by decide⟩
  obtain ⟨s, hs, h⟩ := hrun
  exact ⟨s, Lib.Sys.reach_of_runAll_true rfl hs, h⟩

end Xv6.Pipe
