/-
  Xv6.Proc.Control — who holds which lock, which CPU runs which process, and what the state
  of each slot then is: the invariant that every other result on the process table uses.
-/

import Xv6.Lib.Lock
import Xv6.Proc.Steps


namespace Xv6.Proc

open Function (update update_self update_of_ne)

variable {N C : Nat} {ini p q i : Fin N} {c c' : Fin C} {s s' : St N C}

/-! ## The memory operations -/

variable {m m' : Mem N C} {op : Op N}

/-- An operation changes the field that it names, and no other. -/
structure Op.Frame (op : Op N) (m m' : Mem N C) : Prop where
  state : (∀ i v, op ≠ .state i v) → m'.state = m.state
  pid : (∀ i k, op ≠ .pid i k) → m'.pid = m.pid
  killed : (∀ i v, op ≠ .killed i v) → m'.killed = m.killed
  xstate : (∀ i st, op ≠ .xstate i st) → m'.xstate = m.xstate
  parent : (∀ i q, op ≠ .parent i q) → m'.parent = m.parent
  chan : (∀ i ch, op ≠ .chan i ch) → m'.chan = m.chan
  nextpid : (∀ k, op ≠ .nextpid k) → m'.nextpid = m.nextpid
  proc : (∀ q, op ≠ .proc q) → m'.proc = m.proc

theorem Op.frame (h : op.run c m = some m') : op.Frame m m' := by
  cases op with
  | acquire l =>
    simp only [Op.run] at h
    split at h <;> cases h
    exact ⟨fun _ => rfl, fun _ => rfl, fun _ => rfl, fun _ => rfl, fun _ => rfl, fun _ => rfl, fun _ => rfl, fun _ => rfl⟩
  | _ =>
    cases h
    constructor <;> intro hn <;> first | rfl | exact absurd rfl (hn _ _) | exact absurd rfl (hn _)

theorem Op.state_at (h : op.run c m = some m') (i : Fin N) : m'.state i = m.state i ∨ op = .state i (m'.state i) := by
  cases op with
  | state j v =>
    cases h
    by_cases hi : i = j
    · subst hi; simp
    · exact .inl (update_of_ne hi ..)
  | _ => exact .inl (congrFun ((Op.frame h).state nofun) i)

theorem Op.run_lock (h : op.run c m = some m') :
    (∃ l, op = .acquire l ∧ m.lock l = none ∧ m'.lock = update m.lock l (some c)) ∨
    (∃ l, op = .release l ∧ m'.lock = update m.lock l none) ∨ (op.Plain ∧ m'.lock = m.lock) := by
  cases op with
  | acquire l =>
    simp only [Op.run] at h
    split at h <;> cases h
    exact .inl ⟨l, rfl, ‹_›, rfl⟩
  | release l => cases h; exact .inr (.inl ⟨l, rfl, rfl⟩)
  | _ => cases h; exact .inr (.inr ⟨trivial, rfl⟩)

/-! ## Who holds what -/

/-- Whether `yield` has taken the process's lock. -/
def Irq.locked : Irq → Bool
  | .store | .sched | .rel => true
  | _ => false

/-- What process `p` holds when it runs. -/
def St.Thread (s : St N C) (p : Fin N) (l : Lock N) : Prop :=
  ((s.irq p).locked = true ∧ l = .proc p) ∨ (s.pc p).Holds p l

/-- What CPU `c` holds: its scheduler, or the process that it runs. -/
def St.Holds (s : St N C) (c : Fin C) (l : Lock N) : Prop :=
  (s.spc c).Holds l ∨ ∃ p, s.spc c = .run p ∧ s.Thread p l

/-- The state of a process that runs. -/
@[grind] def St.self (s : St N C) (p : Fin N) : PState := if s.irq p = .sched then .runnable else (s.pc p).self

/-- A process that runs on when it is switched to, with its lock held: it has slept, yielded
    or never run. -/
def St.Ready (s : St N C) (p : Fin N) : Prop :=
  (s.irq p = .rel ∧ (s.pc p).Open p) ∨ (s.irq p = .none ∧ (s.pc p = .forkret ∨ ∃ w, s.pc p = .sTidy w))

/-- A slot that no CPU runs. -/
def St.Rest (s : St N C) (p : Fin N) : Prop :=
  match s.mem.state p with
  | .unused | .used => s.irq p = .none ∧ (s.pc p = .dead ∨ s.pc p = .forkret)
  | .sleeping => s.irq p = .none ∧ ∃ w, s.pc p = .sTidy w ∧ s.mem.chan p = some (w.chan p)
  | .runnable | .running => s.Ready p
  | .zombie => s.irq p = .none ∧ s.pc p = .dead

structure Control (s : St N C) : Prop where
  lock : Lib.Locked s.mem.lock s.Holds
  irq : ∀ p, s.irq p ≠ .none → (s.pc p).Open p
  proc : ∀ c p, s.mem.proc c = some p ↔ s.spc c = .run p ∨ s.spc c = .back p
  one : ∀ c c' p, (s.spc c).busy = some p → (s.spc c').busy = some p → c = c'
  self : ∀ c p, s.spc c = .run p → s.mem.state p = s.self p
  running : ∀ p, s.mem.state p = .running → ∃ c, s.spc c = .run p ∨ s.spc c = .setProc p
  back : ∀ c p, s.spc c = .back p → s.mem.state p ≠ .unused ∧ s.mem.state p ≠ .used
  rest : ∀ p, (∀ c, s.spc c ≠ .run p) → s.Rest p
  expects : ∀ p i v, (s.pc p).expects = some (i, v) → s.mem.state i = v
  sched : ∀ c i v, (s.spc c).expects = some (i, v) → s.mem.state i = v
  owner : ∀ p q i, (s.pc p).Owns i → (s.pc q).Owns i → p = q
  setup : ∀ p i, (s.pc p).setup = some i → s.pc i = .forkret
  drowsy : ∀ p w, (s.pc p).drowsy = some w → s.mem.chan p = some (w.chan p)

/-! ## What follows at once -/

theorem holds_run (hc : s.spc c = .run p) (l : Lock N) : s.Holds c l ↔ s.Thread p l := by
  unfold St.Holds
  rw [hc]
  constructor
  · rintro (h | ⟨q, hq, h⟩)
    · cases l <;> cases h
    · cases hq; exact h
  · exact fun h => .inr ⟨p, rfl, h⟩

theorem holds_sched (hc : ∀ p, s.spc c ≠ .run p) (l : Lock N) : s.Holds c l ↔ (s.spc c).Holds l :=
  or_iff_left fun ⟨p, hp, _⟩ => hc p hp

theorem St.Ready.thread (h : s.Ready p) (l : Lock N) : s.Thread p l ↔ l = .proc p := by
  unfold St.Thread
  rcases h with ⟨hi, ho⟩ | ⟨hi, hp | ⟨w, hp⟩⟩
  · simp [hi, Irq.locked, ho.not_holds]
  · cases l <;> simp [hi, Irq.locked, hp, Pc.Holds, Pc.slot, Pc.waitLock, Pc.pidLock]
  · cases l <;> simp [hi, Irq.locked, hp, Pc.Holds, Pc.slot, Pc.waitLock, Pc.pidLock]

theorem St.Ready.self (h : s.Ready p) : s.self p = .running := by
  unfold St.self
  rcases h with ⟨hi, ho⟩ | ⟨hi, hp | ⟨w, hp⟩⟩
  · rw [hi, if_neg (by decide)]
    by_contra hne
    exact ho.not_holds _ (Pc.self_holds hne)
  · simp [hi, hp, Pc.self]
  · simp [hi, hp, Pc.self]

theorem St.Rest.holds (h : s.Rest p) {l : Lock N} (hl : (s.pc p).Holds p l) :
    s.pc p = .forkret ∨ ∃ w, s.pc p = .sTidy w := by
  have hdead : s.pc p = .dead → False := fun hp => by
    rw [hp] at hl
    cases l <;> simp [Pc.Holds, Pc.slot, Pc.waitLock, Pc.pidLock] at hl
  have hready : s.Ready p → s.pc p = .forkret ∨ ∃ w, s.pc p = .sTidy w := by
    rintro (⟨-, ho⟩ | ⟨-, h⟩)
    · exact absurd hl (ho.not_holds l)
    · exact h
  unfold St.Rest at h
  split at h
  · exact .inl (h.2.resolve_left hdead)
  · exact .inl (h.2.resolve_left hdead)
  · obtain ⟨-, w, hw, -⟩ := h; exact .inr ⟨w, hw⟩
  · exact hready h
  · exact hready h
  · exact (hdead h.2).elim

theorem Control.on_cpu (h : Control s) {l : Lock N} (hl : (s.pc p).Holds p l) (hf : s.pc p ≠ .forkret)
    (ht : ∀ w, s.pc p ≠ .sTidy w) : ∃ c, s.spc c = .run p := by
  by_contra hno
  rcases (h.rest p fun c hc => hno ⟨c, hc⟩).holds hl with hp | ⟨w, hp⟩
  · exact hf hp
  · exact ht w hp

theorem Control.wait_cpu (h : Control s) (hw : (s.pc p).waitLock = true) : ∃ c, s.spc c = .run p :=
  h.on_cpu (l := .wait) hw (fun hf => by rw [hf] at hw; cases hw) fun w hf => by rw [hf] at hw; cases hw

theorem Control.runs (h : Control s) {v : PState} (he : (s.pc p).expects = some (i, v)) (hh : (s.pc p).Holds p (.proc i)) :
    ∃ c, s.spc c = .run p ∧ s.Holds c (.proc i) := by
  obtain ⟨c, hc⟩ := h.on_cpu hh (fun hf => by rw [hf] at he; cases he) fun w hf => by rw [hf] at he; cases he
  exact ⟨c, hc, (holds_run hc _).mpr (.inr hh)⟩

theorem Control.self_locked (h : Control s) (hc : s.spc c = .run p) (hne : s.mem.state p ≠ .running) :
    s.Holds c (.proc p) := by
  rw [holds_run hc]
  rw [h.self c p hc] at hne
  unfold St.self at hne
  split at hne
  · exact .inl ⟨by rw [‹s.irq p = _›]; rfl, rfl⟩
  · exact .inr (Pc.self_holds hne)

theorem Control.self_ne (h : Control s) (hc : s.spc c = .run p) : s.mem.state p ≠ .unused ∧ s.mem.state p ≠ .used := by
  rw [h.self c p hc]
  unfold St.self
  split
  · exact ⟨nofun, nofun⟩
  · cases s.pc p <;> exact ⟨nofun, nofun⟩

theorem Control.run_unique (h : Control s) (hc : s.spc c = .run p) (hc' : s.spc c' = .run p) : c = c' :=
  h.one c c' p (by rw [hc]; rfl) (by rw [hc']; rfl)

theorem holds_spc (hh : (s.spc c).Holds (.proc i)) : s.Holds c (.proc i) := .inl hh

/-! ## Who stores a state -/

/-- CPU `c` may store state `v` of slot `i`: it runs `i`, or a process that counts on the state
    it overwrites, or it is the scheduler that runs `i` or wakes it. -/
inductive Writes (s : St N C) (c : Fin C) (i : Fin N) (v : PState) : Prop
  | own : s.spc c = .run i → s.mem.state i = .running → s.Holds c (.proc i) → Writes s c i v
  | peer {p : Fin N} {u : PState} : s.spc c = .run p → (s.pc p).expects = some (i, u) → Change u v →
      (s.Holds c (.proc i) ∨ u = .used) → (v = .runnable → u = .used → (s.pc p).setup = some i) → Writes s c i v
  | sched {u : PState} : (s.spc c).expects = some (i, u) →
      (u = .runnable ∧ v = .running ∨ u = .sleeping ∧ v = .runnable) → Writes s c i v

theorem Control.yield_state (h : Control s) (hc : s.spc c = .run p) (hi : s.irq p ≠ .none) (hs : s.irq p ≠ .sched) :
    s.mem.state p = .running := by
  rw [h.self c p hc, St.self, if_neg hs]
  by_contra hne
  exact (h.irq p hi).not_holds _ (Pc.self_holds hne)

theorem Control.state_step (h : Control s) (e : Eff ini s c s') :
    s'.mem.state = s.mem.state ∨ ∃ i v, s'.mem.state = update s.mem.state i v ∧ Writes s c i v := by
  cases e with
  | @sched op x m e hm =>
    by_cases hop : ∃ i v, op = .state i v
    · obtain ⟨i, v, rfl⟩ := hop
      cases hm
      refine .inr ⟨i, v, rfl, ?_⟩
      rcases e.state with ⟨he, rfl⟩ | ⟨he, rfl⟩
      · exact .sched he (.inl ⟨rfl, rfl⟩)
      · exact .sched he (.inr ⟨rfl, rfl⟩)
    · exact .inl ((Op.frame hm).state fun i v hv => hop ⟨i, v, hv⟩)
  | @code p op b m hc hi e hm =>
    by_cases hop : ∃ i v, op = .state i v
    · obtain ⟨i, v, rfl⟩ := hop
      cases hm
      refine .inr ⟨i, v, rfl, ?_⟩
      rcases e.state with ⟨rfl, ha, -, hh, -⟩ | ⟨u, he, hch, hh, hset, -⟩
      · refine .own hc ?_ ((holds_run hc _).mpr (.inr hh))
        rw [h.self c i hc, St.self, hi, if_neg (by decide), ha]
      · exact .peer hc he hch (hh.imp_left fun hh => (holds_run hc _).mpr (.inr hh)) hset
    · exact .inl ((Op.frame hm).state fun i v hv => hop ⟨i, v, hv⟩)
  | leave | preempt | yieldLeave => exact .inl rfl
  | @yield p op y m hc hp hm =>
    cases hx : s.irq p <;> rw [hx] at hp <;> cases hp
    · exact .inl ((Op.frame hm).state nofun)
    · cases hm
      exact .inr ⟨p, _, rfl, .own hc (h.yield_state hc (by simp [hx]) (by simp [hx]))
        ((holds_run hc _).mpr (.inl ⟨by rw [hx]; rfl, rfl⟩))⟩
    · exact .inl ((Op.frame hm).state nofun)

theorem Control.state_at (h : Control s) (e : Eff ini s c s') (q : Fin N) :
    s'.mem.state q = s.mem.state q ∨ Writes s c q (s'.mem.state q) := by
  rcases h.state_step e with he | ⟨i, v, he, w⟩
  · exact .inl (congrFun he q)
  · rw [he]
    by_cases hq : q = i
    · subst hq; rw [update_self]; exact .inr w
    · rw [update_of_ne hq]; exact .inl rfl

section

variable {v u : PState}

section

variable (h : Control s) (w : Writes s c i v)
include h w

theorem Writes.not_run (hc : s.spc c' = .run i) (hne : c' ≠ c) : False := by
  cases w with
  | own hr => exact hne (h.run_unique hc hr)
  | @peer p u hr he hch hh =>
    have hst := h.expects p i u he
    have hnu : u ≠ .used := hst ▸ (h.self_ne hc).2
    exact hne (h.lock.unique (h.self_locked hc (hst ▸ (Pc.expects_ne he).1)) (hh.resolve_right hnu))
  | @sched u he hv =>
    have hst := h.sched c i u he
    have hnr : u ≠ .running := by rcases hv with ⟨rfl, -⟩ | ⟨rfl, -⟩ <;> nofun
    exact hne (h.lock.unique (h.self_locked hc (hst ▸ hnr)) (holds_spc (SPc.expects_holds he).1))

theorem Writes.not_expects (he : (s.pc q).expects = some (i, u))
    (hq : s.spc c = .run q → s.mem.state i = .running) : False := by
  have hst := h.expects q i u he
  have hne : s.mem.state i ≠ .running := hst ▸ (Pc.expects_ne he).1
  have hnq : s.spc c ≠ .run q := fun hc => hne (hq hc)
  -- whoever counts on the slot under its lock is not on this CPU
  have hlock : s.Holds c (.proc i) → u = .used := fun hh => by
    rcases Pc.expects_slot (p := q) he with hs | hu
    · obtain ⟨c', hc', hh'⟩ := h.runs he hs
      cases h.lock.unique hh hh'
      exact absurd hc' hnq
    · exact hu
  cases w with
  | own _ hr => exact hne hr
  | @peer p u' hr he' _ hh =>
    obtain rfl : u' = u := (h.expects p i u' he').symm.trans hst
    have hu : u' = .used := hh.elim hlock id
    subst hu
    exact hnq (h.owner p q i (.inr he') (.inr he) ▸ hr)
  | @sched u' he' hv =>
    obtain rfl : u' = u := (h.sched c i u' he').symm.trans hst
    have hu := hlock (holds_spc (SPc.expects_holds he').1)
    rcases hv with ⟨rfl, -⟩ | ⟨rfl, -⟩ <;> cases hu

theorem Writes.not_sched (he : (s.spc c').expects = some (i, u)) (hne : c' ≠ c) : False := by
  have hst := h.sched c' i u he
  obtain ⟨hh', hu⟩ := SPc.expects_holds he
  have hno : ¬ s.Holds c (.proc i) := fun hh => hne (h.lock.unique (holds_spc hh') hh)
  cases w with
  | own _ _ hh => exact hno hh
  | @peer p u' _ he' _ hh =>
    have hu' := hh.resolve_left hno
    rw [← hst, h.expects p i u' he', hu'] at hu
    simp at hu
  | sched he' => exact hno (holds_spc (SPc.expects_holds he').1)

theorem Writes.not_back (hb : s.spc c' = .back i) (hne : c' ≠ c) : False := by
  have hno : ¬ s.Holds c (.proc i) := fun hh => hne (h.lock.unique (holds_spc (by rw [hb]; rfl)) hh)
  cases w with
  | own _ _ hh => exact hno hh
  | @peer p u _ he _ hh => exact (h.back c' i hb).2 ((h.expects p i u he).trans (hh.resolve_left hno))
  | sched he => exact hno (holds_spc (SPc.expects_holds he).1)

end

end

/-! ## What a step leaves alone -/

theorem Eff.spc_other (e : Eff ini s c s') (hne : c' ≠ c) : s'.spc c' = s.spc c' := by
  cases e with
  | @code p op => cases op <;> rfl
  | preempt | yield => rfl
  | sched | leave | yieldLeave => exact update_of_ne hne _ _

theorem ne_of_run (hq : s.spc c ≠ .run q) (hc : s.spc c = .run p) : q ≠ p := by
  rintro rfl; exact hq hc

theorem Eff.irq_other (e : Eff ini s c s') (hq : s.spc c ≠ .run q) : s'.irq q = s.irq q := by
  cases e with
  | @code p op => cases op <;> rfl
  | sched | leave => rfl
  | preempt hc | yield hc | yieldLeave hc => exact update_of_ne (ne_of_run hq hc) _ _

theorem St.start_pc (s : St N C) (op : Op N) (q : Fin N) : (s.start op).pc q = s.pc q ∨
    (op = .context q ∧ (s.start op).pc q = .forkret) := by
  cases op with
  | context i =>
    by_cases e : q = i
    · subst e; exact .inr ⟨rfl, update_self ..⟩
    · exact .inl (update_of_ne e _ _)
  | _ => exact .inl rfl

theorem Eff.pc_other (e : Eff ini s c s') (hq : s.spc c ≠ .run q) :
    s'.pc q = s.pc q ∨ (s'.pc q = .forkret ∧ ∃ p, s.spc c = .run p ∧ (s.pc p).expects = some (q, .used)) := by
  cases e with
  | @code p op b m hc _ e =>
    have hne : q ≠ p := ne_of_run hq hc
    show update (s.start op).pc p b q = _ ∨ _
    rw [update_of_ne hne]
    refine (s.start_pc op q).imp_right fun ⟨hop, hf⟩ => ?_
    subst hop
    exact ⟨(update_of_ne hne ..).trans hf, p, hc, e.context⟩
  | sched | preempt | yield | yieldLeave => exact .inl rfl
  | leave hc => exact .inl (update_of_ne (ne_of_run hq hc) _ _)

section

variable (h : Control s) (e : Eff ini s c s') (hne : c' ≠ c)
include h e hne

theorem Control.pc_run (hc : s.spc c' = .run q) : s'.pc q = s.pc q := by
  rcases e.pc_other fun hr => hne (h.run_unique hc hr) with he | ⟨-, p, -, he⟩
  · exact he
  · exact absurd (h.expects p q _ he) (h.self_ne hc).2

theorem Control.state_run (hc : s.spc c' = .run q) : s'.mem.state q = s.mem.state q :=
  (h.state_at e q).resolve_right fun w => w.not_run h hc hne

theorem Control.holds_other (l : Lock N) : s'.Holds c' l ↔ s.Holds c' l := by
  unfold St.Holds
  rw [e.spc_other hne]
  refine or_congr_right (exists_congr fun q => and_congr_right fun hc => ?_)
  unfold St.Thread
  rw [h.pc_run e hne hc, e.irq_other fun hr => hne (h.run_unique hc hr)]

end

/-! ## Locks -/

theorem Control.ready (h : Control s) (hc : s.spc c = .setProc i) : s.Ready i := by
  have hst := h.sched c i .running (by rw [hc]; rfl)
  have hr : s.Rest i := h.rest i fun c' hc' => by
    cases h.one c c' i (by rw [hc]; rfl) (by rw [hc']; rfl)
    rw [hc] at hc'; cases hc'
  unfold St.Rest at hr
  rwa [hst] at hr

/-- CPU `c`'s locks change; no other's do. -/
def Apart (s : St N C) (c : Fin C) (s' : St N C) : Prop := ∀ c', c' ≠ c → ∀ l, s'.Holds c' l ↔ s.Holds c' l

theorem Control.lock_sched (h : Control s) {x : SPc N} (e : SEdge s.mem (s.spc c) op x) (hm : op.run c s.mem = some m)
    (hother : Apart s c { s.setSpc c x with mem := m }) : Lib.Locked m.lock { s.setSpc c x with mem := m }.Holds := by
  have hown := holds_sched (s := s) e.ne_run
  have hown' : ∀ l, (∀ p, x ≠ .run p) → ({ s.setSpc c x with mem := m }.Holds c l ↔ x.Holds l) := fun l hx => by
    rw [holds_sched] <;> simp [St.setSpc, hx]
  rcases Op.run_lock hm with ⟨l, rfl, hfree, hl⟩ | ⟨l, rfl, hl⟩ | ⟨hp, hl⟩
  · rw [hl]
    have hx : ∀ p, x ≠ .run p := by rintro p rfl; cases e.run.2
    exact h.lock.acquire hfree (fun k => by rw [hown' k hx, hown, e.acquire]) hother
  · rw [hl]
    have hx : ∀ p, x ≠ .run p := by rintro p rfl; cases e.run.2
    exact h.lock.release ((hown l).mpr e.release.1) (fun k => by rw [hown' k hx, hown, e.release.2]) hother
  · rw [hl]
    refine h.lock.congr fun c' k => ?_
    by_cases hne : c' = c
    · subst hne
      by_cases hx : ∃ p, x = .run p
      · -- the process takes over the lock that the scheduler holds
        obtain ⟨p, rfl⟩ := hx
        have hc := e.run.1
        rw [hown, hc, holds_run (p := p) (by simp [St.setSpc])]
        have : ({ s.setSpc c' (.run p) with mem := m } : St N C).Thread p k ↔ s.Thread p k := Iff.rfl
        rw [this, (h.ready hc).thread]
        cases k <;> simp [SPc.Holds, SPc.slot]
      · have hx : ∀ p, x ≠ .run p := fun p hp => hx ⟨p, hp⟩
        rw [hown' k hx, hown, e.plain hp hx]
    · exact hother c' hne k

theorem Control.lock_run (h : Control s) (hc : s.spc c = .run p) (hm : op.run c s.mem = some m) (hs : s'.mem = m)
    (hc' : s'.spc c = .run p) (hother : Apart s c s')
    (acq : ∀ l, op = .acquire l → ∀ k, s'.Thread p k ↔ k = l ∨ s.Thread p k)
    (rel : ∀ l, op = .release l → s.Thread p l ∧ ∀ k, s'.Thread p k ↔ k ≠ l ∧ s.Thread p k)
    (plain : op.Plain → ∀ k, s'.Thread p k ↔ s.Thread p k) : Lib.Locked s'.mem.lock s'.Holds := by
  subst hs
  rcases Op.run_lock hm with ⟨l, rfl, hfree, hl⟩ | ⟨l, rfl, hl⟩ | ⟨hp, hl⟩ <;> rw [hl]
  · exact h.lock.acquire hfree (fun k => by rw [holds_run hc, holds_run hc', acq l rfl]) hother
  · obtain ⟨hhas, hrel⟩ := rel l rfl
    exact h.lock.release ((holds_run hc l).mpr hhas) (fun k => by rw [holds_run hc, holds_run hc', hrel]) hother
  · refine h.lock.congr fun c' k => ?_
    by_cases hne : c' = c
    · subst hne; rw [holds_run hc, holds_run hc', plain hp]
    · exact hother c' hne k

theorem Control.lock_leave (h : Control s) (hc : s.spc c = .run p) (hm : s'.mem = s.mem) (hc' : s'.spc c = .back p)
    (hother : Apart s c s') (hh : ∀ k, s.Thread p k ↔ k = .proc p) : Lib.Locked s'.mem.lock s'.Holds := by
  rw [hm]
  refine h.lock.congr fun c' k => ?_
  by_cases hne : c' = c
  · subst hne
    rw [holds_run hc, hh, holds_sched (by rw [hc']; nofun), hc']
    cases k <;> simp [SPc.Holds, SPc.slot]
  · exact hother c' hne k

theorem thread_code {t : St N C} {b : Pc N} (hi : t.irq p = .none) (hb : t.pc p = b) (k : Lock N) : t.Thread p k ↔
    b.Holds p k := by
  simp [St.Thread, hi, Irq.locked, hb]

theorem thread_yield (ho : (s.pc p).Open p) (k : Lock N) : s.Thread p k ↔ (s.irq p).locked = true ∧ k = .proc p := by
  simp [St.Thread, ho.not_holds]

theorem Pc.leave_holds {a b : Pc N} (h : a.leave = some b) (k : Lock N) : a.Holds p k ↔ k = .proc p := by
  cases a <;> cases h <;> cases k <;> simp [Pc.Holds, Pc.slot, Pc.waitLock, Pc.pidLock]

theorem Control.lock_step (h : Control s) (e : Eff ini s c s') : Lib.Locked s'.mem.lock s'.Holds := by
  have hother : Apart s c s' := fun c' hne l => h.holds_other e hne l
  cases e with
  | sched e hm => exact h.lock_sched e hm hother
  | @code p op b m hc hi e hm =>
    have hi' : (s.start op).irq p = .none := by cases op <;> exact hi
    have hown := thread_code (t := s) hi rfl
    have hown' := thread_code (t := { (s.start op).setPc p b with mem := m, hist := note p s.mem s.hist (s.pc p) }) hi'
      (update_self ..)
    refine h.lock_run hc hm rfl (by cases op <;> exact hc) hother ?_ ?_ ?_
    · rintro l rfl k; rw [hown', hown, e.acquire]
    · rintro l rfl; exact ⟨(hown l).mpr e.release.1, fun k => by rw [hown', hown, e.release.2]⟩
    · intro hp k; rw [hown', hown, e.plain hp]
  | leave hc hi hb =>
    refine h.lock_leave hc rfl (update_self ..) hother fun k => ?_
    rw [thread_code hi rfl, Pc.leave_holds hb]
  | @preempt p hc hi ho =>
    refine h.lock_run hc (show Op.run c s.mem .nop = some s.mem from rfl) rfl hc hother nofun nofun fun _ k => ?_
    rw [thread_yield (s := s.setIrq p .acq) ho, thread_yield ho]
    simp [St.setIrq, hi, Irq.locked]
  | @yield p op y m hc hp hm =>
    have ho : (s.pc p).Open p := h.irq p fun hx => by rw [hx] at hp; cases hp
    have hown := thread_yield ho
    have hown' := thread_yield (s := { s.setIrq p y with mem := m }) ho
    have hy : ({ s.setIrq p y with mem := m } : St N C).irq p = y := update_self ..
    refine h.lock_run hc hm rfl hc hother ?_ ?_ ?_
    · rintro l rfl k
      rw [hown', hown, hy]
      cases hx : s.irq p <;> rw [hx] at hp <;> cases hp
      simp [Irq.locked]
    · rintro l rfl
      rw [hown]
      cases hx : s.irq p <;> rw [hx] at hp <;> cases hp
      refine ⟨⟨rfl, rfl⟩, fun k => ?_⟩
      rw [hown', hown, hy, hx]
      simp [Irq.locked]
    · intro hpl k
      rw [hown', hown, hy]
      cases hx : s.irq p <;> rw [hx] at hp <;> cases hp <;> first | exact hpl.elim | rfl
  | @yieldLeave p hc hi =>
    have ho := h.irq p (by rw [hi]; nofun)
    refine h.lock_leave hc rfl (update_self ..) hother fun k => ?_
    rw [thread_yield ho, hi]
    simp [Irq.locked]

/-! ## CPUs and processes -/

theorem Control.rest_used (h : Control s) (hu : s.mem.state q = .used) :
    (∀ c, s.spc c ≠ .run q) ∧ s.irq q = .none ∧ (s.pc q = .dead ∨ s.pc q = .forkret) := by
  have hno : ∀ c, s.spc c ≠ .run q := fun c hc => (h.self_ne hc).2 hu
  have hr := h.rest q hno
  unfold St.Rest at hr
  rw [hu] at hr
  exact ⟨hno, hr⟩

theorem Control.irq_step (h : Control s) (e : Eff ini s c s') (q : Fin N) (hq : s'.irq q ≠ .none) : (s'.pc q).Open q := by
  by_cases hc : s.spc c = .run q
  · cases e with
    | sched e => exact absurd hc (e.ne_run q)
    | @code p op b m hr hi =>
      cases hr.symm.trans hc
      exact absurd (by cases op <;> exact hi) hq
    | leave hr hi =>
      cases hr.symm.trans hc
      exact absurd hi hq
    | preempt hr hi ho =>
      cases hr.symm.trans hc
      exact ho
    | yield hr hp =>
      cases hr.symm.trans hc
      exact h.irq q fun hx => by rw [hx] at hp; cases hp
    | yieldLeave hr hi =>
      cases hr.symm.trans hc
      exact h.irq q (by rw [hi]; nofun)
  · rw [e.irq_other hc] at hq
    rcases e.pc_other hc with he | ⟨-, p, -, he⟩
    · rw [he]; exact h.irq q hq
    · exact absurd (h.rest_used (h.expects p q _ he)).2.1 hq

theorem Pc.leave_self {a b : Pc N} (h : a.leave = some b) : a.self ≠ .running := by
  cases a <;> cases h <;> nofun

theorem Control.cpu_step (h : Control s) (e : Eff ini s c s') :
    (∃ op x, SEdge s.mem (s.spc c) op x ∧ op.run c s.mem = some s'.mem ∧ s'.spc c = x) ∨
    ∃ p, s.spc c = .run p ∧ s'.mem.proc = s.mem.proc ∧
      (s'.spc c = .run p ∨ (s'.spc c = .back p ∧ s'.mem.state = s.mem.state ∧ s.mem.state p ≠ .running)) := by
  cases e with
  | @sched op x m e hm => exact .inl ⟨op, x, e, hm, update_self ..⟩
  | @code p op b m hc hi e hm =>
    exact .inr ⟨p, hc, (Op.frame hm).proc e.not_proc, .inl (by cases op <;> exact hc)⟩
  | @leave p b hc hi hb =>
    refine .inr ⟨p, hc, rfl, .inr ⟨update_self .., rfl, ?_⟩⟩
    rw [h.self c p hc, St.self, hi, if_neg (by decide)]
    exact Pc.leave_self hb
  | @preempt p hc => exact .inr ⟨p, hc, rfl, .inl hc⟩
  | @yield p op y m hc hp hm =>
    refine .inr ⟨p, hc, (Op.frame hm).proc ?_, .inl hc⟩
    cases hx : s.irq p <;> rw [hx] at hp <;> cases hp <;> nofun
  | @yieldLeave p hc hi =>
    refine .inr ⟨p, hc, rfl, .inr ⟨update_self .., rfl, ?_⟩⟩
    rw [h.self c p hc, St.self, if_pos hi]
    nofun

theorem SEdge.proc {x y : SPc N} (e : SEdge m x op y) (hm : op.run c m = some m')
    (hold : m.proc c = some q ↔ x = .run q ∨ x = .back q) : m'.proc c = some q ↔ y = .run q ∨ y = .back q := by
  cases e with
  | setProc | back => cases hm; simp
  | _ => rw [(Op.frame hm).proc nofun, hold]; simp

theorem Control.proc_step (h : Control s) (e : Eff ini s c s') (c' : Fin C) (q : Fin N) :
    s'.mem.proc c' = some q ↔ s'.spc c' = .run q ∨ s'.spc c' = .back q := by
  have hold := h.proc c' q
  by_cases hne : c' = c
  · subst hne
    rcases h.cpu_step e with ⟨op, x, e, hm, hx⟩ | ⟨p, hc, hp, hx | ⟨hx, -⟩⟩
    · rw [hx]; exact e.proc hm hold
    · rw [hx, hp, hold, hc]
    · rw [hx, hp, hold, hc]; simp
  · rw [e.spc_other hne, ← hold]
    rcases h.cpu_step e with ⟨op, x, -, hm, -⟩ | ⟨p, -, hp, -⟩
    · cases op with
      | proc v => rw [← Option.some.inj hm]; exact (congrArg (· = _) (update_of_ne hne ..)).to_iff
      | _ => rw [(Op.frame hm).proc nofun]
    · rw [hp]

theorem Control.one_step (h : Control s) (e : Eff ini s c s') (c₁ c₂ : Fin C) (q : Fin N)
    (h₁ : (s'.spc c₁).busy = some q) (h₂ : (s'.spc c₂).busy = some q) : c₁ = c₂ := by
  -- this CPU had the process already, or finds it RUNNABLE under its lock
  have hown : (s'.spc c).busy = some q → (s.spc c).busy = some q ∨ ((s.spc c).Holds (.proc q) ∧ s.mem.state q = .runnable) := by
    intro hb
    rcases h.cpu_step e with ⟨op, x, e, -, hx⟩ | ⟨p, hc, -, hx | ⟨hx, -⟩⟩
    · rw [hx] at hb; exact e.busy hb
    · rw [hx] at hb; rw [hc]; exact .inl hb
    · rw [hx] at hb; rw [hc]; exact .inl hb
  -- and then no other has it
  have hfresh : ∀ d, d ≠ c → (s'.spc c).busy = some q → (s'.spc d).busy = some q → False := by
    intro d hne hb hd
    rw [e.spc_other hne] at hd
    rcases hown hb with hb | ⟨hh, hst⟩
    · exact hne (h.one d c q hd hb)
    · have hh' : s.Holds d (.proc q) := (SPc.busy_holds hd).elim holds_spc fun hr =>
        h.self_locked hr (by rw [hst]; nofun)
      exact hne (h.lock.unique hh' (holds_spc hh))
  by_cases e₁ : c₁ = c
  · by_contra hne
    subst e₁
    exact hfresh c₂ (Ne.symm hne) h₁ h₂
  · by_cases e₂ : c₂ = c
    · subst e₂; exact (hfresh c₁ e₁ h₂ h₁).elim
    · rw [e.spc_other e₁] at h₁
      rw [e.spc_other e₂] at h₂
      exact h.one c₁ c₂ q h₁ h₂

theorem Control.running_step (h : Control s) (e : Eff ini s c s') (q : Fin N) (hq : s'.mem.state q = .running) :
    ∃ c', s'.spc c' = .run q ∨ s'.spc c' = .setProc q := by
  by_cases hold : s.mem.state q = .running
  · obtain ⟨c', hc'⟩ := h.running q hold
    by_cases hne : c' = c
    · subst hne
      refine ⟨c', ?_⟩
      rcases h.cpu_step e with ⟨op, x, e, -, hx⟩ | ⟨p, hc, -, hx | ⟨hx, -, hst⟩⟩
      · rcases hc' with hr | hr
        · exact absurd hr (e.ne_run q)
        · rw [hr] at e; cases e; exact .inl hx
      · rw [hx, ← hc]; exact hc'
      · rw [hc] at hc'
        rcases hc' with hr | hr <;> cases hr
        exact absurd hold hst
    · exact ⟨c', by rw [e.spc_other hne]; exact hc'⟩
  · rcases h.state_step e with he | ⟨i, v, he, w⟩
    · rw [he] at hq; exact absurd hq hold
    · rw [he] at hq
      by_cases hi : q = i
      · subst hi
        rw [update_self] at hq
        subst hq
        -- only a scheduler stores RUNNING
        cases w with
        | own _ hr => exact absurd hr hold
        | peer _ _ hch => cases hch
        | sched hx hv =>
          rcases hv with ⟨rfl, -⟩ | ⟨-, hv⟩
          · have hc := SPc.eq_setRunning hx
            rcases h.cpu_step e with ⟨op, x, e, -, hx⟩ | ⟨p, hr, -⟩
            · rw [hc] at e; cases e; exact ⟨c, .inr hx⟩
            · rw [hc] at hr; cases hr
          · cases hv
      · rw [update_of_ne hi] at hq; exact absurd hq hold

/-! ## The state of a slot -/

@[simp] theorem St.start_irq (s : St N C) (op : Op N) : (s.start op).irq = s.irq := by cases op <;> rfl

@[simp] theorem St.start_spc (s : St N C) (op : Op N) : (s.start op).spc = s.spc := by cases op <;> rfl

theorem Control.self_code (h : Control s) {b : Pc N} (hc : s.spc c = .run p) (hi : s.irq p = .none)
    (e : Edge ini p s.mem (s.pc p) op b) (hm : op.run c s.mem = some m) : m.state p = b.self := by
  have hold : s.mem.state p = (s.pc p).self := by rw [h.self c p hc, St.self, hi, if_neg (by decide)]
  by_cases hop : ∃ i v, op = .state i v
  · obtain ⟨i, v, rfl⟩ := hop
    cases hm
    rcases e.state with ⟨rfl, -, hb, -⟩ | ⟨u, he, -, -, -, hb⟩
    · exact (update_self ..).trans hb.symm
    · have hne : p ≠ i := by
        rintro rfl
        exact (Pc.expects_ne he).1 ((h.expects p p u he).symm.trans (hold.trans (Pc.expects_self he)))
      exact (update_of_ne hne ..).trans (hold.trans ((Pc.expects_self he).trans hb.symm))
  · rw [(Op.frame hm).state fun i v hv => hop ⟨i, v, hv⟩, hold, e.self fun v hv => hop ⟨p, v, hv⟩]

section

variable (h : Control s) (e : Eff ini s c s')
include h e

theorem Control.self_step (c' : Fin C) (q : Fin N) (hc' : s'.spc c' = .run q) :
    s'.mem.state q = s'.self q := by
  by_cases hne : c' = c
  · subst hne
    cases e with
    | @sched op x m e hm =>
      have hx : update s.spc c' x c' = .run q := hc'
      rw [update_self] at hx
      subst hx
      obtain ⟨hc, rfl⟩ := e.run
      cases hm
      exact (h.sched c' q .running (by rw [hc]; rfl)).trans (h.ready hc).self.symm
    | @code p op b m hc hi e hm =>
      cases hc.symm.trans ((congrFun (s.start_spc op) c').symm.trans hc')
      refine (h.self_code hc hi e hm).trans ?_
      simp [St.self, St.setPc, hi]
    | leave | yieldLeave => cases (update_self ..).symm.trans hc'
    | preempt hc hi =>
      cases hc.symm.trans hc'
      refine (h.self c' q hc).trans ?_
      simp [St.self, St.setIrq, hi]
    | @yield p op y m hc hp hm =>
      cases hc.symm.trans hc'
      have hold := h.self c' q hc
      unfold St.self at hold ⊢
      cases hx : s.irq q <;> rw [hx] at hp hold <;> cases hp
      · rw [(Op.frame hm).state nofun, hold]; simp [St.setIrq]
      · cases hm; simp [St.setIrq]
      · rw [(Op.frame hm).state nofun, hold]; simp [St.setIrq]
  · rw [e.spc_other hne] at hc'
    rw [h.state_run e hne hc', h.self c' q hc', St.self, St.self, h.pc_run e hne hc',
      e.irq_other fun hr => hne (h.run_unique hc' hr)]

theorem Control.back_step (c' : Fin C) (q : Fin N) (hb : s'.spc c' = .back q) :
    s'.mem.state q ≠ .unused ∧ s'.mem.state q ≠ .used := by
  by_cases hne : c' = c
  · subst hne
    rcases h.cpu_step e with ⟨op, x, e, -, hx⟩ | ⟨p, hc, -, hx | ⟨hx, hst, -⟩⟩
    · cases hx.symm.trans hb; exact (e.ne_back q rfl).elim
    · cases hx.symm.trans hb
    · cases hx.symm.trans hb
      rw [hst]; exact h.self_ne hc
  · rw [e.spc_other hne] at hb
    rw [(h.state_at e q).resolve_right fun w => w.not_back h hb hne]
    exact h.back c' q hb

theorem Control.chan_other (hq : s.spc c ≠ .run q) :
    s'.mem.chan q = s.mem.chan q ∨ (s.Holds c (.proc q) ∧ s.mem.state q ≠ .sleeping) := by
  cases e with
  | @sched op x m e hm => exact .inl (congrFun ((Op.frame hm).chan fun i v hv => by subst hv; exact e.sched_op) q)
  | @code p op b m hc hi e hm =>
    by_cases hop : ∃ ch, op = .chan q ch
    · obtain ⟨ch, rfl⟩ := hop
      obtain ⟨hh, he⟩ := e.chan.resolve_left (ne_of_run hq hc)
      refine .inr ⟨(holds_run hc _).mpr (.inr hh), ?_⟩
      rcases he with he | he <;> rw [h.expects p q _ he] <;> nofun
    · refine .inl ?_
      cases op with
      | chan i ch =>
        cases hm
        exact update_of_ne (fun hi => hop ⟨ch, by rw [hi]⟩) _ _
      | _ => exact congrFun ((Op.frame hm).chan nofun) q
  | leave | preempt | yieldLeave => exact .inl rfl
  | @yield p op y m hc hp hm =>
    refine .inl (congrFun ((Op.frame hm).chan ?_) q)
    cases hx : s.irq p <;> rw [hx] at hp <;> cases hp <;> nofun

theorem Control.rest_leave (hc : s.spc c = .run q) (hq : s'.spc c ≠ .run q) : s'.Rest q := by
  cases e with
  | sched e => exact absurd hc (e.ne_run q)
  | @code p op b m hr => exact absurd ((congrFun (s.start_spc op) c).trans hc) hq
  | preempt | yield => exact absurd hc hq
  | @leave p b hr hi hb =>
    cases hr.symm.trans hc
    have hst := h.self c q hc
    rw [St.self, hi, if_neg (by decide)] at hst
    have hpc : ((s.setSpc c (.back q)).setPc q b).pc q = b := update_self ..
    unfold St.Rest
    rw [show ((s.setSpc c (.back q)).setPc q b).mem = s.mem from rfl, hst, hpc,
      show ((s.setSpc c (.back q)).setPc q b).irq q = .none from hi]
    cases ha : s.pc q <;> rw [ha] at hb <;> cases hb
    · exact ⟨rfl, _, rfl, h.drowsy q _ (by rw [ha]; rfl)⟩
    · exact ⟨rfl, rfl⟩
  | @yieldLeave p hr hi =>
    cases hr.symm.trans hc
    have hst := h.self c q hc
    rw [St.self, if_pos hi] at hst
    unfold St.Rest
    rw [show ((s.setSpc c (.back q)).setIrq q .rel).mem = s.mem from rfl, hst]
    exact .inl ⟨update_self .., h.irq q (by rw [hi]; nofun)⟩

theorem Control.rest_step (q : Fin N) (hq : ∀ c', s'.spc c' ≠ .run q) : s'.Rest q := by
  by_cases hc : s.spc c = .run q
  · exact h.rest_leave e hc (hq c)
  have hr : s.Rest q := h.rest q fun c' hc' => by
    by_cases hne : c' = c
    · exact hc (hne ▸ hc')
    · exact hq c' ((e.spc_other hne).trans hc')
  have hirq := e.irq_other hc
  have hpc : s'.pc q = s.pc q ∨ (s'.pc q = .forkret ∧ s.mem.state q = .used) :=
    (e.pc_other hc).imp_right fun ⟨hf, p, _, he⟩ => ⟨hf, h.expects p q _ he⟩
  have hchan := h.chan_other e hc
  have hready : s.mem.state q ≠ .used → s.Ready q → s'.Ready q := fun hu hr => by
    rw [St.Ready, hpc.resolve_right (fun hf => hu hf.2), hirq]; exact hr
  unfold St.Rest at hr ⊢
  rcases h.state_at e q with hst | w
  · rw [hst, hirq]
    cases hu : s.mem.state q <;> simp only [hu, reduceCtorEq, and_false, or_false] at hr hpc hchan ⊢
    · rw [hpc]; exact hr
    · exact ⟨hr.1, hpc.elim (fun he => he ▸ hr.2) fun hf => .inr hf.1⟩
    · rw [hpc, hchan.resolve_right (by simp)]; exact hr
    · exact hready (by simp [hu]) hr
    · exact hready (by simp [hu]) hr
    · rw [hpc]; exact hr
  · generalize s'.mem.state q = v at w
    rw [hirq]
    cases w with
    | own hr => exact absurd hr hc
    | @peer p u _ he hch _ hset =>
      have hu := h.expects p q u he
      rw [hu] at hr hpc hready
      cases hch with
      | alloc | drop => exact ⟨hr.1, hpc.elim (fun he => he ▸ hr.2) fun hf => .inr hf.1⟩
      | publish => exact .inr ⟨hirq.trans hr.1, .inl (hpc.elim (fun he => he.trans (h.setup p q (hset rfl rfl))) (·.1))⟩
      | reap => exact ⟨hr.1, .inl ((hpc.resolve_right (by simp)).trans hr.2)⟩
      | wake =>
        obtain ⟨hirq0, w, hw, -⟩ := hr
        exact .inr ⟨hirq.trans hirq0, .inr ⟨w, (hpc.resolve_right (by simp)).trans hw⟩⟩
    | @sched u he hv =>
      have hu := h.sched c q u he
      rw [hu] at hr hpc hready
      rcases hv with ⟨rfl, rfl⟩ | ⟨rfl, rfl⟩
      · exact hready (by simp) hr
      · obtain ⟨hirq0, w, hw, -⟩ := hr
        exact .inr ⟨hirq.trans hirq0, .inr ⟨w, (hpc.resolve_right (by simp)).trans hw⟩⟩

/-! ## What the code counts on -/

theorem Control.moved (q : Fin N) :
    (s.spc c = .run q ∧ ∃ op, Edge ini q s.mem (s.pc q) op (s'.pc q) ∧ op.run c s.mem = some s'.mem ∧
      ∀ i ≠ q, op = .context i → s'.pc i = .forkret) ∨
    ((s'.pc q).expects = none ∧ (s'.pc q).setup = none ∧ (s'.pc q).drowsy = none) ∨
    (s'.pc q = s.pc q ∧ (s.spc c = .run q → s'.mem.chan = s.mem.chan ∧
      ∀ i, s'.mem.state i = s.mem.state i ∨ s.mem.state i = .running)) := by
  by_cases hc : s.spc c = .run q
  · cases e with
    | sched e => exact absurd hc (e.ne_run q)
    | @code p op b m hr hi e hm =>
      cases hr.symm.trans hc
      rw [show b = _ from (update_self q b (s.start op).pc).symm] at e
      exact .inl ⟨hc, op, e, hm, fun i hne hop => by subst hop; exact (update_of_ne hne ..).trans (update_self ..)⟩
    | @leave p b hr hi hb =>
      cases hr.symm.trans hc
      rw [show ((s.setSpc c (.back q)).setPc q b).pc q = b from update_self ..]
      cases ha : s.pc q <;> rw [ha] at hb <;> cases hb <;> exact .inr (.inl ⟨rfl, rfl, rfl⟩)
    | preempt | yieldLeave => exact .inr (.inr ⟨rfl, fun _ => ⟨rfl, fun _ => .inl rfl⟩⟩)
    | @yield p op y m hr hp hm =>
      cases hr.symm.trans hc
      refine .inr (.inr ⟨rfl, fun _ => ⟨(Op.frame hm).chan ?_, fun i => (Op.state_at hm i).imp_right fun hop => ?_⟩⟩)
      · cases hx : s.irq q <;> rw [hx] at hp <;> cases hp <;> nofun
      · cases hx : s.irq q <;> rw [hx] at hp <;> cases hp
        · cases hop
        · obtain ⟨rfl, -⟩ := Op.state.inj hop
          exact h.yield_state hc (by simp [hx]) (by simp [hx])
        · cases hop
  · rcases e.pc_other hc with he | ⟨hf, -⟩
    · exact .inr (.inr ⟨he, fun hc' => absurd hc' hc⟩)
    · rw [hf]; exact .inr (.inl ⟨rfl, rfl, rfl⟩)

theorem Control.expects_step (q i : Fin N) (v : PState)
    (hq : (s'.pc q).expects = some (i, v)) : s'.mem.state i = v := by
  rcases h.moved e q with ⟨-, op, he, hm, -⟩ | ⟨hn, -⟩ | ⟨hp, hst⟩
  · rcases he.expects hq with rfl | ⟨rfl, -, hst⟩ | ⟨he, hop⟩
    · rw [← Option.some.inj hm]; exact update_self ..
    · rw [← Option.some.inj hm]; exact hst
    · rw [(Op.frame hm).state hop]; exact h.expects q i v he
  · rw [hn] at hq; cases hq
  · -- where `q` stays, nobody stores the state that it counts on
    rw [hp] at hq
    have hold := h.expects q i v hq
    rcases h.state_at e i with hs | w
    · exact hs.trans hold
    · by_cases hc : s.spc c = .run q
      · rcases (hst hc).2 i with hs | hr
        · exact hs.trans hold
        · exact (w.not_expects h hq fun _ => hr).elim
      · exact (w.not_expects h hq fun hc' => absurd hc' hc).elim

theorem Control.sched_step (c' : Fin C) (i : Fin N) (v : PState)
    (hq : (s'.spc c').expects = some (i, v)) : s'.mem.state i = v := by
  by_cases hne : c' = c
  · subst hne
    rcases h.cpu_step e with ⟨op, x, e, hm, hx⟩ | ⟨p, hc, -, hx | ⟨hx, -⟩⟩
    · rw [hx] at hq
      rcases e.expects hq with rfl | ⟨rfl, hst⟩ | ⟨he, hop⟩
      · rw [← Option.some.inj hm]; exact update_self ..
      · rw [← Option.some.inj hm]; exact hst
      · rw [(Op.frame hm).state hop]; exact h.sched c' i v he
    · rw [hx] at hq; cases hq
    · rw [hx] at hq; cases hq
  · rw [e.spc_other hne] at hq
    rcases h.state_at e i with hst | w
    · exact hst.trans (h.sched c' i v hq)
    · exact (w.not_sched h hq hne).elim

end

theorem Control.owner_fresh (h : Control s) (hh : s.Holds c (.proc i)) (hu : s.mem.state i = .unused)
    (hq : (s.pc q).Owns i) : s.spc c = .run q := by
  rcases hq with he | he
  · obtain ⟨c', hc', hh'⟩ := h.runs he ((Pc.expects_slot he).resolve_right nofun)
    exact h.lock.unique hh hh' ▸ hc'
  · exact absurd ((h.expects q i _ he).symm.trans hu) nofun

section

variable (h : Control s) (e : Eff ini s c s')
include h e

theorem Control.owns (hq : (s'.pc q).Owns i) :
    (s.pc q).Owns i ∨ (s.spc c = .run q ∧ s.Holds c (.proc i) ∧ s.mem.state i = .unused) := by
  rcases h.moved e q with ⟨hc, op, he, -⟩ | ⟨hn, -⟩ | ⟨hp, -⟩
  · exact (he.owns hq).imp_right fun ⟨hh, hu⟩ => ⟨hc, (holds_run hc _).mpr (.inr hh), hu⟩
  · rcases hq with hq | hq <;> rw [hn] at hq <;> cases hq
  · rw [hp] at hq; exact .inl hq

theorem Control.owner_step (p q i : Fin N) (hp : (s'.pc p).Owns i)
    (hq : (s'.pc q).Owns i) : p = q := by
  rcases h.owns e hp with hp | ⟨hcp, hh, hu⟩
  · rcases h.owns e hq with hq | ⟨hcq, hh, hu⟩
    · exact h.owner p q i hp hq
    · cases hcq.symm.trans (h.owner_fresh hh hu hp); rfl
  · rcases h.owns e hq with hq | ⟨hcq, -⟩
    · cases hcp.symm.trans (h.owner_fresh hh hu hq); rfl
    · cases hcp.symm.trans hcq; rfl

theorem Control.setup_step (q i : Fin N) (hq : (s'.pc q).setup = some i) :
    s'.pc i = .forkret := by
  have hstay : (s.pc q).setup = some i → s'.pc i = .forkret := fun hs => by
    have hno := (h.rest_used (h.expects q i _ (Pc.setup_expects hs))).1
    rcases e.pc_other (hno c) with he | ⟨hf, -⟩
    · exact he.trans (h.setup q i hs)
    · exact hf
  rcases h.moved e q with ⟨hc, op, he, -, hstart⟩ | ⟨-, hn, -⟩ | ⟨hp, -⟩
  · rcases he.setup hq with hop | hs
    · subst hop
      exact hstart i (ne_of_run ((h.rest_used (h.expects q i _ he.context)).1 c) hc) rfl
    · exact hstay hs
  · rw [hn] at hq; cases hq
  · rw [hp] at hq; exact hstay hq

theorem Control.drowsy_step (q : Fin N) (w : Sleeper) (hq : (s'.pc q).drowsy = some w) :
    s'.mem.chan q = some (w.chan q) := by
  rcases h.moved e q with ⟨-, op, he, hm, -⟩ | ⟨-, -, hn⟩ | ⟨hp, hst⟩
  · rcases he.drowsy hq with rfl | ⟨hd, hop⟩
    · rw [← Option.some.inj hm]; exact update_self ..
    · refine Eq.trans ?_ (h.drowsy q w hd)
      cases op with
      | chan i ch =>
        rw [← Option.some.inj hm]
        exact update_of_ne (fun hi => hop ch (by rw [hi])) _ _
      | _ => exact congrFun ((Op.frame hm).chan nofun) q
  · rw [hn] at hq; cases hq
  · rw [hp] at hq
    refine Eq.trans ?_ (h.drowsy q w hq)
    by_cases hc : s.spc c = .run q
    · exact congrFun (hst hc).1 q
    · refine (h.chan_other e hc).resolve_right fun ⟨hh, _⟩ => ?_
      -- it holds its own lock, on a CPU of its own
      have hd := Pc.drowsy_holds (p := q) hq
      obtain ⟨c', hc'⟩ := h.on_cpu hd (fun hf => by rw [hf] at hq; cases hq) fun w hf => by rw [hf] at hq; cases hq
      cases h.lock.unique hh ((holds_run hc' _).mpr (.inr hd))
      exact hc hc'

/-! ## Every reachable state -/

theorem Control.step : Control s' where
  lock := h.lock_step e
  irq := h.irq_step e
  proc := h.proc_step e
  one := h.one_step e
  self := h.self_step e
  running := h.running_step e
  back := h.back_step e
  rest := h.rest_step e
  expects := h.expects_step e
  sched := h.sched_step e
  owner := h.owner_step e
  setup := h.setup_step e
  drowsy := h.drowsy_step e

end

theorem init_expects (i : Fin N) : ((init ini C).pc i).expects = none ∧ ((init ini C).pc i).setup = none ∧
    ((init ini C).pc i).drowsy = none := by
  simp only [init]
  split <;> exact ⟨rfl, rfl, rfl⟩

theorem Control.init : Control (init ini C) where
  lock l c := ⟨nofun, fun hh => by
    rcases hh with hh | ⟨p, hp, -⟩
    · cases l <;> cases hh
    · cases hp⟩
  irq p hp := absurd rfl hp
  proc c p := ⟨nofun, fun hp => by rcases hp with hp | hp <;> cases hp⟩
  one c c' p hp := by cases hp
  self c p hp := by cases hp
  running p hp := by
    simp only [Proc.init] at hp
    split at hp <;> cases hp
  back c p hp := by cases hp
  rest p _ := by
    simp only [St.Rest, Proc.init]
    split <;> split at * <;> simp_all [St.Ready]
  expects p i v hp := by rw [(init_expects p).1] at hp; cases hp
  sched c i v hp := by cases hp
  owner p q i hp := by rcases hp with hp | hp <;> rw [(init_expects p).1] at hp <;> cases hp
  setup p i hp := by rw [(init_expects p).2.1] at hp; cases hp
  drowsy p w hp := by rw [(init_expects p).2.2] at hp; cases hp

theorem control (h : (sys ini C).Reach s) : Control s :=
  Lib.Sys.invariant (fun _ hs => hs ▸ Control.init) (fun _ _ _ _ hi hst => hi.step (next_cases hst).choose_spec) h

/-! ## Steps of the code, and the others -/

/-- A place where a process waits to be switched to, or gives up its CPU: it counts on nothing there. -/
inductive Pc.Bare : Pc N → Prop
  | dead : Pc.Bare .dead
  | forkret : Pc.Bare .forkret
  | sSched (w : Sleeper) : Pc.Bare (.sSched w)
  | sTidy (w : Sleeper) : Pc.Bare (.sTidy w)
  | eSched : Pc.Bare .eSched

/-- Process `p` takes the edge from where it is to `b`, by `op`. -/
structure Code (ini : Fin N) (s : St N C) (p : Fin N) (op : Op N) (b : Pc N) (s' : St N C) : Prop where
  edge : Edge ini p s.mem (s.pc p) op b
  frame : op.Frame s.mem s'.mem
  /-- The value that `op` stores. -/
  effect : ∃ c, s.spc c = .run p ∧ s.irq p = .none ∧ op.run c s.mem = some s'.mem
  pc : s'.pc p = b
  start : ∀ q, q ≠ p → s'.pc q = s.pc q ∨ ((s.pc q).Bare ∧ s'.pc q = .forkret)
  hist : s'.hist = note p s.mem s.hist (s.pc p)

/-- A process has this state from its publication to its exit. -/
@[grind] def PState.Alive (v : PState) : Prop := v = .sleeping ∨ v = .runnable ∨ v = .running

/-- A step that leaves the data and the history alone, and who is alive. -/
structure Idle (s s' : St N C) : Prop where
  state : ∀ i, s'.mem.state i = s.mem.state i ∨
    ((s.mem.state i).Alive ∧ (s'.mem.state i = .runnable ∨ s'.mem.state i = .running))
  pid : s'.mem.pid = s.mem.pid
  killed : s'.mem.killed = s.mem.killed
  xstate : s'.mem.xstate = s.mem.xstate
  parent : s'.mem.parent = s.mem.parent
  nextpid : s'.mem.nextpid = s.mem.nextpid
  hist : s'.hist = s.hist
  leave : ∀ q, s'.pc q = s.pc q ∨ (s.pc q).leave = some (s'.pc q)

theorem Code.other {b : Pc N} (k : Code ini s p op b s') (q : Fin N) (hq : q ≠ p) :
    s'.pc q = s.pc q ∨ ((s.pc q).Bare ∧ (s'.pc q).Bare) :=
  (k.start q hq).imp_right fun ⟨hb, hf⟩ => ⟨hb, hf ▸ .forkret⟩

theorem Idle.pc (k : Idle s s') (q : Fin N) : s'.pc q = s.pc q ∨ ((s.pc q).Bare ∧ (s'.pc q).Bare) := by
  refine (k.leave q).imp_right fun hl => ?_
  generalize s.pc q = a at hl
  generalize s'.pc q = b at hl
  cases a <;> cases hl <;> exact ⟨by constructor, by constructor⟩

theorem Idle.alive (k : Idle s s') (hi : (s.mem.state i).Alive) : (s'.mem.state i).Alive :=
  (k.state i).elim (fun he => he ▸ hi) fun ⟨_, hv⟩ => .inr hv

theorem Idle.not_alive (k : Idle s s') (hi : ¬ (s'.mem.state i).Alive) : s'.mem.state i = s.mem.state i :=
  (k.state i).resolve_right fun ⟨_, hv⟩ => hi (.inr hv)

theorem Idle.of_frame {o : Op N} (hs : o.Sched) (hf : o.Frame s.mem s'.mem) (hh : s'.hist = s.hist) (hpc : s'.pc = s.pc)
    (hst : ∀ i, s'.mem.state i = s.mem.state i ∨
      ((s.mem.state i).Alive ∧ (s'.mem.state i = .runnable ∨ s'.mem.state i = .running))) : Idle s s' := by
  refine ⟨hst, hf.pid ?_, hf.killed ?_, hf.xstate ?_, hf.parent ?_, hf.nextpid ?_, hh, fun q => .inl (congrFun hpc q)⟩ <;>
    first | (rintro i v rfl; exact hs) | (rintro k rfl; exact hs)

theorem Control.cases (h : Control s) (e : Eff ini s c s') : (∃ p op b, Code ini s p op b s') ∨ Idle s s' := by
  cases e with
  | @sched op x m e hm =>
    refine .inr (.of_frame e.sched_op (Op.frame hm) rfl rfl fun i => (Op.state_at hm i).imp_right fun hop => ?_)
    rw [hop] at e
    rcases e.state with ⟨hx, hv⟩ | ⟨hx, hv⟩
    · exact ⟨.inr (.inl (h.sched c i _ hx)), .inr hv⟩
    · exact ⟨.inl (h.sched c i _ hx), .inl hv⟩
  | @code p op b m hc hi e hm =>
    refine .inl ⟨p, op, b, e, Op.frame hm, ⟨c, hc, hi, hm⟩, update_self .., fun q hq => ?_, rfl⟩
    show update (s.start op).pc p b q = _ ∨ _ ∧ update (s.start op).pc p b q = _
    rw [update_of_ne hq]
    refine (s.start_pc op q).imp_right fun ⟨hop, hf⟩ => ?_
    subst hop
    exact ⟨by rcases (h.rest_used (h.expects p q _ e.context)).2.2 with hp | hp <;> rw [hp] <;> constructor, hf⟩
  | @leave p b hc hi hb =>
    refine .inr ⟨fun _ => .inl rfl, rfl, rfl, rfl, rfl, rfl, rfl, fun q => ?_⟩
    by_cases hq : q = p
    · subst hq
      rw [show ((s.setSpc c (.back q)).setPc q b).pc q = b from update_self ..]
      exact .inr hb
    · exact .inl (update_of_ne hq ..)
  | preempt | yieldLeave => exact .inr ⟨fun _ => .inl rfl, rfl, rfl, rfl, rfl, rfl, rfl, fun _ => .inl rfl⟩
  | @yield p op y m hc hp hm =>
    refine .inr (.of_frame (o := op) ?_ (Op.frame hm) rfl rfl fun i => (Op.state_at hm i).imp_right fun hop => ?_)
    · cases hx : s.irq p <;> rw [hx] at hp <;> cases hp <;> trivial
    · cases hx : s.irq p <;> rw [hx] at hp <;> cases hp
      · cases hop
      · obtain ⟨rfl, hv⟩ := Op.state.inj hop
        exact ⟨.inr (.inr (h.yield_state hc (by simp [hx]) (by simp [hx]))), .inl hv.symm⟩
      · cases hop

theorem Code.state_at (k : Code ini s p op b s') (i : Fin N) : s'.mem.state i = s.mem.state i ∨
    op = .state i (s'.mem.state i) := by
  obtain ⟨c, -, -, hm⟩ := k.effect
  exact Op.state_at hm i

theorem role_other {α : Type} {f : Pc N → Option α} (hf : ∀ a, Pc.Bare a → f a = none)
    (h : s'.pc q = s.pc q ∨ ((s.pc q).Bare ∧ (s'.pc q).Bare)) : f (s'.pc q) = f (s.pc q) := by
  rcases h with h | ⟨h, h'⟩
  · rw [h]
  · rw [hf _ h, hf _ h']

theorem Code.role {α : Type} {f : Pc N → Option α} {x : α} (k : Code ini s p op b s') (hf : ∀ a, Pc.Bare a → f a = none)
    (hq : f (s'.pc q) = some x) : q = p ∧ f b = some x ∨ q ≠ p ∧ f (s.pc q) = some x := by
  by_cases e : q = p
  · subst e
    exact .inl ⟨rfl, k.pc ▸ hq⟩
  · rw [role_other hf (k.other q e)] at hq
    exact .inr ⟨e, hq⟩

theorem Control.expects_unique (h : Control s) {u v : PState} (hp : (s.pc p).expects = some (i, u))
    (hq : (s.pc q).expects = some (i, v)) : p = q := by
  obtain rfl : u = v := (h.expects p i u hp).symm.trans (h.expects q i v hq)
  by_cases hu : u = .used
  · subst hu; exact h.owner p q i (.inr hp) (.inr hq)
  · obtain ⟨c, hc, hh⟩ := h.runs hp ((Pc.expects_slot hp).resolve_right hu)
    obtain ⟨c', hc', hh'⟩ := h.runs hq ((Pc.expects_slot hq).resolve_right hu)
    cases h.lock.unique hh hh'
    cases hc.symm.trans hc'
    rfl

theorem Control.holds_unique (h : Control s) {l : Lock N} (hp : (s.pc p).Holds p l) (hq : (s.pc q).Holds q l)
    (np : ¬ (s.pc p).Bare) (nq : ¬ (s.pc q).Bare) : p = q := by
  have hrun : ∀ r, (s.pc r).Holds r l → ¬ (s.pc r).Bare → ∃ c, s.spc c = .run r := fun r hr nr =>
    h.on_cpu hr (fun hf => nr (hf ▸ .forkret)) fun w hf => nr (hf ▸ .sTidy w)
  obtain ⟨c, hc⟩ := hrun p hp np
  obtain ⟨c', hc'⟩ := hrun q hq nq
  cases h.lock.unique ((holds_run hc l).mpr (.inr hp)) ((holds_run hc' l).mpr (.inr hq))
  cases hc.symm.trans hc'
  rfl

theorem Pc.Bare.expects {a : Pc N} (h : a.Bare) : a.expects = none := by cases h <;> rfl

theorem Pc.Bare.waitLock {a : Pc N} (h : a.Bare) : a.waitLock = false := by cases h <;> rfl

theorem Control.wait_unique (h : Control s) (hp : (s.pc p).waitLock = true) (hq : (s.pc q).waitLock = true) : p = q :=
  h.holds_unique (l := .wait) hp hq (fun hb => by rw [hb.waitLock] at hp; cases hp)
    (fun hb => by rw [hb.waitLock] at hq; cases hq)

theorem Control.alive_code (h : Control s) {b : Pc N} (k : Code ini s p op b s') (hi : (s.mem.state i).Alive) :
    (s'.mem.state i).Alive ∨ (i = p ∧ ∃ st, s.pc p = .eZombie st) := by
  rcases k.state_at i with he | hop
  · exact .inl (he ▸ hi)
  · have he := k.edge
    rw [hop] at he
    rcases he.state with ⟨rfl, -, -, -, hv | ⟨-, ha⟩⟩ | ⟨u, hx, hch, -⟩
    · exact .inl (.inl hv)
    · exact .inr ⟨rfl, ha⟩
    · rw [h.expects p i u hx] at hi
      generalize s'.mem.state i = v at hch
      cases hch <;> first | exact .inl (.inr (.inl rfl)) | simp [PState.Alive] at hi

theorem Control.alive_of_wait (h : Control s) (hw : (s.pc p).waitLock = true) (hz : s.pc p ≠ .eWaitRel) :
    (s.mem.state p).Alive := by
  obtain ⟨c, hc⟩ := h.wait_cpu hw
  rw [h.self c p hc, St.self]
  split
  · exact .inr (.inl rfl)
  · refine .inr (.inr ?_)
    generalize s.pc p = a at hw hz
    cases a <;> first | rfl | exact absurd rfl hz | cases hw

end Xv6.Proc
