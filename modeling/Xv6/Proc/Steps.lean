/-
  Xv6.Proc.Steps — what the steps of the process table can do, said once: the edges of the
  code (`Edge`: from a place, by an operation, to the next place, with what was read on the
  way), the kinds of step (`Eff`, `next_cases`), and what a place in the code means: which
  locks are held there, which state of a slot the code counts on, what the state of the
  process itself is.
-/

import Xv6.Proc.Model


namespace Xv6.Proc

variable {N C : Nat} {ini p : Fin N} {m : Mem N C} {a b : Pc N} {op : Op N}

/-! ## The edges of the code -/

inductive Edge (ini p : Fin N) (m : Mem N C) : Pc N → Op N → Pc N → Prop
  | cFork {r} : Edge ini p m (.user r) .nop (.fAcq 0)
  | cWait {r x} : Edge ini p m (.user r) .nop (.wAcq x)
  | cExit {r st} : p ≠ ini → Edge ini p m (.user r) .nop (.eAcq st)
  | cKill {r k} : Edge ini p m (.user r) .nop (.xAcq k m.nextpid.draw 0)
  | cSleep {r n} : Edge ini p m (.user r) .nop (.sAcq (.other n))
  | cWakeup {r n} : Edge ini p m (.user r) .nop (.kAcq (some (.other n)) 0 .other)
  | forkret : Edge ini p m .forkret (.release (.proc p)) (.user 0)
  | fAcq {i} (h : i < N) : Edge ini p m (.fAcq i) (.acquire (.proc ⟨i, h⟩)) (.fTest ⟨i, h⟩)
  | fFull {i} : Edge ini p m (.fAcq i) .nop (.user (-1))
  | fFound {i} : m.state i = .unused → Edge ini p m (.fTest i) .nop (.fPidAcq i)
  | fBusy {i} : Edge ini p m (.fTest i) .nop (.fNext i)
  | fNext {i} : Edge ini p m (.fNext i) (.release (.proc i)) (.fAcq (i + 1))
  | fPidAcq {i} : Edge ini p m (.fPidAcq i) (.acquire .pid) (.fPidLoad i)
  | fPidLoad {i} : Edge ini p m (.fPidLoad i) .nop (.fPidInc i m.nextpid)
  | fPidInc {i k} : Edge ini p m (.fPidInc i k) (.nextpid k.succ) (.fPidRel i k)
  | fPidRel {i k} : Edge ini p m (.fPidRel i k) (.release .pid) (.fSetPid i k)
  | fSetPid {i k} : Edge ini p m (.fSetPid i k) (.pid i k) (.fSetUsed i)
  | fSetUsed {i} : Edge ini p m (.fSetUsed i) (.state i .used) (.fBuild i)
  | fBuild {i} : Edge ini p m (.fBuild i) (.context i) (.fCopy i)
  | fNoMem {i} : Edge ini p m (.fBuild i) .nop (.free .pid i .fork)
  | fCopy {i} : Edge ini p m (.fCopy i) .nop (.fGetPid i)
  | fNoCopy {i} : Edge ini p m (.fCopy i) .nop (.free .pid i .fork)
  | fGetPid {i} : Edge ini p m (.fGetPid i) .nop (.fRel i (m.pid i))
  | fRel {i k} : Edge ini p m (.fRel i k) (.release (.proc i)) (.fWait i k)
  | fWait {i k} : Edge ini p m (.fWait i k) (.acquire .wait) (.fParent i k)
  | fParent {i k} : Edge ini p m (.fParent i k) (.parent i (some p)) (.fWaitRel i k)
  | fWaitRel {i k} : Edge ini p m (.fWaitRel i k) (.release .wait) (.fPublish i k)
  | fPublish {i k} : Edge ini p m (.fPublish i k) (.state i .runnable) (.user k.val.toInt)
  | freePid {i r} : Edge ini p m (.free .pid i r) (.pid i .zero) (.free .parent i r)
  | freeParent {i r} : Edge ini p m (.free .parent i r) (.parent i none) (.free .chan i r)
  | freeChan {i r} : Edge ini p m (.free .chan i r) (.chan i none) (.free .killed i r)
  | freeKilled {i r} : Edge ini p m (.free .killed i r) (.killed i false) (.free .xstate i r)
  | freeXstate {i r} : Edge ini p m (.free .xstate i r) (.xstate i 0) (.free .state i r)
  | freeState {i r} : Edge ini p m (.free .state i r) (.state i .unused) (.freeRel i r)
  | failRel {i} : Edge ini p m (.freeRel i .fork) (.release (.proc i)) (.user (-1))
  | freeRel {i x k st} : Edge ini p m (.freeRel i (.wait x k st)) (.release (.proc i)) (.waitRet x k st)
  | waitRet {x k st} : Edge ini p m (.waitRet x k st) (.release .wait) (.user k.val.toInt)
  | wAcq {x} : Edge ini p m (.wAcq x) (.acquire .wait) (.wScan x 0 false)
  | wChild {x i hk} (h : i < N) : m.parent ⟨i, h⟩ = some p → Edge ini p m (.wScan x i hk) .nop (.wLock x ⟨i, h⟩)
  | wOther {x i hk} (h : i < N) : m.parent ⟨i, h⟩ ≠ some p → Edge ini p m (.wScan x i hk) .nop (.wScan x (i + 1) hk)
  | wKids {x i hk} : N ≤ i → Edge ini p m (.wScan x i hk) .nop (.wKAcq x)
  | wNone {x i hk} : Edge ini p m (.wScan x i hk) .nop .wFail
  | wLock {x i} : Edge ini p m (.wLock x i) (.acquire (.proc i)) (.wTest x i)
  | wZombie {x i} : m.state i = .zombie → Edge ini p m (.wTest x i) .nop (.wPid x i)
  | wAlive {x i} : m.state i ≠ .zombie → Edge ini p m (.wTest x i) .nop (.wNext x i)
  | wNext {x i} : Edge ini p m (.wNext x i) (.release (.proc i)) (.wScan x (i + 1) true)
  | wPid {x i} : Edge ini p m (.wPid x i) .nop (.wCopy x i (m.pid i))
  | wCopied {x i k} : Edge ini p m (.wCopy x i k) .nop (.free .pid i (.wait x k (if x then some (m.xstate i) else none)))
  | wNotCopied {x i k} : Edge ini p m (.wCopy x i k) .nop (.wBad i)
  | wBad {i} : Edge ini p m (.wBad i) (.release (.proc i)) .wFail
  | wFail : Edge ini p m .wFail (.release .wait) (.user (-1))
  | wKAcq {x} : Edge ini p m (.wKAcq x) (.acquire (.proc p)) (.wKLoad x)
  | wKLoad {x} : Edge ini p m (.wKLoad x) .nop (.wKRel x (m.killed p))
  | wKilled {x k} : Edge ini p m (.wKRel x k) (.release (.proc p)) .wFail
  | wSleep {x k} : Edge ini p m (.wKRel x k) (.release (.proc p)) (.sAcq (.wait x))
  | sAcq {w} : Edge ini p m (.sAcq w) (.acquire (.proc p)) (.sRel w)
  | sRelWait {x} : Edge ini p m (.sRel (.wait x)) (.release .wait) (.sChan (.wait x))
  | sRelOther {n} : Edge ini p m (.sRel (.other n)) .nop (.sChan (.other n))
  | sChan {w} : Edge ini p m (.sChan w) (.chan p (some (w.chan p))) (.sState w)
  | sState {w} : Edge ini p m (.sState w) (.state p .sleeping) (.sSched w)
  | sTidy {w} : Edge ini p m (.sTidy w) (.chan p none) (.sPRel w)
  | sPRel {w} : Edge ini p m (.sPRel w) (.release (.proc p)) (.sReacq w)
  | sReacqWait {x} : Edge ini p m (.sReacq (.wait x)) (.acquire .wait) (.wScan x 0 false)
  | sReacqOther {n} : Edge ini p m (.sReacq (.other n)) .nop (.user 0)
  | eAcq {st} : Edge ini p m (.eAcq st) (.acquire .wait) (.eScan st 0)
  | eChild {st j} (h : j < N) : m.parent ⟨j, h⟩ = some p → Edge ini p m (.eScan st j) .nop (.eSetPar st ⟨j, h⟩)
  | eOther {st j} (h : j < N) : m.parent ⟨j, h⟩ ≠ some p → Edge ini p m (.eScan st j) .nop (.eScan st (j + 1))
  | eDone {st j} : N ≤ j → Edge ini p m (.eScan st j) .nop (.eLoadPar st)
  | eSetPar {st j} : Edge ini p m (.eSetPar st j) (.parent j (some ini)) (.kAcq (some (.proc ini)) 0 (.reparent st j))
  | eLoadPar {st} : Edge ini p m (.eLoadPar st) .nop (.kAcq ((m.parent p).map .proc) 0 (.exit st))
  | eLock {st} : Edge ini p m (.eLock st) (.acquire (.proc p)) (.eXstate st)
  | eXstate {st} : Edge ini p m (.eXstate st) (.xstate p st) (.eZombie st)
  | eZombie {st} : Edge ini p m (.eZombie st) (.state p .zombie) .eWaitRel
  | eWaitRel : Edge ini p m .eWaitRel (.release .wait) .eSched
  | kSkip {ch w} : Edge ini p m (.kAcq ch p w) .nop (.kAcq ch (p + 1) w)
  | kAcq {ch i w} (h : i < N) : ⟨i, h⟩ ≠ p → Edge ini p m (.kAcq ch i w) (.acquire (.proc ⟨i, h⟩)) (.kState ch ⟨i, h⟩ w)
  | kDone {ch i w} : N ≤ i → Edge ini p m (.kAcq ch i w) .nop w.pc
  | kSleeping {ch i w} : m.state i = .sleeping → Edge ini p m (.kState ch i w) .nop (.kChan ch i w)
  | kAwake {ch i w} : m.state i ≠ .sleeping → Edge ini p m (.kState ch i w) .nop (.kRel ch i w)
  | kChan {ch i w} : m.chan i = ch → Edge ini p m (.kChan ch i w) .nop (.kSet ch i w)
  | kElse {ch i w} : m.chan i ≠ ch → Edge ini p m (.kChan ch i w) .nop (.kRel ch i w)
  | kSet {ch i w} : Edge ini p m (.kSet ch i w) (.state i .runnable) (.kRel ch i w)
  | kRel {ch i w} : Edge ini p m (.kRel ch i w) (.release (.proc i)) (.kAcq ch (i + 1) w)
  | xAcq {k d i} (h : i < N) : Edge ini p m (.xAcq k d i) (.acquire (.proc ⟨i, h⟩)) (.xPid k d ⟨i, h⟩)
  | xNone {k d i} : N ≤ i → Edge ini p m (.xAcq k d i) .nop (.user (-1))
  | xFound {k d i} : (m.pid i).val = k → Edge ini p m (.xPid k d i) .nop (.xSet k i)
  | xOther {k d i} : (m.pid i).val ≠ k → Edge ini p m (.xPid k d i) .nop (.xNext k d i)
  | xSet {k i} : Edge ini p m (.xSet k i) (.killed i true) (.xState k i)
  | xSleeping {k i} : m.state i = .sleeping → Edge ini p m (.xState k i) .nop (.xRun k i)
  | xAwake {k i} : Edge ini p m (.xState k i) .nop (.xRel k i)
  | xRun {k i} : Edge ini p m (.xRun k i) (.state i .runnable) (.xRel k i)
  | xRel {k i} : Edge ini p m (.xRel k i) (.release (.proc i)) (.user 0)
  | xNext {k d i} : Edge ini p m (.xNext k d i) (.release (.proc i)) (.xAcq k d (i + 1))

theorem edge_of_prog {ok : Bool} (h : prog ini p m ok a = some (op, b)) : Edge ini p m a op b := by
  cases a with
  | dead | user _ | sSched _ | eSched => cases h
  | fAcq i | xAcq k d i =>
    simp only [prog] at h
    split at h <;> cases h
    · constructor
    · constructor; try omega
  | fBuild i =>
    simp only [prog] at h
    split at h <;> cases h <;> constructor
  | free f i r => cases f <;> cases h <;> constructor
  | freeRel i r => cases r <;> cases h <;> constructor
  | wScan x i hk =>
    simp only [prog] at h
    split at h
    · split at h <;> cases h
      · exact .wChild _ ‹_›
      · exact .wOther _ ‹_›
    · cases h
      split
      · exact .wKids (by omega)
      · exact .wNone
  | wCopy x i k =>
    cases h
    cases x with
    | false => exact .wCopied
    | true =>
      rw [if_pos rfl]
      split
      · exact .wCopied
      · exact .wNotCopied
  | sRel w | sReacq w => cases w <;> cases h <;> constructor
  | eScan st j =>
    simp only [prog] at h
    split at h
    · split at h <;> cases h
      · exact .eChild _ ‹_›
      · exact .eOther _ ‹_›
    · cases h; exact .eDone (by omega)
  | kAcq ch i w =>
    simp only [prog] at h
    split at h
    · split at h <;> cases h
      · subst_vars; exact .kSkip
      · exact .kAcq _ ‹_›
    · cases h; exact .kDone (by omega)
  | fTest i | fCopy i | wTest x i | wKRel x k | kState ch i w | kChan ch i w | xPid k d i | xState k i =>
    cases h
    split <;> constructor <;> assumption
  | _ => cases h; constructor

theorem edge_of_call {k : Call} {r : Int} (h : k.entry ini p m = some b) : Edge ini p m (.user r) .nop b := by
  cases k with
  | exit st =>
    simp only [Call.entry] at h
    split at h <;> cases h
    exact .cExit ‹_›
  | _ => cases h; constructor

/-- The edges of `scheduler`, and of the interrupts that it takes. -/
inductive SEdge (m : Mem N C) : SPc N → Op N → SPc N → Prop
  | acq {i} (h : i < N) : SEdge m (.acq i) (.acquire (.proc ⟨i, h⟩)) (.test ⟨i, h⟩)
  | wrap {i} : SEdge m (.acq i) .nop (.acq 0)
  | found {i} : m.state i = .runnable → SEdge m (.test i) .nop (.setRunning i)
  | pass {i} : SEdge m (.test i) .nop (.rel i)
  | setRunning {i} : SEdge m (.setRunning i) (.state i .running) (.setProc i)
  | setProc {i} : SEdge m (.setProc i) (.proc (some i)) (.run i)
  | back {i} : SEdge m (.back i) (.proc none) (.rel i)
  | rel {i} : SEdge m (.rel i) (.release (.proc i)) (.acq (i + 1))
  | intr {n r} : SEdge m (.acq r) .nop (.wAcq n 0 r)
  | wAcq {n i r} (h : i < N) : SEdge m (.wAcq n i r) (.acquire (.proc ⟨i, h⟩)) (.wState n ⟨i, h⟩ r)
  | wDone {n i r} : SEdge m (.wAcq n i r) .nop (.acq r)
  | wSleeping {n i r} : m.state i = .sleeping → SEdge m (.wState n i r) .nop (.wChan n i r)
  | wAwake {n i r} : SEdge m (.wState n i r) .nop (.wRel n i r)
  | wChan {n i r} : SEdge m (.wChan n i r) .nop (.wSet n i r)
  | wElse {n i r} : SEdge m (.wChan n i r) .nop (.wRel n i r)
  | wSet {n i r} : SEdge m (.wSet n i r) (.state i .runnable) (.wRel n i r)
  | wRel {n i r} : SEdge m (.wRel n i r) (.release (.proc i)) (.wAcq n (i + 1) r)

theorem edge_of_schedProg {x y : SPc N} (h : schedProg m x = some (op, y)) : SEdge m x op y := by
  cases x with
  | run i => cases h
  | acq i | wAcq n i r =>
    simp only [schedProg] at h
    split at h <;> cases h <;> constructor
  | test i | wState n i r =>
    cases h
    split
    · constructor; assumption
    · constructor
  | wChan n i r => cases h; split <;> constructor
  | _ => cases h; constructor

/-! ## The kinds of step -/

/-- Where a process that gives up its CPU goes on. -/
def Pc.leave : Pc N → Option (Pc N)
  | .sSched w => some (.sTidy w)
  | .eSched => some .dead
  | _ => none

theorem Pc.leave_cases (h : a.leave = some b) : (∃ w, a = .sSched w ∧ b = .sTidy w) ∨ (a = .eSched ∧ b = .dead) := by
  cases a <;> cases h
  · exact .inl ⟨_, rfl, rfl⟩
  · exact .inr ⟨rfl, rfl⟩

inductive Eff (ini : Fin N) (s : St N C) (c : Fin C) : St N C → Prop
  | sched {op : Op N} {x : SPc N} {m : Mem N C} : SEdge s.mem (s.spc c) op x → op.run c s.mem = some m →
      Eff ini s c { s.setSpc c x with mem := m }
  | code {p : Fin N} {op : Op N} {b : Pc N} {m : Mem N C} : s.spc c = .run p → s.irq p = .none →
      Edge ini p s.mem (s.pc p) op b → op.run c s.mem = some m →
      Eff ini s c { (s.start op).setPc p b with mem := m, hist := note p s.mem s.hist (s.pc p) }
  | leave {p : Fin N} {b : Pc N} : s.spc c = .run p → s.irq p = .none → (s.pc p).leave = some b →
      Eff ini s c ((s.setSpc c (.back p)).setPc p b)
  | preempt {p : Fin N} : s.spc c = .run p → s.irq p = .none → (s.pc p).Open p → Eff ini s c (s.setIrq p .acq)
  | yield {p : Fin N} {op : Op N} {y : Irq} {m : Mem N C} : s.spc c = .run p → yieldProg p (s.irq p) = some (op, y) →
      op.run c s.mem = some m → Eff ini s c { s.setIrq p y with mem := m }
  | yieldLeave {p : Fin N} : s.spc c = .run p → s.irq p = .sched → Eff ini s c ((s.setSpc c (.back p)).setIrq p .rel)

theorem codeStep_cases {s s' : St N C} {c : Fin C} {ok : Bool} (hc : s.spc c = .run p) (hi : s.irq p = .none)
    (h : codeStep ini s c p ok = some s') : Eff ini s c s' := by
  unfold codeStep at h
  split at h
  · cases h; exact .leave hc hi (by rw [‹s.pc p = _›]; rfl)
  · cases h; exact .leave hc hi (by rw [‹s.pc p = _›]; rfl)
  · obtain ⟨⟨op, b⟩, hp, h⟩ := Option.bind_eq_some_iff.mp h
    obtain ⟨m, hm, rfl⟩ := Option.map_eq_some_iff.mp h
    exact .code hc hi (edge_of_prog hp) hm

theorem yieldStep_cases {s s' : St N C} {c : Fin C} (hc : s.spc c = .run p) (h : yieldStep s c p = some s') : Eff ini s c s' := by
  unfold yieldStep at h
  split at h
  · cases h; exact .yieldLeave hc ‹_›
  · obtain ⟨⟨op, y⟩, hp, h⟩ := Option.bind_eq_some_iff.mp h
    obtain ⟨m, hm, rfl⟩ := Option.map_eq_some_iff.mp h
    exact .yield hc hp hm

theorem next_cases {s s' : St N C} {l : Act C} (h : next ini s l = some s') : ∃ c, Eff ini s c s' := by
  cases l with
  | sched c =>
    obtain ⟨⟨op, x⟩, hp, h⟩ := Option.bind_eq_some_iff.mp h
    obtain ⟨m, hm, rfl⟩ := Option.map_eq_some_iff.mp h
    exact ⟨c, .sched (edge_of_schedProg hp) hm⟩
  | step c ok =>
    simp only [next] at h
    split at h
    · split at h
      · exact ⟨c, codeStep_cases ‹_› ‹_› h⟩
      · exact ⟨c, yieldStep_cases ‹_› h⟩
    · cases h
  | call c k =>
    simp only [next] at h
    split at h
    · rename_i p hc
      split at h
      · rename_i r hi hp
        obtain ⟨b, hb, rfl⟩ := Option.map_eq_some_iff.mp h
        -- a call is an edge that leaves the memory alone
        have he : Edge ini p s.mem (s.pc p) .nop b := by rw [hp]; exact edge_of_call hb
        have := Eff.code hc hi he (m := s.mem) rfl
        rw [show note p s.mem s.hist (s.pc p) = s.hist by rw [hp]; rfl] at this
        exact ⟨c, this⟩
      · cases h
    · cases h
  | preempt c =>
    simp only [next] at h
    split at h
    · split at h
      · rename_i p hc hp
        cases h; exact ⟨c, .preempt hc hp.1 hp.2⟩
      · cases h
    · cases h
  | intr c n =>
    simp only [next] at h
    split at h
    · rename_i r hr
      cases h
      exact ⟨c, .sched (m := s.mem) (hr ▸ SEdge.intr) rfl⟩
    · cases h

/-! ## The locks held at a place -/

def Pc.Holds (p : Fin N) (a : Pc N) : Lock N → Prop
  | .proc i => some i = a.slot p
  | .wait => a.waitLock = true
  | .pid => a.pidLock = true

theorem Pc.Open.not_holds (h : a.Open p) (l : Lock N) : ¬ a.Holds p l := by
  obtain ⟨h1, h2, h3⟩ := h
  cases l <;> simp [Pc.Holds, h1, h2, h3]

theorem Waker.pc_holds (w : Waker) (k : Lock N) (ch : Option (Chan N)) (i : Nat) :
    w.pc.Holds p k ↔ (Pc.kAcq ch i w).Holds p k := by
  cases w <;> cases k <;> simp [Pc.Holds, Pc.slot, Pc.waitLock, Pc.pidLock, Waker.pc, Waker.locked]

theorem Edge.acquire {l : Lock N} (e : Edge ini p m a (.acquire l) b) (k : Lock N) : b.Holds p k ↔ k = l ∨ a.Holds p k := by
  cases e <;> cases k <;> simp [Pc.Holds, Pc.slot, Pc.waitLock, Pc.pidLock]

theorem Edge.release {l : Lock N} (e : Edge ini p m a (.release l) b) :
    a.Holds p l ∧ ∀ k, b.Holds p k ↔ k ≠ l ∧ a.Holds p k := by
  refine ⟨?_, fun k => ?_⟩
  · cases e <;> simp [Pc.Holds, Pc.slot, Pc.waitLock, Pc.pidLock, Sleeper.locked]
  · cases e <;> cases k <;> simp [Pc.Holds, Pc.slot, Pc.waitLock, Pc.pidLock, Sleeper.locked, Freer.locked]

/-- An operation that is not one of a lock. -/
def Op.Plain : Op N → Prop
  | .acquire _ | .release _ => False
  | _ => True

theorem Edge.plain (e : Edge ini p m a op b) (h : op.Plain) (k : Lock N) : b.Holds p k ↔ a.Holds p k := by
  cases e with
  | kDone => exact Waker.pc_holds _ _ _ _
  | _ => first | exact h.elim | (cases k <;> simp [Pc.Holds, Pc.slot, Pc.waitLock, Pc.pidLock, Sleeper.locked, Freer.locked,
      Waker.locked])

def SPc.slot : SPc N → Option (Fin N)
  | .test i | .setRunning i | .setProc i | .back i | .rel i | .wState _ i _ | .wChan _ i _ | .wSet _ i _ | .wRel _ i _ => some i
  | _ => none

def SPc.Holds (x : SPc N) : Lock N → Prop
  | .proc i => some i = x.slot
  | _ => False

theorem SEdge.acquire {x y : SPc N} {l : Lock N} (e : SEdge m x (.acquire l) y) (k : Lock N) :
    y.Holds k ↔ k = l ∨ x.Holds k := by
  cases e <;> cases k <;> simp [SPc.Holds, SPc.slot]

theorem SEdge.release {x y : SPc N} {l : Lock N} (e : SEdge m x (.release l) y) :
    x.Holds l ∧ ∀ k, y.Holds k ↔ k ≠ l ∧ x.Holds k := by
  refine ⟨?_, fun k => ?_⟩
  · cases e <;> rfl
  · cases e <;> cases k <;> simp [SPc.Holds, SPc.slot]

theorem SEdge.plain {x y : SPc N} (e : SEdge m x op y) (h : op.Plain) (hr : ∀ i, y ≠ .run i) (k : Lock N) :
    y.Holds k ↔ x.Holds k := by
  cases e with
  | setProc => exact absurd rfl (hr _)
  | _ => first | exact h.elim | (cases k <;> rfl)

/-! ## What the code counts on at a place -/

/-- The slot whose state the code counts on, and that state. -/
def Pc.expects : Pc N → Option (Fin N × PState)
  | .fPidAcq i | .fPidLoad i | .fPidInc i _ | .fPidRel i _ | .fSetPid i _ | .fSetUsed i => some (i, .unused)
  | .fBuild i | .fCopy i | .fGetPid i | .fRel i _ | .fWait i _ | .fParent i _ | .fWaitRel i _ | .fPublish i _
  | .free _ i .fork => some (i, .used)
  | .wPid _ i | .wCopy _ i _ | .free _ i (.wait _ _ _) => some (i, .zombie)
  | .kChan _ i _ | .kSet _ i _ | .xRun _ i => some (i, .sleeping)
  | _ => none

/-- The slot that a `fork` has taken and not yet published. -/
def Pc.Owns (a : Pc N) (i : Fin N) : Prop := a.expects = some (i, .unused) ∨ a.expects = some (i, .used)

/-- The slot that a `fork` has given a context, until it is published. -/
def Pc.setup : Pc N → Option (Fin N)
  | .fCopy i | .fGetPid i | .fRel i _ | .fWait i _ | .fParent i _ | .fWaitRel i _ | .fPublish i _ => some i
  | _ => none

/-- The state of the process that is there. -/
def Pc.self : Pc N → PState
  | .sSched _ => .sleeping
  | .eWaitRel | .eSched => .zombie
  | _ => .running

/-- In `sleep`, with the channel stored. -/
def Pc.drowsy : Pc N → Option Sleeper
  | .sState w | .sSched w => some w
  | _ => none

/-- The changes of a slot's state that others make than its process or its scheduler. -/
inductive Change : PState → PState → Prop
  | alloc : Change .unused .used
  | publish : Change .used .runnable
  | drop : Change .used .unused
  | reap : Change .zombie .unused
  | wake : Change .sleeping .runnable

theorem Pc.setup_expects {i : Fin N} (h : a.setup = some i) : a.expects = some (i, .used) := by
  cases a <;> simp_all [Pc.setup, Pc.expects]

theorem Pc.expects_slot {i : Fin N} {v : PState} (h : a.expects = some (i, v)) : a.Holds p (.proc i) ∨ v = .used := by
  cases a with
  | free f j r => cases r <;> simp_all [Pc.expects, Pc.Holds, Pc.slot]
  | _ => simp_all [Pc.expects, Pc.Holds, Pc.slot]

theorem Pc.expects_ne {i : Fin N} {v : PState} (h : a.expects = some (i, v)) : v ≠ .running ∧ v ≠ .runnable := by
  cases a with
  | free f j r => cases r <;> simp_all [Pc.expects] <;> simp [← h.2]
  | _ => simp_all [Pc.expects] <;> simp [← h.2]

theorem Pc.expects_self {x : Fin N × PState} (h : a.expects = some x) : a.self = .running := by
  cases a <;> first | rfl | cases h

theorem Pc.self_holds (h : a.self ≠ .running) : a.Holds p (.proc p) := by
  cases a <;> simp_all [Pc.self, Pc.Holds, Pc.slot]

theorem Pc.drowsy_holds {w : Sleeper} (h : a.drowsy = some w) : a.Holds p (.proc p) := by
  cases a <;> simp_all [Pc.drowsy, Pc.Holds, Pc.slot]

theorem Waker.pc_expects (w : Waker) : (w.pc : Pc N).expects = none := by cases w <;> rfl

theorem Edge.self (e : Edge ini p m a op b) (h : ∀ v, op ≠ .state p v) : b.self = a.self := by
  cases e with
  | sState | eZombie => exact absurd rfl (h _)
  | kDone => rename_i w _; cases w <;> rfl
  | _ => rfl

theorem Edge.state {i : Fin N} {v : PState} (e : Edge ini p m a (.state i v) b) :
    (i = p ∧ a.self = .running ∧ b.self = v ∧ a.Holds p (.proc p) ∧ (v = .sleeping ∨ (v = .zombie ∧ ∃ st, a = .eZombie st))) ∨
    ∃ u, a.expects = some (i, u) ∧ Change u v ∧ (a.Holds p (.proc i) ∨ u = .used) ∧
      (v = .runnable → u = .used → a.setup = some i) ∧
      b.self = .running := by
  cases e with
  | sState => exact .inl ⟨rfl, rfl, rfl, rfl, .inl rfl⟩
  | eZombie => exact .inl ⟨rfl, rfl, rfl, rfl, .inr ⟨rfl, _, rfl⟩⟩
  | fSetUsed => exact .inr ⟨_, rfl, .alloc, .inl rfl, nofun, rfl⟩
  | fPublish => exact .inr ⟨_, rfl, .publish, .inr rfl, fun _ _ => rfl, rfl⟩
  | freeState =>
    rename_i r
    cases r with
    | fork => exact .inr ⟨_, rfl, .drop, .inl rfl, nofun, rfl⟩
    | wait x k st => exact .inr ⟨_, rfl, .reap, .inl rfl, nofun, rfl⟩
  | kSet | xRun => exact .inr ⟨_, rfl, .wake, .inl rfl, nofun, rfl⟩

theorem Edge.expects {i : Fin N} {v : PState} (e : Edge ini p m a op b) (h : b.expects = some (i, v)) :
    op = .state i v ∨ (op = .nop ∧ a.Holds p (.proc i) ∧ m.state i = v) ∨ (a.expects = some (i, v) ∧ ∀ j u, op ≠ .state j u) := by
  cases e with
  | kDone => rw [Waker.pc_expects] at h; cases h
  | freePid | freeParent | freeChan | freeKilled | freeXstate =>
    rename_i r; cases r <;> exact .inr (.inr ⟨h, nofun⟩)
  | _ => first | (cases h; done) | exact .inr (.inr ⟨h, nofun⟩) | (cases h; exact .inl rfl) |
    (cases h; exact .inr (.inl ⟨rfl, rfl, ‹_›⟩))

theorem Edge.setup {i : Fin N} (e : Edge ini p m a op b) (h : b.setup = some i) : op = .context i ∨ a.setup = some i := by
  cases e with
  | kDone => rename_i w _; cases w <;> cases h
  | _ => first | (cases h; done) | exact .inr h | (cases h; exact .inl rfl)

theorem Edge.context {i : Fin N} (e : Edge ini p m a (.context i) b) : a.expects = some (i, .used) := by
  cases e; rfl

theorem Edge.drowsy {w : Sleeper} (e : Edge ini p m a op b) (h : b.drowsy = some w) :
    op = .chan p (some (w.chan p)) ∨ (a.drowsy = some w ∧ ∀ ch, op ≠ .chan p ch) := by
  cases e with
  | kDone => rename_i w' _; cases w' <;> cases h
  | _ => first | (cases h; done) | exact .inr ⟨h, nofun⟩ | (cases h; exact .inl rfl)

theorem Edge.chan {i : Fin N} {ch : Option (Chan N)} (e : Edge ini p m a (.chan i ch) b) :
    i = p ∨ (a.Holds p (.proc i) ∧ (a.expects = some (i, .used) ∨ a.expects = some (i, .zombie))) := by
  cases e with
  | freeChan =>
    rename_i r
    exact .inr ⟨rfl, by cases r <;> simp [Pc.expects]⟩
  | _ => exact .inl rfl

theorem Edge.owns {i : Fin N} (e : Edge ini p m a op b) (h : b.Owns i) :
    a.Owns i ∨ (a.Holds p (.proc i) ∧ m.state i = .unused) := by
  cases e with
  | kDone => rcases h with h | h <;> rw [Waker.pc_expects] at h <;> cases h
  | fFound hu => rcases h with h | h <;> cases h; exact .inr ⟨rfl, hu⟩
  | fSetUsed => rcases h with h | h <;> cases h; exact .inl (.inl rfl)
  | freePid | freeParent | freeChan | freeKilled | freeXstate => rename_i r; cases r <;> exact .inl h
  | _ => rcases h with h | h <;> first | (cases h; done) | exact .inl (.inl h) | exact .inl (.inr h)

theorem Edge.ne_sTidy (e : Edge ini p m a op b) (w : Sleeper) : b ≠ .sTidy w := by
  cases e with
  | kDone => rename_i w' _; cases w' <;> nofun
  | _ => nofun

theorem Edge.not_proc (e : Edge ini p m a op b) (v : Option (Fin N)) : op ≠ .proc v := by
  cases e <;> nofun

/-! ## What a scheduler counts on -/

def SPc.expects : SPc N → Option (Fin N × PState)
  | .setRunning i => some (i, .runnable)
  | .setProc i => some (i, .running)
  | .wChan _ i _ | .wSet _ i _ => some (i, .sleeping)
  | _ => none

/-- The process that a CPU has chosen, runs or has just run. -/
def SPc.busy : SPc N → Option (Fin N)
  | .setRunning i | .setProc i | .run i | .back i => some i
  | _ => none

variable {x y : SPc N} {i : Fin N}

theorem SPc.expects_holds {v : PState} (h : x.expects = some (i, v)) :
    x.Holds (.proc i) ∧ (v = .runnable ∨ v = .running ∨ v = .sleeping) := by
  cases x <;> cases h <;> exact ⟨rfl, by simp⟩

theorem SPc.busy_holds (h : x.busy = some i) : x.Holds (.proc i) ∨ x = .run i := by
  cases x <;> cases h <;> first | exact .inl rfl | exact .inr rfl

theorem SPc.eq_setRunning (h : x.expects = some (i, .runnable)) : x = .setRunning i := by
  cases x <;> cases h; rfl

theorem SEdge.ne_run (e : SEdge m x op y) (i : Fin N) : x ≠ .run i := by
  cases e <;> nofun

theorem SEdge.ne_back (e : SEdge m x op y) (i : Fin N) : y ≠ .back i := by
  cases e <;> nofun

theorem SEdge.run (e : SEdge m x op (.run i)) : x = .setProc i ∧ op = .proc (some i) := by
  cases e; exact ⟨rfl, rfl⟩

theorem SEdge.expects {v : PState} (e : SEdge m x op y) (h : y.expects = some (i, v)) :
    op = .state i v ∨ (op = .nop ∧ m.state i = v) ∨ (x.expects = some (i, v) ∧ ∀ j u, op ≠ .state j u) := by
  cases e <;> first | (cases h; done) | exact .inr (.inr ⟨h, nofun⟩) | (cases h; exact .inl rfl) |
    (cases h; exact .inr (.inl ⟨rfl, ‹_›⟩))

theorem SEdge.busy (e : SEdge m x op y) (h : y.busy = some i) :
    x.busy = some i ∨ (x.Holds (.proc i) ∧ m.state i = .runnable) := by
  cases e <;> first | (cases h; done) | exact .inl h | (cases h; exact .inr ⟨rfl, ‹_›⟩)

theorem SEdge.state {v : PState} (e : SEdge m x (.state i v) y) :
    (x.expects = some (i, .runnable) ∧ v = .running) ∨ (x.expects = some (i, .sleeping) ∧ v = .runnable) := by
  cases e
  · exact .inl ⟨rfl, rfl⟩
  · exact .inr ⟨rfl, rfl⟩

/-- A scheduler stores to no field of a process but its state. -/
def Op.Sched : Op N → Prop
  | .nop | .acquire _ | .release _ | .state _ _ | .proc _ => True
  | _ => False

theorem SEdge.sched_op (e : SEdge m x op y) : op.Sched := by cases e <;> trivial

end Xv6.Proc
