/-
  Xv6.Proc.WaitExit — the protocol of `exit`, `wait` and `reparent` (kernel/proc.c).

  `exit` wakes the parent before it stores ZOMBIE, and `reparent` wakes `init` after it has
  handed it a child that may be a ZOMBIE already. Both hold `wait_lock` all the while, and
  `wait` gives it up only with its own lock taken.
-/

import Xv6.Lib.Wait
import Xv6.Proc.Reap


namespace Xv6.Proc

variable {N C : Nat} {ini p q i j : Fin N} {c : Fin C} {s s' : St N C} {m m' : Mem N C} {a b : Pc N} {op : Op N}

/-! ## Who waits, and who wakes -/

/-- In `wait`'s sleep, with `wait_lock` released and the CPU not yet given up. -/
def Pc.dozing : Pc N → Bool
  | .sChan w | .sState w | .sSched w => w.locked
  | _ => false

/-- Past the release of `wait_lock` in `wait`'s sleep, and not woken. -/
def St.Waits (s : St N C) (q : Fin N) : Prop :=
  (s.pc q).dozing = true ∨ ((∃ x, s.pc q = .sTidy (.wait x)) ∧ s.mem.state q = .sleeping)

def St.Calm (s : St N C) (q : Fin N) : Prop := ∀ i, s.mem.parent i = some q → s.mem.state i ≠ .zombie

/-- `wakeup`: the channel, the slots that it has passed by, the caller. -/
def Pc.scan : Pc N → Option (Option (Chan N) × Nat × Waker)
  | .kAcq ch i w => some (ch, i, w)
  | .kState ch i w | .kChan ch i w | .kSet ch i w => some (ch, i, w)
  | .kRel ch i w => some (ch, i + 1, w)
  | _ => none

/-- `reparent` owes `q` a wakeup until its `wakeup` has passed it by. -/
def St.Owes (s : St N C) (p q : Fin N) : Prop := ∃ n st j, (s.pc p).scan = some (some (.proc q), n, .reparent st j) ∧ n ≤ q

/-- In `exit`: the slots that its `wakeup` of the parent has passed by. -/
def Pc.passed : Pc N → Option Nat
  | .kAcq _ i (.exit _) => some i
  | .kState _ i (.exit _) | .kChan _ i (.exit _) | .kSet _ i (.exit _) => some i
  | .kRel _ i (.exit _) => some (i + 1)
  | .eLock _ | .eXstate _ | .eZombie _ => some N
  | _ => none

/-- In `wait`: the slots among which it has found no ZOMBIE child. -/
def Pc.seen : Pc N → Option Nat
  | .wScan _ i _ => some i
  | .wLock _ i | .wTest _ i => some i
  | .wNext _ i => some (i + 1)
  | .wKAcq _ | .wKLoad _ | .wKRel _ _ => some N
  | .sAcq w | .sRel w => if w.locked then some N else none
  | _ => none

structure Wakes (s : St N C) : Prop where
  seen : ∀ p n, (s.pc p).seen = some n → ∀ i : Fin N, i < n → s.mem.parent i = some p → s.mem.state i ≠ .zombie
  target : ∀ p ch n st, (s.pc p).scan = some (ch, n, .exit st) → ch = (s.mem.parent p).map .proc
  passed : ∀ p q n, (s.pc p).passed = some n → s.mem.parent p = some q → q < n → ¬ s.Waits q
  covered : ∀ q, Lib.Covered (fun r => r = q ∧ s.Waits r) (s.Calm q) s.Owes

/-! ## The edges -/

theorem Pc.Bare.seen (h : a.Bare) : a.seen = none := by cases h <;> rfl

theorem Pc.Bare.scan (h : a.Bare) : a.scan = none := by cases h <;> rfl

theorem Pc.Bare.passed (h : a.Bare) : a.passed = none := by cases h <;> rfl

theorem Pc.seen_wait {n : Nat} (h : a.seen = some n) : a.waitLock = true := by
  cases a with
  | sAcq w | sRel w => cases w <;> first | rfl | cases h
  | _ => first | rfl | cases h

theorem Pc.passed_wait {n : Nat} (h : a.passed = some n) : a.waitLock = true ∧ a ≠ .eWaitRel := by
  cases a with
  | kAcq _ _ w | kState _ _ w | kChan _ _ w | kSet _ _ w | kRel _ _ w =>
    cases w <;> cases h
    exact ⟨rfl, nofun⟩
  | eLock st | eXstate st | eZombie => exact ⟨rfl, nofun⟩
  | _ => cases h

theorem Pc.scan_wait {ch : Option (Chan N)} {n : Nat} {w : Waker} (h : a.scan = some (ch, n, w)) (hw : w.locked = true) :
    a.waitLock = true ∧ a ≠ .eWaitRel ∧ a.dozing = false := by
  cases a <;> cases h <;> exact ⟨hw, nofun, rfl⟩

/-- `wakeup` has dealt with slot `q`: it is the caller's own, or it was looked at under its lock. -/
def Handled (p : Fin N) (m : Mem N C) (a : Pc N) (op : Op N) (ch : Option (Chan N)) (q : Fin N) : Prop :=
  q = p ∨ (a.Holds p (.proc q) ∧ (op = .state q .runnable ∨ (op = .nop ∧ ¬ (m.state q = .sleeping ∧ m.chan q = ch))))

theorem Edge.scan_next {ch : Option (Chan N)} {l : Nat} {w : Waker} (e : Edge ini p m a op b) (h : a.scan = some (ch, l, w)) :
    (b = w.pc ∧ N ≤ l ∧ op = .nop) ∨
    ∃ n, b.scan = some (ch, n, w) ∧ ∀ q : Fin N, q < n → q < l ∨ Handled p m a op ch q := by
  have hstep : ∀ (i : Fin N), Handled p m a op ch i → ∀ q : Fin N, (q : Nat) < i + 1 → q < (i : Nat) ∨ Handled p m a op ch q := by
    intro i hi q hq
    rcases Nat.lt_succ_iff_lt_or_eq.mp hq with hq | hq
    · exact .inl hq
    · rw [Fin.ext hq]; exact .inr hi
  cases e with
  | kDone hn => cases h; exact .inl ⟨rfl, hn, rfl⟩
  | kSkip => cases h; exact .inr ⟨_, rfl, hstep p (.inl rfl)⟩
  | kAcq | kSleeping | kChan | kRel => cases h; exact .inr ⟨_, rfl, fun q hq => .inl hq⟩
  | kAwake hs => cases h; exact .inr ⟨_, rfl, hstep _ (.inr ⟨rfl, .inr ⟨rfl, fun hh => hs hh.1⟩⟩)⟩
  | kElse hc => cases h; exact .inr ⟨_, rfl, hstep _ (.inr ⟨rfl, .inr ⟨rfl, fun hh => hc hh.2⟩⟩)⟩
  | kSet => cases h; exact .inr ⟨_, rfl, hstep _ (.inr ⟨rfl, .inl rfl⟩)⟩
  | _ => cases h

theorem Edge.scan_prev {ch : Option (Chan N)} {n : Nat} {w : Waker} (e : Edge ini p m a op b) (h : b.scan = some (ch, n, w)) :
    (∃ l, a.scan = some (ch, l, w)) ∨ w = .other ∨ (∃ st j, w = .reparent st j) ∨
    ∃ st, n = 0 ∧ w = .exit st ∧ op = .nop ∧ ch = (m.parent p).map .proc := by
  cases e with
  | kDone => rename_i w' _; cases w' <;> cases h
  | cWakeup => cases h; exact .inr (.inl rfl)
  | eSetPar => cases h; exact .inr (.inr (.inl ⟨_, _, rfl⟩))
  | eLoadPar => cases h; exact .inr (.inr (.inr ⟨_, rfl, rfl, rfl, rfl⟩))
  | kSkip | kAcq | kSleeping | kChan | kRel | kAwake | kElse | kSet => cases h; exact .inl ⟨_, rfl⟩
  | _ => cases h

theorem Pc.passed_cases {n : Nat} (h : a.passed = some n) :
    (∃ ch st, a.scan = some (ch, n, .exit st)) ∨ (n = N ∧ ∃ st, a = .eLock st ∨ a = .eXstate st ∨ a = .eZombie st) := by
  cases a with
  | kAcq _ _ w | kState _ _ w | kChan _ _ w | kSet _ _ w | kRel _ _ w => cases w <;> cases h; exact .inl ⟨_, _, rfl⟩
  | eLock st => cases h; exact .inr ⟨rfl, st, .inl rfl⟩
  | eXstate st => cases h; exact .inr ⟨rfl, st, .inr (.inl rfl)⟩
  | eZombie st => cases h; exact .inr ⟨rfl, st, .inr (.inr rfl)⟩
  | _ => cases h

theorem Pc.passed_of_scan {ch : Option (Chan N)} {n : Nat} {st : Int} (h : a.scan = some (ch, n, .exit st)) :
    a.passed = some n := by
  cases a <;> cases h <;> rfl

theorem Edge.passed {n : Nat} (e : Edge ini p m a op b) (h : b.passed = some n) : n = 0 ∨
    ∃ l, a.passed = some l ∧ ∀ q : Fin N, q < n → q < l ∨ ∃ ch st, a.scan = some (ch, l, .exit st) ∧ Handled p m a op ch q := by
  rcases Pc.passed_cases h with ⟨ch, st, hb⟩ | ⟨rfl, st, hb⟩
  · rcases e.scan_prev hb with ⟨l, hl⟩ | hw | ⟨_, _, hw⟩ | ⟨_, hn, -⟩
    · rcases e.scan_next hl with ⟨rfl, -⟩ | ⟨n', hb', hq⟩
      · cases hb
      · cases hb.symm.trans hb'
        exact .inr ⟨l, Pc.passed_of_scan hl, fun q hlt => (hq q hlt).imp_right fun hh => ⟨ch, st, hl, hh⟩⟩
    · cases hw
    · cases hw
    · exact .inl hn
  · refine .inr ?_
    cases e with
    | kDone hn =>
      rename_i w
      cases w <;> rcases hb with hb | hb | hb <;> cases hb
      exact ⟨_, rfl, fun q _ => .inl (by omega)⟩
    | eLock | eXstate => exact ⟨_, rfl, fun q hq => .inl hq⟩
    | _ => rcases hb with hb | hb | hb <;> cases hb

theorem Edge.seen {n : Nat} (e : Edge ini p m a op b) (h : b.seen = some n) :
    n = 0 ∨ ((∀ i v, op ≠ .state i v) ∧ (∀ i x, op ≠ .parent i x) ∧
      ∃ l, a.seen = some l ∧ ∀ i : Fin N, i < n → i < l ∨ m.parent i ≠ some p ∨ m.state i ≠ .zombie) := by
  cases e with
  | kDone => rename_i w _; cases w <;> cases h
  | wAcq | sReacqWait => cases h; exact .inl rfl
  | wOther hi hp =>
    cases h
    refine .inr ⟨nofun, nofun, _, rfl, fun j hj => (Nat.lt_succ_iff_lt_or_eq.mp hj).imp_right fun hj => .inl ?_⟩
    rw [show j = ⟨_, hi⟩ from Fin.ext hj]
    exact hp
  | wAlive hs =>
    cases h
    refine .inr ⟨nofun, nofun, _, rfl, fun j hj => (Nat.lt_succ_iff_lt_or_eq.mp hj).imp_right fun hj => .inr ?_⟩
    rw [Fin.ext hj]
    exact hs
  | wKids hn => cases h; exact .inr ⟨nofun, nofun, _, rfl, fun j hj => .inl (by omega)⟩
  | wSleep => cases h; exact .inr ⟨nofun, nofun, _, rfl, fun j hj => .inl hj⟩
  | cSleep => cases h
  | _ => first | (cases h; done) | exact .inr ⟨nofun, nofun, n, h, fun j hj => .inl hj⟩

theorem Edge.dozing (e : Edge ini p m a op b) (h : b.dozing = true) : a.dozing = true ∨
    (∃ x, a = .sRel (.wait x) ∧ op = .release .wait) := by
  cases e with
  | kDone => rename_i w _; cases w <;> cases h
  | sRelWait => exact .inr ⟨_, rfl, rfl⟩
  | _ => first | cases h | exact .inl h

/-! ## One step -/

theorem Control.waits_locked (h : Control s) (hh : s.Holds c (.proc q)) (hc : s.spc c ≠ .run q) (hw : s.Waits q) :
    s.mem.state q = .sleeping ∧ s.mem.chan q = some (.proc q) ∧ (s.pc q).dozing = false := by
  have hrest : ∀ c', s.spc c' = .run q → ¬ s.Thread q (.proc q) := fun c' hc' ht =>
    hc (h.lock.unique hh ((holds_run hc' _).mpr ht) ▸ hc')
  rcases hw with hd | ⟨⟨x, hx⟩, hst⟩
  · -- a process that dozes has its lock
    have hlock : (s.pc q).Holds q (.proc q) := by generalize s.pc q = a at hd; cases a <;> first | rfl | cases hd
    by_cases hr : ∃ c', s.spc c' = .run q
    · obtain ⟨c', hc'⟩ := hr
      exact (hrest c' hc' (.inr hlock)).elim
    · rcases (h.rest q fun c' hc' => hr ⟨c', hc'⟩).holds hlock with he | ⟨w, he⟩ <;> rw [he] at hd <;> cases hd
  · have hr := h.rest q fun c' hc' => hrest c' hc' (.inr (by rw [hx]; rfl))
    unfold St.Rest at hr
    rw [hst] at hr
    obtain ⟨-, w, hw, hchan⟩ := hr
    cases hx.symm.trans hw
    exact ⟨hst, hchan, by rw [hx]; rfl⟩

theorem Code.waits (k : Code ini s p op b s') (hw : s'.Waits q) : s.Waits q ∨
    (q = p ∧ op = .release .wait ∧ ∃ x, s.pc p = .sRel (.wait x)) := by
  by_cases e : q = p
  · subst e
    rcases hw with hd | ⟨⟨x, hx⟩, -⟩
    · rcases k.edge.dozing (k.pc ▸ hd) with hd | ⟨x, ha, hop⟩
      · exact .inl (.inl hd)
      · exact .inr ⟨rfl, hop, x, ha⟩
    · exact (k.edge.ne_sTidy _ (k.pc.symm.trans hx)).elim
  · refine .inl ?_
    rcases k.start q e with he | ⟨-, hf⟩
    · unfold St.Waits at hw ⊢
      rw [he] at hw
      refine hw.imp_right fun ⟨hx, hst⟩ => ⟨hx, ?_⟩
      rcases k.state_at q with hs | hop
      · exact hs.symm.trans hst
      · have hed := k.edge
        rw [hop, hst] at hed
        rcases hed.state with ⟨hq, -⟩ | ⟨u, -, hch, -⟩
        · exact absurd hq e
        · cases hch
    · rcases hw with hd | ⟨⟨x, hx⟩, -⟩
      · rw [hf] at hd; cases hd
      · rw [hf] at hx; cases hx

theorem Idle.waits (k : Idle s s') (hw : s'.Waits q) : s.Waits q := by
  rcases k.leave q with he | hl
  · unfold St.Waits at hw ⊢
    rw [he] at hw
    refine hw.imp_right fun ⟨hx, hst⟩ => ⟨hx, ?_⟩
    rcases k.state q with hs | ⟨-, hs | hs⟩
    · exact hs.symm.trans hst
    · cases hs.symm.trans hst
    · cases hs.symm.trans hst
  · -- it gives up its CPU
    left
    rcases Pc.leave_cases hl with ⟨w, ha, hb⟩ | ⟨-, hb⟩ <;> rcases hw with hd | ⟨⟨x, hx⟩, -⟩
    · rw [hb] at hd; cases hd
    · cases hb.symm.trans hx
      rw [ha]; rfl
    · rw [hb] at hd; cases hd
    · cases hb.symm.trans hx

theorem Code.handled (h : Control s) (k : Code ini s p op b s') (hq : q ≠ p)
    (hh : Handled p s.mem (s.pc p) op (some (.proc q)) q) : ¬ s'.Waits q := by
  obtain ⟨c, hc, -, hm⟩ := k.effect
  rcases hh with he | ⟨hold, hop⟩
  · exact absurd he hq
  · have hlock : s.Holds c (.proc q) := (holds_run hc _).mpr (.inr hold)
    have hne : s.spc c ≠ .run q := fun hc' => by cases hc.symm.trans hc'; exact hq rfl
    intro hw
    rcases k.waits hw with hw0 | ⟨he, -⟩
    · obtain ⟨hst, hchan, hd⟩ := h.waits_locked hlock hne hw0
      rcases hop with rfl | ⟨-, hno⟩
      · rcases hw with hd' | ⟨-, hst'⟩
        · rcases k.start q hq with hpc | ⟨-, hf⟩
          · rw [hpc, hd] at hd'; cases hd'
          · rw [hf] at hd'; cases hd'
        · rw [← Option.some.inj hm] at hst'
          cases (Function.update_self q PState.runnable s.mem.state).symm.trans hst'
      · exact hno ⟨hst, hchan⟩
    · exact hq he

theorem Code.parent_self (h : Control s) (k : Code ini s p op b s') (hq : q ≠ p)
    (hw : (s.pc q).waitLock = true) (hz : s.pc q ≠ .eWaitRel) : s'.mem.parent q = s.mem.parent q := by
  have halive := h.alive_of_wait hw hz
  refine (k.parent_at q).resolve_right ?_
  rintro (⟨n, ha, -⟩ | ⟨t, ha, -⟩ | ⟨st, ha, -⟩)
  · exact hq (h.wait_unique hw (by rw [ha]; rfl))
  · cases t with
    | fork => rw [h.expects p q .used (by rw [ha]; rfl)] at halive; simp [PState.Alive] at halive
    | wait => rw [h.expects p q .zombie (by rw [ha]; rfl)] at halive; simp [PState.Alive] at halive
  · exact hq (h.wait_unique hw (by rw [ha]; rfl))

theorem Code.zombie (k : Code ini s p op b s') (hz : s'.mem.state i = .zombie) :
    s.mem.state i = .zombie ∨ (i = p ∧ ∃ st, s.pc p = .eZombie st) := by
  rcases k.state_at i with he | hop
  · exact .inl (he.symm.trans hz)
  · have hed := k.edge
    rw [hop, hz] at hed
    rcases hed.state with ⟨e, -, -, -, hv | ⟨-, ha⟩⟩ | ⟨u, -, hch, -⟩
    · cases hv
    · exact .inr ⟨e, ha⟩
    · cases hch

theorem Code.child (k : Code ini s p op b s') (hq : s'.mem.parent i = some q) :
    s.mem.parent i = some q ∨ ((s.pc p).waitLock = true ∧
      ((q = p ∧ (s.pc p).expects = some (i, .used)) ∨ (q = ini ∧ ∃ st, b = .kAcq (some (.proc ini)) 0 (.reparent st i)))) := by
  rcases k.parent_at i with he | ⟨n, ha, he⟩ | ⟨t, -, he⟩ | ⟨st, ha, he⟩
  · exact .inl (he.symm.trans hq)
  · cases he.symm.trans hq
    exact .inr ⟨by rw [ha]; rfl, .inl ⟨rfl, by rw [ha]; rfl⟩⟩
  · cases he.symm.trans hq
  · cases he.symm.trans hq
    have hed := k.edge
    rw [ha] at hed
    cases hed
    exact .inr ⟨by rw [ha]; rfl, .inr ⟨rfl, st, rfl⟩⟩

theorem Wakes.seen_code (h : Control s) (hw : Wakes s) (k : Code ini s p op b s') (q : Fin N) (n : Nat)
    (hq : (s'.pc q).seen = some n) (i : Fin N) (hi : i < n) (hpar : s'.mem.parent i = some q) : s'.mem.state i ≠ .zombie := by
  rcases k.role (fun _ hb => hb.seen) hq with ⟨rfl, hq⟩ | ⟨e, hq⟩
  · rcases k.edge.seen hq with rfl | ⟨hst, hp, l, hl, hscan⟩
    · omega
    · rw [k.frame.state hst]
      rw [k.frame.parent hp] at hpar
      rcases hscan i hi with hlt | hne | hne
      · exact hw.seen q l hl i hlt hpar
      · exact absurd hpar hne
      · exact hne
  · have hlock := Pc.seen_wait hq
    have hno : (s.pc p).waitLock ≠ true := fun hp => e (h.wait_unique hlock hp)
    intro hz
    rcases k.zombie hz with hz | ⟨-, st, ha⟩
    · rcases k.child hpar with hpar | ⟨hp, -⟩
      · exact hw.seen q n hq i hi hpar hz
      · exact hno hp
    · exact hno (by rw [ha]; rfl)

theorem Wakes.target_code (h : Control s) (hw : Wakes s) (k : Code ini s p op b s') (q : Fin N)
    (ch : Option (Chan N)) (n : Nat) (st : Int) (hq : (s'.pc q).scan = some (ch, n, .exit st)) :
    ch = (s'.mem.parent q).map .proc := by
  rcases k.role (fun _ hb => hb.scan) hq with ⟨rfl, hq⟩ | ⟨e, hq⟩
  · have hstay : s'.mem.parent = s.mem.parent := k.frame.parent (by
      rintro i x rfl
      rcases k.edge.parent with ⟨_, -, -, hb⟩ | ⟨_, -, -, hb⟩ | ⟨_, -, -, hb⟩ <;> rw [hb] at hq <;> cases hq)
    rw [hstay]
    rcases k.edge.scan_prev hq with ⟨l, hl⟩ | hw' | ⟨_, _, hw'⟩ | ⟨_, -, -, -, hch⟩
    · exact hw.target q ch l st hl
    · cases hw'
    · cases hw'
    · exact hch
  · obtain ⟨hlock, hz, -⟩ := Pc.scan_wait hq rfl
    rw [k.parent_self h e hlock hz]
    exact hw.target q ch n st hq

theorem Wakes.passed_code (h : Control s) (hp : Parents ini s) (hw : Wakes s) (k : Code ini s p op b s') (r q : Fin N) (n : Nat)
    (hr : (s'.pc r).passed = some n) (hpar : s'.mem.parent r = some q) (hq : q < n) : ¬ s'.Waits q := by
  rcases k.role (fun _ hb => hb.passed) hr with ⟨rfl, hr⟩ | ⟨e, hr⟩
  · have hpar : s.mem.parent r = some q := by
      rwa [k.frame.parent] at hpar
      rintro i x rfl
      rcases k.edge.parent with ⟨_, -, -, hb⟩ | ⟨_, -, -, hb⟩ | ⟨_, -, -, hb⟩ <;> rw [hb] at hr <;> cases hr
    have hne : q ≠ r := hp.irrefl r q hpar
    rcases k.edge.passed hr with rfl | ⟨l, hl, hscan⟩
    · omega
    · rcases hscan q hq with hlt | ⟨ch, st, hs, hh⟩
      · intro hwait
        rcases k.waits hwait with hwait | ⟨he, -⟩
        · exact hw.passed r q l hl hpar hlt hwait
        · exact hne he
      · rw [hw.target r ch l st hs, hpar] at hh
        exact k.handled h hne hh
  · obtain ⟨hlock, hz⟩ := Pc.passed_wait hr
    rw [k.parent_self h e hlock hz] at hpar
    intro hwait
    rcases k.waits hwait with hwait | ⟨-, -, x, ha⟩
    · exact hw.passed r q n hr hpar hq hwait
    · exact e (h.wait_unique hlock (by rw [ha]; rfl))

theorem Wakes.covered_code (h : Control s) (hp : Parents ini s) (hw : Wakes s) (k : Code ini s p op b s') (q : Fin N) :
    Lib.Covered (fun r => r = q ∧ s'.Waits r) (s'.Calm q) s'.Owes := by
  refine (hw.covered q).step ?_ ?_ ?_
  · -- it goes to sleep: it has looked at every slot
    rintro r ⟨rfl, hr⟩
    rcases k.waits hr with hr | ⟨rfl, rfl, x, ha⟩
    · exact .inl ⟨rfl, hr⟩
    · refine .inr fun i hi => ?_
      rw [k.frame.state nofun]
      rw [k.frame.parent nofun] at hi
      exact hw.seen r N (by rw [ha]; rfl) i i.isLt hi
  · -- it gets a ZOMBIE child: one that has woken it, or from `reparent`
    intro hcalm hnot
    simp only [St.Calm, not_forall, not_not] at hnot
    obtain ⟨i, hi, hz⟩ := hnot
    refine ⟨p, ?_⟩
    rintro r ⟨rfl, hr⟩
    rcases k.child hi with hi0 | ⟨-, ⟨-, hx⟩ | ⟨rfl, st, hb⟩⟩
    · rcases k.zombie hz with hz | ⟨rfl, st, ha⟩
      · exact absurd hz (hcalm i hi0)
      · rcases k.waits hr with hr | ⟨-, -, x, ha'⟩
        · exact absurd hr (hw.passed i r N (by rw [ha]; rfl) hi0 r.isLt)
        · rw [ha] at ha'; cases ha'
    · rcases k.zombie hz with hz | ⟨rfl, st, ha⟩
      · rw [h.expects p i _ hx] at hz; cases hz
      · rw [ha] at hx; cases hx
    · exact ⟨0, st, i, by rw [k.pc, hb]; rfl, Nat.zero_le _⟩
  · rintro w r ⟨n, st, j, hs, hn⟩ ⟨rfl, hr⟩
    refine .inr ⟨w, ?_⟩
    by_cases e : w = p
    · subst e
      rcases k.edge.scan_next hs with ⟨-, hN, -⟩ | ⟨n', hb, hq⟩
      · omega
      · refine ⟨n', st, j, by rw [k.pc]; exact hb, ?_⟩
        by_contra hlt
        -- the wakeup reached it in this step
        rcases hq r (by omega) with hlt' | hh
        · omega
        · by_cases hrw : r = w
          · subst hrw
            rcases hr with hd | ⟨⟨x, hx⟩, -⟩
            · rw [k.pc, (Pc.scan_wait hb rfl).2.2] at hd; cases hd
            · rw [k.pc] at hx; rw [hx] at hb; cases hb
          · exact k.handled h hrw hh hr
    · refine ⟨n, st, j, ?_, hn⟩
      rw [role_other (fun _ hb => hb.scan) (k.other w e)]; exact hs

theorem Wakes.idle (hw : Wakes s) (k : Idle s s') : Wakes s' := by
  have hz : ∀ i, s'.mem.state i = .zombie → s.mem.state i = .zombie := fun i hz =>
    (k.not_alive (by simp [hz, PState.Alive])).symm.trans hz
  have hscan := fun q => role_other (fun _ hb => hb.scan) (k.pc q)
  refine ⟨fun p n hp i hi hpar hzi => ?_, fun p ch n st hp => ?_, fun p q n hp hpar hq hwait => ?_, fun q => ?_⟩
  · rw [role_other (fun _ hb => hb.seen) (k.pc p)] at hp
    exact hw.seen p n hp i hi (k.parent ▸ hpar) (hz i hzi)
  · rw [k.parent]; exact hw.target p ch n st (hscan p ▸ hp)
  · rw [role_other (fun _ hb => hb.passed) (k.pc p)] at hp
    exact hw.passed p q n hp (k.parent ▸ hpar) hq (k.waits hwait)
  · have howes : ∀ w r, s.Owes w r → s'.Owes w r := fun w r => by unfold St.Owes; rw [hscan]; exact id
    have hcalm : s.Calm q → s'.Calm q := fun hc i hi hzi => hc i (k.parent ▸ hi) (hz i hzi)
    exact (hw.covered q).step (fun r ⟨e, hr⟩ => .inl ⟨e, k.waits hr⟩) (fun hc hn => absurd (hcalm hc) hn)
      (fun w r ho _ => .inr ⟨w, howes w r ho⟩)

theorem Wakes.step (h : Control s) (hp : Parents ini s) (hw : Wakes s) (e : Eff ini s c s') : Wakes s' := by
  rcases h.cases e with ⟨p, op, b, k⟩ | k
  · exact ⟨hw.seen_code h k, hw.target_code h k, hw.passed_code h hp k, hw.covered_code h hp k⟩
  · exact hw.idle k

theorem Wakes.init : Wakes (init ini C) where
  seen p n hp := by rw [(init_bare p).seen] at hp; cases hp
  target p ch n st hp := by rw [(init_bare p).scan] at hp; cases hp
  passed p q n hp := by rw [(init_bare p).passed] at hp; cases hp
  covered q r _ := .inl fun i hi => by cases hi

end Xv6.Proc
