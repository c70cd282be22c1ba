/-
  Xv6.Proc.Reap — what `wait` returns. Each exit is in the history once; a ZOMBIE that has its
  pid has its exit's status; who reaps it is the process that forked it, or `init` once that
  process has exited.
-/

import Xv6.Proc.Parents


namespace Xv6.Proc

open Function (update update_self update_of_ne)

variable {N C : Nat} {ini p q i j : Fin N} {c : Fin C} {s s' : St N C} {m m' : Mem N C} {a b : Pc N} {op : Op N} {k : Pid}

/-! ## Pids that are gone -/

def Gone (s : St N C) (k : Pid) : Prop := 0 < k.draw ∧ k.draw < s.mem.nextpid.draw ∧ ∀ i, ¬ HasPid s i k

theorem Gone.step (h : Control s) (hp : Pids s) (e : Eff ini s c s') (hg : Gone s k) : Gone s' k := by
  have := nextpid_mono h hp e
  exact ⟨hg.1, by have := hg.2.1; omega, fun i hi => hg.2.2 i (hi.of_step h hp e hg.1 hg.2.1)⟩

theorem Gone.not_pid (hg : Gone s k) (i : Fin N) : s.mem.pid i ≠ k := fun he => hg.2.2 i (.inl he)

theorem Pids.alive (h : Control s) (hp : Pids s) (ha : (s.mem.state i).Alive) : 0 < (s.mem.pid i).draw := by
  refine Nat.pos_of_ne_zero ((hp.blank i fun hu => by simp [hu, PState.Alive] at ha).resolve_right fun ⟨q, hq⟩ => ?_)
  rcases Pc.wiped_dead hq with hx | hx <;> rw [h.expects q i _ hx] at ha <;> simp [PState.Alive] at ha

theorem Code.pid_alive (h : Control s) (k : Code ini s p op b s') (ha : (s.mem.state i).Alive) :
    s'.mem.pid i = s.mem.pid i := by
  refine (k.pid_at i).resolve_right ?_
  rintro (hpc | ⟨t, hpc, -⟩)
  · rw [h.expects p i .unused (by rw [hpc]; rfl)] at ha
    simp [PState.Alive] at ha
  · cases t
    · rw [h.expects p i .used (by rw [hpc]; rfl)] at ha
      simp [PState.Alive] at ha
    · rw [h.expects p i .zombie (by rw [hpc]; rfl)] at ha
      simp [PState.Alive] at ha

theorem Code.gone (hp : Pids s) (k : Code ini s p op b s') {t : Freer} (ha : s.pc p = .free .pid i t)
    (h0 : 0 < (s.mem.pid i).draw) : Gone s' (s.mem.pid i) := by
  have he := k.edge
  rw [ha] at he
  obtain ⟨c, -, -, hm⟩ := k.effect
  cases he
  have hpid : s'.mem.pid = update s.mem.pid i .zero := by rw [← Option.some.inj hm]
  have hlt := hp.range i
  have hle := hp.nextpid_le k
  refine ⟨h0, by omega, fun j hj => ?_⟩
  rcases hj with hj | ⟨q, hq⟩
  · rw [hpid] at hj
    by_cases e : j = i
    · subst e; rw [update_self] at hj; rw [← hj] at h0; cases h0
    · rw [update_of_ne e] at hj
      exact e (hp.inj j i hj (by rw [hj]; omega))
  · rcases hp.drawn_step k q j _ hq with hq | ⟨-, hn, -⟩
    · exact (hp.drawn q j _ hq).2.2 i rfl
    · rw [hn] at hlt
      exact Nat.lt_irrefl _ hlt

/-! ## What the history says -/

def Exited (s : St N C) (k : Pid) : Prop := ∃ st, (k, st) ∈ s.hist.exits

/-- In `exit`, under `wait_lock` and not yet a ZOMBIE. -/
def Leaving (s : St N C) (k : Pid) : Prop := ∃ r, s.mem.pid r = k ∧ (s.pc r).waitLock = true ∧ (s.pc r).orphans ≠ none

/-- The pid and the status that a process with pid `w` is told. -/
def Told (s : St N C) (w : Pid) (addr : Bool) (k : Pid) (status : Option Int) : Prop :=
  (∃ st, (k, st) ∈ s.hist.exits ∧ status = if addr then some st else none) ∧
  ∃ par, (k, par) ∈ s.hist.forks ∧ (par = w ∨ (w = ⟨1, 1⟩ ∧ Exited s par))

/-- What `wait` is about to return: `addr != 0`, the pid, what it has copied out. -/
def Freer.due : Freer → Option (Bool × Pid × Option Int)
  | .wait x k st => some (x, k, st)
  | .fork => none

@[inherit_doc Freer.due]
def Pc.due : Pc N → Option (Bool × Pid × Option Int)
  | .free _ _ r | .freeRel _ r => r.due
  | .waitRet x k st => some (x, k, st)
  | _ => none

/-- The pid that `wait` is about to return, once it has cleared it. -/
def Pc.taken : Pc N → Option Pid
  | .free .pid _ _ => none
  | .free _ _ (.wait _ k _) | .freeRel _ (.wait _ k _) | .waitRet _ k _ => some k
  | _ => none

structure Reap (ini : Fin N) (s : St N C) : Prop where
  root : s.mem.pid ini = ⟨1, 1⟩
  once : (s.hist.exits.map Prod.fst).Nodup
  exits : ∀ x ∈ s.hist.exits, 0 < x.1.draw ∧ ((∃ i, s.mem.state i = .zombie ∧ s.mem.pid i = x.1) ∨ Gone s x.1)
  stored : ∀ p st, s.pc p = .eZombie st → s.mem.xstate p = st
  zombie : ∀ i, s.mem.state i = .zombie → (s.mem.pid i).draw ≠ 0 → (s.mem.pid i, s.mem.xstate i) ∈ s.hist.exits
  kin : ∀ i q, s.mem.parent i = some q → (s.mem.pid i).draw ≠ 0 →
    ∃ par, (s.mem.pid i, par) ∈ s.hist.forks ∧ (par = s.mem.pid q ∨ (q = ini ∧ (Exited s par ∨ Leaving s par)))
  due : ∀ p x k st, (s.pc p).due = some (x, k, st) → Told s (s.mem.pid p) x k st ∧ k ∉ s.hist.reports.map Report.pid
  taken : ∀ p k, (s.pc p).taken = some k → Gone s k
  reports : (s.hist.reports.map Report.pid).Nodup
  told : ∀ r ∈ s.hist.reports, Gone s r.pid ∧ Told s r.waiter r.addr r.pid r.status

theorem Pc.Bare.due (h : a.Bare) : a.due = none := by cases h <;> rfl

theorem Pc.Bare.taken (h : a.Bare) : a.taken = none := by cases h <;> rfl

theorem note_mono (p : Fin N) (m : Mem N C) (h : Hist) (a : Pc N) :
    h.exits ⊆ (note p m h a).exits ∧ h.forks ⊆ (note p m h a).forks := by
  cases a <;> first
    | exact ⟨List.Subset.refl _, List.Subset.refl _⟩
    | exact ⟨List.subset_cons_self _ _, List.Subset.refl _⟩
    | exact ⟨List.Subset.refl _, List.subset_cons_self _ _⟩

theorem Code.exited (kd : Code ini s p op b s') (h : Exited s k) : Exited s' k := by
  obtain ⟨st, hst⟩ := h
  exact ⟨st, kd.hist ▸ (note_mono ..).1 hst⟩

theorem Code.told (kd : Code ini s p op b s') {w : Pid} {x : Bool} {st : Option Int} (h : Told s w x k st) :
    Told s' w x k st := by
  obtain ⟨⟨st, hst, hx⟩, par, hpar, hw⟩ := h
  exact ⟨⟨st, kd.hist ▸ (note_mono ..).1 hst, hx⟩, par, kd.hist ▸ (note_mono ..).2 hpar,
    hw.imp_right fun ⟨h1, he⟩ => ⟨h1, kd.exited he⟩⟩

theorem note_exits (h : Hist) : (note p m h a).exits = h.exits ∨
    ∃ st, a = .eZombie st ∧ (note p m h a).exits = (m.pid p, st) :: h.exits := by
  cases a <;> first | exact .inl rfl | exact .inr ⟨_, rfl, rfl⟩

theorem note_reports (h : Hist) : (note p m h a).reports = h.reports ∨
    ∃ x k st, a = .waitRet x k st ∧ (note p m h a).reports = ⟨m.pid p, x, k, st⟩ :: h.reports := by
  cases a <;> first | exact .inl rfl | exact .inr ⟨_, _, _, rfl, rfl⟩

/-! ## Forks -/

/-- The slot of a fork that has stored its pid and not yet its parent. -/
def Pc.unborn : Pc N → Option (Fin N)
  | .fSetUsed i | .fBuild i | .fCopy i | .fGetPid i | .fRel i _ | .fWait i _ | .fParent i _ => some i
  | _ => none

structure Births (s : St N C) : Prop where
  old : ∀ k ∈ s.hist.forks.map Prod.fst, Stored s k
  unborn : ∀ p i, (s.pc p).unborn = some i → s.mem.pid i ∉ s.hist.forks.map Prod.fst
  once : (s.hist.forks.map Prod.fst).Nodup

theorem Pc.Bare.unborn (h : a.Bare) : a.unborn = none := by cases h <;> rfl

theorem Pc.unborn_expects (h : a.unborn = some i) : ∃ u, a.expects = some (i, u) := by
  cases a <;> cases h <;> exact ⟨_, rfl⟩

theorem Edge.unborn (e : Edge ini p m a op b) (h : b.unborn = some i) :
    (∃ k, a = .fSetPid i k ∧ op = .pid i k) ∨ (a.unborn = some i ∧ (∀ j k, op ≠ .pid j k) ∧ ∀ k, a ≠ .fParent i k) := by
  cases e with
  | kDone => rename_i w _; cases w <;> cases h
  | fSetPid => cases h; exact .inl ⟨_, rfl, rfl⟩
  | fSetUsed | fBuild | fCopy | fGetPid | fRel | fWait => exact .inr ⟨h, nofun, nofun⟩
  | _ => cases h

theorem note_forks (h : Hist) : (note p m h a).forks = h.forks ∨
    ∃ i k, a = .fParent i k ∧ (note p m h a).forks = (m.pid i, m.pid p) :: h.forks := by
  cases a <;> first | exact .inl rfl | exact .inr ⟨_, _, rfl, rfl⟩

theorem Births.code (h : Control s) (hp : Pids s) (hb : Births s) (kd : Code ini s p op b s') : Births s' := by
  have hforks : s'.hist.forks = s.hist.forks ∨
      ∃ i n, s.pc p = .fParent i n ∧ s'.hist.forks = (s.mem.pid i, s.mem.pid p) :: s.hist.forks := by
    rw [kd.hist]; exact note_forks _
  -- a slot whose parent is not stored in this step stays unborn
  have hstay : ∀ i, s'.mem.pid i = s.mem.pid i → (∀ n, s.pc p ≠ .fParent i n) → (s.mem.pid i).draw ≠ 0 →
      s.mem.pid i ∉ s.hist.forks.map Prod.fst → s'.mem.pid i ∉ s'.hist.forks.map Prod.fst := by
    intro i hpid hne h0 hno
    rw [hpid]
    rcases hforks with he | ⟨j, n, ha, he⟩
    · rw [he]; exact hno
    · rw [he, List.map_cons, List.mem_cons, not_or]
      exact ⟨fun hij => hne n (hp.inj i j hij h0 ▸ ha), hno⟩
  refine ⟨fun k hk => ?_, fun q i hq => ?_, ?_⟩
  · rcases hforks with he | ⟨i, n, -, he⟩
    · exact (hb.old k (he ▸ hk)).code hp kd
    · rw [he] at hk
      rcases List.mem_cons.mp hk with rfl | hk
      · exact (hp.stored i).code hp kd
      · exact (hb.old k hk).code hp kd
  · have h0 : ∀ r, (s.pc r).unborn = some i → (s.mem.pid i).draw ≠ 0 := fun r hr => by
      have hk := hp.knows r
      generalize s.pc r = a at hr hk
      cases a <;> cases hr <;> first | exact hk | (rw [hk.1]; exact hk.2)
    rcases kd.role (fun _ hb => hb.unborn) hq with ⟨rfl, hq⟩ | ⟨e, hq⟩
    · rcases kd.edge.unborn hq with ⟨k, ha, rfl⟩ | ⟨ha, hop, hne⟩
      · obtain ⟨c, -, -, hm⟩ := kd.effect
        have hpid : s'.mem.pid i = k := by rw [← Option.some.inj hm]; exact update_self ..
        have hf : s'.hist.forks = s.hist.forks := by rw [kd.hist, ha]; rfl
        rw [hpid, hf]
        exact fun hk => (hb.old k hk).2 q i (by rw [ha]; rfl)
      · exact hstay i (congrFun (kd.frame.pid hop) i) hne (h0 q ha) (hb.unborn q i ha)
    · obtain ⟨u, hx⟩ := Pc.unborn_expects hq
      have nb : ¬ (s.pc q).Bare := fun hb => by rw [hb.expects] at hx; cases hx
      refine hstay i (kd.pid_other h e nb (.inl ⟨u, hx⟩)) (fun n ha => e (h.expects_unique hx (by rw [ha]; rfl))) (h0 q hq)
        (hb.unborn q i hq)
  · rcases hforks with he | ⟨i, n, ha, he⟩
    · rw [he]; exact hb.once
    · rw [he]; exact List.nodup_cons.mpr ⟨hb.unborn p i (by rw [ha]; rfl), hb.once⟩

theorem Births.step (h : Control s) (hp : Pids s) (hb : Births s) (e : Eff ini s c s') : Births s' := by
  rcases h.cases e with ⟨p, op, b, k⟩ | k
  · exact hb.code h hp k
  · refine ⟨fun n hn => (hb.old n (k.hist ▸ hn)).idle k, fun q i hq => ?_, k.hist ▸ hb.once⟩
    rw [role_other (fun _ hb => hb.unborn) (k.pc q)] at hq
    rw [k.pid, k.hist]; exact hb.unborn q i hq

theorem Births.init : Births (init ini C) where
  old k hk := by cases hk
  unborn p i hp := by rw [(init_bare p).unborn] at hp; cases hp
  once := List.nodup_nil

theorem Edge.due {x : Bool} {st : Option Int} (e : Edge ini p m a op b) (h : b.due = some (x, k, st)) :
    a.due = some (x, k, st) ∨ (∃ i, a = .wCopy x i k ∧ b = .free .pid i (.wait x k st) ∧
      st = if x then some (m.xstate i) else none) := by
  cases e with
  | kDone => rename_i w _; cases w <;> cases h
  | freePid | freeParent | freeChan | freeKilled | freeXstate | freeState | freeRel => exact .inl h
  | wCopied => cases h; exact .inr ⟨_, rfl, rfl, rfl⟩
  | _ => cases h

theorem Edge.taken (e : Edge ini p m a op b) (h : b.taken = some k) :
    a.taken = some k ∨ ∃ i x st, a = .free .pid i (.wait x k st) := by
  cases e with
  | kDone => rename_i w _; cases w <;> cases h
  | freePid => rename_i t; cases t <;> cases h; exact .inr ⟨_, _, _, rfl⟩
  | freeParent | freeChan | freeKilled | freeXstate | freeState | freeRel =>
    rename_i t; cases t <;> first | (cases h; done) | exact .inl h
  | _ => cases h

theorem Edge.leaving (e : Edge ini p m a op b) (hw : a.waitLock = true) (ho : a.orphans ≠ none) :
    (b.waitLock = true ∧ b.orphans ≠ none) ∨ ∃ st, a = .eZombie st := by
  cases e with
  | kDone => rename_i w _; cases w <;> first | (cases hw; done) | exact .inl ⟨rfl, nofun⟩
  | eZombie => exact .inr ⟨_, rfl⟩
  | kSkip | kAcq | kSleeping | kAwake | kChan | kElse | kSet | kRel => exact .inl ⟨hw, ho⟩
  | _ => first | exact absurd rfl ho | (cases hw; done) | exact .inl ⟨rfl, nofun⟩

theorem Edge.xstate {st : Int} (e : Edge ini p m a (.xstate i st) b) : (i = p ∧ a.self = .running) ∨ a.wiped = some i := by
  cases e
  · exact .inr rfl
  · exact .inl ⟨rfl, rfl⟩

theorem Edge.stored {st : Int} (e : Edge ini p m a op b) (h : b = .eZombie st) : op = .xstate p st := by
  cases e with
  | kDone => rename_i w _; cases w <;> cases h
  | eXstate => cases h; rfl
  | _ => cases h

/-! ## One step -/

theorem Code.exits_eq (kd : Code ini s p op b s') :
    s'.hist.exits = s.hist.exits ∨ ∃ st, s.pc p = .eZombie st ∧ s'.hist.exits = (s.mem.pid p, st) :: s.hist.exits := by
  rw [kd.hist]; exact note_exits _

theorem Reap.fresh_exit (h : Control s) (hp : Pids s) (hr : Reap ini s) (hc : s.spc c = .run p) (hi : s.irq p = .none)
    {st : Int} (ha : s.pc p = .eZombie st) :
    s.mem.state p = .running ∧ 0 < (s.mem.pid p).draw ∧ s.mem.pid p ∉ s.hist.exits.map Prod.fst := by
  have hst : s.mem.state p = .running := by rw [h.self c p hc, St.self, hi, ha]; rfl
  refine ⟨hst, hp.alive h (.inr (.inr hst)), fun hmem => ?_⟩
  obtain ⟨x, hx, hxp⟩ := List.mem_map.mp hmem
  obtain ⟨h0, ⟨i, hz, hpid⟩ | hg⟩ := hr.exits x hx
  · obtain rfl := hp.inj i p (hpid.trans hxp) (by rw [hpid]; omega)
    rw [hst] at hz; cases hz
  · exact hg.not_pid p hxp.symm

theorem Code.zombie_stays (h : Control s) (hp : Pids s) (kd : Code ini s p op b s') (hz : s.mem.state i = .zombie)
    (h0 : (s.mem.pid i).draw ≠ 0) : s'.mem.state i = .zombie := by
  refine (kd.state_at i).elim (·.trans hz) fun hop => ?_
  have he := kd.edge
  have hk := hp.knows p
  obtain ⟨c, hc, hi, -⟩ := kd.effect
  rw [hop] at he
  rcases he.state with ⟨rfl, hs, -⟩ | ⟨u, hx, -⟩
  · rw [h.self c i hc, St.self, hi, if_neg (by decide), hs] at hz
    cases hz
  · cases (h.expects p i u hx).symm.trans hz
    generalize s.pc p = a at he hx hk
    generalize s'.mem.state i = v at he
    cases he with
    | freeState => exact absurd (by rename_i t; cases t <;> exact hk) h0
    | _ => cases hx

section

variable (h : Control s) (hp : Pids s) (hr : Reap ini s) (kd : Code ini s p op b s')
include h hp hr kd

theorem Reap.once_code :
    (s'.hist.exits.map Prod.fst).Nodup := by
  rcases kd.exits_eq with he | ⟨st, ha, he⟩
  · rw [he]; exact hr.once
  · obtain ⟨c, hc, hi, -⟩ := kd.effect
    rw [he]
    exact List.nodup_cons.mpr ⟨(hr.fresh_exit h hp hc hi ha).2.2, hr.once⟩

theorem Reap.exits_code (hgone : ∀ k, Gone s k → Gone s' k) (x : Pid × Int) (hx : x ∈ s'.hist.exits) :
    0 < x.1.draw ∧ ((∃ i, s'.mem.state i = .zombie ∧ s'.mem.pid i = x.1) ∨ Gone s' x.1) := by
  have hold : x ∈ s.hist.exits → 0 < x.1.draw ∧ ((∃ i, s'.mem.state i = .zombie ∧ s'.mem.pid i = x.1) ∨ Gone s' x.1) := by
    intro hx
    obtain ⟨h0, ⟨i, hz, hpid⟩ | hg⟩ := hr.exits x hx
    · refine ⟨h0, ?_⟩
      have hst := kd.zombie_stays h hp hz (by rw [hpid]; omega)
      rcases kd.pid_at i with he | ha | ⟨t, ha, -⟩
      · exact .inl ⟨i, hst, he.trans hpid⟩
      · rw [h.expects p i .unused (by rw [ha]; rfl)] at hz; cases hz
      · exact .inr (hpid ▸ kd.gone hp ha (by rw [hpid]; exact h0))
    · exact ⟨h0, .inr (hgone _ hg)⟩
  rcases kd.exits_eq with he | ⟨st, ha, he⟩
  · exact hold (he ▸ hx)
  · rw [he] at hx
    rcases List.mem_cons.mp hx with rfl | hx
    · obtain ⟨c, hc, hi, hm⟩ := kd.effect
      obtain ⟨-, h0, -⟩ := hr.fresh_exit h hp hc hi ha
      have hed := kd.edge
      rw [ha] at hed
      cases hed
      refine ⟨h0, .inl ⟨p, ?_, congrFun (kd.frame.pid nofun) p⟩⟩
      rw [← Option.some.inj hm]
      exact update_self ..
    · exact hold hx

omit hp in
/-- Only `exit` itself and `freeproc` store a status, and `freeproc` not that of a process that lives. -/
theorem Reap.stored_code (q : Fin N) (st : Int) (hq : s'.pc q = .eZombie st) : s'.mem.xstate q = st := by
  obtain ⟨c, -, -, hm⟩ := kd.effect
  by_cases e : q = p
  · subst e
    cases kd.edge.stored (kd.pc.symm.trans hq)
    rw [← Option.some.inj hm]
    exact update_self ..
  · rcases kd.other q e with he | ⟨-, hb⟩
    · rw [he] at hq
      have halive := h.alive_of_wait (show (s.pc q).waitLock = true by rw [hq]; rfl) (by rw [hq]; nofun)
      rw [← hr.stored q st hq]
      cases op with
      | xstate j v =>
        rw [← Option.some.inj hm]
        refine update_of_ne (fun hj => ?_) ..
        subst hj
        rcases kd.edge.xstate with ⟨hj, -⟩ | hw
        · exact e hj
        · rcases Pc.wiped_dead hw with hx | hx <;> rw [h.expects p q _ hx] at halive <;> simp [PState.Alive] at halive
      | _ => exact congrFun (kd.frame.xstate nofun) q
    · rw [hq] at hb; cases hb

theorem Reap.zombie_code (i : Fin N)
    (hz : s'.mem.state i = .zombie) (h0 : (s'.mem.pid i).draw ≠ 0) : (s'.mem.pid i, s'.mem.xstate i) ∈ s'.hist.exits := by
  obtain ⟨c, hc, hi, hm⟩ := kd.effect
  rcases kd.state_at i with he | hop
  · have hz : s.mem.state i = .zombie := he ▸ hz
    have hpid : s'.mem.pid i = s.mem.pid i := by
      refine (kd.pid_at i).resolve_right ?_
      rintro (ha | ⟨t, -, h0'⟩)
      · rw [h.expects p i .unused (by rw [ha]; rfl)] at hz; cases hz
      · exact h0 (congrArg Pid.draw h0')
    have hx : s'.mem.xstate i = s.mem.xstate i := by
      cases op with
      | xstate j st =>
        rw [← Option.some.inj hm]
        refine update_of_ne (fun e => ?_) ..
        subst e
        rcases kd.edge.xstate with ⟨rfl, hs⟩ | hw
        · rw [h.self c i hc, St.self, hi, if_neg (by decide), hs] at hz; cases hz
        · exact h0 ((congrArg Pid.draw hpid).trans (hp.wiped hw))
      | _ => exact congrFun (kd.frame.xstate nofun) i
    rw [hpid, hx, kd.hist]
    exact (note_mono ..).1 (hr.zombie i hz (hpid ▸ h0))
  · have hed := kd.edge
    rw [hop, hz] at hed
    have ha : i = p ∧ ∃ st, s.pc p = .eZombie st := by
      rcases hed.state with ⟨e, -, -, -, hv | ⟨-, ha⟩⟩ | ⟨u, -, hch, -⟩
      · cases hv
      · exact ⟨e, ha⟩
      · cases hch
    obtain ⟨rfl, st, ha⟩ := ha
    rw [kd.frame.pid (by rw [hop]; nofun), kd.frame.xstate (by rw [hop]; nofun), hr.stored i st ha, kd.hist, ha]
    exact List.mem_cons_self

end

theorem Code.leaving (h : Control s) (kd : Code ini s p op b s') (hl : Leaving s k) : Leaving s' k ∨ Exited s' k := by
  obtain ⟨r, rfl, hw, ho⟩ := hl
  have hne : s.pc r ≠ .eWaitRel := fun he => by rw [he] at ho; exact ho rfl
  have hpid := kd.pid_alive h (h.alive_of_wait hw hne)
  by_cases e : r = p
  · subst e
    rcases kd.edge.leaving hw ho with hb | ⟨st, ha⟩
    · exact .inl ⟨r, hpid, by rw [kd.pc]; exact hb⟩
    · exact .inr ⟨st, by rw [kd.hist, ha]; exact List.mem_cons_self⟩
  · refine .inl ⟨r, hpid, ?_⟩
    rcases kd.other r e with he | ⟨hb, -⟩
    · rw [he]; exact ⟨hw, ho⟩
    · rw [hb.waitLock] at hw; cases hw

theorem Reap.kin_code (h : Control s) (hpar : Parents ini s) (hr : Reap ini s) (kd : Code ini s p op b s')
    (i q : Fin N) (hq : s'.mem.parent i = some q) (h0 : (s'.mem.pid i).draw ≠ 0) :
    ∃ par, (s'.mem.pid i, par) ∈ s'.hist.forks ∧ (par = s'.mem.pid q ∨ (q = ini ∧ (Exited s' par ∨ Leaving s' par))) := by
  have hforks : s.hist.forks ⊆ s'.hist.forks := kd.hist ▸ (note_mono ..).2
  rcases kd.parent_at i with he | ⟨n, ha, he⟩ | ⟨t, -, he⟩ | ⟨st, ha, he⟩
  · rw [he] at hq
    have hpid : s'.mem.pid i = s.mem.pid i := by
      refine (kd.pid_at i).resolve_right ?_
      rintro (ha | ⟨t, -, h0'⟩)
      · have := hpar.knows p
        rw [ha] at this
        cases hq.symm.trans this
      · exact h0 (congrArg Pid.draw h0')
    obtain ⟨par, hf, hk⟩ := hr.kin i q hq (hpid ▸ h0)
    refine ⟨par, hpid ▸ hforks hf, hk.imp (fun hk => ?_) fun ⟨hq, hk⟩ => ⟨hq, ?_⟩⟩
    · rw [kd.pid_alive h (hpar.alive i q hq)]; exact hk
    · rcases hk with hk | hk
      · exact .inl (kd.exited hk)
      · exact (kd.leaving h hk).symm
  · -- fork sets the parent, and history the kin
    cases he.symm.trans hq
    have hed := kd.edge
    rw [ha] at hed
    cases hed
    have hpid := kd.frame.pid nofun
    refine ⟨s.mem.pid p, ?_, .inl (by rw [hpid])⟩
    rw [hpid, kd.hist, ha]
    exact List.mem_cons_self
  · cases he.symm.trans hq
  · -- reparent: the parent leaves
    cases he.symm.trans hq
    have hknow := hpar.knows p
    rw [ha] at hknow
    have hne := hpar.exiting p i (by rw [ha]; rfl)
    have hed := kd.edge
    rw [ha] at hed
    cases hed
    have hpid := kd.frame.pid nofun
    rw [hpid] at h0 ⊢
    obtain ⟨par, hf, hk⟩ := hr.kin i p hknow h0
    refine ⟨par, hforks hf, .inr ⟨rfl, .inr ⟨p, ?_, by rw [kd.pc]; exact ⟨rfl, nofun⟩⟩⟩⟩
    rw [hpid]
    exact (hk.resolve_right fun hk => hne hk.1).symm

theorem Pc.due_wait {x : Bool × Pid × Option Int} (h : a.due = some x) : a.waitLock = true ∧ a ≠ .eWaitRel ∧
    a.orphans = none := by
  cases a with
  | free f i r | freeRel i r => cases r <;> cases h; exact ⟨rfl, nofun, rfl⟩
  | waitRet y k st => exact ⟨rfl, nofun, rfl⟩
  | _ => cases h

theorem Reap.due_found (h : Control s) (hp : Pids s) (hpar : Parents ini s) (hr : Reap ini s) {x : Bool} {st : Option Int}
    (ha : s.pc p = .wCopy x i k) (hst : st = if x then some (s.mem.xstate i) else none) :
    Told s (s.mem.pid p) x k st ∧ k ∉ s.hist.reports.map Report.pid := by
  have hpid := hp.knows p
  have hparent := hpar.knows p
  rw [ha] at hpid hparent
  obtain ⟨rfl, h0⟩ := hpid
  refine ⟨⟨⟨s.mem.xstate i, hr.zombie i (h.expects p i .zombie (by rw [ha]; rfl)) h0, hst⟩, ?_⟩, fun hmem => ?_⟩
  · obtain ⟨par, hf, hk⟩ := hr.kin i p hparent h0
    refine ⟨par, hf, hk.imp_right fun ⟨hp, hk⟩ => ⟨hp ▸ hr.root, hk.resolve_right ?_⟩⟩
    -- nobody leaves while this process holds wait_lock
    rintro ⟨r, -, hw, ho⟩
    obtain rfl := h.wait_unique hw (show (s.pc p).waitLock = true by rw [ha]; rfl)
    rw [ha] at ho
    exact ho rfl
  · obtain ⟨t, ht, he⟩ := List.mem_map.mp hmem
    exact (hr.told t ht).1.not_pid i he.symm

theorem Code.reports_eq (kd : Code ini s p op b s') : s'.hist.reports = s.hist.reports ∨
    ∃ x k st, s.pc p = .waitRet x k st ∧ s'.hist.reports = ⟨s.mem.pid p, x, k, st⟩ :: s.hist.reports := by
  rw [kd.hist]; exact note_reports _

theorem Reap.due_code (h : Control s) (hp : Pids s) (hpar : Parents ini s) (hr : Reap ini s) (kd : Code ini s p op b s')
    (q : Fin N) (x : Bool) (k : Pid) (st : Option Int) (hq : (s'.pc q).due = some (x, k, st)) :
    Told s' (s'.mem.pid q) x k st ∧ k ∉ s'.hist.reports.map Report.pid := by
  -- it has been so, and no report is made meanwhile
  have hstay : (s.pc q).waitLock = true → s.pc q ≠ .eWaitRel → (∀ x k st, q = p → s.pc p ≠ .waitRet x k st) →
      Told s (s.mem.pid q) x k st ∧ k ∉ s.hist.reports.map Report.pid → Told s' (s'.mem.pid q) x k st ∧
        k ∉ s'.hist.reports.map Report.pid := by
    rintro hw hz hn ⟨ht, hk⟩
    rw [kd.pid_alive h (h.alive_of_wait hw hz)]
    refine ⟨kd.told ht, ?_⟩
    rcases kd.reports_eq with he | ⟨y, n, u, ha, -⟩
    · rw [he]; exact hk
    · exact absurd ha (hn y n u (h.wait_unique hw (by rw [ha]; rfl)))
  rcases kd.role (fun _ hb => hb.due) hq with ⟨rfl, hq⟩ | ⟨e, hq⟩
  · have hed := kd.edge
    rcases hed.due hq with ha | ⟨i, ha, -, hst⟩
    · obtain ⟨hw, hz, -⟩ := Pc.due_wait ha
      refine hstay hw hz (fun y n u _ hret => ?_) (hr.due q x k st ha)
      rw [hret] at hed
      cases hed
      cases hq
    · exact hstay (by rw [ha]; rfl) (by rw [ha]; nofun) (fun y n u _ hret => by rw [ha] at hret; cases hret)
        (hr.due_found h hp hpar ha hst)
  · obtain ⟨hw, hz, -⟩ := Pc.due_wait hq
    exact hstay hw hz (fun y n u he => absurd he e) (hr.due q x k st hq)

theorem Reap.taken_code (hp : Pids s) (hr : Reap ini s) (kd : Code ini s p op b s') (hgone : ∀ k, Gone s k → Gone s' k)
    (q : Fin N) (k : Pid) (hq : (s'.pc q).taken = some k) : Gone s' k := by
  rcases kd.role (fun _ hb => hb.taken) hq with ⟨rfl, hq⟩ | ⟨-, hq⟩
  · rcases kd.edge.taken hq with ha | ⟨i, x, st, ha⟩
    · exact hgone k (hr.taken q k ha)
    · have hk := hp.knows q
      rw [ha] at hk
      obtain ⟨rfl, h0⟩ := hk
      exact kd.gone hp ha (Nat.pos_of_ne_zero h0)
  · exact hgone k (hr.taken q k hq)

theorem Reap.code (h : Control s) (hp : Pids s) (hpar : Parents ini s) (hr : Reap ini s) (kd : Code ini s p op b s')
    (hgone : ∀ k, Gone s k → Gone s' k) : Reap ini s' where
  root := (kd.pid_alive h hpar.rootAlive).trans hr.root
  once := hr.once_code h hp kd
  exits := hr.exits_code h hp kd hgone
  stored := hr.stored_code h kd
  zombie := hr.zombie_code h hp kd
  kin := hr.kin_code h hpar kd
  due := hr.due_code h hp hpar kd
  taken := hr.taken_code hp kd hgone
  reports := by
    rcases kd.reports_eq with he | ⟨x, k, st, ha, he⟩
    · rw [he]; exact hr.reports
    · rw [he]; exact List.nodup_cons.mpr ⟨(hr.due p x k st (by rw [ha]; rfl)).2, hr.reports⟩
  told t ht := by
    have hold : t ∈ s.hist.reports → Gone s' t.pid ∧ Told s' t.waiter t.addr t.pid t.status := fun ht =>
      ⟨hgone _ (hr.told t ht).1, kd.told (hr.told t ht).2⟩
    rcases kd.reports_eq with he | ⟨x, k, st, ha, he⟩
    · exact hold (he ▸ ht)
    · rw [he] at ht
      rcases List.mem_cons.mp ht with rfl | ht
      · exact ⟨hgone k (hr.taken p k (by rw [ha]; rfl)), kd.told (hr.due p x k st (by rw [ha]; rfl)).1⟩
      · exact hold ht

theorem Reap.idle (hr : Reap ini s) (kd : Idle s s') (hgone : ∀ k, Gone s k → Gone s' k) : Reap ini s' := by
  have hz : ∀ i, s'.mem.state i = .zombie ↔ s.mem.state i = .zombie := fun i => by
    refine ⟨fun hz => (kd.not_alive (by simp [hz, PState.Alive])).symm.trans hz, fun hz => ?_⟩
    rcases kd.state i with he | ⟨ha, -⟩
    · exact he.trans hz
    · simp [hz, PState.Alive] at ha
  have hex : ∀ k, Exited s' k ↔ Exited s k := fun k => by unfold Exited; rw [kd.hist]
  have htold : ∀ w x k st, Told s' w x k st ↔ Told s w x k st := fun w x k st => by unfold Told; simp only [hex, kd.hist]
  have hleave : ∀ k, Leaving s k → Leaving s' k := by
    rintro k ⟨r, hr, hw, ho⟩
    refine ⟨r, by rw [kd.pid]; exact hr, ?_⟩
    rcases kd.pc r with he | ⟨hb, -⟩
    · rw [he]; exact ⟨hw, ho⟩
    · rw [hb.waitLock] at hw; cases hw
  refine ⟨by rw [kd.pid]; exact hr.root, by rw [kd.hist]; exact hr.once, fun x hx => ?_, fun q st hq => ?_,
    fun i hi h0 => ?_, fun i q hq h0 => ?_,
    fun p x k st hp => ?_, fun p k hp => ?_, by rw [kd.hist]; exact hr.reports, fun t ht => ?_⟩
  · simp only [hz, kd.pid]
    obtain ⟨h0, hx⟩ := hr.exits x (kd.hist ▸ hx)
    exact ⟨h0, hx.imp_right (hgone _)⟩
  · rcases kd.pc q with he | ⟨-, hb⟩
    · rw [kd.xstate]; exact hr.stored q st (he ▸ hq)
    · rw [hq] at hb; cases hb
  · rw [kd.pid, kd.xstate, kd.hist]; rw [kd.pid] at h0; exact hr.zombie i ((hz i).mp hi) h0
  · rw [kd.parent] at hq
    rw [kd.pid] at h0 ⊢
    obtain ⟨par, hf, hk⟩ := hr.kin i q hq h0
    exact ⟨par, by rw [kd.hist]; exact hf, hk.imp_right fun ⟨hq, hk⟩ => ⟨hq, hk.imp (hex par).mpr (hleave par)⟩⟩
  · rw [role_other (fun _ hb => hb.due) (kd.pc p)] at hp
    rw [htold, kd.pid, kd.hist]; exact hr.due p x k st hp
  · rw [role_other (fun _ hb => hb.taken) (kd.pc p)] at hp
    exact hgone k (hr.taken p k hp)
  · rw [kd.hist] at ht
    exact ⟨hgone _ (hr.told t ht).1, (htold ..).mpr (hr.told t ht).2⟩

theorem Reap.step (h : Control s) (hp : Pids s) (hpar : Parents ini s) (hr : Reap ini s) (e : Eff ini s c s') : Reap ini s' := by
  have hgone : ∀ k, Gone s k → Gone s' k := fun k hg => hg.step h hp e
  rcases h.cases e with ⟨p, op, b, k⟩ | k
  · exact hr.code h hp hpar k hgone
  · exact hr.idle k hgone

theorem Reap.init : Reap ini (init ini C) where
  root := by simp [Proc.init]
  once := List.nodup_nil
  exits x hx := by cases hx
  stored p st hp := by have hb : ((Proc.init ini C).pc p).Bare := init_bare p; rw [hp] at hb; cases hb
  zombie i hi := by
    simp only [Proc.init] at hi
    split at hi <;> cases hi
  kin i q hq := by cases hq
  due p x k st hp := by rw [(init_bare p).due] at hp; cases hp
  taken p k hp := by rw [(init_bare p).taken] at hp; cases hp
  reports := List.nodup_nil
  told t ht := by cases ht

theorem reap (h : (sys ini C).Reach s) : Reap ini s :=
  Lib.Sys.invariant (fun _ hs => hs ▸ Reap.init)
    (fun _ _ _ hr hi hst => hi.step (control hr) (pids hr) (parents hr) (next_cases hst).choose_spec) h

end Xv6.Proc
