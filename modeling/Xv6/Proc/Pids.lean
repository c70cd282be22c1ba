/-
  Xv6.Proc.Pids — process ids, each with its draw (`Pid`). A pid is drawn once, is stored in
  one slot, and once that slot has been wiped no slot ever has it again, though one may have
  the same 32 bits from another draw.
-/

import Xv6.Proc.Control


namespace Xv6.Proc

variable {N C : Nat} {ini p q i j : Fin N} {c : Fin C} {s s' : St N C} {m m' : Mem N C} {a b : Pc N} {op : Op N} {k : Pid}

/-- The pid that `allocpid` has drawn and `allocproc` has not yet stored. -/
def Pc.drawn : Pc N → Option (Fin N × Pid)
  | .fPidRel i k | .fSetPid i k => some (i, k)
  | _ => none

/-- The slot whose pid `freeproc` has cleared, until it is UNUSED. -/
def Pc.wiped : Pc N → Option (Fin N)
  | .free .pid _ _ => none
  | .free _ i _ => some i
  | _ => none

def Pc.Knows (pid : Fin N → Pid) : Pc N → Prop
  | .fSetUsed i | .fBuild i | .fCopy i | .fGetPid i | .free .pid i .fork | .wPid _ i => (pid i).draw ≠ 0
  | .fRel i k | .fWait i k | .fParent i k | .fWaitRel i k | .fPublish i k | .wCopy _ i k | .free .pid i (.wait _ k _) =>
    pid i = k ∧ k.draw ≠ 0
  | .free _ i _ => (pid i).draw = 0
  | .xSet k i | .xState k i | .xRun k i | .xRel k i => (pid i).val = k
  | _ => True

structure Pids (s : St N C) : Prop where
  next : 0 < s.mem.nextpid.draw
  inc : ∀ p i k, s.pc p = .fPidInc i k → k = s.mem.nextpid
  range : ∀ i, (s.mem.pid i).draw < s.mem.nextpid.draw
  inj : ∀ i j, s.mem.pid i = s.mem.pid j → (s.mem.pid i).draw ≠ 0 → i = j
  drawn : ∀ p i k, (s.pc p).drawn = some (i, k) → 0 < k.draw ∧ k.draw < s.mem.nextpid.draw ∧ ∀ j, s.mem.pid j ≠ k
  drawnInj : ∀ p q i j k, (s.pc p).drawn = some (i, k) → (s.pc q).drawn = some (j, k) → p = q
  knows : ∀ p, (s.pc p).Knows s.mem.pid
  blank : ∀ i, s.mem.state i ≠ .unused → (s.mem.pid i).draw ≠ 0 ∨ ∃ q, (s.pc q).wiped = some i

/-! ## The edges -/

theorem Pc.Bare.knows (h : a.Bare) (pid : Fin N → Pid) : a.Knows pid := by cases h <;> trivial

theorem Pc.Bare.drawn (h : a.Bare) : a.drawn = none := by cases h <;> rfl

theorem Pc.Bare.wiped (h : a.Bare) : a.wiped = none := by cases h <;> rfl

theorem Pc.wiped_expects (h : a.wiped = some i) : (∃ u, a.expects = some (i, u)) ∧ a.Holds p (.proc i) := by
  cases a with
  | free f j r => cases f <;> cases h <;> cases r <;> exact ⟨⟨_, rfl⟩, rfl⟩
  | _ => cases h

theorem Pc.wiped_dead (h : a.wiped = some i) : a.expects = some (i, .used) ∨ a.expects = some (i, .zombie) := by
  cases a with
  | free f j r => cases f <;> cases h <;> cases r <;> first | exact .inl rfl | exact .inr rfl
  | _ => cases h

theorem Pc.drawn_expects {x : Fin N × Pid} (h : a.drawn = some x) : a.expects = some (x.1, .unused) := by
  cases a <;> cases h <;> rfl

theorem Pc.Knows.congr {pid pid' : Fin N → Pid} (h : a.Knows pid)
    (hp : ∀ i, (∃ u, a.expects = some (i, u)) ∨ a.Holds p (.proc i) → pid' i = pid i) : a.Knows pid' := by
  cases a with
  | free f i r =>
    have := hp i (.inr rfl)
    cases f <;> cases r <;> simp_all [Pc.Knows]
  | xSet k i | xState k i | xRun k i | xRel k i =>
    have := hp i (.inr rfl)
    simp_all [Pc.Knows]
  | fSetUsed i | fBuild i | fCopy i | fGetPid i | fRel i k | fWait i k | fParent i k | fWaitRel i k | fPublish i k | wPid x i
  | wCopy x i k =>
    have := hp i (.inl ⟨_, rfl⟩)
    simp_all [Pc.Knows]
  | _ => trivial

theorem Edge.pid (e : Edge ini p m a (.pid i k) b) :
    (a = .fSetPid i k ∧ b = .fSetUsed i) ∨ ∃ r, a = .free .pid i r ∧ k = .zero ∧ b = .free .parent i r := by
  cases e
  · exact .inl ⟨rfl, rfl⟩
  · exact .inr ⟨_, rfl, rfl, rfl⟩

theorem Edge.nextpid (e : Edge ini p m a (.nextpid k) b) : ∃ i n, a = .fPidInc i n ∧ k = n.succ ∧ b = .fPidRel i n := by
  cases e; exact ⟨_, _, rfl, rfl, rfl⟩

theorem Edge.inc (e : Edge ini p m a op b) (h : b = .fPidInc i k) : k = m.nextpid ∧ op = .nop := by
  cases e with
  | kDone => rename_i w _; cases w <;> cases h
  | fPidLoad => cases h; exact ⟨rfl, rfl⟩
  | _ => cases h

theorem Edge.drawn (e : Edge ini p m a op b) (h : b.drawn = some (i, k)) :
    (a = .fPidInc i k ∧ op = .nextpid k.succ) ∨ (a.drawn = some (i, k) ∧ op = .release .pid) := by
  cases e with
  | kDone => rename_i w _; cases w <;> cases h
  | fPidInc => cases h; exact .inl ⟨rfl, rfl⟩
  | fPidRel => exact .inr ⟨h, rfl⟩
  | _ => cases h

theorem Edge.wiped (e : Edge ini p m a op b) (h : a.wiped = some i) : b.wiped = some i ∨ op = .state i .unused := by
  cases e with
  | freeState => cases h; exact .inr rfl
  | freeParent | freeChan | freeKilled | freeXstate => exact .inl h
  | _ => cases h

theorem Edge.knows (e : Edge ini p m a op b) (hm : op.run c m = some m') (h : a.Knows m.pid)
    (hd : ∀ i k, a.drawn = some (i, k) → 0 < k.draw)
    (hz : ∀ i, a.Holds p (.proc i) → a.wiped = none → m.state i = .zombie → (m.pid i).draw ≠ 0) : b.Knows m'.pid := by
  have hf := Op.frame hm
  cases e with
  | fSetPid =>
    cases hm
    have := hd _ _ rfl
    simp only [Pc.Knows, Function.update_self]
    omega
  | freePid => cases hm; simp [Pc.Knows, Pid.zero]
  | freeParent | freeChan | freeKilled | freeXstate | freeState =>
    rename_i r
    rw [hf.pid nofun]
    cases r <;> first | exact h | trivial
  | wZombie hst => rw [hf.pid nofun]; exact hz _ rfl rfl hst
  | kDone => rename_i w _; cases w <;> trivial
  | fGetPid | wPid => rw [hf.pid nofun]; exact ⟨rfl, h⟩
  | wCopied | xSet | xSleeping | xAwake | xRun => rw [hf.pid nofun]; exact h
  | xFound he => rw [hf.pid nofun]; exact he
  | _ => rw [hf.pid nofun]; trivial

theorem Pids.wiped (hp : Pids s) (hw : (s.pc p).wiped = some i) : (s.mem.pid i).draw = 0 := by
  have hk := hp.knows p
  generalize s.pc p = a at hw hk
  cases a with
  | free f j r => cases f <;> cases hw <;> cases r <;> exact hk
  | _ => cases hw

/-! ## One step -/

theorem Code.pid_eq (k : Code ini s p op b s') :
    s'.mem.pid = s.mem.pid ∨ ∃ i n, op = .pid i n ∧ s'.mem.pid = Function.update s.mem.pid i n := by
  obtain ⟨c, -, -, hm⟩ := k.effect
  cases op with
  | pid i n => rw [← Option.some.inj hm]; exact .inr ⟨i, n, rfl, rfl⟩
  | _ => exact .inl (k.frame.pid nofun)

theorem Code.pid_at (k : Code ini s p op b s') (j : Fin N) : s'.mem.pid j = s.mem.pid j ∨
    (s.pc p = .fSetPid j (s'.mem.pid j)) ∨ ∃ r, s.pc p = .free .pid j r ∧ s'.mem.pid j = .zero := by
  rcases k.pid_eq with he | ⟨i, n, rfl, he⟩
  · exact .inl (congrFun he j)
  · rw [he]
    by_cases hj : j = i
    · subst hj
      rw [Function.update_self]
      rcases k.edge.pid with ⟨ha, -⟩ | ⟨r, ha, rfl, -⟩
      · exact .inr (.inl ha)
      · exact .inr (.inr ⟨r, ha, rfl⟩)
    · exact .inl (Function.update_of_ne hj ..)

theorem Pids.nextpid_step (hp : Pids s) (k : Code ini s p op b s') : s'.mem.nextpid = s.mem.nextpid ∨
    ∃ i, s.pc p = .fPidInc i s.mem.nextpid ∧ op = .nextpid s.mem.nextpid.succ ∧ s'.mem.nextpid = s.mem.nextpid.succ := by
  obtain ⟨c, -, -, hm⟩ := k.effect
  cases op with
  | nextpid n =>
    obtain ⟨i, n, ha, rfl, -⟩ := k.edge.nextpid
    cases hp.inc p i n ha
    rw [← Option.some.inj hm]
    exact .inr ⟨i, ha, rfl, rfl⟩
  | _ => exact .inl (k.frame.nextpid nofun)

theorem Pids.nextpid_le (hp : Pids s) (k : Code ini s p op b s') : s.mem.nextpid.draw ≤ s'.mem.nextpid.draw := by
  rcases hp.nextpid_step k with h | ⟨i, -, -, h⟩
  · exact Nat.le_of_eq (congrArg Pid.draw h.symm)
  · rw [h]
    exact Nat.le_succ _

theorem Code.pid_other (h : Control s) (k : Code ini s p op b s') (hq : q ≠ p) (nq : ¬ (s.pc q).Bare)
    (hi : (∃ u, (s.pc q).expects = some (i, u)) ∨ (s.pc q).Holds q (.proc i)) : s'.mem.pid i = s.mem.pid i := by
  refine (k.pid_at i).resolve_right fun hw => ?_
  obtain ⟨⟨u, he⟩, hh, np⟩ : (∃ u, (s.pc p).expects = some (i, u)) ∧ (s.pc p).Holds p (.proc i) ∧ ¬ (s.pc p).Bare := by
    rcases hw with ha | ⟨r, ha, -⟩ <;> rw [ha]
    · exact ⟨⟨_, rfl⟩, rfl, nofun⟩
    · cases r <;> exact ⟨⟨_, rfl⟩, rfl, nofun⟩
  rcases hi with ⟨v, hv⟩ | hi
  · exact hq (h.expects_unique hv he)
  · exact hq (h.holds_unique hi hh nq np)

theorem Pids.drawn_step (hp : Pids s) (k : Code ini s p op b s') (q i : Fin N) (n : Pid) (hq : (s'.pc q).drawn = some (i, n)) :
    (s.pc q).drawn = some (i, n) ∨ (q = p ∧ n = s.mem.nextpid ∧ s'.mem.nextpid = n.succ ∧ s'.mem.pid = s.mem.pid) := by
  rcases k.role (fun _ hb => hb.drawn) hq with ⟨rfl, hq⟩ | ⟨-, hq⟩
  · rcases k.edge.drawn hq with ⟨ha, rfl⟩ | ⟨ha, -⟩
    · have hn := hp.inc q i n ha
      obtain ⟨c, -, -, hm⟩ := k.effect
      rw [← Option.some.inj hm]
      exact .inr ⟨rfl, hn, rfl, rfl⟩
    · exact .inl ha
  · exact .inl hq

theorem Pids.code (h : Control s) (hp : Pids s) (k : Code ini s p op b s') (hblank : ∀ i, s'.mem.state i ≠ .unused →
    (s'.mem.pid i).draw ≠ 0 ∨ ∃ q, (s'.pc q).wiped = some i) : Pids s' := by
  have hle := hp.nextpid_le k
  -- a pid that a process has drawn stays new until that process stores it
  have hdrawn : ∀ q i n, (s'.pc q).drawn = some (i, n) →
      0 < n.draw ∧ n.draw < s'.mem.nextpid.draw ∧ ∀ j, s'.mem.pid j ≠ n := by
    intro q i n hq
    rcases hp.drawn_step k q i n hq with hd | ⟨-, rfl, hn, hpid⟩
    · obtain ⟨h0, hlt, hne⟩ := hp.drawn q i n hd
      refine ⟨h0, by omega, fun j hj => ?_⟩
      rcases k.pid_at j with he | ha | ⟨r, -, he⟩
      · exact hne j (he ▸ hj)
      · rw [hj] at ha
        obtain rfl := hp.drawnInj q p i j n hd (by rw [ha]; rfl)
        rw [k.pc] at hq
        have := k.edge
        rw [ha] at this
        cases this
        cases hq
      · rw [← hj, he] at h0
        exact absurd h0 (by decide)
    · refine ⟨hp.next, by rw [hn]; exact Nat.lt_succ_self _, fun j hj => ?_⟩
      have := hp.range j
      rw [← hpid, hj] at this
      exact Nat.lt_irrefl _ this
  refine ⟨by have := hp.next; omega, fun q i n hq => ?_, fun i => ?_, fun i j hij h0 => ?_, hdrawn, fun q r i j n hq hr => ?_,
    fun q => ?_, hblank⟩
  · by_cases e : q = p
    · subst e
      obtain ⟨hn, rfl⟩ := k.edge.inc (k.pc ▸ hq)
      rw [k.frame.nextpid nofun]; exact hn
    · rcases k.other q e with he | ⟨-, hb⟩
      · rw [he] at hq
        rcases hp.nextpid_step k with hn | ⟨j, ha, -⟩
        · rw [hn]; exact hp.inc q i n hq
        · exact absurd (h.holds_unique (l := .pid) (by rw [hq]; rfl) (by rw [ha]; rfl) (by rw [hq]; nofun) (by rw [ha]; nofun)) e
      · rw [hq] at hb; cases hb
  · rcases k.pid_at i with he | ha | ⟨r, -, he⟩
    · have := hp.range i
      rw [he]
      omega
    · have := hp.drawn p i _ (by rw [ha]; rfl)
      omega
    · have : (Pid.zero).draw = 0 := rfl
      have := hp.next
      rw [he]
      omega
  · -- a pid just stored is new
    have hnew : ∀ i j, s.pc p = .fSetPid i (s'.mem.pid i) → s'.mem.pid i = s'.mem.pid j → i = j := by
      intro i j ha hij
      have hd := (hp.drawn p i _ (by rw [ha]; rfl)).2.2
      rcases k.pid_at j with he | ha' | ⟨r, ha', -⟩
      · exact absurd (he ▸ hij.symm) (hd j)
      · rw [ha] at ha'; cases ha'; rfl
      · rw [ha] at ha'; cases ha'
    rcases k.pid_at i with he | ha | ⟨r, -, he⟩
    · rcases k.pid_at j with he' | ha | ⟨r, -, he'⟩
      · rw [he, he'] at hij; rw [he] at h0; exact hp.inj i j hij h0
      · exact (hnew j i ha hij.symm).symm
      · exact absurd (congrArg Pid.draw (hij.trans he')) h0
    · exact hnew i j ha hij
    · exact absurd (congrArg Pid.draw he) h0
  · rcases hp.drawn_step k q i n hq with hq | ⟨rfl, hn, -⟩
    · rcases hp.drawn_step k r j n hr with hr | ⟨rfl, hn, -⟩
      · exact hp.drawnInj q r i j n hq hr
      · exact absurd (hp.drawn q i n hq).2.1 (by rw [hn]; exact Nat.lt_irrefl _)
    · rcases hp.drawn_step k r j n hr with hr | ⟨rfl, -⟩
      · exact absurd (hp.drawn r j n hr).2.1 (by rw [hn]; exact Nat.lt_irrefl _)
      · rfl
  · by_cases e : q = p
    · subst e
      obtain ⟨c, hc, -, hm⟩ := k.effect
      rw [k.pc]
      refine k.edge.knows hm (hp.knows q) (fun i n hd => (hp.drawn q i n hd).1) fun i hh hw hz => ?_
      refine (hp.blank i (by rw [hz]; nofun)).resolve_right fun ⟨r, hr⟩ => ?_
      -- whoever wipes the slot holds its lock
      obtain ⟨⟨u, he⟩, hhr⟩ := Pc.wiped_expects (p := r) hr
      obtain ⟨c', hc', hh'⟩ := h.runs he hhr
      cases h.lock.unique ((holds_run hc _).mpr (.inr hh)) hh'
      cases hc.symm.trans hc'
      rw [hw] at hr
      cases hr
    · rcases k.other q e with he | ⟨-, hb⟩
      · by_cases nq : (s.pc q).Bare
        · rw [he]; exact nq.knows _
        · rw [he]; exact (hp.knows q).congr fun i hi => k.pid_other h e nq hi
      · exact hb.knows _

theorem Pids.idle (hp : Pids s) (k : Idle s s') (hblank : ∀ i, s'.mem.state i ≠ .unused →
    (s'.mem.pid i).draw ≠ 0 ∨ ∃ q, (s'.pc q).wiped = some i) : Pids s' := by
  have hd := fun q => role_other (fun _ hb => hb.drawn) (k.pc q)
  refine ⟨by rw [k.nextpid]; exact hp.next, fun q i n hq => ?_, fun i => by rw [k.pid, k.nextpid]; exact hp.range i,
    fun i j => by rw [k.pid]; exact hp.inj i j, fun q i n => by rw [hd, k.pid, k.nextpid]; exact hp.drawn q i n,
    fun q r i j n => by rw [hd, hd]; exact hp.drawnInj q r i j n, fun q => ?_, hblank⟩
  · rcases k.pc q with he | ⟨-, hb⟩
    · rw [k.nextpid]; exact hp.inc q i n (he ▸ hq)
    · rw [hq] at hb; cases hb
  · rcases k.pc q with he | ⟨-, hb⟩
    · rw [he, k.pid]; exact hp.knows q
    · exact hb.knows _

theorem Pids.alloc (h : Control s) (hp : Pids s) (k : Code ini s p op b s') (hu : s.mem.state i = .unused)
    (hi : s'.mem.state i ≠ .unused) : (s'.mem.pid i).draw ≠ 0 := by
  have hop := (k.state_at i).resolve_left fun he => hi (he.trans hu)
  have hpid : s'.mem.pid = s.mem.pid := k.frame.pid (by rw [hop]; nofun)
  obtain ⟨c, hc, -, -⟩ := k.effect
  have he := k.edge
  have hk := hp.knows p
  rw [hop] at he
  rw [hpid]
  rcases he.state with ⟨rfl, -⟩ | ⟨u, hx, -⟩
  · exact absurd hu (h.self_ne hc).1
  · cases (h.expects p i u hx).symm.trans hu
    generalize s.pc p = a at he hx hk
    generalize s'.mem.state i = v at he
    cases he <;> first | exact hk | (rename_i r; cases r <;> cases hx)

theorem Pids.blank_code (h : Control s) (hp : Pids s) (k : Code ini s p op b s') (i : Fin N) (hi : s'.mem.state i ≠ .unused) :
    (s'.mem.pid i).draw ≠ 0 ∨ ∃ q, (s'.pc q).wiped = some i := by
  by_cases hold : s.mem.state i = .unused
  · exact .inl (hp.alloc h k hold hi)
  rcases hp.blank i hold with h0 | ⟨q, hq⟩
  · rcases k.pid_at i with he | ha | ⟨r, ha, -⟩
    · exact .inl (he ▸ h0)
    · exact .inl (Nat.pos_iff_ne_zero.mp (hp.drawn p i _ (by rw [ha]; rfl)).1)
    · have he := k.edge
      rw [ha] at he
      cases he
      exact .inr ⟨p, by rw [k.pc]; rfl⟩
  · refine .inr ⟨q, ?_⟩
    by_cases e : q = p
    · subst e
      rw [k.pc]
      refine (k.edge.wiped hq).resolve_right fun hop => hi ?_
      obtain ⟨c, -, -, hm⟩ := k.effect
      subst hop
      rw [← Option.some.inj hm]
      exact Function.update_self ..
    · rw [role_other (fun _ hb => hb.wiped) (k.other q e)]; exact hq

theorem Pids.step (h : Control s) (hp : Pids s) (e : Eff ini s c s') : Pids s' := by
  rcases h.cases e with ⟨p, op, b, k⟩ | k
  · exact hp.code h k (hp.blank_code h k)
  · refine hp.idle k fun i hi => ?_
    have hold : s.mem.state i ≠ .unused := by
      rcases k.state i with he | ⟨ha, -⟩
      · exact he ▸ hi
      · intro hu; simp [PState.Alive, hu] at ha
    rw [k.pid]
    exact (hp.blank i hold).imp_right fun ⟨q, hq⟩ => ⟨q, by rw [role_other (fun _ hb => hb.wiped) (k.pc q)]; exact hq⟩

theorem init_bare (i : Fin N) : ((init ini C).pc i).Bare := by
  simp only [init]
  split <;> constructor

theorem Pids.init : Pids (init ini C) where
  next := by simp [Proc.init]
  inc p i k hp := by have hb : ((Proc.init ini C).pc p).Bare := init_bare p; rw [hp] at hb; cases hb
  range i := by simp only [Proc.init]; split <;> decide
  inj i j hij h0 := by
    simp only [Proc.init] at hij h0
    split at h0
    · rename_i hi
      rw [if_pos hi] at hij
      by_contra hne
      rw [if_neg fun hj => hne (hi.trans hj.symm)] at hij
      cases hij
    · exact absurd rfl h0
  drawn p i k hp := by rw [(init_bare p).drawn] at hp; cases hp
  drawnInj p q i j k hp := by rw [(init_bare p).drawn] at hp; cases hp
  knows p := (init_bare p).knows _
  blank i hi := by
    refine .inl ?_
    simp only [Proc.init] at hi ⊢
    split <;> simp_all

theorem pids (h : (sys ini C).Reach s) : Pids s :=
  Lib.Sys.invariant (fun _ hs => hs ▸ Pids.init) (fun _ _ _ hr hi hst => hi.step (control hr) (next_cases hst).choose_spec) h

/-! ## What is gone stays gone -/

/-- Slot `i` has pid `k`, or its fork is about to store it. -/
def HasPid (s : St N C) (i : Fin N) (k : Pid) : Prop := s.mem.pid i = k ∨ ∃ p, (s.pc p).drawn = some (i, k)

theorem HasPid.of_step (h : Control s) (hp : Pids s) (e : Eff ini s c s') (h0 : 0 < k.draw)
    (hk : k.draw < s.mem.nextpid.draw) (hi : HasPid s' i k) : HasPid s i k := by
  rcases h.cases e with ⟨p, op, b, kd⟩ | kd
  · rcases hi with hi | ⟨q, hq⟩
    · rcases kd.pid_at i with he | ha | ⟨r, -, he⟩
      · exact .inl (he ▸ hi)
      · exact .inr ⟨p, by rw [ha, hi]; rfl⟩
      · rw [← hi, he] at h0
        exact absurd h0 (by decide)
    · rcases hp.drawn_step kd q i k hq with hd | ⟨-, hn, -⟩
      · exact .inr ⟨q, hd⟩
      · rw [hn] at hk
        exact absurd hk (Nat.lt_irrefl _)
  · rcases hi with hi | ⟨q, hq⟩
    · exact .inl (kd.pid ▸ hi)
    · rw [role_other (fun _ hb => hb.drawn) (kd.pc q)] at hq
      exact .inr ⟨q, hq⟩

theorem nextpid_mono (h : Control s) (hp : Pids s) (e : Eff ini s c s') : s.mem.nextpid.draw ≤ s'.mem.nextpid.draw := by
  rcases h.cases e with ⟨p, op, b, k⟩ | k
  · exact hp.nextpid_le k
  · exact Nat.le_of_eq (congrArg Pid.draw k.nextpid.symm)

/-- A pid that is not to be stored again: it was drawn, and is not waiting to be stored. -/
def Stored (s : St N C) (k : Pid) : Prop := k.draw < s.mem.nextpid.draw ∧ ∀ p i, (s.pc p).drawn ≠ some (i, k)

theorem Pids.stored (hp : Pids s) (i : Fin N) : Stored s (s.mem.pid i) :=
  ⟨hp.range i, fun q j hq => (hp.drawn q j _ hq).2.2 i rfl⟩

theorem Stored.code (hp : Pids s) (kd : Code ini s p op b s') (h : Stored s k) : Stored s' k := by
  have hle := hp.nextpid_le kd
  refine ⟨by have := h.1; omega, fun q i hq => ?_⟩
  rcases hp.drawn_step kd q i k hq with hq | ⟨-, he, -⟩
  · exact h.2 q i hq
  · exact absurd h.1 (by rw [he]; exact Nat.lt_irrefl _)

theorem Stored.idle (kd : Idle s s') (h : Stored s k) : Stored s' k :=
  ⟨kd.nextpid ▸ h.1, fun q i => by rw [role_other (fun _ hb => hb.drawn) (kd.pc q)]; exact h.2 q i⟩

end Xv6.Proc
