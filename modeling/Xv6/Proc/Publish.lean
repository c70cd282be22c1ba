/-
  Xv6.Proc.Publish — `fork` makes its child RUNNABLE without the child's lock (kernel/proc.c, fork;
  the comment there asks whether that is correct). It is, as far as the process table goes.
-/

import Xv6.Proc.Parents


namespace Xv6.Proc

variable {N C : Nat} {ini p q i j : Fin N} {c : Fin C} {s s' : St N C} {m m' : Mem N C} {a b : Pc N} {op : Op N}

/-! ## kill -/

/-- A `kill`: the pid that it looks for, the draws when it was called, and the slots that it has
    passed by. -/
def Pc.missed : Pc N → Option (BitVec 32 × Nat × Nat)
  | .xAcq k d i => some (k, d, i)
  | .xPid k d i => some (k, d, i)
  | .xNext k d i => some (k, d, i + 1)
  | _ => none

/-- The slot that `kill` has marked, until it gives up the lock. -/
def Pc.marked : Pc N → Option (Fin N)
  | .xState _ i | .xRun _ i | .xRel _ i => some i
  | _ => none

structure Kills (s : St N C) : Prop where
  old : ∀ e ∈ s.hist.kills, e.2.val = e.1 ∧ Stored s e.2
  kept : ∀ e ∈ s.hist.kills, ∀ i, s.mem.pid i = e.2 → e.2.draw ≠ 0 → s.mem.killed i = true
  marked : ∀ p i, (s.pc p).marked = some i → s.mem.killed i = true
  missed : ∀ p k d n, (s.pc p).missed = some (k, d, n) → d ≤ s.mem.nextpid.draw ∧
    ∀ x : Pid, x.val = k → 0 < x.draw → x.draw < d → ∀ j : Fin N, j < n → ¬ HasPid s j x

theorem Pc.Bare.missed (h : a.Bare) : a.missed = none := by cases h <;> rfl

theorem Pc.Bare.marked (h : a.Bare) : a.marked = none := by cases h <;> rfl

theorem Pc.marked_holds (h : a.marked = some i) : a.Holds p (.proc i) := by
  cases a <;> cases h <;> rfl

theorem Pc.missed_drawn {x : BitVec 32 × Nat × Nat} (h : a.missed = some x) : a.drawn = none := by
  cases a <;> first | rfl | cases h

theorem Edge.missed {k : BitVec 32} {d n : Nat} (e : Edge ini p m a op b) (h : b.missed = some (k, d, n)) :
    (n = 0 ∧ d = m.nextpid.draw) ∨
    ∃ l, a.missed = some (k, d, l) ∧ ∀ j : Fin N, j < n → j < l ∨ ((m.pid j).val ≠ k ∧ a.Holds p (.proc j)) := by
  cases e with
  | cKill => cases h; exact .inl ⟨rfl, rfl⟩
  | kDone => rename_i w _; cases w <;> cases h
  | xAcq | xNext => exact .inr ⟨_, h, fun j hj => .inl hj⟩
  | @xOther _ d i hne =>
    cases h
    refine .inr ⟨_, rfl, fun j hj => ?_⟩
    rcases Nat.lt_succ_iff_lt_or_eq.mp hj with hj | hj
    · exact .inl hj
    · cases Fin.ext hj; exact .inr ⟨hne, rfl⟩
  | _ => cases h

theorem Edge.marked (e : Edge ini p m a op b) (h : b.marked = some i) :
    op = .killed i true ∨ (a.marked = some i ∧ ∀ j v, op ≠ .killed j v) := by
  cases e with
  | kDone => rename_i w _; cases w <;> cases h
  | xSet => cases h; exact .inl rfl
  | xSleeping | xAwake | xRun => exact .inr ⟨h, nofun⟩
  | _ => cases h

theorem Edge.killed {v : Bool} (e : Edge ini p m a (.killed i v) b) : v = true ∨ ∃ r, a = .free .killed i r := by
  cases e
  · exact .inr ⟨_, rfl⟩
  · exact .inl rfl

theorem Code.killed_kept (k : Code ini s p op b s') (hfree : ∀ r, s.pc p ≠ .free .killed i r) (hi : s.mem.killed i = true) :
    s'.mem.killed i = true := by
  obtain ⟨c, -, -, hm⟩ := k.effect
  cases op with
  | killed j v =>
    rw [← Option.some.inj hm]
    by_cases hj : i = j
    · subst hj
      exact (Function.update_self ..).trans (k.edge.killed.resolve_right fun ⟨r, ha⟩ => hfree r ha)
    · exact (Function.update_of_ne hj ..).trans hi
  | _ => rw [k.frame.killed nofun]; exact hi

theorem note_kills (h : Hist) : (note p m h a).kills = h.kills ∨
    ∃ k i, a = .xRel k i ∧ (note p m h a).kills = (k, m.pid i) :: h.kills := by
  cases a <;> first | exact .inl rfl | exact .inr ⟨_, _, rfl, rfl⟩

theorem Code.kills_eq (k : Code ini s p op b s') : s'.hist.kills = s.hist.kills ∨
    ∃ n i, s.pc p = .xRel n i ∧ s'.hist.kills = (n, s.mem.pid i) :: s.hist.kills := by
  rw [k.hist]; exact note_kills _

section

variable (h : Control s) (hp : Pids s) (hk : Kills s) (k : Code ini s p op b s')
include hp hk k in
theorem Kills.old_code (e : BitVec 32 × Pid) (he : e ∈ s'.hist.kills) : e.2.val = e.1 ∧ Stored s' e.2 := by
  have hold : e ∈ s.hist.kills → e.2.val = e.1 ∧ Stored s' e.2 := fun he => ⟨(hk.old e he).1, (hk.old e he).2.code hp k⟩
  rcases k.kills_eq with hn | ⟨n, i, ha, hn⟩
  · exact hold (hn ▸ he)
  · rw [hn] at he
    rcases List.mem_cons.mp he with rfl | he
    · have hpid := hp.knows p
      rw [ha] at hpid
      exact ⟨hpid, (hp.stored i).code hp k⟩
    · exact hold he

include hp hk k in
theorem Kills.kept_code (e : BitVec 32 × Pid) (he : e ∈ s'.hist.kills) (i : Fin N) (hi : s'.mem.pid i = e.2)
    (h0 : e.2.draw ≠ 0) : s'.mem.killed i = true := by
  have hfree : s.mem.pid i = e.2 → ∀ r, s.pc p ≠ .free .killed i r := fun hi r ha => by
    have := hp.knows p
    rw [ha] at this
    exact h0 (hi ▸ this)
  have hold : e ∈ s.hist.kills → s'.mem.killed i = true := fun he => by
    rcases k.pid_at i with hpid | ha | ⟨r, -, hz⟩
    · rw [hpid] at hi
      exact k.killed_kept (hfree hi) (hk.kept e he i hi h0)
    · exact absurd (by rw [ha, hi]; rfl) ((hk.old e he).2.2 p i)
    · rw [← hi, hz] at h0
      exact absurd rfl h0
  rcases k.kills_eq with hn | ⟨n, j, ha, hn⟩
  · exact hold (hn ▸ he)
  · rw [hn] at he
    rcases List.mem_cons.mp he with rfl | he
    · -- the slot that this kill has marked
      have hed := k.edge
      rw [ha] at hed
      cases hed
      rw [k.frame.pid nofun] at hi
      obtain rfl := hp.inj i j hi (hi ▸ h0)
      exact k.killed_kept (hfree rfl) (hk.marked p i (by rw [ha]; rfl))
    · exact hold he

include h hk k in
theorem Kills.marked_code (q i : Fin N) (hq : (s'.pc q).marked = some i) : s'.mem.killed i = true := by
  rcases k.role (fun _ hb => hb.marked) hq with ⟨rfl, hq⟩ | ⟨e, hq⟩
  · rcases k.edge.marked hq with rfl | ⟨ha, hop⟩
    · obtain ⟨c, -, -, hm⟩ := k.effect
      rw [← Option.some.inj hm]
      exact Function.update_self ..
    · rw [k.frame.killed hop]; exact hk.marked q i ha
  · refine k.killed_kept (fun r ha => e ?_) (hk.marked q i hq)
    -- freeproc would hold the lock that this kill holds
    exact h.holds_unique (Pc.marked_holds hq) (by rw [ha]; rfl) (fun hb => by rw [hb.marked] at hq; cases hq)
      (by rw [ha]; nofun)

end

theorem Kills.missed_step (h : Control s) (hp : Pids s) (hk : Kills s) (e : Eff ini s c s') (q : Fin N) (n : BitVec 32)
    (d l : Nat)
    (hq : (s'.pc q).missed = some (n, d, l)) : d ≤ s'.mem.nextpid.draw ∧
      ∀ x : Pid, x.val = n → 0 < x.draw → x.draw < d → ∀ j : Fin N, j < l → ¬ HasPid s' j x := by
  have hle := nextpid_mono h hp e
  have hstay : ∀ l', (s.pc q).missed = some (n, d, l') → d ≤ s'.mem.nextpid.draw ∧
      ∀ x : Pid, x.val = n → 0 < x.draw → x.draw < d → ∀ j : Fin N, j < l' → ¬ HasPid s' j x := fun l' hq => by
    obtain ⟨hlt, hno⟩ := hk.missed q n d l' hq
    exact ⟨by omega, fun x hx h0 hd j hj hh => hno x hx h0 hd j hj (hh.of_step h hp e h0 (by omega))⟩
  rcases h.cases e with ⟨p, op, b, k⟩ | k
  · rcases k.role (fun _ hb => hb.missed) hq with ⟨rfl, hq⟩ | ⟨-, hq⟩
    · rcases k.edge.missed hq with ⟨rfl, rfl⟩ | ⟨l', ha, hscan⟩
      · exact ⟨hle, fun _ _ _ _ j hj => by omega⟩
      · obtain ⟨hlt, hno⟩ := hstay l' ha
        refine ⟨hlt, fun x hx h0 hd j hj hh => ?_⟩
        rcases hscan j hj with hj | ⟨hne, hhold⟩
        · exact hno x hx h0 hd j hj hh
        · -- a fork that had drawn the pid for this slot would hold its lock
          have hlt := (hk.missed q n d l' ha).1
          rcases hh.of_step h hp e h0 (by omega) with he | ⟨r, hr⟩
          · exact hne (by rw [he]; exact hx)
          · have hxp := Pc.drawn_expects hr
            have hb : ∀ x, (s.pc x).missed ≠ none ∨ (s.pc x).drawn ≠ none → ¬ (s.pc x).Bare := fun x hx hb =>
              hx.elim (fun h => h hb.missed) fun h => h hb.drawn
            obtain rfl := h.holds_unique hhold ((Pc.expects_slot (p := r) hxp).resolve_right nofun)
              (hb q (.inl (by rw [ha]; nofun))) (hb r (.inr (by rw [hr]; nofun)))
            rw [Pc.missed_drawn ha] at hr
            cases hr
    · exact hstay l hq
  · rw [role_other (fun _ hb => hb.missed) (k.pc q)] at hq
    exact hstay l hq

theorem Kills.step (h : Control s) (hp : Pids s) (hk : Kills s) (e : Eff ini s c s') : Kills s' := by
  have hmissed := hk.missed_step h hp e
  rcases h.cases e with ⟨p, op, b, k⟩ | k
  · exact ⟨hk.old_code hp k, hk.kept_code hp k, hk.marked_code h k, hmissed⟩
  · refine ⟨fun e he => ?_, fun e he i => ?_, fun q i hq => ?_, hmissed⟩
    · obtain ⟨hval, hst⟩ := hk.old e (k.hist ▸ he)
      exact ⟨hval, hst.idle k⟩
    · rw [k.pid, k.killed]; exact hk.kept e (k.hist ▸ he) i
    · rw [role_other (fun _ hb => hb.marked) (k.pc q)] at hq
      rw [k.killed]; exact hk.marked q i hq

theorem Kills.init : Kills (init ini C) where
  old e he := by cases he
  kept e he := by cases he
  marked p i hp := by rw [(init_bare p).marked] at hp; cases hp
  missed p k d n hp := by rw [(init_bare p).missed] at hp; cases hp

theorem kills (h : (sys ini C).Reach s) : Kills s :=
  Lib.Sys.invariant (fun _ hs => hs ▸ Kills.init)
    (fun _ _ _ hr hi hst => hi.step (control hr) (pids hr) (next_cases hst).choose_spec) h

/-! ## The unlocked store -/

end Xv6.Proc
