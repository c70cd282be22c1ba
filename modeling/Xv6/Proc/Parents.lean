/-
  Xv6.Proc.Parents — parent pointers. `reparent` runs to its end before the exiting process is a
  ZOMBIE, under `wait_lock`, so that every parent pointer names a process that has started and not
  yet exited (`Parents.alive`).

  A fork knows its own slot's parent without `wait_lock`; `wait` and `exit` know what they have
  read under it.
-/

import Xv6.Proc.Pids


namespace Xv6.Proc

variable {N C : Nat} {ini p q r i j : Fin N} {c : Fin C} {s s' : St N C} {m m' : Mem N C} {a b : Pc N} {op : Op N}

/-- What process `p` knows of a slot's parent. -/
def Pc.KnowsParent (p : Fin N) (parent : Fin N → Option (Fin N)) : Pc N → Prop
  | .fPidAcq i | .fPidLoad i | .fPidInc i _ | .fPidRel i _ | .fSetPid i _ | .fSetUsed i | .fBuild i | .fCopy i | .fGetPid i
  | .fRel i _ | .fWait i _ | .fParent i _ | .free _ i .fork => parent i = none
  | .fWaitRel i _ | .fPublish i _ | .eSetPar _ i | .wLock _ i | .wTest _ i | .wPid _ i | .wCopy _ i _
  | .free .pid i (.wait _ _ _) | .free .parent i (.wait _ _ _) => parent i = some p
  | .free _ i (.wait _ _ _) => parent i = none
  | _ => True

/-- In `exit`, up to the store of ZOMBIE: the slots below this one have been looked at by
    `reparent`. -/
def Waker.orphans (N : Nat) : Waker → Option Nat
  | .reparent _ j => some (j + 1)
  | .exit _ => some N
  | .other => none

@[inherit_doc Waker.orphans]
def Pc.orphans : Pc N → Option Nat
  | .eAcq _ => some 0
  | .eScan _ j => some j
  | .eSetPar _ j => some j
  | .kAcq _ _ w | .kState _ _ w | .kChan _ _ w | .kSet _ _ w | .kRel _ _ w => w.orphans N
  | .eLoadPar _ | .eLock _ | .eXstate _ | .eZombie _ => some N
  | _ => none

structure Parents (ini : Fin N) (s : St N C) : Prop where
  knows : ∀ p, (s.pc p).KnowsParent p s.mem.parent
  unused : ∀ i, s.mem.state i = .unused → s.mem.parent i = none
  alive : ∀ i r, s.mem.parent i = some r → (s.mem.state r).Alive
  irrefl : ∀ i r, s.mem.parent i = some r → r ≠ i
  root : s.mem.parent ini = none
  rootAlive : (s.mem.state ini).Alive
  exiting : ∀ p n, (s.pc p).orphans = some n → p ≠ ini
  scanned : ∀ p n, (s.pc p).orphans = some n → ∀ j : Fin N, j < n → s.mem.parent j ≠ some p

/-! ## The edges -/

theorem Pc.Bare.knowsParent (h : a.Bare) (p : Fin N) (parent : Fin N → Option (Fin N)) : a.KnowsParent p parent := by
  cases h <;> trivial

theorem Pc.Bare.orphans (h : a.Bare) : a.orphans = none := by cases h <;> rfl

theorem Edge.parent {x : Option (Fin N)} (e : Edge ini p m a (.parent i x) b) :
    (∃ k, a = .fParent i k ∧ x = some p ∧ b = .fWaitRel i k) ∨ (∃ r, a = .free .parent i r ∧ x = none ∧ b = .free .chan i r) ∨
    ∃ st, a = .eSetPar st i ∧ x = some ini ∧ b = .kAcq (some (.proc ini)) 0 (.reparent st i) := by
  cases e
  · exact .inl ⟨_, rfl, rfl, rfl⟩
  · exact .inr (.inl ⟨_, rfl, rfl, rfl⟩)
  · exact .inr (.inr ⟨_, rfl, rfl, rfl⟩)

theorem Pc.KnowsParent.congr {f g : Fin N → Option (Fin N)} (h : a.KnowsParent p f)
    (hc : ∀ i u, a.expects = some (i, u) → f i = none ∨ f i = some p → g i = f i)
    (hw : ∀ i, a.waitLock = true → f i = some p → g i = f i) :
    a.KnowsParent p g := by
  cases a with
  | free x i t =>
    cases t with
    | fork => exact (hc i _ rfl (.inl h)).trans h
    | wait y k st => cases x <;> first | exact (hc i _ rfl (.inl h)).trans h | exact (hc i _ rfl (.inr h)).trans h
  | eSetPar st i | wLock y i | wTest y i => exact (hw i rfl h).trans h
  | _ => first | trivial | exact (hc _ _ rfl (.inl h)).trans h | exact (hc _ _ rfl (.inr h)).trans h

theorem Pc.Owns.parent {f : Fin N → Option (Fin N)} (h : a.Owns i) (hk : a.KnowsParent p f) : f i = none ∨ f i = some p := by
  cases a with
  | free x j t => cases t <;> rcases h with h | h <;> cases h; exact .inl hk
  | _ => rcases h with h | h <;> first | (cases h; done) | (cases h; exact .inl hk) | (cases h; exact .inr hk)

theorem Edge.knowsParent (e : Edge ini p m a op b) (hm : op.run c m = some m') (h : a.KnowsParent p m.parent)
    (hu : ∀ i, m.state i = .unused → m.parent i = none) : b.KnowsParent p m'.parent := by
  have hf := Op.frame hm
  cases e with
  | fParent | freeParent =>
    cases hm
    first | exact Function.update_self .. | (rename_i t; cases t <;> exact Function.update_self ..)
  | eSetPar => trivial
  | freePid | freeChan | freeKilled | freeXstate | freeState =>
    rename_i t
    rw [hf.parent nofun]
    cases t <;> first | exact h | trivial
  | fFound hst => rw [hf.parent nofun]; exact hu _ hst
  | kDone => rename_i w _; cases w <;> trivial
  | wChild _ hp | eChild _ hp => rw [hf.parent nofun]; exact hp
  | wCopied => rw [hf.parent nofun]; exact h
  | _ => rw [hf.parent nofun]; trivial

theorem Waker.pc_orphans (w : Waker) : (w.pc : Pc N).orphans = w.orphans N := by cases w <;> rfl

theorem Edge.orphans {n : Nat} (e : Edge ini p m a op b) (h : b.orphans = some n) :
    (n = 0 ∧ p ≠ ini) ∨ ∃ l, a.orphans = some l ∧ ∀ j : Fin N, j < n → j < l ∨ m.parent j ≠ some p ∨
      op = .parent j (some ini) := by
  cases e with
  | cExit hp => cases h; exact .inl ⟨rfl, hp⟩
  | cWakeup => cases h
  | eOther hj hp =>
    cases h
    refine .inr ⟨_, rfl, fun j hlt => ?_⟩
    rcases Nat.lt_succ_iff_lt_or_eq.mp hlt with hlt | rfl
    · exact .inl hlt
    · exact .inr (.inl hp)
  | eDone hj => cases h; exact .inr ⟨_, rfl, fun j hlt => .inl (by omega)⟩
  | eSetPar =>
    cases h
    refine .inr ⟨_, rfl, fun j hlt => ?_⟩
    rcases Nat.lt_succ_iff_lt_or_eq.mp hlt with hlt | hlt
    · exact .inl hlt
    · exact .inr (.inr (by rw [Fin.ext hlt]))
  | kDone =>
    rw [Waker.pc_orphans] at h
    exact .inr ⟨n, h, fun j hlt => .inl hlt⟩
  | _ => first | (cases h; done) | exact .inr ⟨n, h, fun j hlt => .inl hlt⟩

/-! ## One step -/

theorem Op.parent_at (h : op.run c m = some m') (i : Fin N) : m'.parent i = m.parent i ∨ op = .parent i (m'.parent i) := by
  cases op with
  | parent j v =>
    cases h
    by_cases hi : i = j
    · subst hi; simp
    · exact .inl (Function.update_of_ne hi ..)
  | _ => exact .inl (congrFun ((Op.frame h).parent nofun) i)

theorem Code.parent_at (k : Code ini s p op b s') (i : Fin N) : s'.mem.parent i = s.mem.parent i ∨
    (∃ n, s.pc p = .fParent i n ∧ s'.mem.parent i = some p) ∨ (∃ t, s.pc p = .free .parent i t ∧ s'.mem.parent i = none) ∨
    ∃ st, s.pc p = .eSetPar st i ∧ s'.mem.parent i = some ini := by
  obtain ⟨c, -, -, hm⟩ := k.effect
  refine (Op.parent_at hm i).imp_right fun hop => ?_
  have he := k.edge
  rw [hop] at he
  rcases he.parent with ⟨n, ha, hx, -⟩ | ⟨t, ha, hx, -⟩ | ⟨st, ha, hx, -⟩
  · exact .inl ⟨n, ha, hx⟩
  · exact .inr (.inl ⟨t, ha, hx⟩)
  · exact .inr (.inr ⟨st, ha, hx⟩)

section

variable (h : Control s) (hp : Parents ini s) (k : Code ini s p op b s')
include h hp k

theorem Parents.parent_counted (hq : q ≠ p) {u : PState}
    (he : (s.pc q).expects = some (i, u)) (hk : s.mem.parent i = none ∨ s.mem.parent i = some q) :
    s'.mem.parent i = s.mem.parent i := by
  refine (k.parent_at i).resolve_right ?_
  rintro (⟨n, ha, -⟩ | ⟨t, ha, -⟩ | ⟨st, ha, -⟩)
  · exact hq (h.expects_unique he (by rw [ha]; rfl))
  · cases t <;> exact hq (h.expects_unique he (by rw [ha]; rfl))
  · have hpar := hp.knows p
    rw [ha] at hpar
    rcases hk with hk | hk <;> cases hk.symm.trans hpar
    exact hq rfl

theorem Parents.parent_locked (hq : q ≠ p)
    (hw : (s.pc q).waitLock = true) (hi : s.mem.parent i = some q) : s'.mem.parent i = s.mem.parent i := by
  have hexcl : (s.pc p).waitLock = true → False := fun hw' => hq (h.wait_unique hw hw')
  refine (k.parent_at i).resolve_right ?_
  rintro (⟨n, ha, -⟩ | ⟨t, ha, -⟩ | ⟨st, ha, -⟩)
  · exact hexcl (by rw [ha]; rfl)
  · cases t with
    | fork =>
      have hpar := hp.knows p
      rw [ha] at hpar
      cases hi.symm.trans hpar
    | wait => exact hexcl (by rw [ha]; rfl)
  · exact hexcl (by rw [ha]; rfl)

theorem Parents.unused_code (i : Fin N)
    (hi : s'.mem.state i = .unused) : s'.mem.parent i = none := by
  rcases k.state_at i with he | hop
  · have hu : s.mem.state i = .unused := he ▸ hi
    rcases k.parent_at i with hpar | ⟨n, ha, -⟩ | ⟨t, -, hpar⟩ | ⟨st, ha, -⟩
    · exact hpar.trans (hp.unused i hu)
    · exact absurd ((h.expects p i .used (by rw [ha]; rfl)).symm.trans hu) nofun
    · exact hpar
    · have := hp.knows p
      rw [ha] at this
      exact absurd (this.symm.trans (hp.unused i hu)) nofun
  · -- freeproc has cleared the parent before
    rw [k.frame.parent (by rw [hop]; nofun)]
    have he := k.edge
    have hk := hp.knows p
    rw [hop, hi] at he
    generalize s.pc p = a at he hk
    cases he
    rename_i t
    cases t <;> exact hk

theorem Parents.code : Parents ini s' := by
  obtain ⟨c, hc, hirq, hm⟩ := k.effect
  have halive : ∀ r i, s.mem.parent i = some r → (s'.mem.state r).Alive := fun r i hr => by
    refine (h.alive_code k (hp.alive i r hr)).resolve_right ?_
    rintro ⟨rfl, st, ha⟩
    exact hp.scanned r N (by rw [ha]; rfl) i i.isLt hr
  have hroot : (s'.mem.state ini).Alive := by
    refine (h.alive_code k hp.rootAlive).resolve_right ?_
    rintro ⟨rfl, st, ha⟩
    exact hp.exiting ini N (by rw [ha]; rfl) rfl
  have hexit : ∀ q n, (s'.pc q).orphans = some n → q ≠ ini := fun q n hq => by
    rcases k.role (fun _ hb => hb.orphans) hq with ⟨rfl, hq⟩ | ⟨-, hq⟩
    · rcases k.edge.orphans hq with ⟨-, hne⟩ | ⟨l, hl, -⟩
      · exact hne
      · exact hp.exiting q l hl
    · exact hp.exiting q n hq
  refine ⟨fun q => ?_, hp.unused_code h k, fun i r hr => ?_, fun i r hr => ?_, ?_, hroot, hexit, fun q n hq j hj => ?_⟩
  · by_cases e : q = p
    · subst e; rw [k.pc]; exact k.edge.knowsParent hm (hp.knows q) hp.unused
    · rcases k.other q e with he | ⟨-, hb⟩
      · rw [he]
        exact (hp.knows q).congr (fun i u hx hk => hp.parent_counted h k e hx hk) (fun i hw hi => hp.parent_locked h k e hw hi)
      · exact hb.knowsParent _ _
  · rcases k.parent_at i with he | ⟨n, ha, he⟩ | ⟨t, -, he⟩ | ⟨st, -, he⟩
    · exact halive r i (he ▸ hr)
    · cases he.symm.trans hr
      rw [k.frame.state (by have := k.edge; rw [ha] at this; cases this; nofun), h.self c p hc, St.self, hirq, ha]
      exact .inr (.inr rfl)
    · cases he.symm.trans hr
    · cases he.symm.trans hr; exact hroot
  · rcases k.parent_at i with he | ⟨n, ha, he⟩ | ⟨t, -, he⟩ | ⟨st, ha, he⟩
    · exact hp.irrefl i r (he ▸ hr)
    · cases he.symm.trans hr
      rintro rfl
      exact (h.self_ne hc).2 (h.expects p p .used (by rw [ha]; rfl))
    · cases he.symm.trans hr
    · cases he.symm.trans hr
      rintro rfl
      have := hp.knows p
      rw [ha] at this
      cases this.symm.trans hp.root
  · rcases k.parent_at ini with he | ⟨n, ha, -⟩ | ⟨t, -, he⟩ | ⟨st, ha, -⟩
    · exact he.trans hp.root
    · have := hp.rootAlive
      rw [h.expects p ini .used (by rw [ha]; rfl)] at this
      simp [PState.Alive] at this
    · exact he
    · have := hp.knows p
      rw [ha] at this
      cases this.symm.trans hp.root
  · -- nobody becomes a child of an exiting process
    have hne := hexit q n hq
    have hkeep : s.mem.parent j ≠ some q → (q = p → ∀ m, s.pc p ≠ .fParent j m) → s'.mem.parent j ≠ some q := by
      intro hold hf he
      rcases k.parent_at j with hpar | ⟨m, ha, hpar⟩ | ⟨t, -, hpar⟩ | ⟨st, -, hpar⟩
      · exact hold (hpar ▸ he)
      · cases he.symm.trans hpar; exact hf rfl m ha
      · cases he.symm.trans hpar
      · cases he.symm.trans hpar; exact hne rfl
    rcases k.role (fun _ hb => hb.orphans) hq with ⟨rfl, hq⟩ | ⟨e, hq⟩
    · rcases k.edge.orphans hq with ⟨rfl, -⟩ | ⟨l, hl, hscan⟩
      · omega
      · have hf : ∀ m, s.pc q ≠ .fParent j m := fun m ha => by rw [ha] at hl; cases hl
        rcases hscan j hj with hlt | hold | rfl
        · exact hkeep (hp.scanned q l hl j hlt) fun _ => hf
        · exact hkeep hold fun _ => hf
        · rw [← Option.some.inj hm]
          intro he
          exact hne (Option.some.inj ((Function.update_self j (some ini) s.mem.parent).symm.trans he)).symm
    · exact hkeep (hp.scanned q n hq j hj) fun he => absurd he e

end

theorem Parents.idle (hp : Parents ini s) (k : Idle s s') : Parents ini s' := by
  have ho := fun q => role_other (fun _ hb => hb.orphans) (k.pc q)
  refine ⟨fun q => ?_, fun i hi => ?_, fun i r hr => k.alive (hp.alive i r (k.parent ▸ hr)),
    fun i r hr => hp.irrefl i r (k.parent ▸ hr), k.parent ▸ hp.root, k.alive hp.rootAlive,
    fun q n hq => hp.exiting q n (ho q ▸ hq), fun q n hq j hj => ?_⟩
  · rcases k.pc q with he | ⟨-, hb⟩
    · rw [he, k.parent]; exact hp.knows q
    · exact hb.knowsParent _ _
  · rw [k.parent]
    exact hp.unused i ((k.not_alive (by simp [hi, PState.Alive])).symm.trans hi)
  · rw [k.parent]; exact hp.scanned q n (ho q ▸ hq) j hj

theorem Parents.step (h : Control s) (hp : Parents ini s) (e : Eff ini s c s') : Parents ini s' := by
  rcases h.cases e with ⟨p, op, b, k⟩ | k
  · exact hp.code h k
  · exact hp.idle k

theorem Parents.init : Parents ini (init ini C) where
  knows p := (init_bare p).knowsParent _ _
  unused _ _ := rfl
  alive i r hr := by cases hr
  irrefl i r hr := by cases hr
  root := rfl
  rootAlive := by simp [Proc.init, PState.Alive]
  exiting p n hp := by rw [(init_bare p).orphans] at hp; cases hp
  scanned p n hp := by rw [(init_bare p).orphans] at hp; cases hp

theorem parents (h : (sys ini C).Reach s) : Parents ini s :=
  Lib.Sys.invariant (fun _ hs => hs ▸ Parents.init) (fun _ _ _ hr hi hst => hi.step (control hr) (next_cases hst).choose_spec) h

end Xv6.Proc
