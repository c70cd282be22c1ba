/-
  Xv6.Log.GroupProofs — the group-commit model's properties (see `Xv6.Log.Group`).
-/

import Xv6.Log.Group
import Xv6.Lib.Count
import Xv6.Lib.Update

namespace Xv6.Log.Group

open Lib
open Function (update update_self update_of_ne)

variable {P : Type} [DecidableEq P]

/-! ## Basics -/

def InCommit : Pc → Prop
  | .commit | .writeHead | .install _ | .eraseHead | .finish => True
  | _ => False

section

variable (s : St P) (p : P) (c : Pc)

@[simp] theorem setPc_self : (setPc s p c).pc p = c := Function.update_self ..

theorem setPc_pc : (setPc s p c).pc = update s.pc p c := rfl

@[simp] theorem setPc_lh : (setPc s p c).lh = s.lh := rfl

@[simp] theorem setPc_pin : (setPc s p c).pin = s.pin := rfl

end

theorem setPc_ne (s : St P) {p q : P} (c : Pc) (h : q ≠ p) : (setPc s p c).pc q = s.pc q := update_of_ne h ..

omit [DecidableEq P] in
@[simp] theorem wakeup_ne_asleep (pc : P → Pc) (q : P) : wakeup pc q ≠ .asleep := by
  unfold wakeup; split <;> simp_all

omit [DecidableEq P] in
theorem wakeup_eq_iff (pc : P → Pc) (q : P) {c : Pc} (h1 : c ≠ .asleep) (h2 : c ≠ .begin) :
    wakeup pc q = c ↔ pc q = c := by
  unfold wakeup
  split
  · rename_i h
    rw [h]
    exact ⟨fun e => absurd e.symm h2, fun e => absurd e.symm h1⟩
  · rfl

omit [DecidableEq P] in
theorem inCommit_wakeup (pc : P → Pc) (q : P) : InCommit (wakeup pc q) ↔ InCommit (pc q) := by
  unfold wakeup
  split
  · rename_i h; simp [h, InCommit]
  · rfl

theorem next_cases {size : Nat} {s s' : St P} {a : Act P} (h : next size s a = some s') :
    s.panicked = none ∧ match a with
      | .call p => s.pc p = .out ∧ setPc s p .begin = s'
      | .begin p => s.pc p = .begin ∧ beginOp s p = s'
      | .kill p => s.pc p = .asleep ∧ setPc s p .begin = s'
      | .logWrite p b => s.pc p = .op ∧ logWrite size s p b = s'
      | .endOp p => s.pc p = .op ∧ endOp s p = s'
      | .commit p => commitStep s p = some s' := by
  simp only [next, Option.ite_none_right_eq_some] at h
  refine ⟨h.1, ?_⟩
  have h := h.2
  cases a with
  | commit p => exact h
  | _ => simpa only [Option.ite_none_right_eq_some, Option.some.injEq] using h

/-! ## The log -/

/-- How many iterations of `install_trans` are done. -/
def Pc.tail : Pc → Nat
  | .install t => t
  | _ => 0

/-- The blocks from `tail` on are pinned, once each, and no other block is. -/
def Pinned (s : St P) (tail : Nat) : Prop := ∀ b, s.pin b = if b ∈ s.lh.drop tail then 1 else 0

structure Inv [Fintype P] (s : St P) : Prop where
  count : s.outstanding = count (· = Pc.op) s.pc
  one : ∀ p q, InCommit (s.pc p) → InCommit (s.pc q) → p = q
  comm : s.committing = true ↔ ∃ p, InCommit (s.pc p)
  quiet : s.committing = true → ∀ p, s.pc p ≠ .op
  /-- No operation and no commit: the transaction is empty. -/
  empty : s.committing = false → (∀ p, s.pc p ≠ .op) → s.lh = []
  cleared : ∀ p, s.pc p = .eraseHead ∨ s.pc p = .finish → s.lh = []
  nodup : s.lh.Nodup
  pinned : (∀ p t, s.pc p ≠ .install t) → Pinned s 0
  pinTail : ∀ p t, s.pc p = .install t → Pinned s t
  asleep : ∀ p, s.pc p = .asleep → Full s
  noPanic : s.panicked ≠ some .committing ∧ s.panicked ≠ some .outside

section Inv

variable [Fintype P] {s : St P} {p : P}

section

omit [DecidableEq P]

theorem init_inv : Inv (init P) := by
  constructor <;> simp [init, InCommit, Pinned, Lib.count]

theorem Inv.pos_of_op (h : Inv s) (hp : s.pc p = .op) : 1 ≤ s.outstanding := by
  have := (count_pos (q := (· = Pc.op)) (f := s.pc)).mpr ⟨p, hp⟩
  have := h.count
  omega

theorem Inv.zero_iff (h : Inv s) : s.outstanding = 0 ↔ ∀ p, s.pc p ≠ .op := by
  have := count_eq_zero (q := (· = Pc.op)) (f := s.pc)
  rw [h.count]
  constructor
  · intro h0; exact this.mp (by omega)
  · intro h0; have := this.mpr h0; omega

theorem Inv.not_committing (h : Inv s) (hp : s.pc p = .op) : s.committing = false := by
  cases hc : s.committing
  · rfl
  · exact absurd hp (h.quiet hc p)

theorem Inv.not_inCommit (h : Inv s) (hc : s.committing = false) (q : P) : ¬ InCommit (s.pc q) := by
  intro hq
  have := h.comm.mpr ⟨q, hq⟩
  rw [hc] at this
  cases this

theorem Inv.not_installing (h : Inv s) (hp : InCommit (s.pc p)) (hn : ∀ t, s.pc p ≠ .install t) (q : P) (t : Nat) :
    s.pc q ≠ .install t := by
  intro hq
  have e := h.one q p (by rw [hq]; trivial) hp
  subst e
  exact hn t hq

end

theorem Inv.move (h : Inv s) {c : Pc} (h0 : s.pc p ≠ .op ∧ ¬ InCommit (s.pc p)) (h1 : c ≠ .op ∧ ¬ InCommit c)
    (ha : c = .asleep → Full s) : Inv (setPc s p c) := by
  have hpc : ∀ q d, (d = .op ∨ InCommit d) → ((setPc s p c).pc q = d ↔ s.pc q = d) := by
    intro q d hd
    rw [setPc_pc]
    refine update_ind q ?_ fun _ _ => Iff.rfl
    constructor <;> rintro rfl <;> tauto
  have hop : ∀ q, (setPc s p c).pc q = .op ↔ s.pc q = .op := fun q => hpc q _ (Or.inl rfl)
  have hin : ∀ q, InCommit ((setPc s p c).pc q) ↔ InCommit (s.pc q) := by
    intro q
    rw [setPc_pc]
    exact update_ind q (iff_of_false h1.2 h0.2) fun _ _ => Iff.rfl
  have hinst : ∀ q t, (setPc s p c).pc q = .install t ↔ s.pc q = .install t := fun q t => hpc q _ (Or.inr trivial)
  refine ⟨h.count.trans ?_, fun q r hq hr => h.one q r ((hin q).mp hq) ((hin r).mp hr), ?_, ?_, ?_, ?_, h.nodup, ?_, ?_, ?_,
    h.noPanic⟩
  · exact congrArg _ (count_congr fun q => (hop q).symm)
  · exact h.comm.trans (exists_congr fun q => (hin q).symm)
  · exact fun hc q hq => h.quiet hc q ((hop q).mp hq)
  · exact fun hc hq => h.empty hc fun q hq' => hq q ((hop q).mpr hq')
  · exact fun q hq => h.cleared q (hq.imp (hpc q .eraseHead (Or.inr trivial)).mp (hpc q .finish (Or.inr trivial)).mp)
  · exact fun hn => h.pinned fun q t hq => hn q t ((hinst q t).mpr hq)
  · exact fun q t hq => h.pinTail q t ((hinst q t).mp hq)
  · intro q
    rw [setPc_pc]
    exact update_ind q ha fun q _ => h.asleep q

theorem beginOp_inv (h : Inv s) (hp : s.pc p = .begin) : Inv (beginOp s p) := by
  unfold beginOp
  split
  · rename_i hf
    exact h.move (by simp [hp, InCommit]) (by simp [InCommit]) fun _ => hf
  · rename_i hf
    have hc : s.committing = false := by
      simp only [Full, not_or, Bool.not_eq_true] at hf; exact hf.1
    have hin : ∀ q, InCommit ((setPc s p .op).pc q) ↔ InCommit (s.pc q) := by
      intro q
      rw [setPc_pc]
      exact update_ind q (by simp [hp, InCommit]) fun _ _ => Iff.rfl
    have hne : ∀ q c, c ≠ .op → (setPc s p .op).pc q = c → s.pc q = c := by
      intro q c hc
      rw [setPc_pc]
      exact update_ind q (fun hq => absurd hq.symm hc) fun _ _ => id
    refine ⟨?_, fun q r hq hr => h.one q r ((hin q).mp hq) ((hin r).mp hr), ?_, ?_, ?_, ?_, h.nodup, ?_, ?_, ?_, h.noPanic⟩
    · have := count_update (· = Pc.op) s.pc p .op
      have := h.count
      simp only [hp, setPc, reduceCtorEq, if_false, if_true] at *
      omega
    · exact h.comm.trans (exists_congr fun q => (hin q).symm)
    · intro hc'; simp [setPc, hc] at hc'
    · intro _ hq; exact absurd (setPc_self s p .op) (hq p)
    · exact fun q hq => h.cleared q (hq.imp (hne q _ (by simp)) (hne q _ (by simp)))
    · intro _
      exact h.pinned fun q t hq => h.not_inCommit hc q (by rw [hq]; trivial)
    · exact fun q t hq => h.pinTail q t (hne q _ (by simp) hq)
    · intro q hq
      rcases h.asleep q (hne q _ (by simp) hq) with hf' | hf'
      · rw [hc] at hf'; cases hf'
      · -- a sleeper that could not proceed cannot with one operation more
        right
        simp only [setPc, MAXOPBLOCKS, LOGSIZE] at hf' ⊢
        omega

omit [DecidableEq P] in
theorem logWrite_inv {size b : Nat} (h : Inv s) (hp : s.pc p = .op) : Inv (logWrite size s p b) := by
  unfold logWrite
  have hpos := h.pos_of_op hp
  split
  · exact { h with noPanic := by simp }
  have hlt : ¬ s.outstanding < 1 := by omega
  rw [if_neg hlt]
  have hcur : Inv { s with logs := s.logs ++ [(s.opId p, b)], cur := s.cur ++ [(s.opId p, b)] } := { h with }
  dsimp only
  split
  · exact hcur
  · rename_i hb
    have hcl := h.not_inCommit (h.not_committing hp)
    have hni : ∀ q t, s.pc q ≠ .install t := fun q t hq => hcl q (by rw [hq]; trivial)
    refine { hcur with empty := ?_, cleared := ?_, nodup := ?_, pinned := ?_, pinTail := ?_, asleep := ?_ }
    · intro _ hq; exact absurd hp (hq p)
    · intro q hq
      rcases hq with hq | hq <;> exact absurd (by rw [show s.pc q = _ from hq]; trivial) (hcl q)
    · exact List.nodup_append'.mpr ⟨h.nodup, by simp, by simpa using hb⟩
    · intro _ c
      have hpin := h.pinned hni c
      simp only [List.drop_zero] at hpin ⊢
      by_cases e : c = b
      · subst e
        have hb' : c ∉ s.lh := hb
        simp [hpin, hb']
      · simp only [update_of_ne e, hpin, List.mem_append, List.mem_singleton, e, or_false]
    · intro q t hq; exact absurd hq (hni q t)
    · intro q hq
      rcases h.asleep q hq with hf | hf
      · exact Or.inl hf
      · right; simp only [List.length_append, List.length_singleton] at hf ⊢; push_cast; omega

theorem inv_alone {s' : St P} {c : Pc} (hc : InCommit c) (hpc : s'.pc = update s.pc p c)
    (hother : ∀ q, q ≠ p → s.pc q ≠ .op ∧ ¬ InCommit (s.pc q)) (h0 : s'.outstanding = 0) (hcomm : s'.committing = true)
    (hn : s'.lh.Nodup) (hcl : c = .eraseHead ∨ c = .finish → s'.lh = []) (hpin : Pinned s' c.tail)
    (hpanic : s'.panicked ≠ some .committing ∧ s'.panicked ≠ some .outside) : Inv s' := by
  have hself : s'.pc p = c := by rw [hpc, update_self]
  have hin : ∀ q, InCommit (s'.pc q) → q = p := by
    intro q
    rw [hpc]
    exact update_ind q (fun _ => rfl) fun q e hq => absurd hq (hother q e).2
  have hop : ∀ q, s'.pc q ≠ .op := by
    intro q
    rw [hpc]
    exact update_ind q (by rintro rfl; exact hc) fun q e => (hother q e).1
  refine ⟨?_, fun q r hq hr => (hin q hq).trans (hin r hr).symm, ?_, fun _ => hop, ?_, fun q hq => ?_, hn, fun hni => ?_,
    fun q t hq => ?_, fun _ _ => .inl hcomm, hpanic⟩
  · rw [h0, count_eq_zero.mpr hop]; rfl
  · exact iff_of_true hcomm ⟨p, by rw [hself]; exact hc⟩
  · intro hf; rw [hcomm] at hf; cases hf
  · have e := hin q (by rcases hq with hq | hq <;> rw [hq] <;> trivial)
    rw [e, hself] at hq
    exact hcl hq
  · cases c with
    | install t => exact absurd hself (hni p t)
    | _ => exact hpin
  · have e := hin q (by rw [hq]; trivial)
    rw [e, hself] at hq
    subst hq
    exact hpin

theorem Inv.leave (h : Inv s) {n : Int} {ended : List Nat} (hni : ∀ q, q ≠ p → ¬ InCommit (s.pc q))
    (hn : n = Lib.count (· = Pc.op) (update s.pc p .out)) (he : n = 0 → s.lh = []) (hpin : Pinned s 0) :
    Inv { s with outstanding := n, ended, committing := false, pc := wakeup (update s.pc p .out) } := by
  have hin : ∀ q, ¬ InCommit (wakeup (update s.pc p .out) q) := by
    intro q
    rw [inCommit_wakeup]
    exact update_ind q id hni
  have hnot : ∀ q c, InCommit c → wakeup (update s.pc p .out) q ≠ c := fun q c hc e => hin q (e ▸ hc)
  have hcnt : Lib.count (· = Pc.op) (wakeup (update s.pc p .out)) = Lib.count (· = Pc.op) (update s.pc p .out) :=
    count_congr fun q => wakeup_eq_iff _ _ (by simp) (by simp)
  refine ⟨hn.trans (by rw [hcnt]), fun q _ hq => absurd hq (hin q), ?_, nofun, fun _ hq => he ?_, fun q hq => ?_, h.nodup,
    fun _ => hpin, fun q t hq => absurd hq (hnot q _ trivial), fun q hq => absurd hq (wakeup_ne_asleep _ q), h.noPanic⟩
  · simp only [Bool.false_eq_true, false_iff, not_exists]; exact hin
  · rw [hn, ← hcnt, count_eq_zero.mpr hq]; rfl
  · rcases hq with hq | hq <;> exact absurd hq (hnot q _ trivial)

theorem endOp_inv (h : Inv s) (hp : s.pc p = .op) : Inv (endOp s p) := by
  have hc := h.not_committing hp
  have hni := h.not_inCommit hc
  have hpin := h.pinned fun q t hq => hni q (by rw [hq]; trivial)
  have hcnt := fun c => count_update (· = Pc.op) s.pc p c
  have hcount := h.count
  simp only [hp, if_true] at hcnt
  simp only [endOp, hc, Bool.false_eq_true, if_false]
  split
  · -- the last operation: it commits
    rename_i hz
    have h0 : count (· = Pc.op) (update s.pc p .commit) = 0 := by
      have := hcnt .commit
      simp only [reduceCtorEq, if_false] at this
      omega
    refine inv_alone (p := p) (c := .commit) trivial rfl (fun q e => ⟨?_, hni q⟩) hz rfl h.nodup (by simp) hpin h.noPanic
    have := count_eq_zero.mp h0 q
    rwa [update_of_ne e] at this
  · rename_i hz
    refine h.leave (fun q _ => hni q) ?_ (fun h0 => absurd h0 hz) hpin
    have := hcnt .out
    simp only [reduceCtorEq, if_false] at this
    omega

theorem Inv.commitMove (h : Inv s) {c : Pc} {lh : List Nat} {pin : Nat → Nat} {cur : List (Nat × Nat)}
    {txns : List (List (Nat × Nat) × List Nat)} (hp : InCommit (s.pc p)) (hc : InCommit c) (hn : lh.Nodup)
    (hcl : c = .eraseHead ∨ c = .finish → lh = [])
    (hpin : ∀ b, pin b = if b ∈ lh.drop c.tail then 1 else 0) :
    Inv { setPc s p c with lh := lh, pin := pin, cur := cur, txns := txns } := by
  have hcomm : s.committing = true := h.comm.mpr ⟨p, hp⟩
  exact inv_alone hc rfl (fun q e => ⟨h.quiet hcomm q, fun hq => e (h.one q p hq hp)⟩) (h.zero_iff.mpr (h.quiet hcomm)) hcomm
    hn hcl hpin h.noPanic

theorem commitStep_inv {s' : St P} (h : Inv s) (hs : commitStep s p = some s') : Inv s' := by
  unfold commitStep at hs
  split at hs
  · rename_i hp
    cases hs
    have hni := h.not_installing (p := p) (by rw [hp]; trivial) (by simp [hp])
    have hpin := h.pinned hni
    refine h.commitMove (c := if s.lh = [] then .finish else .writeHead) (by rw [hp]; trivial) ?_ h.nodup ?_ ?_
    · split <;> trivial
    · split <;> simp_all
    · split <;> exact hpin
  · rename_i hp
    cases hs
    have hni := h.not_installing (p := p) (by rw [hp]; trivial) (by simp [hp])
    exact h.commitMove (by rw [hp]; trivial) trivial h.nodup (by simp) (h.pinned hni)
  · rename_i tail hp
    have hpin := h.pinTail p tail hp
    split at hs
    · rename_i b hb
      cases hs
      refine h.commitMove (by rw [hp]; trivial) trivial h.nodup (by simp) fun c => ?_
      obtain ⟨hlt, hbt⟩ := List.getElem?_eq_some_iff.mp hb
      have hdrop : s.lh.drop tail = b :: s.lh.drop (tail + 1) := by rw [List.drop_eq_getElem_cons hlt, hbt]
      have hnd : b ∉ s.lh.drop (tail + 1) := by
        have := h.nodup.sublist (List.drop_sublist tail s.lh)
        rw [hdrop] at this
        exact (List.nodup_cons.mp this).1
      have hc := hpin c
      rw [hdrop] at hc
      by_cases e : c = b
      · subst e; simp [hc, hnd, Pc.tail]
      · simp only [update_of_ne e, hc, List.mem_cons, e, false_or]; rfl
    · rename_i hb
      cases hs
      refine h.commitMove (by rw [hp]; trivial) trivial (by simp) (by simp) fun c => ?_
      have : s.lh.drop tail = [] := List.drop_eq_nil_iff.mpr (List.getElem?_eq_none_iff.mp hb)
      have hc := hpin c
      rw [this] at hc
      simpa using hc
  · rename_i hp
    cases hs
    have hlh := h.cleared p (Or.inl hp)
    have hni := h.not_installing (p := p) (by rw [hp]; trivial) (by simp [hp])
    exact h.commitMove (by rw [hp]; trivial) trivial h.nodup (fun _ => hlh) (h.pinned hni)
  · rename_i hp
    cases hs
    refine h.leave (fun q e hq => e (h.one q p hq (by rw [hp]; trivial))) ?_ (fun _ => h.cleared p (Or.inr hp))
      (h.pinned (h.not_installing (p := p) (by rw [hp]; trivial) (by simp [hp])))
    have hcnt := count_update (· = Pc.op) s.pc p .out
    have hcount := h.count
    simp only [hp, reduceCtorEq, if_false] at hcnt
    omega
  · cases hs

theorem next_inv {size : Nat} {a : Act P} {s' : St P} (h : Inv s) (hs : next size s a = some s') : Inv s' := by
  obtain ⟨-, hs⟩ := next_cases hs
  cases a with
  | call p =>
    obtain ⟨hp, rfl⟩ := hs
    exact h.move (by simp [hp, InCommit]) (by simp [InCommit]) (by simp)
  | begin p =>
    obtain ⟨hp, rfl⟩ := hs
    exact beginOp_inv h hp
  | kill p =>
    obtain ⟨hp, rfl⟩ := hs
    exact h.move (by simp [hp, InCommit]) (by simp [InCommit]) (by simp)
  | logWrite p b =>
    obtain ⟨hp, rfl⟩ := hs
    exact logWrite_inv h hp
  | endOp p =>
    obtain ⟨hp, rfl⟩ := hs
    exact endOp_inv h hp
  | commit p => exact commitStep_inv h hs

theorem inv {size : Nat} (h : (sys P size).Reach s) : Inv s :=
  Sys.invariant (I := Inv) (fun _ h => h ▸ init_inv) (fun _ _ _ _ hi hs => next_inv hi hs) h

end Inv

end Xv6.Log.Group
