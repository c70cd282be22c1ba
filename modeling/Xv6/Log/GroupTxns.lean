/-
  Xv6.Log.GroupTxns — what a committed transaction holds, and what group commit promises
  (see `Xv6.Log.Group`).
-/

import Xv6.Log.GroupProofs

namespace Xv6.Log.Group

open Lib
open Function (update update_self update_of_ne)

variable {P : Type} [DecidableEq P]

/-! ## The history -/

structure Hist (s : St P) : Prop where
  ids : ∀ p q, s.pc p = .op → s.pc q = .op → s.opId p = s.opId q → p = q
  live : ∀ p, s.pc p = .op → s.opId p < s.nextOp ∧ s.opId p ∉ s.ended
  endedLt : ∀ o ∈ s.ended, o < s.nextOp
  logged : s.logs = s.txns.flatMap (·.1) ++ s.cur
  curOps : ∀ w ∈ s.cur, w.1 ∈ s.ended ∨ ∃ p, s.pc p = .op ∧ s.opId p = w.1
  curBlocks : (∀ p t, s.pc p ≠ .install t) → ∀ b, b ∈ s.lh ↔ ∃ w ∈ s.cur, w.2 = b
  installing : ∀ p t, s.pc p = .install t → s.cur = []
  txnOps : ∀ T ∈ s.txns, ∀ w ∈ T.1, w.1 ∈ s.ended
  txnBlocks : ∀ T ∈ s.txns, ∀ b, b ∈ T.2 ↔ ∃ w ∈ T.1, w.2 = b
  txnCur : ∀ T ∈ s.txns, ∀ w ∈ T.1, ∀ v ∈ s.cur, w.1 ≠ v.1
  txnPair : s.txns.Pairwise fun T U => ∀ w ∈ T.1, ∀ v ∈ U.1, w.1 ≠ v.1

section Hist

variable {s : St P} {p : P}

omit [DecidableEq P] in
theorem init_hist : Hist (init P) := by
  constructor <;> simp [init]

omit [DecidableEq P] in
theorem Hist.move (h : Hist s) {pc : P → Pc} {lh : List Nat} {pin : Nat → Nat} {c : Bool}
    (hop : ∀ q, pc q = .op ↔ s.pc q = .op) (hi : ∀ q t, pc q = .install t → s.cur = [])
    (hb : (∀ q t, pc q ≠ .install t) → ∀ b, b ∈ lh ↔ ∃ w ∈ s.cur, w.2 = b) :
    Hist { s with pc := pc, lh := lh, pin := pin, committing := c } where
  ids q r hq hr e := h.ids q r ((hop q).mp hq) ((hop r).mp hr) e
  live q hq := h.live q ((hop q).mp hq)
  endedLt := h.endedLt
  logged := h.logged
  curOps w hw := (h.curOps w hw).imp_right fun ⟨q, hq, e⟩ => ⟨q, (hop q).mpr hq, e⟩
  curBlocks := hb
  installing := hi
  txnOps := h.txnOps
  txnBlocks := h.txnBlocks
  txnCur := h.txnCur
  txnPair := h.txnPair

theorem setPc_op_iff {c : Pc} (h0 : s.pc p ≠ .op) (h1 : c ≠ .op) (q : P) : (setPc s p c).pc q = .op ↔ s.pc q = .op := by
  rw [setPc_pc]
  exact update_ind q (iff_of_false h1 h0) fun _ _ => Iff.rfl

theorem Hist.move_one (h : Hist s) {c : Pc} {lh : List Nat} {pin : Nat → Nat} {d : Bool} (h0 : s.pc p ≠ .op) (h1 : c ≠ .op)
    (hi : ∀ t, c = .install t → s.cur = []) (hb : (∀ q t, (setPc s p c).pc q ≠ .install t) → ∀ b, b ∈ lh ↔ ∃ w ∈ s.cur, w.2 = b) :
    Hist { setPc s p c with lh := lh, pin := pin, committing := d } := by
  refine h.move (setPc_op_iff h0 h1) (fun q t => ?_) hb
  rw [setPc_pc]
  exact update_ind q (hi t) fun q _ => h.installing q t

theorem setPc_not_install {c : Pc} (h0 : ∀ t, s.pc p ≠ .install t) (hn : ∀ q t, (setPc s p c).pc q ≠ .install t) (q : P)
    (t : Nat) : s.pc q ≠ .install t := by
  by_cases e : q = p
  · subst e; exact h0 t
  · have := hn q t; rwa [setPc_ne s c e] at this

theorem beginOp_hist (h : Hist s) (hp : s.pc p = .begin) : Hist (beginOp s p) := by
  unfold beginOp
  split
  · exact h.move_one (by simp [hp]) (by simp) (by simp) fun hn => h.curBlocks (setPc_not_install (by simp [hp]) hn)
  · have hop : ∀ q, q ≠ p → (setPc s p .op).pc q = s.pc q := fun q e => setPc_ne s _ e
    have hid : ∀ q, q ≠ p → update s.opId p s.nextOp q = s.opId q := fun q e => update_of_ne e ..
    have hne : ∀ q, s.pc q = .op → q ≠ p := by rintro q hq rfl; rw [hp] at hq; cases hq
    refine { h with ids := ?_, live := ?_, endedLt := ?_, curOps := ?_, curBlocks := ?_, installing := ?_ }
    · have hnew : ∀ q, q ≠ p → (setPc s p .op).pc q = .op → s.nextOp ≠ s.opId q := fun q e hq =>
        (Nat.ne_of_lt (h.live q (hop q e ▸ hq)).1).symm
      intro q r hq hr he
      by_cases e1 : q = p <;> by_cases e2 : r = p
      · rw [e1, e2]
      · simp only [e1, update_self, hid r e2] at he
        exact absurd he (hnew r e2 hr)
      · simp only [e2, update_self, hid q e1] at he
        exact absurd he.symm (hnew q e1 hq)
      · simp only [hid q e1, hid r e2] at he
        exact h.ids q r (hop q e1 ▸ hq) (hop r e2 ▸ hr) he
    · intro q hq
      by_cases e : q = p
      · subst e
        simp only [update_self]
        exact ⟨Nat.lt_succ_self _, fun hm => Nat.lt_irrefl _ (h.endedLt _ hm)⟩
      · have := h.live q (hop q e ▸ hq)
        simp only [hid q e]
        exact ⟨by omega, this.2⟩
    · intro o ho; have := h.endedLt o ho; exact Nat.lt_succ_of_lt this
    · intro w hw
      rcases h.curOps w hw with hm | ⟨q, hq, e⟩
      · exact Or.inl hm
      · exact Or.inr ⟨q, (hop q (hne q hq)).trans hq, (hid q (hne q hq)).trans e⟩
    · exact fun hn => h.curBlocks (setPc_not_install (by simp [hp]) hn)
    · intro q t
      rw [setPc_pc]
      exact update_ind q nofun fun q _ => h.installing q t

omit [DecidableEq P] in
theorem logWrite_hist [Fintype P] {size b : Nat} (hi : Inv s) (h : Hist s) (hp : s.pc p = .op) :
    Hist (logWrite size s p b) := by
  unfold logWrite
  have hpos := hi.pos_of_op hp
  split
  · exact { h with }
  rw [if_neg (by omega)]
  have hcl := hi.not_inCommit (hi.not_committing hp)
  have hni : ∀ q t, s.pc q ≠ .install t := fun q t hq => hcl q (by rw [hq]; trivial)
  have hblk := h.curBlocks hni
  have hcur : ∀ {lh : List Nat} {pin : Nat → Nat}, (∀ c, c ∈ lh ↔ c ∈ s.lh ∨ c = b) →
      Hist { s with logs := s.logs ++ [(s.opId p, b)], cur := s.cur ++ [(s.opId p, b)], lh := lh, pin := pin } := by
    intro lh pin hlh
    refine { h with logged := ?_, curOps := ?_, curBlocks := ?_, installing := ?_, txnCur := ?_ }
    · show s.logs ++ _ = _ ++ (s.cur ++ _)
      rw [h.logged, List.append_assoc]
    · intro w hw
      rcases List.mem_append.mp hw with hw | hw
      · exact h.curOps w hw
      · simp at hw; subst hw; exact Or.inr ⟨p, hp, rfl⟩
    · intro _ c
      rw [hlh, hblk]
      simp only [List.mem_append, List.mem_singleton]
      constructor
      · rintro (⟨w, hw, e⟩ | rfl)
        · exact ⟨w, Or.inl hw, e⟩
        · exact ⟨_, Or.inr rfl, rfl⟩
      · rintro ⟨w, hw | rfl, e⟩
        · exact Or.inl ⟨w, hw, e⟩
        · exact Or.inr e.symm
    · exact fun q t hq => absurd hq (hni q t)
    · intro T hT w hw v hv
      rcases List.mem_append.mp hv with hv | hv
      · exact h.txnCur T hT w hw v hv
      · -- the writer's operation is still open, those of `T` have ended
        simp at hv; subst hv
        intro e
        have := h.txnOps T hT w hw
        rw [e] at this
        exact (h.live p hp).2 this
  dsimp only
  split
  · rename_i hb
    exact hcur fun c => ⟨Or.inl, fun hc => hc.elim id fun e => e ▸ hb⟩
  · exact hcur fun c => by simp

theorem endOp_hist [Fintype P] (hi : Inv s) (h : Hist s) (hp : s.pc p = .op) : Hist (endOp s p) := by
  have hcl := hi.not_inCommit (hi.not_committing hp)
  have hni : ∀ q t, s.pc q ≠ .install t := fun q t hq => hcl q (by rw [hq]; trivial)
  have key : ∀ {pc : P → Pc} {c : Bool} {n : Int}, (∀ q, pc q = .op ↔ q ≠ p ∧ s.pc q = .op) → (∀ q t, pc q ≠ .install t) →
      Hist { s with pc := pc, committing := c, outstanding := n, ended := s.opId p :: s.ended } := by
    intro pc c n hop hn
    refine { h with ids := ?_, live := ?_, endedLt := ?_, curOps := ?_, curBlocks := ?_, installing := ?_, txnOps := ?_ }
    · exact fun q r hq hr e => h.ids q r ((hop q).mp hq).2 ((hop r).mp hr).2 e
    · intro q hq
      obtain ⟨hne, hq⟩ := (hop q).mp hq
      refine ⟨(h.live q hq).1, fun hm => ?_⟩
      rcases List.mem_cons.mp hm with e | hm
      · exact hne (h.ids q p hq hp e)
      · exact (h.live q hq).2 hm
    · intro o ho
      rcases List.mem_cons.mp ho with rfl | ho
      · exact (h.live p hp).1
      · exact h.endedLt o ho
    · intro w hw
      rcases h.curOps w hw with hm | ⟨q, hq, e⟩
      · exact Or.inl (List.mem_cons_of_mem _ hm)
      · by_cases eq : q = p
        · subst eq; exact Or.inl (by simp [e])
        · exact Or.inr ⟨q, (hop q).mpr ⟨eq, hq⟩, e⟩
    · exact fun _ => h.curBlocks hni
    · exact fun q t hq => absurd hq (hn q t)
    · exact fun T hT w hw => List.mem_cons_of_mem _ (h.txnOps T hT w hw)
  simp only [endOp, hi.not_committing hp, Bool.false_eq_true, if_false]
  split
  · refine key (fun q => ?_) fun q t => ?_
    · rw [setPc_pc]
      exact update_ind q (by simp) fun q e => by simp [e]
    · rw [setPc_pc]
      exact update_ind q (by simp) fun q _ => hni q t
  · refine key (fun q => ?_) fun q t => ?_
    · rw [wakeup_eq_iff _ _ (by simp) (by simp)]
      exact update_ind q (by simp) fun q e => by simp [e]
    · rw [Ne, wakeup_eq_iff _ _ (by simp) (by simp)]
      exact update_ind q (by simp) fun q _ => hni q t

theorem commitStep_hist [Fintype P] {s' : St P} (hi : Inv s) (h : Hist s) (hs : commitStep s p = some s') : Hist s' := by
  unfold commitStep at hs
  split at hs
  · rename_i hp
    cases hs
    refine h.move_one (by simp [hp]) ?_ ?_ fun hn => h.curBlocks (setPc_not_install (by simp [hp]) hn)
    · split <;> simp
    · intro t ht; split at ht <;> cases ht
  · -- the header is written: the transaction is what was logged, by operations now ended
    rename_i hp
    cases hs
    have hcomm : s.committing = true := hi.comm.mpr ⟨p, by rw [hp]; trivial⟩
    have hni := hi.not_installing (p := p) (by rw [hp]; trivial) (by simp [hp])
    have hend : ∀ w ∈ s.cur, w.1 ∈ s.ended := by
      intro w hw
      rcases h.curOps w hw with hm | ⟨q, hq, -⟩
      · exact hm
      · exact absurd hq (hi.quiet hcomm q)
    have hop := setPc_op_iff (s := s) (p := p) (c := .install 0) (by simp [hp]) (by simp)
    have hcur : ∀ w ∈ ([] : List (Nat × Nat)), w.1 ∈ s.ended ∨ ∃ q, (setPc s p (.install 0)).pc q = .op ∧ s.opId q = w.1 := by
      simp
    refine ⟨?_, ?_, h.endedLt, ?_, hcur, ?_, fun _ _ _ => rfl, ?_, ?_, by simp, ?_⟩
    · exact fun q r hq hr e => h.ids q r ((hop q).mp hq) ((hop r).mp hr) e
    · exact fun q hq => h.live q ((hop q).mp hq)
    · show s.logs = (s.txns ++ [(s.cur, s.lh)]).flatMap (·.1) ++ []
      rw [h.logged, List.flatMap_append, List.flatMap_singleton, List.append_nil]
    · exact fun hn => absurd (setPc_self s p (.install 0)) (hn p 0)
    · intro T hT
      rcases List.mem_append.mp hT with hT | hT
      · exact h.txnOps T hT
      · simp at hT; subst hT; exact hend
    · intro T hT
      rcases List.mem_append.mp hT with hT | hT
      · exact h.txnBlocks T hT
      · simp at hT; subst hT; exact h.curBlocks hni
    · refine List.pairwise_append.mpr ⟨h.txnPair, by simp, fun T hT U hU => ?_⟩
      simp at hU; subst hU
      exact h.txnCur T hT
  · rename_i tail hp
    have hcur := h.installing p tail hp
    split at hs
    · cases hs
      exact h.move_one (by simp [hp]) (by simp) (fun _ _ => hcur) fun hn =>
        absurd (setPc_self s p (.install (tail + 1))) (hn p (tail + 1))
    · cases hs
      exact h.move_one (by simp [hp]) (by simp) (by simp) fun _ => by simp [hcur]
  · rename_i hp
    cases hs
    exact h.move_one (by simp [hp]) (by simp) (by simp) fun hn => h.curBlocks (setPc_not_install (by simp [hp]) hn)
  · rename_i hp
    cases hs
    have hni := hi.not_installing (p := p) (by rw [hp]; trivial) (by simp [hp])
    refine h.move (fun q => ?_) (fun q t => ?_) fun _ => h.curBlocks hni
    · rw [wakeup_eq_iff _ _ (by simp) (by simp)]
      exact update_ind q (by simp [hp]) fun _ _ => Iff.rfl
    · rw [wakeup_eq_iff _ _ (by simp) (by simp)]
      exact update_ind q nofun fun q _ hq => absurd hq (hni q t)
  · cases hs

theorem next_hist [Fintype P] {size : Nat} {a : Act P} {s' : St P} (hi : Inv s) (h : Hist s)
    (hs : next size s a = some s') : Hist s' := by
  obtain ⟨-, hs⟩ := next_cases hs
  cases a with
  | call p =>
    obtain ⟨hp, rfl⟩ := hs
    exact h.move_one (by simp [hp]) (by simp) (by simp) fun hn => h.curBlocks (setPc_not_install (by simp [hp]) hn)
  | begin p =>
    obtain ⟨hp, rfl⟩ := hs
    exact beginOp_hist h hp
  | kill p =>
    obtain ⟨hp, rfl⟩ := hs
    exact h.move_one (by simp [hp]) (by simp) (by simp) fun hn => h.curBlocks (setPc_not_install (by simp [hp]) hn)
  | logWrite p b =>
    obtain ⟨hp, rfl⟩ := hs
    exact logWrite_hist hi h hp
  | endOp p =>
    obtain ⟨hp, rfl⟩ := hs
    exact endOp_hist hi h hp
  | commit p => exact commitStep_hist hi h hs

theorem hist [Fintype P] {size : Nat} (h : (sys P size).Reach s) : Hist s :=
  Sys.invariant (I := Hist) (fun _ h => h ▸ init_hist) (fun _ _ _ hr hh hs => next_hist (inv hr) hh hs) h

end Hist

/-! ## Group commit -/

/-- What group commit promises of a state, part by part. -/
structure GroupCommit (size : Nat) (s : St P) : Prop where
  /-- While a commit runs no process is in an operation, and no step lets one in or logs. -/
  quiet : s.committing = true → s.outstanding = 0 ∧ (∀ p, s.pc p ≠ .op) ∧
    ∀ a s', next size s a = some s' → (∀ p, s'.pc p ≠ .op) ∧ ∀ p b, a ≠ .logWrite p b
  /-- A commit holds only writes of operations that have ended, and its header names
      exactly the blocks they wrote. -/
  committed : ∀ T ∈ s.txns, (∀ w ∈ T.1, w.1 ∈ s.ended) ∧ ∀ b, b ∈ T.2 ↔ ∃ w ∈ T.1, w.2 = b
  /-- What has been logged is in a transaction or in the one to come, which is empty when no
      operation and no commit runs. -/
  logged : s.logs = s.txns.flatMap (·.1) ++ s.cur ∧ (s.outstanding = 0 → s.committing = false → s.cur = [])
  /-- All that an operation has logged is in one transaction. -/
  whole : ∀ T ∈ s.txns, ∀ w ∈ T.1, ∀ v ∈ s.logs, v.1 = w.1 → v ∈ T.1
  /-- No operation has writes in two transactions. -/
  oneTxn : s.txns.Pairwise (fun T U => ∀ w ∈ T.1, ∀ v ∈ U.1, w.1 ≠ v.1) ∧ ∀ T ∈ s.txns, ∀ w ∈ T.1, ∀ v ∈ s.cur, w.1 ≠ v.1
  empty : s.outstanding = 0 → s.committing = false → s.lh = []
  noPanic : s.panicked ≠ some .committing ∧ s.panicked ≠ some .outside
  nodup : s.lh.Nodup
  /-- Outside `install_trans` each block in the header is pinned once. -/
  pins : (∀ p t, s.pc p ≠ .install t) → ∀ b ∈ s.lh, s.pin b = 1
  /-- In it, after `t` iterations, the first `t` blocks are not pinned and the others are
      pinned once. -/
  installing : ∀ p t, s.pc p = .install t → ∀ k b, s.lh[k]? = some b → s.pin b = if k < t then 0 else 1
  /-- A process asleep in `begin_op` could not proceed. -/
  sleepers : ∀ p, s.pc p = .asleep → Full s

theorem no_op_while_committing [Fintype P] {size : Nat} {s s' : St P} {a : Act P} (h : Inv s) (hc : s.committing = true)
    (hs : next size s a = some s') : (∀ p, s'.pc p ≠ .op) ∧ ∀ p b, a ≠ .logWrite p b := by
  have hq := h.quiet hc
  have hset : ∀ p c, c ≠ .op → ∀ q, (setPc s p c).pc q ≠ .op := by
    intro p c hc q
    rw [Ne, setPc_op_iff (hq p) hc]
    exact hq q
  obtain ⟨-, hs⟩ := next_cases hs
  cases a with
  | call p =>
    obtain ⟨-, rfl⟩ := hs
    exact ⟨hset p _ (by simp), by simp⟩
  | begin p =>
    obtain ⟨-, rfl⟩ := hs
    have hf : Full s := Or.inl hc
    rw [beginOp, if_pos hf]
    exact ⟨hset p _ (by simp), by simp⟩
  | kill p =>
    obtain ⟨-, rfl⟩ := hs
    exact ⟨hset p _ (by simp), by simp⟩
  | logWrite p b => exact absurd hs.1 (hq p)
  | endOp p => exact absurd hs.1 (hq p)
  | commit p =>
    refine ⟨fun q => ?_, by simp⟩
    simp only [commitStep] at hs
    split at hs
    · cases hs; exact hset p _ (by split <;> simp) q
    · cases hs; exact hset p _ (by simp) q
    · split at hs <;> (cases hs; exact hset p _ (by simp) q)
    · cases hs; exact hset p _ (by simp) q
    · cases hs
      rw [Ne, wakeup_eq_iff _ _ (by simp) (by simp)]
      exact hset p .out (by simp) q
    · cases hs

omit [DecidableEq P] in
theorem pin_installing [Fintype P] {s : St P} {p : P} {t k b : Nat} (h : Inv s) (hp : s.pc p = .install t)
    (hk : s.lh[k]? = some b) : s.pin b = if k < t then 0 else 1 := by
  obtain ⟨hlt, rfl⟩ := List.getElem?_eq_some_iff.mp hk
  -- in a list without repeats, entry `k` is among those from `t` on iff `t ≤ k`
  have hmem : s.lh[k] ∈ s.lh.drop t ↔ t ≤ k := by
    rw [List.mem_drop_iff_getElem]
    constructor
    · rintro ⟨i, hi, e⟩
      have := (h.nodup.getElem_inj_iff).mp e
      omega
    · intro ht
      exact ⟨k - t, by omega, by congr 1; omega⟩
  rw [h.pinTail p t hp]
  by_cases ht : t ≤ k
  · rw [if_pos (hmem.mpr ht), if_neg (by omega)]
  · rw [if_neg fun hm => ht (hmem.mp hm), if_pos (by omega)]

omit [DecidableEq P] in
theorem Hist.whole {s : St P} (h : Hist s) {T : List (Nat × Nat) × List Nat} (hT : T ∈ s.txns) {w v : Nat × Nat}
    (hw : w ∈ T.1) (hv : v ∈ s.logs) (e : v.1 = w.1) : v ∈ T.1 := by
  rw [h.logged, List.mem_append, List.mem_flatMap] at hv
  rcases hv with ⟨U, hU, hv⟩ | hv
  · -- another transaction would share the operation with `T`
    have : Std.Symm fun T U : List (Nat × Nat) × List Nat => ∀ w ∈ T.1, ∀ v ∈ U.1, w.1 ≠ v.1 :=
      ⟨fun _ _ h v hv w hw e => h w hw v hv e.symm⟩
    by_contra hn
    exact h.txnPair.forall hT hU (fun hTU => hn (hTU ▸ hv)) w hw v hv e.symm
  · exact absurd e.symm (h.txnCur T hT w hw v hv)

omit [DecidableEq P] in
theorem Hist.flushed [Fintype P] {s : St P} (hi : Inv s) (h : Hist s) (h0 : s.outstanding = 0)
    (hc : s.committing = false) : s.cur = [] := by
  have hni : ∀ q t, s.pc q ≠ .install t := fun q t hq => hi.not_inCommit hc q (by rw [hq]; trivial)
  refine List.eq_nil_iff_forall_not_mem.mpr fun w hw => ?_
  have := (h.curBlocks hni w.2).mpr ⟨w, hw, rfl⟩
  rw [hi.empty hc (hi.zero_iff.mp h0)] at this
  cases this

/-- Group commit, in every state any interleaving reaches. -/
theorem group_commit [Fintype P] {size : Nat} {s : St P} (h : (sys P size).Reach s) : GroupCommit size s := by
  have hi := inv h
  have hh := hist h
  refine ⟨fun hc => ⟨hi.zero_iff.mpr (hi.quiet hc), hi.quiet hc, fun a s' hs => no_op_while_committing hi hc hs⟩,
    fun T hT => ⟨hh.txnOps T hT, hh.txnBlocks T hT⟩, ⟨hh.logged, hh.flushed hi⟩, fun _ hT _ hw _ hv => hh.whole hT hw hv,
    ⟨hh.txnPair, hh.txnCur⟩, ?_, hi.noPanic, hi.nodup, ?_,
    fun p t hp k b hk => pin_installing hi hp hk, hi.asleep⟩
  · exact fun h0 hc => hi.empty hc (hi.zero_iff.mp h0)
  · intro hn b hb
    rw [hi.pinned hn b, List.drop_zero, if_pos hb]

/-- `p` logs block 5 in an operation of its own and has installed it. -/
def installOne (p : Fin 1) : List (Act (Fin 1)) :=
  [.call p, .begin p, .logWrite p 5, .endOp p, .commit p, .commit p, .commit p]

theorem group_commit_install_one :
    ∃ s : St (Fin 1), Sys.runAll (next mkfsNlog) (fun _ _ => true) (init (Fin 1)) (installOne 0) = some s ∧
      GroupCommit mkfsNlog s := by
  have hrun : ∃ s, Sys.runAll (next mkfsNlog) (fun _ _ => true) (init (Fin 1)) (installOne 0) = some s := ⟨_, rfl⟩
  obtain ⟨s, hs⟩ := hrun
  exact ⟨s, hs, group_commit (Sys.reach_of_runAll_true rfl hs)⟩

/-- While `install_trans` runs, a block it is done with is in `log.lh` and not pinned. -/
theorem unpinned_in_install : ∃ s : St (Fin 1), (sys (Fin 1) mkfsNlog).Reach s ∧ ∃ b ∈ s.lh, s.pin b ≠ 1 := by
  have hrun : ∃ s, Sys.runAll (next mkfsNlog) (fun _ _ => true) (init (Fin 1)) (installOne 0) = some s ∧
      5 ∈ s.lh ∧ s.pin 5 ≠ 1 := ⟨_, rfl, by decide, by decide⟩
  obtain ⟨s, hs, hm, hp⟩ := hrun
  exact ⟨s, Sys.reach_of_runAll_true rfl hs, 5, hm, hp⟩

end Xv6.Log.Group
