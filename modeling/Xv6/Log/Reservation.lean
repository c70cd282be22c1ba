/-
  Xv6.Log.Reservation — the space `begin_op` reserves and the space `log_write` finds (see
  `Xv6.Log.Group`).

  `begin_op` lets an operation in while MAXOPBLOCKS blocks for each open operation fit in
  LOGSIZE. `log_write` panics once `log.size - 1` blocks are in the header, also for a
  block already there. mkfs makes `log.size` = LOGSIZE, header included, so the area is one
  block short of what `begin_op` promises.
-/

import Xv6.Log.GroupTxns
import Mathlib.Algebra.BigOperators.Ring.Finset
import Mathlib.Algebra.Order.BigOperators.Group.Finset

namespace Xv6.Log.Group

open Lib

variable {P : Type} [DecidableEq P]

/-- The distinct blocks logged since the last commit. -/
def logged (s : St P) : Finset Nat := (s.cur.map (·.2)).toFinset

/-- The distinct blocks operation `o` has logged. -/
def opBlocks (s : St P) (o : Nat) : Finset Nat := ((s.cur.filter (·.1 = o)).map (·.2)).toFinset

/-- No operation logs more than `n` distinct blocks. -/
def OpsWithin (n : Nat) (s : St P) : Act P → Prop
  | .logWrite p b => (insert b (opBlocks s (s.opId p))).card ≤ n
  | _ => True

instance (n : Nat) (s : St P) (a : Act P) : Decidable (OpsWithin n s a) := by
  cases a <;> unfold OpsWithin <;> infer_instance

/-- No block is logged once the transaction has `size - 1` distinct blocks. -/
def Room (size : Nat) (s : St P) : Act P → Prop
  | .logWrite _ _ => (logged s).card < size - 1
  | _ => True

instance (size : Nat) (s : St P) (a : Act P) : Decidable (Room size s a) := by
  cases a <;> unfold Room <;> infer_instance

/-! ## When `log_write` panics -/

omit [DecidableEq P] in
theorem mem_opBlocks {s : St P} {o b : Nat} : b ∈ opBlocks s o ↔ (o, b) ∈ s.cur := by
  simp only [opBlocks, List.mem_toFinset, List.mem_map, List.mem_filter, decide_eq_true_eq]
  constructor
  · rintro ⟨⟨x, y⟩, ⟨hw, rfl⟩, rfl⟩; exact hw
  · exact fun h => ⟨(o, b), ⟨h, rfl⟩, rfl⟩

omit [DecidableEq P] in
/-- With an operation open, the header is the distinct blocks logged since the last commit. -/
theorem logged_card [Fintype P] {s : St P} {p : P} (hi : Inv s) (hh : Hist s) (hp : s.pc p = .op) :
    (logged s).card = s.lh.length := by
  have hcl := hi.not_inCommit (hi.not_committing hp)
  have hb := hh.curBlocks fun q t hq => hcl q (by rw [hq]; trivial)
  have heq : logged s = s.lh.toFinset := by
    ext b
    simp only [logged, List.mem_toFinset, List.mem_map, hb]
  rw [heq, List.toFinset_card_of_nodup hi.nodup]

theorem overflow_iff [Fintype P] {s s' : St P} {p : P} {b : Nat} (h : (sys P mkfsNlog).Reach s)
    (hs : next mkfsNlog s (.logWrite p b) = some s') :
    s'.panicked = some .tooBig ↔ ¬ Room mkfsNlog s (.logWrite p b) := by
  obtain ⟨hn, hp, rfl⟩ := next_cases hs
  have hi := inv h
  have hcard := logged_card hi (hist h) hp
  have hpos := hi.pos_of_op hp
  simp only [Room, hcard, logWrite, mkfsNlog, LOGSIZE, MAXOPBLOCKS]
  split
  · simp only [true_iff]
    omega
  · rw [if_neg (by omega)]
    have hroom : ¬ ¬ s.lh.length < 10 * 3 - 1 := by omega
    simp only [hroom, iff_false]
    split <;> simp [hn]

theorem panicked_none_of_next {size : Nat} {s s' : St P} {a : Act P} (hs : next size s a = some s')
    (ha : ∀ p b, a ≠ .logWrite p b) : s'.panicked ≠ some .tooBig := by
  obtain ⟨hn, hs⟩ := next_cases hs
  cases a with
  | call p =>
    obtain ⟨-, rfl⟩ := hs
    simp [setPc, hn]
  | begin p =>
    obtain ⟨-, rfl⟩ := hs
    simp only [beginOp]
    split <;> simp [setPc, hn]
  | kill p =>
    obtain ⟨-, rfl⟩ := hs
    simp [setPc, hn]
  | logWrite p b => exact absurd rfl (ha p b)
  | endOp p =>
    obtain ⟨-, rfl⟩ := hs
    simp only [endOp]
    split
    · simp
    · split <;> simp [setPc, hn]
  | commit p =>
    simp only [commitStep] at hs
    split at hs
    · cases hs; simp [setPc, hn]
    · cases hs; simp [setPc, hn]
    · split at hs <;> (cases hs; simp [setPc, hn])
    · cases hs; simp [setPc, hn]
    · cases hs; simp [hn]
    · cases hs

theorem no_overflow_of_room [Fintype P] {s : St P} (h : ((sys P mkfsNlog).restrict (Room mkfsNlog)).Reach s) :
    s.panicked ≠ some .tooBig := by
  cases h with
  | init h0 =>
    cases h0
    simp [init]
  | @step s _ a hr hs =>
    by_cases ha : ∃ p b, a = .logWrite p b
    · obtain ⟨p, b, rfl⟩ := ha
      intro hp
      exact (overflow_iff hr.mono hs.1).mp hp hs.2
    · exact panicked_none_of_next hs.1 fun p b e => ha ⟨p, b, e⟩

/-- With the log area mkfs makes: no run whose every `log_write` finds fewer than
    `log.size - 1` distinct blocks logged since the last commit reaches the panic, and a
    `log_write` that finds as many panics. -/
theorem no_overflow [Fintype P] :
    (∀ s : St P, ((sys P mkfsNlog).restrict (Room mkfsNlog)).Reach s → s.panicked ≠ some .tooBig) ∧
    ∀ (s s' : St P) (p : P) (b : Nat), (sys P mkfsNlog).Reach s → next mkfsNlog s (.logWrite p b) = some s' →
      ¬ Room mkfsNlog s (.logWrite p b) → s'.panicked = some .tooBig :=
  ⟨fun _ h => no_overflow_of_room h, fun _ _ _ _ h hs hn => (overflow_iff h hs).mpr hn⟩

theorem no_overflow_one_block : ∃ s : St (Fin 1), ((sys (Fin 1) mkfsNlog).restrict (Room mkfsNlog)).Reach s ∧
    s.lh = [100] ∧ s.panicked ≠ some .tooBig := by
  have hrun : ∃ s, Sys.runAll (next mkfsNlog) (fun s a => decide (Room mkfsNlog s a)) (init (Fin 1))
      [.call 0, .begin 0, .logWrite 0 100] = some s ∧ s.lh = [100] := ⟨_, rfl, rfl⟩
  obtain ⟨s, hs, hl⟩ := hrun
  have hr : ((sys (Fin 1) mkfsNlog).restrict (Room mkfsNlog)).Reach s :=
    Sys.reach_of_runAll (fun _ _ => of_decide_eq_true) (.init rfl) hs
  exact ⟨s, hr, hl, no_overflow.1 s hr⟩

/-- Three operations open, each logging ten blocks of its own. -/
def threeFullOps : List (Act (Fin 3)) :=
  [.call 0, .call 1, .call 2, .begin 0, .begin 1, .begin 2] ++
    (List.range 30).map fun i => .logWrite ⟨i / 10 % 3, Nat.mod_lt _ (by decide)⟩ (100 + i)

/-- Operations within MAXOPBLOCKS reach the panic: the thirtieth block does not fit. -/
theorem three_full_ops_overflow : ∃ s : St (Fin 3),
    ((sys (Fin 3) mkfsNlog).restrict (OpsWithin MAXOPBLOCKS)).Reach s ∧ s.panicked = some .tooBig := by
  have hrun : ∃ s, Sys.runAll (next mkfsNlog) (fun s a => decide (OpsWithin MAXOPBLOCKS s a)) (init (Fin 3)) threeFullOps =
      some s ∧ s.panicked = some .tooBig := ⟨_, rfl, by decide⟩
  obtain ⟨s, hs, hp⟩ := hrun
  exact ⟨s, Sys.reach_of_runAll (fun _ _ => of_decide_eq_true) (.init rfl) hs, hp⟩

/-! ## Operations one block smaller -/

/-- What the operation of `p` may still log, of MAXOPBLOCKS - 1 blocks. -/
def slack (s : St P) (p : P) : Nat := if s.pc p = .op then MAXOPBLOCKS - 1 - (opBlocks s (s.opId p)).card else 0

structure Reserved [Fintype P] (s : St P) : Prop where
  within : ∀ p, s.pc p = .op → (opBlocks s (s.opId p)).card ≤ MAXOPBLOCKS - 1
  fits : (∃ p, s.pc p = .op) → s.lh.length + ∑ p, slack s p ≤ LOGSIZE - 2

section Reserved

variable [Fintype P] {s s' : St P} {p : P}

omit [DecidableEq P] in
theorem Reserved.move (h : Reserved s) (hop : ∀ q, s'.pc q = .op → s.pc q = .op) (hc : s'.cur = s.cur) (ho : s'.opId = s.opId)
    (hl : s'.lh = s.lh) : Reserved s' := by
  have hb : ∀ o, opBlocks s' o = opBlocks s o := fun o => by simp only [opBlocks, hc]
  refine ⟨fun q hq => by rw [hb, ho]; exact h.within q (hop q hq), fun ⟨q, hq⟩ => ?_⟩
  have hle : ∑ q, slack s' q ≤ ∑ q, slack s q := by
    refine Finset.sum_le_sum fun r _ => ?_
    simp only [slack, hb, ho]
    split
    · rename_i hr; rw [if_pos (hop r hr)]
    · exact Nat.zero_le _
  have := h.fits ⟨q, hop q hq⟩
  rw [hl]
  omega

section

variable (hi : Inv s) (hh : Hist s) (h : Reserved s)
include hi hh h

theorem beginOp_reserved (hp : s.pc p = .begin) : Reserved (beginOp s p) := by
  unfold beginOp
  split
  · refine h.move (fun q hq => ?_) rfl rfl rfl
    rwa [setPc_op_iff (by simp [hp]) (by simp)] at hq
  rename_i hf
  -- the new operation's number is fresh, so it has logged nothing
  have hnew : opBlocks s s.nextOp = ∅ := by
    refine Finset.eq_empty_of_forall_notMem fun b hb => ?_
    rcases hh.curOps _ (mem_opBlocks.mp hb) with he | ⟨q, hq, e⟩
    · exact Nat.lt_irrefl _ (hh.endedLt _ he)
    · have := (hh.live q hq).1
      simp only at e
      omega
  have hb : ∀ q, q ≠ p → Function.update s.opId p s.nextOp q = s.opId q := fun q e => Function.update_of_ne e ..
  have hpc : ∀ q, q ≠ p → (setPc s p .op).pc q = s.pc q := fun q e => setPc_ne s _ e
  refine ⟨fun q hq => ?_, fun _ => ?_⟩
  · by_cases e : q = p
    · subst e
      show (opBlocks s (Function.update s.opId q s.nextOp q)).card ≤ _
      rw [Function.update_self, hnew]
      exact Nat.zero_le _
    · show (opBlocks s (Function.update s.opId p s.nextOp q)).card ≤ _
      rw [hb q e]
      exact h.within q (hpc q e ▸ hq)
  · -- every open operation may log at most nine blocks more
    have hle : ∑ q, slack (beginOp s p) q ≤ ∑ q, (MAXOPBLOCKS - 1) * (if (setPc s p .op).pc q = .op then 1 else 0) := by
      refine Finset.sum_le_sum fun q _ => ?_
      rw [beginOp, if_neg hf]
      simp only [slack]
      split <;> simp
    rw [← Finset.mul_sum, ← Finset.card_filter] at hle
    have hcnt : Lib.count (· = Pc.op) (setPc s p .op).pc = Lib.count (· = Pc.op) s.pc + 1 := by
      have := count_update (· = Pc.op) s.pc p .op
      simp only [hp, reduceCtorEq, if_false, if_true] at this
      exact this
    have hout := hi.count
    rw [beginOp, if_neg hf] at hle
    simp only [Full, not_or, Bool.not_eq_true] at hf
    have hroom := hf.2
    simp only [Lib.count] at hcnt hout
    rw [hcnt] at hle
    by_cases h0 : ∀ q, s.pc q ≠ .op
    · have hlh := hi.empty hf.1 h0
      have hz := hi.zero_iff.mpr h0
      show s.lh.length + _ ≤ _
      simp only [hlh, List.length_nil, MAXOPBLOCKS, LOGSIZE] at hle hroom ⊢
      omega
    · have hz : s.outstanding ≠ 0 := fun e => h0 (hi.zero_iff.mp e)
      show s.lh.length + _ ≤ _
      simp only [MAXOPBLOCKS, LOGSIZE] at hle hroom ⊢
      omega

theorem logWrite_reserved {size b : Nat} (hp : s.pc p = .op)
    (hw : (insert b (opBlocks s (s.opId p))).card ≤ MAXOPBLOCKS - 1) : Reserved (logWrite size s p b) := by
  have hpos := hi.pos_of_op hp
  have hcl := hi.not_inCommit (hi.not_committing hp)
  have hblk := hh.curBlocks fun q t hq => hcl q (by rw [hq]; trivial)
  unfold logWrite
  split
  · exact h.move (fun _ hq => hq) rfl rfl rfl
  rw [if_neg (by omega)]
  -- `t` stands for the state after, with or without absorption
  have key : ∀ t : St P, t.pc = s.pc → t.opId = s.opId → t.cur = s.cur ++ [(s.opId p, b)] →
      (t.lh.length ≤ s.lh.length + if b ∈ opBlocks s (s.opId p) then 0 else 1) → Reserved t := by
    intro t hpc ho hc hl
    have hown : opBlocks t (s.opId p) = insert b (opBlocks s (s.opId p)) := by
      ext c
      rw [Finset.mem_insert, mem_opBlocks, mem_opBlocks, hc, List.mem_append, List.mem_singleton, Prod.mk.injEq]
      tauto
    have hoth : ∀ q, s.pc q = .op → q ≠ p → opBlocks t (s.opId q) = opBlocks s (s.opId q) := by
      intro q hq e
      have hne : s.opId q ≠ s.opId p := fun he => e (hh.ids q p hq hp he)
      ext c
      rw [mem_opBlocks, mem_opBlocks, hc, List.mem_append, List.mem_singleton, Prod.mk.injEq]
      tauto
    refine ⟨fun q hq => ?_, fun _ => ?_⟩
    · rw [hpc] at hq
      rw [ho]
      by_cases e : q = p
      · subst e; rw [hown]; exact hw
      · rw [hoth q hq e]; exact h.within q hq
    · have hsl : ∀ q, q ≠ p → slack t q = slack s q := by
        intro q e
        simp only [slack, hpc, ho]
        split
        · rename_i hq; rw [hoth q hq e]
        · rfl
      have hsum := sum_of_ne p hsl
      have hfit := h.fits ⟨p, hp⟩
      have ht : slack t p = MAXOPBLOCKS - 1 - (insert b (opBlocks s (s.opId p))).card := by
        simp only [slack, hpc, ho, hp, if_true, hown]
      have hs : slack s p = MAXOPBLOCKS - 1 - (opBlocks s (s.opId p)).card := by simp only [slack, hp, if_true]
      by_cases hb : b ∈ opBlocks s (s.opId p)
      · rw [Finset.insert_eq_of_mem hb] at ht
        rw [if_pos hb] at hl
        omega
      · rw [Finset.card_insert_of_notMem hb] at ht hw
        rw [if_neg hb] at hl
        omega
  dsimp only
  split
  · exact key _ rfl rfl rfl (by split <;> simp)
  · rename_i hb
    have : b ∉ opBlocks s (s.opId p) := fun hm => hb ((hblk b).mpr ⟨_, mem_opBlocks.mp hm, rfl⟩)
    exact key _ rfl rfl rfl (by simp [this])

theorem next_reserved {size : Nat} {a : Act P} (hs : next size s a = some s')
    (hw : OpsWithin (MAXOPBLOCKS - 1) s a) : Reserved s' := by
  have hnone : (∀ q, s'.pc q ≠ .op) → Reserved s' := fun hn =>
    ⟨fun q hq => absurd hq (hn q), fun ⟨q, hq⟩ => absurd hq (hn q)⟩
  have hs0 := hs
  obtain ⟨-, hs⟩ := next_cases hs
  cases a with
  | call p =>
    obtain ⟨hp, rfl⟩ := hs
    exact h.move (fun q => (setPc_op_iff (by simp [hp]) (by simp) q).mp) rfl rfl rfl
  | begin p =>
    obtain ⟨hp, rfl⟩ := hs
    exact beginOp_reserved hi hh h hp
  | kill p =>
    obtain ⟨hp, rfl⟩ := hs
    exact h.move (fun q => (setPc_op_iff (by simp [hp]) (by simp) q).mp) rfl rfl rfl
  | logWrite p b =>
    obtain ⟨hp, rfl⟩ := hs
    exact logWrite_reserved hi hh h hp hw
  | endOp p =>
    obtain ⟨hp, rfl⟩ := hs
    simp only [endOp, hi.not_committing hp, Bool.false_eq_true, if_false]
    split
    · refine h.move (fun q hq => ?_) rfl rfl rfl
      by_cases e : q = p
      · rw [e]; exact hp
      · simpa [setPc, e] using hq
    · refine h.move (fun q hq => ?_) rfl rfl rfl
      rw [wakeup_eq_iff _ _ (by simp) (by simp)] at hq
      by_cases e : q = p
      · rw [e]; exact hp
      · simpa [e] using hq
  | commit p =>
    have hin : InCommit (s.pc p) := by
      simp only [commitStep] at hs
      split at hs <;> first | (rename_i hp; rw [hp]; trivial) | cases hs
    exact hnone (no_op_while_committing hi (hi.comm.mpr ⟨p, hin⟩) hs0).1

end

end Reserved

/-- Operations of at most MAXOPBLOCKS - 1 distinct blocks fit in the log area mkfs makes,
    whatever their number and interleaving. -/
theorem nine_blocks_fit [Fintype P] {s : St P}
    (h : ((sys P mkfsNlog).restrict (OpsWithin (MAXOPBLOCKS - 1))).Reach s) : s.panicked ≠ some .tooBig := by
  have hres : ∀ t, ((sys P mkfsNlog).restrict (OpsWithin (MAXOPBLOCKS - 1))).Reach t → Reserved t := by
    intro t ht
    refine Sys.invariant (I := Reserved) (fun t h0 => ?_) (fun t a t' hr hi hs => ?_) ht
    · cases h0
      exact ⟨by simp [init], by simp [init]⟩
    · exact next_reserved (inv hr.mono) (hist hr.mono) hi hs.1 hs.2
  cases h with
  | init h0 => cases h0; simp [init]
  | @step t _ a hr hs =>
    by_cases ha : ∃ p b, a = .logWrite p b
    · obtain ⟨p, b, rfl⟩ := ha
      rw [Ne, overflow_iff hr.mono hs.1, not_not]
      obtain ⟨-, hp, -⟩ := next_cases hs.1
      have hfit := (hres t hr).fits ⟨p, hp⟩
      simp only [Room, logged_card (inv hr.mono) (hist hr.mono) hp, mkfsNlog, LOGSIZE, MAXOPBLOCKS] at hfit ⊢
      omega
    · exact panicked_none_of_next hs.1 fun p b e => ha ⟨p, b, e⟩

theorem nine_blocks_fit_one_block : ∃ s : St (Fin 1), ((sys (Fin 1) mkfsNlog).restrict (OpsWithin 9)).Reach s ∧
    s.lh = [100] ∧ s.panicked ≠ some .tooBig := by
  have hrun : ∃ s, Sys.runAll (next mkfsNlog) (fun s a => decide (OpsWithin 9 s a)) (init (Fin 1))
      [.call 0, .begin 0, .logWrite 0 100] = some s ∧ s.lh = [100] := ⟨_, rfl, rfl⟩
  obtain ⟨s, hs, hl⟩ := hrun
  have hr : ((sys (Fin 1) mkfsNlog).restrict (OpsWithin 9)).Reach s :=
    Sys.reach_of_runAll (fun _ _ => of_decide_eq_true) (.init rfl) hs
  exact ⟨s, hr, hl, nine_blocks_fit hr⟩

end Xv6.Log.Group
