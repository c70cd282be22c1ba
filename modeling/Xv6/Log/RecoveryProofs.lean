/-
  Xv6.Log.RecoveryProofs — the redo log is atomic across crashes (see `Xv6.Log.Recovery`).

  The invariant is what recovery would make of the disk (`logical`): a home block named
  in the on-disk header stands for its log block, any other home block for itself. Only the
  first `write_head` of a commit changes it.
-/

import Xv6.Log.Recovery

namespace Xv6.Log

open Lib
open Function (update update_self update_of_ne)

variable {g : Geom}

/-! ## The log area -/

theorem Geom.inLog_start (g : Geom) : g.InLog g.start := by
  have := g.pos
  exact ⟨Nat.le_refl _, by omega⟩

theorem Fits.nil (g : Geom) : Fits g [] := ⟨List.nodup_nil, by simp, by simp, by simp⟩

section

variable {lh : List Nat} (h : Fits g lh)
include h

theorem Fits.start_not_mem : g.start ∉ lh := fun hm => h.home _ hm g.inLog_start

theorem Fits.inLog_of_lt {t : Nat} (ht : t < lh.length) : g.InLog (g.start + t + 1) := by
  have h1 := h.room
  have h2 := g.pos
  refine ⟨by omega, ?_⟩
  omega

theorem Fits.log_not_mem {t : Nat} (ht : t < lh.length) : g.start + t + 1 ∉ lh :=
  fun hm => h.home _ hm (h.inLog_of_lt ht)

theorem Fits.length_le : lh.length ≤ LOGSIZE := by
  have := h.room; omega

theorem Fits.readHead_putHead (b : Block) : readHead (putHead lh b) = lh := by
  have hl := h.length_le
  simp only [LOGSIZE, MAXOPBLOCKS] at hl
  exact Xv6.readHead_putHead b (by omega) h.uint

end

/-! ## The writes each loop issues -/

theorem writeLog_addr {data : Nat → Block} {bs : List Nat} {t : Nat} {w : Write} (h : w ∈ writeLog g data bs t) :
    ∃ k < bs.length, w.addr = g.start + (t + k) + 1 := by
  induction bs generalizing t with
  | nil => simp [writeLog] at h
  | cons b bs ih =>
    rcases List.mem_cons.mp h with rfl | h
    · exact ⟨0, by simp, rfl⟩
    · obtain ⟨k, hk, e⟩ := ih h
      exact ⟨k + 1, by simpa using hk, by rw [e]; omega⟩

theorem writeLog_marks (data : Nat → Block) (bs : List Nat) (t : Nat) : marks (writeLog g data bs t) = [] := by
  induction bs generalizing t with
  | nil => rfl
  | cons b bs ih => simpa [writeLog, marks] using ih (t + 1)

theorem runAll_writeLog {data : Nat → Block} {bs : List Nat} {t k : Nat} {d : Disk} (hk : k < bs.length) :
    runAll d (writeLog g data bs t) (g.start + (t + k) + 1) = data bs[k] := by
  induction bs generalizing t k d with
  | nil => simp at hk
  | cons b bs ih =>
    cases k with
    | zero =>
      have hne : ∀ w ∈ writeLog g data bs (t + 1), w.addr ≠ g.start + (t + 0) + 1 := by
        intro w hw
        obtain ⟨j, -, e⟩ := writeLog_addr hw
        rw [e]; omega
      rw [writeLog, runAll, runAll_of_not_mem hne]
      exact update_self ..
    | succ k =>
      have := ih (t := t + 1) (k := k) (d := (⟨g.start + t + 1, data b, none⟩ : Write).run d) (by simpa using hk)
      rw [writeLog, runAll, show t + (k + 1) = t + 1 + k by omega, this]
      rfl

theorem installTrans_addr {bs : List Nat} {t : Nat} {d : Disk} {w : Write} (h : w ∈ installTrans g d bs t) :
    w.addr ∈ bs := by
  induction bs generalizing t d with
  | nil => simp [installTrans] at h
  | cons b bs ih =>
    rcases List.mem_cons.mp h with rfl | h
    · simp
    · exact List.mem_cons_of_mem _ (ih h)

theorem installTrans_marks (bs : List Nat) (t : Nat) (d : Disk) : marks (installTrans g d bs t) = [] := by
  induction bs generalizing t d with
  | nil => rfl
  | cons b bs ih => simpa [installTrans, marks] using ih (t + 1) _

/-- `install_trans` copies each block's log block to it: home blocks are outside the log
    area, so no copy disturbs a later one. -/
theorem runAll_installTrans {bs : List Nat} {t : Nat} {d : Disk} (hn : bs.Nodup)
    (hb : ∀ k < bs.length, g.start + (t + k) + 1 ∉ bs) (b : Nat) :
    runAll d (installTrans g d bs t) b = if b ∈ bs then d (g.start + (t + bs.idxOf b) + 1) else d b := by
  induction bs generalizing t d with
  | nil => rfl
  | cons c bs ih =>
    obtain ⟨hc, hn'⟩ := List.nodup_cons.mp hn
    have hlog : ∀ k < bs.length, g.start + (t + 1 + k) + 1 ∉ c :: bs := by
      intro k hk
      have := hb (k + 1) (by simpa using hk)
      rwa [show t + 1 + k = t + (k + 1) by omega]
    have hstep := ih (t := t + 1) (d := (⟨c, d (g.start + t + 1), none⟩ : Write).run d) hn'
      fun k hk hm => hlog k hk (List.mem_cons_of_mem _ hm)
    rw [installTrans, runAll, hstep]
    by_cases e : b = c
    · subst e
      simp [hc, Wr.run]
    · by_cases hm : b ∈ bs
      · have hne : g.start + (t + 1 + bs.idxOf b) + 1 ≠ c := fun h =>
          hlog _ (List.idxOf_lt_length_of_mem hm) (by rw [h]; simp)
        rw [if_pos hm, if_pos (List.mem_cons_of_mem _ hm), List.idxOf_cons_ne _ (Ne.symm e), Wr.run,
          update_of_ne hne]
        congr 1
        omega
      · simp [hm, e, Wr.run]

/-! ## The logical disk -/

/-- What recovery makes of block `b`: its log block if the on-disk header names it. -/
def logical (g : Geom) (d : Disk) : Disk := fun b =>
  if b ∈ readHead (d g.start) then d (g.start + (readHead (d g.start)).idxOf b + 1) else d b

/-- The on-disk header is one a commit wrote, and recovery would leave the home blocks as
    `h` has them. -/
structure Recoverable (g : Geom) (d h : Disk) : Prop where
  fits : Fits g (readHead (d g.start))
  home : ∀ b, ¬ g.InLog b → logical g d b = h b

theorem Recoverable.of_empty {d h : Disk} (hd : readHead (d g.start) = []) (hh : ∀ b, ¬ g.InLog b → d b = h b) :
    Recoverable g d h :=
  ⟨by rw [hd]; exact Fits.nil g, fun b hb => by simp [logical, hd, hh b hb]⟩

/-- Whatever is done to the blocks the header names, the logical disk stays. -/
theorem Recoverable.of_agree {d d' h : Disk} (hr : Recoverable g d h) (hd : ∀ b, b ∉ readHead (d g.start) → d' b = d b) :
    Recoverable g d' h := by
  have hf := hr.fits
  have hs : d' g.start = d g.start := hd _ hf.start_not_mem
  refine ⟨by rw [hs]; exact hf, fun b hb => ?_⟩
  rw [← hr.home b hb]
  simp only [logical, hs]
  split
  · rename_i hm
    exact hd _ (hf.log_not_mem (List.idxOf_lt_length_of_mem hm))
  · rename_i hm
    exact hd b hm

theorem Recoverable.same_head {d h : Disk} (hr : Recoverable g d h) {v : Block}
    (hv : readHead v = readHead (d g.start)) : Recoverable g (update d g.start v) h := by
  have hf := hr.fits
  have hs : readHead (update d g.start v g.start) = readHead (d g.start) := by rw [update_self, hv]
  refine ⟨by rw [hs]; exact hf, fun b hb => ?_⟩
  have hne : b ≠ g.start := fun e => hb (e ▸ g.inLog_start)
  have hl : ∀ t : Nat, update d g.start v (g.start + t + 1) = d (g.start + t + 1) := fun t =>
    update_of_ne (by omega) ..
  rw [← hr.home b hb]
  simp only [logical, hs, hl, update_of_ne hne]

theorem Recoverable.clear_head {d h : Disk} (hr : Recoverable g d h)
    (hi : ∀ b ∈ readHead (d g.start), d b = logical g d b) {v : Block} (hv : readHead v = []) :
    Recoverable g (update d g.start v) h := by
  apply Recoverable.of_empty
  · rw [update_self, hv]
  · intro b hb
    have hne : b ≠ g.start := fun e => hb (e ▸ g.inLog_start)
    rw [update_of_ne hne, ← hr.home b hb]
    by_cases hm : b ∈ readHead (d g.start)
    · exact hi b hm
    · simp [logical, hm]

/-! ## install_trans and the final write_head -/

/-- After `install_trans` the header and the logical disk are as before, and every block
    the header names is its logical contents. -/
theorem install_done {d h : Disk} (hr : Recoverable g d h) :
    let d' := runAll d (installTrans g d (readHead (d g.start)) 0)
    d' g.start = d g.start ∧ Recoverable g d' h ∧ ∀ b ∈ readHead (d g.start), d' b = logical g d' b := by
  have hf := hr.fits
  have hrun := runAll_installTrans (g := g) (t := 0) (d := d) hf.nodup (by simpa using fun k hk => hf.log_not_mem hk)
  have hag : ∀ b, b ∉ readHead (d g.start) → runAll d (installTrans g d (readHead (d g.start)) 0) b = d b := by
    intro b hb; rw [hrun]; simp [hb]
  have hs := hag _ hf.start_not_mem
  refine ⟨hs, hr.of_agree hag, fun b hb => ?_⟩
  have hlog := hag _ (hf.log_not_mem (List.idxOf_lt_length_of_mem hb))
  simp only [logical, hs, hb, if_true, hlog]
  rw [hrun]
  simp [hb]

theorem install_crash {d h d' : Disk} {ms : List Nat} (hr : Recoverable g d h)
    (hc : Crash tear d (installTrans g d (readHead (d g.start)) 0) ms d') : ms = [] ∧ Recoverable g d' h := by
  refine ⟨?_, hr.of_agree ?_⟩
  · have := hc.mem_marks
    rw [installTrans_marks] at this
    exact List.eq_nil_iff_forall_not_mem.mpr fun m hm => by simpa using this m hm
  · refine hc.inv (I := fun e => ∀ b, b ∉ readHead (d g.start) → e b = d b) (fun _ _ => rfl) ?_
    refine Keeps.of_forall (fun _ _ => rfl) fun e he w hw v b hb => ?_
    have hne : b ≠ w.addr := fun h => hb (h ▸ installTrans_addr hw)
    rw [update_of_ne hne]
    exact he b hb

theorem clear_crash {d h d' : Disk} {ms : List Nat} (hr : Recoverable g d h)
    (hi : ∀ b ∈ readHead (d g.start), d b = logical g d b) (hc : Crash tear d [writeHead g d [] none] ms d') :
    ms = [] ∧ Recoverable g d' h := by
  have hempty : readHead (putHead [] (d g.start)) = [] := (Fits.nil g).readHead_putHead _
  cases hc with
  | now => exact ⟨rfl, hr⟩
  | torn _ _ _ mid hm =>
    refine ⟨rfl, ?_⟩
    rcases readHead_tear (by simp) (by simp) hr.fits.length_le hm with e | e
    · exact hr.same_head e
    · exact hr.clear_head hi e
  | next h =>
    cases h with
    | now => exact ⟨rfl, hr.clear_head hi hempty⟩

/-! ## recover_from_log -/

theorem recover_crash {d h d' : Disk} {ms : List Nat} (hr : Recoverable g d h)
    (hc : Crash tear d (recoverFromLog g d) ms d') : ms = [] ∧ Recoverable g d' h := by
  obtain ⟨hs, hr', hi⟩ := install_done hr
  rcases hc.of_append with h1 | ⟨ns, rfl, h2⟩
  · exact install_crash hr h1
  · obtain ⟨rfl, hd⟩ := clear_crash hr' (by rw [hs]; exact hi) h2
    exact ⟨by rw [installTrans_marks]; rfl, hd⟩

theorem recover_done {d h : Disk} (hr : Recoverable g d h) :
    readHead (recovered g d g.start) = [] ∧ ∀ b, ¬ g.InLog b → recovered g d b = h b := by
  obtain ⟨hs, hr', hi⟩ := install_done hr
  have hempty : ∀ v, readHead (putHead [] v) = [] := (Fits.nil g).readHead_putHead
  have hrec := fun v => hr'.clear_head (by rw [hs]; exact hi) (hempty v)
  rw [recovered, recoverFromLog, runAll_append]
  refine ⟨?_, fun b hb => ?_⟩
  · simp only [runAll, Wr.run, writeHead, update_self]
    exact hempty _
  · rw [← (hrec _).home b hb]
    simp only [logical, update_self, hempty, List.not_mem_nil, if_false]
    rfl

theorem reboots_recoverable {d d' h : Disk} (hr : Recoverable g d h) (hb : Reboots g d d') : Recoverable g d' h := by
  induction hb with
  | refl => exact hr
  | crash hc _ ih => exact ih (recover_crash hr hc).2

/-! ## commit -/

/-- The disk after `write_log`: the header and the home blocks as before, the log blocks
    holding the transaction. -/
theorem log_done (d : Disk) (T : Txn g) :
    let d1 := runAll d (writeLog g T.data T.lh 0)
    d1 g.start = d g.start ∧ (∀ b, ¬ g.InLog b → d1 b = d b) ∧
      ∀ b ∈ T.lh, d1 (g.start + T.lh.idxOf b + 1) = T.data b := by
  refine ⟨runAll_of_not_mem fun w hw => ?_, fun b hb => runAll_of_not_mem fun w hw => ?_, fun b hb => ?_⟩
  · obtain ⟨k, -, e⟩ := writeLog_addr hw
    rw [e]; omega
  · obtain ⟨k, hk, e⟩ := writeLog_addr hw
    rw [e, Nat.zero_add]
    exact fun h => hb (h ▸ T.fits.inLog_of_lt hk)
  · have hlt := List.idxOf_lt_length_of_mem hb
    have : runAll d (writeLog g T.data T.lh 0) (g.start + (0 + T.lh.idxOf b) + 1) = _ := runAll_writeLog hlt
    rwa [Nat.zero_add, List.getElem_idxOf] at this

theorem log_crash {d d' : Disk} {ms : List Nat} {T : Txn g} (hd : readHead (d g.start) = [])
    (hc : Crash tear d (writeLog g T.data T.lh 0) ms d') : ms = [] ∧ Recoverable g d' d := by
  have hI : d' g.start = d g.start ∧ ∀ b, ¬ g.InLog b → d' b = d b := by
    refine hc.inv (I := fun e => e g.start = d g.start ∧ ∀ b, ¬ g.InLog b → e b = d b) ⟨rfl, fun _ _ => rfl⟩ ?_
    refine Keeps.of_forall ⟨rfl, fun _ _ => rfl⟩ fun e he w hw v => ?_
    obtain ⟨k, hk, ew⟩ := writeLog_addr hw
    rw [Nat.zero_add] at ew
    refine ⟨?_, fun b hb => ?_⟩
    · rw [update_of_ne (by rw [ew]; omega)]; exact he.1
    · rw [update_of_ne fun h => hb (by rw [h, ew]; exact T.fits.inLog_of_lt hk)]; exact he.2 b hb
  refine ⟨?_, Recoverable.of_empty (by rw [hI.1, hd]) hI.2⟩
  have := hc.mem_marks
  rw [writeLog_marks] at this
  exact List.eq_nil_iff_forall_not_mem.mpr fun m hm => by simpa using this m hm

/-- With the transaction in the log blocks, a header block that names it makes the
    logical disk the one after the transaction. -/
theorem head_recoverable {d d1 : Disk} {T : Txn g} {v : Block} (hh : ∀ b, ¬ g.InLog b → d1 b = d b)
    (hl : ∀ b ∈ T.lh, d1 (g.start + T.lh.idxOf b + 1) = T.data b) (hv : readHead v = T.lh) :
    Recoverable g (update d1 g.start v) (T.apply d) := by
  have hs : readHead (update d1 g.start v g.start) = T.lh := by rw [update_self, hv]
  refine ⟨by rw [hs]; exact T.fits, fun b hb => ?_⟩
  have hne : b ≠ g.start := fun e => hb (e ▸ g.inLog_start)
  simp only [logical, hs, Txn.apply]
  split
  · rename_i hm
    rw [update_of_ne (by omega)]
    exact hl b hm
  · rw [update_of_ne hne]
    exact hh b hb

/-- Once its first `write_head` is complete, what is left of `commit` is what
    `recover_from_log` would do. -/
theorem commit_eq {d : Disk} {i : Nat} {T : Txn g} (h : T.lh ≠ []) :
    let d1 := runAll d (writeLog g T.data T.lh 0)
    let head := writeHead g d1 T.lh (some i)
    commit g d i T = writeLog g T.data T.lh 0 ++ head :: recoverFromLog g (head.run d1) := by
  have hs : readHead ((writeHead g (runAll d (writeLog g T.data T.lh 0)) T.lh (some i)).run
      (runAll d (writeLog g T.data T.lh 0)) g.start) = T.lh := by
    simp only [Wr.run, writeHead, update_self]
    exact T.fits.readHead_putHead _
  simp only [commit, h, if_false, recoverFromLog, hs]

theorem commit_done {d : Disk} (i : Nat) (T : Txn g) (hd : readHead (d g.start) = []) :
    readHead (runAll d (commit g d i T) g.start) = [] ∧
      ∀ b, ¬ g.InLog b → runAll d (commit g d i T) b = T.apply d b := by
  by_cases h : T.lh = []
  · simp [commit, h, runAll, Txn.apply, hd]
  · obtain ⟨-, hh, hl⟩ := log_done d T
    rw [commit_eq h, runAll_append]
    exact recover_done (head_recoverable hh hl (T.fits.readHead_putHead _))

theorem commit_crash {d d' : Disk} {i : Nat} {T : Txn g} {ms : List Nat} (hd : readHead (d g.start) = [])
    (hc : Crash tear d (commit g d i T) ms d') :
    (ms = [] ∧ Recoverable g d' d) ∨ ((∀ m ∈ ms, m = i) ∧ Recoverable g d' (T.apply d)) := by
  by_cases h : T.lh = []
  · simp only [commit, h, if_true] at hc
    cases hc
    exact Or.inl ⟨rfl, Recoverable.of_empty hd fun _ _ => rfl⟩
  obtain ⟨hs, hh, hl⟩ := log_done d T
  have hd1 : Recoverable g (runAll d (writeLog g T.data T.lh 0)) d := Recoverable.of_empty (by rw [hs, hd]) hh
  rw [commit_eq h] at hc
  rcases hc.of_append with h1 | ⟨ns, hms, h2⟩
  · exact Or.inl (log_crash hd h1)
  rw [writeLog_marks, List.nil_append] at hms
  subst hms
  cases h2 with
  | now => exact Or.inl ⟨rfl, hd1⟩
  | torn _ _ _ mid hm =>
    -- the torn header is the old, empty one or the transaction's
    rcases readHead_tear T.fits.length_le T.fits.uint hd1.fits.length_le hm with e | e
    · exact Or.inl ⟨rfl, hd1.same_head e⟩
    · exact Or.inr ⟨by simp, head_recoverable hh hl e⟩
  | next hc =>
    obtain ⟨rfl, hr⟩ := recover_crash (head_recoverable hh hl (T.fits.readHead_putHead _)) hc
    exact Or.inr ⟨by simp [writeHead], hr⟩

theorem commit_marks {d : Disk} {i : Nat} {T : Txn g} : ∀ m ∈ marks (commit g d i T), m = i := by
  intro m hm
  by_cases h : T.lh = []
  · simp [commit, h, marks] at hm
  · have hlog := writeLog_marks (g := g) T.data T.lh 0
    have hinst := fun bs e => installTrans_marks (g := g) bs 0 e
    simp only [marks] at hlog hinst
    rw [commit_eq h] at hm
    simpa [marks, writeHead, recoverFromLog, hlog, hinst] using hm

/-! ## Runs -/

theorem applyAll_congr (Ts : List (Txn g)) {d e : Disk} (h : ∀ b, ¬ g.InLog b → d b = e b) :
    ∀ b, ¬ g.InLog b → applyAll d Ts b = applyAll e Ts b := by
  induction Ts generalizing d e with
  | nil => exact h
  | cons T Ts ih => exact ih fun b hb => by simp only [Txn.apply, h b hb]

theorem commitAll_crash {Ts : List (Txn g)} {d d' : Disk} {i : Nat} {ms : List Nat} (hd : readHead (d g.start) = [])
    (hc : Crash tear d (commitAll g d i Ts) ms d') :
    ∃ k ≤ Ts.length, (∀ m ∈ ms, m < i + k) ∧ Recoverable g d' (applyAll d (Ts.take k)) := by
  induction Ts generalizing d i ms with
  | nil =>
    cases hc
    exact ⟨0, Nat.le_refl _, by simp, Recoverable.of_empty hd fun _ _ => rfl⟩
  | cons T Ts ih =>
    rcases hc.of_append with h1 | ⟨ns, rfl, h2⟩
    · rcases commit_crash hd h1 with ⟨rfl, hr⟩ | ⟨hm, hr⟩
      · exact ⟨0, Nat.zero_le _, by simp, hr⟩
      · exact ⟨1, by simp, fun m h => by rw [hm m h]; omega, by simpa [applyAll] using hr⟩
    · obtain ⟨hd', hhome⟩ := commit_done i T hd
      obtain ⟨k, hk, hm, hr⟩ := ih hd' h2
      refine ⟨k + 1, by simpa using hk, fun m h => ?_, hr.fits, fun b hb => (hr.home b hb).trans ?_⟩
      · rcases List.mem_append.mp h with h | h
        · rw [commit_marks m h]; omega
        · have := hm m h; omega
      · -- the home blocks the remaining transactions start from are those `T` leaves
        exact applyAll_congr _ hhome b hb

/-- Crash atomicity. Transactions `Ts` are committed from an empty log; the machine stops with the writes `ms` of
    first headers complete; recovery is interrupted any number of times, then completes. Every home block then has
    its contents after the first `k` transactions, for one `k` that covers those whose first `write_head` was
    complete. -/
theorem crash_atomic (g : Geom) (d : Disk) (hd : readHead (d g.start) = []) (Ts : List (Txn g)) {ms : List Nat}
    {d1 d2 : Disk} (hc : Crash tear d (commitAll g d 0 Ts) ms d1) (hb : Reboots g d1 d2) :
    ∃ k ≤ Ts.length, (∀ m ∈ ms, m < k) ∧ ∀ b, ¬ g.InLog b → recovered g d2 b = applyAll d (Ts.take k) b := by
  obtain ⟨k, hk, hm, hr⟩ := commitAll_crash hd hc
  exact ⟨k, hk, by simpa using hm, (recover_done (reboots_recoverable hr hb)).2⟩

def mkfsGeom : Geom := ⟨2, mkfsNlog, by decide⟩

/-- One transaction that fills block 40 with 7s. -/
def fill40 : Txn mkfsGeom where
  lh := [40]
  data := fun _ _ => 7
  fits := ⟨by decide, by decide, by decide, by decide⟩

/-- `fill40` on a zeroed disk, stopped after its first `write_head`, then a recovery
    stopped with the second sector of block 40 not yet installed. -/
theorem crash_atomic_fill40 :
    ∃ d1 d2, Crash tear (fun _ _ => 0) (commitAll mkfsGeom (fun _ _ => 0) 0 [fill40]) [0] d1 ∧
      Reboots mkfsGeom d1 d2 ∧ ∃ k ≤ 1, (∀ m ∈ [0], m < k) ∧
        ∀ b, ¬ mkfsGeom.InLog b → recovered mkfsGeom d2 b = applyAll (fun _ _ => 0) ([fill40].take k) b := by
  have hw : commitAll mkfsGeom (fun _ _ => 0) 0 [fill40] =
      commit mkfsGeom (fun _ _ => 0) 0 fill40 := List.append_nil _
  have hc : ∃ d1, Crash tear (fun _ _ => 0) (commitAll mkfsGeom (fun _ _ => 0) 0 [fill40]) [0] d1 := by
    rw [hw, commit_eq (by decide)]
    exact ⟨_, .next (.next (.now _ _))⟩
  obtain ⟨d1, hc⟩ := hc
  have hb : ∃ d2, Reboots mkfsGeom d1 d2 := by
    rcases hr : recoverFromLog mkfsGeom d1 with _ | ⟨w, ws⟩
    · exact ⟨_, .refl _⟩
    · exact ⟨_, .crash (by rw [hr]; exact .torn _ _ _ _ ⟨false, rfl⟩) (.refl _)⟩
  obtain ⟨d2, hb⟩ := hb
  exact ⟨d1, d2, hc, hb, crash_atomic mkfsGeom _ (by decide) [fill40] hc hb⟩

end Xv6.Log
