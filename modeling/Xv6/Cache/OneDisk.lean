/-
  Xv6.Cache.OneDisk — cache, log and disk together behave as one disk (see
  `Xv6.Cache.Model`).
-/

import Xv6.Cache.Commit


namespace Xv6.Cache

open Log Lib

variable {P B : Type} [DecidableEq P] [DecidableEq B] {L : Geom}

section Steps

variable {s s' : St P B} {p q : P} {i : B}

/-! ## What a buffer in use keeps -/

/-- Buffer `i` goes on standing for its block, and stays valid. -/
def Stays (s s' : St P B) (i : B) : Prop :=
  (s'.buf i).dev = (s.buf i).dev ∧ (s'.buf i).blockno = (s.buf i).blockno ∧ ((s.buf i).valid = true → (s'.buf i).valid = true)

omit [DecidableEq P] [DecidableEq B] in
theorem Stays.refl (s : St P B) (i : B) : Stays s s i := ⟨rfl, rfl, id⟩

omit [DecidableEq B] in
theorem Stays.setCpc (h : Stays s s' i) (p : P) (c : CPc B) : Stays s (s'.setCpc p c) i := h

omit [DecidableEq P] in
theorem stays_upd {x : Buf P} {j : B} (hb : s'.buf = Function.update s.buf j x) (hx : x.dev = (s.buf j).dev ∧
    x.blockno = (s.buf j).blockno ∧ ((s.buf j).valid = true → x.valid = true)) : Stays s s' i := by
  unfold Stays
  rw [hb]
  by_cases e : i = j
  · subst e; rw [Function.update_self]; exact hx
  · rw [Function.update_of_ne e]; exact ⟨rfl, rfl, id⟩

theorem stays_bget [Fintype B] {b : Nat} {j : B} (hr : 0 < (s.buf i).refcnt) (hs : s.bget p b j = some s') : Stays s s' i := by
  unfold St.bget at hs
  split at hs
  · split at hs <;> cases hs
    exact stays_upd (x := { s.buf j with refcnt := (s.buf j).refcnt + 1 }) rfl ⟨rfl, rfl, id⟩
  · split at hs <;> cases hs
    have e : i ≠ j := by
      rintro rfl
      omega
    simp [Stays, St.setArg, Function.update_of_ne e]

theorem stays_ioStep (hs : s.ioStep p = some s') : Stays s s' i := by
  unfold St.ioStep at hs
  split at hs
  · cases hs
  · split at hs <;> cases hs
    exact stays_upd (x := { s.buf _ with lock := some p }) rfl ⟨rfl, rfl, id⟩
  · cases hs
    refine stays_upd rfl ?_
    split <;> simp
  · cases hs
    exact stays_upd (x := { s.buf _ with refcnt := (s.buf _).refcnt - 1 }) rfl ⟨rfl, rfl, id⟩

theorem stays_release {j : B} : Stays s (s.release p j) i :=
  stays_upd (x := { s.buf j with lock := none }) rfl ⟨rfl, rfl, id⟩

omit [DecidableEq P] in
theorem stays_bwrite {j : B} {data : Block} : Stays s (s.bwrite j data) i :=
  stays_upd (x := { s.buf j with data }) rfl ⟨rfl, rfl, id⟩

omit [DecidableEq P] in
theorem stays_unpin {j : B} : Stays s (s.unpin j) i :=
  stays_upd (x := { s.buf j with refcnt := (s.buf j).refcnt - 1 }) rfl ⟨rfl, rfl, id⟩

omit [DecidableEq B] in
theorem stays_log {t : St P B} {size : Nat} {k : Group.Act P} (h : Stays s t i) (hs : t.log size k = some s') : Stays s s' i := by
  obtain ⟨g, -, rfl⟩ := Option.map_eq_some_iff.mp hs
  exact h

theorem next_stays [Fintype B] {a : Act P B} (hr : 0 < (s.buf i).refcnt) (hs : next L s a = some s') : Stays s s' i := by
  unfold next at hs
  split at hs
  · cases hs
  · cases a with
    | call p =>
      dsimp only at hs
      split at hs
      · exact stays_log (.refl s i) hs
      · cases hs
    | begin p => exact stays_log (.refl s i) hs
    | kill p => exact stays_log (.refl s i) hs
    | endOp p =>
      dsimp only at hs
      split at hs
      · obtain ⟨g, hg, rfl⟩ := Option.map_eq_some_iff.mp hs
        split <;> exact .refl s i
      · cases hs
    | bread p b j =>
      dsimp only at hs
      split at hs
      · exact stays_bget hr hs
      · cases hs
    | modify p j data =>
      dsimp only at hs
      split at hs <;> cases hs
      exact stays_upd (x := { s.buf j with data, dirty := true }) rfl ⟨rfl, rfl, id⟩
    | logWrite p j =>
      dsimp only at hs
      split at hs
      · obtain ⟨g, hg, rfl⟩ := Option.map_eq_some_iff.mp hs
        split
        · exact stays_upd rfl ⟨rfl, rfl, id⟩
        · exact .refl s i
      · cases hs
    | brelse p j =>
      dsimp only at hs
      split at hs <;> cases hs
      exact stays_release
    | io p => exact stays_ioStep hs
    | commit p j =>
      dsimp only at hs
      split at hs
      · unfold Cache.commitStep at hs
        repeat' split at hs
        all_goals first
          | (cases hs; done)
          | (cases hs; exact stays_release.setCpc _ _)
          | (cases hs; exact stays_bwrite.setCpc _ _)
          | (obtain ⟨u, hu, rfl⟩ := Option.map_eq_some_iff.mp hs
             refine Stays.setCpc ?_ _ _
             first
               | exact stays_bget hr hu
               | exact stays_log (.refl s i) hu
               | exact stays_log stays_bwrite hu
               | exact stays_log stays_unpin hu)
      · cases hs

/-! ## One disk -/

variable [Fintype P]

/-- Block `b` is logged, and `install_trans` has not unpinned it yet. -/
def Pending (s : St P B) (b : Nat) : Prop := ∃ t, s.g.lh[t]? = some b ∧ ∀ p u, s.g.pc p = .install u → u ≤ t

omit [DecidableEq P] [DecidableEq B] in
theorem pin_of_pending (hG : Group.Inv s.g) {b : Nat} (h : Pending s b) : 0 < s.g.pin b := by
  obtain ⟨t, ht, hu⟩ := h
  have hmem : ∀ u, u ≤ t → b ∈ s.g.lh.drop u := by
    intro u hle
    refine List.mem_iff_getElem?.mpr ⟨t - u, ?_⟩
    rw [List.getElem?_drop, Nat.add_sub_cancel' hle, ht]
  by_cases hi : ∃ p u, s.g.pc p = .install u
  · obtain ⟨p, u, hp⟩ := hi
    rw [hG.pinTail p u hp b, if_pos (hmem u (hu p u hp))]
    decide
  · rw [hG.pinned (fun p u hp => hi ⟨p, u, hp⟩) b, if_pos (hmem 0 (Nat.zero_le t))]
    decide

/-- What the step `a` from `s` to `s'` shows of the one disk that cache, log and disk make up. -/
structure OneDisk (L : Geom) (s : St P B) (a : Act P B) (s' : St P B) : Prop where
  /-- A `bread` of a block outside the log area, when it returns, has a buffer of that block with
      what was last logged for it. -/
  bread : ∀ p i, a = .io p → s.io p = .read i → ¬ L.InLog (s.arg p) →
    s'.Caches i (s.arg p) ∧ (s'.buf i).valid = true ∧ (s'.buf i).data = s.last (s.arg p)
  /-- A logged block that is not yet installed is not evicted. -/
  kept : ∀ b, Pending s b → ∃ i, s.Caches i b ∧ (s.buf i).valid = true ∧ s'.Caches i b ∧ (s'.buf i).valid = true
  /-- `install_trans` overwrites a cached block with the contents it has. -/
  install : ∀ p i t l d, a = .commit p i → s.cpc p = .insCopy t l d → (s'.buf d).data = (s.buf d).data
  /-- When `commit` has returned, the disk has what the cache had when it was called. -/
  commit : ∀ p, s'.g.pc p = .finish → ∀ i b, (s'.snap i).dev = ROOTDEV → (s'.snap i).blockno = b →
    (s'.snap i).valid = true → ¬ L.InLog b → s'.disk b = (s'.snap i).data

theorem Inv.bread_data (h : Inv L s) (hp : s.io p = .read i) (hL : ¬ L.InLog (s.arg p)) (hs : s.ioStep p = some s') :
    s'.Caches i (s.arg p) ∧ (s'.buf i).valid = true ∧ (s'.buf i).data = s.last (s.arg p) := by
  have hgot := h.asked p i (.inr hp)
  have hst := stays_ioStep (i := i) hs
  have hd : (s.buf i).dirty = false := by
    by_contra hd
    obtain ⟨-, q, hq, -, hr⟩ := h.core.dirty i (by simpa using hd)
    have hl := h.core.reading p i hp
    obtain rfl : p = q := by simpa [hl] using hq
    exact hr hp
  refine ⟨⟨hst.1.trans hgot.1.1, hst.2.1.trans hgot.1.2⟩, ?_⟩
  simp only [St.ioStep, hp, Option.some.injEq] at hs
  subst hs
  simp only [setIo_buf, setBuf_buf, Function.update_self]
  split
  · exact ⟨‹_›, h.core.data i _ hgot.1 ‹_› hL hd⟩
  · rename_i hv
    refine ⟨rfl, ?_⟩
    rw [show (s.buf i).blockno = s.arg p from hgot.1.2]
    exact h.core.home _ hL (h.core.unpinned_of_not_valid hgot.1 (by simpa using hv))

omit [DecidableEq P] in
theorem Inv.disk_of_finish (h : Inv L s) (hG : Group.Inv s.g) (hp : s.g.pc p = .finish) {b : Nat} (hL : ¬ L.InLog b) :
    s.disk b = s.last b := by
  refine h.core.home b hL ?_
  have hin : Group.InCommit (s.g.pc p) := by rw [hp]; trivial
  rw [hG.pinned (fun q t => hG.not_installing hin (by simp [hp]) q t) b, hG.cleared p (.inr hp)]
  simp

theorem one_disk [Fintype B] {a : Act P B} (h : (sys P B L).Reach s) (hs : next L s a = some s') : OneDisk L s a s' := by
  have hI := inv h
  have hG := group_inv h
  have hr' : (sys P B L).Reach s' := .step h hs
  refine ⟨fun p i ha hp hL => ?_, fun b hb => ?_, fun p i t l d ha hc => ?_, fun p hp i b hdev hb hv hL => ?_⟩
  · subst ha
    unfold next at hs
    split at hs
    · cases hs
    · exact hI.bread_data hp hL hs
  · have hpin := pin_of_pending hG hb
    obtain ⟨i, hi, hv⟩ := hI.core.pinned b hpin
    obtain ⟨h1, h2, h3⟩ := next_stays (hI.core.refcnt_pos_of_pin hi hpin) hs
    exact ⟨i, hi, hv, ⟨h1.trans hi.1, h2.trans hi.2⟩, h3 hv⟩
  · subst ha
    unfold next at hs
    split at hs
    · cases hs
    · dsimp only at hs
      split at hs
      · rename_i hio
        obtain ⟨hl, hd⟩ := hI.same_data hG hio hc
        simp only [commitStep, hc, Option.some.injEq] at hs
        subst hs
        simp [St.setCpc, St.bwrite, hl, hd]
      · cases hs
  · subst hb
    rw [(inv hr').disk_of_finish (group_inv hr') hp hL]
    exact ((inv hr').snap p (by rw [hp]; trivial) i hdev hv hL).symm

end Steps

/-- One process and two buffers as `binit` leaves them, over a disk of zeros. -/
def idle : St (Fin 1) (Fin 2) where
  g := Group.init (Fin 1)
  disk := fun _ _ => 0
  buf := fun _ => ⟨0, 0, false, 0, fun _ => 0, none, false⟩
  io := fun _ => .none
  arg := fun _ => 0
  cpc := fun _ => .idle
  last := fun _ _ => 0
  snap := fun _ => ⟨0, 0, false, 0, fun _ => 0, none, false⟩

theorem idle_init : Init idle where
  g := rfl
  io _ := rfl
  cpc _ := rfl
  buf _ := ⟨rfl, rfl, rfl⟩
  uniq _ _ _ h := by simp [St.Caches, idle, ROOTDEV] at h
  valid _ _ h := by simp [St.Caches, idle, ROOTDEV] at h
  last := rfl

def small : Geom := ⟨2, 30, by decide⟩

/-- Block 100 is read to buffer `i`, filled with sevens, logged and released. -/
def fill (p : Fin 1) (i : Fin 2) : List (Act (Fin 1) (Fin 2)) :=
  [.call p, .begin p, .bread p 100 i, .io p, .io p, .modify p i fun _ => 7, .logWrite p i, .brelse p i, .io p]

/-- `end_op`, with buffer `j` for the blocks of the log area, up to the last `bwrite` of the header. -/
def commitAll (p : Fin 1) (i j : Fin 2) : List (Act (Fin 1) (Fin 2)) :=
  [.endOp p,
    -- `write_log`
    .commit p j, .io p, .io p, .commit p i, .io p, .io p, .commit p i, .commit p i, .io p, .commit p j, .io p, .commit p i,
    -- `write_head`
    .commit p j, .io p, .io p, .commit p j, .commit p j, .io p,
    -- `install_trans`
    .commit p j, .io p, .io p, .commit p i, .io p, .io p, .commit p i, .commit p i, .commit p j, .io p, .commit p i, .io p,
    .commit p i,
    -- `write_head`
    .commit p j, .io p, .io p]

/-- Block 100 is read again before the commit; after it the disk has the sevens. -/
theorem one_disk_reread :
    (∃ s s' : St (Fin 1) (Fin 2), (sys (Fin 1) (Fin 2) small).Reach s ∧ next small s (.io 0) = some s' ∧
      s'.Caches 0 100 ∧ (s'.buf 0).data = fun _ => 7) ∧
    ∃ s s' : St (Fin 1) (Fin 2), (sys (Fin 1) (Fin 2) small).Reach s ∧ next small s (.commit 0 1) = some s' ∧
      s'.g.pc 0 = .finish ∧ s'.disk 100 0 = 7 := by
  constructor
  · have hrun : ∃ s, Sys.runAll (next small) (fun _ _ => true) idle (fill 0 0 ++ [.bread 0 100 0, .io 0]) = some s ∧
        s.io 0 = .read 0 ∧ s.arg 0 = 100 ∧ (s.last 100 = fun _ => 7) ∧ ∃ s', next small s (.io 0) = some s' :=
      ⟨_, rfl, rfl, rfl, rfl, _, rfl⟩
    obtain ⟨s, hs, hio, harg, hlast, s', hs'⟩ := hrun
    have hr : (sys (Fin 1) (Fin 2) small).Reach s := Sys.reach_of_runAll_true idle_init hs
    obtain ⟨hc, -, hd⟩ := (one_disk hr hs').bread 0 0 rfl hio (by rw [harg]; decide)
    rw [harg] at hc hd
    exact ⟨s, s', hr, hs', hc, hd.trans hlast⟩
  · let seen (t : St (Fin 1) (Fin 2)) : Bool := t.g.pc 0 = .finish ∧ (t.snap 0).dev = ROOTDEV ∧
      (t.snap 0).blockno = 100 ∧ (t.snap 0).valid = true ∧ (t.snap 0).data 0 = 7
    obtain ⟨s, hr, h⟩ : ∃ s, (sys (Fin 1) (Fin 2) small).Reach s ∧ (next small s (.commit 0 1)).any seen = true :=
      Sys.reach_of_any (fill 0 0 ++ commitAll 0 0 1) _ idle_init (by decide +kernel)
    obtain ⟨s', hs, h⟩ := (Option.any_eq_true ..).mp h
    obtain ⟨hp, hdev, hb, hv, hd⟩ := of_decide_eq_true h
    exact ⟨s, s', hr, hs, hp, (congrFun ((one_disk hr hs).commit 0 hp 0 100 hdev hb hv (by decide)) 0).trans hd⟩

end Xv6.Cache
