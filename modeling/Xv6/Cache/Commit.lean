/-
  Xv6.Cache.Commit — the invariant of the cache with a commit running (see `Xv6.Cache.Core`).

  `Stage` says what a process in `commit` has done so far: which buffers it has, and how
  much of the transaction is in the log area. The steps of the cache are steps of
  `Xv6.Log.Group` (`sim`), so what is proved of the log there holds here.
-/

import Xv6.Cache.Core


namespace Xv6.Cache

open Log Lib
open Function (update update_self update_of_ne)
open Option (ite_none_left_eq_some ite_none_right_eq_some)

variable {P B : Type} [DecidableEq P] [DecidableEq B]

/-! ## Places in `commit` -/

namespace CPc

def pc : CPc B → Option Group.Pc
  | .idle => none
  | .logTo _ | .logFrom _ _ | .logCopy _ _ _ | .logRelFrom _ _ _ | .logRelTo _ _ => some .commit
  | .head erase | .headWrite erase _ => some (if erase then .eraseHead else .writeHead)
  | .headRel erase _ => some (if erase then .finish else .install 0)
  | .insFrom t | .insTo t _ | .insCopy t _ _ | .insUnpin t _ _ => some (.install t)
  | .insRelFrom t _ _ | .insRelTo t _ => some (.install (t + 1))
  | .done => some .finish

/-- How many of the `n` blocks of the transaction are in the log area. -/
def logged (n : Nat) : CPc B → Nat
  | .logTo t | .logFrom t _ | .logCopy t _ _ => t
  | .logRelFrom t _ _ | .logRelTo t _ => t + 1
  | .head false | .headWrite false _ | .headRel false _ => n
  | .insFrom _ | .insTo _ _ | .insCopy _ _ _ | .insUnpin _ _ _ | .insRelFrom _ _ _ | .insRelTo _ _ => n
  | _ => 0

def iter : CPc B → Option Nat
  | .logFrom t _ | .logCopy t _ _ | .logRelFrom t _ _ | .logRelTo t _ => some t
  | .insTo t _ | .insCopy t _ _ | .insUnpin t _ _ | .insRelFrom t _ _ | .insRelTo t _ => some t
  | _ => none

def bufs (L : Geom) (lh : List Nat) : CPc B → List (B × Nat)
  | .logFrom t l | .logRelTo t l | .insTo t l => [(l, L.start + t + 1)]
  | .logCopy t l c | .logRelFrom t l c => [(l, L.start + t + 1), (c, lh.getD t 0)]
  | .headWrite _ h | .headRel _ h => [(h, L.start)]
  | .insCopy t l d | .insUnpin t l d | .insRelFrom t l d => [(l, L.start + t + 1), (d, lh.getD t 0)]
  | .insRelTo t d => [(d, lh.getD t 0)]
  | _ => []

/-- The home block just written, not yet unpinned. -/
def copied : CPc B → Option Nat
  | .insUnpin t _ _ => some t
  | _ => none

end CPc

/-- `p` has a reference to `i`, which stands for `b`; it waits for the lock or has it. -/
def Got (s : St P B) (p : P) (i : B) (b : Nat) : Prop := s.Caches i b ∧ (s.io p = .lock i ∨ (s.buf i).lock = some p)

/-- Each `bread` under way has a buffer for the block it was called with. -/
def Asked (s : St P B) : Prop := ∀ p i, s.io p = .lock i ∨ s.io p = .read i → Got s p i (s.arg p)

variable (L : Geom)

/-- The first `t` blocks of the transaction are in the log area. -/
def Logged (s : St P B) (t : Nat) : Prop :=
  ∀ t' b, t' < t → s.g.lh[t']? = some b → s.disk (L.start + t' + 1) = s.last b

structure Stage (s : St P B) (p : P) (c : CPc B) : Prop where
  idle : c.pc = none → ¬ Group.InCommit (s.g.pc p)
  pc : ∀ x, c.pc = some x → s.g.pc p = x
  logged : Logged L s (c.logged s.g.lh.length)
  iter : ∀ t, c.iter = some t → t < s.g.lh.length
  bufs : ∀ x ∈ c.bufs L s.g.lh, Got s p x.1 x.2
  copied : ∀ t, c.copied = some t → s.disk (s.g.lh.getD t 0) = s.last (s.g.lh.getD t 0)

structure Inv [Fintype P] (s : St P B) : Prop where
  core : Core L s
  asked : Asked s
  stage : ∀ p, Stage L s p (s.cpc p)
  /-- Nothing is logged while a commit runs. -/
  snap : ∀ p, Group.InCommit (s.g.pc p) → ∀ i, (s.snap i).dev = ROOTDEV → (s.snap i).valid = true →
    ¬ L.InLog (s.snap i).blockno → (s.snap i).data = s.last (s.snap i).blockno

variable {L}

omit [DecidableEq P] in
theorem Inv.at [Fintype P] {s : St P B} {p : P} {c : CPc B} (h : Inv L s) (hc : s.cpc p = c) : Stage L s p c := hc ▸ h.stage p

omit [DecidableEq B] in
theorem CPc.inCommit {c : CPc B} {x : Group.Pc} (h : c.pc = some x) : Group.InCommit x := by
  cases c <;> simp only [pc, Option.some.injEq, reduceCtorEq] at h <;> subst h <;> try trivial
  all_goals split <;> trivial

omit [DecidableEq P] [DecidableEq B] in
theorem Stage.frame {s s' : St P B} {p : P} {c : CPc B} (h : Stage L s p c)
    (hidle : ¬ Group.InCommit (s.g.pc p) → ¬ Group.InCommit (s'.g.pc p))
    (hsame : Group.InCommit (s.g.pc p) →
      s'.g.pc p = s.g.pc p ∧ s'.g.lh = s.g.lh ∧ s'.disk = s.disk ∧ s'.last = s.last)
    (hgot : ∀ i b, Got s p i b → Got s' p i b) : Stage L s' p c := by
  cases hc : c.pc with
  | none =>
    cases c <;> simp only [CPc.pc, reduceCtorEq] at hc
    exact ⟨fun _ => hidle (h.idle rfl), nofun, nofun, nofun, nofun, nofun⟩
  | some x =>
    obtain ⟨hpc, hlh, hdisk, hlast⟩ := hsame (h.pc x hc ▸ CPc.inCommit hc)
    refine ⟨fun e => by simp [hc] at e, fun y hy => hpc ▸ h.pc y hy, ?_, hlh ▸ h.iter,
      fun x hx => hgot _ _ (h.bufs x (hlh ▸ hx)), ?_⟩
    · have := h.logged
      unfold Logged at this ⊢
      rwa [hlh, hdisk, hlast]
    · rw [hlh, hdisk, hlast]; exact h.copied

/-! ## Buffers that a process has -/

section Got

variable {s s' : St P B} {p q : P} {i j : B} {b : Nat}

omit [DecidableEq P] in
theorem Core.refcnt_pos_of_got [Fintype P] (h : Core L s) (hg : Got s p i b) : 0 < (s.buf i).refcnt :=
  h.refcnt_pos (p := p) (hg.2.imp id fun hl => .inr (by simp [hl]))

theorem Got.bget [Fintype P] [Fintype B] (hg : Got s p i b) (h : Core L s) (hio : s.io q = .none) {b' : Nat}
    (hs : s.bget q b' j = some s') :
    Got s' p i b := by
  have hio' : s'.io = update s.io q (.lock j) := by
    unfold St.bget at hs
    repeat' split at hs
    all_goals cases hs
    all_goals rfl
  have hbuf : (s'.buf i).dev = (s.buf i).dev ∧ (s'.buf i).blockno = (s.buf i).blockno ∧ (s'.buf i).lock = (s.buf i).lock := by
    unfold St.bget at hs
    by_cases e : i = j
    · subst e
      have := h.refcnt_pos_of_got hg
      rw [if_neg (show ¬ (s.buf i).refcnt = 0 by omega)] at hs
      repeat' split at hs
      all_goals cases hs
      simp [St.setArg]
    · repeat' split at hs
      all_goals cases hs
      all_goals simp [St.setArg, update_of_ne e]
  refine ⟨⟨hbuf.1.trans hg.1.1, hbuf.2.1.trans hg.1.2⟩, hg.2.imp (fun hl => ?_) fun hl => by rw [hbuf.2.2, hl]⟩
  by_cases e : p = q
  · subst e; simp [hio] at hl
  · rw [hio', update_of_ne e, hl]

theorem got_of_bget [Fintype B] (hs : s.bget p b i = some s') : Got s' p i b := by
  unfold St.bget at hs
  split at hs
  · split at hs
    · rename_i hc
      cases hs
      exact ⟨by simpa [St.Caches, St.setArg] using hc, .inl (by simp [St.setArg])⟩
    · cases hs
  · split at hs
    · cases hs
      exact ⟨by simp [St.Caches, St.setArg], .inl (by simp [St.setArg])⟩
    · cases hs

theorem Got.upd {x : Buf P} {y : Io B} (hg : Got s p i b)
    (hk : x.dev = (s.buf j).dev ∧ x.blockno = (s.buf j).blockno)
    (hio : p = q → s.io q = .lock i → i = j ∧ x.lock = some q) (hlock : i = j → (s.buf j).lock = some p → x.lock = some p) :
    Got ((s.setBuf j x).setIo q y) p i b := by
  refine ⟨(caches_upd rfl hk i b).mpr hg.1, ?_⟩
  rw [setIo_io, setIo_buf, setBuf_buf, setBuf_io]
  rcases hg.2 with h | h
  · by_cases e : p = q
    · obtain ⟨rfl, hx⟩ := hio e (e ▸ h)
      exact .inr (by rw [update_self, hx, e])
    · exact .inl (by rwa [update_of_ne e])
  · right
    by_cases e : i = j
    · rw [e, update_self]
      exact hlock e (e ▸ h)
    · rwa [update_of_ne e]

theorem Got.ioStep (hg : Got s p i b) (hs : s.ioStep q = some s') : Got s' p i b := by
  unfold St.ioStep at hs
  split at hs <;> rename_i hq
  · cases hs
  · obtain ⟨hl, ⟨⟩⟩ := ite_none_right_eq_some.mp hs
    refine hg.upd ⟨rfl, rfl⟩ (fun _ h => ⟨?_, rfl⟩) fun _ h => nomatch hl.symm.trans h
    cases hq.symm.trans h
    rfl
  · cases hs
    refine hg.upd (by split <;> exact ⟨rfl, rfl⟩) (fun _ h => nomatch hq.symm.trans h) fun _ h => ?_
    split <;> exact h
  · cases hs
    exact hg.upd ⟨rfl, rfl⟩ (fun _ h => nomatch hq.symm.trans h) fun _ h => h

theorem Got.release (hg : Got s p i b) (hio : s.io q = .none) (hl : (s.buf j).lock = some q) (hne : p ≠ q ∨ i ≠ j) :
    Got (s.release q j) p i b := by
  refine hg.upd ⟨rfl, rfl⟩ (fun _ h => nomatch hio.symm.trans h) fun e h => ?_
  exact absurd (Option.some.inj (h.symm.trans hl)) (hne.resolve_right fun hn => hn e)

omit [DecidableEq P] [DecidableEq B] in
theorem Got.shape (hg : Got s p i b) (sh : Shape s s') : Got s' p i b :=
  ⟨(sh.caches i b).mpr hg.1, by rw [sh.io, (sh.buf i).2.2.2]; exact hg.2⟩

theorem Asked.bget [Fintype P] [Fintype B] (ha : Asked s) (h : Core L s) (hio : s.io p = .none)
    (hs : s.bget p b i = some s') : Asked s' := by
  have hio' : s'.io = update s.io p (.lock i) ∧ s'.arg = update s.arg p b := by
    unfold St.bget at hs
    repeat' split at hs
    all_goals cases hs
    all_goals exact ⟨rfl, rfl⟩
  intro q j
  rw [hio'.1, hio'.2]
  refine update_ind q (fun hq => ?_) fun q e hq => ?_
  · obtain rfl : i = j := by simpa using hq
    rw [update_self]
    exact got_of_bget hs
  · rw [update_of_ne e]
    exact (ha q j hq).bget h hio hs

theorem Asked.ioStep (ha : Asked s) (hs : s.ioStep p = some s') : Asked s' := by
  have hio : ∃ y, s'.io = update s.io p y ∧ s'.arg = s.arg ∧
      ∀ j, y = .lock j ∨ y = .read j → s.io p = .lock j := by
    unfold St.ioStep at hs
    repeat' split at hs
    all_goals cases hs
    all_goals exact ⟨_, rfl, rfl, by simp_all⟩
  obtain ⟨y, hio, harg, hy⟩ := hio
  intro q j
  rw [hio, harg]
  exact update_ind q (fun hq => (ha p j (.inl (hy j hq))).ioStep hs) fun q _ hq => (ha q j hq).ioStep hs

theorem Asked.release (ha : Asked s) (hio : s.io p = .none) (hl : (s.buf i).lock = some p) : Asked (s.release p i) := by
  intro q j hq
  by_cases e : q = p
  · subst e; simp [St.release] at hq
  · exact (ha q j (by simpa [St.release, update_of_ne e] using hq)).release hio hl (.inl e)

omit [DecidableEq P] [DecidableEq B] in
theorem Asked.shape (ha : Asked s) (sh : Shape s s') (harg : s'.arg = s.arg) : Asked s' := by
  intro q j hq
  rw [sh.io] at hq
  rw [harg]
  exact (ha q j hq).shape sh

omit [DecidableEq P] in
theorem Got.locked [Fintype P] (hg : Got s p i b) (h : Core L s) (hio : s.io p = .none) :
    (s.buf i).lock = some p ∧ (s.buf i).valid = true := by
  have hl := hg.2.resolve_left (by simp [hio])
  exact ⟨hl, (h.held p i hl).resolve_left (by simp [hio])⟩

end Got

/-! ## Steps of the log -/

/-- A step of the log by `p` outside `commit`: nothing is pinned or logged, and nobody else
    enters or leaves an operation or a commit. -/
structure Quiet (g g' : Group.St P) (p : P) : Prop where
  pin : g'.pin = g.pin
  lh : g'.lh = g.lh
  out : ¬ Group.InCommit (g.pc p)
  commit : ∀ q, Group.InCommit (g.pc q) → g'.pc q = g.pc q
  op : ∀ q, q ≠ p → g.pc q = .op → g'.pc q = .op
  other : ∀ q, q ≠ p → Group.InCommit (g'.pc q) → Group.InCommit (g.pc q)

theorem pc_other {g g' : Group.St P} {p q : P} {c : Group.Pc}
    (hpc : g'.pc = update g.pc p c ∨ g'.pc = Group.wakeup (update g.pc p c)) (e : q ≠ p) :
    g'.pc q = g.pc q ∨ (g.pc q ≠ .op ∧ ¬ Group.InCommit (g.pc q) ∧ ¬ Group.InCommit (g'.pc q)) := by
  rcases hpc with hpc | hpc <;> simp only [hpc, Group.wakeup, update_of_ne e, true_or]
  split
  · simp [*, Group.InCommit]
  · exact .inl rfl

theorem Quiet.of_pc {g g' : Group.St P} {p : P} {c : Group.Pc} (h : ¬ Group.InCommit (g.pc p)) (hpin : g'.pin = g.pin)
    (hlh : g'.lh = g.lh) (hpc : g'.pc = update g.pc p c ∨ g'.pc = Group.wakeup (update g.pc p c)) : Quiet g g' p where
  pin := hpin
  lh := hlh
  out := h
  commit _ hq := (pc_other hpc fun e => h (e ▸ hq)).resolve_right fun hn => hn.2.1 hq
  op _ e hq := ((pc_other hpc e).resolve_right fun hn => hn.1 hq).trans hq
  other _ e hq := (pc_other hpc e).elim (fun he => he ▸ hq) fun hn => absurd hq hn.2.2

theorem quiet_next {size : Nat} {g g' : Group.St P} {p : P} {a : Group.Act P} (h : Group.next size g a = some g')
    (ha : a = .call p ∨ a = .begin p ∨ a = .kill p) :
    Quiet g g' p ∧ g.pc p ≠ .op ∧ ¬ Group.InCommit (g'.pc p) := by
  obtain ⟨-, h⟩ := Group.next_cases h
  have hset : ∀ c, ¬ Group.InCommit (g.pc p) → Quiet g (Group.setPc g p c) p := fun c hn => .of_pc hn rfl rfl (.inl rfl)
  rcases ha with rfl | rfl | rfl <;> obtain ⟨hp, rfl⟩ := h <;> have hn : ¬ Group.InCommit (g.pc p) := by simp [hp, Group.InCommit]
  · exact ⟨hset _ hn, by simp [hp], by simp [Group.InCommit]⟩
  · refine ⟨?_, by simp [hp], ?_⟩ <;> unfold Group.beginOp <;> split
    · exact hset _ hn
    · exact .of_pc hn rfl rfl (.inl rfl)
    all_goals simp [Group.InCommit]
  · exact ⟨hset _ hn, by simp [hp], by simp [Group.InCommit]⟩

theorem quiet_endOp {size : Nat} {g g' : Group.St P} {p : P} (h : Group.next size g (.endOp p) = some g') :
    Quiet g g' p ∧ (g'.pc p = .commit ∨ ¬ Group.InCommit (g'.pc p)) := by
  obtain ⟨-, hp, rfl⟩ := Group.next_cases h
  have hn : ¬ Group.InCommit (g.pc p) := by simp [hp, Group.InCommit]
  unfold Group.endOp
  dsimp only
  split
  · exact ⟨⟨rfl, rfl, hn, fun _ _ => rfl, fun _ _ hq => hq, fun _ _ hq => hq⟩, .inr hn⟩
  · split
    · exact ⟨.of_pc hn rfl rfl (.inl rfl), .inl (by simp [Group.setPc])⟩
    · exact ⟨.of_pc hn rfl rfl (.inr rfl), .inr (by rw [Group.inCommit_wakeup, update_self]; exact id)⟩

/-! ## The invariant, outside `commit` -/

section Steps

variable [Fintype P] {s s' : St P B} {p q : P} {i : B}

theorem Core.setCpc (h : Core L s) (c : CPc B) (snap : B → Buf P) : Core L { s.setCpc p c with snap } :=
  ⟨h.uniq, h.refcnt, h.dev, h.pinned, h.reading, h.held, h.dirty, h.data, h.home, h.logData, h.lhHome, h.lhFits⟩

omit [DecidableEq P] [DecidableEq B] [Fintype P] in
theorem Stage.eq_idle {c : CPc B} (h : Stage L s p c) (hn : ¬ Group.InCommit (s.g.pc p)) : c = .idle := by
  cases hc : c.pc with
  | none => cases c <;> simp_all [CPc.pc]
  | some x => exact absurd (h.pc x hc ▸ CPc.inCommit hc) hn

omit [DecidableEq P] [DecidableEq B] [Fintype P] in
theorem stage_idle (hn : ¬ Group.InCommit (s.g.pc p)) : Stage L s p .idle := ⟨fun _ => hn, nofun, nofun, nofun, nofun, nofun⟩

omit [DecidableEq P] in
theorem Init.inv (h : Init s) : Inv L s where
  core := .init h
  asked p i hp := by simp [h.io] at hp
  stage p := by
    rw [h.cpc]
    exact stage_idle (by simp [h.g, Group.init, Group.InCommit])
  snap p hp := by simp [h.g, Group.init, Group.InCommit] at hp

/-- A step that touches buffers only. -/
def Same (s s' : St P B) : Prop :=
  s'.g = s.g ∧ s'.disk = s.disk ∧ s'.last = s.last ∧ s'.cpc = s.cpc ∧ s'.snap = s.snap

omit [DecidableEq P] in
theorem Inv.buffers (h : Inv L s) (hc : Core L s') (ha : Asked s') (hs : Same s s')
    (hgot : ∀ q i b, s.cpc q ≠ .idle → Got s q i b → Got s' q i b) : Inv L s' := by
  obtain ⟨hg, hd, hl, hcpc, hsnap⟩ := hs
  refine ⟨hc, ha, fun q => ?_, fun q hq => by rw [hsnap, hl]; exact h.snap q (hg ▸ hq)⟩
  rw [hcpc]
  by_cases e : s.cpc q = .idle
  · rw [e]
    exact stage_idle (hg ▸ (h.stage q).idle (by rw [e]; rfl))
  · exact (h.stage q).frame (by rw [hg]; exact id) (fun _ => ⟨by rw [hg], by rw [hg], hd, hl⟩) fun i b => hgot q i b e

omit [Fintype P] in
theorem bget_same [Fintype B] {b : Nat} (hs : s.bget p b i = some s') : Same s s' := by
  unfold St.bget at hs
  repeat' split at hs
  all_goals cases hs
  all_goals exact ⟨rfl, rfl, rfl, rfl, rfl⟩

omit [Fintype P] in
theorem ioStep_same (hs : s.ioStep p = some s') : Same s s' := by
  unfold St.ioStep at hs
  repeat' split at hs
  all_goals cases hs
  all_goals exact ⟨rfl, rfl, rfl, rfl, rfl⟩

theorem Inv.bget [Fintype B] (h : Inv L s) (hio : s.io p = .none) {b : Nat} (hs : s.bget p b i = some s') : Inv L s' :=
  h.buffers (h.core.bget hio hs) (h.asked.bget h.core hio hs) (bget_same hs) fun _ _ _ _ hq => hq.bget h.core hio hs

theorem Inv.ioStep (h : Inv L s) (hs : s.ioStep p = some s') : Inv L s' :=
  h.buffers (h.core.ioStep hs) (h.asked.ioStep hs) (ioStep_same hs) fun _ _ _ _ hq => hq.ioStep hs

theorem Inv.brelse (h : Inv L s) (hio : s.io p = .none) (hc : s.cpc p = .idle) (hl : (s.buf i).lock = some p)
    (hd : (s.buf i).dirty = false) : Inv L (s.release p i) :=
  h.buffers (h.core.release hio hl hd) (h.asked.release hio hl) ⟨rfl, rfl, rfl, rfl, rfl⟩ fun _ _ _ hq hgot =>
    hgot.release hio hl (.inl fun e => hq (e ▸ hc))

omit [DecidableEq P] in
theorem Inv.modify (h : Inv L s) (hio : s.io p = .none) (hop : s.g.pc p = .op) (hl : (s.buf i).lock = some p)
    (hL : ¬ L.InLog (s.buf i).blockno) (data : Block) : Inv L (s.setBuf i { s.buf i with data, dirty := true }) :=
  have sh : Shape s (s.setBuf i { s.buf i with data, dirty := true }) := .upd rfl rfl ⟨rfl, rfl, rfl, rfl⟩
  h.buffers (h.core.modify hio hop hl hL data) (h.asked.shape sh rfl) ⟨rfl, rfl, rfl, rfl, rfl⟩ fun _ _ _ _ hgot => hgot.shape sh

theorem Core.quiet (h : Core L s) {g : Group.St P} (hg : Quiet s.g g p)
    (hd : ∀ i, (s.buf i).lock = some p → (s.buf i).dirty = true → s.g.pc p = .op → g.pc p = .op) : Core L { s with g } := by
  refine h.log hg.pin (.inl hg.lh) fun q i hl hdi hop => ?_
  by_cases e : q = p
  · subst e; exact hd i hl hdi hop
  · exact hg.op q e hop

theorem Inv.quiet (h : Inv L s) {g : Group.St P} (hg : Quiet s.g g p) (hp : ¬ Group.InCommit (g.pc p))
    (hd : ∀ i, (s.buf i).lock = some p → (s.buf i).dirty = true → s.g.pc p = .op → g.pc p = .op) : Inv L { s with g } := by
  have hin : ∀ q, Group.InCommit (g.pc q) → Group.InCommit (s.g.pc q) := by
    intro q hq
    by_cases e : q = p
    · subst e; exact absurd hq hp
    · exact hg.other q e hq
  refine ⟨h.core.quiet hg hd, h.asked, fun q => ?_, fun q hq => h.snap q (hin q hq)⟩
  exact (h.stage q).frame (fun hn hq => hn (hin q hq)) (fun hq => ⟨hg.commit q hq, hg.lh, rfl, rfl⟩) fun _ _ hgot => hgot

theorem Inv.endOp (h : Inv L s) (hG' : Group.Inv s'.g) (hclean : ∀ i, (s.buf i).lock = some p → (s.buf i).dirty = false)
    (hs : endOp L s p = some s') : Inv L s' := by
  obtain ⟨g, hg, rfl⟩ := Option.map_eq_some_iff.mp hs
  obtain ⟨hq, hp⟩ := quiet_endOp hg
  have hd : ∀ i, (s.buf i).lock = some p → (s.buf i).dirty = true → s.g.pc p = .op → g.pc p = .op :=
    fun i hl hdi _ => by simp [hclean i hl] at hdi
  split
  · rename_i hc
    rw [if_pos hc] at hG'
    refine ⟨(h.core.quiet hq hd).setCpc (.logTo 0) s.buf, h.asked, fun q => ?_, fun q _ i hdev hv hL => ?_⟩
    · simp only [St.setCpc]
      refine update_ind q ⟨nofun, fun x hx => by cases hx; exact hc, nofun, nofun, nofun, nofun⟩ fun q e => ?_
      exact (h.stage q).frame (fun hn hin => hn (hq.other q e hin)) (fun hin => ⟨hq.commit q hin, hq.lh, rfl, rfl⟩)
        fun _ _ hgot => hgot
    · -- every changed buffer is held inside an operation, and none is left
      refine h.core.data i _ ⟨hdev, rfl⟩ hv hL ?_
      by_contra hdi
      obtain ⟨-, q, hl, hop, -⟩ := h.core.dirty i (by simpa using hdi)
      have e : q ≠ p := by
        rintro rfl
        exact hdi (hclean i hl)
      exact hG'.quiet (hG'.comm.mpr ⟨p, by rw [show g.pc p = _ from hc]; trivial⟩) q (hq.op q e hop)
  · exact h.quiet hq (hp.resolve_left ‹_›) hd

omit [Fintype P] in
theorem quiet_logWrite {size : Nat} {g g' : Group.St P} {b : Nat} (h : Group.next size g (.logWrite p b) = some g')
    (hn : g'.panicked ≠ none) : Quiet g g' p ∧ g'.pc = g.pc := by
  obtain ⟨h0, hp, rfl⟩ := Group.next_cases h
  have hpc : (Group.logWrite size g p b).pc = g.pc ∧ (Group.logWrite size g p b).pin = g.pin ∧
    (Group.logWrite size g p b).lh = g.lh := by
    unfold Group.logWrite at hn ⊢
    split at hn
    · rename_i h1
      rw [if_pos h1]; exact ⟨rfl, rfl, rfl⟩
    · rename_i h1
      rw [if_neg h1]
      split at hn
      · rename_i h2
        rw [if_pos h2]; exact ⟨rfl, rfl, rfl⟩
      · dsimp only at hn
        split at hn <;> exact absurd h0 hn
  exact ⟨⟨hpc.2.1, hpc.2.2, by simp [hp, Group.InCommit], fun q _ => by rw [hpc.1], fun q _ hq => by rw [hpc.1, hq],
    fun q _ hq => by rwa [hpc.1] at hq⟩, hpc.1⟩

theorem Inv.logWrite (h : Inv L s) (hG : Group.Inv s.g) (hio : s.io p = .none) (hl : (s.buf i).lock = some p)
    (hL : ¬ L.InLog (s.buf i).blockno) (hs : logWrite L s p i = some s') : Inv L s' := by
  by_cases hn : s'.g.panicked = none
  · have hcore := h.core.logWrite hG hio hl hL hs hn
    obtain ⟨g, hg, rfl⟩ := Option.map_eq_some_iff.mp hs
    have hn : g.panicked = none := by
      split at hn
      · assumption
      · exact hn
    obtain ⟨hop, hpc, -⟩ := logWrite_spec hg hn
    have hno : ∀ q, ¬ Group.InCommit (s.g.pc q) := hG.not_inCommit (hG.not_committing hop)
    rw [if_pos hn] at hcore ⊢
    have sh : Shape s { s.setBuf i { s.buf i with
        refcnt := if (s.buf i).blockno ∈ s.g.lh then (s.buf i).refcnt else (s.buf i).refcnt + 1, dirty := false } with
        g, last := update s.last (s.buf i).blockno (s.buf i).data } := .upd rfl rfl ⟨rfl, rfl, rfl, rfl⟩
    refine ⟨hcore, h.asked.shape sh rfl, fun q => ?_, fun q hq => absurd (hpc ▸ hq) (hno q)⟩
    exact (h.stage q).frame (fun hq => by simpa only [hpc] using hq) (fun hq => absurd hq (hno q))
      fun _ _ hgot => hgot.shape sh
  · obtain ⟨g, hg, rfl⟩ := Option.map_eq_some_iff.mp hs
    have hn : g.panicked ≠ none := by
      split at hn
      · exact absurd ‹g.panicked = none› hn
      · exact hn
    obtain ⟨hq, hpc⟩ := quiet_logWrite hg hn
    rw [if_neg hn]
    exact h.quiet hq (by rw [hpc]; exact hq.out) fun _ _ _ hop => by rw [hpc, hop]

/-! ## The invariant in `commit` -/

theorem Inv.commit (h : Inv L s) (hG : Group.Inv s.g) (hp : Group.InCommit (s.g.pc p)) {c : CPc B} (hcore : Core L s')
    (hasked : Asked s') (hcpc : s'.cpc = update s.cpc p c) (hst : Stage L s' p c)
    (hother : ∀ q, q ≠ p → Group.InCommit (s'.g.pc q) → Group.InCommit (s.g.pc q)) (hsnap : s'.snap = s.snap)
    (hlast : s'.last = s.last) : Inv L s' := by
  refine ⟨hcore, hasked, fun q => ?_, fun _ _ => by rw [hsnap, hlast]; exact h.snap p hp⟩
  rw [hcpc]
  refine update_ind q hst fun q e => ?_
  have hn : ¬ Group.InCommit (s.g.pc q) := fun hq => e (hG.one q p hq hp)
  rw [(h.stage q).eq_idle hn]
  exact stage_idle fun hq => hn (hother q e hq)

theorem Inv.commit_bget [Fintype B] (h : Inv L s) (hG : Group.Inv s.g) (hio : s.io p = .none) {b : Nat} {a c : CPc B}
    (hc : s.cpc p = a) (hm : (s.bget p b i).map (·.setCpc p c) = some s') (ha : a.pc ≠ none) (hpc : c.pc = a.pc)
    (hlog : ∀ n, c.logged n = a.logged n) (hbufs : c.bufs L s.g.lh = a.bufs L s.g.lh ++ [(i, b)])
    (hiter : ∀ t, c.iter = some t → t < s.g.lh.length) (hcopied : c.copied = none) : Inv L s' := by
  obtain ⟨t, hs, rfl⟩ := Option.map_eq_some_iff.mp hm
  obtain ⟨hg, hd, hl, hcpc, hsn⟩ := bget_same hs
  obtain ⟨x, hx⟩ := Option.ne_none_iff_exists'.mp ha
  have hst := h.at hc
  have hasked : Asked t := h.asked.bget h.core hio hs
  refine h.commit (c := c) hG (hst.pc x hx ▸ CPc.inCommit hx) ((h.core.bget hio hs).setCpc c t.snap) hasked
    (by simp [St.setCpc, hcpc]) ?_
    (fun q _ hq => by simpa only [St.setCpc, hg] using hq) hsn hl
  refine ⟨fun e => by simp [hpc, hx] at e, fun y hy => ?_, ?_, ?_, ?_, by simp [hcopied]⟩
  · simp only [St.setCpc, hg]; exact hst.pc y (hpc ▸ hy)
  · have := hst.logged
    unfold Logged at this ⊢
    simpa only [St.setCpc, hg, hd, hl, hlog] using this
  · simpa only [St.setCpc, hg] using hiter
  · intro y hy
    rw [show (t.setCpc p c).g = s.g from hg, hbufs, List.mem_append, List.mem_singleton] at hy
    have hgot : Got t p y.1 y.2 := by
      rcases hy with hy | rfl
      · exact (hst.bufs y hy).bget h.core hio hs
      · exact got_of_bget hs
    exact hgot

theorem Inv.commit_release (h : Inv L s) (hG : Group.Inv s.g) (hio : s.io p = .none) {b : Nat} {a c : CPc B}
    (hc : s.cpc p = a) (hi : (i, b) ∈ a.bufs L s.g.lh) (ha : a.pc ≠ none) (hpc : c.pc = a.pc)
    (hlog : ∀ n, c.logged n ≤ a.logged n)
    (hbufs : ∀ y ∈ c.bufs L s.g.lh, y ∈ a.bufs L s.g.lh ∧ y.2 ≠ b) (hiter : ∀ t, c.iter = some t → t < s.g.lh.length)
    (hcopied : c.copied = none) : Inv L ((s.release p i).setCpc p c) := by
  obtain ⟨x, hx⟩ := Option.ne_none_iff_exists'.mp ha
  have hst := h.at hc
  have hgi := hst.bufs _ hi
  have hin : Group.InCommit (s.g.pc p) := hst.pc x hx ▸ CPc.inCommit hx
  have hl := (hgi.locked h.core hio).1
  have hd : (s.buf i).dirty = false := by
    by_contra hd
    obtain ⟨-, q, hq, hop, -⟩ := h.core.dirty i (by simpa using hd)
    obtain rfl : p = q := by simpa [hl] using hq
    simp [hop, Group.InCommit] at hin
  refine h.commit (c := c) hG hin ((h.core.release hio hl hd).setCpc c _) (h.asked.release hio hl) rfl ?_
    (fun q _ hq => hq) rfl rfl
  refine ⟨fun e => by simp [hpc, hx] at e, fun y hy => hst.pc y (hpc ▸ hy), ?_, hiter, fun y hy => ?_, by simp [hcopied]⟩
  · intro t b ht
    exact hst.logged t b (lt_of_lt_of_le ht (hlog _))
  · obtain ⟨hy, hne⟩ := hbufs y hy
    refine (hst.bufs y hy).release hio hl (.inr ?_)
    rintro e
    have h1 := (hst.bufs y hy).1.2
    rw [e] at h1
    exact hne (h1.symm.trans hgi.1.2)

omit [DecidableEq B] [Fintype P] in
theorem commit_spec {size : Nat} {u : St P B} (h : s.log size (.commit p) = some u) :
    ∃ g', u = { s with g := g' } ∧ Group.commitStep s.g p = some g' ∧
      (∀ q, q ≠ p → Group.InCommit (g'.pc q) → Group.InCommit (s.g.pc q)) ∧ ∀ q, s.g.pc q = .op → g'.pc q = .op := by
  obtain ⟨g', hg, rfl⟩ := Option.map_eq_some_iff.mp h
  obtain ⟨g, hgs⟩ : ∃ g, g = s.g := ⟨_, rfl⟩
  rw [← hgs] at hg ⊢
  have h : Group.commitStep g p = some g' := (Group.next_cases hg).2
  have hpc : ∃ c, g'.pc = update g.pc p c ∨ g'.pc = Group.wakeup (update g.pc p c) := by
    unfold Group.commitStep at h
    repeat' split at h
    all_goals cases h
    all_goals first | exact ⟨_, .inl rfl⟩ | exact ⟨_, .inr rfl⟩
  have hp : g.pc p ≠ .op := by
    rintro e
    simp [Group.commitStep, e] at h
  obtain ⟨c, hpc⟩ := hpc
  refine ⟨g', rfl, h, fun q e hq => (pc_other hpc e).elim (fun he => he ▸ hq) fun hn => absurd hq hn.2.2, fun q hq => ?_⟩
  exact ((pc_other hpc fun e => hp (e ▸ hq)).resolve_right fun hn => hn.1 hq).trans hq

theorem inLog_start : L.InLog L.start := ⟨le_refl _, Nat.lt_add_of_pos_right L.pos⟩

omit [DecidableEq P] in
theorem Core.inLog (h : Core L s) {t : Nat} (ht : t < s.g.lh.length) : L.InLog (L.start + t + 1) := by
  have := h.lhFits
  exact ⟨by omega, by omega⟩

theorem getD_mem {lh : List Nat} {t : Nat} (ht : t < lh.length) : lh.getD t 0 ∈ lh ∧ lh[t]? = some (lh.getD t 0) := by
  rw [List.getD_eq_getElem?_getD, List.getElem?_eq_getElem ht]
  exact ⟨List.getElem_mem ht, rfl⟩

section

variable (h : Inv L s) (hG : Group.Inv s.g)
include h hG

omit [DecidableEq P] in
theorem Inv.clean (hp : Group.InCommit (s.g.pc p)) (i : B) : (s.buf i).dirty = false := by
  by_contra hd
  obtain ⟨-, q, -, hop, -⟩ := h.core.dirty i (by simpa using hd)
  exact hG.quiet (hG.comm.mpr ⟨p, hp⟩) q hop

theorem Inv.logCopy (hio : s.io p = .none) {t : Nat} {l c : B} (hc : s.cpc p = .logCopy t l c) :
    Inv L ((s.bwrite l (s.buf c).data).setCpc p (.logRelFrom t l c)) := by
  have hst := h.at hc
  have hpc : s.g.pc p = .commit := hst.pc _ rfl
  have hin : Group.InCommit (s.g.pc p) := by rw [hpc]; trivial
  have ht : t < s.g.lh.length := hst.iter t rfl
  have hl : Got s p l (L.start + t + 1) := hst.bufs (l, _) (.head _)
  have hcb : Got s p c (s.g.lh.getD t 0) := hst.bufs (c, _) (.tail _ (.head _))
  have hdata : (s.buf c).data = s.last (s.g.lh.getD t 0) :=
    h.core.data c _ hcb.1 (hcb.locked h.core hio).2 (h.core.lhHome _ (getD_mem ht).1) (h.clean hG hin c)
  have sh : Shape s ((s.bwrite l (s.buf c).data).setCpc p (.logRelFrom t l c)) := .upd rfl rfl ⟨rfl, rfl, rfl, rfl⟩
  refine h.commit (c := .logRelFrom t l c) hG hin ((h.core.bwrite hl.1 fun hL => absurd (h.core.inLog ht) hL).setCpc _ _)
    (h.asked.shape sh rfl) rfl ?_ (fun q _ hq => hq) rfl rfl
  refine ⟨nofun, fun x hx => by cases hx; exact hpc, fun t' b ht' hb => ?_, hst.iter, fun x hx => (hst.bufs x hx).shape sh, nofun⟩
  simp only [St.setCpc, St.bwrite, setBuf_g, hl.1.2] at hb ⊢
  by_cases e : t' = t
  · subst e
    rw [update_self, hdata]
    rw [(getD_mem ht).2] at hb
    cases hb; rfl
  · rw [update_of_ne (by omega)]
    exact hst.logged t' b (by have : t' < t + 1 := ht'; simp only [CPc.logged]; omega) hb

theorem Inv.logEnd {t : Nat} (hc : s.cpc p = .logTo t) (ht : ¬ t < s.g.lh.length)
    {u : St P B} (hs : s.log L.nlog (.commit p) = some u) :
    Inv L (u.setCpc p (if s.g.lh = [] then .done else .head false)) := by
  have hst := h.at hc
  have hpc : s.g.pc p = .commit := hst.pc _ rfl
  obtain ⟨g, rfl, hg, hother, hop⟩ := commit_spec hs
  obtain ⟨hpin, hlh, hpc'⟩ : g.pin = s.g.pin ∧ g.lh = s.g.lh ∧ g.pc p = if s.g.lh = [] then .finish else .writeHead := by
    simp only [Group.commitStep, hpc, Option.some.injEq] at hg
    subst hg
    exact ⟨rfl, rfl, by simp⟩
  refine h.commit hG (by rw [hpc]; trivial) ((h.core.log hpin (.inl hlh) fun q _ _ _ => hop q).setCpc _ _) h.asked rfl ?_
    hother rfl rfl
  split
  · rename_i he
    exact ⟨nofun, fun x hx => by cases hx; exact hpc'.trans (if_pos he), nofun, nofun, nofun, nofun⟩
  · rename_i he
    refine ⟨nofun, fun x hx => by cases hx; exact hpc'.trans (if_neg he), fun t' b ht' hb => ?_, nofun, nofun, nofun⟩
    have ht' : t' < g.lh.length := ht'
    rw [hlh] at ht'
    exact hst.logged t' b (show t' < t by omega) (hlh ▸ hb)

theorem Inv.headWrite {erase : Bool} {hd : B} (hc : s.cpc p = .headWrite erase hd) {data : Block}
    {u : St P B} (hs : (s.bwrite hd data).log L.nlog (.commit p) = some u) : Inv L (u.setCpc p (.headRel erase hd)) := by
  have hst := h.at hc
  have hpc : s.g.pc p = if erase then .eraseHead else .writeHead := hst.pc _ rfl
  have hgh : Got s p hd L.start := hst.bufs (hd, _) (.head _)
  obtain ⟨g, rfl, hg, hother, hop⟩ := commit_spec hs
  have hgs : g.pin = s.g.pin ∧ g.lh = s.g.lh ∧ g.pc p = if erase then .finish else .install 0 := by
    have hpc' : (s.bwrite hd data).g.pc p = if erase then .eraseHead else .writeHead := hpc
    cases erase <;> simp only [Group.commitStep, hpc', if_true, if_false, Option.some.injEq,
      Bool.false_eq_true] at hg <;> subst hg
    · exact ⟨rfl, rfl, by simp⟩
    · exact ⟨rfl, rfl, by simp⟩
  have hin : Group.InCommit (s.g.pc p) := by
    rw [hpc]
    split <;> trivial
  have sh : Shape s ({ s.bwrite hd data with g }.setCpc p (.headRel erase hd)) := .upd rfl rfl ⟨rfl, rfl, rfl, rfl⟩
  refine h.commit (c := .headRel erase hd) hG hin
    (((h.core.bwrite hgh.1 (fun hL => absurd inLog_start hL)).log hgs.1 (.inl hgs.2.1) fun q _ _ _ => hop q).setCpc _ _)
    (h.asked.shape sh rfl) rfl ?_ hother rfl rfl
  refine ⟨nofun, fun x hx => by cases hx; exact hgs.2.2, fun t' b ht' hb => ?_, nofun, fun x hx => ?_, nofun⟩
  · simp only [St.setCpc, hgs.2.1] at hb ht'
    have := hst.logged t' b (by cases erase <;> exact ht') hb
    simp only [St.setCpc, St.bwrite, hgh.1.2]
    rw [update_of_ne (by omega)]
    exact this
  · have hx : x = (hd, L.start) := by simpa [CPc.bufs] using hx
    subst hx
    exact hgh.shape sh

theorem Inv.insEnd {t : Nat} (hc : s.cpc p = .insFrom t) (ht : ¬ t < s.g.lh.length)
    {u : St P B} (hs : s.log L.nlog (.commit p) = some u) : Inv L (u.setCpc p (.head true)) := by
  have hst := h.at hc
  have hpc : s.g.pc p = .install t := hst.pc _ rfl
  obtain ⟨g, rfl, hg, hother, hop⟩ := commit_spec hs
  obtain ⟨hpin, hlh, hpc'⟩ : g.pin = s.g.pin ∧ g.lh = [] ∧ g.pc p = .eraseHead := by
    simp only [Group.commitStep, hpc, List.getElem?_eq_none (Nat.le_of_not_lt ht), Option.some.injEq] at hg
    subst hg
    exact ⟨rfl, rfl, by simp⟩
  refine h.commit (c := .head true) hG (by rw [hpc]; trivial) ((h.core.log hpin (.inr hlh) fun q _ _ _ => hop q).setCpc _ _)
    h.asked rfl ?_ hother rfl rfl
  exact ⟨nofun, fun x hx => by cases hx; exact hpc', nofun, nofun, nofun, nofun⟩

omit [DecidableEq P] in
theorem Inv.same_data (hio : s.io p = .none) {t : Nat} {l d : B} (hc : s.cpc p = .insCopy t l d) :
    (s.buf l).data = s.last (s.g.lh.getD t 0) ∧ (s.buf d).data = s.last (s.g.lh.getD t 0) := by
  have hst := h.at hc
  have ht : t < s.g.lh.length := hst.iter t rfl
  have hin : Group.InCommit (s.g.pc p) := by rw [hst.pc _ rfl]; trivial
  have hl : Got s p l (L.start + t + 1) := hst.bufs (l, _) (.head _)
  have hd : Got s p d (s.g.lh.getD t 0) := hst.bufs (d, _) (.tail _ (.head _))
  constructor
  · rw [h.core.logData l _ hl.1 (hl.locked h.core hio).2 (h.core.inLog ht)]
    exact hst.logged t _ ht (getD_mem ht).2
  · exact h.core.data d _ hd.1 (hd.locked h.core hio).2 (h.core.lhHome _ (getD_mem ht).1) (h.clean hG hin d)

theorem Inv.insCopy (hio : s.io p = .none) {t : Nat} {l d : B} (hc : s.cpc p = .insCopy t l d) :
    Inv L ((s.bwrite d (s.buf l).data).setCpc p (.insUnpin t l d)) := by
  obtain ⟨hdl, -⟩ := h.same_data hG hio hc
  have hst := h.at hc
  have hpc : s.g.pc p = .install t := hst.pc _ rfl
  have ht : t < s.g.lh.length := hst.iter t rfl
  have hd : Got s p d (s.g.lh.getD t 0) := hst.bufs (d, _) (.tail _ (.head _))
  have hL := h.core.lhHome _ (getD_mem ht).1
  have sh : Shape s ((s.bwrite d (s.buf l).data).setCpc p (.insUnpin t l d)) := .upd rfl rfl ⟨rfl, rfl, rfl, rfl⟩
  refine h.commit (c := .insUnpin t l d) hG (by rw [hpc]; trivial) ((h.core.bwrite hd.1 fun _ => hdl).setCpc _ _)
    (h.asked.shape sh rfl) rfl ?_ (fun q _ hq => hq) rfl rfl
  refine ⟨nofun, fun x hx => by cases hx; exact hpc, fun t' b ht' hb => ?_, hst.iter,
    fun x hx => (hst.bufs x hx).shape sh, fun t' e => ?_⟩
  · have ht' : t' < s.g.lh.length := ht'
    have hne : L.start + t' + 1 ≠ s.g.lh.getD t 0 := fun e => hL (e ▸ h.core.inLog ht')
    simp only [St.setCpc, St.bwrite, hd.1.2]
    rw [update_of_ne hne]
    exact hst.logged t' b ht' hb
  · cases e
    simp only [St.setCpc, St.bwrite, setBuf_g, hd.1.2, update_self]
    exact hdl

theorem Inv.insUnpin {t : Nat} {l d : B} (hc : s.cpc p = .insUnpin t l d)
    {u : St P B} (hs : (s.unpin d).log L.nlog (.commit p) = some u) : Inv L (u.setCpc p (.insRelFrom t l d)) := by
  have hst := h.at hc
  have hpc : s.g.pc p = .install t := hst.pc _ rfl
  have ht : t < s.g.lh.length := hst.iter t rfl
  have hd : Got s p d (s.g.lh.getD t 0) := hst.bufs (d, _) (.tail _ (.head _))
  obtain ⟨g, rfl, hg, hother, hop⟩ := commit_spec hs
  have hpc' : (s.unpin d).g.pc p = .install t := hpc
  have hlh : (s.unpin d).g.lh[t]? = some (s.g.lh.getD t 0) := (getD_mem ht).2
  obtain ⟨hgpin, hglh, hgpc⟩ : g.pin = update s.g.pin (s.g.lh.getD t 0) (s.g.pin (s.g.lh.getD t 0) - 1) ∧
      g.lh = s.g.lh ∧ g.pc p = .install (t + 1) := by
    simp only [Group.commitStep, hpc', hlh, Option.some.injEq] at hg
    subst hg
    exact ⟨rfl, rfl, by simp⟩
  have hpin : 0 < s.g.pin (s.g.lh.getD t 0) := by
    rw [hG.pinTail p t hpc, if_pos]
    · decide
    · rw [List.drop_eq_getElem_cons ht, List.getD_eq_getElem?_getD, List.getElem?_eq_getElem ht]
      exact List.mem_cons_self ..
  have sh : Shape s ({ s.unpin d with g }.setCpc p (.insRelFrom t l d)) := .upd rfl rfl ⟨rfl, rfl, rfl, rfl⟩
  refine h.commit (c := .insRelFrom t l d) hG (by rw [hpc]; trivial)
    ((h.core.unpin hd.1 hpin (hst.copied t rfl) hgpin hglh hop).setCpc _ _) (h.asked.shape sh rfl) rfl ?_ hother rfl rfl
  refine ⟨nofun, fun x hx => by cases hx; exact hgpc, fun t' b ht' hb => ?_, hglh ▸ hst.iter, fun x hx => ?_, nofun⟩
  · exact hst.logged t' b (hglh ▸ ht') (hglh ▸ hb)
  · exact (hst.bufs x (hglh ▸ hx)).shape sh

theorem Inv.done (hc : s.cpc p = .done) {u : St P B} (hs : s.log L.nlog (.commit p) = some u) :
    Inv L (u.setCpc p .idle) := by
  have hst := h.at hc
  have hpc : s.g.pc p = .finish := hst.pc _ rfl
  obtain ⟨g, rfl, hg, hother, hop⟩ := commit_spec hs
  obtain ⟨hpin, hlh, hpc'⟩ : g.pin = s.g.pin ∧ g.lh = s.g.lh ∧ ¬ Group.InCommit (g.pc p) := by
    simp only [Group.commitStep, hpc, Option.some.injEq] at hg
    subst hg
    refine ⟨rfl, rfl, ?_⟩
    rw [Group.inCommit_wakeup, update_self]
    exact id
  exact h.commit (c := .idle) hG (by rw [hpc]; trivial) ((h.core.log hpin (.inl hlh) fun q _ _ _ => hop q).setCpc _ _) h.asked rfl
    (stage_idle hpc') hother rfl rfl

theorem Inv.commitStep [Fintype B] (hio : s.io p = .none)
    (hs : commitStep L s p i = some s') : Inv L s' := by
  have hst := h.stage p
  -- a log block and a home block are two blocks
  have hne : ∀ t, t < s.g.lh.length → L.start + t + 1 ≠ s.g.lh.getD t 0 :=
    fun t ht e => h.core.lhHome _ (getD_mem ht).1 (e ▸ h.core.inLog ht)
  unfold Cache.commitStep at hs
  split at hs <;> rename_i hc <;> rw [hc] at hst
  · cases hs
  · split at hs
    · rename_i ht
      exact h.commit_bget hG hio hc hs nofun rfl (fun _ => rfl) rfl (fun _ e => by cases e; exact ht) rfl
    · rename_i ht
      obtain ⟨u, hu, rfl⟩ := Option.map_eq_some_iff.mp hs
      exact h.logEnd hG hc ht hu
  · exact h.commit_bget hG hio hc hs nofun rfl (fun _ => rfl) rfl hst.iter rfl
  · cases hs
    exact h.logCopy hG hio hc
  · cases hs
    refine h.commit_release hG hio hc (.tail _ (.head _)) nofun rfl (fun _ => le_refl _) (fun y hy => ?_) hst.iter rfl
    cases List.mem_singleton.mp hy
    exact ⟨.head _, hne _ (hst.iter _ rfl)⟩
  · cases hs
    exact h.commit_release hG hio hc (.head _) nofun rfl (fun _ => le_refl _) nofun nofun rfl
  · rename_i erase
    exact h.commit_bget hG hio hc hs nofun rfl (by cases erase <;> exact fun _ => rfl) rfl nofun rfl
  · obtain ⟨u, hu, rfl⟩ := Option.map_eq_some_iff.mp hs
    exact h.headWrite hG hc hu
  · rename_i erase hd
    cases hs
    refine h.commit_release hG hio hc (.head _) nofun ?_ ?_ ?_ ?_ ?_ <;> cases erase
    · rfl
    · rfl
    · exact fun _ => le_refl _
    · exact fun _ => Nat.zero_le _
    all_goals simp [CPc.bufs, CPc.iter, CPc.copied]
  · split at hs
    · rename_i ht
      exact h.commit_bget hG hio hc hs nofun rfl (fun _ => rfl) rfl (fun _ e => by cases e; exact ht) rfl
    · rename_i ht
      obtain ⟨u, hu, rfl⟩ := Option.map_eq_some_iff.mp hs
      exact h.insEnd hG hc ht hu
  · exact h.commit_bget hG hio hc hs nofun rfl (fun _ => rfl) rfl hst.iter rfl
  · cases hs
    exact h.insCopy hG hio hc
  · obtain ⟨u, hu, rfl⟩ := Option.map_eq_some_iff.mp hs
    exact h.insUnpin hG hc hu
  · cases hs
    refine h.commit_release hG hio hc (.head _) nofun rfl (fun _ => le_refl _) (fun y hy => ?_) hst.iter rfl
    cases List.mem_singleton.mp hy
    exact ⟨.tail _ (.head _), (hne _ (hst.iter _ rfl)).symm⟩
  · cases hs
    exact h.commit_release hG hio hc (.head _) nofun rfl (fun _ => le_refl _) nofun nofun rfl
  · obtain ⟨u, hu, rfl⟩ := Option.map_eq_some_iff.mp hs
    exact h.done hG hc hu

end

/-! ## Runs -/

omit [Fintype P] in
/-- Each step of the cache is a step of the log, or leaves the log alone. -/
theorem next_log [Fintype B] {a : Act P B} (hs : next L s a = some s') :
    s'.g = s.g ∨ ∃ k, Group.next L.nlog s.g k = some s'.g := by
  have hlog : ∀ {t t' : St P B} {k : Group.Act P}, t.log L.nlog k = some t' → Group.next L.nlog t.g k = some t'.g := by
    intro t t' k ht
    obtain ⟨g, hg, rfl⟩ := Option.map_eq_some_iff.mp ht
    exact hg
  unfold next at hs
  obtain ⟨-, hs⟩ := ite_none_left_eq_some.mp hs
  cases a with
  | call p => exact .inr ⟨_, hlog (ite_none_right_eq_some.mp hs).2⟩
  | begin p => exact .inr ⟨_, hlog hs⟩
  | kill p => exact .inr ⟨_, hlog hs⟩
  | endOp p =>
    obtain ⟨g, hg, rfl⟩ := Option.map_eq_some_iff.mp (ite_none_right_eq_some.mp hs).2
    refine .inr ⟨_, hg.trans ?_⟩
    split <;> rfl
  | bread p b i => exact .inl (bget_same (ite_none_right_eq_some.mp hs).2).1
  | modify p i data =>
    obtain ⟨-, ⟨⟩⟩ := ite_none_right_eq_some.mp hs
    exact .inl rfl
  | logWrite p i =>
    obtain ⟨g, hg, rfl⟩ := Option.map_eq_some_iff.mp (ite_none_right_eq_some.mp hs).2
    refine .inr ⟨_, hg.trans ?_⟩
    split <;> rfl
  | brelse p i =>
    obtain ⟨-, ⟨⟩⟩ := ite_none_right_eq_some.mp hs
    exact .inl rfl
  | io p => exact .inl (ioStep_same hs).1
  | commit p i =>
    obtain ⟨-, hs⟩ := ite_none_right_eq_some.mp hs
    unfold Cache.commitStep at hs
    repeat' split at hs
    all_goals first
      | (cases hs; done)
      | (cases hs; exact .inl rfl)
      | (obtain ⟨u, hu, rfl⟩ := Option.map_eq_some_iff.mp hs
         first
           | exact .inl (bget_same hu).1
           | (have hg := hlog hu
              exact .inr ⟨_, hg⟩))

omit [Fintype P] in
theorem sim [Fintype B] : Sim (sys P B L) (Group.sys P L.nlog) St.g where
  init _ h := h.g
  step _ _ _ _ _ h := next_log h

theorem Inv.next [Fintype B] {a : Act P B} (h : Inv L s) (hG : Group.Inv s.g) (hG' : Group.Inv s'.g)
    (hs : next L s a = some s') : Inv L s' := by
  unfold Cache.next at hs
  obtain ⟨-, hs⟩ := ite_none_left_eq_some.mp hs
  have hquiet : ∀ {p : P} {k : Group.Act P}, k = .call p ∨ k = .begin p ∨ k = .kill p → s.log L.nlog k = some s' → Inv L s' := by
    intro p k hk hs
    obtain ⟨g, hg, rfl⟩ := Option.map_eq_some_iff.mp hs
    obtain ⟨hq, hop, hp⟩ := quiet_next hg hk
    exact h.quiet hq hp fun _ _ _ e => absurd e hop
  cases a with
  | call p => exact hquiet (.inl rfl) (ite_none_right_eq_some.mp hs).2
  | begin p => exact hquiet (.inr (.inl rfl)) hs
  | kill p => exact hquiet (.inr (.inr rfl)) hs
  | endOp p =>
    obtain ⟨hg, hs⟩ := ite_none_right_eq_some.mp hs
    exact h.endOp hG' hg.2 hs
  | bread p b i =>
    obtain ⟨hg, hs⟩ := ite_none_right_eq_some.mp hs
    exact h.bget hg.1 hs
  | modify p i data =>
    obtain ⟨hg, ⟨⟩⟩ := ite_none_right_eq_some.mp hs
    exact h.modify hg.1 hg.2.1 hg.2.2.1 hg.2.2.2 data
  | logWrite p i =>
    obtain ⟨hg, hs⟩ := ite_none_right_eq_some.mp hs
    exact h.logWrite hG hg.1 hg.2.1 hg.2.2 hs
  | brelse p i =>
    obtain ⟨hg, ⟨⟩⟩ := ite_none_right_eq_some.mp hs
    exact h.brelse hg.1 hg.2.1 hg.2.2.1 hg.2.2.2
  | io p => exact h.ioStep hs
  | commit p i =>
    obtain ⟨hg, hs⟩ := ite_none_right_eq_some.mp hs
    exact h.commitStep hG hg hs

theorem group_inv [Fintype B] (h : (sys P B L).Reach s) : Group.Inv s.g := Group.inv (sim.reach h)

theorem inv [Fintype B] (h : (sys P B L).Reach s) : Inv L s :=
  Sys.invariant (I := Inv L) (fun _ h => Init.inv h)
    (fun _ _ _ hr hi hs => hi.next (group_inv hr) (group_inv (.step hr hs)) hs) h

end Steps

end Xv6.Cache
