/-
  Xv6.Cache.Core — the buffer cache's invariant (see `Xv6.Cache.Model`): which buffer
  stands for which block, who refers to it, and what is in it.
-/

import Xv6.Cache.Model
import Xv6.Log.GroupProofs
import Mathlib.Algebra.Order.BigOperators.Group.Finset


namespace Xv6.Cache

open Log Lib
open Function (update update_self update_of_ne)

variable {P B : Type} [DecidableEq P] [DecidableEq B]

/-! ## References -/

/-- The reference to `i` that a process in `bread` or `brelse` has beside its locks. -/
def Io.ref (i : B) : Io B → Nat
  | .lock j | .drop j => if j = i then 1 else 0
  | _ => 0

def Buf.lockRef (x : Buf P) : Nat := if x.lock = none then 0 else 1

/-- How often `bpin` has been called for the buffer's block, less `bunpin`. -/
def St.pins (s : St P B) (x : Buf P) : Nat := if x.dev = ROOTDEV then s.g.pin x.blockno else 0

def St.refs [Fintype P] (s : St P B) (i : B) : Nat := (s.buf i).lockRef + ∑ p, (s.io p).ref i

section SetBuf

omit [DecidableEq P]
variable (s : St P B) (i : B) (x : Buf P)

@[simp] theorem setBuf_buf : (s.setBuf i x).buf = update s.buf i x := rfl
@[simp] theorem setBuf_io : (s.setBuf i x).io = s.io := rfl
@[simp] theorem setBuf_g : (s.setBuf i x).g = s.g := rfl

end SetBuf

section SetIo

omit [DecidableEq B]
variable (s : St P B) (p : P) (y : Io B)

@[simp] theorem setIo_buf : (s.setIo p y).buf = s.buf := rfl
@[simp] theorem setIo_io : (s.setIo p y).io = update s.io p y := rfl
@[simp] theorem setIo_g : (s.setIo p y).g = s.g := rfl

end SetIo

/-! ## The invariant -/

variable (L : Geom)

structure Core [Fintype P] (s : St P B) : Prop where
  uniq : ∀ i j b, s.Caches i b → s.Caches j b → i = j
  refcnt : ∀ i, (s.buf i).refcnt = s.refs i + s.pins (s.buf i)
  dev : ∀ i, 0 < (s.buf i).refcnt → (s.buf i).dev = ROOTDEV
  pinned : ∀ b, 0 < s.g.pin b → ∃ i, s.Caches i b ∧ (s.buf i).valid = true
  reading : ∀ p i, s.io p = .read i → (s.buf i).lock = some p
  held : ∀ p i, (s.buf i).lock = some p → s.io p = .read i ∨ (s.buf i).valid = true
  dirty : ∀ i, (s.buf i).dirty = true →
    (s.buf i).valid = true ∧ ∃ p, (s.buf i).lock = some p ∧ s.g.pc p = .op ∧ s.io p ≠ .read i
  /-- A buffer has what was last logged for its block. -/
  data : ∀ i b, s.Caches i b → (s.buf i).valid = true → ¬ L.InLog b → (s.buf i).dirty = false → (s.buf i).data = s.last b
  /-- So does the disk, for a block that is not pinned. -/
  home : ∀ b, ¬ L.InLog b → s.g.pin b = 0 → s.disk b = s.last b
  logData : ∀ i b, s.Caches i b → (s.buf i).valid = true → L.InLog b → (s.buf i).data = s.disk b
  lhHome : ∀ b ∈ s.g.lh, ¬ L.InLog b
  lhFits : s.g.lh.length ≤ L.nlog - 1

variable {L} [Fintype P] {s : St P B} {p : P} {i : B}

section References

omit [DecidableEq P]

theorem Core.init {s : St P B} (h : Init s) : Core L s where
  uniq := h.uniq
  refcnt i := by
    have hb := h.buf i
    simp [St.refs, Buf.lockRef, hb.1, hb.2.1, h.io, Io.ref, St.pins, h.g, Group.init]
  dev i hi := by simp [(h.buf i).1] at hi
  pinned b hb := by simp [h.g, Group.init] at hb
  reading p i hp := by simp [h.io] at hp
  held p i hp := by simp [(h.buf i).2.1] at hp
  dirty i hi := by simp [(h.buf i).2.2] at hi
  data i b hc hv _ _ := by rw [h.last]; exact h.valid i b hc hv
  home b _ _ := by rw [h.last]
  logData i b hc hv _ := h.valid i b hc hv
  lhHome b hb := by simp [h.g, Group.init] at hb
  lhFits := by simp [h.g, Group.init]

theorem St.ref_le_refs (s : St P B) (p : P) (i : B) : (s.io p).ref i ≤ s.refs i := by
  have := Finset.single_le_sum (f := fun p => (s.io p).ref i) (fun _ _ => Nat.zero_le _) (Finset.mem_univ p)
  unfold St.refs
  exact Nat.le_add_left_of_le this

theorem Core.refcnt_pos (h : Core L s) (hr : s.io p = .lock i ∨ s.io p = .drop i ∨ (s.buf i).lock ≠ none) :
    0 < (s.buf i).refcnt := by
  have hle := s.ref_le_refs p i
  rw [h.refcnt i]
  rcases hr with hr | hr | hr
  · simp only [hr, Io.ref, if_true] at hle; omega
  · simp only [hr, Io.ref, if_true] at hle; omega
  · simp only [St.refs, Buf.lockRef, if_neg hr]; omega

theorem Core.refcnt_pos_of_pin (h : Core L s) {b : Nat} (hc : s.Caches i b) (hb : 0 < s.g.pin b) : 0 < (s.buf i).refcnt := by
  rw [h.refcnt i]
  simp only [St.pins, hc.1, hc.2, if_true]
  omega

theorem Core.unpinned_of_not_valid (h : Core L s) {b : Nat} (hc : s.Caches i b) (hv : (s.buf i).valid = false) :
    s.g.pin b = 0 := by
  by_contra hb
  obtain ⟨j, hj, hv'⟩ := h.pinned b (Nat.pos_of_ne_zero hb)
  rw [h.uniq j i b hj hc, hv] at hv'
  cases hv'

theorem Core.free (h : Core L s) (hr : (s.buf i).refcnt = 0) :
    (s.buf i).lock = none ∧ s.pins (s.buf i) = 0 ∧ ∀ q, (s.io q).ref i = 0 := by
  have hi := h.refcnt i
  rw [hr] at hi
  unfold St.refs at hi
  refine ⟨?_, by omega, fun q => ?_⟩
  · by_contra hl
    simp only [Buf.lockRef, if_neg hl] at hi
    omega
  · have := s.ref_le_refs q i
    unfold St.refs at this
    omega

end References

/-! ## Steps on one buffer -/

theorem refcnt_upd {s' : St P B} {x : Buf P} {y : Io B} (h : Core L s) (hb : s'.buf = update s.buf i x)
    (hio : s'.io = update s.io p y) (hp : ∀ j, j ≠ i → s'.pins (s.buf j) = s.pins (s.buf j))
    (href : ∀ j, j ≠ i → y.ref j = (s.io p).ref j)
    (hi : x.refcnt + (s.buf i).lockRef + (s.io p).ref i + s.pins (s.buf i) =
      (s.buf i).refcnt + x.lockRef + y.ref i + s'.pins x) (j : B) :
    (s'.buf j).refcnt = s'.refs j + s'.pins (s'.buf j) := by
  have hsum := sum_update (fun y : Io B => y.ref j) s.io p y
  have hj := h.refcnt j
  rw [← hio] at hsum
  unfold St.refs at hj ⊢
  rw [hb]
  revert hj hsum
  refine update_ind j (fun hsum hj => ?_) fun j e hsum hj => ?_
  · omega
  · have := href j e
    rw [hp j e]
    omega

/-- A step of `p` on buffer `i`, which goes on standing for its block. -/
structure Touch (s : St P B) (p : P) (i : B) (x : Buf P) (y : Io B) : Prop where
  key : x.dev = (s.buf i).dev ∧ x.blockno = (s.buf i).blockno
  ref : ∀ j, j ≠ i → y.ref j = (s.io p).ref j
  cnt : x.refcnt + (s.buf i).lockRef + (s.io p).ref i = (s.buf i).refcnt + x.lockRef + y.ref i
  dev : 0 < x.refcnt → 0 < (s.buf i).refcnt ∨ x.dev = ROOTDEV
  data : x.valid = (s.buf i).valid ∧ x.data = (s.buf i).data ∨
    (s.buf i).valid = false ∧ x.valid = true ∧ x.data = s.disk x.blockno
  lock : x.lock = (s.buf i).lock ∨ ((s.buf i).lock = none ∧ x.lock = some p) ∨ ((s.buf i).lock = some p ∧ x.lock = none)
  dirty : x.dirty = (s.buf i).dirty ∧ (x.dirty = true → x.lock = (s.buf i).lock ∧ y ≠ .read i)
  reading : ∀ j, y = .read j → j = i ∧ x.lock = some p
  held : x.lock = some p → y = .read i ∨ x.valid = true
  other : ∀ j, s.io p = .read j → j = i

omit [DecidableEq P] [Fintype P] in
theorem Touch.valid {x : Buf P} {y : Io B} (t : Touch s p i x y) (hv : (s.buf i).valid = true) : x.valid = true :=
  t.data.elim (fun hd => hd.1.trans hv) fun hd => hd.2.1

omit [DecidableEq P] [Fintype P] in
theorem caches_upd {t : St P B} {x : Buf P} (hb : t.buf = update s.buf i x)
    (hk : x.dev = (s.buf i).dev ∧ x.blockno = (s.buf i).blockno) (j : B) (b : Nat) : t.Caches j b ↔ s.Caches j b := by
  rw [St.Caches, hb]
  exact update_ind j (by rw [hk.1, hk.2]; rfl) fun _ _ => Iff.rfl

theorem Core.touch (h : Core L s) {x : Buf P} {y : Io B} (t : Touch s p i x y) : Core L ((s.setBuf i x).setIo p y) := by
  have hc := caches_upd (t := (s.setBuf i x).setIo p y) rfl t.key
  have hpins : s.pins x = s.pins (s.buf i) := by unfold St.pins; rw [t.key.1, t.key.2]
  refine ⟨fun j k b => ?_, refcnt_upd h rfl rfl (fun _ _ => rfl) t.ref ?_, fun j => ?_, fun b hb => ?_, fun q j => ?_,
    fun q j => ?_, fun j => ?_, fun j b => ?_, h.home, fun j b => ?_, h.lhHome, h.lhFits⟩
  · rw [hc, hc]; exact h.uniq j k b
  · have := t.cnt
    have : ((s.setBuf i x).setIo p y).pins x = s.pins x := rfl
    omega
  · rw [setIo_buf, setBuf_buf]
    exact update_ind j (fun hx => (t.dev hx).elim (fun hr => t.key.1.trans (h.dev i hr)) id) fun j _ => h.dev j
  · obtain ⟨j, hj, hv⟩ := h.pinned b hb
    refine ⟨j, (hc j b).mpr hj, ?_⟩
    rw [setIo_buf, setBuf_buf]
    exact update_ind (motive := fun j (z : Buf P) => (s.buf j).valid = true → z.valid = true) j t.valid (fun _ _ => id) hv
  · rw [setIo_io, setIo_buf, setBuf_buf, setBuf_io]
    refine update_ind q (fun hq => ?_) fun q e hq => ?_
    · obtain ⟨rfl, hx⟩ := t.reading j hq
      rw [update_self, hx]
    · have hl := h.reading q j hq
      revert hl
      refine update_ind j (fun hl => ?_) fun j _ => id
      rcases t.lock with ht | ht | ht
      · rw [ht, hl]
      · simp [ht.1] at hl
      · exact absurd (Option.some.inj (ht.1.symm.trans hl)) (Ne.symm e)
  · rw [setIo_io, setIo_buf, setBuf_buf, setBuf_io]
    refine update_ind j ?_ fun j e' hl => ?_
    · refine update_ind q t.held fun q e hl => ?_
      rcases t.lock with ht | ht | ht
      · exact (h.held q i (ht ▸ hl)).imp_right t.valid
      · exact absurd (Option.some.inj (ht.2.symm.trans hl)) (Ne.symm e)
      · simp [ht.2] at hl
    · refine (h.held q j hl).imp_left ?_
      exact update_ind q (fun hr => absurd (t.other j hr) e') fun _ _ => id
  · rw [setIo_io, setIo_buf, setBuf_buf, setBuf_io]
    refine update_ind j (fun hd => ?_) fun j e hd => ?_
    · obtain ⟨hv, q, hq, hop, hr⟩ := h.dirty i (t.dirty.1 ▸ hd)
      exact ⟨t.valid hv, q, by rw [(t.dirty.2 hd).1, hq], hop, update_ind q (fun _ => (t.dirty.2 hd).2) (fun _ _ => id) hr⟩
    · obtain ⟨hv, q, hq, hop, hr⟩ := h.dirty j hd
      exact ⟨hv, q, hq, hop, update_ind q (fun _ hy => e (t.reading j hy).1) (fun _ _ => id) hr⟩
  · rw [hc, setIo_buf, setBuf_buf]
    refine update_ind j (fun hj hv hL hd => ?_) fun j _ => h.data j b
    rcases t.data with ht | ht
    · rw [ht.2]; exact h.data i b hj (ht.1 ▸ hv) hL (t.dirty.1 ▸ hd)
    · rw [ht.2.2, t.key.2, hj.2]
      exact h.home b hL (h.unpinned_of_not_valid hj ht.1)
  · rw [hc, setIo_buf, setBuf_buf]
    refine update_ind j (fun hj hv hL => ?_) fun j _ => h.logData j b
    rcases t.data with ht | ht
    · rw [ht.2]; exact h.logData i b hj (ht.1 ▸ hv) hL
    · rw [ht.2.2, t.key.2, hj.2]; rfl

/-! ## What processes do to buffers -/

variable {s' : St P B}

theorem Core.ioStep (h : Core L s) (hs : s.ioStep p = some s') : Core L s' := by
  unfold St.ioStep at hs
  split at hs <;> rename_i hp
  · cases hs
  · rename_i i
    split at hs
    · rename_i hl
      cases hs
      refine h.touch ⟨⟨rfl, rfl⟩, fun j hj => ?_, ?_, fun hr => .inl hr, .inl ⟨rfl, rfl⟩, .inr (.inl ⟨hl, rfl⟩),
        ⟨rfl, fun hd => ?_⟩,
        fun j hj => ?_, fun _ => .inl rfl, fun j hj => ?_⟩
      · simp [hp, Io.ref, Ne.symm hj]
      · simp [hp, Io.ref, Buf.lockRef, hl]
      · obtain ⟨-, q, hq, -⟩ := h.dirty i hd
        simp [hl] at hq
      · cases hj; exact ⟨rfl, rfl⟩
      · simp [hp] at hj
    · cases hs
  · rename_i i
    have hl := h.reading p i hp
    cases hs
    refine h.touch ⟨?_, fun j hj => ?_, ?_, fun _ => .inl (h.refcnt_pos (p := p) (by simp [hl])), ?_, .inl ?_, ?_,
      nofun, fun _ => .inr ?_, fun j hj => ?_⟩
    · split <;> exact ⟨rfl, rfl⟩
    · simp [hp, Io.ref]
    · split <;> simp [hp, Io.ref, Buf.lockRef]
    · split
      · exact .inl ⟨rfl, rfl⟩
      · exact .inr ⟨by simpa using ‹¬ (s.buf i).valid = true›, rfl, rfl⟩
    · split <;> rfl
    · split <;> exact ⟨rfl, fun _ => ⟨rfl, nofun⟩⟩
    · split
      · assumption
      · rfl
    · rw [hp] at hj; cases hj; rfl
  · rename_i i
    have hr := h.refcnt_pos (.inr (.inl hp))
    cases hs
    refine h.touch ⟨⟨rfl, rfl⟩, fun j hj => ?_, ?_, fun _ => .inl hr, .inl ⟨rfl, rfl⟩, .inl rfl, ⟨rfl, fun _ => ⟨rfl, nofun⟩⟩,
      nofun, fun hl => .inr ?_, fun j hj => ?_⟩
    · simp [hp, Io.ref, Ne.symm hj]
    · simp only [hp, Io.ref, if_true, Buf.lockRef]; omega
    · exact (h.held p i hl).resolve_left (by simp [hp])
    · simp [hp] at hj

theorem Core.release (h : Core L s) (hio : s.io p = .none) (hl : (s.buf i).lock = some p) (hd : (s.buf i).dirty = false) :
    Core L (s.release p i) := by
  refine h.touch ⟨⟨rfl, rfl⟩, fun j hj => ?_, ?_, fun hr => .inl hr, .inl ⟨rfl, rfl⟩, .inr (.inr ⟨hl, rfl⟩),
    ⟨rfl, fun hd' => absurd hd' (by simp [hd])⟩, nofun, nofun, fun j hj => ?_⟩
  · simp [hio, Io.ref, Ne.symm hj]
  · simp [hio, Io.ref, Buf.lockRef, hl]
  · simp [hio] at hj

theorem Core.evict (h : Core L s) (hio : s.io p = .none) {b : Nat} (hb : ¬ ∃ j, s.Caches j b) (hr : (s.buf i).refcnt = 0) :
    Core L ((s.setBuf i { s.buf i with
      dev := ROOTDEV, blockno := b, valid := false, refcnt := 1, dirty := false }).setIo p (.lock i)) := by
  obtain ⟨hl, hpin, href⟩ := h.free hr
  have hpb : s.g.pin b = 0 := by
    by_contra hc
    obtain ⟨j, hj, -⟩ := h.pinned b (Nat.pos_of_ne_zero hc)
    exact hb ⟨j, hj⟩
  refine ⟨?_, refcnt_upd h rfl rfl (fun _ _ => rfl) (fun j hj => ?_) ?_, fun j => ?_, fun b' hb' => ?_,
    fun q j => ?_, fun q j hq => ?_, fun j => ?_, fun j b' => ?_, h.home, fun j b' => ?_, h.lhHome, h.lhFits⟩
  · exact update_unique (fun (z : Buf P) b' => z.dev = ROOTDEV ∧ z.blockno = b') h.uniq fun j _ b' hj ha =>
      hb ⟨j, hj.1, hj.2.trans ha.2.symm⟩
  · simp [hio, Io.ref, Ne.symm hj]
  · simp only [hio, Io.ref, hpin, hr, Buf.lockRef, hl, if_true]
    simp [St.pins, hpb]
  · rw [setIo_buf, setBuf_buf]
    exact update_ind j (fun _ => rfl) fun j _ => h.dev j
  · obtain ⟨j, hj, hv⟩ := h.pinned b' hb'
    have e : j ≠ i := by
      rintro rfl
      have := h.refcnt_pos_of_pin hj hb'
      omega
    exact ⟨j, by simpa [St.Caches, update_of_ne e] using hj, by simpa [update_of_ne e] using hv⟩
  · rw [setIo_io]
    refine update_ind q nofun fun q _ hq => ?_
    have hlj := h.reading q j hq
    have e' : j ≠ i := by
      rintro rfl
      simp [hl] at hlj
    simpa [update_of_ne e'] using hlj
  · have e' : j ≠ i := by
      rintro rfl
      simp [hl] at hq
    simp only [setIo_buf, setBuf_buf, setIo_io, setBuf_io, update_of_ne e'] at hq ⊢
    refine (h.held q j hq).imp_left ?_
    exact update_ind q (fun hr => nomatch hio.symm.trans hr) fun _ _ => id
  · rw [setIo_buf, setBuf_buf, setIo_io]
    refine update_ind j nofun fun j _ hd => ?_
    obtain ⟨hv, q, hq, hop, hr⟩ := h.dirty j hd
    exact ⟨hv, q, hq, hop, update_ind q nofun (fun _ _ => id) hr⟩
  · rw [St.Caches, setIo_buf, setBuf_buf]
    exact update_ind j (fun _ => nofun) fun j _ => h.data j b'
  · rw [St.Caches, setIo_buf, setBuf_buf]
    exact update_ind j (fun _ => nofun) fun j _ => h.logData j b'

theorem Core.setArg (h : Core L s) (b : Nat) : Core L (s.setArg p b) :=
  ⟨h.uniq, h.refcnt, h.dev, h.pinned, h.reading, h.held, h.dirty, h.data, h.home, h.logData, h.lhHome, h.lhFits⟩

theorem Core.bget [Fintype B] (h : Core L s) (hio : s.io p = .none) {b : Nat} (hs : s.bget p b i = some s') : Core L s' := by
  unfold St.bget at hs
  split at hs
  · split at hs
    · rename_i hc
      cases hs
      apply Core.setArg
      refine h.touch ⟨⟨rfl, rfl⟩, fun j hj => ?_, ?_, fun _ => .inr hc.1, .inl ⟨rfl, rfl⟩, .inl rfl, ⟨rfl, fun _ => ⟨rfl, nofun⟩⟩,
        nofun, fun hl => .inr ?_, fun j hj => ?_⟩
      · simp [hio, Io.ref, Ne.symm hj]
      · simp only [hio, Io.ref, if_true, Buf.lockRef]; omega
      · exact (h.held p i hl).resolve_left (by simp [hio])
      · simp [hio] at hj
    · cases hs
  · rename_i hb
    split at hs
    · rename_i hr
      cases hs
      exact (h.evict hio hb hr).setArg b
    · cases hs

section Shape

omit [DecidableEq P]

/-- The buffers still stand for the same blocks, with the same locks. -/
structure Shape (s s' : St P B) : Prop where
  io : s'.io = s.io
  buf : ∀ j, (s'.buf j).dev = (s.buf j).dev ∧ (s'.buf j).blockno = (s.buf j).blockno ∧
    (s'.buf j).valid = (s.buf j).valid ∧ (s'.buf j).lock = (s.buf j).lock

omit [Fintype P] in
theorem Shape.upd {x : Buf P} (hb : s'.buf = update s.buf i x) (hio : s'.io = s.io)
    (hx : x.dev = (s.buf i).dev ∧ x.blockno = (s.buf i).blockno ∧ x.valid = (s.buf i).valid ∧ x.lock = (s.buf i).lock) :
    Shape s s' := by
  refine ⟨hio, fun j => ?_⟩
  rw [hb]
  exact update_ind j hx fun _ _ => ⟨rfl, rfl, rfl, rfl⟩

omit [DecidableEq B] [Fintype P] in
theorem Shape.caches (sh : Shape s s') (j : B) (b : Nat) : s'.Caches j b ↔ s.Caches j b := by
  unfold St.Caches
  rw [(sh.buf j).1, (sh.buf j).2.1]

theorem Shape.refs (sh : Shape s s') (j : B) : s'.refs j = s.refs j := by
  unfold St.refs Buf.lockRef
  rw [(sh.buf j).2.2.2, sh.io]

theorem Core.upd (h : Core L s) {x : Buf P} {b : Nat} (hc : s.Caches i b) (hb : s'.buf = update s.buf i x) (hio : s'.io = s.io)
    (key : x.dev = (s.buf i).dev ∧ x.blockno = (s.buf i).blockno ∧ x.valid = (s.buf i).valid ∧ x.lock = (s.buf i).lock)
    (other : ∀ b', b' ≠ b → s'.g.pin b' = s.g.pin b' ∧ s'.last b' = s.last b' ∧ s'.disk b' = s.disk b')
    (op : ∀ q, s.g.pc q = .op → s'.g.pc q = .op) (cnt : x.refcnt + s.g.pin b = (s.buf i).refcnt + s'.g.pin b)
    (pinned : 0 < s'.g.pin b → 0 < s.g.pin b ∨ (s.buf i).valid = true)
    (dirty : x.dirty = true → (s.buf i).valid = true ∧ ∃ q, (s.buf i).lock = some q ∧ s'.g.pc q = .op ∧ s.io q ≠ .read i)
    (data : (s.buf i).valid = true → ¬ L.InLog b → x.dirty = false → x.data = s'.last b)
    (home : ¬ L.InLog b → s'.g.pin b = 0 → s'.disk b = s'.last b)
    (logData : (s.buf i).valid = true → L.InLog b → x.data = s'.disk b)
    (lhHome : ∀ b ∈ s'.g.lh, ¬ L.InLog b) (lhFits : s'.g.lh.length ≤ L.nlog - 1) : Core L s' := by
  have sh : Shape s s' := .upd hb hio key
  have hval : ∀ j, (s'.buf j).valid = (s.buf j).valid := fun j => (sh.buf j).2.2.1
  have hlock : ∀ j, (s'.buf j).lock = (s.buf j).lock := fun j => (sh.buf j).2.2.2
  have hne : ∀ j, j ≠ i → ∀ b', s.Caches j b' → b' ≠ b := fun j e b' hj e' => e (h.uniq j i b' hj (e' ▸ hc))
  refine ⟨fun j k b' => ?_, fun j => ?_, fun j => ?_, fun b' hb' => ?_, fun q j => ?_, fun q j => ?_, fun j => ?_,
    fun j b' => ?_, fun b' hL hp => ?_, fun j b' => ?_, lhHome, lhFits⟩
  · rw [sh.caches, sh.caches]; exact h.uniq j k b'
  · have hr := h.refcnt j
    rw [sh.refs, hb]
    revert hr
    refine update_ind j (fun hr => ?_) fun j e hr => ?_
    · simp only [St.pins, key.1, key.2.1, hc.1, hc.2, if_true] at hr ⊢
      omega
    · rw [hr, St.pins, St.pins]
      split
      · rename_i hd
        rw [(other _ (hne j e _ ⟨hd, rfl⟩)).1]
      · rfl
  · rw [hb]
    exact update_ind j (fun _ => key.1.trans hc.1) fun j _ => h.dev j
  · obtain ⟨j, hj, hv⟩ : ∃ j, s.Caches j b' ∧ (s.buf j).valid = true := by
      by_cases e : b' = b
      · subst e
        exact (pinned hb').elim (h.pinned b') fun hv => ⟨i, hc, hv⟩
      · exact h.pinned b' ((other b' e).1 ▸ hb')
    exact ⟨j, (sh.caches j b').mpr hj, (hval j).trans hv⟩
  · rw [hio, hlock]; exact h.reading q j
  · rw [hio, hlock, hval]; exact h.held q j
  · rw [hio, hlock, hval, hb]
    refine update_ind j dirty fun j _ hd => ?_
    obtain ⟨hv, q, hq, hopq, hr⟩ := h.dirty j hd
    exact ⟨hv, q, hq, op q hopq, hr⟩
  · rw [sh.caches, hval, hb]
    refine update_ind j (fun hj => ?_) fun j e hj hv hL hd => ?_
    · rw [← hj.2, hc.2]; exact data
    · rw [(other b' (hne j e b' hj)).2.1]
      exact h.data j b' hj hv hL hd
  · by_cases e : b' = b
    · subst e; exact home hL hp
    · obtain ⟨h1, h2, h3⟩ := other b' e
      rw [h2, h3]
      exact h.home b' hL (h1 ▸ hp)
  · rw [sh.caches, hval, hb]
    refine update_ind j (fun hj => ?_) fun j e hj hv hL => ?_
    · rw [← hj.2, hc.2]; exact logData
    · rw [(other b' (hne j e b' hj)).2.2]
      exact h.logData j b' hj hv hL

theorem Core.caches_of_lock (h : Core L s) (hl : (s.buf i).lock = some p) : s.Caches i (s.buf i).blockno :=
  ⟨h.dev i (h.refcnt_pos (p := p) (by simp [hl])), rfl⟩

theorem Core.modify (h : Core L s) (hio : s.io p = .none) (hop : s.g.pc p = .op) (hl : (s.buf i).lock = some p)
    (hL : ¬ L.InLog (s.buf i).blockno) (data : Block) : Core L (s.setBuf i { s.buf i with data, dirty := true }) :=
  h.upd (h.caches_of_lock hl) rfl rfl ⟨rfl, rfl, rfl, rfl⟩ (fun _ _ => ⟨rfl, rfl, rfl⟩) (fun _ => id) rfl .inl
    (fun _ => ⟨(h.held p i hl).resolve_left (by simp [hio]), p, hl, hop, by simp [hio]⟩) nofun (h.home _)
    (fun _ hL' => absurd hL' hL) h.lhHome h.lhFits

theorem Core.bwrite (h : Core L s) {b : Nat} (hc : s.Caches i b) {data : Block} (hd : ¬ L.InLog b → data = s.last b) :
    Core L (s.bwrite i data) := by
  have hdisk : (s.bwrite i data).disk = update s.disk b data := by rw [St.bwrite, hc.2]
  refine h.upd hc rfl rfl ⟨rfl, rfl, rfl, rfl⟩ (fun b' e => ⟨rfl, rfl, ?_⟩) (fun _ => id) rfl .inl (h.dirty i)
    (fun _ hL _ => hd hL) (fun hL _ => ?_) (fun _ _ => ?_) h.lhHome h.lhFits
  · rw [hdisk, update_of_ne e]
  · rw [hdisk, update_self]; exact hd hL
  · rw [hdisk, update_self]

theorem Core.log (h : Core L s) {g : Group.St P} (hpin : g.pin = s.g.pin) (hlh : g.lh = s.g.lh ∨ g.lh = [])
    (hop : ∀ q i, (s.buf i).lock = some q → (s.buf i).dirty = true → s.g.pc q = .op → g.pc q = .op) :
    Core L { s with g } where
  uniq := h.uniq
  refcnt i := by
    have := h.refcnt i
    simpa [St.refs, St.pins, hpin] using this
  dev := h.dev
  pinned b := by
    simp only [hpin]; exact h.pinned b
  reading := h.reading
  held := h.held
  dirty i hi := by
    obtain ⟨hv, q, hq, hop', hr⟩ := h.dirty i hi
    exact ⟨hv, q, hq, hop q i hq hi hop', hr⟩
  data := h.data
  home b := by
    simp only [hpin]; exact h.home b
  logData := h.logData
  lhHome b hb := by
    rcases hlh with e | e
    · exact h.lhHome b (e ▸ hb)
    · simp [e] at hb
  lhFits := by
    rcases hlh with e | e
    · simpa only [e] using h.lhFits
    · simp [e]

theorem Core.unpin (h : Core L s) {b : Nat} (hc : s.Caches i b) (hb : 0 < s.g.pin b) (hd : s.disk b = s.last b)
    {g : Group.St P} (hpin : g.pin = update s.g.pin b (s.g.pin b - 1)) (hlh : g.lh = s.g.lh)
    (hop : ∀ q, s.g.pc q = .op → g.pc q = .op) : Core L { s.unpin i with g } := by
  have hr := h.refcnt_pos_of_pin hc hb
  refine h.upd hc rfl rfl ⟨rfl, rfl, rfl, rfl⟩ (fun b' e => ⟨?_, rfl, rfl⟩) hop ?_ (fun _ => .inl hb) (fun hdi => ?_)
    (fun hv hL hdi => h.data i b hc hv hL hdi) (fun _ _ => hd) (fun hv hL => h.logData i b hc hv hL) (hlh ▸ h.lhHome)
    (hlh ▸ h.lhFits)
  · rw [show _ = g.pin b' from rfl, hpin, update_of_ne e]
  · dsimp only
    rw [hpin, update_self]
    omega
  · obtain ⟨hv, q, hq, hopq, hio⟩ := h.dirty i hdi
    exact ⟨hv, q, hq, hop q hopq, hio⟩

end Shape

omit [Fintype P] in
theorem logWrite_spec {size : Nat} {g g' : Group.St P} {b : Nat} (h : Group.next size g (.logWrite p b) = some g')
    (hn : g'.panicked = none) : g.pc p = .op ∧ g'.pc = g.pc ∧
      (b ∈ g.lh ∧ g'.lh = g.lh ∧ g'.pin = g.pin ∨
        b ∉ g.lh ∧ g'.lh = g.lh ++ [b] ∧ g'.pin = update g.pin b (g.pin b + 1) ∧ g.lh.length < size - 1) := by
  obtain ⟨-, hp, rfl⟩ := Group.next_cases h
  refine ⟨hp, ?_⟩
  unfold Group.logWrite at hn ⊢
  split at hn
  · cases hn
  · rename_i h1
    rw [if_neg h1]
    split at hn
    · cases hn
    · rename_i h2
      rw [if_neg h2]
      dsimp only
      split
      · exact ⟨rfl, .inl ⟨‹_›, rfl, rfl⟩⟩
      · exact ⟨rfl, .inr ⟨‹_›, rfl, rfl, by omega⟩⟩

theorem Core.logWrite (h : Core L s) (hG : Group.Inv s.g) (hio : s.io p = .none) (hl : (s.buf i).lock = some p)
    (hL : ¬ L.InLog (s.buf i).blockno) (hs : logWrite L s p i = some s') (hn : s'.g.panicked = none) : Core L s' := by
  obtain ⟨g, hg, rfl⟩ := Option.map_eq_some_iff.mp hs
  have hn : g.panicked = none := by
    split at hn
    · assumption
    · exact hn
  obtain ⟨hop, hpc, hcase⟩ := logWrite_spec hg hn
  rw [if_pos hn]
  have hv : (s.buf i).valid = true := (h.held p i hl).resolve_left (by simp [hio])
  have hpin : ∀ b', b' ≠ (s.buf i).blockno → g.pin b' = s.g.pin b' := by
    intro b' e
    rcases hcase with ⟨-, -, hp⟩ | ⟨-, -, hp, -⟩
    · rw [hp]
    · rw [hp, update_of_ne e]
  have hpos : 0 < g.pin (s.buf i).blockno := by
    rcases hcase with ⟨hm, -, hp⟩ | ⟨-, -, hp, -⟩
    · -- the block is in the header, and nobody installs while an operation is running
      have hP := hG.pinned (fun q t hq => hG.not_inCommit (hG.not_committing hop) q (by rw [hq]; trivial))
      rw [hp, hP, if_pos (by simpa using hm)]
      decide
    · rw [hp, update_self]; omega
  refine h.upd (h.caches_of_lock hl) rfl rfl ⟨rfl, rfl, rfl, rfl⟩ (fun b' e => ⟨hpin b' e, update_of_ne e .., rfl⟩)
    (fun q hq => hpc ▸ hq) ?_ (fun _ => .inr hv) nofun (fun _ _ _ => by simp) (fun _ hp => ?_)
    (fun _ hL' => absurd hL' hL) (fun b' hb' => ?_) ?_
  · rcases hcase with ⟨hm, -, hp⟩ | ⟨hm, -, hp, -⟩ <;> dsimp only
    · rw [if_pos hm, hp]
    · rw [if_neg hm, hp, update_self]; omega
  · exact absurd hp (Nat.ne_of_gt hpos)
  · rcases hcase with ⟨-, hlh, -⟩ | ⟨-, hlh, -⟩ <;> rw [show _ = g.lh from rfl, hlh] at hb'
    · exact h.lhHome b' hb'
    · rcases List.mem_append.mp hb' with hb' | hb'
      · exact h.lhHome b' hb'
      · rwa [List.mem_singleton.mp hb']
  · rcases hcase with ⟨-, hlh, -⟩ | ⟨-, hlh, -, hlt⟩
    · simpa only [hlh] using h.lhFits
    · simp only [hlh, List.length_append, List.length_singleton]; omega

end Xv6.Cache
