/-
  Xv6.Bio.Structure — the buffer cache's list stays a ring of all buffers in order of use, a
  block has at most one buffer, and `refcnt` counts who has a reference (see `Xv6.Bio.Model`).
-/

import Xv6.Bio.Model

namespace Xv6.Bio

open Function (update update_self update_of_ne)

variable {N : Nat}

/-! ## What a step does -/

/-- A step of `p` that turns the buffer `b` to `v` and goes on to `a`. -/
inductive Edge (s : St N) (p : Fin N) (b : Ix) : Act N → Buf N → Pc → Prop
  | hit (dev blockno) : s.pc p = .out → s.lookup dev blockno = some b →
    Edge s p b (.bread p dev blockno) { s.buf b with refcnt := (s.buf b).refcnt + 1 } (.wait b)
  | recycle (dev blockno) : s.pc p = .out → s.lookup dev blockno = none → s.victim = some b →
    Edge s p b (.bread p dev blockno) { s.buf b with dev, blockno, valid := false, refcnt := 1 } (.wait b)
  | acquire (a) : s.pc p = .wait b → (s.buf b).lock = none → a = .out ∨ a = .fill b →
    Edge s p b (.acquiresleep p) { s.buf b with lock := some p } a
  | fill : s.pc p = .fill b → Edge s p b (.virtio_disk_rw p) { s.buf b with valid := true } .out
  | release : s.pc p = .out → (s.buf b).lock = some p → Edge s p b (.brelse p b) { s.buf b with lock := none } (.drop b)
  | drop : s.pc p = .drop b → Edge s p b (.drop p) { s.buf b with refcnt := (s.buf b).refcnt - 1 } .out
  | pin : s.pc p = .out → Edge s p b (.bpin p b) { s.buf b with refcnt := (s.buf b).refcnt + 1 } .out
  | unpin : s.pc p = .out → Edge s p b (.bunpin p b) { s.buf b with refcnt := (s.buf b).refcnt - 1 } .out

structure Move (s : St N) (act : Act N) (p : Fin N) (b : Ix) (v : Buf N) (a : Pc) (s' : St N) : Prop where
  edge : Edge s p b act v a
  buf : s'.buf = update s.buf b v
  pc : s'.pc = update s.pc p a
  /-- Only a drop to 0 relinks. -/
  links : (act = .drop p ∧ v.refcnt = 0 ∧ s'.links = (s.links.unlink b).insert b) ∨
    (¬ (act = .drop p ∧ v.refcnt = 0) ∧ s'.links = s.links)

theorem Move.plain {s : St N} {act : Act N} {p : Fin N} {b : Ix} {v : Buf N} {a : Pc} (e : Edge s p b act v a)
    (hd : act ≠ .drop p) : Move s act p b v a ((s.set b v).goto p a) :=
  ⟨e, rfl, rfl, .inr ⟨fun h => hd h.1, rfl⟩⟩

theorem Move.stay {s : St N} {act : Act N} {p : Fin N} {b : Ix} {v : Buf N} (e : Edge s p b act v .out) (hpc : s.pc p = .out)
    (hd : act ≠ .drop p) : Move s act p b v .out (s.set b v) :=
  ⟨e, rfl, (Function.update_eq_self_iff.mpr hpc.symm).symm, .inr ⟨fun h => hd h.1, rfl⟩⟩

theorem bget_cases (s : St N) {p : Fin N} (dev blockno : Nat) (hpc : s.pc p = .out) :
    s.bget p dev blockno = { s with panicked := true } ∨
    ∃ b v a, Move s (.bread p dev blockno) p b v a (s.bget p dev blockno) := by
  unfold St.bget
  cases hl : s.lookup dev blockno with
  | some b => exact .inr ⟨b, _, _, .plain (.hit dev blockno hpc hl) nofun⟩
  | none =>
    cases hv : s.victim with
    | some b => exact .inr ⟨b, _, _, .plain (.recycle dev blockno hpc hl hv) nofun⟩
    | none => exact .inl rfl

theorem unref_move {s : St N} {p : Fin N} {b : Ix} (hpc : s.pc p = .drop b) :
    Move s (.drop p) p b { s.buf b with refcnt := (s.buf b).refcnt - 1 } .out ((s.unref b).goto p .out) := by
  have hbuf : (s.unref b).buf = update s.buf b { s.buf b with refcnt := (s.buf b).refcnt - 1 } := by
    unfold St.unref
    dsimp only
    split <;> rfl
  have hpc' : (s.unref b).pc = s.pc := by
    unfold St.unref
    dsimp only
    split <;> rfl
  have hlinks : (s.unref b).links = if (s.buf b).refcnt - 1 = 0 then (s.links.unlink b).insert b else s.links := by
    simp only [St.unref, St.set, update_self]
    split <;> rfl
  refine ⟨.drop hpc, hbuf, by rw [← hpc']; rfl, ?_⟩
  by_cases h0 : (s.buf b).refcnt - 1 = 0
  · exact .inl ⟨rfl, h0, hlinks.trans (if_pos h0)⟩
  · exact .inr ⟨fun h => h0 h.2, hlinks.trans (if_neg h0)⟩

theorem next_cases {s s' : St N} {act : Act N} (h : next s act = some s') :
    (((∃ p dev blockno, act = .bread p dev blockno) ∨ ∃ p b, act = .brelse p b) ∧ s' = { s with panicked := true }) ∨
    ∃ p b v a, Move s act p b v a s' := by
  unfold next at h
  split at h
  · cases h
  cases act with
  | bread p dev blockno =>
    dsimp only at h
    split at h
    · cases h
      rcases bget_cases s dev blockno ‹_› with h | ⟨b, v, a, m⟩
      · exact .inl ⟨.inl ⟨p, dev, blockno, rfl⟩, h⟩
      · exact .inr ⟨p, b, v, a, m⟩
    · cases h
  | acquiresleep p =>
    dsimp only at h
    split at h
    · rename_i b hpc
      split at h
      · cases h
        refine .inr ⟨p, b, _, _, .plain (.acquire _ hpc ‹_› ?_) nofun⟩
        split
        · exact .inl rfl
        · exact .inr rfl
      · cases h
    · cases h
  | virtio_disk_rw p =>
    dsimp only at h
    split at h
    · rename_i b hpc
      cases h
      exact .inr ⟨p, b, _, _, .plain (.fill hpc) nofun⟩
    · cases h
  | brelse p b =>
    dsimp only at h
    split at h
    · rename_i hpc
      split at h
      · cases h
        exact .inr ⟨p, b, _, _, .plain (.release hpc ‹_›) nofun⟩
      · exact .inl ⟨.inr ⟨p, b, rfl⟩, (Option.some.inj h).symm⟩
    · cases h
  | drop p =>
    dsimp only at h
    split at h
    · rename_i b hpc
      cases h
      exact .inr ⟨p, b, _, _, unref_move hpc⟩
    · cases h
  | bpin p b =>
    dsimp only at h
    split at h
    · rename_i hpc
      cases h
      exact .inr ⟨p, b, _, _, .stay (.pin hpc) hpc nofun⟩
    · cases h
  | bunpin p b =>
    dsimp only at h
    split at h
    · rename_i hpc
      cases h
      exact .inr ⟨p, b, _, _, .stay (.unpin hpc) hpc nofun⟩
    · cases h

/-! ## Reference counts -/

def refs (s : St N) (h : Hist) (b : Ix) : Nat := holders s b + waiters s b + leavers s b + h.pins b

structure Counted (s : St N) (h : Hist) : Prop where
  room : ∀ b, h.pins b + 2 * N + 1 < 2 ^ 32
  eq : ∀ b, (s.buf b).refcnt = BitVec.ofNat 32 (refs s h b)

section

variable {s s' : St N} {h : Hist} {act : Act N} {p : Fin N} {b c : Ix} {v : Buf N} {a : Pc}

theorem Counted.lt (hc : Counted s h) (b : Ix) : refs s h b < 2 ^ 32 := by
  have h1 : holders s b ≤ 1 := by unfold holders; split <;> omega
  have h2 : waiters s b ≤ N := Lib.count_le_card.trans_eq (Fintype.card_fin N)
  have h3 : leavers s b ≤ N := Lib.count_le_card.trans_eq (Fintype.card_fin N)
  have := hc.room b
  unfold refs
  omega

theorem Counted.toNat (hc : Counted s h) (b : Ix) : (s.buf b).refcnt.toNat = refs s h b := by
  rw [hc.eq b, BitVec.toNat_ofNat, Nat.mod_eq_of_lt (hc.lt b)]

theorem Counted.eq_zero (hc : Counted s h) (b : Ix) : (s.buf b).refcnt = 0 ↔ refs s h b = 0 := by
  rw [← hc.toNat b]
  exact ⟨fun h => by rw [h]; rfl, fun h => BitVec.eq_of_toNat_eq h⟩

section

variable (m : Move s act p b v a s')
include m

theorem Move.waiters (c : Ix) :
    waiters s' c + (if s.pc p = .wait c then 1 else 0) = waiters s c + if a = .wait c then 1 else 0 := by
  rw [Bio.waiters, m.pc]
  exact Lib.count_update _ s.pc p a

theorem Move.leavers (c : Ix) :
    leavers s' c + (if s.pc p = .drop c then 1 else 0) = leavers s c + if a = .drop c then 1 else 0 := by
  rw [Bio.leavers, m.pc]
  exact Lib.count_update _ s.pc p a

theorem Move.buf_of_ne (e : c ≠ b) : s'.buf c = s.buf c := by
  rw [m.buf, update_of_ne e]

theorem Move.buf_self : s'.buf b = v := by
  rw [m.buf, update_self]

theorem Move.refs_of_ne (e : c ≠ b) : refs s' (note s act s' h) c = refs s h c := by
  have hw := m.waiters c
  have hl := m.leavers c
  have hh : holders s' c = holders s c := by rw [holders, m.buf_of_ne e, holders]
  have hpins : (note s act s' h).pins c = h.pins c := by
    cases m.edge <;> simp [note, e]
  have ha : (a = .wait c ↔ False) ∧ (a = .drop c ↔ False) ∧ (s.pc p = .wait c ↔ False) ∧ (s.pc p = .drop c ↔ False) := by
    have e := e.symm
    cases m.edge with
    | acquire a h1 h2 h3 => rcases h3 with rfl | rfl <;> simp_all
    | _ => simp_all
  simp only [ha, if_false] at hw hl
  unfold refs
  omega

end

theorem victim_unused (hv : s.victim = some b) : (s.buf b).refcnt = 0 := by
  unfold St.victim at hv
  simpa using Lib.test_of_scan hv

theorem succ_ofNat {x : BitVec 32} {n m : Nat} (h : x = BitVec.ofNat 32 n) (hm : m = n + 1) : x + 1 = BitVec.ofNat 32 m := by
  rw [h, hm, BitVec.ofNat_add]
  rfl

theorem pred_ofNat {x : BitVec 32} {n m : Nat} (h : x = BitVec.ofNat 32 n) (hm : n = m + 1) : x - 1 = BitVec.ofNat 32 m := by
  rw [h, hm, BitVec.ofNat_add]
  exact BitVec.add_sub_cancel _ _

theorem Move.refcnt (m : Move s act p b v a s') (hc : Counted s h) (hok : Proper (s, h) act) :
    v.refcnt = BitVec.ofNat 32 (refs s' (note s act s' h) b) := by
  have hb := hc.eq b
  have hw := m.waiters b
  have hl := m.leavers b
  have hh : holders s' b = if v.lock = none then 0 else 1 := by rw [holders, m.buf_self]
  unfold refs at hb ⊢
  cases m.edge with
  | hit dev blockno hpc hf =>
    have hh : holders s' b = holders s b := hh
    simp only [hpc, reduceCtorEq, if_true, if_false] at hw hl
    exact succ_ofNat hb (by simp only [note]; omega)
  | recycle dev blockno hpc hn hf =>
    have hh : holders s' b = holders s b := hh
    have h0 := (hc.eq_zero b).mp (victim_unused hf)
    unfold refs at h0
    simp only [hpc, reduceCtorEq, if_true, if_false] at hw hl
    have : holders s' b + Bio.waiters s' b + Bio.leavers s' b + h.pins b = 1 := by omega
    simp only [note, this]
    rfl
  | acquire a hpc hlock ha =>
    have hh : holders s' b = 1 := hh
    have hh0 : holders s b = 0 := if_pos hlock
    have ha : (a = .wait b ↔ False) ∧ (a = .drop b ↔ False) := by rcases ha with rfl | rfl <;> simp
    simp only [hpc, ha, reduceCtorEq, if_true, if_false] at hw hl
    exact hb.trans (congrArg _ (by simp only [note]; omega))
  | fill hpc =>
    have hh : holders s' b = holders s b := hh
    simp only [hpc, reduceCtorEq, if_false] at hw hl
    exact hb.trans (congrArg _ (by simp only [note]; omega))
  | release hpc hlock =>
    have hh : holders s' b = 0 := hh
    have hh0 : holders s b = 1 := by rw [holders, hlock]; rfl
    simp only [hpc, reduceCtorEq, if_true, if_false] at hw hl
    exact hb.trans (congrArg _ (by simp only [note]; omega))
  | drop hpc =>
    have hh : holders s' b = holders s b := hh
    simp only [hpc, reduceCtorEq, if_true, if_false] at hw hl
    exact pred_ofNat hb (by simp only [note]; omega)
  | pin hpc =>
    have hh : holders s' b = holders s b := hh
    simp only [hpc, reduceCtorEq, if_false] at hw hl
    exact succ_ofNat hb (by simp only [note, update_self]; omega)
  | unpin hpc =>
    have hh : holders s' b = holders s b := hh
    simp only [hpc, reduceCtorEq, if_false] at hw hl
    have : 0 < h.pins b := hok.2
    exact pred_ofNat hb (by simp only [note, update_self]; omega)

theorem Move.counted (m : Move s act p b v a s') (hc : Counted s h) (hok : Proper (s, h) act) :
    Counted s' (note s act s' h) := by
  refine ⟨fun c => ?_, fun c => ?_⟩
  · have := hc.room c
    cases act with
    | bpin p b =>
      have hok : h.pins b + 2 * N + 2 < 2 ^ 32 := hok
      by_cases e : c = b
      · simp only [note, e, update_self]
        omega
      · simpa only [note, update_of_ne e] using this
    | bunpin p b =>
      by_cases e : c = b
      · simp only [note, e, update_self]
        rw [e] at this
        omega
      · simpa only [note, update_of_ne e] using this
    | _ => exact this
  · by_cases e : c = b
    · rw [e, m.buf_self]
      exact m.refcnt hc hok
    · rw [m.buf_of_ne e, m.refs_of_ne e]
      exact hc.eq c

end

/-! ## The list -/

/-- Where both have `refcnt` 0, `b` was dropped at the time of `c` or later. -/
def Later (s : St N) (h : Hist) (b c : Ix) : Prop :=
  (s.buf b).refcnt = 0 → (s.buf c).refcnt = 0 → h.zeroAt c ≤ h.zeroAt b

/-- The buffers in the order of the `next` pointers. -/
structure Order (s : St N) (h : Hist) (l : List Ix) : Prop where
  ring : s.links.Ring l
  all : ∀ b, b ∈ l
  order : l.Pairwise (Later s h)

section

variable {s s' : St N} {h h' : Hist} {act : Act N} {p : Fin N} {b c : Ix} {v : Buf N} {a : Pc} {l : List Ix}

section

variable (ho : Order s h l)
include ho

theorem Order.length : l.length < NBUF + 1 := by
  have := ho.ring.nodup.length_le_card
  rw [Fintype.card_fin] at this
  omega

theorem Order.lookup_eq (dev blockno : Nat) :
    s.lookup dev blockno = l.find? fun b => (s.buf b).dev = dev ∧ (s.buf b).blockno = blockno :=
  ho.ring.forth.scan_eq _ ho.length

theorem Order.victim_eq : s.victim = l.reverse.find? fun b => (s.buf b).refcnt = 0 :=
  ho.ring.back.scan_eq _ (by rw [List.length_reverse]; exact ho.length)

theorem Order.victim_oldest (hv : s.victim = some b) (hc : (s.buf c).refcnt = 0) : h.zeroAt b ≤ h.zeroAt c := by
  rw [ho.victim_eq] at hv
  obtain ⟨hb, as, bs, hl, has⟩ := List.find?_eq_some_iff_append.mp hv
  have hpw : l.reverse.Pairwise fun x y => Later s h y x := List.pairwise_reverse.mpr ho.order
  have hmem : c ∈ as ++ b :: bs := by
    rw [← hl]
    simp [ho.all c]
  rw [hl] at hpw
  rcases List.mem_append.mp hmem with hm | hm
  · have := has c hm
    simp [hc] at this
  · rcases List.mem_cons.mp hm with rfl | hm
    · exact le_refl _
    · exact (List.pairwise_cons.mp (List.pairwise_append.mp hpw).2.1).1 c hm hc (of_decide_eq_true hb)

theorem Order.keep (hl : s'.links = s.links)
    (hz : ∀ c, (s'.buf c).refcnt = 0 → (s.buf c).refcnt = 0 ∧ h'.zeroAt c = h.zeroAt c) : Order s' h' l where
  ring := hl ▸ ho.ring
  all := ho.all
  order := ho.order.imp fun hbc hb hc => by
    rw [(hz _ hb).2, (hz _ hc).2]
    exact hbc (hz _ hb).1 (hz _ hc).1

theorem Order.front (hl : s'.links = (s.links.unlink b).insert b)
    (hz : ∀ c, c ≠ b → (s'.buf c).refcnt = 0 → (s.buf c).refcnt = 0 ∧ h'.zeroAt c = h.zeroAt c)
    (hb : ∀ c, h'.zeroAt c ≤ h'.zeroAt b) : ∃ l', Order s' h' l' := by
  obtain ⟨l1, l2, rfl⟩ := List.append_of_mem (ho.all b)
  have hnd := ho.ring.nodup
  have hmem : ∀ c, c ∈ l1 ++ l2 → c ≠ b := by
    rintro c hc rfl
    exact (List.nodup_cons.mp ((List.perm_middle).nodup_iff.mp hnd)).1 hc
  refine ⟨b :: (l1 ++ l2), ?_, fun c => ?_, List.pairwise_cons.mpr ⟨fun c _ _ _ => hb c, ?_⟩⟩
  · rw [hl]
    exact ho.ring.unlink.insert fun hc => hmem b hc rfl
  · exact (List.perm_middle.mem_iff).mp (ho.all c)
  · have hsub : (l1 ++ l2).Pairwise (Later s h) := ho.order.sublist (by simp)
    refine hsub.imp_of_mem fun {c d} hc hd hcd h1 h2 => ?_
    rw [(hz c (hmem c hc) h1).2, (hz d (hmem d hd) h2).2]
    exact hcd (hz c (hmem c hc) h1).1 (hz d (hmem d hd) h2).1

end

theorem Move.was_zero (m : Move s act p b v a s') (hc : Counted s h) (hok : Proper (s, h) act) (hd : act ≠ .drop p)
    (h0 : v.refcnt = 0) : (s.buf b).refcnt = 0 := by
  have hz : refs s' (note s act s' h) b = 0 := ((m.counted hc hok).eq_zero b).mp (by rw [m.buf_self]; exact h0)
  unfold refs at hz
  have hw := m.waiters b
  cases m.edge with
  | hit dev blockno hpc hf =>
    simp only [hpc, reduceCtorEq, if_true, if_false] at hw
    omega
  | recycle dev blockno hpc hn hf => exact victim_unused hf
  | acquire a hpc hlock ha => exact h0
  | fill hpc => exact h0
  | release hpc hlock => exact h0
  | drop hpc => exact absurd rfl hd
  | pin hpc =>
    simp only [note, update_self] at hz
    omega
  | unpin hpc =>
    have hh : holders s' b = 1 := by rw [holders, m.buf_self, hok.1]; rfl
    omega

theorem Move.used (m : Move s (.drop p) p b v a s') (hc : Counted s h) : (s.buf b).refcnt ≠ 0 := fun h0 => by
  have hz := (hc.eq_zero b).mp h0
  have hl : 0 < Bio.leavers s b := Lib.count_pos.mpr ⟨p, by cases m.edge; assumption⟩
  unfold refs at hz
  omega

theorem Move.order (m : Move s act p b v a s') (hc : Counted s h) (hok : Proper (s, h) act) (hle : ∀ c, h.zeroAt c ≤ h.now)
    (ho : Order s h l) : ∃ l', Order s' (note s act s' h) l' := by
  have hother : ∀ c, c ≠ b → (s'.buf c).refcnt = 0 → (s.buf c).refcnt = 0 ∧ (note s act s' h).zeroAt c = h.zeroAt c :=
    fun c e h0 => by
      rw [m.buf_of_ne e] at h0
      exact ⟨h0, if_neg fun h1 => h1.1 h0⟩
  rcases m.links with ⟨rfl, h0, hl⟩ | ⟨hnd, hl⟩
  · refine ho.front hl hother fun c => ?_
    have hb : (note s (.drop p) s' h).zeroAt b = h.now + 1 := if_pos ⟨m.used hc, by rw [m.buf_self]; exact h0⟩
    have := hle c
    rw [hb]
    simp only [note]
    split <;> omega
  · refine ⟨l, ho.keep hl fun c h0 => ?_⟩
    by_cases e : c = b
    · rw [e]
      rw [e, m.buf_self] at h0
      have hs := m.was_zero hc hok (fun hd => hnd ⟨hd, h0⟩) h0
      exact ⟨hs, if_neg fun h1 => h1.1 hs⟩
    · exact hother c e h0

/-! ## Keys -/

/-- One buffer for a block. -/
def Unique (s : St N) : Prop :=
  ∀ b c, (s.buf b).dev ≠ 0 → (s.buf b).dev = (s.buf c).dev → (s.buf b).blockno = (s.buf c).blockno → b = c

theorem Move.key (m : Move s act p b v a s') : (v.dev = (s.buf b).dev ∧ v.blockno = (s.buf b).blockno) ∨
    ((s.buf b).refcnt = 0 ∧ s.lookup v.dev v.blockno = none) := by
  cases m.edge with
  | recycle dev blockno hpc hn hf => exact .inr ⟨victim_unused hf, hn⟩
  | _ => exact .inl ⟨rfl, rfl⟩

theorem Order.ne_of_lookup (ho : Order s h l) {dev blockno : Nat} (hn : s.lookup dev blockno = none) (c : Ix) :
    ¬ ((s.buf c).dev = dev ∧ (s.buf c).blockno = blockno) := by
  rw [ho.lookup_eq, List.find?_eq_none] at hn
  simpa using hn c (ho.all c)

theorem Move.unique (m : Move s act p b v a s') (ho : Order s h l) (hu : Unique s) : Unique s' := by
  rcases m.key with ⟨h1, h2⟩ | ⟨-, hn⟩
  · -- all keys are as they were
    have hdev : ∀ c, (s'.buf c).dev = (s.buf c).dev ∧ (s'.buf c).blockno = (s.buf c).blockno := fun c => by
      by_cases e : c = b
      · rw [e, m.buf_self]
        exact ⟨h1, h2⟩
      · rw [m.buf_of_ne e]
        exact ⟨rfl, rfl⟩
    intro c d h3 h4 h5
    rw [(hdev c).1] at h3 h4
    rw [(hdev d).1] at h4
    rw [(hdev c).2, (hdev d).2] at h5
    exact hu c d h3 h4 h5
  · have hne := ho.ne_of_lookup hn
    intro c d h3 h4 h5
    by_cases e : c = b <;> by_cases e' : d = b
    · rw [e, e']
    · rw [e, m.buf_self, m.buf_of_ne e'] at h4 h5
      exact absurd ⟨h4.symm, h5.symm⟩ (hne d)
    · rw [e', m.buf_self, m.buf_of_ne e] at h4 h5
      exact absurd ⟨h4, h5⟩ (hne c)
    · rw [m.buf_of_ne e] at h3 h4 h5
      rw [m.buf_of_ne e'] at h4 h5
      exact hu c d h3 h4 h5

end

/-! ## Every run -/

structure Inv (x : St N × Hist) : Prop where
  order : ∃ l, Order x.1 x.2 l
  unique : Unique x.1
  counted : Counted x.1 x.2
  le : ∀ b, x.2.zeroAt b ≤ x.2.now

theorem foldl_ring {l : List Ix} : ∀ {k : Lib.Links Ix} {m : List Ix}, k.Ring m → (l.reverse ++ m).Nodup →
    (l.foldl (fun k b => k.insert b) k).Ring (l.reverse ++ m) := by
  induction l with
  | nil => exact fun h _ => h
  | cons b l ih =>
    intro k m h hnd
    rw [List.reverse_cons, List.append_assoc] at hnd ⊢
    refine ih (h.insert ?_) hnd
    exact (List.nodup_cons.mp (List.nodup_append.mp hnd).2.1).1

theorem inv_binit (hN : 2 * N + 1 < 2 ^ 32) : Inv (binit N, (⟨0, fun _ => 0, fun _ => 0⟩ : Hist)) where
  order := by
    refine ⟨(List.finRange NBUF).reverse, ?_, fun b => by simp, List.pairwise_of_forall fun _ _ _ _ => le_refl 0⟩
    have := foldl_ring (l := List.finRange NBUF) (k := ⟨fun _ => none, fun _ => none⟩) (m := []) ⟨List.nodup_nil, rfl, rfl⟩
    rw [List.append_nil] at this
    exact this (List.nodup_reverse.mpr (List.nodup_finRange NBUF))
  unique b c h := absurd rfl h
  counted := ⟨fun _ => by simpa using hN, fun b => by simp [refs, holders, waiters, leavers, binit, Lib.count]⟩
  le _ := le_refl 0

theorem inv_next {s s' : St N} {h : Hist} {act : Act N} (hi : Inv (s, h)) (hok : Proper (s, h) act) (hs : next s act = some s') :
    Inv (s', note s act s' h) := by
  obtain ⟨⟨l, ho⟩, hu, hc, hle⟩ := hi
  have hle' : ∀ b, (note s act s' h).zeroAt b ≤ (note s act s' h).now := fun b => by
    have : h.zeroAt b ≤ h.now := hle b
    simp only [note]
    split <;> omega
  rcases next_cases hs with ⟨hact, rfl⟩ | ⟨p, b, v, a, m⟩
  · have hpins : (note s act { s with panicked := true } h).pins = h.pins := by
      rcases hact with ⟨p, dev, blockno, rfl⟩ | ⟨p, b, rfl⟩ <;> rfl
    refine ⟨⟨l, ho.keep rfl fun c h0 => ⟨h0, if_neg fun h1 => h1.1 h0⟩⟩, hu, ⟨fun b => ?_, fun b => ?_⟩, hle'⟩
    · rw [hpins]
      exact hc.room b
    · rw [refs, hpins]
      exact hc.eq b
  · exact ⟨m.order hc hok hle ho, m.unique ho hu, m.counted hc hok, hle'⟩

/-- In every run with pins undone by holders only: the pointers from the head pass through every buffer once, in one
    order and its reverse; a block has one buffer; `refcnt` counts the references; a buffer with one keeps its
    block; and the one to recycle was dropped before all others. -/
theorem buffer_cache {x : St NPROC × Hist} (hx : ((traced NPROC).restrict Proper).Reach x) :
    (∃ l : List Ix, l.Nodup ∧ (∀ b, b ∈ l) ∧ Lib.Traverses x.1.links.next none l ∧ Lib.Traverses x.1.links.prev none l.reverse) ∧
    (∀ b c, (x.1.buf b).dev ≠ 0 → (x.1.buf b).dev = (x.1.buf c).dev → (x.1.buf b).blockno = (x.1.buf c).blockno → b = c) ∧
    (∀ b, (x.1.buf b).refcnt.toNat = holders x.1 b + waiters x.1 b + leavers x.1 b + x.2.pins b) ∧
    (∀ act s', next x.1 act = some s' → ∀ b, (x.1.buf b).refcnt ≠ 0 →
      (s'.buf b).dev = (x.1.buf b).dev ∧ (s'.buf b).blockno = (x.1.buf b).blockno) ∧
    (∀ b, x.1.victim = some b → (x.1.buf b).refcnt = 0 ∧ ∀ c, (x.1.buf c).refcnt = 0 → x.2.zeroAt b ≤ x.2.zeroAt c) := by
  have hi : Inv x := by
    refine Lib.Sys.invariant (I := Inv) ?_ ?_ hx
    · rintro ⟨s, h⟩ ⟨rfl, rfl⟩
      exact inv_binit (by decide)
    · intro y act y' _ hi ⟨⟨hs, hn⟩, hok⟩
      have := inv_next hi hok hs
      rwa [← hn] at this
  obtain ⟨l, ho⟩ := hi.order
  refine ⟨⟨l, ho.ring.nodup, ho.all, ho.ring.forth, ho.ring.back⟩, hi.unique, hi.counted.toNat, fun act s' hs b hb => ?_,
    fun b hv => ⟨victim_unused hv, fun c hc => ho.victim_oldest hv hc⟩⟩
  rcases next_cases hs with ⟨-, rfl⟩ | ⟨p, c, v, a, m⟩
  · exact ⟨rfl, rfl⟩
  · by_cases e : b = c
    · rcases m.key with hk | ⟨h0, -⟩
      · rw [e, m.buf_self]
        exact hk
      · exact absurd (e ▸ h0) hb
    · rw [m.buf_of_ne e]
      exact ⟨rfl, rfl⟩

/-- Whether the call is neither `bpin` nor `bunpin`. -/
def Act.unpinned : Act N → Bool
  | .bpin .. | .bunpin .. => false
  | _ => true

theorem proper_of_unpinned (x : St N × Hist) (a : Act N) (h : a.unpinned = true) : Proper x a := by
  cases a with
  | bpin | bunpin => cases h
  | _ => trivial

def init : Fin NPROC := ⟨0, by decide⟩
def buf0 : Ix := ⟨0, by decide⟩
def buf1 : Ix := ⟨1, by decide⟩

def readOne : List (Act NPROC) := [.bread init 1 5, .acquiresleep init, .virtio_disk_rw init, .brelse init buf0, .drop init]

theorem buffer_cache_read_one : ∃ x : St NPROC × Hist, ((traced NPROC).restrict Proper).Reach x ∧
    x.2.zeroAt buf0 = 5 ∧ x.1.victim = some buf1 ∧ ∀ c, (x.1.buf c).refcnt = 0 → x.2.zeroAt buf1 ≤ x.2.zeroAt c := by
  have hrun : ∃ x : St NPROC × Hist, ((traced NPROC).restrict Proper).Reach x ∧
      decide (x.2.zeroAt buf0 = 5 ∧ x.1.victim = some buf1) = true :=
    Lib.Sys.reach_traced (traced NPROC) rfl (fun _ a => a.unpinned) proper_of_unpinned rfl readOne _ (by decide +kernel)
  obtain ⟨x, hx, hq⟩ := hrun
  have hq := of_decide_eq_true hq
  exact ⟨x, hx, hq.1, hq.2, ((buffer_cache hx).2.2.2.2 buf1 hq.2).2⟩

/-- With its lock released and the reference not yet given up, a buffer has `refcnt` 1 and nobody
    holds it, waits for it or has it pinned. -/
theorem released_before_dropped : ∃ x : St NPROC × Hist, ((traced NPROC).restrict Proper).Reach x ∧
    (x.1.buf buf0).refcnt.toNat = 1 ∧ holders x.1 buf0 + waiters x.1 buf0 + x.2.pins buf0 = 0 := by
  have hrun : ∃ x : St NPROC × Hist, ((traced NPROC).restrict Proper).Reach x ∧
      decide ((x.1.buf buf0).refcnt.toNat = 1 ∧ holders x.1 buf0 + waiters x.1 buf0 + x.2.pins buf0 = 0) = true :=
    Lib.Sys.reach_traced (traced NPROC) rfl (fun _ a => a.unpinned) proper_of_unpinned rfl (readOne.take 4) _ (by decide +kernel)
  obtain ⟨x, hx, hq⟩ := hrun
  exact ⟨x, hx, of_decide_eq_true hq⟩

end Xv6.Bio
