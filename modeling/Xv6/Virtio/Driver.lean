/-
  Xv6.Virtio.Driver — the protocol of driver, handler and device, in every reachable state: the
  partition of the descriptors, the way of each request through the two rings, and that nothing
  panics.
-/

import Xv6.Virtio.Rings

namespace Xv6.Virtio

open Function (update update_self update_of_ne)
open Lib (update_ind)

variable {N : Nat} {blockno : Nat → Nat} {s s' : St N}

/-! ## The lock -/

def Pc.locked : Pc → Bool
  | .idle | .enter .. | .sleepFree .. | .sleepBuf .. => false
  | _ => true

structure Locks (s : St N) : Prop where
  proc : ∀ p, (s.pc p).locked = true → s.lock = some (.proc p)
  intr : s.ipc ≠ .off → s.lock = some .intr

theorem Locks.alone (h : Locks s) {p q : Fin N} (hp : (s.pc p).locked = true) (hq : (s.pc q).locked = true) : q = p := by
  have := (h.proc q hq).symm.trans (h.proc p hp)
  cases this
  rfl

section

variable (h : Locks s) {p : Fin N} {a c : Pc} (hp : s.pc p = c) (hpc : s'.pc = update s.pc p a) (hi : s'.ipc = s.ipc)
include h hp hpc hi

theorem Locks.keep (hl : s'.lock = s.lock) (ha : a.locked = true → c.locked = true) : Locks s' := by
  subst hp
  refine ⟨fun q => ?_, by rw [hi, hl]; exact h.intr⟩
  rw [hpc, hl]
  exact update_ind q (fun hq => h.proc p (ha hq)) fun q _ => h.proc q

omit hp in
theorem Locks.acquire (hn : s.lock = none) (hl : s'.lock = some (.proc p)) : Locks s' := by
  rw [← Option.not_isSome_iff_eq_none] at hn
  refine ⟨fun q => ?_, fun hne => absurd (by rw [h.intr (hi ▸ hne)]; rfl) hn⟩
  rw [hpc]
  exact update_ind q (fun _ => hl) fun q _ hq => absurd (by rw [h.proc q hq]; rfl) hn

theorem Locks.release (hlk : c.locked = true) (ha : a.locked = false) : Locks s' := by
  subst hp
  refine ⟨fun q => ?_, fun hne => nomatch (h.intr (hi ▸ hne)).symm.trans (h.proc p hlk)⟩
  rw [hpc]
  refine update_ind q (fun hq => ?_) fun q e hq => absurd (h.alone hlk hq) e
  rw [ha] at hq
  cases hq

end

structure Inv (s : St N) : Prop where
  locks : Locks s
  parts : Parts s.d s.pc
  queues : Queues s

/-! ## One step -/

/-- A panic, or a state without the invariant, is what a step must not lead to. -/
def Fine (r : Except Panic (St N)) : Prop := ∃ s', r = .ok s' ∧ Inv s'

section

variable (hi : Inv s) {p : Fin N} {a c : Pc} (hp : s.pc p = c)
include hi hp

theorem Inv.goto {l : Option (Who N)} (hl : Locks { s.goto p a with lock := l }) (hchain : a.chain = c.chain)
    (hbuf : ∀ b, a.buf = some b → c.buf = some b ∨ ∀ q, (s.pc q).buf ≠ some b)
    (hreq : ∀ r, a.req = some r → c.req = some r) (hwaits : ∀ x, Waits s.d a x ↔ Waits s.d c x)
    (hposted : ∀ i, a.posted = some i → c.posted = some i) (hlinks : ∀ b c l, a ≠ .free b c l) (hpost : a.posting = none) :
    Inv { s.goto p a with lock := l } := by
  refine ⟨hl, ?_, ?_⟩
  · exact hi.parts.stay hp a hbuf hchain hreq hlinks rfl rfl fun _ => rfl
  · refine hi.queues.stay hp ⟨rfl, rfl, rfl⟩ hwaits (fun _ _ _ _ => rfl) (fun _ _ => rfl)
      (fun b hb => by rw [hpost] at hb; cases hb) hposted ⟨rfl, rfl⟩ fun b i j k e => ?_
    rw [e] at hpost
    cases hpost

theorem Inv.acquire {r : Except Panic (St N)} (h : s.acquire p a = some r) (hchain : a.chain = c.chain)
    (hbuf : a.buf = c.buf) (hreq : a.req = c.req) (hwaits : a.waits = c.waits) (hposted : a.posted = c.posted)
    (hlinks : ∀ b c l, a ≠ .free b c l) (hpost : a.posting = none) : Fine r := by
  rw [St.acquire] at h
  split at h
  · rename_i hn
    cases h
    exact ⟨_, rfl, hi.goto hp (hi.locks.acquire rfl rfl hn rfl) hchain (fun b hb => .inl (hbuf ▸ hb))
      (fun r hr => hreq ▸ hr) (fun x => by rw [Waits, hwaits, Waits]) (fun i h => hposted ▸ h) hlinks hpost⟩
  · cases h

end

theorem Inv.call (hi : Inv s) {p : Fin N} {b : Nat} {w : Bool} (hp : s.pc p = .idle) (hb : ∀ q, (s.pc q).buf ≠ some b) :
    Inv { s.goto p (.enter b w) with reqs := update s.reqs p [] } := by
  have h := hi.goto hp (l := s.lock) (hi.locks.keep hp rfl rfl rfl nofun) (a := .enter b w) rfl
    (fun b' e => by cases e; exact .inr hb) nofun (waits_iff rfl rfl) nofun nofun rfl
  exact ⟨⟨h.locks.proc, h.locks.intr⟩, h.parts, h.queues.calls⟩

theorem Inv.alloc (hi : Inv s) {p : Fin N} {b : Nat} {w : Bool} (hp : s.pc p = .alloc b w) :
    Fine ((alloc3_desc s.d).map fun
      | (some (i, j, k), d) => { s.goto p (.format b w i j k) with d }
      | (none, d) => { s.goto p (.sleepFree b w) with d, lock := none }) := by
  rcases alloc3_desc_cases s.d with ⟨i, j, k, e, hnd, hlt⟩ | ⟨desc, e, hdesc⟩ <;> rw [e]
  · refine ⟨_, rfl, hi.locks.keep hp rfl rfl rfl fun _ => rfl, ?_, ?_⟩
    · refine hi.parts.move hp _ (fun _ => .inl) (fun _ _ _ => rfl) (fun _ _ _ => rfl) nofun nofun
        (fun x hx => (hlt x hx).1) hnd (fun x hx => .inr (hlt x hx).2) ?_
      intro x _
      simp only [Disk.with, Pc.chain, Function.update_apply, List.mem_cons, List.not_mem_nil]
      split_ifs <;> simp_all
    · exact hi.queues.stay hp ⟨rfl, rfl, rfl⟩ (waits_iff rfl rfl) (fun _ _ _ _ => rfl) (fun _ _ => rfl) nofun nofun
        ⟨rfl, rfl⟩ nofun
  · refine ⟨_, rfl, hi.locks.release hp rfl rfl rfl rfl, ?_, ?_⟩
    · refine hi.parts.move hp _ (fun _ => .inl) (fun x hx _ => hdesc x hx) (fun _ _ _ => rfl) nofun nofun nofun .nil nofun ?_
      intro x _
      simp [Disk.with, Pc.chain]
    · exact hi.queues.stay hp ⟨rfl, rfl, rfl⟩ (waits_iff rfl rfl) (fun _ _ _ _ => rfl) (fun _ _ => rfl) nofun nofun
        ⟨rfl, rfl⟩ nofun

theorem formatted (d : Disk) (b : Nat) (w : Bool) {i j k : Nat} (h : [i, j, k].Nodup) :
    Formatted (format blockno d b w i j k).desc b i j k := by
  obtain ⟨⟨hij, hik⟩, hjk⟩ : (i ≠ j ∧ i ≠ k) ∧ j ≠ k := by simpa using h
  refine ⟨?_, ⟨(if w then 0 else VRING_DESC_F_WRITE) ||| VRING_DESC_F_NEXT, by cases w <;> decide, ?_⟩, ?_⟩
  · simp [format, update_of_ne hij, update_of_ne hik]
  · simp [format, update_of_ne hjk]
  · simp [format]

section

variable (hi : Inv s) {p : Fin N}
include hi

theorem Inv.format {b : Nat} {w : Bool} {i j k : Nat} (hp : s.pc p = .format b w i j k) :
    Inv { s.goto p (.ring b i j k) with d := format blockno s.d b w i j k } := by
  obtain ⟨hnd, -, -⟩ := hi.parts.chain hp
  refine ⟨hi.locks.keep hp rfl rfl rfl fun _ => rfl, ?_, ?_⟩
  · refine hi.parts.keep hp _ (fun _ => .inl) ?_ ?_ ?_ nofun rfl rfl
    · intro x _ hx
      obtain ⟨h1, h2, h3⟩ : x ≠ i ∧ x ≠ j ∧ x ≠ k := by simpa [Pc.chain] using hx
      simp [Virtio.format, update_of_ne h1, update_of_ne h2, update_of_ne h3]
    · intro x _ hx
      have h1 : x ≠ i := fun e => hx (by simp [e, Pc.chain])
      simp [Virtio.format, update_of_ne h1]
    · intro b' i' j' k' hr
      cases hr
      exact ⟨formatted s.d b w hnd, by simp [Virtio.format]⟩
  · refine hi.queues.stay hp ⟨rfl, rfl, rfl⟩ (waits_iff rfl rfl) ?_ ?_ ?_ nofun ⟨rfl, rfl⟩ nofun
    · intro q hq b' hb
      have hne : b' ≠ b := fun e => hq (hi.parts.bufs q p b' hb (by rw [e, hp]; rfl))
      simp [Virtio.format, update_of_ne hne]
    · intro x hx
      have hne : x ≠ i := by
        rintro rfl
        exact hi.queues.not_mem hi.parts (p := p) (by rw [hp]; simp [Pc.chain]) (not_waits (by rw [hp]; rfl) x) hx
      simp [Virtio.format, update_of_ne hne]
    · intro b' hb
      cases hb
      simp [Virtio.format]

theorem Inv.alone (hp : (s.pc p).locked = true) : ∀ q, q ≠ p → ∀ b i j k, s.pc q ≠ .publish b i j k := by
  intro q hq b i j k e
  exact hq (hi.locks.alone hp (by rw [e]; rfl))

theorem Inv.clear {b i j k : Nat} (hp : s.pc p = .clear b i j k) : Inv { s.goto p (.free b i [i, j, k]) with
      d := { s.d with info := update s.d.info i { s.d.info i with b := none } } } := by
  refine ⟨hi.locks.keep hp rfl rfl rfl fun _ => rfl, ?_, ?_⟩
  · refine hi.parts.keep hp _ (fun _ => .inl) (fun _ _ _ => rfl) ?_ nofun ?_ rfl rfl
    · intro x _ hx
      have h1 : x ≠ i := fun e => hx (by simp [e, Pc.chain])
      simp [update_of_ne h1]
    · intro b' c l e
      cases e
      exact ⟨rfl, (hi.parts.shape p b i j k (by rw [hp]; rfl)).linked⟩
  · refine hi.queues.stay hp ⟨rfl, rfl, rfl⟩ (waits_iff rfl rfl) (fun _ _ _ _ => rfl) (fun x _ => ?_) nofun nofun ⟨rfl, rfl⟩ nofun
    by_cases e : x = i
    · rw [e]; simp
    · simp [update_of_ne e]

theorem Inv.free {b c : Nat} {left : List Nat} (hp : s.pc p = .free b c left) : Fine ((free_desc s.d c).map fun d =>
      { s.goto p (if (s.d.desc c).flags &&& VRING_DESC_F_NEXT ≠ 0 then .free b (s.d.desc c).next left.tail
          else .rel b) with d }) := by
  obtain ⟨hc, hl⟩ := hi.parts.links p b c left hp
  obtain ⟨l, rfl⟩ : ∃ l, left = c :: l := by
    cases left with
    | nil => cases hc
    | cons x l =>
      cases hc
      exact ⟨l, rfl⟩
  obtain ⟨hnd, hlt, htaken⟩ := hi.parts.chain hp
  simp only [Pc.chain] at hnd hlt htaken
  rw [free_desc_ok (hlt c (by simp)) (htaken c (by simp))]
  -- the place after it, and what is left there
  obtain ⟨a, ha, hac, halk, hab, haf, haw⟩ : ∃ a : Pc,
      (if (s.d.desc c).flags &&& VRING_DESC_F_NEXT ≠ 0 then .free b (s.d.desc c).next (c :: l).tail else .rel b) = a ∧
      a.chain = l ∧ a.locked = true ∧ a.buf = some b ∧
      (∀ b' c' l', a = .free b' c' l' → l'.head? = some c' ∧ l' = l ∧ Linked s.d.desc l) ∧
      (a.waits = none ∧ a.posting = none ∧ a.posted = none ∧ a.req = none) := by
    cases l with
    | nil =>
      have hl : (s.d.desc c).flags &&& VRING_DESC_F_NEXT = 0 := hl
      rw [if_neg (not_not.mpr hl)]
      exact ⟨_, rfl, rfl, rfl, rfl, nofun, rfl, rfl, rfl, rfl⟩
    | cons y l =>
      obtain ⟨h1, h2, h3⟩ := hl
      rw [if_pos h1, h2]
      refine ⟨_, rfl, rfl, rfl, rfl, ?_, rfl, rfl, rfl, rfl⟩
      intro b' c' l' e
      cases e
      exact ⟨rfl, rfl, h3⟩
  obtain ⟨haw, hap, hapd, har⟩ := haw
  obtain ⟨hcl, hndl⟩ := List.nodup_cons.mp hnd
  have hdesc : ∀ x, x ≠ c → update s.d.desc c ⟨.null, 0, 0, 0⟩ x = s.d.desc x := fun x hx =>
    update_of_ne hx ..
  refine ⟨_, rfl, ?_⟩
  rw [ha]
  refine ⟨hi.locks.keep hp rfl rfl rfl fun _ => rfl, ?_, ?_⟩
  · refine hi.parts.move hp a (fun b' hb => .inl (hb ▸ hab ▸ rfl)) ?_ (fun _ _ _ => rfl) ?_ ?_
      (by rw [hac]; exact fun x hx => hlt x (List.mem_cons_of_mem _ hx)) (by rw [hac]; exact hndl)
      (by rw [hac]; exact fun x hx => .inl (List.mem_cons_of_mem _ hx)) ?_
    · exact fun x _ hx => hdesc x fun e => hx (by simp [e, Pc.chain])
    · intro b' i j k hr
      rw [har] at hr
      cases hr
    · intro b' c' l' e
      obtain ⟨h1, rfl, h3⟩ := haf b' c' l' e
      refine ⟨h1, h3.congr fun x hx => hdesc x ?_⟩
      rintro rfl
      exact hcl hx
    · intro x _
      rw [hac]
      show update s.d.free c true x = false ↔ _ ∨ (x ∉ c :: l ∧ _)
      by_cases e : x = c
      · rw [e, update_self]
        simp [hcl]
      · rw [update_of_ne e]
        by_cases hx : x ∈ l
        · simp [hx, htaken x (List.mem_cons_of_mem _ hx)]
        · simp [e, hx]
  · refine hi.queues.stay hp ⟨rfl, rfl, rfl⟩ (waits_iff haw rfl) (fun _ _ _ _ => rfl) (fun _ _ => rfl)
      (fun b hb => by rw [hap] at hb; cases hb) (fun i hi => by rw [hapd] at hi; cases hi) ⟨rfl, rfl⟩ fun b i j k e => ?_
    rw [e] at hap
    cases hap

theorem Inv.stepProc {r : Except Panic (St N)} (h : stepProc blockno s p = some r) : Fine r := by
  rw [Virtio.stepProc] at h
  split at h
  case h_1 => cases h
  case h_2 b w hp | h_4 b w hp | h_9 b i j k hp => exact hi.acquire hp h rfl rfl rfl rfl rfl nofun rfl
  case h_3 b w hp => cases h; exact hi.alloc hp
  case h_5 b w i j k hp => cases h; exact ⟨_, rfl, hi.format hp⟩
  case h_6 b i j k hp =>
    cases h
    exact ⟨_, rfl, hi.locks.keep hp rfl rfl rfl fun _ => rfl,
      hi.parts.stay hp _ (fun _ => .inl) rfl (fun _ => id) nofun rfl rfl fun _ => rfl,
      hi.queues.ring hi.parts p hp (hi.alone (by rw [hp]; rfl))⟩
  case h_7 b i j k hp =>
    cases h
    exact ⟨_, rfl, hi.locks.keep hp rfl rfl rfl fun _ => rfl,
      hi.parts.stay hp _ (fun _ => .inl) rfl (fun _ => id) nofun rfl rfl fun _ => rfl,
      (hi.queues.publish hi.parts p hp (hi.alone (by rw [hp]; rfl))).calls⟩
  case h_8 b i j k hp =>
    split at h
    · cases h
      exact ⟨_, rfl, hi.goto hp (hi.locks.release hp rfl rfl rfl rfl) rfl (fun _ => .inl) (fun _ => id) (fun _ => Iff.rfl)
        (fun _ => id) nofun rfl⟩
    · rename_i hb
      cases h
      refine ⟨_, rfl, hi.goto hp (l := s.lock) (hi.locks.keep hp rfl rfl rfl fun _ => rfl) rfl (fun _ => .inl)
        (fun _ => id) (fun x => ⟨fun hx => absurd hx (not_waits rfl x), ?_⟩) (fun _ => id) nofun rfl⟩
      rintro ⟨b', e, hd⟩
      cases e
      exact absurd hd hb
  case h_10 b i j k hp => cases h; exact ⟨_, rfl, hi.clear hp⟩
  case h_11 b c left hp => cases h; exact hi.free hp
  case h_12 b hp =>
    cases h
    exact ⟨_, rfl, hi.goto hp (hi.locks.release hp rfl rfl rfl rfl) rfl nofun nofun (waits_iff rfl rfl) nofun nofun rfl⟩

end

theorem Inv.stepIntr (hi : Inv s) {r : Except Panic (St N)} (h : stepIntr s = some r) : Fine r := by
  have hk := hi.queues.handler
  have hlock := hi.locks.intr
  -- who holds the lock stays
  have hlk : ∀ {a : IPc} {d : Disk} {c : List Nat}, s.ipc ≠ .off → Locks { s with ipc := a, d := d, consumed := c } :=
    fun hne => ⟨hi.locks.proc, fun _ => hlock hne⟩
  rw [Virtio.stepIntr] at h
  split at h
  case h_1 => cases h
  case h_2 e =>
    cases h
    refine ⟨_, rfl, hlk (by rw [e]; nofun), hi.parts, hi.queues.look (l := s.lock) ?_⟩
    split
    · assumption
    · trivial
  case h_3 e =>
    rw [e] at hk
    cases h
    exact ⟨_, rfl, hlk (by rw [e]; nofun), hi.parts, hi.queues.look (l := s.lock) ⟨hk, rfl⟩⟩
  case h_4 id e =>
    rw [e] at hk
    obtain ⟨hne, hid⟩ := hk
    have hz : (s.d.info id).status = 0 := hi.queues.used id (by rw [s.usedQ_pop hne, hid]; exact List.mem_cons_self ..)
    rw [if_neg (not_not.mpr hz)] at h
    cases h
    exact ⟨_, rfl, hlk (by rw [e]; nofun), hi.parts, hi.queues.look (l := s.lock) ⟨hne, hid⟩⟩
  case h_5 id e =>
    rw [e] at hk
    obtain ⟨hne, hid⟩ := hk
    have hmem : id ∈ s.queue := by
      refine List.mem_append_right _ (List.mem_append_right _ ?_)
      rw [s.usedQ_pop hne, hid]
      exact List.mem_cons_self ..
    obtain ⟨p, b, hw, -⟩ := (hi.queues.mem id).mp hmem
    obtain ⟨j, k, hr⟩ := Pc.req_of_waits hw
    have hb := hi.parts.info p b id j k hr
    rw [hb] at h
    cases h
    exact ⟨_, rfl, hlk (by rw [e]; nofun), hi.parts.frame rfl rfl fun _ => rfl, hi.queues.consume hi.parts e hb⟩
  case h_6 e =>
    cases h
    refine ⟨_, rfl, ⟨fun p hp => ?_, fun hne => absurd rfl hne⟩, hi.parts, hi.queues.look trivial⟩
    have := (hi.locks.proc p hp).symm.trans (hlock (by rw [e]; nofun))
    cases this

theorem Inv.stepDev (hi : Inv s) {a : Act N} (h : stepDev s a = some s') : Inv s' := by
  have hlk : ∀ {d : Disk} {v : Dev} {t c : List Nat}, Locks { s with d := d, dev := v, taken := t, completed := c } :=
    ⟨hi.locks.proc, hi.locks.intr⟩
  cases a with
  | take =>
    simp only [Virtio.stepDev] at h
    split at h
    · cases h
    · rename_i hne
      cases h
      exact ⟨hlk, hi.parts, hi.queues.take hi.parts hne⟩
  | work n =>
    obtain ⟨f, hf, e⟩ := Option.map_eq_some_iff.mp h
    subst e
    refine ⟨hlk, hi.parts.frame ?_ ?_ ?_, hi.queues.work hf⟩
    · dsimp only
      split <;> rfl
    · dsimp only
      split <;> rfl
    · intro i
      dsimp only
      split
      · rename_i x _
        by_cases e : i = x
        · simp [e]
        · simp [update_of_ne e]
      · rfl
  | store n =>
    simp only [Virtio.stepDev] at h
    split at h
    · rename_i f hf hs
      split at h
      · rename_i hd
        cases h
        exact ⟨hlk, hi.parts.frame rfl rfl fun _ => rfl, hi.queues.store hi.parts hf hd⟩
      · cases h
    · cases h
  | push =>
    obtain ⟨n, hs, h⟩ := Option.bind_eq_some_iff.mp h
    obtain ⟨f, hf, e⟩ := Option.map_eq_some_iff.mp h
    subst e
    exact ⟨hlk, hi.parts.frame rfl rfl fun _ => rfl, hi.queues.push hi.parts hs hf⟩
  | call p b w => cases h
  | step p => cases h
  | intr => cases h
  | istep => cases h

theorem Inv.next (hi : Inv s) {a : Act N} {r : Except Panic (St N)} (h : next blockno s a = some r) : Fine r := by
  have hdev : ∀ a, (Virtio.stepDev s a).map Except.ok = some r → Fine r := by
    intro a h
    obtain ⟨t, ht, rfl⟩ := Option.map_eq_some_iff.mp h
    exact ⟨t, rfl, hi.stepDev ht⟩
  cases a with
  | call p b w =>
    simp only [Virtio.next] at h
    split at h
    · rename_i hc
      cases h
      exact ⟨_, rfl, hi.call hc.1 hc.2⟩
    · cases h
  | step p => exact hi.stepProc h
  | intr =>
    simp only [Virtio.next] at h
    split at h
    · rename_i hn
      cases h
      refine ⟨_, rfl, ⟨fun p hp => ?_, fun _ => rfl⟩, hi.parts, hi.queues.look trivial⟩
      have := hi.locks.proc p hp
      rw [hn] at this
      cases this
    · cases h
  | istep => exact hi.stepIntr h
  | take => exact hdev _ h
  | work n => exact hdev _ h
  | store n => exact hdev _ h
  | push => exact hdev _ h

/-! ## Every reachable state -/

theorem Inv.init : Inv (Virtio.init N) where
  locks := ⟨nofun, fun h => absurd rfl h⟩
  parts := ⟨nofun, fun _ => .nil, nofun, nofun, nofun, nofun, nofun, nofun, nofun⟩
  queues := by
    have ha : (Virtio.init N).availQ = [] := Lib.pending_self
    have hu : (Virtio.init N).usedQ = [] := Lib.pending_self
    have hq : (Virtio.init N).queue = [] := by rw [St.queue, ha, hu]; rfl
    refine ⟨by rw [hq]; exact .nil, fun x => ?_, nofun, nofun, nofun, by rw [hu]; nofun, nofun, trivial,
      by rw [ha]; rfl, .refl _, by rw [hu]; rfl, nofun⟩
    rw [hq]
    refine ⟨nofun, ?_⟩
    rintro ⟨p, b, hb, -⟩
    cases hb

theorem inv_reach (h : (sys N blockno).Reach s) : Inv s := by
  refine Lib.Sys.invariant (fun s hs => ?_) (fun s a s' _ hi hs => ?_) h
  · cases hs
    exact .init
  · obtain ⟨r, hr, e⟩ := Option.bind_eq_some_iff.mp hs
    obtain ⟨t, rfl, ht⟩ := hi.next hr
    cases e
    exact ht

theorem Queues.counts (h : Queues s) (x : Nat) :
    s.completed.count x = s.consumed.count x + s.usedQ.count x ∧
    s.taken.count x = s.completed.count x + s.heads.count x ∧
    s.published.count x = s.taken.count x + s.availQ.count x ∧ s.queue.count x ≤ 1 := by
  refine ⟨?_, ?_, ?_, List.nodup_iff_count_le_one.mp h.nodup x⟩
  · rw [h.completed, List.count_append]
  · rw [h.taken.count_eq, List.count_append]
  · rw [h.published, List.count_append]

theorem Queues.served (h : Queues s) {x : Nat} (hx : x ∉ s.queue) :
    s.completed.count x = s.published.count x ∧ s.consumed.count x = s.published.count x := by
  obtain ⟨h1, h2, h3, -⟩ := h.counts x
  have hz : s.queue.count x = 0 := List.count_eq_zero.mpr hx
  rw [St.queue, List.count_append, List.count_append] at hz
  omega

/-! ## The requests of one call -/

/-- What a process at this place has published since its call. From `free` on its request has
    been consumed; it still has the lock, so no other request has that head yet. -/
def Pc.Called (s : St N) (p : Fin N) : Pc → Prop
  | .idle => True
  | .enter .. | .alloc .. | .sleepFree .. | .format .. | .ring .. | .publish .. => s.reqs p = []
  | .wait b i _ _ | .sleepBuf b i _ _ | .clear b i _ _ => s.reqs p = [(i, .data b)]
  | .free b _ _ | .rel b => ∃ i, s.reqs p = [(i, .data b)] ∧ s.published.count i = s.mine p ∧ s.mine p ≤ s.consumed.count i

def Calls (s : St N) : Prop := ∀ p, (s.pc p).Called s p

section

variable {p : Fin N} {a : Pc}

theorem Pc.Called.grow (h : a.Called s p) (hr : s'.reqs p = s.reqs p) (hm : s'.mine p = s.mine p)
    (hpub : a.locked = true → s'.published = s.published) (hc : ∀ i, s.consumed.count i ≤ s'.consumed.count i) :
    a.Called s' p := by
  cases a with
  | idle => trivial
  | free b c l | rel b =>
    obtain ⟨i, h1, h2, h3⟩ := h
    refine ⟨i, hr.trans h1, ?_, ?_⟩
    · rw [hpub rfl, hm]; exact h2
    · rw [hm]; exact h3.trans (hc i)
  | _ => exact hr.trans h

theorem Calls.frame (h : Calls s) (hpc : s'.pc = s.pc) (hr : s'.reqs = s.reqs) (hm : s'.mine = s.mine)
    (hpub : s'.published = s.published) (hc : ∀ i, s.consumed.count i ≤ s'.consumed.count i) : Calls s' := by
  intro q
  rw [hpc]
  exact (h q).grow (by rw [hr]) (by rw [hm]) (fun _ => hpub) hc

theorem Calls.move (h : Calls s) (hpc : s'.pc = update s.pc p a) (ha : a.Called s' p)
    (hr : ∀ q, q ≠ p → s'.reqs q = s.reqs q ∧ s'.mine q = s.mine q)
    (hpub : ∀ q, q ≠ p → (s.pc q).locked = true → s'.published = s.published) (hc : s'.consumed = s.consumed) :
    Calls s' := by
  intro q
  rw [hpc]
  exact update_ind q ha fun q e => (h q).grow (hr q e).1 (hr q e).2 (hpub q e) fun _ => hc ▸ le_rfl

theorem Calls.goto (h : Calls s) (hpc : s'.pc = update s.pc p a) (hr : s'.reqs = s.reqs) (hm : s'.mine = s.mine)
    (hpub : s'.published = s.published) (hc : s'.consumed = s.consumed) (ha : (s.pc p).Called s p → a.Called s p) :
    Calls s' := by
  refine h.move hpc ((ha (h p)).grow (by rw [hr]) (by rw [hm]) (fun _ => hpub) fun _ => hc ▸ le_rfl)
    (fun q _ => ⟨by rw [hr], by rw [hm]⟩) (fun _ _ _ => hpub) hc

theorem Calls.acquire (h : Calls s) {r : Except Panic (St N)} (hs : s.acquire p a = some r)
    (ha : (s.pc p).Called s p → a.Called s p) : ∀ s', r = .ok s' → Calls s' := by
  rw [St.acquire] at hs
  split at hs
  · cases hs
    rintro s' ⟨⟩
    exact h.goto rfl rfl rfl rfl rfl ha
  · cases hs

end

theorem Inv.clear_served (hi : Inv s) {p : Fin N} {b i j k : Nat} (hp : s.pc p = .clear b i j k) :
    s.published.count i = s.mine p ∧ s.completed.count i = s.mine p ∧ s.consumed.count i = s.mine p := by
  have hm := hi.queues.mine p i (by rw [hp]; rfl)
  have hn := hi.queues.not_mem hi.parts (p := p) (i := i) (by rw [hp]; simp [Pc.chain]) (not_waits (by rw [hp]; rfl) i)
  rw [hm]
  exact ⟨rfl, hi.queues.served hn⟩

theorem Calls.stepProc (hi : Inv s) (hc : Calls s) {p : Fin N} (h : stepProc blockno s p = some (.ok s')) : Calls s' := by
  have hp := hc p
  rw [Virtio.stepProc] at h
  split at h
  case h_1 => cases h
  case h_2 e | h_4 e | h_9 e => exact hc.acquire h (by rw [e]; exact id) s' rfl
  case h_3 b w e =>
    rcases alloc3_desc_cases s.d with ⟨i, j, k, ea, -⟩ | ⟨desc, ea, -⟩ <;> rw [ea] at h <;> cases h <;>
      exact hc.goto rfl rfl rfl rfl rfl (by rw [e]; exact id)
  case h_5 e | h_6 e => cases h; exact hc.goto rfl rfl rfl rfl rfl (by rw [e]; exact id)
  case h_7 b i j k e =>
    cases h
    rw [e] at hp
    obtain ⟨hdi, ⟨fl, -, hdj⟩, -⟩ := hi.parts.shape p b i j k (by rw [e]; rfl)
    refine hc.move rfl ?_ (fun q hq => ⟨update_of_ne hq .., update_of_ne hq ..⟩) (fun q hq hl => ?_) rfl
    · show update s.reqs p (s.reqs p ++ _) p = _
      rw [update_self, show s.reqs p = [] from hp, hdi, hdj]
      rfl
    · exact absurd (hi.locks.alone (by rw [e]; rfl) hl) hq
  case h_8 b i j k e =>
    split at h <;> cases h <;> exact hc.goto rfl rfl rfl rfl rfl (by rw [e]; exact id)
  case h_10 b i j k e =>
    cases h
    obtain ⟨h1, -, h2⟩ := hi.clear_served e
    refine hc.goto rfl rfl rfl rfl rfl fun hr => ?_
    rw [e] at hr
    exact ⟨i, hr, h1, h2.ge⟩
  case h_11 b c left e =>
    cases hf : free_desc s.d c with
    | error x => rw [hf] at h; cases h
    | ok d =>
      rw [hf] at h
      cases h
      refine hc.goto rfl rfl rfl rfl rfl fun hr => ?_
      rw [e] at hr
      split <;> exact hr
  case h_12 e => cases h; exact hc.goto rfl rfl rfl rfl rfl fun _ => trivial

theorem Calls.stepDev (hc : Calls s) {a : Act N} (h : stepDev s a = some s') : Calls s' := by
  have hk : s'.pc = s.pc ∧ s'.reqs = s.reqs ∧ s'.mine = s.mine ∧ s'.published = s.published ∧ s'.consumed = s.consumed := by
    cases a <;> simp only [Virtio.stepDev, Option.bind_eq_some_iff, Option.map_eq_some_iff] at h <;> grind
  exact hc.frame hk.1 hk.2.1 hk.2.2.1 hk.2.2.2.1 fun _ => hk.2.2.2.2 ▸ le_rfl

theorem Calls.next (hi : Inv s) (hc : Calls s) {a : Act N} (h : next blockno s a = some (.ok s')) : Calls s' := by
  have hdev : ∀ a, (Virtio.stepDev s a).map (Except.ok (ε := Panic)) = some (.ok s') → Calls s' := by
    intro a h
    obtain ⟨t, ht, ⟨⟩⟩ := Option.map_eq_some_iff.mp h
    exact hc.stepDev ht
  cases a with
  | call p b w =>
    simp only [Virtio.next] at h
    split at h
    · cases h
      exact hc.move rfl (update_self ..) (fun q hq => ⟨update_of_ne hq .., rfl⟩) (fun _ _ _ => rfl) rfl
    · cases h
  | step p => exact hc.stepProc hi h
  | intr =>
    simp only [Virtio.next] at h
    split at h <;> cases h
    exact hc.frame rfl rfl rfl rfl fun _ => le_rfl
  | istep =>
    simp only [Virtio.next, Virtio.stepIntr] at h
    split at h
    case h_1 => cases h
    case h_2 | h_3 | h_6 => cases h; exact hc.frame rfl rfl rfl rfl fun _ => le_rfl
    case h_4 => split at h <;> cases h; exact hc.frame rfl rfl rfl rfl fun _ => le_rfl
    case h_5 =>
      split at h <;> cases h
      exact hc.frame rfl rfl rfl rfl fun i => by rw [List.count_append]; exact Nat.le_add_right ..
  | take => exact hdev _ h
  | work n => exact hdev _ h
  | store n => exact hdev _ h
  | push => exact hdev _ h

theorem returns_of_idle {p : Fin N} (h : Virtio.next blockno s (.step p) = some (.ok s')) (hs : s'.pc p = .idle) :
    ∃ b, s.pc p = .rel b ∧ s' = { s.goto p .idle with lock := none } := by
  have hg : ∀ {a : Pc}, update s.pc p a p = .idle → a = .idle := fun e => (update_self p _ s.pc).symm.trans e
  simp only [Virtio.next, Virtio.stepProc] at h
  split at h
  case h_12 b e => cases h; exact ⟨b, e, rfl⟩
  case h_1 => cases h
  case h_2 | h_4 | h_9 =>
    rw [St.acquire] at h
    split at h <;> cases h
    cases hg hs
  case h_3 =>
    rcases alloc3_desc_cases s.d with ⟨i, j, k, ea, -⟩ | ⟨desc, ea, -⟩ <;> rw [ea] at h <;> cases h <;> cases hg hs
  case h_5 | h_6 | h_7 | h_10 => cases h; cases hg hs
  case h_8 => split at h <;> cases h <;> cases hg hs
  case h_11 b c left e =>
    cases hf : free_desc s.d c with
    | error x => rw [hf] at h; cases h
    | ok d =>
      rw [hf] at h
      cases h
      have := hg hs
      split at this <;> cases this

theorem calls_reach (h : (sys N blockno).Reach s) : Calls s := by
  refine Lib.Sys.invariant (fun s hs => ?_) (fun s a s' hr hc hs => ?_) h
  · cases hs
    exact fun _ => trivial
  · obtain ⟨r, hn, e⟩ := Option.bind_eq_some_iff.mp hs
    obtain ⟨t, rfl, -⟩ := (inv_reach hr).next hn
    cases e
    exact hc.next (inv_reach hr) hn

/-- Free descriptors and chains partition the descriptors. The device takes the heads as they were published; none
    is overwritten before. A head in the used ring is that of a request whose process waits. A call that returns has
    published one request, and all requests with that head, its own the last, have been completed and consumed, each
    once. Nothing panics. -/
theorem driver_protocol (h : (sys N blockno).Reach s) :
    ((∀ p, (s.pc p).chain.Nodup ∧ ∀ i ∈ (s.pc p).chain, i < NUM) ∧
      ∀ i < NUM, (s.d.free i = true ∧ ∀ p, i ∉ (s.pc p).chain) ∨ (s.d.free i = false ∧ ∃! p, i ∈ (s.pc p).chain)) ∧
    (s.published = s.taken ++ s.availQ ∧
      ∀ p b i j k, s.pc p = .ring b i j k → ∀ n < (s.d.availIdx - s.dev.last).toNat,
        (s.dev.last.toNat + n) % NUM ≠ s.d.availIdx.toNat % NUM) ∧
    (∀ x ∈ s.usedQ, ∃ p b j k, (s.pc p = .wait b x j k ∨ s.pc p = .sleepBuf b x j k) ∧ s.d.bdisk b = true ∧
      (s.d.info x).b = some b) ∧
    (∀ p s', next blockno s (.step p) = some (.ok s') → s'.pc p = .idle →
      ∃ b i, (s.pc p).buf = some b ∧ s'.reqs p = [(i, .data b)] ∧ s'.published.count i = s'.mine p ∧
        s'.completed.count i = s'.mine p ∧ s'.consumed.count i = s'.mine p) ∧
    (∀ x, s.consumed.count x ≤ s.completed.count x ∧ s.completed.count x ≤ s.published.count x) ∧
    ∀ a e, next blockno s a ≠ some (.error e) := by
  have hi := inv_reach h
  have hq := hi.queues
  refine ⟨⟨fun p => ⟨hi.parts.nodup p, hi.parts.lt p⟩, fun i hlt => ?_⟩, ⟨hq.published, ?_⟩, ?_, ?_, ?_, ?_⟩
  · cases hf : s.d.free i with
    | true =>
      refine .inl ⟨rfl, fun p hp => ?_⟩
      have := hi.parts.taken p i hp
      rw [hf] at this
      cases this
    | false =>
      obtain ⟨p, hp⟩ := hi.parts.owned i hlt hf
      exact .inr ⟨rfl, p, hp, fun q hq => hi.parts.unique q p i hq hp⟩
  · intro p b i j k hp n hn
    have hroom := hq.avail_room hi.parts (p := p) (i := i) (by rw [hp]; simp [Pc.chain]) (not_waits (by rw [hp]; rfl) i)
    exact Lib.ring_slot_ne NUM_dvd hroom hn
  · intro x hx
    obtain ⟨p, b, hw, hd⟩ := (hq.mem x).mp (List.mem_append_right _ (List.mem_append_right _ hx))
    obtain ⟨j, k, hr⟩ := Pc.req_of_waits hw
    refine ⟨p, b, j, k, ?_, hd, hi.parts.info p b x j k hr⟩
    revert hw hr
    cases s.pc p <;> simp +contextual [Pc.waits, Pc.req]
  · intro p s' hs hidle
    obtain ⟨b, hb, rfl⟩ := returns_of_idle hs hidle
    obtain ⟨i, h1, h2, h3⟩ : ∃ i, _ := hb ▸ calls_reach h p
    obtain ⟨c1, c2, c3, -⟩ := hq.counts i
    exact ⟨b, i, by rw [hb]; rfl, h1, h2, by show s.completed.count i = s.mine p; omega,
      by show s.consumed.count i = s.mine p; omega⟩
  · intro x
    obtain ⟨h1, h2, h3, -⟩ := hq.counts x
    omega
  · intro a e hn
    obtain ⟨t, ht, -⟩ := hi.next hn
    cases ht

/-- Two processes, a read of block 5 and a write of block 6; both requests complete, the second
    one first; one interrupt covers both; the write returns, the read is still asleep. -/
theorem driver_protocol_two :
    ∃ s s' : St 2, (sys 2 fun b => b).Reach s ∧ next (fun b => b) s (.step 1) = some (.ok s') ∧
      s.pc 1 = .rel 6 ∧ s'.pc 1 = .idle ∧ s.pc 0 = .sleepBuf 5 0 1 2 ∧ s.completed = [3, 0] ∧
      (s.d.ops 3).type = VIRTIO_BLK_T_OUT ∧ s'.reqs 1 = [(3, .data 6)] ∧ s'.consumed.count 3 = s'.mine 1 ∧ s'.mine 1 = 1 := by
  let call (p : Fin 2) (b : Nat) (w : Bool) : List (Act 2) := [.call p b w] ++ List.replicate 6 (.step p)
  let device : List (Act 2) :=
    [.take, .take, .work 1, .store 1, .work 0, .push, .store 0, .push]
  let handler : List (Act 2) := [.intr] ++ List.replicate 10 .istep
  obtain ⟨s, hs⟩ : ∃ s, Lib.Sys.runAll (fun s a => (next (fun b => b) s a).bind Except.toOption) (fun _ _ => true) (init 2)
      (call 0 5 false ++ call 1 6 true ++ device ++ handler ++ List.replicate 6 (.step 1)) = some s := ⟨_, rfl⟩
  have hr : (sys 2 fun b => b).Reach s := Lib.Sys.reach_of_runAll_true rfl hs
  have hp := (driver_protocol hr).2.2.2.1 1
  cases hs
  obtain ⟨b, i, hb, hreq, -, -, hcon⟩ := hp _ rfl rfl
  cases hb
  cases hreq
  exact ⟨_, _, hr, rfl, rfl, rfl, rfl, rfl, rfl, rfl, hcon, rfl⟩

end Xv6.Virtio
