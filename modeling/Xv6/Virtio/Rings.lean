/-
  Xv6.Virtio.Rings — the heads on their way: in the avail ring, with the device, in the used
  ring.

  `Queues`: they are distinct, and are the heads of the requests that a process waits for.
  So neither ring is ever full when something is stored in it, and each head goes once from
  one list of the history to the next.
-/

import Mathlib.Data.Fintype.Card
import Xv6.Virtio.Descriptors

namespace Xv6.Virtio

open Function (update update_self update_of_ne forall_update_iff)
open Lib (pending pending_pop update_ind)

variable {N : Nat}

/-- Published, and not yet taken by the device. -/
def St.availQ (s : St N) : List Nat := pending s.d.availRing NUM s.dev.last s.d.availIdx

/-- Completed by the device, and not yet consumed by the handler. -/
def St.usedQ (s : St N) : List Nat := pending s.d.usedRing NUM s.d.used_idx s.d.usedIdx

/-- With the device. -/
def St.heads (s : St N) : List Nat := s.dev.flight.map (·.head)

@[grind] def St.queue (s : St N) : List Nat := s.availQ ++ (s.heads ++ s.usedQ)

/-- The request that the process waits for. -/
def Pc.waits : Pc → Option (Nat × Nat)
  | .wait b i _ _ | .sleepBuf b i _ _ => some (b, i)
  | _ => none

/-- The buffer of a request that is being published. -/
def Pc.posting : Pc → Option Nat
  | .ring b _ _ _ | .publish b _ _ _ => some b
  | _ => none

/-- The head of a request that has been published, until its descriptors are given back. -/
def Pc.posted : Pc → Option Nat
  | .wait _ i _ _ | .sleepBuf _ i _ _ | .clear _ i _ _ => some i
  | _ => none

/-- The process at `a` waits for the request with head `h`, and it is not done. -/
def Waits (d : Disk) (a : Pc) (h : Nat) : Prop := ∃ b, a.waits = some (b, h) ∧ d.bdisk b = true

theorem Pc.req_of_waits {a : Pc} {b i : Nat} (h : a.waits = some (b, i)) : ∃ j k, a.req = some (b, i, j, k) := by
  cases a <;> cases h <;> exact ⟨_, _, rfl⟩

theorem Pc.buf_of_posting {a : Pc} {b : Nat} (h : a.posting = some b) : a.buf = some b := by
  cases a <;> cases h <;> rfl

theorem Pc.mem_chain_of_posted {a : Pc} {i : Nat} (h : a.posted = some i) : i ∈ a.chain := by
  cases a <;> cases h <;> simp [chain]

theorem Pc.mem_chain_of_waits {a : Pc} {b i : Nat} (h : a.waits = some (b, i)) : i ∈ a.chain := by
  obtain ⟨j, k, hr⟩ := a.req_of_waits h
  rw [a.chain_of_req hr]
  simp

theorem not_waits {d : Disk} {a : Pc} (h : a.waits = none) (x : Nat) : ¬ Waits d a x := by
  rintro ⟨b, hb, -⟩
  rw [h] at hb
  cases hb

theorem waits_iff {d d' : Disk} {a c : Pc} (h : a.waits = none) (h' : c.waits = none) (x : Nat) :
    Waits d' a x ↔ Waits d c x :=
  ⟨fun hx => absurd hx (not_waits h x), fun hx => absurd hx (not_waits h' x)⟩

/-- What the handler knows of the used ring. -/
def IPc.Knows (d : Disk) : IPc → Prop
  | .load => d.used_idx ≠ d.usedIdx
  | .status id => d.used_idx ≠ d.usedIdx ∧ id = d.usedRing (d.used_idx.toNat % NUM)
  | .done id => d.used_idx ≠ d.usedIdx ∧ id = d.usedRing (d.used_idx.toNat % NUM)
  | _ => True

theorem IPc.Knows.congr {d d' : Disk} {a : IPc} (h : a.Knows d) (r1 : d'.usedRing = d.usedRing)
    (r2 : d'.usedIdx = d.usedIdx) (r3 : d'.used_idx = d.used_idx) : a.Knows d' := by
  cases a <;> simp only [Knows, r1, r2, r3] <;> exact h

/-- What the device knows of a chain it has. -/
def Flight.Ok (d : Disk) (f : Flight) : Prop :=
  f.status = .status f.head ∧ (f.done = true → (d.info f.head).status = 0)

structure Queues (s : St N) : Prop where
  nodup : s.queue.Nodup
  mem : ∀ h, h ∈ s.queue ↔ ∃ p, Waits s.d (s.pc p) h
  posting : ∀ p b, (s.pc p).posting = some b → s.d.bdisk b = true
  stored : ∀ p b i j k, s.pc p = .publish b i j k → s.d.availRing (s.d.availIdx.toNat % NUM) = i
  flight : ∀ f ∈ s.dev.flight, f.Ok s.d
  used : ∀ h ∈ s.usedQ, (s.d.info h).status = 0
  storing : ∀ n, s.dev.storing = some n →
    ∃ f, s.dev.flight[n]? = some f ∧ f.done = true ∧ s.d.usedRing (s.d.usedIdx.toNat % NUM) = f.head
  handler : s.ipc.Knows s.d
  published : s.published = s.taken ++ s.availQ
  taken : s.taken.Perm (s.completed ++ s.heads)
  completed : s.completed = s.consumed ++ s.usedQ
  mine : ∀ p i, (s.pc p).posted = some i → s.mine p = s.published.count i

theorem Queues.calls {s : St N} {r : Fin N → List (Nat × Addr)} (h : Queues s) : Queues { s with reqs := r } :=
  ⟨h.nodup, h.mem, h.posting, h.stored, h.flight, h.used, h.storing, h.handler, h.published, h.taken, h.completed, h.mine⟩

theorem NUM_dvd : NUM ∣ 2 ^ 16 := by decide

theorem length_lt_of_nodup {l : List Nat} {h : Nat} (hl : l.Nodup) (hlt : ∀ x ∈ l, x < NUM) (hh : h < NUM)
    (hn : h ∉ l) : l.length < NUM := by
  have hnd : (h :: l).Nodup := List.nodup_cons.mpr ⟨hn, hl⟩
  have hsub : (h :: l) ⊆ List.range NUM := by
    intro x hx
    rcases List.mem_cons.mp hx with rfl | hx
    · exact List.mem_range.mpr hh
    · exact List.mem_range.mpr (hlt x hx)
  have := (hnd.subperm hsub).length_le
  rwa [List.length_cons, List.length_range] at this

section

variable {s s' : St N}

theorem Queues.lt (h : Queues s) (hp : Parts s.d s.pc) {x : Nat} (hx : x ∈ s.queue) : x < NUM := by
  obtain ⟨p, b, hw, -⟩ := (h.mem x).mp hx
  exact hp.lt p x (Pc.mem_chain_of_waits hw)

section

variable (h : Queues s) (hp : Parts s.d s.pc) {p : Fin N} {i : Nat} (hi : i ∈ (s.pc p).chain) (hw : ¬ Waits s.d (s.pc p) i)
include h hp hi hw

theorem Queues.not_mem : i ∉ s.queue := by
  intro hx
  obtain ⟨q, b, hq, hb⟩ := (h.mem i).mp hx
  have := hp.unique p q i hi (Pc.mem_chain_of_waits hq)
  subst this
  exact hw ⟨b, hq, hb⟩

theorem Queues.avail_room : (s.d.availIdx - s.dev.last).toNat < NUM := by
  have hlen := length_lt_of_nodup h.nodup (fun x hx => h.lt hp hx) (hp.lt p i hi) (h.not_mem hp hi hw)
  have e : s.availQ.length = (s.d.availIdx - s.dev.last).toNat := Lib.pending_length
  rw [St.queue, List.length_append] at hlen
  omega

end

theorem Queues.used_room (h : Queues s) (hp : Parts s.d s.pc) {f : Flight} (hf : f ∈ s.dev.flight) :
    (s.d.usedIdx - s.d.used_idx).toNat < NUM := by
  have hf : f.head ∈ s.heads := List.mem_map_of_mem hf
  have hnd := (List.nodup_append.mp h.nodup).2.1
  have hn : f.head ∉ s.usedQ := fun hu => (List.nodup_append.mp hnd).2.2 _ hf _ hu rfl
  have hlt : ∀ x ∈ s.usedQ, x < NUM := fun x hx =>
    h.lt hp (List.mem_append_right _ (List.mem_append_right _ hx))
  have := length_lt_of_nodup (List.nodup_append.mp hnd).2.1 hlt
    (h.lt hp (List.mem_append_right _ (List.mem_append_left _ hf))) hn
  rwa [St.usedQ, Lib.pending_length] at this

theorem St.usedQ_pop (h : s.d.used_idx ≠ s.d.usedIdx) :
    s.usedQ = s.d.usedRing (s.d.used_idx.toNat % NUM) ::
      pending s.d.usedRing NUM (s.d.used_idx + 1) s.d.usedIdx :=
  pending_pop NUM_dvd h

/-! ## Steps of a process -/

section

variable (h : Queues s)
include h

section

variable {p : Fin N} {c a : Pc} {d : Disk} {l : Option (Who N)} (hp : s.pc p = c)
  (hused : d.usedRing = s.d.usedRing ∧ d.usedIdx = s.d.usedIdx ∧ d.used_idx = s.d.used_idx)
  (hwaits : ∀ x, Waits d a x ↔ Waits s.d c x)
  (hdisk : ∀ q, q ≠ p → ∀ b, (s.pc q).buf = some b → d.bdisk b = s.d.bdisk b)
  (hstatus : ∀ x ∈ s.queue, (d.info x).status = (s.d.info x).status)
  (hpost : ∀ b, a.posting = some b → d.bdisk b = true)
  (hposted : ∀ i, a.posted = some i → c.posted = some i)
include hp hused hwaits hdisk hstatus hpost hposted

theorem Queues.move (havail : pending d.availRing NUM s.dev.last d.availIdx = s.availQ)
    (hstored : ∀ q b i j k, update s.pc p a q = .publish b i j k → d.availRing (d.availIdx.toNat % NUM) = i) :
    Queues { s.goto p a with d, lock := l } := by
  subst hp
  obtain ⟨r1, r2, r3⟩ := hused
  have hu : pending d.usedRing NUM d.used_idx d.usedIdx = s.usedQ := by rw [r1, r2, r3]; rfl
  have hq : ({ s.goto p a with d, lock := l } : St N).queue = s.queue :=
    congrArg₂ (fun x y => x ++ (s.heads ++ y)) havail hu
  have hwo : ∀ q x, Waits d (update s.pc p a q) x ↔ Waits s.d (s.pc q) x := by
    refine fun q => update_ind q hwaits fun q e x => exists_congr fun b => and_congr_right fun hb => ?_
    obtain ⟨j, k, hr⟩ := Pc.req_of_waits hb
    rw [hdisk q e b (Pc.buf_of_req hr)]
  refine ⟨by rw [hq]; exact h.nodup, fun x => ?_, ?_, hstored, fun f hf => ⟨(h.flight f hf).1, fun hd => ?_⟩, fun x hx => ?_,
    ?_, h.handler.congr r1 r2 r3, h.published.trans (congrArg _ havail.symm), h.taken,
    h.completed.trans (congrArg _ hu.symm), ?_⟩
  · rw [hq, h.mem x]
    exact exists_congr fun q => (hwo q x).symm
  · exact (forall_update_iff s.pc fun _ y => ∀ b, y.posting = some b → d.bdisk b = true).mpr
      ⟨hpost, fun q e b hb => (hdisk q e b (Pc.buf_of_posting hb)).trans (h.posting q b hb)⟩
  · rw [hstatus _ (List.mem_append_right _ (List.mem_append_left _ (List.mem_map_of_mem hf)))]
    exact (h.flight f hf).2 hd
  · have hx : x ∈ s.usedQ := hu ▸ hx
    rw [hstatus x (List.mem_append_right _ (List.mem_append_right _ hx))]
    exact h.used x hx
  · rw [r1, r2]
    exact h.storing
  · exact (forall_update_iff s.pc fun q y => ∀ i, y.posted = some i → s.mine q = s.published.count i).mpr
      ⟨fun i hi => h.mine p i (hposted i hi), fun q _ => h.mine q⟩

theorem Queues.stay (havail : d.availRing = s.d.availRing ∧ d.availIdx = s.d.availIdx)
    (hpub : ∀ b i j k, a ≠ .publish b i j k) : Queues { s.goto p a with d, lock := l } := by
  refine h.move hp hused hwaits hdisk hstatus hpost hposted (by rw [havail.1, havail.2]; rfl) fun q => ?_
  refine update_ind q (fun b i j k e => absurd e (hpub b i j k)) fun q _ b i j k hq => ?_
  rw [havail.1, havail.2]
  exact h.stored q b i j k hq

end

theorem Queues.ring (hp : Parts s.d s.pc) (p : Fin N) {b i j k : Nat} (hpc : s.pc p = .ring b i j k)
    (halone : ∀ q, q ≠ p → ∀ b i j k, s.pc q ≠ .publish b i j k) :
    Queues { s.goto p (.publish b i j k) with
      d := { s.d with availRing := update s.d.availRing (s.d.availIdx.toNat % NUM) i } } := by
  have hroom := h.avail_room hp (p := p) (i := i) (by rw [hpc]; simp [Pc.chain]) (not_waits (by rw [hpc]; rfl) i)
  refine h.move hpc ⟨rfl, rfl, rfl⟩ (waits_iff rfl rfl) (fun _ _ _ _ => rfl) (fun _ _ => rfl) ?_ nofun
    (Lib.pending_store NUM_dvd hroom i) fun q => ?_
  · intro b' hb
    exact h.posting p b' (by rw [hpc]; exact hb)
  · refine update_ind q (fun b' i' j' k' e => ?_) fun q e b' i' j' k' hq => absurd hq (halone q e b' i' j' k')
    cases e
    exact update_self ..

theorem Queues.publish (hp : Parts s.d s.pc) (p : Fin N) {b i j k : Nat}
    (hpc : s.pc p = .publish b i j k) (halone : ∀ q, q ≠ p → ∀ b i j k, s.pc q ≠ .publish b i j k) :
    Queues { s.goto p (.wait b i j k) with
      d := { s.d with availIdx := s.d.availIdx + 1 }
      published := s.published ++ [i]
      mine := update s.mine p ((s.published ++ [i]).count i) } := by
  have hw : ∀ x, ¬ Waits s.d (s.pc p) x := not_waits (by rw [hpc]; rfl)
  have hi : i ∈ (s.pc p).chain := by rw [hpc]; simp [Pc.chain]
  have hroom := h.avail_room hp hi (hw i)
  have hni := h.not_mem hp hi (hw i)
  have hpush : pending s.d.availRing NUM s.dev.last (s.d.availIdx + 1) = s.availQ ++ [i] := by
    rw [Lib.pending_push NUM_dvd (Nat.lt_trans (Nat.succ_lt_succ hroom) (by decide)), h.stored p b i j k hpc]
    rfl
  have hqueue : (pending s.d.availRing NUM s.dev.last (s.d.availIdx + 1) ++ (s.heads ++ s.usedQ)).Perm
      (i :: s.queue) := by
    rw [hpush, List.append_assoc]
    exact List.perm_middle
  refine ⟨?_, ?_, ?_, ?_, h.flight, h.used, h.storing, h.handler.congr rfl rfl rfl, ?_, h.taken, h.completed, ?_⟩
  · exact hqueue.nodup_iff.mpr (List.nodup_cons.mpr ⟨hni, h.nodup⟩)
  · intro x
    refine hqueue.mem_iff.trans ?_
    rw [List.mem_cons, h.mem x]
    constructor
    · rintro (rfl | ⟨q, hq⟩)
      · exact ⟨p, b, by simp [St.goto, Pc.waits], h.posting p b (by rw [hpc]; rfl)⟩
      · have e : q ≠ p := by
          rintro rfl
          exact hw x hq
        exact ⟨q, by simpa [St.goto, update_of_ne e, Waits] using hq⟩
    · rintro ⟨q, b', hb, hd⟩
      have hb : (update s.pc p (.wait b i j k) q).waits = some (b', x) := hb
      by_cases e : q = p
      · subst e
        rw [update_self] at hb
        cases hb
        exact .inl rfl
      · rw [update_of_ne e] at hb
        exact .inr ⟨q, b', hb, hd⟩
  · exact (forall_update_iff s.pc fun _ y => ∀ b, y.posting = some b → s.d.bdisk b = true).mpr ⟨nofun, fun q _ => h.posting q⟩
  · intro q
    show ∀ b' i' j' k', update s.pc p (.wait b i j k) q = .publish b' i' j' k' → _
    exact update_ind q nofun fun q e b' i' j' k' hq => absurd hq (halone q e b' i' j' k')
  · show s.published ++ [i] = s.taken ++ pending s.d.availRing NUM s.dev.last (s.d.availIdx + 1)
    rw [hpush, h.published, List.append_assoc]
  · intro q x hx
    have hx : (update s.pc p (.wait b i j k) q).posted = some x := hx
    show update s.mine p ((s.published ++ [i]).count i) q = (s.published ++ [i]).count x
    by_cases e : q = p
    · subst e
      rw [update_self] at hx
      cases hx
      rw [update_self]
    · rw [update_of_ne e] at hx
      have hne : i ≠ x := by
        rintro rfl
        exact e (hp.unique q p i (Pc.mem_chain_of_posted hx) hi)
      rw [update_of_ne e, List.count_append, List.count_singleton, h.mine q x hx]
      simp [hne]

/-! ## Steps of the handler -/

theorem Queues.look {a : IPc} {l : Option (Who N)} (hk : a.Knows s.d) :
    Queues { s with ipc := a, lock := l } :=
  ⟨h.nodup, h.mem, h.posting, h.stored, h.flight, h.used, h.storing, hk, h.published, h.taken, h.completed, h.mine⟩

theorem Queues.consume (hp : Parts s.d s.pc) {id b : Nat} (hi : s.ipc = .done id)
    (hb : (s.d.info id).b = some b) :
    Queues { s with
      ipc := .test
      d := { s.d with bdisk := update s.d.bdisk b false, used_idx := s.d.used_idx + 1 }
      consumed := s.consumed ++ [id] } := by
  have hk := h.handler
  rw [hi] at hk
  obtain ⟨hne, rfl⟩ := hk
  have hpop := s.usedQ_pop hne
  generalize hid : s.d.usedRing (s.d.used_idx.toNat % NUM) = id at hb hpop
  have hqueue : s.queue.Perm
      (id :: (s.availQ ++ (s.heads ++ pending s.d.usedRing NUM (s.d.used_idx + 1) s.d.usedIdx))) := by
    rw [St.queue, hpop, ← List.append_assoc, ← List.append_assoc]
    exact List.perm_middle
  have hnd := List.nodup_cons.mp (hqueue.nodup_iff.mp h.nodup)
  -- the process that waits for it, and no other one, has the buffer
  obtain ⟨p, b', hw, -⟩ := (h.mem id).mp (hqueue.mem_iff.mpr (List.mem_cons_self ..))
  obtain ⟨j, k, hr⟩ := Pc.req_of_waits hw
  obtain rfl : b' = b := Option.some.inj ((hp.info p b' id j k hr).symm.trans hb)
  have hbp := Pc.buf_of_req hr
  have hother : ∀ q, q ≠ p → ∀ b, (s.pc q).buf = some b → update s.d.bdisk b' false b = s.d.bdisk b := by
    intro q hq b hb
    have hne : b ≠ b' := fun e => hq (hp.bufs q p b hb (by rw [e]; exact hbp))
    exact update_of_ne hne ..
  refine ⟨hnd.2, ?_, ?_, h.stored, h.flight, ?_, h.storing, trivial, h.published, h.taken, ?_, h.mine⟩
  · intro x
    constructor
    · intro hx
      obtain ⟨q, b, hq, hd⟩ := (h.mem x).mp (hqueue.mem_iff.mpr (List.mem_cons_of_mem _ hx))
      have hne : q ≠ p := by
        rintro rfl
        cases hw.symm.trans hq
        exact hnd.1 hx
      obtain ⟨j, k, hr⟩ := Pc.req_of_waits hq
      exact ⟨q, b, hq, (hother q hne b (Pc.buf_of_req hr)).trans hd⟩
    · rintro ⟨q, b, hq, hd⟩
      have hd : update s.d.bdisk b' false b = true := hd
      have hne : q ≠ p := by
        rintro rfl
        cases hw.symm.trans hq
        rw [update_self] at hd
        cases hd
      obtain ⟨j, k, hr'⟩ := Pc.req_of_waits hq
      rw [hother q hne b (Pc.buf_of_req hr')] at hd
      refine List.mem_of_ne_of_mem (fun e => hne ?_) (hqueue.mem_iff.mp ((h.mem x).mpr ⟨q, b, hq, hd⟩))
      exact hp.unique q p id (e ▸ Pc.mem_chain_of_waits hq) (Pc.mem_chain_of_waits hw)
  · intro q b hq
    have hne : q ≠ p := by
      rintro rfl
      revert hq hw
      cases s.pc q <;> simp [Pc.posting, Pc.waits]
    exact (hother q hne b (Pc.buf_of_posting hq)).trans (h.posting q b hq)
  · intro x hx
    exact h.used x (by rw [hpop]; exact List.mem_cons_of_mem _ hx)
  · show s.completed = s.consumed ++ [id] ++ pending s.d.usedRing NUM (s.d.used_idx + 1) s.d.usedIdx
    rw [h.completed, hpop, List.append_assoc]
    rfl

/-! ## Steps of the device -/

theorem Queues.take (hp : Parts s.d s.pc) (hne : s.dev.last ≠ s.d.availIdx) :
    let x := s.d.availRing (s.dev.last.toNat % NUM)
    Queues { s with
      dev := { s.dev with
        last := s.dev.last + 1, flight := s.dev.flight ++ [⟨x, (chainEnd s.d.desc NUM x).addr, false⟩] }
      taken := s.taken ++ [x] } := by
  intro x
  have hpop : s.availQ = x :: pending s.d.availRing NUM (s.dev.last + 1) s.d.availIdx := pending_pop NUM_dvd hne
  have hqueue : (pending s.d.availRing NUM (s.dev.last + 1) s.d.availIdx ++
      ((s.dev.flight ++ [(⟨x, (chainEnd s.d.desc NUM x).addr, false⟩ : Flight)]).map (·.head) ++ s.usedQ)).Perm
      s.queue := by
    rw [St.queue, hpop, List.map_append, List.map_singleton, List.append_assoc, List.singleton_append,
      ← List.append_assoc, List.cons_append, ← List.append_assoc]
    exact List.perm_middle
  have hend : (chainEnd s.d.desc NUM x).addr = .status x := by
    have hx : x ∈ s.queue := List.mem_append_left _ (by rw [hpop]; exact List.mem_cons_self ..)
    obtain ⟨p, b, hw, -⟩ := (h.mem x).mp hx
    obtain ⟨j, k, hr⟩ := Pc.req_of_waits hw
    exact (hp.shape p b x j k hr).chainEnd
  refine ⟨hqueue.nodup_iff.mpr h.nodup, fun y => hqueue.mem_iff.trans (h.mem y), h.posting, h.stored, ?_, h.used, ?_,
    h.handler, ?_, ?_, h.completed, h.mine⟩
  · intro f hf
    rcases List.mem_append.mp hf with hf | hf
    · exact h.flight f hf
    · rw [List.mem_singleton.mp hf]
      exact ⟨hend, nofun⟩
  · intro n hn
    obtain ⟨f, hf, h2⟩ := h.storing n hn
    refine ⟨f, ?_, h2⟩
    show (s.dev.flight ++ _)[n]? = some f
    rw [List.getElem?_append_left (List.getElem?_eq_some_iff.mp hf).1]
    exact hf
  · show s.published = s.taken ++ [x] ++ pending s.d.availRing NUM (s.dev.last + 1) s.d.availIdx
    rw [h.published, hpop, List.append_assoc]
    rfl
  · show (s.taken ++ [x]).Perm (s.completed ++ (s.dev.flight ++ [_]).map Flight.head)
    rw [List.map_append, List.map_singleton, ← List.append_assoc]
    exact h.taken.append_right _

theorem Queues.work {n : Nat} {f : Flight} (hf : s.dev.flight[n]? = some f) :
    Queues { s with
      dev := { s.dev with flight := s.dev.flight.set n { f with done := true } }
      d := match f.status with
        | .status i => { s.d with info := update s.d.info i { s.d.info i with status := 0 } }
        | _ => s.d } := by
  have hn := (List.getElem?_eq_some_iff.mp hf).1
  have hmem : f ∈ s.dev.flight := List.mem_of_getElem? hf
  obtain ⟨x, a, dn⟩ := f
  obtain rfl : a = .status x := (h.flight _ hmem).1
  have hh : (s.dev.flight.set n ⟨x, .status x, true⟩).map Flight.head = s.heads := by
    refine List.ext_getElem? fun m => ?_
    rw [St.heads, List.getElem?_map, List.getElem?_map, List.getElem?_set]
    by_cases e : n = m
    · subst e
      rw [if_pos rfl, if_pos hn, hf]
      rfl
    · rw [if_neg e]
  have hst : ∀ y, (s.d.info y).status = 0 →
      (update s.d.info x { s.d.info x with status := 0 } y).status = 0 := by
    intro y hy
    by_cases e : y = x
    · rw [e, update_self]
    · rw [update_of_ne e]; exact hy
  refine ⟨?_, ?_, h.posting, h.stored, ?_, ?_, ?_, h.handler.congr rfl rfl rfl, h.published, ?_, h.completed, h.mine⟩
  · show (s.availQ ++ ((s.dev.flight.set n _).map (·.head) ++ s.usedQ)).Nodup
    rw [hh]; exact h.nodup
  · intro y
    show y ∈ s.availQ ++ ((s.dev.flight.set n _).map (·.head) ++ s.usedQ) ↔ _
    rw [hh]; exact h.mem y
  · intro g hg
    rcases List.mem_or_eq_of_mem_set hg with hg | rfl
    · exact ⟨(h.flight g hg).1, fun hd => hst _ ((h.flight g hg).2 hd)⟩
    · exact ⟨rfl, fun _ => by simp⟩
  · exact fun y hy => hst y (h.used y hy)
  · intro m hm
    obtain ⟨g, hg, hd, hr⟩ := h.storing m hm
    by_cases e : m = n
    · subst e
      cases hf.symm.trans hg
      exact ⟨⟨x, .status x, true⟩, by simp [hn], rfl, hr⟩
    · exact ⟨g, by simpa [List.getElem?_set, Ne.symm e] using hg, hd, hr⟩
  · show s.taken.Perm (s.completed ++ (s.dev.flight.set n _).map (·.head))
    rw [hh]; exact h.taken

theorem Queues.store (hp : Parts s.d s.pc) {n : Nat} {f : Flight} (hf : s.dev.flight[n]? = some f)
    (hd : f.done = true) :
    Queues { s with
      dev := { s.dev with storing := some n }
      d := { s.d with usedRing := update s.d.usedRing (s.d.usedIdx.toNat % NUM) f.head } } := by
  have hroom := h.used_room hp (List.mem_of_getElem? hf)
  have hu := Lib.pending_store (r := s.d.usedRing) NUM_dvd hroom f.head
  -- what the handler has read is pending, so it stays
  have hslot : s.d.used_idx ≠ s.d.usedIdx →
      update s.d.usedRing (s.d.usedIdx.toNat % NUM) f.head (s.d.used_idx.toNat % NUM) =
        s.d.usedRing (s.d.used_idx.toNat % NUM) := by
    intro hne
    have := hu
    rw [pending_pop NUM_dvd hne, pending_pop NUM_dvd hne] at this
    exact (List.cons.inj this).1
  refine ⟨?_, ?_, h.posting, h.stored, h.flight, ?_, ?_, ?_, h.published, h.taken, ?_, h.mine⟩
  · show (_ ++ (_ ++ pending _ NUM _ _)).Nodup
    rw [hu]; exact h.nodup
  · intro x
    show x ∈ _ ++ (_ ++ pending _ NUM _ _) ↔ _
    rw [hu]; exact h.mem x
  · show ∀ x ∈ pending _ NUM _ _, _
    rw [hu]; exact h.used
  · intro m hm
    cases hm
    exact ⟨f, hf, hd, update_self ..⟩
  · have hk := h.handler
    revert hk
    cases hi : s.ipc with
    | status id | done id => exact fun hk => ⟨hk.1, hk.2.trans (hslot hk.1).symm⟩
    | load => exact fun hk => hk
    | off => exact fun _ => trivial
    | test => exact fun _ => trivial
    | rel => exact fun _ => trivial
  · show _ = _ ++ pending _ NUM _ _
    rw [hu]; exact h.completed

theorem Queues.push (hp : Parts s.d s.pc) {n : Nat} {f : Flight} (hs : s.dev.storing = some n)
    (hf : s.dev.flight[n]? = some f) :
    Queues { s with
      dev := { s.dev with storing := none, flight := s.dev.flight.eraseIdx n }
      d := { s.d with usedIdx := s.d.usedIdx + 1 }
      completed := s.completed ++ [f.head] } := by
  obtain ⟨g, hg, hd, hring⟩ := h.storing n hs
  cases hf.symm.trans hg
  have hmem := List.mem_of_getElem? hf
  have hroom := h.used_room hp hmem
  have hpush : pending s.d.usedRing NUM s.d.used_idx (s.d.usedIdx + 1) = s.usedQ ++ [f.head] := by
    rw [Lib.pending_push NUM_dvd (Nat.lt_trans (Nat.succ_lt_succ hroom) (by decide)), hring]
    rfl
  obtain ⟨hn, hfn⟩ := List.getElem?_eq_some_iff.mp hf
  have hheads : s.heads.Perm (f.head :: (s.dev.flight.eraseIdx n).map (·.head)) := by
    have := (List.getElem_cons_eraseIdx_perm hn).map (·.head)
    rw [hfn] at this
    exact this.symm
  have hqueue : (s.availQ ++ ((s.dev.flight.eraseIdx n).map (·.head) ++
      pending s.d.usedRing NUM s.d.used_idx (s.d.usedIdx + 1))).Perm s.queue := by
    rw [hpush, St.queue]
    refine List.Perm.append_left _ ?_
    rw [← List.append_assoc]
    refine (List.perm_append_comm).trans ?_
    exact (hheads.append_right s.usedQ).symm
  refine ⟨hqueue.nodup_iff.mpr h.nodup, fun y => hqueue.mem_iff.trans (h.mem y), h.posting, h.stored, ?_, ?_, nofun, ?_,
    h.published, ?_, ?_, h.mine⟩
  · exact fun g hg => h.flight g (List.mem_of_mem_eraseIdx hg)
  · intro x hx
    have hx : x ∈ pending s.d.usedRing NUM s.d.used_idx (s.d.usedIdx + 1) := hx
    rw [hpush] at hx
    rcases List.mem_append.mp hx with hx | hx
    · exact h.used x hx
    · rw [List.mem_singleton.mp hx]
      exact (h.flight f hmem).2 hd
  · have hk := h.handler
    -- the index that the handler has found ahead of its own stays ahead
    have hne : s.d.used_idx ≠ s.d.usedIdx + 1 := by
      intro e
      have := congrArg List.length hpush
      rw [← e, Lib.pending_self] at this
      simp at this
    revert hk
    cases s.ipc with
    | status id => exact fun hk => ⟨hne, hk.2⟩
    | done id => exact fun hk => ⟨hne, hk.2⟩
    | load => exact fun _ => hne
    | off => exact fun _ => trivial
    | test => exact fun _ => trivial
    | rel => exact fun _ => trivial
  · show s.taken.Perm (s.completed ++ [f.head] ++ (s.dev.flight.eraseIdx n).map (·.head))
    rw [List.append_assoc]
    exact h.taken.trans (hheads.append_left _)
  · show s.completed ++ [f.head] = s.consumed ++ pending s.d.usedRing NUM s.d.used_idx (s.d.usedIdx + 1)
    rw [hpush, h.completed, List.append_assoc]

end

end

end Xv6.Virtio
