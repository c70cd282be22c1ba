/-
  Xv6.Fs.NameSpecs — what `create`, `link` and `unlink` do to the file system that users see.

  Each either leaves it as it was (`Same`) or makes one change of it, `created`, `linked` or
  `unlinked`. These say what the code does, also where it should not: a link count wraps around
  at 16 bits, and an inode whose count has come to 0 goes with the last reference (`release`).
-/

import Xv6.Fs.DirSpecs
import Xv6.Fs.Sys

namespace Xv6.Fs

open Function (update update_self update_of_ne update_eq_self update_idem)
open Lib (Wp wp_bind wp_ite wp_when)

variable {sb : Superblock} [Lost sb] {E : Panic → Prop} {s s' : Core} {i j k : Nat} {h h' : Nat → Nat}

/-! ## All references are to allocated inodes -/

theorem Ready.of_inv (hI : Inv sb s) (ha : ∀ k, 0 < refs s k → (view sb s.disk (s.itable k).inum).type ≠ 0) :
    Ready sb (refs s) s := by
  refine ⟨hI, le_self, ha, fun i hl h1 h2 => ?_⟩
  have hi : i < sb.ninodes := by
    by_contra hc
    rw [view_of_ge (by omega)] at h1
    exact h1 rfl
  have ht : (dinode sb s.disk i).type ≠ 0 := by rw [← view_type hi]; exact h1
  obtain ⟨j, hj⟩ := hI.orphan i hi hl ht (by rw [← view_nlink hi ht]; exact h2)
  exact ⟨j, hj.ref, hj.inum⟩

theorem Ready.changed (hr : Ready sb (refs s) s) {v : Node} (hc : Changed sb i v s s') (hv : v.type ≠ 0) :
    Ready sb (refs s') s' := by
  refine .of_inv hc.inv fun k hk => ?_
  rw [hc.refs] at hk
  rw [hc.view, hc.ext.inum k hk]
  by_cases e : (s.itable k).inum = i
  · rw [e, update_self]; exact hv
  · rw [update_of_ne e]; exact hr.alive k hk

theorem Ready.back (hr : Ready sb h s) (hI : Inv sb s') (he : Ext h s s') (hle : ∀ k, h k ≤ refs s' k)
    (hv : view sb s'.disk = view sb s.disk) : Ready sb h s' := by
  refine ⟨hI, hle, fun k hk => ?_, fun i hl h1 h2 => ?_⟩
  · rw [hv, he.inum k hk]; exact hr.alive k hk
  · rw [hv] at h1 h2
    obtain ⟨k, hk, hki⟩ := hr.orphan i hl h1 h2
    exact ⟨k, hk, (he.inum k hk).trans hki⟩

/-- The last of the `n + 1` references to inode `i` goes, if `n = 0`. -/
def release (V : Nat → Node) (i n : Nat) : Nat → Node :=
  if n = 0 ∧ (V i).nlink = 0 then update V i .free else V

theorem release_of_nlink {V : Nat → Node} {n : Nat} (h : (V i).nlink ≠ 0) : release V i n = V := if_neg fun hc => h hc.2

theorem release_of_pos {V : Nat → Node} {n : Nat} (h : 0 < n) : release V i n = V := if_neg fun hc => by omega

section

variable (hL : Layout sb) (hr : Ready sb (refs s) s) (hrefs : refs s = h + one j) (hj : (s.itable j).inum = i)
  (ho : 0 < s.outstanding)
include hL hr hrefs hj ho

theorem wp_release : Wp E (iput sb j) s fun _ s' =>
      Ready sb (refs s') s' ∧ refs s' = h ∧ Ext h s s' ∧ Logs sb s s' ∧
        view sb s'.disk = release (view sb s.disk) i (h j) := by
  have hpos := pos_of_refs hrefs
  -- an inode without links has been locked by someone
  have hvalid : (view sb s.disk i).nlink = 0 → (s.itable j).valid = true := fun hn => by
    have hi : i < sb.ninodes := hj ▸ hr.inv.table.lt j hpos
    have ht : (dinode sb s.disk i).type ≠ 0 := by
      rw [← view_type hi, ← hj]
      exact hr.alive j hpos
    obtain ⟨l, hl⟩ := hr.inv.orphan i hi (hj ▸ hr.inv.table.live j hpos) ht (by rw [← view_nlink hi ht]; exact hn)
    have : l = j := hr.inv.table.unique l j hl.ref hpos (hl.inum.trans hj.symm)
    exact this ▸ hl.valid
  refine (wp_iput hL hr.inv hrefs ho).mono fun _ t ⟨hI, hl, hreft, he, hv⟩ => ?_
  have hv : view sb t.disk = release (view sb s.disk) i (h j) := by
    rw [hv, release, hj]
    congr 1
    rw [eq_iff_iff]
    exact ⟨fun hc => ⟨hc.1, hc.2.2⟩, fun hc => ⟨hc.1, hvalid hc.2, hc.2⟩⟩
  refine ⟨.of_inv hI fun k hk => ?_, hreft, he, hl, hv⟩
  rw [hreft] at hk
  have hk' : 0 < refs s k := by rw [hrefs]; exact Nat.lt_of_lt_of_le hk (le_add_one h j k)
  rw [hv, he.inum k hk, release]
  split
  · rename_i hc
    have hne : (s.itable k).inum ≠ i := fun e => by
      have := hr.inv.table.unique k j hk' hpos (e.trans hj.symm)
      rw [this] at hk
      omega
    rw [update_of_ne hne]
    exact hr.alive k hk'
  · exact hr.alive k hk'

theorem wp_unlockrelease : Wp E (iunlockput sb j) s fun _ s' =>
      Ready sb (refs s') s' ∧ refs s' = h ∧ Ext h s s' ∧ Logs sb s s' ∧
        view sb s'.disk = release (view sb s.disk) i (h j) := by
  simp only [iunlockput, wp_bind]
  refine (wp_iunlock (pos_of_refs hrefs)).mono fun _ t ht => ?_
  subst ht
  exact wp_release hL hr hrefs hj ho

end

def Node.setNlink (v : Node) (n : Nat) : Node := { v with nlink := n }

@[simp] theorem setNlink_type (v : Node) (n : Nat) : (v.setNlink n).type = v.type := rfl
@[simp] theorem setEntry_type (v : Node) (e : Nat) (x : Dirent) : (v.setEntry e x).type = v.type := rfl
theorem wp_setNlink (hL : Layout sb) (hI : Inv sb s) (hj : Holds s j i) (ho : 0 < s.outstanding) {f : Nat → Nat}
    (hf : f (view sb s.disk i).nlink < 2 ^ 16) :
    Wp E (setNlink sb j f) s fun _ s' =>
      Changed sb i ((view sb s.disk i).setNlink (f (view sb s.disk i).nlink)) s s' := by
  have hi := (hI.mid i).lt hj
  obtain ⟨-, ht⟩ := (hI.mid i).copy_eq hj
  have hfits : (dinode sb s.disk i).Fits := dinode_fits s.disk i
  rw [view_nlink hi ht] at hf ⊢
  refine (wp_setCopy_iupdate hL hI hj ho (f := fun x => { x with nlink := f x.nlink }) rfl
    ⟨hfits.type, hfits.major, hfits.minor, hf, hfits.size, hfits.addrs⟩ rfl rfl rfl).mono fun _ t hc => ?_
  convert hc using 1
  rw [view_eq hi, node_of_type ht]
  rfl

theorem incr_lt (n : Nat) : incr n < 2 ^ 16 := Nat.mod_lt _ (by decide)
theorem decr_lt (n : Nat) : decr n < 2 ^ 16 := Nat.mod_lt _ (by decide)

theorem decr_incr {n : Nat} (h : n < 2 ^ 16) : decr (incr n) = n := by
  unfold incr decr
  omega

theorem nlink_lt (sb : Superblock) (d : Disk) (i : Nat) : (view sb d i).nlink < 2 ^ 16 := by
  by_cases hi : i < sb.ninodes
  · by_cases ht : (dinode sb d i).type = 0
    · rw [view_of_free (by rw [view_type hi, ht])]
      decide
    · rw [view_nlink hi ht]
      exact (dinode_fits d i).nlink
  · rw [view_of_ge (by omega)]
    decide

/-- The call has dropped what it took, and users see no difference. -/
structure Same (sb : Superblock) [Lost sb] (s s' : Core) : Prop where
  ready : Ready sb (refs s') s'
  refs : refs s' = refs s
  view : view sb s'.disk = Fs.view sb s.disk
  ext : Ext (Fs.refs s) s s'
  logs : Logs sb s s'

/-- In the middle of a call that began in `s` with `Ready`: it has the references `g` besides,
    and the file system is `V`. -/
structure During (sb : Superblock) [Lost sb] (s : Core) (g : Nat → Nat) (V : Nat → Node) (t : Core) : Prop where
  ready : Ready sb (refs t) t
  refs : refs t = refs s + g
  view : view sb t.disk = V
  ext : Ext (Fs.refs s) s t
  logs : Logs sb s t

section

variable {g g' : Nat → Nat} {V : Nat → Node} {t t' : Core}

theorem During.out (hd : During sb s g V t) (ho : 0 < s.outstanding) : 0 < t.outstanding := by rw [hd.logs.out]; exact ho

theorem During.le (hd : During sb s g V t) (k : Nat) : Fs.refs s k ≤ Fs.refs t k := by
  rw [hd.refs]
  exact Nat.le_add_right ..

theorem During.start (hd : During sb s g (Fs.view sb s.disk) t) (hr : Ready sb (Fs.refs s) s) : Ready sb (Fs.refs s) t :=
  hr.back hd.ready.inv hd.ext hd.le hd.view

theorem During.put (hd : During sb s (g + one j) (Fs.view sb s.disk) t) (hr : Ready sb (Fs.refs s) s) :
    Wp E (iunlockput sb j) t fun _ t' => During sb s g (Fs.view sb s.disk) t' ∧ Ext (Fs.refs s + g) t t' := by
  have hrefs : Fs.refs t = Fs.refs s + g + one j := by rw [hd.refs, add_assoc]
  have hle : ∀ k, Fs.refs s k ≤ (Fs.refs s + g) k := fun _ => Nat.le_add_right ..
  refine (wp_unlockput (hd.start hr) hle hrefs).mono fun _ t' ⟨htab, hreft, hrt⟩ => ?_
  refine ⟨⟨.of_inv hrt.inv fun k hk => ?_, hreft, by rw [htab.still.disk]; exact hd.view,
    hd.ext.trans (htab.ext.mono fun _ => Nat.le_add_right ..), hd.logs.trans htab.still.logs⟩, htab.ext⟩
  rw [hreft] at hk
  rw [htab.still.disk, htab.ext.inum k hk]
  refine hd.ready.alive k ?_
  rw [hrefs]
  exact Nat.lt_of_lt_of_le hk (le_add_one _ j k)

theorem During.same (hd : During sb s 0 (Fs.view sb s.disk) t) : Same sb s t :=
  ⟨hd.ready, hd.refs, hd.view, hd.ext, hd.logs⟩

theorem During.change (hd : During sb s g V t) {v : Node} (hc : Changed sb i v t t') (hv : v.type ≠ 0) :
    During sb s g (update V i v) t' := by
  refine ⟨hd.ready.changed hc hv, by rw [hc.refs, hd.refs], by rw [hc.view, hd.view],
    hd.ext.trans (hc.ext.mono hd.le), hd.logs.trans hc.logs⟩

theorem During.release (hL : Layout sb) (hd : During sb s (g + one j) V t) (hj : Holds t j i) (ho : 0 < s.outstanding) :
    Wp E (iunlockput sb j) t fun _ t' =>
      During sb s g (Fs.release V i ((Fs.refs s + g) j)) t' ∧ Ext (Fs.refs s + g) t t' := by
  have hrefs : Fs.refs t = Fs.refs s + g + one j := by rw [hd.refs, add_assoc]
  refine (wp_unlockrelease hL hd.ready hrefs hj.inum (hd.out ho)).mono fun _ t' ⟨h1, h2, h3, h4, h5⟩ => ?_
  exact ⟨⟨h1, h2, by rw [h5, hd.view], hd.ext.trans (h3.mono fun _ => Nat.le_add_right ..), hd.logs.trans h4⟩, h3⟩

end

/-! ## Directories stay directories -/

def Node.Ok (sb : Superblock) [Lost sb] (v : Node) : Prop :=
  v.type = T_DIR → v.size % 16 = 0 ∧ ∀ e < v.slots, Nameable sb (v.entry e).inum

theorem Dirs.ok {V : Nat → Node} (hd : Dirs sb V) (hi : Live sb i) : (V i).Ok sb := fun ht => ⟨hd.size i hi ht, hd.names i hi ht⟩

theorem Dirs.update {V : Nat → Node} (hd : Dirs sb V) {v : Node} (hv : Live sb i → v.Ok sb) :
    Dirs sb (Function.update V i v) := by
  have h : ∀ k, Live sb k → (Function.update V i v k).Ok sb :=
    (Function.forall_update_iff V fun k w => Live sb k → w.Ok sb).mpr ⟨hv, fun k _ => hd.ok⟩
  exact ⟨fun k hl hk => (h k hl hk).1, fun k hl hk => (h k hl hk).2⟩

theorem Node.Ok.of_size {v : Node} (h : v.size = 0) : v.Ok sb := by
  intro _
  rw [Node.slots, h]
  exact ⟨rfl, fun e he => absurd he (Nat.not_lt_zero e)⟩

theorem Node.Ok.setEntry (hL : Layout sb) {v : Node} (hv : v.Ok sb) (ht : v.type = T_DIR) {e : Nat} {x : Dirent}
    (he : e ≤ v.slots) (hx : Nameable sb x.inum) (hl : x.name.length ≤ DIRSIZ) (h0 : 0 ∉ x.name) : (v.setEntry e x).Ok sb := by
  intro _
  obtain ⟨h1, h2⟩ := hv ht
  refine ⟨size_setEntry h1, fun m hm => ?_⟩
  by_cases em : m = e
  · rw [em, entry_setEntry_self (Nat.lt_of_lt_of_le hx.lt hL.ninodes_le) hl h0]; exact hx
  · rw [slots_setEntry h1] at hm
    rw [entry_setEntry_of_ne em]
    exact h2 m (by omega)

/-! ## create -/

def newNode (type major minor : Nat) : Node := ⟨type, major, minor, 1, 0, fun _ => 0⟩

/-- Directory `i`, in directory `d`. -/
def Node.withDots (v : Node) (i d : Nat) : Node := (v.setEntry 0 ⟨i, dot⟩).setEntry 1 ⟨d, dotdot⟩

/-- The new inode, and its entry `e` in directory `d`. -/
def created (V : Nat → Node) (type major minor i d e : Nat) (name : List UInt8) : Nat → Node :=
  let v := newNode type major minor
  let v := if type = T_DIR then v.withDots i d else v
  let dir := (V d).setEntry e ⟨i, name⟩
  let dir := if type = T_DIR then dir.setNlink (incr dir.nlink) else dir
  update (update V i v) d dir

theorem dot_length : dot.length ≤ DIRSIZ := by decide
theorem dot_zero : 0 ∉ dot := by decide
theorem dotdot_length : dotdot.length ≤ DIRSIZ := by decide
theorem dotdot_zero : 0 ∉ dotdot := by decide

/-- What `create` knows from when the new inode is there. -/
structure Making (sb : Superblock) [Lost sb] (s : Core) (dp d j i : Nat) (V : Nat → Node) (t : Core) : Prop where
  during : During sb s (one dp + one j) V t
  dir : Holds t dp d
  new : Holds t j i
  dirs : Dirs sb V

variable {V : Nat → Node} {dp d : Nat} {t t' : Core}

theorem ne_of_free (hi : V i = .free) (hd : (V d).type = T_DIR) : i ≠ d := by
  rintro rfl
  rw [hi] at hd
  cases hd

theorem Making.change (hm : Making sb s dp d j i V t) {v : Node} (hc : Changed sb k v t t') (hv : v.type ≠ 0)
    (hok : v.Ok sb) :
    Making sb s dp d j i (update V k v) t' :=
  ⟨hm.during.change hc hv, hc.holds hm.dir, hc.holds hm.new, hm.dirs.update fun _ => hok⟩

theorem Making.dirlink (hL : Layout sb) (hm : Making sb s dp d j i V t) (ho : 0 < s.outstanding) (hE : E .iget) {l : Nat}
    (hl : Holds t l k) (ht : (V k).type = T_DIR) {name : List UInt8} {inum : Nat} (hi : Nameable sb inum)
    (hlen : name.length ≤ DIRSIZ) (h0 : 0 ∉ name) :
    Wp E (dirlink sb l name inum) t fun r t' =>
      (r = true ∧ (V k).find name = none ∧ HasSlot sb t.disk k ∧
        ∃ e ≤ (V k).slots, (e < (V k).slots → ((V k).entry e).inum = 0) ∧
          Making sb s dp d j i (update V k ((V k).setEntry e ⟨inum, name⟩)) t') ∨
        (r = false ∧ ((V k).find name = none → ¬ HasSlot sb t.disk k) ∧ Making sb s dp d j i V t') := by
  have hv := hm.during.view
  have hat : AtDir sb t l k := ⟨hm.during.ready.inv, hl, by rw [hv]; exact ht, by rw [hv]; exact hm.dirs⟩
  have hne : (V k).type ≠ 0 := by rw [ht]; decide
  have hsame : ∀ {t'}, Changed sb k (view sb t.disk k) t t' → Making sb s dp d j i V t' := fun hc => by
    have := hm.change hc (by rw [hv]; exact hne) (by rw [hv]; exact hm.dirs.ok hat.live)
    rwa [hv, update_eq_self] at this
  refine (hat.openDir.wp_dirlink hL (hm.during.out ho) fun _ _ => hE).mono fun r t' hr => ?_
  cases hr with
  | there e _ hfind hc =>
    rw [hv] at hfind
    exact .inr ⟨rfl, fun h => absurd (h.symm.trans hfind) nofun, hsame hc⟩
  | full _ _ hused hroom hc => exact .inr ⟨rfl, fun _ h => h.elim (fun ⟨e, he, h0⟩ => hused e he h0) hroom, hsame hc⟩
  | linked e _ hnone he hfree _ hroom hc =>
    have hslot : HasSlot sb t.disk k := hroom.imp_left fun h => ⟨e, h, hfree h⟩
    rw [hv] at hnone he hfree hc
    exact .inl ⟨rfl, hnone, hslot, e, he, hfree,
      hm.change hc hne ((hm.dirs.ok hat.live).setEntry hL ht he hi hlen h0)⟩

/-- The new inode is locked. -/
theorem Making.of_fresh {type : Nat} {t0 t1 : Core} (hf : Fresh sb type i j t0 t) (hty : type ≠ 0)
    (h0 : During sb s (one dp) (view sb s.disk) t0) (hdp : Holds t0 dp d) (hdirs : Dirs sb (view sb s.disk))
    (htab : Tabled sb (refs t) t t1) (hrefs : refs t1 = refs t) (hnew : Holds t1 j i) :
    Making sb s dp d j i (update (view sb s.disk) i { Node.free with type }) t1 := by
  have hview : view sb t1.disk = update (view sb s.disk) i { Node.free with type } := by
    rw [htab.still.disk, hf.view, h0.view]
  have hI : Inv sb t1 := by
    refine ⟨hf.base.tabled htab, fun k hk hlk htk hnk => ?_⟩
    by_cases e : k = i
    · subst e
      exact ⟨j, hnew⟩
    · rw [htab.still.disk] at htk hnk
      obtain ⟨l, hl⟩ := hf.orphan k hk hlk e htk hnk
      exact ⟨l, hl.ext htab.ext hl.ref (by rw [hrefs]; exact hl.ref)⟩
  have hsum : refs t1 = refs s + (one dp + one j) := by rw [hrefs, hf.refs, h0.refs, add_assoc]
  have hle : ∀ k, refs t0 k ≤ refs t k := fun k => by rw [hf.refs]; exact le_add_one ..
  have hext : Ext (refs t0) t0 t1 := hf.ext.trans (htab.ext.mono hle)
  have hready : Ready sb (refs t1) t1 := by
    refine .of_inv hI fun k hk => ?_
    rw [hview]
    by_cases e : (t1.itable k).inum = i
    · rw [e, update_self]; exact hty
    · rw [update_of_ne e]
      have hkj : k ≠ j := fun ek => e (by rw [ek, hnew.inum])
      have hk0 : 0 < refs t0 k := by
        rw [hrefs, hf.refs, Pi.add_apply, one_of_ne hkj] at hk
        exact hk
      rw [hext.inum k hk0, ← h0.view]
      exact h0.ready.alive k hk0
  have hdir : Holds t1 dp d := by
    refine hdp.ext hext hdp.ref ?_
    rw [hsum, Pi.add_apply, Pi.add_apply, one_self]
    omega
  exact ⟨⟨hready, hsum, hview, h0.ext.trans (hext.mono h0.le), h0.logs.trans (hf.logs.trans htab.still.logs)⟩, hdir, hnew,
    hdirs.update fun _ => .of_size rfl⟩

theorem wp_linkDots (hL : Layout sb) (hm : Making sb s dp d j i V t) (ho : 0 < s.outstanding) (hE : E .iget) (hi : 0 < i)
    (ht : (V i).type = T_DIR) (hs : (V i).size = 0) :
    Wp E (linkDots sb j dp) t fun r t' =>
      (r = true ∧ Making sb s dp d j i (update V i ((V i).withDots i d)) t') ∨
        (r = false ∧ ∃ v, v.type = T_DIR ∧ Making sb s dp d j i (update V i v) t') := by
  have hlt := (hm.during.ready.inv.mid i).lt hm.new
  have hslots : (V i).slots = 0 := by rw [Node.slots, hs]
  simp only [linkDots, wp_bind, wp_inode, hm.new.inum]
  refine (hm.dirlink hL ho hE hm.new ht (hm.during.ready.inv.nameable hm.new) dot_length dot_zero).mono fun r t1 hr => ?_
  rcases hr with ⟨rfl, -, -, e, he, -, hm1⟩ | ⟨rfl, -, hm1⟩
  · have he0 : e = 0 := by omega
    subst he0
    simp only [if_true, wp_bind, wp_inode, hm1.dir.inum]
    set V1 := update V i ((V i).setEntry 0 ⟨i, dot⟩) with hV1
    have hself : V1 i = (V i).setEntry 0 ⟨i, dot⟩ := update_self ..
    have hs1 : (V1 i).slots = 1 := by rw [hself, slots_setEntry (by omega), hslots]; rfl
    have hent : (V1 i).entry 0 = ⟨i, dot⟩ := by
      rw [hself, entry_setEntry_self (by have := hL.ninodes_le; show i < 2 ^ 16; omega) dot_length dot_zero]
    refine (hm1.dirlink hL ho hE hm1.new (by rw [hself]; exact ht) (hm1.during.ready.inv.nameable hm1.dir)
      dotdot_length dotdot_zero).mono fun r t2 hr => ?_
    rcases hr with ⟨rfl, -, -, e, he, hfree, hm2⟩ | ⟨rfl, -, hm2⟩
    · have he1 : e = 1 := by
        rcases Nat.lt_or_ge e 1 with h1 | h1
        · have e0 : e = 0 := by omega
          subst e0
          have := hfree (by omega)
          rw [hent] at this
          have : i = 0 := this
          omega
        · omega
      subst he1
      rw [hself, hV1, update_idem] at hm2
      exact .inl ⟨rfl, hm2⟩
    · exact .inr ⟨rfl, (V i).setEntry 0 ⟨i, dot⟩, ht, hm2⟩
  · refine .inr ⟨rfl, V i, ht, ?_⟩
    rw [update_eq_self]
    exact hm1

/-- `create` has failed, or the new inode has entry `e` of the directory. -/
def Made (sb : Superblock) [Lost sb] (s : Core) (dp d j i type major minor : Nat) (name : List UInt8) (r : Option Nat)
    (t : Core) : Prop :=
  (r = none ∧ Same sb s t ∧ (type ≠ T_DIR → ¬ HasSlot sb s.disk d)) ∨
  ∃ e ≤ (view sb s.disk d).slots, r = some j ∧ (type ≠ T_DIR → HasSlot sb s.disk d) ∧
    (e < (view sb s.disk d).slots → ((view sb s.disk d).entry e).inum = 0) ∧
    During sb s (one j) (release (created (view sb s.disk) type major minor i d e name) d (refs s dp)) t ∧ Holds t j i

section

variable (hL : Layout sb) (hr : Ready sb (refs s) s) (ho : 0 < s.outstanding)
include hL hr ho

theorem wp_createFail (hfree : view sb s.disk i = .free) (hj : refs s j = 0) (hne : j ≠ dp) {v : Node} (hv : v.type ≠ 0)
    (hm : Making sb s dp d j i (update (view sb s.disk) i v) t) :
    Wp E (createFail sb j dp) t fun r t' => r = none ∧ Same sb s t' := by
  simp only [createFail, wp_bind]
  have hview : view sb t.disk i = v := by rw [hm.during.view, update_self]
  refine (wp_setNlink (f := fun _ => 0) hL hm.during.ready.inv hm.new (hm.during.out ho) (by omega)).mono fun _ t1 hc => ?_
  rw [hview] at hc
  have h1 := hm.during.change hc hv
  rw [update_idem] at h1
  refine (h1.release hL (hc.holds hm.new) ho).mono fun _ t2 ⟨h2, _⟩ => ?_
  have hrel : release (update (view sb s.disk) i (v.setNlink 0)) i ((refs s + one dp) j) = view sb s.disk := by
    rw [release, if_pos, update_idem, ← hfree, update_eq_self]
    exact ⟨by rw [Pi.add_apply, hj, one_of_ne hne], by rw [update_self]; rfl⟩
  rw [hrel, ← zero_add (one dp)] at h2
  exact (h2.put hr).mono fun _ t3 ⟨h3, _⟩ => ⟨rfl, h3.same⟩

theorem wp_createLink (hE : E .iget) {type major minor : Nat} (hty : type ≠ 0) {name : List UInt8} (hname : NameOk name)
    (hfree : view sb s.disk i = .free)
    (hj : refs s j = 0) (hne : j ≠ dp) (hdir : (view sb s.disk d).type = T_DIR) (hnone : (view sb s.disk d).find name = none)
    (hslot : type ≠ T_DIR → (HasSlot sb t.disk d ↔ HasSlot sb s.disk d)) {v : Node}
    (hv : v = if type = T_DIR then (newNode type major minor).withDots i d else newNode type major minor)
    (hm : Making sb s dp d j i (update (view sb s.disk) i v) t) {c : M (Option Nat)}
    (hc : c = (do
      if (← dirlink sb dp name (← inode j).inum) = false then createFail sb j dp
      else do
        if type = T_DIR then setNlink sb dp incr
        iunlockput sb dp
        return some j)) :
    Wp E c t (Made sb s dp d j i type major minor name) := by
  have hvt : v.type = type := by
    rw [hv]
    split <;> rfl
  have hdi : d ≠ i := (ne_of_free hfree hdir).symm
  have hVd : update (view sb s.disk) i v d = view sb s.disk d := update_of_ne hdi ..
  subst hc
  simp only [wp_bind, wp_inode, hm.new.inum]
  refine (hm.dirlink hL ho hE hm.dir (by rw [hVd]; exact hdir) (hm.during.ready.inv.nameable hm.new) hname.length
    hname.zero).mono fun r t1 hr1 => ?_
  rw [hVd] at hr1
  rcases hr1 with ⟨rfl, -, hhas, e, he, hfree', hm1⟩ | ⟨rfl, hhas, hm1⟩
  · rw [if_neg (by simp)]
    have hdt : ((view sb s.disk d).setEntry e ⟨i, name⟩).type ≠ 0 := by
      show (view sb s.disk d).type ≠ 0
      rw [hdir]
      decide
    refine wp_when (Making sb s dp d j i (created (view sb s.disk) type major minor i d e name)) (fun hT => ?_)
      (fun hT => ?_) fun t2 hm2 => ?_
    · refine (wp_setNlink hL hm1.during.ready.inv hm1.dir (hm1.during.out ho) (incr_lt _)).mono fun _ t2 hc => ?_
      rw [hm1.during.view, update_self] at hc
      have hok := hm1.dirs.ok ((hm1.during.ready.inv.mid d).live hm1.dir)
      rw [update_self] at hok
      have hm2 := hm1.change hc hdt hok
      rw [update_idem] at hm2
      unfold created
      simp only [hT, if_true] at hv ⊢
      rw [← hv]
      exact hm2
    · unfold created
      simp only [hT, if_false] at hv ⊢
      rw [← hv]
      exact hm1
    · -- what is left: the reference to the directory goes
      have hd2 := hm2.during
      rw [add_comm (one dp)] at hd2
      rw [wp_bind]
      refine (hd2.release hL hm2.dir ho).mono fun _ t' ⟨h1, h2⟩ =>
        .inr ⟨e, he, rfl, fun hT => (hslot hT).mp hhas, hfree', ?_, ?_⟩
      · rwa [Pi.add_apply, one_of_ne (Ne.symm hne), Nat.add_zero] at h1
      · exact hm2.new.ext h2 add_one_pos (pos_of_refs h1.refs)
  · rw [if_pos rfl]
    exact (wp_createFail hL hr ho hfree hj hne (by rw [hvt]; exact hty) hm1).mono fun r t2 h2 =>
      .inl ⟨h2.1, h2.2, fun hT h => hhas hnone ((hslot hT).mpr h)⟩

theorem wp_createIn (hE : E .iget) {type major minor : Nat} (hty : type ≠ 0) (hmaj : major < 2 ^ 16)
    (hmin : minor < 2 ^ 16) {name : List UInt8}
    (hname : NameOk name) {t0 : Core} (h0 : During sb s (one dp) (view sb s.disk) t0) (hd0 : t0.disk = s.disk)
    (hdp : Holds t0 dp d) (hdir : (view sb s.disk d).type = T_DIR) (hnone : (view sb s.disk d).find name = none)
    (hdirs : Dirs sb (view sb s.disk)) (hf : Fresh sb type i j t0 t) :
    Wp E (createIn sb dp j name type major minor) t (Made sb s dp d j i type major minor name) := by
  have hfree : view sb s.disk i = .free := by
    rw [← h0.view]
    exact view_of_free hf.old
  have hjs : refs s j = 0 := by
    have := hf.free
    rw [h0.refs, Pi.add_apply] at this
    omega
  have hne : j ≠ dp := by
    rintro rfl
    have := hdp.ref
    rw [← refs, hf.free] at this
    omega
  simp only [createIn]
  rw [wp_bind]
  refine (wp_ilock (h := refs t) hf.base.table (pos_of_refs hf.refs) fun hc => ?_).mono fun _ t1 ⟨htab, hrefs, hnew, _⟩ => ?_
  · rw [hf.inum, hf.inode] at hc
    exact absurd hc hty
  rw [hf.inum] at hnew
  have hm1 := Making.of_fresh hf hty h0 hdp hdirs htab hrefs hnew
  have hI1 := hm1.during.ready.inv
  have hi := (hI1.mid i).lt hnew
  have hfits : (dinode sb t1.disk i).Fits := dinode_fits t1.disk i
  have hset := (wp_setCopy_iupdate (E := E) (f := fun x => { x with major, minor, nlink := 1 }) hL hI1 hnew
    (hm1.during.out ho) rfl
    ⟨hfits.type, hmaj, hmin, Nat.one_lt_two_pow (by decide), hfits.size, hfits.addrs⟩ rfl rfl rfl).and
    (wp_setCopy_iupdate_disk (E := E) (hm1.during.out ho))
  rw [wp_bind] at hset ⊢
  refine hset.mono fun _ t2' ht2' => ?_
  rw [wp_bind]
  refine ht2'.mono fun _ t2 ⟨hc, hdisk2⟩ => ?_
  have hnode : (view sb t1.disk i).meta major minor 1 = newNode type major minor := by
    rw [hm1.during.view, update_self]
    rfl
  rw [hnode] at hc
  have hm2 := hm1.change hc hty (.of_size rfl)
  rw [update_idem] at hm2
  have hself : update (view sb s.disk) i (newNode type major minor) i = newNode type major minor := update_self ..
  -- only the new inode has been written
  have hslot : HasSlot sb t2.disk d ↔ HasSlot sb s.disk d := by
    have hdlt := (hI1.mid d).lt hm1.dir
    have hdi : d ≠ i := (ne_of_free hfree hdir).symm
    refine or_congr ?_ ?_
    · rw [hm2.during.view, update_of_ne hdi]
    · rw [hdisk2, hnew.inum, appendable_setDinode hL hI1.blocks hi hdlt hdi, htab.still.disk, hf.disk,
        appendable_setDinode hL h0.ready.inv.blocks hi hdlt hdi, hd0]
  by_cases hT : type = T_DIR
  · rw [if_pos hT, wp_bind]
    refine (wp_linkDots hL hm2 ho hE hf.pos (by rw [hself]; exact hT) (by rw [hself]; rfl)).mono fun r t3 hr3 => ?_
    rcases hr3 with ⟨rfl, hm3⟩ | ⟨rfl, v, hv, hm3⟩
    · rw [hself, update_idem] at hm3
      rw [if_neg (by simp)]
      exact wp_createLink hL hr ho hE hty hname hfree hjs hne hdir hnone (fun h => absurd hT h) (by rw [if_pos hT]) hm3 rfl
    · rw [update_idem] at hm3
      rw [if_pos rfl]
      exact (wp_createFail hL hr ho hfree hjs hne (by rw [hv]; decide) hm3).mono fun r t4 h4 =>
        .inl ⟨h4.1, h4.2, fun h => absurd hT h⟩
  · rw [if_neg hT, wp_bind, Lib.wp_pure, if_neg (by simp)]
    exact wp_createLink hL hr ho hE hty hname hfree hjs hne hdir hnone (fun _ => hslot) (by rw [if_neg hT]) hm2 rfl

end

def Held (s : Core) (i : Nat) : Prop := ∃ k, 0 < refs s k ∧ (s.itable k).inum = i

theorem during_held {g : Nat → Nat} (hd : During sb s g V t) (hj : Holds t j i) :
    0 < refs s j ↔ Held s i := by
  constructor
  · intro h
    exact ⟨j, h, by rw [← hd.ext.inum j h]; exact hj.inum⟩
  · rintro ⟨k, hk, hki⟩
    have hkt : 0 < refs t k := Nat.lt_of_lt_of_le hk (hd.le k)
    have : k = j := hd.ready.inv.table.unique k j hkt hj.ref ((hd.ext.inum k hk).trans (hki.trans hj.inum.symm))
    exact this ▸ hk

structure NewEntry (V : Nat → Node) (cwd : Nat) (path : List UInt8) (d e : Nat) (name : List UInt8) : Prop where
  walk : walk V cwd path true = some (d, name)
  find : (V d).find name = none
  le : e ≤ (V d).slots
  free : e < (V d).slots → ((V d).entry e).inum = 0

/-- `create` can make a file: the parent is a directory, the name is not in it, and there are a free inode and a place for
    the entry. -/
def Creatable (sb : Superblock) (b : Disk) (cwd : Nat) (path : List UInt8) : Prop :=
  ∃ d name, walk (view sb b) cwd path true = some (d, name) ∧ (view sb b d).type = T_DIR ∧ (view sb b d).find name = none ∧
    (∃ i, 0 < i ∧ i < sb.ninodes ∧ (view sb b i).type = 0) ∧ HasSlot sb b d

inductive CreateResult (sb : Superblock) [Lost sb] (s : Core) (cwd : Nat) (path : List UInt8) (type major minor : Nat)
  (s' : Core) :
    Option Nat → Prop
  | fail : Same sb s s' → (type ≠ T_DIR → ¬ Creatable sb s.disk cwd path) → CreateResult sb s cwd path type major minor s' none
  /-- The file was there. -/
  | old {i j : Nat} : type = T_FILE → (view sb s.disk i).type = T_FILE ∨ (view sb s.disk i).type = T_DEVICE →
      During sb s (one j) (view sb s.disk) s' → Holds s' j i → ¬ Creatable sb s.disk cwd path →
      CreateResult sb s cwd path type major minor s' (some j)
  | new {i j d e n : Nat} {name : List UInt8} : view sb s.disk i = .free → 0 < i →
      NewEntry (view sb s.disk) cwd path d e name → NameOk name → (0 < n ↔ Held s d) →
      During sb s (one j) (release (created (view sb s.disk) type major minor i d e name) d n) s' → Holds s' j i →
      refs s j = 0 → (type ≠ T_DIR → Creatable sb s.disk cwd path) → CreateResult sb s cwd path type major minor s' (some j)

section

variable (hr : Ready sb (refs s) s)
include hr

theorem during_one (ht : Tabled sb (refs s) s t) (hrefs : refs t = refs s + one j) (hj : Holds t j i) :
    During sb s (one j) (view sb s.disk) t := by
  have hrt := hr.tabled ht fun k => by rw [hrefs]; exact le_add_one ..
  refine ⟨.of_inv hrt.inv fun k hk => ?_, hrefs, by rw [ht.still.disk], ht.ext, ht.still.logs⟩
  by_cases e : k = j
  · rw [e, hj.inum]
    exact hrt.inv.view_type_ne hj
  · rw [hrefs, Pi.add_apply, one_of_ne e] at hk
    exact hrt.alive k hk

theorem same_of_tabled (ht : Tabled sb (refs s) s t) (hrefs : refs t = refs s) : Same sb s t := by
  have hrt := hr.tabled ht fun k => by rw [hrefs]
  rw [← hrefs] at hrt
  exact ⟨hrt, hrefs, by rw [ht.still.disk], ht.ext, ht.still.logs⟩

theorem during_zero : During sb s 0 (view sb s.disk) s := ⟨hr, rfl, rfl, .refl, .refl⟩

theorem wp_putSame (hd : During sb s (one j) (view sb s.disk) t) : Wp E (iunlockput sb j) t fun _ t' => Same sb s t' := by
  rw [← zero_add (one j)] at hd
  exact (hd.put hr).mono fun _ t' h => h.1.same

theorem wp_lockParent (hd : Dirs sb (view sb s.disk)) (ht : Tabled sb (refs s) s t)
    (hrefs : refs t = refs s + one dp) (hinum : (t.itable dp).inum = d) (htype : (view sb s.disk d).type = T_DIR) :
    Wp E (ilock sb dp) t fun _ t' =>
      Tabled sb (refs s) s t' ∧ During sb s (one dp) (view sb s.disk) t' ∧ AtDir sb t' dp d := by
  have hrt := hr.tabled ht fun k => by rw [hrefs]; exact le_add_one ..
  refine (wp_lock hrt (pos_of_refs hrefs) fun _ => ?_).mono fun _ t' ⟨h1, h2, h3, h4, _⟩ => ?_
  · rw [hinum, ht.still.disk, htype]
    decide
  · rw [hinum] at h4
    have hview : view sb t'.disk = view sb s.disk := by rw [h1.still.disk, ht.still.disk]
    exact ⟨ht.trans h1, during_one hr (ht.trans h1) (h2.trans hrefs) h4,
      ⟨h3.inv, h4, by rw [hview]; exact htype, by rw [hview]; exact hd⟩⟩

end

theorem wp_create (hL : Layout sb) (hE : E .iget) (hr : Ready sb (refs s) s) {cwd : Nat} (hc : 0 < refs s cwd)
    (hd : Dirs sb (view sb s.disk)) (hN : ¬ E .ilockNoType → Closed (view sb s.disk)) (ho : 0 < s.outstanding)
    {path : List UInt8} (hpath : 0 ∉ path) {type major minor : Nat} (hty : type ≠ 0) (htl : type < 2 ^ 16)
    (hmaj : major < 2 ^ 16) (hmin : minor < 2 ^ 16) :
    Wp E (create sb cwd path type major minor) s fun r s' =>
      CreateResult sb s (s.itable cwd).inum path type major minor s' r := by
  simp only [create, nameiparent, wp_bind]
  refine (wp_namex hL (fun _ => hE) hr hc hd hN).mono fun r t ⟨ht, hr'⟩ => ?_
  rcases hr' with ⟨hwalk, rfl, hrefs⟩ | ⟨d, name, dp, hwalk, rfl, hrefs, hinum, -⟩
  · refine .fail (same_of_tabled hr ht hrefs) fun _ ⟨d, name, h, _⟩ => ?_
    rw [hwalk] at h
    cases h
  -- where the new entry would go
  have hmake : Creatable sb s.disk (s.itable cwd).inum path → (view sb s.disk d).find name = none ∧
      (∃ i, 0 < i ∧ i < sb.ninodes ∧ (view sb s.disk i).type = 0) ∧ HasSlot sb s.disk d := fun ⟨d', name', h, _, h'⟩ => by
    rw [hwalk] at h
    cases h
    exact h'
  have htype : (view sb s.disk d).type = T_DIR := walkFrom_parent hwalk
  have hname : NameOk name := (walkFrom_end hwalk).2 hpath
  simp only [wp_bind]
  refine (wp_lockParent hr hd ht hrefs hinum htype).mono fun _ t1 ⟨htab1, h1, hat⟩ => ?_
  refine (wp_dirlookup hat fun _ => hE).mono fun r t2 hr2 => ?_
  rw [h1.view] at hr2
  rcases hr2 with ⟨rfl, rfl, hnone⟩ | ⟨e, l, hfind, rfl, hg⟩
  · simp only [wp_bind]
    refine (wp_ialloc hL h1.ready.inv (h1.out ho) hE hty htl fun k hk => ?_).mono fun r t2 hr2 => ?_
    · rw [← view_type (h1.ready.inv.table.lt k hk)]
      exact h1.ready.alive k hk
    · rcases hr2 with ⟨rfl, rfl, hall⟩ | ⟨i, j, rfl, hf⟩
      · simp only [wp_bind]
        refine (wp_putSame hr h1).mono fun _ t3 h3 => .fail h3 fun _ hm => ?_
        obtain ⟨-, ⟨i, hpos, hi, h0⟩, -⟩ := hmake hm
        rw [← h1.view, view_type hi] at h0
        exact hall i hpos hi h0
      · refine (wp_createIn hL hr ho hE hty hmaj hmin hname h1 htab1.still.disk hat.holds htype hnone hd hf).mono
          fun r t3 hr3 => ?_
        rcases hr3 with ⟨rfl, h3, hslot⟩ | ⟨e, he, rfl, hslot, hfree, h3, hj⟩
        · exact .fail h3 fun hT hm => hslot hT (hmake hm).2.2
        · have hi0 : view sb s.disk i = .free := by
            rw [← h1.view]
            exact view_of_free hf.old
          refine .new hi0 hf.pos ⟨hwalk, hnone, he, hfree⟩ hname (during_held h1 hat.holds) h3 hj ?_ fun hT =>
            ⟨d, name, hwalk, htype, hnone, ⟨i, hf.pos, hf.lt, congrArg Node.type hi0⟩, hslot hT⟩
          have := hf.free
          rw [h1.refs, Pi.add_apply] at this
          omega
  · simp only [wp_bind]
    have hsu : Ready sb (refs s) t2 := ready_of_got (h1.start hr) hg h1.le
    have hrefu : refs t2 = refs s + one l + one dp := by rw [hg.refs, h1.refs]; exact add_right_comm ..
    refine (wp_unlockput hsu (le_add_one _ l) hrefu).mono fun _ t3 ⟨htab3, href3, hr3⟩ => ?_
    have hview3 : view sb t3.disk = view sb s.disk := by rw [htab3.still.disk, hg.tabled.still.disk]; exact h1.view
    have hinum3 : (t3.itable l).inum = ((view sb s.disk d).entry e).inum :=
      (htab3.ext.inum l add_one_pos).trans hg.inum
    refine (wp_lock hr3 (pos_of_refs href3) fun hn => ?_).mono
      fun _ t4 ⟨htab4, href4, _, hl4, _⟩ => ?_
    · obtain ⟨h2, h3, -⟩ := find_some hfind
      rw [hview3, hinum3]
      exact (hN hn).entry d htype e h2 h3
    · have htab := htab1.trans ((hg.tabled.mono h1.le).trans ((htab3.mono (le_add_one _ l)).trans htab4))
      have h4 := during_one hr htab (href4.trans href3) hl4
      simp only [wp_inode, h4.ready.inv.copy_type hl4, h4.view]
      have hnot : ¬ Creatable sb s.disk (s.itable cwd).inum path := fun hm => by
        rw [(hmake hm).1] at hfind
        cases hfind
      refine wp_ite (fun hok => .old hok.1 hok.2 h4 hl4 hnot) fun _ => ?_
      simp only [wp_bind]
      exact (wp_putSame hr h4).mono fun _ t5 h5 => .fail h5 fun _ => hnot

end Xv6.Fs
