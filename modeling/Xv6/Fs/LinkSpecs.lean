/-
  Xv6.Fs.LinkSpecs — what `link` and `unlink` do to the file system that users see.

  `linked`, `unlinked`: as for `create`, these follow the code, so they also say what happens
  when a count wraps around or comes to 0 too early.
-/

import Xv6.Fs.NameSpecs

namespace Xv6.Fs

open Function (update update_self update_of_ne update_eq_self update_idem)
open Lib (Wp wp_bind wp_ite wp_when)

variable {sb : Superblock} [Lost sb] {E : Panic → Prop} {s s' t t' u : Core} {i j k d dp : Nat}
  {h h' g g' : Nat → Nat} {V V' : Nat → Node}

theorem During.trans (h1 : During sb s g V t) (h2 : During sb t g' V' u) : During sb s (g + g') V' u :=
  ⟨h2.ready, by rw [h2.refs, h1.refs, add_assoc], h2.view, h1.ext.trans (h2.ext.mono h1.le), h1.logs.trans h2.logs⟩

theorem Same.during (hs : Same sb s t) : During sb s 0 (Fs.view sb s.disk) t :=
  ⟨hs.ready, hs.refs, hs.view, hs.ext, hs.logs⟩

theorem during_tabled (hd : During sb s g V t) (ht : Tabled sb (refs t) t u) (hr : refs u = refs t) : During sb s g V u := by
  have h1 := (same_of_tabled hd.ready ht hr).during
  rw [hd.view] at h1
  exact hd.trans h1

theorem release_parent (hr : Ready sb (refs s) s) {n : Nat} (hn : 0 < n ↔ Held s d) (hl : Live sb d)
    (ht : (view sb s.disk d).type ≠ 0) (he : (V d).nlink = (view sb s.disk d).nlink) : release V d n = V := by
  by_cases h0 : (V d).nlink = 0
  · exact release_of_pos (hn.mpr (hr.orphan d hl ht (he ▸ h0)))
  · exact release_of_nlink h0

/-! ## link -/

/-- One more link to inode `i`, and its entry `e` in directory `d`. -/
def linked (V : Nat → Node) (i d e : Nat) (name : List UInt8) : Nat → Node :=
  update (update V i ((V i).setNlink (incr (V i).nlink))) d ((V d).setEntry e ⟨i, name⟩)

theorem wp_linkBad (hL : Layout sb) (hr : Ready sb (refs s) s) (ho : 0 < s.outstanding)
    (hd : During sb s (one j) (update (view sb s.disk) i
      ((view sb s.disk i).setNlink (incr (view sb s.disk i).nlink))) t) (hj : Holds t j i) :
    Wp E (linkBad sb j) t fun r t' => r = false ∧ Same sb s t' := by
  simp only [linkBad, wp_bind]
  refine (wp_lock hd.ready hj.ref fun _ => by rw [hj.inum]; exact hd.ready.inv.view_type_ne hj).mono
    fun _ t1 ⟨h1, h2, _, h4, _⟩ => ?_
  rw [hj.inum] at h4
  have hd1 := during_tabled hd h1 h2
  have hview : view sb t1.disk i = (view sb s.disk i).setNlink (incr (view sb s.disk i).nlink) := by
    rw [hd1.view, update_self]
  refine (wp_setNlink hL hd1.ready.inv h4 (hd1.out ho) (decr_lt _)).mono fun _ t2 hc => ?_
  have hback : ((view sb s.disk i).setNlink (incr (view sb s.disk i).nlink)).setNlink
      (decr ((view sb s.disk i).setNlink (incr (view sb s.disk i).nlink)).nlink) = view sb s.disk i := by
    show (view sb s.disk i).setNlink (decr (incr (view sb s.disk i).nlink)) = _
    rw [decr_incr (nlink_lt ..)]
    rfl
  have htype : (view sb s.disk i).type ≠ 0 := by
    have := hd1.ready.inv.view_type_ne h4
    rw [hview] at this
    exact this
  rw [hview, hback] at hc
  have hd2 := hd1.change hc htype
  rw [update_idem, update_eq_self] at hd2
  exact (wp_putSame hr hd2).mono fun _ t3 h3 => ⟨rfl, h3⟩

inductive LinkResult (sb : Superblock) [Lost sb] (s : Core) (cwd : Nat) (old new : List UInt8) (s' : Core) : Bool → Prop
  | fail : Same sb s s' → LinkResult sb s cwd old new s' false
  | done {i d e n : Nat} {nm name : List UInt8} : walk (view sb s.disk) cwd old false = some (i, nm) →
      (view sb s.disk i).type ≠ 0 → (view sb s.disk i).type ≠ T_DIR → NewEntry (view sb s.disk) cwd new d e name →
      NameOk name → (0 < n ↔ Held s i) →
      During sb s 0 (release (linked (view sb s.disk) i d e name) i n) s' →
      LinkResult sb s cwd old new s' true

theorem Closed.update {V : Nat → Node} (hc : Closed V) {v : Node} (h0 : v.type ≠ 0) (ht : v.type ≠ T_DIR) :
    Closed (Function.update V i v) := by
  have hne : ∀ k, (V k).type ≠ 0 → (Function.update V i v k).type ≠ 0 := fun k hk => by
    by_cases e : k = i
    · rw [e, Function.update_self]; exact h0
    · rw [Function.update_of_ne e]; exact hk
  refine ⟨hne _ hc.root, fun k hk e he hn => ?_⟩
  by_cases ek : k = i
  · rw [ek, Function.update_self] at hk
    exact absurd hk ht
  · rw [Function.update_of_ne ek] at hk he hn ⊢
    exact hne _ (hc.entry k hk e he hn)

theorem walk_setNlink (V : Nat → Node) (i n cwd : Nat) (path : List UInt8) (parent : Bool) :
    walk (update V i ((V i).setNlink n)) cwd path parent = walk V cwd path parent := by
  refine walkFrom_congr (fun k => ?_) (fun k _ => ?_) ..
  · by_cases e : k = i
    · rw [e, update_self]; rfl
    · rw [update_of_ne e]
  · by_cases e : k = i
    · rw [e, update_self]; exact ⟨rfl, rfl⟩
    · rw [update_of_ne e]; exact ⟨rfl, rfl⟩

theorem wp_link (hL : Layout sb) (hE : E .iget) (hr : Ready sb (refs s) s) {cwd : Nat} (hc : 0 < refs s cwd)
    (hd : Dirs sb (view sb s.disk)) (hN : ¬ E .ilockNoType → Closed (view sb s.disk)) (ho : 0 < s.outstanding)
    {old new : List UInt8} (hnew : 0 ∉ new) :
    Wp E (link sb cwd old new) s fun r s' => LinkResult sb s (s.itable cwd).inum old new s' r := by
  simp only [link, namei, nameiparent, wp_bind]
  refine (wp_namex hL (fun _ => hE) hr hc hd hN).mono fun r t ⟨ht, hr'⟩ => ?_
  rcases hr' with ⟨-, rfl, hrefs⟩ | ⟨i, nm, j, hwalk, rfl, hrefs, hinum, halive⟩
  · exact .fail (same_of_tabled hr ht hrefs)
  have hrt := hr.tabled ht fun k => by rw [hrefs]; exact le_add_one ..
  simp only [Lib.wp_pure, Option.map_some, wp_bind]
  refine (wp_lock hrt (pos_of_refs hrefs) fun hn => by rw [hinum, ht.still.disk]; exact halive hn).mono
    fun _ t1 ⟨htab1, href1, _, hj1, _⟩ => ?_
  rw [hinum] at hj1
  have h1 := during_one hr (ht.trans htab1) (href1.trans hrefs) hj1
  have htype : (view sb s.disk i).type ≠ 0 := by
    have := h1.ready.inv.view_type_ne hj1
    rwa [h1.view] at this
  simp only [wp_inode, h1.ready.inv.copy_type hj1, h1.view]
  refine wp_ite (fun hdir => ?_) fun hfile => ?_
  · rw [wp_bind]
    exact (wp_putSame hr h1).mono fun _ t2 h2 => .fail h2
  rw [wp_bind]
  refine (wp_setNlink hL h1.ready.inv hj1 (h1.out ho) (incr_lt _)).mono fun _ t2 hc2 => ?_
  rw [h1.view] at hc2
  set v := (view sb s.disk i).setNlink (incr (view sb s.disk i).nlink) with hv
  have hj2 := hc2.holds hj1
  have h2 := h1.change hc2 htype
  have hdirs2 : Dirs sb (view sb t2.disk) := by rw [h2.view]; exact hd.update fun _ hT => absurd hT hfile
  have hposc : 0 < refs t2 cwd := Nat.lt_of_lt_of_le hc (h2.le cwd)
  simp only [wp_bind]
  refine (wp_iunlock hj2.ref).mono fun _ t2' ht2' => ?_
  subst ht2'
  refine (wp_namex hL (fun _ => hE) h2.ready hposc hdirs2 fun hn => by rw [h2.view]; exact (hN hn).update htype hfile).mono
    fun r t3 ⟨htab3, hr3⟩ => ?_
  rw [h2.view, h2.ext.inum cwd hc, hv, walk_setNlink] at hr3
  rcases hr3 with ⟨-, rfl, href3⟩ | ⟨d, name, dp, hwalk2, rfl, href3, hinum3, -⟩
  · have h3 := during_tabled h2 htab3 href3
    exact (wp_linkBad hL hr ho h3 (hj2.ext htab3.ext hj2.ref (by rw [href3]; exact hj2.ref))).mono
      fun r t4 ⟨hr4, h4⟩ => by rw [hr4]; exact .fail h4
  have hdir : (view sb s.disk d).type = T_DIR := walkFrom_parent hwalk2
  have hname : NameOk name := (walkFrom_end hwalk2).2 hnew
  have hdi : d ≠ i := by
    rintro rfl
    exact hfile hdir
  have hVd : view sb t2.disk d = view sb s.disk d := by rw [h2.view, update_of_ne hdi]
  simp only [wp_bind]
  refine (wp_lockParent h2.ready hdirs2 htab3 href3 hinum3 (by rw [hVd]; exact hdir)).mono fun _ t4 ⟨htab4, h4, hat⟩ => ?_
  have hj4 : Holds t4 j i := hj2.ext h4.ext hj2.ref (Nat.lt_of_lt_of_le hj2.ref (h4.le j))
  simp only [wp_inode, hj4.inum]
  refine (wp_dirlink hL hat (h4.out (h2.out ho)) hE).mono fun r t5 hr5 => ?_
  rw [h4.view, hVd] at hr5
  rcases hr5 with ⟨rfl, hnone, e, he, hslot, hc5⟩ | ⟨rfl, hc5⟩
  · rw [if_pos rfl]
    simp only [wp_bind]
    have h5 := h4.change hc5 (show (view sb s.disk d).type ≠ 0 by rw [hdir]; decide)
    have hdp5 := hc5.holds hat.holds
    rw [← zero_add (one dp)] at h5
    refine (h5.release hL hdp5 (h2.out ho)).mono fun _ t6 ⟨h6, _⟩ => ?_
    rw [add_zero, release_parent h2.ready (during_held h4 hat.holds) hat.live
      (by rw [hVd, hdir]; decide) (by rw [update_self, hVd]; rfl), h2.view] at h6
    have h6' := h2.trans h6
    have hj6 : Holds t6 j i := hj2.ext h6.ext hj2.ref (Nat.lt_of_lt_of_le hj2.ref (h6.le j))
    rw [add_zero] at h6'
    have href6 : refs t6 = refs s + one j := h6'.refs
    refine (wp_release hL h6'.ready href6 hj6.inum (h6'.out ho)).mono fun _ t7 ⟨h7a, h7b, h7c, h7d, h7e⟩ => ?_
    refine .done hwalk htype hfile ⟨hwalk2, hnone, he, hslot⟩ hname (during_held h1 hj1) ⟨h7a, h7b, ?_, ?_, ?_⟩
    · rw [h7e, h6'.view]
      rfl
    · exact h6'.ext.trans h7c
    · exact h6'.logs.trans h7d
  · rw [if_neg (by simp)]
    simp only [wp_bind]
    have h5 := h4.change hc5 (show (view sb s.disk d).type ≠ 0 by rw [hdir]; decide)
    rw [← hVd, update_eq_self] at h5
    refine (wp_putSame h2.ready h5).mono fun _ t6 h6 => ?_
    have hj6 : Holds t6 j i := hj2.ext h6.ext hj2.ref (by rw [h6.refs]; exact hj2.ref)
    have h6' := h6.during
    rw [h2.view] at h6'
    have h6'' := h2.trans h6'
    rw [add_zero] at h6''
    exact (wp_linkBad hL hr ho h6'' hj6).mono fun r t7 ⟨hr7, h7⟩ => by rw [hr7]; exact .fail h7

/-! ## unlink -/

/-- The entry is cleared; for a directory, the link of its ".." goes. -/
def cleared (V : Nat → Node) (i d e : Nat) : Nat → Node :=
  let dir := (V d).setEntry e ⟨0, []⟩
  update V d (if (V i).type = T_DIR then dir.setNlink (decr dir.nlink) else dir)

/-- Entry `e` of directory `d`, which names inode `i`, is unlinked; `n` and `m` are the other
    references to the two. -/
def unlinked (V : Nat → Node) (i d e n m : Nat) : Nat → Node :=
  let V1 := release (cleared V i d e) d n
  release (update V1 i ((V1 i).setNlink (decr (V1 i).nlink))) i m

/-- Entry `e` of directory `d`, found by the path. -/
structure OldEntry (V : Nat → Node) (cwd : Nat) (path : List UInt8) (d e : Nat) (name : List UInt8) : Prop where
  walk : walk V cwd path true = some (d, name)
  find : (V d).find name = some e
  dot : namecmp name dot = false
  dotdot : namecmp name dotdot = false

/-- Every entry that could be unlinked names an inode with links. -/
def Linked (V : Nat → Node) : Prop :=
  ∀ d name e, (V d).type = T_DIR → namecmp name dot = false → namecmp name dotdot = false → (V d).find name = some e →
    1 ≤ toInt16 (V ((V d).entry e).inum).nlink

inductive UnlinkResult (sb : Superblock) [Lost sb] (s : Core) (cwd : Nat) (path : List UInt8) (s' : Core) : Bool → Prop
  | fail : Same sb s s' → UnlinkResult sb s cwd path s' false
  | done {i d e n m : Nat} {name : List UInt8} : OldEntry (view sb s.disk) cwd path d e name →
      ((view sb s.disk d).entry e).inum = i → (view sb s.disk i).type ≠ 0 → 1 ≤ toInt16 (view sb s.disk i).nlink →
      ((view sb s.disk i).type = T_DIR → (view sb s.disk i).isEmpty) → (0 < n ↔ Held s d ∨ i = d) → (0 < m ↔ Held s i) →
      During sb s 0 (unlinked (view sb s.disk) i d e n m) s' → UnlinkResult sb s cwd path s' true

theorem zero_byte : Dirent.byte ⟨0, []⟩ = fun _ => 0 := by
  funext k
  unfold Dirent.byte byteOf
  split
  · simp
  · split
    · rw [Str.strncpy_apply]
      split <;> rfl
    · rfl

/-- `unlink` from where the entry is to be cleared. -/
def unlinkClear (sb : Superblock) (dp j e : Nat) : M Bool := do
  if (← writei sb dp (fun _ => 0) none (16 * e) 16) ≠ 16 then throw .unlinkWritei
  if (← inode j).d.type = T_DIR then setNlink sb dp decr
  iunlockput sb dp
  setNlink sb j decr
  iunlockput sb j
  return true

theorem wp_unlinkClear (hL : Layout sb) (ho : 0 < s.outstanding) {e : Nat} (he : e < (V d).slots)
    (hd : During sb s (one j + one dp) V t) (hat : AtDir sb t dp d) (hj : Holds t j i) :
    Wp E (unlinkClear sb dp j e) t fun r t' =>
      r = true ∧ During sb s 0 (unlinked V i d e ((refs s + one j) dp) (refs s j)) t' := by
  unfold unlinkClear
  have hVd : view sb t.disk d = V d := by rw [hd.view]
  have hdir : (V d).type = T_DIR := by rw [← hVd]; exact hat.type
  rw [← hVd] at he
  rw [← zero_byte, wp_bind]
  refine (wp_writeDirent hL hat.openDir (hd.out ho) (Nat.le_of_lt he)).mono fun r t1 hr1 => ?_
  rcases hr1 with ⟨rfl, -, hc1⟩ | ⟨-, hle, -, -⟩
  · rw [if_neg (by simp)]
    have hVt : ∀ k, (update V d ((V d).setEntry e ⟨0, []⟩) k).type = (V k).type := fun k => by
      by_cases ek : k = d
      · rw [ek, update_self]; rfl
      · rw [update_of_ne ek]
    have hdt : (V d).type ≠ 0 := by rw [hdir]; decide
    rw [hVd] at hc1
    have h1 := hd.change hc1 hdt
    have hj1 := hc1.holds hj
    have hdp1 := hc1.holds hat.holds
    rw [wp_bind, wp_inode, h1.ready.inv.copy_type hj1, h1.view, hVt]
    refine wp_when (fun t2 => During sb s (one j + one dp) (cleared V i d e) t2 ∧ Holds t2 j i ∧ Holds t2 dp d)
      (fun hT => ?_) (fun hT => ⟨?_, hj1, hdp1⟩) fun t2 ⟨h2, hj2, hdp2⟩ => ?_
    · refine (wp_setNlink hL h1.ready.inv hdp1 (h1.out ho) (decr_lt _)).mono fun _ t2 hc2 => ?_
      rw [h1.view, update_self] at hc2
      have h2 := h1.change hc2 (by rw [setNlink_type, setEntry_type]; exact hdt)
      rw [update_idem] at h2
      refine ⟨?_, hc2.holds hj1, hc2.holds hdp1⟩
      unfold cleared
      simp only [hT, if_true]
      exact h2
    · unfold cleared
      simp only [hT, if_false]
      exact h1
    · -- the link count of the directory is right
      simp only [wp_bind]
      refine (h2.release hL hdp2 ho).mono fun _ t3 ⟨h3, hext3⟩ => ?_
      have hposj : 0 < (refs s + one j) j := add_one_pos
      have hj3 : Holds t3 j i := hj2.ext hext3 hposj (by rw [h3.refs]; exact hposj)
      refine (wp_setNlink hL h3.ready.inv hj3 (h3.out ho) (decr_lt _)).mono fun _ t4 hc4 => ?_
      have htype := h3.ready.inv.view_type_ne hj3
      rw [h3.view] at hc4 htype
      have h4 := h3.change hc4 (by rw [setNlink_type]; exact htype)
      rw [← zero_add (one j)] at h4
      refine (h4.release hL (hc4.holds hj3) ho).mono fun _ t5 ⟨h5, _⟩ => ⟨rfl, ?_⟩
      rw [add_zero, zero_add] at h5
      exact h5
  · omega

theorem wp_unlink (hL : Layout sb) (hE : E .iget) (hr : Ready sb (refs s) s) {cwd : Nat} (hc : 0 < refs s cwd)
    (hd : Dirs sb (view sb s.disk)) (hN : ¬ E .ilockNoType → Closed (view sb s.disk))
    (hU : ¬ E .unlinkNlink → Linked (view sb s.disk)) (ho : 0 < s.outstanding) {path : List UInt8} :
    Wp E (unlink sb cwd path) s fun r s' => UnlinkResult sb s (s.itable cwd).inum path s' r := by
  simp only [unlink, nameiparent, wp_bind]
  refine (wp_namex hL (fun _ => hE) hr hc hd hN).mono fun r t ⟨ht, hr'⟩ => ?_
  rcases hr' with ⟨-, rfl, hrefs⟩ | ⟨d, name, dp, hwalk, rfl, hrefs, hinum, -⟩
  · exact .fail (same_of_tabled hr ht hrefs)
  have htype : (view sb s.disk d).type = T_DIR := walkFrom_parent hwalk
  simp only [wp_bind]
  refine (wp_lockParent hr hd ht hrefs hinum htype).mono fun _ t1 ⟨htab1, h1, hat⟩ => ?_
  refine wp_ite (fun _ => ?_) fun hdots => ?_
  · rw [wp_bind]
    exact (wp_putSame hr h1).mono fun _ t2 h2 => .fail h2
  obtain ⟨hdot, hdotdot⟩ : namecmp name dot = false ∧ namecmp name dotdot = false := by simpa using hdots
  rw [wp_bind]
  refine (wp_dirlookup hat fun _ => hE).mono fun r t2 hr2 => ?_
  rw [h1.view] at hr2
  rcases hr2 with ⟨rfl, rfl, -⟩ | ⟨e, j, hfind, rfl, hg⟩
  · simp only [wp_bind]
    exact (wp_putSame hr h1).mono fun _ t3 h3 => .fail h3
  obtain ⟨he, hne0, -⟩ := find_some hfind
  have hr2 := ready_of_got h1.ready hg le_self
  have hview2 : view sb t2.disk = view sb s.disk := by rw [hg.tabled.still.disk]; exact h1.view
  simp only [wp_bind]
  refine (wp_lock hr2 (pos_of_refs hg.refs) fun hn => ?_).mono fun _ t3 ⟨htab3, href3, _, hj3, _⟩ => ?_
  · rw [hview2, hg.inum]
    exact (hN hn).entry d htype e he hne0
  rw [hg.inum] at hj3
  set i := ((view sb s.disk d).entry e).inum with hi
  have h3 := h1.trans (during_one h1.ready (hg.tabled.trans htab3) (href3.trans hg.refs) hj3)
  rw [h1.view] at h3
  have hdp3 : Holds t3 dp d := by
    refine hat.holds.ext (hg.tabled.ext.trans htab3.ext) hat.holds.ref ?_
    rw [h3.refs]
    simp only [Pi.add_apply, one_self]
    omega
  have hti : (view sb s.disk i).type ≠ 0 := by
    have := h3.ready.inv.view_type_ne hj3
    rwa [h3.view] at this
  simp only [wp_inode, h3.ready.inv.copy_nlink hj3, h3.view]
  refine wp_ite (fun hbad => ?_) fun hok => ?_
  · rw [wp_bind, Lib.wp_throw]
    by_contra hn
    have := hU hn d name e htype hdot hdotdot hfind
    rw [← hi] at this
    omega
  have hnlink : 1 ≤ toInt16 (view sb s.disk i).nlink := by omega
  -- the rest, once it is known whether this is a directory that is not empty
  have hrest : ∀ full : Bool, (full = false → (view sb s.disk i).type = T_DIR → (view sb s.disk i).isEmpty) →
      Wp E (do
        if full then do
          iunlockput sb j
          iunlockput sb dp
          return false
        unlinkClear sb dp j e) t3 fun r s' => UnlinkResult sb s (s.itable cwd).inum path s' r := by
    intro full hempty
    refine wp_ite (fun _ => ?_) fun hfull => ?_
    · simp only [wp_bind]
      refine (h3.put hr).mono fun _ t4 ⟨h4, _⟩ => ?_
      exact (wp_putSame hr h4).mono fun _ t5 h5 => .fail h5
    · have hat3 : AtDir sb t3 dp d := ⟨h3.ready.inv, hdp3, by rw [h3.view]; exact htype, by rw [h3.view]; exact hd⟩
      rw [add_comm] at h3
      refine (wp_unlinkClear hL ho he h3 hat3 hj3).mono fun r t4 ⟨hr4, h4⟩ => ?_
      rw [hr4]
      refine .done ⟨hwalk, hfind, hdot, hdotdot⟩ rfl hti hnlink (hempty (by simpa using hfull)) ?_ (during_held h3 hj3) h4
      rw [← during_held h1 hat.holds, Pi.add_apply]
      by_cases hdj : dp = j
      · subst hdj
        rw [one_self]
        exact ⟨fun _ => .inr (hj3.inum.symm.trans hdp3.inum), fun _ => by omega⟩
      · have hid : i ≠ d := fun e => hdj (h3.ready.inv.table.unique dp j hdp3.ref hj3.ref (by rw [hdp3.inum, hj3.inum, e]))
        rw [one_of_ne hdj, Nat.add_zero]
        exact ⟨.inl, fun h => h.resolve_right hid⟩
  rw [wp_bind, wp_inode, h3.ready.inv.copy_type hj3, h3.view]
  refine wp_ite (fun hT => ?_) fun hT => ?_
  · have hatj : AtDir sb t3 j i := ⟨h3.ready.inv, hj3, by rw [h3.view]; exact hT, by rw [h3.view]; exact hd⟩
    rw [wp_bind]
    refine (wp_isdirempty hatj).mono fun r t4 ⟨ht4, hr4⟩ => ?_
    subst ht4
    rw [h3.view] at hr4
    exact hrest (!r) fun hf _ => hr4.mp (by simpa using hf)
  · exact hrest false fun _ hc => absurd hc hT

end Xv6.Fs
