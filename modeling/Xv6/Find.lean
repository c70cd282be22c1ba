/-
  Xv6.Find — the files that find reports (user/find.c, and stat of user/ulib.c).

  The file system is a tree that does not change. A path is looked up by its components (see
  `Xv6.Fs.Paths`); a stack of directories stands for the parents. A process has NOFILE
  descriptors, and `open` takes the first that is free. A name of DIRSIZ bytes is not ended in the
  entry, so that `strcmp` and `strcpy` go on with what is behind it in memory: `pad k` is that
  after the `k`-th entry that was read, up to a NUL. `find` is recursive; the recursion takes
  fuel, and each call that reads a directory keeps a descriptor.
-/

import Xv6.Fs.Paths

namespace Xv6.Find

open Fs (slash)

def newline : UInt8 := 0x0a

def dot : List UInt8 := [0x2e]

def dotdot : List UInt8 := [0x2e, 0x2e]

/-! ## Directory trees -/

mutual

inductive Tree where
  | file
  | dir (d : Dir)

inductive Dir where
  | nil
  /-- A slot with `inum == 0`. -/
  | free (rest : Dir)
  | dot (rest : Dir)
  | dotdot (rest : Dir)
  | entry (name : List UInt8) (t : Tree) (rest : Dir)

end

def Dir.lookup (name : List UInt8) : Dir → Option Tree
  | .nil => none
  | .free rest => rest.lookup name
  | .dot rest => rest.lookup name
  | .dotdot rest => rest.lookup name
  | .entry n t rest => if n = name then some t else rest.lookup name

/-- A component of a path: the directory it is looked up in is the first of the stack, with its parents after it. -/
def descend : List Tree → List UInt8 → Option (List Tree)
  | .dir d :: up, name =>
    if name = dot then some (.dir d :: up)
    else if name = dotdot then some (if up = [] then [.dir d] else up)
    else (d.lookup name).map (· :: .dir d :: up)
  | _, _ => none

structure World where
  root : Tree
  /-- The current directory and its parents. -/
  cwd : List Tree
  /-- What is in memory behind an entry. -/
  pad : Nat → List UInt8
  /-- What is in memory before `loc`: find looks there if the location is the empty string. -/
  before : UInt8

def World.resolve (w : World) (path : List UInt8) : Option (List Tree) :=
  (Fs.components path).foldlM descend (if path.head? = some slash then [w.root] else w.cwd)

/-! ## The program -/

structure St where
  /-- The descriptors in use. -/
  fds : List Bool
  /-- What has been printed, by lines. -/
  out : List (List UInt8)
  /-- The directories that have been opened to be read. -/
  entered : List (List UInt8)
  /-- How many entries have been read. -/
  reads : Nat

def isFree (fds : List Bool) : Bool := fds.contains false

def fdalloc : List Bool → List Bool
  | [] => []
  | false :: fds => true :: fds
  | true :: fds => true :: fdalloc fds

/-- `open(path, O_RDONLY)` of the kernel, before the descriptor is taken. -/
def World.opens (w : World) (path : List UInt8) (fds : List Bool) : Option Tree :=
  if MAXPATH ≤ path.length then none
  else if isFree fds then (w.resolve path).bind List.head? else none

def typeOf : Tree → Nat
  | .file => T_FILE
  | .dir _ => T_DIR

def World.name (w : World) (k : Nat) (n : List UInt8) : List UInt8 := if n.length < DIRSIZ then n else n ++ w.pad k

/-- One round of the loop, for an entry: `loc` ends with a slash, `type` is what is in `st.type`, and `find` is the
    recursive call. The new `st.type` is returned. -/
def visit (w : World) (find : List UInt8 → St → St) (filename loc : List UInt8) (type : Nat) (n : List UInt8) (s : St) :
    Nat × St :=
  let name := w.name s.reads n
  let s := { s with reads := s.reads + 1 }
  if name = dot ∨ name = dotdot then (type, s)
  else
    let s := if filename = name then { s with out := s.out ++ [loc ++ filename ++ [newline]] } else s
    -- where `stat` fails it leaves `st` as it was
    let type := ((w.opens (loc ++ name) s.fds).map typeOf).getD type
    (type, if type = T_DIR then find (loc ++ name) s else s)

def entries (w : World) (find : List UInt8 → St → St) (filename loc : List UInt8) : Nat → Dir → St → St
  | _, .nil, s => s
  | type, .free rest, s => entries w find filename loc type rest { s with reads := s.reads + 1 }
  | type, .dot rest, s => entries w find filename loc type rest { s with reads := s.reads + 1 }
  | type, .dotdot rest, s => entries w find filename loc type rest { s with reads := s.reads + 1 }
  | type, .entry n _ rest, s =>
    let (type, s) := visit w find filename loc type n s
    entries w find filename loc type rest s

/-- `loc`: the location with a slash at its end. -/
def World.loc (w : World) (location : List UInt8) : List UInt8 :=
  if location.getLast?.getD w.before = slash then location else location ++ [slash]

/-- `garbage` is what is in `st.type` at the start. -/
def find (w : World) (garbage : Nat) (filename : List UInt8) : Nat → List UInt8 → St → St
  | 0, _, s => s
  | fuel + 1, location, s =>
    match w.opens location s.fds with
    | some (.dir d) => entries w (find w garbage filename fuel) filename (w.loc location) garbage d
        { s with fds := fdalloc s.fds, entered := s.entered ++ [location] }
    -- find is called for directories only
    | some .file => { s with fds := fdalloc s.fds }
    | none => s

/-! ## What it is for -/

mutual

/-- The paths below `path` of the entries that are asked for. -/
def Tree.paths (keep : List UInt8 → Tree → Bool) : List UInt8 → Tree → List (List UInt8)
  | _, .file => []
  | path, .dir d => d.paths keep (path ++ [slash])

def Dir.paths (keep : List UInt8 → Tree → Bool) : List UInt8 → Dir → List (List UInt8)
  | _, .nil => []
  | loc, .free rest => rest.paths keep loc
  | loc, .dot rest => rest.paths keep loc
  | loc, .dotdot rest => rest.paths keep loc
  | loc, .entry n t rest => (if keep n t then [loc ++ n] else []) ++ t.paths keep (loc ++ n) ++ rest.paths keep loc

end

/-- An entry and what is below it. -/
def Tree.withPaths (keep : List UInt8 → Tree → Bool) (n path : List UInt8) (t : Tree) : List (List UInt8) :=
  (if keep n t then [path] else []) ++ t.paths keep path

def named (filename n : List UInt8) (_ : Tree) : Bool := filename = n

def isDir (_ : List UInt8) : Tree → Bool
  | .file => false
  | .dir _ => true

def Dir.found (d : Dir) (filename loc : List UInt8) : List (List UInt8) := d.paths (named filename) loc

def Dir.dirs (d : Dir) (loc : List UInt8) : List (List UInt8) := d.paths isDir loc

structure Name (n : List UInt8) : Prop where
  ne : n ≠ []
  length : n.length ≤ DIRSIZ
  free : slash ∉ n
  dots : n ≠ dot ∧ n ≠ dotdot

mutual

/-- The names below `path` are admitted, each once in its directory, and the paths fit in the buffer, with a slash if it
    is that of a directory. -/
def Tree.Admitted : List UInt8 → Tree → Prop
  | path, .file => path.length < MAXPATH
  | path, .dir d => (path ++ [slash]).length < MAXPATH ∧ d.Admitted (path ++ [slash])

def Dir.Admitted : List UInt8 → Dir → Prop
  | _, .nil => True
  | loc, .free rest => rest.Admitted loc
  | loc, .dot rest => rest.Admitted loc
  | loc, .dotdot rest => rest.Admitted loc
  | loc, .entry n t rest => Name n ∧ rest.lookup n = none ∧ t.Admitted (loc ++ n) ∧ rest.Admitted loc

end

mutual

/-- The names are ended in their entries. -/
def Tree.Short : Tree → Prop
  | .file => True
  | .dir d => d.Short

def Dir.Short : Dir → Prop
  | .nil => True
  | .free rest => rest.Short
  | .dot rest => rest.Short
  | .dotdot rest => rest.Short
  | .entry n t rest => n.length < DIRSIZ ∧ t.Short ∧ rest.Short

end

def line (path : List UInt8) : List UInt8 := path ++ [newline]

def nfree (fds : List Bool) : Nat := fds.count false

/-- What `find` should do for the directory `d` at `location`: print the paths of the entries with that name, enter the
    directories below once, and leave the descriptors as they were. -/
structure Reports (w : World) (filename location : List UInt8) (d : Dir) (s s' : St) : Prop where
  printed : s'.out = s.out ++ (d.found filename (w.loc location)).map line
  entered : ∀ p, p ≠ location → s'.entered.count p = s.entered.count p + (d.dirs (w.loc location)).count p
  descriptors : s'.fds = s.fds

/-! ## Descriptors -/

section

variable {w : World} {garbage fuel type : Nat} {filename location loc n : List UInt8} {d D : Dir} {s s' : St} {fds : List Bool}

theorem isFree_iff : isFree fds = true ↔ 0 < nfree fds := by
  rw [isFree, nfree, List.contains_iff_mem, List.count_pos_iff]

theorem nfree_fdalloc (h : isFree fds = true) : nfree (fdalloc fds) + 1 = nfree fds := by
  induction fds with
  | nil => cases h
  | cons b fds ih =>
    cases b with
    | false => simp [fdalloc, nfree]
    | true =>
      have := ih (by simpa [isFree] using h)
      simpa [fdalloc, nfree] using this

section

variable {find : List UInt8 → St → St} (hfind : ∀ l s, nfree (find l s).fds ≤ nfree s.fds)
include hfind

theorem nfree_visit : nfree (visit w find filename loc type n s).2.fds ≤ nfree s.fds := by
  unfold visit
  dsimp only
  split
  · exact Nat.le_refl _
  · generalize hs : (if filename = w.name s.reads n then
      St.mk s.fds (s.out ++ [loc ++ filename ++ [newline]]) s.entered (s.reads + 1)
      else St.mk s.fds s.out s.entered (s.reads + 1)) = s1
    have hfds : s1.fds = s.fds := by
      rw [← hs]
      split <;> rfl
    dsimp only
    split
    · exact hfds ▸ hfind _ s1
    · exact Nat.le_of_eq (congrArg nfree hfds)

theorem nfree_entries : ∀ (d : Dir) (type : Nat) (s : St), nfree (entries w find filename loc type d s).fds ≤ nfree s.fds
  | .nil, _, _ => Nat.le_refl _
  | .free rest, _, _ => nfree_entries rest _ _
  | .dot rest, _, _ => nfree_entries rest _ _
  | .dotdot rest, _, _ => nfree_entries rest _ _
  | .entry _ _ rest, _, _ => Nat.le_trans (nfree_entries rest _ _) (nfree_visit hfind)

end

theorem isFree_of_opens {path : List UInt8} {t : Tree} (h : w.opens path fds = some t) : isFree fds = true := by
  unfold World.opens at h
  split at h
  · cases h
  · split at h
    · assumption
    · cases h

theorem nfree_find (fuel : Nat) (location : List UInt8) (s : St) :
    nfree (find w garbage filename fuel location s).fds ≤ nfree s.fds := by
  induction fuel generalizing location s with
  | zero => exact Nat.le_refl _
  | succ fuel ih =>
    unfold find
    split
    · rename_i d hd
      have := nfree_fdalloc (isFree_of_opens hd)
      exact Nat.le_trans (nfree_entries ih ..) (by dsimp only; omega)
    · rename_i hd
      have := nfree_fdalloc (isFree_of_opens hd)
      dsimp only
      omega
    · exact Nat.le_refl _

theorem nfree_find_lt (h : w.opens location s.fds = some (.dir d)) :
    nfree (find w garbage filename (fuel + 1) location s).fds < nfree s.fds := by
  have := nfree_fdalloc (isFree_of_opens h)
  unfold find
  rw [h]
  exact Nat.lt_of_le_of_lt (nfree_entries (nfree_find fuel) ..) (by dsimp only; omega)

/-! ## Paths -/

theorem length_le_loc (w : World) (location : List UInt8) : location.length ≤ (w.loc location).length := by
  unfold World.loc
  split
  · exact Nat.le_refl _
  · rw [List.length_append]
    exact Nat.le_add_right _ _

theorem loc_split (w : World) (h : location ≠ []) :
    ∃ l, w.loc location = l ++ [slash] ∧ (l ++ [slash]).head? = location.head? ∧ Fs.components l = Fs.components location := by
  unfold World.loc
  split
  · rename_i hlast
    rw [List.getLast?_eq_some_getLast h] at hlast
    have heq : location.dropLast ++ [slash] = location := hlast ▸ List.dropLast_concat_getLast h
    refine ⟨location.dropLast, heq.symm, by rw [heq], ?_⟩
    have := Fs.components_append location.dropLast []
    rw [heq, Fs.components_nil, List.append_nil] at this
    exact this.symm
  · cases location with
    | nil => exact absurd rfl h
    | cons c l => exact ⟨c :: l, rfl, rfl, rfl⟩

/-- `loc` leads to the directory `d`. -/
def World.At (w : World) (loc : List UInt8) (d : Dir) (up : List Tree) : Prop :=
  ∀ n, Name n → w.resolve (loc ++ n) = (d.lookup n).map (· :: .dir d :: up)

theorem at_loc {up : List Tree} (hne : location ≠ []) (h : w.resolve location = some (.dir d :: up)) :
    w.At (w.loc location) d up := by
  intro n hn
  obtain ⟨l, hl, hhead, hcomp⟩ := loc_split w hne
  have hone : Fs.components n = [n] := by
    rw [Fs.components_of_free (fun c hc hs => hn.free (hs ▸ hc)) hn.ne, List.take_of_length_le hn.length]
  have hstart : (l ++ [slash] ++ n).head? = location.head? := by
    rw [List.head?_append, hhead]
    cases location with
    | nil => exact absurd rfl hne
    | cons c _ => rfl
  have hpath : Fs.components (l ++ [slash] ++ n) = Fs.components location ++ [n] := by
    rw [List.append_assoc, List.singleton_append, Fs.components_append, hcomp, hone]
  unfold World.resolve at h ⊢
  rw [hl, hstart, hpath, List.foldlM_append, h]
  simp only [Option.bind_eq_bind, Option.bind_some, List.foldlM_cons, List.foldlM_nil, descend, if_neg hn.dots.1,
    if_neg hn.dots.2, bind_pure]

theorem loc_name (w : World) (hn : Name n) : w.loc (loc ++ n) = loc ++ n ++ [slash] := by
  unfold World.loc
  rw [List.getLast?_append, List.getLast?_eq_some_getLast hn.ne]
  refine if_neg fun h => hn.free ?_
  have hlast : n.getLast hn.ne = slash := h
  exact hlast ▸ List.getLast_mem hn.ne

/-! ## What is printed and entered -/

structure Done (s s' : St) (paths dirs : List (List UInt8)) : Prop where
  out : s'.out = s.out ++ paths.map line
  entered : s'.entered = s.entered ++ dirs
  nfree : nfree s'.fds + dirs.length = nfree s.fds

theorem Done.trans {s1 s2 s3 : St} {paths paths' dirs dirs' : List (List UInt8)} (h : Done s1 s2 paths dirs)
    (h' : Done s2 s3 paths' dirs') : Done s1 s3 (paths ++ paths') (dirs ++ dirs') where
  out := by rw [h'.out, h.out, List.append_assoc, List.map_append]
  entered := by rw [h'.entered, h.entered, List.append_assoc]
  nfree := by
    have := h.nfree
    have := h'.nfree
    rw [List.length_append]
    omega

theorem Done.skip {paths dirs : List (List UInt8)} {k : Nat} (h : Done { s with reads := k } s' paths dirs) :
    Done s s' paths dirs :=
  ⟨h.out, h.entered, h.nfree⟩

/-- The state in which an entry has been read and, if it has the name, printed. -/
def printed (filename loc n : List UInt8) (s : St) : St :=
  { s with out := s.out ++ (if filename = n then [loc ++ n] else []).map line, reads := s.reads + 1 }

theorem visit_eq {find : List UInt8 → St → St} (hn : Name n) (hs : n.length < DIRSIZ) :
    visit w find filename loc type n s =
      let type := ((w.opens (loc ++ n) s.fds).map typeOf).getD type
      (type, if type = T_DIR then find (loc ++ n) (printed filename loc n s) else printed filename loc n s) := by
  unfold visit World.name printed
  rw [if_pos hs]
  dsimp only
  rw [if_neg (not_or.mpr hn.dots)]
  by_cases hf : filename = n
  · subst hf
    simp only [if_pos, List.map_cons, List.map_nil, line]
  · simp only [if_neg hf, List.map_nil, List.append_nil]

theorem done_printed : Done s (printed filename loc n s) (if filename = n then [loc ++ n] else []) [] where
  out := rfl
  entered := (List.append_nil _).symm
  nfree := rfl

end

section

variable {w : World} {garbage : Nat} {filename : List UInt8}

theorem opens_eq {path : List UInt8} {t : Tree} {up : List Tree} {fds : List Bool} (hres : w.resolve path = some (t :: up))
    (hlen : path.length < MAXPATH) : w.opens path fds = if isFree fds then some t else none := by
  unfold World.opens
  rw [if_neg (Nat.not_le.mpr hlen), hres]
  rfl

theorem find_none {fuel : Nat} {location : List UInt8} {s : St} (h : w.opens location s.fds = none) :
    find w garbage filename fuel location s = s := by
  cases fuel with
  | zero => rfl
  | succ fuel =>
    unfold find
    rw [h]

theorem find_dir {fuel : Nat} {location loc : List UInt8} {d : Dir} {s : St} {paths dirs : List (List UInt8)}
    (hopens : w.opens location s.fds = some (.dir d)) (hloc : w.loc location = loc)
    (h : Done { s with fds := fdalloc s.fds, entered := s.entered ++ [location] }
      (entries w (find w garbage filename fuel) filename loc garbage d
        { s with fds := fdalloc s.fds, entered := s.entered ++ [location] }) paths dirs) :
    Done s (find w garbage filename (fuel + 1) location s) paths (location :: dirs) := by
  have hpop := nfree_fdalloc (isFree_of_opens hopens)
  unfold find
  rw [hopens, hloc]
  refine ⟨h.out, ?_, ?_⟩
  · rw [h.entered, List.append_assoc, List.singleton_append]
  · have := h.nfree
    rw [List.length_cons]
    dsimp only at this ⊢
    omega

mutual

theorem visit_done : (t : Tree) → ∀ {loc n : List UInt8} {up : List Tree} {fuel type : Nat} {s : St}, loc ++ n ≠ [] →
    w.resolve (loc ++ n) = some (t :: up) → Name n → n.length < DIRSIZ → t.Admitted (loc ++ n) → t.Short →
    (t.withPaths isDir n (loc ++ n)).length ≤ nfree s.fds → (t.withPaths isDir n (loc ++ n)).length ≤ fuel →
    Done s (visit w (find w garbage filename fuel) filename loc type n s).2 (t.withPaths (named filename) n (loc ++ n))
      (t.withPaths isDir n (loc ++ n))
  | .file, loc, n, up, fuel, type, s, hne, hres, hn, hlen, ha, _, _, _ => by
    have hdone : Done s (printed filename loc n s) (Tree.file.withPaths (named filename) n (loc ++ n)) [] := by
      simpa [Tree.withPaths, Tree.paths, named] using done_printed
    rw [visit_eq hn hlen, opens_eq hres ha]
    dsimp only
    by_cases hf : isFree s.fds = true
    · rw [if_pos hf]
      exact hdone
    -- where there is no descriptor for `stat`, there is none for a `find` that the old type leads to
    · have hclosed : w.opens (loc ++ n) (printed filename loc n s).fds = none := by
        rw [opens_eq hres ha]
        exact if_neg hf
      rw [if_neg hf, find_none hclosed, ite_self]
      exact hdone
  | .dir d, loc, n, up, 0, type, s, hne, hres, hn, hlen, ha, hs, hfree, hfuel => absurd hfuel (Nat.not_succ_le_zero _)
  | .dir d, loc, n, up, fuel + 1, type, s, hne, hres, hn, hlen, ha, hs, hfree, hfuel => by
    have hpath : (loc ++ n).length < MAXPATH := by
      have := ha.1
      rw [List.length_append] at this
      exact Nat.lt_of_succ_lt this
    have hf : isFree s.fds = true := isFree_iff.mpr (Nat.lt_of_lt_of_le (Nat.succ_pos _) hfree)
    have hopens : w.opens (loc ++ n) s.fds = some (.dir d) := by rw [opens_eq hres hpath, if_pos hf]
    have hprinted : Done s (printed filename loc n s) (if named filename n (.dir d) then [loc ++ n] else []) [] := by
      simpa [named] using done_printed
    have hpop := nfree_fdalloc hf
    have hat := loc_name w hn ▸ at_loc hne hres
    change (d.paths isDir (loc ++ n ++ [slash])).length + 1 ≤ _ at hfree hfuel
    rw [visit_eq hn hlen, hopens]
    refine hprinted.trans (find_dir (s := printed filename loc n s) hopens (loc_name w hn) ?_)
    refine entries_done d hat (fun _ _ h => h) ha.2 hs ?_ (Nat.le_of_succ_le_succ hfuel)
    show _ ≤ nfree (fdalloc s.fds)
    omega

theorem entries_done : (d : Dir) → ∀ {D : Dir} {loc : List UInt8} {up : List Tree} {fuel type : Nat} {s : St}, w.At loc D up →
    (∀ n t, d.lookup n = some t → D.lookup n = some t) → d.Admitted loc → d.Short → (d.paths isDir loc).length ≤ nfree s.fds →
    (d.paths isDir loc).length ≤ fuel →
    Done s (entries w (find w garbage filename fuel) filename loc type d s) (d.paths (named filename) loc) (d.paths isDir loc)
  | .nil, _, _, _, _, _, _, _, _, _, _, _, _ => ⟨(List.append_nil _).symm, (List.append_nil _).symm, rfl⟩
  | .free rest, _, _, _, _, _, s, hat, hsub, ha, hs, hfree, hfuel =>
    Done.skip (entries_done rest (s := { s with reads := s.reads + 1 }) hat hsub ha hs hfree hfuel)
  | .dot rest, _, _, _, _, _, s, hat, hsub, ha, hs, hfree, hfuel =>
    Done.skip (entries_done rest (s := { s with reads := s.reads + 1 }) hat hsub ha hs hfree hfuel)
  | .dotdot rest, _, _, _, _, _, s, hat, hsub, ha, hs, hfree, hfuel =>
    Done.skip (entries_done rest (s := { s with reads := s.reads + 1 }) hat hsub ha hs hfree hfuel)
  | .entry n t rest, D, loc, up, fuel, type, s, hat, hsub, ⟨hn, hfresh, ha, ha'⟩, ⟨hlen, hs, hs'⟩, hfree, hfuel => by
    have hlook : D.lookup n = some t := hsub n t (by rw [Dir.lookup, if_pos rfl])
    have hres : w.resolve (loc ++ n) = some (t :: .dir D :: up) := by rw [hat n hn, hlook]; rfl
    have hrest : ∀ m u, rest.lookup m = some u → D.lookup m = some u := by
      intro m u h
      refine hsub m u ?_
      have hm : n ≠ m := by
        intro hm
        rw [hm, h] at hfresh
        cases hfresh
      rw [Dir.lookup, if_neg hm, h]
    change (t.withPaths isDir n (loc ++ n) ++ rest.paths isDir loc).length ≤ _ at hfree hfuel
    rw [List.length_append] at hfree hfuel
    have hfirst : Done s (visit w (find w garbage filename fuel) filename loc type n s).2 _ _ :=
      visit_done t (fun h => hn.ne (List.append_eq_nil_iff.mp h).2) hres hn hlen ha hs (by omega) (by omega)
    have hleft := hfirst.nfree
    exact hfirst.trans (entries_done rest hat hrest ha' hs' (by omega) (by omega))

end

end

/-! ## Each path once -/

section

variable {keep : List UInt8 → Tree → Bool}

/-- What follows a name in a path. -/
def Follows (r : List UInt8) : Prop := r = [] ∨ r.head? = some slash

theorem takeWhile_name {n r : List UInt8} (hn : slash ∉ n) (hr : Follows r) : (n ++ r).takeWhile (· ≠ slash) = n := by
  rw [List.takeWhile_append_of_pos fun c hc => decide_eq_true (p := c ≠ slash) fun h => hn (h ▸ hc)]
  cases r with
  | nil => exact List.append_nil n
  | cons c r =>
    have hc : c = slash := by simpa [Follows] using hr
    rw [hc, List.takeWhile_cons_of_neg (by simp), List.append_nil]

/-- A path in a directory goes on with a name that is in it. -/
def Below (loc : List UInt8) (d : Dir) (x : List UInt8) : Prop :=
  ∃ n r, x = loc ++ n ++ r ∧ Name n ∧ d.lookup n ≠ none ∧ Follows r

theorem name_unique {loc n m r r' : List UInt8} (hn : Name n) (hm : Name m) (hr : Follows r) (hr' : Follows r')
    (h : loc ++ n ++ r = loc ++ m ++ r') : n = m := by
  rw [List.append_assoc, List.append_assoc, List.append_cancel_left_eq] at h
  rw [← takeWhile_name hn.free hr, h, takeWhile_name hm.free hr']

mutual

theorem follows_of_mem : (t : Tree) → ∀ {path n x : List UInt8}, t.Admitted path → x ∈ t.withPaths keep n path →
    ∃ r, x = path ++ r ∧ Follows r
  | .file, path, n, x, _, hx => by
    rw [Tree.withPaths, Tree.paths, List.append_nil] at hx
    split at hx
    · exact ⟨[], by rw [List.mem_singleton.mp hx, List.append_nil], .inl rfl⟩
    · cases hx
  | .dir d, path, n, x, ha, hx => by
    rcases List.mem_append.mp hx with hx | hx
    · split at hx
      · exact ⟨[], by rw [List.mem_singleton.mp hx, List.append_nil], .inl rfl⟩
      · cases hx
    · obtain ⟨m, r, heq, -⟩ := below_of_mem d ha.2 hx
      exact ⟨[slash] ++ m ++ r, by rw [heq]; simp only [List.append_assoc], .inr rfl⟩

theorem below_of_mem : (d : Dir) → ∀ {loc x : List UInt8}, d.Admitted loc → x ∈ d.paths keep loc → Below loc d x
  | .nil, _, _, _, h => nomatch h
  | .free rest, _, _, ha, h => below_of_mem rest ha h
  | .dot rest, _, _, ha, h => below_of_mem rest ha h
  | .dotdot rest, _, _, ha, h => below_of_mem rest ha h
  | .entry n t rest, loc, x, ⟨hn, _, ha, ha'⟩, h => by
    rcases List.mem_append.mp h with h | h
    · obtain ⟨r, heq, hr⟩ := follows_of_mem t (n := n) ha h
      exact ⟨n, r, heq, hn, by rw [Dir.lookup, if_pos rfl]; exact Option.some_ne_none t, hr⟩
    · obtain ⟨m, r, heq, hm, hmem, hr⟩ := below_of_mem rest ha' h
      refine ⟨m, r, heq, hm, ?_, hr⟩
      rw [Dir.lookup]
      split
      · exact Option.some_ne_none t
      · exact hmem

end

mutual

theorem nodup_withPaths : (t : Tree) → ∀ {path n : List UInt8}, t.Admitted path → (t.withPaths keep n path).Nodup
  | .file, path, n, _ => by
    rw [Tree.withPaths, Tree.paths, List.append_nil]
    split
    · exact List.nodup_singleton path
    · exact List.nodup_nil
  | .dir d, path, n, ha => by
    rw [Tree.withPaths, Tree.paths]
    split
    · refine List.nodup_cons.mpr ⟨fun h => ?_, nodup_paths d ha.2⟩
      obtain ⟨m, r, heq, -⟩ := below_of_mem d ha.2 h
      have := congrArg List.length heq
      simp only [List.length_append, List.length_singleton] at this
      omega
    · exact nodup_paths d ha.2

theorem nodup_paths : (d : Dir) → ∀ {loc : List UInt8}, d.Admitted loc → (d.paths keep loc).Nodup
  | .nil, _, _ => List.nodup_nil
  | .free rest, _, ha => nodup_paths rest ha
  | .dot rest, _, ha => nodup_paths rest ha
  | .dotdot rest, _, ha => nodup_paths rest ha
  | .entry n t rest, loc, ⟨hn, hfresh, ha, ha'⟩ => by
    refine List.Nodup.append (nodup_withPaths t ha) (nodup_paths rest ha') ?_
    intro x hx hx'
    obtain ⟨r, heq, hr⟩ := follows_of_mem t (n := n) ha hx
    obtain ⟨m, r', heq', hm, hmem, hr'⟩ := below_of_mem rest ha' hx'
    exact hmem (name_unique hn hm hr hr' (heq.symm.trans heq') ▸ hfresh)

end

theorem not_mem_dirs {w : World} {location : List UInt8} {d : Dir} (ha : d.Admitted (w.loc location)) :
    location ∉ d.dirs (w.loc location) := by
  intro h
  obtain ⟨n, r, heq, hn, -⟩ := below_of_mem d ha h
  have hlen := congrArg List.length heq
  have hpos := List.length_pos_iff.mpr hn.ne
  have hloc := length_le_loc w location
  rw [List.length_append, List.length_append] at hlen
  omega

end

/-! ## Results -/

section

variable {w : World} {garbage fuel : Nat} {filename location : List UInt8} {d : Dir} {up : List Tree} {s : St}

theorem reports_self_iff (ha : d.Admitted (w.loc location)) :
    Reports w filename location d s s ↔ d.found filename (w.loc location) = [] ∧ d.dirs (w.loc location) = [] := by
  constructor
  · intro h
    have hp : (d.found filename (w.loc location)).map line = [] := List.append_right_eq_self.mp h.printed.symm
    refine ⟨List.map_eq_nil_iff.mp hp, List.eq_nil_iff_forall_not_mem.mpr fun p hp => ?_⟩
    have hne : p ≠ location := fun he => not_mem_dirs ha (he ▸ hp)
    have hcount := h.entered p hne
    have := List.count_pos_iff.mpr hp
    omega
  · intro ⟨hf, hd⟩
    exact ⟨by rw [hf]; exact (List.append_nil _).symm, fun p _ => by rw [hd]; rfl, rfl⟩

/-- For a directory in the file system, whose paths fit in the buffer. -/
theorem find_reports_iff (hres : w.resolve location = some (.dir d :: up)) (hlen : (w.loc location).length < MAXPATH)
    (ha : d.Admitted (w.loc location)) (hfds : s.fds.length = NOFILE) (hfuel : NOFILE < fuel) :
    (Reports w filename location d s (find w garbage filename fuel location s) ↔
      isFree s.fds = false ∧ d.found filename (w.loc location) = [] ∧ d.dirs (w.loc location) = []) ∧
    (location ≠ [] → d.Short → (d.dirs (w.loc location)).length < nfree s.fds →
      Done s (find w garbage filename fuel location s) (d.found filename (w.loc location)) (location :: d.dirs (w.loc location)) ∧
      (d.found filename (w.loc location)).Nodup ∧ (location :: d.dirs (w.loc location)).Nodup) := by
  obtain ⟨fuel, rfl⟩ : ∃ k, fuel = k + 1 := ⟨fuel - 1, by omega⟩
  have hshort : location.length < MAXPATH := Nat.lt_of_le_of_lt (length_le_loc w location) hlen
  have hopens : w.opens location s.fds = _ := opens_eq hres hshort
  constructor
  · by_cases hf : isFree s.fds = true
    · rw [if_pos hf] at hopens
      have hlt : nfree (find w garbage filename (fuel + 1) location s).fds < nfree s.fds := nfree_find_lt hopens
      refine ⟨fun h => ?_, fun h => ?_⟩
      · rw [h.descriptors] at hlt
        exact absurd hlt (Nat.lt_irrefl _)
      · rw [h.1] at hf
        cases hf
    · rw [if_neg hf] at hopens
      rw [find_none hopens, reports_self_iff ha, Bool.not_eq_true] at *
      exact ⟨fun h => ⟨hf, h⟩, fun h => h.2⟩
  · intro hne hs hn
    have hf : isFree s.fds = true := isFree_iff.mpr (Nat.lt_of_le_of_lt (Nat.zero_le _) hn)
    rw [if_pos hf] at hopens
    have hpop := nfree_fdalloc hf
    have hle : nfree s.fds ≤ NOFILE := hfds ▸ List.count_le_length
    refine ⟨find_dir hopens rfl ?_, nodup_paths d ha, List.nodup_cons.mpr ⟨not_mem_dirs ha, nodup_paths d ha⟩⟩
    unfold Dir.dirs at hn
    exact entries_done d (at_loc hne hres) (fun _ _ h => h) ha hs (by dsimp only; omega) (by omega)

def inRoot (d : Dir) : World where
  root := .dir d
  cwd := [.dir d]
  -- an entry may be followed by any byte, here `a`
  pad _ := [0x61]
  before := 0

def start : St := ⟨List.replicate 3 true ++ List.replicate 13 false, [], [], 0⟩

def small : Dir := .entry [0x62] .file (.entry [0x64] (.dir (.entry [0x62] .file .nil)) .nil)

theorem find_reports_small :
    Done start (find (inRoot small) 0 [0x62] 17 dot start) [[0x2e, slash, 0x62], [0x2e, slash, 0x64, slash, 0x62]]
      [dot, [0x2e, slash, 0x64]] := by
  have hname : ∀ c : UInt8, c ≠ slash → c ≠ 0x2e → Name [c] := fun c hs hd =>
    ⟨List.cons_ne_nil _ _, Nat.le_add_left 1 13, fun h => hs (List.mem_singleton.mp h).symm, fun h => hd (List.cons.inj h).1,
      nofun⟩
  have hb := hname 0x62 (by decide) (by decide)
  have hd : (Dir.entry [0x62] .file .nil).Admitted [0x2e, slash, 0x64, slash] :=
    ⟨hb, rfl, show 5 < MAXPATH by decide, trivial⟩
  have ha : small.Admitted ((inRoot small).loc dot) :=
    ⟨hb, rfl, show 3 < MAXPATH by decide, hname 0x64 (by decide) (by decide), rfl, ⟨by decide, hd⟩, trivial⟩
  have hs : small.Short := ⟨by decide, trivial, by decide, ⟨by decide, trivial, trivial⟩, trivial⟩
  have hres : (inRoot small).resolve dot = some [.dir small] := rfl
  exact ((find_reports_iff hres (by decide) ha (by decide) (Nat.lt_succ_self 16)).2 (List.cons_ne_nil _ _) hs (by decide)).1

def many : Nat → Dir
  | 0 => .nil
  | k + 1 => .entry [0x63 + k.toUInt8] (.dir (.entry [0x62] .file .nil)) (many k)

def long : Dir := .entry (List.replicate 14 0x62) .file .nil

/-- An empty directory costs a descriptor; a name of DIRSIZ bytes is not found; the 13th directory is not entered. -/
theorem find_leaks :
    (¬ Reports (inRoot .nil) [0x62] dot .nil start (find (inRoot .nil) 0 [0x62] 17 dot start)) ∧
    (¬ Reports (inRoot long) (List.replicate 14 0x62) dot long start
      (find (inRoot long) 0 (List.replicate 14 0x62) 17 dot start)) ∧
    (find (inRoot long) 0 (List.replicate 14 0x62) 17 dot start).out = [] ∧
    (long.found (List.replicate 14 0x62) [0x2e, slash]).length = 1 ∧
    (find (inRoot (many 13)) 0 [0x62] 17 dot start).out.length = 12 ∧
    ((many 13).found [0x62] [0x2e, slash]).length = 13 := by
  refine ⟨fun h => absurd h.descriptors (by decide +kernel), fun h => absurd h.descriptors (by decide +kernel), ?_⟩
  decide +kernel

end

end Xv6.Find
