import Willo.DriverInvariants

/-! Paths and what a call changes of them. Two paths to one directory spell the same
names, ignoring case, so a change inside one directory shows only on paths
through it; elsewhere lookups, listings and contents stay what they were. -/

namespace Willo.Fat
open Text Paths ByteCodec BlockDevice FaultState LinkedChain RootedGraph TreeStore

def fold (p : List Str) : List Str := p.map lower

@[simp] theorem fold_append (p q : List Str) : fold (p ++ q) = fold p ++ fold q := List.map_append

@[simp] theorem fold_cons (s : Str) (p : List Str) : fold (s :: p) = lower s :: fold p := rfl

@[simp] theorem fold_nil : fold [] = [] := rfl

section Finding

variable {v : FatFs} {w : View} {dir : Nat} {e : DirEntry} {s : Str}

theorem entryAt_of_findIn (h : findIn v w dir s = some e) :
    ∃ i, entryAt v w dir i = some e ∧ lower e.name = lower s := by
  unfold findIn at h
  obtain ⟨i, hi⟩ := entryAt_of_mem (List.mem_of_find?_eq_some h)
  have hname := List.find?_some h
  exact ⟨i, hi, (eqIgnoreAsciiCase_iff _ _).mp hname⟩

theorem findIn_eq_some (S : Sound v w) (U : UniqueNames v w) (hr : Reach (graph v w) dir) :
    findIn v w dir s = some e ↔ ∃ i, entryAt v w dir i = some e ∧ lower e.name = lower s := by
  refine ⟨entryAt_of_findIn, fun ⟨i, he, hname⟩ => ?_⟩
  cases hf : findIn v w dir s with
  | none => exact absurd hname ((findIn_eq_none S hr).mp hf i e he)
  | some f =>
    obtain ⟨j, hj, hname'⟩ := entryAt_of_findIn hf
    rw [U dir hr j i f e hj he (hname'.trans hname.symm), he] at hj
    exact hj.symm

theorem findIn_congr {t : Str} (h : lower s = lower t) : findIn v w dir s = findIn v w dir t := by
  simp only [findIn, eqIgnoreAsciiCase, h]

theorem walk_fold (e : DirEntry) (p : List Str) : walk v w e (fold p) = walk v w e p := by
  induction p generalizing e with
  | nil => rfl
  | cons s p ih =>
    rw [fold_cons, walk, walk, findIn_congr (lower_idem s)]
    simp only [ih]

end Finding

/-! One directory, one path. -/

section Directories

variable {v : FatFs} {w : View} {p q : List Str} {n : Nat}

theorem parentDir_nil : parentDir v w [] = some v.rootCluster := rfl

theorem parentDir_snoc (p : List Str) (s : Str) : parentDir v w (p ++ [s]) =
    (parentDir v w p).bind fun dir => (findIn v w dir s).bind DirEntry.child := by
  rw [parentDir, walk_snoc]
  cases parentDir v w p with
  | none =>
    cases walk v w (rootEntry v) p with
    | error _ => rfl
    | ok _ => rfl
  | some dir =>
    change _ = (findIn v w dir s).bind DirEntry.child
    cases hf : findIn v w dir s with
    | none => simp [hf]
    | some e => simp [hf]

theorem parentDir_snoc_some {s : Str} (h : parentDir v w (p ++ [s]) = some n) :
    ∃ dir e i, parentDir v w p = some dir ∧ findIn v w dir s = some e ∧ e.child = some n ∧
      entryAt v w dir i = some e ∧ lower e.name = lower s := by
  rw [parentDir_snoc] at h
  obtain ⟨dir, hdir, h⟩ := Option.bind_eq_some_iff.mp h
  obtain ⟨e, he, hchild⟩ := Option.bind_eq_some_iff.mp h
  obtain ⟨i, hi, hname⟩ := entryAt_of_findIn he
  exact ⟨dir, e, i, hdir, he, hchild, hi, hname⟩

theorem parentDir_unique (S : Sturdy v w) (hp : parentDir v w p = some n)
    (hq : parentDir v w q = some n) : fold p = fold q := by
  induction p using List.reverseRecOn generalizing q n with
  | nil =>
    rw [(parentDir_root_iff S hq).mp (Option.some.inj hp).symm]
  | append_singleton p s ih =>
    rcases List.eq_nil_or_concat q with rfl | ⟨q, t, rfl⟩
    · have := (parentDir_root_iff S hp).mp (Option.some.inj hq).symm
      simp at this
    · rw [List.concat_eq_append] at hq ⊢
      obtain ⟨dir, e, i, hdir, -, hchild, hi, hname⟩ := parentDir_snoc_some hp
      obtain ⟨dir', e', i', hdir', -, hchild', hi', hname'⟩ := parentDir_snoc_some hq
      obtain ⟨rfl, rfl⟩ := S.forest.parent_unique (parentDir_reach hdir) hi hchild
        (parentDir_reach hdir') hi' hchild'
      rw [Option.some.inj (hi.symm.trans hi')] at hname
      rw [fold_append, fold_append, ih hdir hdir', fold_cons, fold_cons, ← hname, hname']

theorem walk_congr {w' : View}
    (h : ∀ q' s rest, q = q' ++ s :: rest → ∀ n, parentDir v w q' = some n →
    findIn v w' n s = findIn v w n s) : walk v w' (rootEntry v) q = walk v w (rootEntry v) q := by
  induction q using List.reverseRecOn with
  | nil => rfl
  | append_singleton q s ih =>
    have hwalk := ih fun q' t rest hq => h q' t (rest ++ [s]) (by rw [hq]; simp)
    have hparent : parentDir v w' q = parentDir v w q := by
      rw [parentDir, hwalk, parentDir]
    rw [walk_snoc, walk_snoc, hparent, hwalk]
    cases hn : parentDir v w q with
    | none => rfl
    | some n => simp only [h q s [] rfl n hn]

theorem walk_below (h : ∀ n, parentDir v w p = some n → ∀ s, findIn v w n s = none)
    (hq : fold p <+: fold q) (hne : fold q ≠ fold p) :
    ∃ err, walk v w (rootEntry v) q = .error err := by
  obtain ⟨rest, hrest⟩ := hq
  rw [← walk_fold, ← hrest, walk_append, walk_fold]
  cases hw : walk v w (rootEntry v) p with
  | error err => exact ⟨err, rfl⟩
  | ok e =>
    cases rest with
    | nil => exact absurd (by rw [← hrest, List.append_nil]) hne
    | cons s rest =>
      change ∃ err, walk v w e (s :: rest) = .error err
      rw [walk]
      split_ifs with hd
      · rw [h e.cluster (by rw [parentDir, hw]; exact DirEntry.child_eq_some.mpr ⟨hd, rfl⟩) s]
        exact ⟨_, rfl⟩
      · exact ⟨_, rfl⟩

end Directories

/-! Observations by the parent's directory. -/

section Answers

variable {v : FatFs} {w : View} {ps : List Str} {name : Str} {dir : Nat}

theorem fileAt_snoc (hcomps : ∀ s ∈ ps ++ [name], Component s)
    (hdir : parentDir v w ps = some dir) :
    fileAt v w (render (ps ++ [name])) =
      match findIn v w dir name with
      | some e => if e.isDir then .error .isADir else .ok (content v w e)
      | none => .error .notFound := by
  rw [fileAt, lookupIn_render hcomps, walk_snoc]
  simp only [hdir]
  cases findIn v w dir name <;> rfl

theorem dirAt_snoc (hcomps : ∀ s ∈ ps ++ [name], Component s) (hdir : parentDir v w ps = some dir) :
    dirAt v w (render (ps ++ [name])) =
      match findIn v w dir name with
      | some e => e.isDir
      | none => false := by
  rw [dirAt_render hcomps, parentDir_snoc, hdir, Option.bind_some]
  cases findIn v w dir name with
  | none => rfl
  | some e =>
    change (e.child).isSome = e.isDir
    unfold DirEntry.child
    split_ifs with hd <;> simp [hd]

theorem namesAt_dir (hcomps : ∀ s ∈ ps, Component s) (hdir : parentDir v w ps = some dir) :
    namesAt v w (render ps) = .ok ((entriesIn v w dir).map DirEntry.name) := by
  rw [namesAt, lookupIn_render hcomps]
  unfold parentDir at hdir
  split at hdir
  · rename_i e he
    obtain ⟨hd, rfl⟩ := DirEntry.child_eq_some.mp hdir
    rw [he]
    exact if_pos hd
  · cases hdir

theorem answers_error {err : FsError} (hcomps : ∀ s ∈ ps, Component s)
    (h : walk v w (rootEntry v) ps = .error err) :
    fileAt v w (render ps) = .error err ∧ namesAt v w (render ps) = .error err ∧
      dirAt v w (render ps) = false := by
  rw [fileAt, namesAt, dirAt, lookupIn_render hcomps, h]
  exact ⟨rfl, rfl, rfl⟩

end Answers

/-! Changes that stay inside one directory. -/

/-- What a change of the entry of `name` in `dir` leaves alone: listings of the other
directories, and contents of the other files. -/
structure Framed (v : FatFs) (w w' : View) (dir : Nat) (name : Str) : Prop where
  listing : ∀ {n}, Reach (graph v w) n → n ≠ dir →
    (∀ e, findIn v w dir name = some e → e.child ≠ some n) → entriesIn v w' n = entriesIn v w n
  content : ∀ {n s e}, Reach (graph v w) n → findIn v w n s = some e → e.isDir = false →
    n ≠ dir ∨ lower s ≠ lower name → content v w' e = content v w e

section Frames

variable {v : FatFs} {w w' : View} {ps q : List Str} {name : Str} {dir : Nat}

theorem Framed.walk_eq (S : Sturdy v w) (F : Framed v w w' dir name)
    (hdir : parentDir v w ps = some dir) (hq : ¬ fold (ps ++ [name]) <+: fold q)
    (hothers : ∀ s, fold (ps ++ [s]) <+: fold q → findIn v w' dir s = findIn v w dir s) :
    walk v w' (rootEntry v) q = walk v w (rootEntry v) q := by
  refine walk_congr fun q' s rest hsplit n hn => ?_
  have hstart : fold (q' ++ [s]) <+: fold q := ⟨fold rest, by rw [hsplit]; simp⟩
  by_cases heq : n = dir
  · subst heq
    refine hothers s ?_
    rwa [fold_append, parentDir_unique S hdir hn, ← fold_append]
  · rw [findIn, F.listing (parentDir_reach hn) heq, findIn]
    intro e he hchild
    -- the path would lead through the changed entry
    have hchanged : parentDir v w (ps ++ [name]) = some n := by
      rw [parentDir_snoc, hdir, Option.bind_some, he, Option.bind_some, hchild]
    refine hq (List.IsPrefix.trans ?_ hstart)
    rw [parentDir_unique S hchanged hn, fold_append]
    exact List.prefix_append _ _

theorem Framed.parentDir_eq (S : Sturdy v w) (F : Framed v w w' dir name)
    (hdir : parentDir v w ps = some dir) : parentDir v w' ps = some dir := by
  have hlong (s : Str) : ¬ fold (ps ++ [s]) <+: fold ps := by
    intro h
    have hlen := h.length_le
    simp only [fold, List.length_map, List.length_append, List.length_singleton] at hlen
    omega
  rw [parentDir, F.walk_eq S hdir (hlong name) fun s hs => absurd hs (hlong s)]
  exact hdir

end Frames

/-- And within the directory the other names are found as before. -/
structure Confined (v : FatFs) (w w' : View) (dir : Nat) (name : Str) : Prop extends
    Framed v w w' dir name where
  others : ∀ {s}, lower s ≠ lower name → findIn v w' dir s = findIn v w dir s

section Observing

variable {v : FatFs} {w w' : View} {ps q : List Str} {name : Str} {dir : Nat}

/-- Paths not at or below the changed entry lead where they led. -/
theorem Confined.walk_eq (S : Sturdy v w) (F : Confined v w w' dir name)
    (hdir : parentDir v w ps = some dir) (hq : ¬ fold (ps ++ [name]) <+: fold q) :
    walk v w' (rootEntry v) q = walk v w (rootEntry v) q := by
  refine F.toFramed.walk_eq S hdir hq fun s hs => F.others fun hsame => hq ?_
  rwa [fold_append, fold_cons, ← hsame, ← fold_cons, ← fold_append]

theorem Confined.content_of_walk (S : Sturdy v w) (F : Confined v w w' dir name)
    (hdir : parentDir v w ps = some dir) (hq : ¬ fold (ps ++ [name]) <+: fold q) {e : DirEntry}
    (hw : walk v w (rootEntry v) q = .ok e) (hfile : e.isDir = false) :
    content v w' e = content v w e := by
  rcases List.eq_nil_or_concat q with rfl | ⟨q, s, rfl⟩
  · cases hw
    cases hfile
  · rw [List.concat_eq_append] at hq hw
    rw [walk_snoc] at hw
    split at hw
    · rename_i n hn
      split at hw
      · rename_i e' he
        cases hw
        refine F.content (parentDir_reach hn) he hfile ?_
        by_contra hboth
        push Not at hboth
        refine hq ?_
        rw [fold_append, fold_append, parentDir_unique S hdir (hboth.1 ▸ hn), fold_cons, fold_cons,
          hboth.2]
      · cases hw
    · split at hw <;> cases hw

theorem Confined.fileAt_eq (S : Sturdy v w) (F : Confined v w w' dir name)
    (hdir : parentDir v w ps = some dir) (hcomps : ∀ s ∈ q, Component s)
    (hq : ¬ fold (ps ++ [name]) <+: fold q) : fileAt v w' (render q) = fileAt v w (render q) := by
  rw [fileAt, fileAt, lookupIn_render hcomps, lookupIn_render hcomps, F.walk_eq S hdir hq]
  cases hw : walk v w (rootEntry v) q with
  | error _ => rfl
  | ok e =>
    change (if e.isDir then _ else _) = (if e.isDir then _ else _)
    split_ifs with hd
    · rfl
    · rw [F.content_of_walk S hdir hq hw (by simpa using hd)]

theorem Confined.dirAt_eq (S : Sturdy v w) (F : Confined v w w' dir name)
    (hdir : parentDir v w ps = some dir) (hcomps : ∀ s ∈ q, Component s)
    (hq : ¬ fold (ps ++ [name]) <+: fold q) : dirAt v w' (render q) = dirAt v w (render q) := by
  rw [dirAt_render hcomps, dirAt_render hcomps, parentDir, F.walk_eq S hdir hq, parentDir]

theorem Confined.namesAt_eq (S : Sturdy v w) (F : Confined v w w' dir name)
    (hdir : parentDir v w ps = some dir) (hcomps : ∀ s ∈ q, Component s)
    (hq : ¬ fold (ps ++ [name]) <+: fold q) (hparent : fold q ≠ fold ps) :
    namesAt v w' (render q) = namesAt v w (render q) := by
  rw [namesAt, namesAt, lookupIn_render hcomps, lookupIn_render hcomps, F.walk_eq S hdir hq]
  cases hw : walk v w (rootEntry v) q with
  | error _ => rfl
  | ok e =>
    change (if e.isDir then _ else _) = (if e.isDir then _ else _)
    split_ifs with hd
    · have hn : parentDir v w q = some e.cluster := by
        rw [parentDir, hw]
        exact DirEntry.child_eq_some.mpr ⟨hd, rfl⟩
      rw [F.listing (parentDir_reach hn)]
      · rintro rfl
        exact hparent (parentDir_unique S hn hdir)
      · intro f hf hchild
        have hchanged : parentDir v w (ps ++ [name]) = some e.cluster := by
          rw [parentDir_snoc, hdir, Option.bind_some, hf, Option.bind_some, hchild]
        exact hq (by rw [parentDir_unique S hchanged hn])
    · rfl

end Observing

end Willo.Fat
