import Willo.FailedCalls

/-! The FAT volume as a tree store. A path of the store is a list of names, taken up to
case; the five calls of the driver are the five mutations of the store, allowed
and carried out as the store says, as long as clusters suffice, names come back
and lengths fit. -/

namespace Willo.Fat
open Text Paths ByteCodec BlockDevice FaultState LinkedChain RootedGraph TreeStore

def entryOf (v : FatFs) (w : View) (e : DirEntry) : Entry UInt8 :=
  if e.isDir then .dir else .file (content v w e)

def store (v : FatFs) (w : View) : Store Str UInt8 := fun p =>
  match walk v w (rootEntry v) p with
  | .ok e => some (entryOf v w e)
  | .error _ => none

section Reading

variable {v : FatFs} {w : View} {p q ps : List Str} {name : Str} {dir : Nat}

theorem store_fold (p : List Str) : store v w (fold p) = store v w p := by
  rw [store, walk_fold, store]

theorem entryOf_eq_dir {e : DirEntry} : entryOf v w e = .dir ↔ e.isDir = true := by
  unfold entryOf
  split_ifs with hd <;> simp [hd]

theorem store_eq_dir : store v w p = some .dir ↔ ∃ n, parentDir v w p = some n := by
  unfold store parentDir
  cases walk v w (rootEntry v) p with
  | error _ => simp
  | ok e =>
    simp only [Option.some.injEq, entryOf_eq_dir]
    unfold DirEntry.child
    split_ifs with hd <;> simp [hd]

theorem store_snoc (hdir : parentDir v w ps = some dir) (name : Str) :
    store v w (ps ++ [name]) = (findIn v w dir name).map (entryOf v w) := by
  unfold store
  rw [walk_snoc]
  simp only [hdir]
  cases findIn v w dir name <;> rfl

theorem store_below (h : ∀ n, parentDir v w p = some n → ∀ s, findIn v w n s = none)
    (hq : fold p <+: fold q) (hne : fold q ≠ fold p) : store v w q = none := by
  obtain ⟨err, herr⟩ := walk_below h hq hne
  rw [store, herr]

/-- The read-only calls read the store. -/
theorem fileAt_store (hcomps : ∀ s ∈ p, Component s) (b : Bytes) :
    fileAt v w (render p) = .ok b ↔ store v w p = some (.file b) := by
  rw [fileAt, lookupIn_render hcomps]
  unfold store
  cases walk v w (rootEntry v) p with
  | error _ => simp [bind, Except.bind]
  | ok e =>
    change (if e.isDir then _ else _) = _ ↔
      some (if e.isDir then Entry.dir else .file (content v w e)) = _
    split_ifs <;> simp

theorem dirAt_store (hcomps : ∀ s ∈ p, Component s) :
    dirAt v w (render p) = true ↔ store v w p = some .dir := by
  rw [dirAt_render hcomps, store_eq_dir, Option.isSome_iff_exists]

theorem namesAt_store (hcomps : ∀ s ∈ p, Component s) :
    (∃ names, namesAt v w (render p) = .ok names) ↔ store v w p = some .dir := by
  rw [namesAt, lookupIn_render hcomps]
  unfold store
  cases walk v w (rootEntry v) p with
  | error _ => simp [bind, Except.bind]
  | ok e =>
    simp only [Option.some.injEq, entryOf_eq_dir]
    change (∃ names, (if e.isDir then _ else _) = _) ↔ _
    split_ifs with hd <;> simp [hd]

theorem mem_namesAt_store (hcomps : ∀ s ∈ p, Component s) {names : List Str}
    (h : namesAt v w (render p) = .ok names) (s : Str) :
    s ∈ names ↔ lower s = s ∧ store v w (p ++ [s]) ≠ none := by
  obtain ⟨n, hn⟩ := store_eq_dir.mp ((namesAt_store hcomps).mp ⟨names, h⟩)
  rw [namesAt_dir hcomps hn] at h
  rw [← Except.ok.inj h, mem_names, store_snoc hn s, Option.isSome_iff_ne_none, Ne, Ne,
    Option.map_eq_none_iff]

theorem findIn_none_of_entryAt {n : Nat} (h : ∀ i, entryAt v w n i = none) (s : Str) :
    findIn v w n s = none := by
  by_contra hne
  obtain ⟨e, he⟩ := Option.ne_none_iff_exists'.mp hne
  obtain ⟨i, hi, -⟩ := entryAt_of_findIn he
  rw [h i] at hi
  cases hi

theorem entriesIn_eq_nil : entriesIn v w dir = [] ↔ ∀ s, findIn v w dir s = none := by
  constructor
  · intro h s
    rw [findIn, h]
    rfl
  · intro h
    cases hl : entriesIn v w dir with
    | nil => rfl
    | cons e rest =>
      have hnone := h e.name
      rw [findIn, hl, List.find?_cons_of_pos (by simp)] at hnone
      cases hnone

end Reading

/-! The checks of a call are those of the store. -/

section Checks

variable {v : FatFs} {w : View} {ps : List Str} {name : Str} {dir : Nat} {op : Mutation UInt8}

theorem permitted_iff (hdir : parentDir v w ps = some dir) :
    Permitted v w (findIn v w dir name) op ↔ TreeStore.Fits (store v w) (ps ++ [name]) op := by
  have hstore := store_snoc hdir name
  have hfile : (∀ e, findIn v w dir name = some e → e.isDir = false) ↔
      store v w (ps ++ [name]) ≠ some .dir := by
    rw [hstore]
    cases findIn v w dir name with
    | none => simp
    | some e => simp [entryOf_eq_dir]
  cases op with
  | createFile => exact hfile
  | writeFile _ => exact hfile
  | appendFile _ => exact hfile
  | createDir =>
    change findIn v w dir name = none ↔ store v w (ps ++ [name]) = none
    rw [hstore, Option.map_eq_none_iff]
  | remove =>
    change (∃ e, findIn v w dir name = some e ∧ (e.isDir = true → entriesIn v w e.cluster = [])) ↔
      store v w (ps ++ [name]) ≠ none ∧
        (store v w (ps ++ [name]) = some .dir → ∀ n, store v w (ps ++ [name] ++ [n]) = none)
    rw [hstore]
    cases hf : findIn v w dir name with
    | none => simp
    | some e =>
      simp only [Option.map_some, Option.some.injEq, entryOf_eq_dir, exists_eq_left', Ne,
        reduceCtorEq, not_false_eq_true, true_and]
      refine imp_congr_right fun hd => ?_
      have hchild : parentDir v w (ps ++ [name]) = some e.cluster := by
        rw [parentDir_snoc, hdir, Option.bind_some, hf, Option.bind_some]
        exact DirEntry.child_eq_some.mpr ⟨hd, rfl⟩
      rw [entriesIn_eq_nil]
      simp only [store_snoc hchild, Option.map_eq_none_iff]

theorem ready_iff : Ready v w ps name op ↔ Allowed (store v w) op (ps ++ [name]) := by
  rw [Allowed, List.dropLast_concat, store_eq_dir]
  constructor
  · rintro ⟨dir, hdir, hperm⟩
    exact ⟨by simp, ⟨dir, hdir⟩, (permitted_iff hdir).mp hperm⟩
  · rintro ⟨-, ⟨dir, hdir⟩, hfits⟩
    exact ⟨dir, hdir, (permitted_iff hdir).mpr hfits⟩

theorem Effect.ready {w' : View} (E : Effect v w ps name op (.ok ()) w') :
    Ready v w ps name op := by
  cases E with
  | stored hdir hperm => exact ⟨_, hdir, hperm⟩
  | removed hop hdir hf T _ =>
    refine ⟨_, hdir, ?_⟩
    rw [hop]
    refine ⟨_, hf, fun hd => entriesIn_eq_nil.mpr (findIn_none_of_entryAt (T.empty hd))⟩

theorem Effect.enough_iff {w' : View} {r : Except Fault Unit} (E : Effect v w ps name op r w') :
    Enough v w ps name op ↔ (Ready v w ps name op → r = .ok ()) := by
  cases E with
  | refused hno =>
    exact ⟨fun _ hready => absurd hready hno, fun _ dir hdir _ hperm =>
      absurd ⟨dir, hdir, hperm⟩ hno⟩
  | starved hdir hperm hop hlack =>
    exact ⟨fun henough => absurd (henough _ hdir hop hperm) hlack,
      fun h => by cases h ⟨_, hdir, hperm⟩⟩
  | removed hop => exact ⟨fun _ _ => rfl, fun _ _ _ hne => absurd hop hne⟩
  | stored hdir _ _ hroom =>
    refine ⟨fun _ _ => rfl, fun _ dir' hdir' _ _ => ?_⟩
    obtain rfl := Option.some.inj (hdir.symm.trans hdir')
    exact hroom

/-- With enough clusters a call succeeds exactly when the store allows it. -/
theorem Effect.ok_iff {w' : View} {r : Except Fault Unit} (E : Effect v w ps name op r w')
    (henough : Enough v w ps name op) : r = .ok () ↔ Allowed (store v w) op (ps ++ [name]) := by
  rw [← ready_iff]
  refine ⟨?_, E.enough_iff.mp henough⟩
  rintro rfl
  exact E.ready

theorem Effect.eq_of_disallowed {w' : View} {r : Except Fault Unit} (E : Effect v w ps name op r w')
    (henough : Enough v w ps name op) (hno : ¬ Allowed (store v w) op (ps ++ [name])) : w' = w := by
  have hfail := mt (E.ok_iff henough).mp hno
  cases E with
  | refused _ => rfl
  | starved hdir hperm hop hlack => exact absurd (henough _ hdir hop hperm) hlack
  | removed => exact absurd rfl hfail
  | stored => exact absurd rfl hfail

end Checks

/-! A successful call is the store's mutation. -/

section Mutating

variable {v : FatFs} {w w' : View} {ps q : List Str} {name : Str} {dir : Nat} {op : Mutation UInt8}

theorem Confined.store_eq (S : Sturdy v w) (F : Confined v w w' dir name)
    (hdir : parentDir v w ps = some dir) (hq : ¬ fold (ps ++ [name]) <+: fold q) :
    store v w' q = store v w q := by
  unfold store
  rw [F.walk_eq S hdir hq]
  cases hw : walk v w (rootEntry v) q with
  | error _ => rfl
  | ok e =>
    change some (entryOf v w' e) = some (entryOf v w e)
    unfold entryOf
    split_ifs with hd
    · rfl
    · rw [F.content_of_walk S hdir hq hw (by simpa using hd)]

theorem target_newData {data : Bytes} {old : Option DirEntry} (hperm : Permitted v w old op)
    (h : newData v w old op = some data) :
    target op (old.map (entryOf v w)) = some (.file data) := by
  cases op with
  | createFile => cases h; rfl
  | writeFile _ => cases h; rfl
  | createDir => cases h
  | remove => cases h
  | appendFile new =>
    cases old with
    | none => cases h; rfl
    | some e =>
      cases h
      rw [Option.map_some, entryOf, if_neg (by simp [hperm e rfl])]
      rfl

theorem Permitted.nothing_below (hdir : parentDir v w ps = some dir)
    (hperm : Permitted v w (findIn v w dir name) op) :
    ∀ n, parentDir v w (ps ++ [name]) = some n → ∀ s, findIn v w n s = none := by
  intro n hn
  rw [parentDir_snoc, hdir, Option.bind_some] at hn
  obtain ⟨e, he, hchild⟩ := Option.bind_eq_some_iff.mp hn
  obtain ⟨hd, rfl⟩ := DirEntry.child_eq_some.mp hchild
  rw [he] at hperm
  cases op with
  | remove =>
    obtain ⟨f, hf, hkids⟩ := hperm
    rw [← Option.some.inj hf] at hkids
    exact entriesIn_eq_nil.mp (hkids hd)
  | createDir => cases hperm
  | _ => simp [hperm e rfl] at hd

theorem Effect.store_self (S : Sound v w) (U : UniqueNames v w) (hn : Component name)
    (E : Effect v w ps name op (.ok ()) w') (hkept : op ≠ .remove → Kept name)
    (hlen : ∀ data, target op (store v w (ps ++ [name])) = some (.file data) →
      data.length < 2 ^ 32) :
    store v w' (ps ++ [name]) = target op (store v w (ps ++ [name])) ∧
      ∀ n, parentDir v w' (ps ++ [name]) = some n → ∀ s, findIn v w' n s = none := by
  by_cases hop : op = .remove
  · subst hop
    cases E with
    | stored _ _ hop => exact absurd rfl hop
    | removed _ hdir hf T hw =>
      have hdir' := (T.framed S.toSturdy hf).parentDir_eq S.toSturdy hdir
      have hnone := T.findIn_self S.toSturdy U hf
      refine ⟨by rw [store_snoc hdir', hnone]; rfl, fun n hn => ?_⟩
      rw [parentDir_snoc, hdir', Option.bind_some, hnone] at hn
      cases hn
  · obtain ⟨dir, e, hdir, hdir', hperm, hfind, hisDir, hcontent, hempty⟩ := E.found S U hn hop
    rw [if_pos (hkept hop)] at hfind
    rw [store_snoc hdir] at hlen
    rw [store_snoc hdir', hfind, Option.map_some, store_snoc hdir]
    constructor
    · cases hdata : newData v w (findIn v w dir name) op with
      | none =>
        have hd : op = .createDir := by
          cases op with
          | createDir => rfl
          | remove => exact absurd rfl hop
          | appendFile _ => cases hf : findIn v w dir name <;> simp [hf, newData] at hdata
          | _ => cases hdata
        rw [entryOf, if_pos (hisDir.mpr hd), hd]
        rfl
      | some data =>
        have htarget := target_newData hperm hdata
        have hfile : e.isDir = false := by
          rw [Bool.eq_false_iff, Ne, hisDir]
          rintro rfl
          cases hdata
        rw [htarget, entryOf, if_neg (by simp [hfile]),
          (hcontent data hdata).mpr (hlen data htarget)]
    · intro n hn'
      rw [parentDir_snoc, hdir', Option.bind_some, hfind, Option.bind_some] at hn'
      obtain ⟨hd, rfl⟩ := DirEntry.child_eq_some.mp hn'
      exact findIn_none_of_entryAt (hempty (hkept hop) hd)

/-- A successful call changes the store at its path, in every spelling, and nowhere else. -/
theorem Effect.store_eq (S : Sound v w) (U : UniqueNames v w) (hn : Component name)
    (E : Effect v w ps name op (.ok ()) w') (hkept : op ≠ .remove → Kept name)
    (hlen : ∀ data, target op (store v w (ps ++ [name])) = some (.file data) → data.length < 2 ^ 32)
    (q : List Str) : store v w' q =
      if fold q = fold (ps ++ [name]) then target op (store v w (ps ++ [name]))
      else store v w q := by
  obtain ⟨dir, hdir, hperm⟩ := E.ready
  obtain ⟨hself, hbelow⟩ := E.store_self S U hn hkept hlen
  split_ifs with heq
  · rw [← store_fold, heq, store_fold, hself]
  · by_cases hq : fold (ps ++ [name]) <+: fold q
    · rw [store_below hbelow hq heq, store_below (hperm.nothing_below hdir) hq heq]
    · exact (E.confined S U hn hdir hkept).store_eq S.toSturdy hdir hq

end Mutating

end Willo.Fat
