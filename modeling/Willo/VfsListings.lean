import Willo.KernelFs
import Willo.TmpFsStore

/-! One namespace out of several backends. Each backend kept in memory shows a
tree; the mount table lays the trees over each other, and listing, directory
test and existence of the whole agree at every path. -/

namespace Willo.KernelFs
open Text Paths ByteCodec BlockDevice FaultState MountTable

def answer {α : Type} (x : KernelM α) (k : Kernel) : Except Fault α := (exec x k).1

theorem answer_ofResult_ok {α : Type} {r : Except FsError α} {k : Kernel} {a : α} :
    answer (ofResult r) k = .ok a ↔ r = .ok a := by
  cases r <;> simp [ofResult, answer]

theorem answer_ofResult_error {α : Type} {r : Except FsError α} {k : Kernel} {e : FsError} :
    answer (ofResult r) k = .error (.err e) ↔ r = .error e := by
  cases r <;> simp [ofResult, answer]

theorem answer_pure {α : Type} (a : α) (k : Kernel) : answer (pure a) k = .ok a := rfl

theorem answer_bind_ofResult {α β : Type} {r : Except FsError α} {f : α → KernelM β} {k : Kernel}
    {a : α} (h : r = .ok a) : answer (ofResult r >>= f) k = answer (f a) k := by
  subst h
  exact congrArg Prod.fst (exec_bind_ok (exec_pure a k))

/-! Paths from components. -/

theorem segments_render_plain {segs : List Str} (h : ∀ s ∈ segs, Plain s) :
    segments (render segs) = segs := by
  by_cases hs : segs = []
  · subst hs
    rfl
  · rw [render_eq_join hs, segments_join h]

theorem plain_snoc {segs : List Str} {n : Str} (h : ∀ s ∈ segs, Plain s) (hn : Plain n) :
    ∀ s ∈ segs ++ [n], Plain s := by
  intro s hs
  rcases List.mem_append.mp hs with hs | hs
  · exact h s hs
  · rwa [List.mem_singleton.mp hs]

/-! Backends as trees. -/

/-- `look` is the tree behind a backend: the names in a directory, `none` for a file. -/
structure Shows (b : Backend) (k : Kernel) (look : List Str → Except FsError (Option (List Str))) :
    Prop where
  isDir : ∀ segs, (∀ s ∈ segs, Plain s) →
    (answer (b.isDir (render segs)) k = .ok true ↔ ∃ names, look segs = .ok (some names))
  listDir : ∀ segs names, (∀ s ∈ segs, Plain s) →
    (answer (b.listDir (render segs)) k = .ok names ↔ look segs = .ok (some names))
  missing : ∀ segs, (∀ s ∈ segs, Plain s) →
    (answer (b.readFile (render segs)) k = .error (.err .notFound) ∨
      answer (b.readFile (render segs)) k = .error (.err .notADir) ↔ ∃ e, look segs = .error e)
  root : ∃ names, look [] = .ok (some names)
  nodup : ∀ segs names, look segs = .ok (some names) → names.Nodup
  child : ∀ segs names n, look segs = .ok (some names) →
    ((∃ x, look (segs ++ [n]) = .ok x) ↔ n ∈ names)

theorem tmpWalk_error {node : TmpFs.Node} {segs : List Str} {e : FsError}
    (h : TmpFs.walk node segs = .error e) : e = .notFound ∨ e = .notADir := by
  induction segs generalizing node with
  | nil => simp [TmpFs.walk] at h
  | cons s segs ih =>
    cases node with
    | file b =>
      cases h
      exact Or.inr rfl
    | dir d =>
      simp only [TmpFs.walk] at h
      split at h
      · exact ih h
      · cases h
        exact Or.inl rfl

theorem tmp_root_dir {root : TmpFs.Node} (h : TmpFs.Reachable root) : ∃ d, root = .dir d := by
  induction h with
  | new => exact ⟨[], rfl⟩
  | @apply root h rel op ih =>
    rcases TmpFs.apply_cases (TmpFs.reachable_ordered h) rel op with
      ⟨_, ha⟩ | ⟨parent, name, hs, ⟨e, _, ha⟩ | ⟨b, _, ha⟩ | ⟨d, hw, ha⟩⟩
    · rwa [ha]
    · rwa [ha]
    · rwa [ha]
    · rw [ha]
      obtain ⟨d', rfl⟩ := ih
      cases parent with
      | nil => exact ⟨_, rfl⟩
      | cons s parent =>
        obtain ⟨d'', child, hd, hl, -⟩ := TmpFs.walk_cons_ok hw
        cases hd
        simp only [TmpFs.graft, hl]
        exact ⟨_, rfl⟩

def tmpLook (root : TmpFs.Node) (segs : List Str) : Except FsError (Option (List Str)) :=
  (TmpFs.walk root segs).map fun
    | .dir d => some (OrderedMap.keys d)
    | .file _ => none

theorem tmp_shows {root : TmpFs.Node} (ho : TmpFs.Ordered root) (hd : ∃ d, root = .dir d)
    (k : Kernel) :
    Shows (.tmp root) k (tmpLook root) := by
  refine ⟨fun segs hs => ?_, fun segs names hs => ?_, fun segs hs => ?_, ?_,
    fun segs names hl => ?_,
    fun segs names n hl => ?_⟩
  · rw [Backend.isDir, answer_pure, TmpFs.isDir, segments_render_plain hs, tmpLook]
    rcases TmpFs.walk root segs with e | ⟨b | d⟩ <;> simp [Except.map]
  · rw [Backend.listDir, answer_ofResult_ok, TmpFs.listDir, segments_render_plain hs, tmpLook]
    rcases TmpFs.walk root segs with e | ⟨b | d⟩ <;> simp [Except.map]
  · rw [Backend.readFile, answer_ofResult_error, answer_ofResult_error, TmpFs.readFile,
      segments_render_plain hs, tmpLook]
    cases hw : TmpFs.walk root segs with
    | error e => rcases tmpWalk_error hw with rfl | rfl <;> simp [Except.map]
    | ok node => cases node <;> simp [Except.map]
  · obtain ⟨d, rfl⟩ := hd
    exact ⟨_, rfl⟩
  · cases hw : TmpFs.walk root segs with
    | error e => simp [tmpLook, hw, Except.map] at hl
    | ok node =>
      cases node with
      | file b => simp [tmpLook, hw, Except.map] at hl
      | dir d =>
        simp only [tmpLook, hw, Except.map, Except.ok.injEq, Option.some.injEq] at hl
        exact hl ▸ (TmpFs.walk_ordered ho hw).sorted.nodup
  · cases hw : TmpFs.walk root segs with
    | error e => simp [tmpLook, hw, Except.map] at hl
    | ok node =>
      cases node with
      | file b => simp [tmpLook, hw, Except.map] at hl
      | dir d =>
        simp only [tmpLook, hw, Except.map, Except.ok.injEq, Option.some.injEq] at hl
        rw [← hl, OrderedMap.mem_keys_iff, tmpLook, TmpFs.walk_append, hw]
        cases hk : OrderedMap.lookup n d <;> simp [Except.bind, TmpFs.walk, hk, Except.map]

/-! The seeded tree is an in-memory tree at every tick. -/

mutual

def freeze (ticks : Nat) : RamNode → TmpFs.Node
  | .file b => .file b
  | .special f => .file (f ticks)
  | .dir d => .dir (freezeAll ticks d)

def freezeAll (ticks : Nat) : List (Str × RamNode) → TmpFs.Entries
  | [] => []
  | e :: d => (e.1, freeze ticks e.2) :: freezeAll ticks d

end

section Frozen

variable {ticks : Nat}

theorem lookup_freezeAll (s : Str) (d : List (Str × RamNode)) :
    OrderedMap.lookup s (freezeAll ticks d) = (OrderedMap.lookup s d).map (freeze ticks) := by
  induction d with
  | nil => simp [freezeAll]
  | cons e d ih =>
    rw [freezeAll, OrderedMap.lookup_cons, OrderedMap.lookup_cons, ih]
    split_ifs <;> rfl

theorem keys_freezeAll (d : List (Str × RamNode)) :
    OrderedMap.keys (freezeAll ticks d) = OrderedMap.keys d := by
  induction d with
  | nil => rfl
  | cons e d ih =>
    simp only [OrderedMap.keys, freezeAll, List.map_cons] at ih ⊢
    rw [ih]

theorem walk_freeze (node : RamNode) (segs : List Str) :
    TmpFs.walk (freeze ticks node) segs = (ramWalk node segs).map (freeze ticks) := by
  induction segs generalizing node with
  | nil => rfl
  | cons s segs ih =>
    cases node with
    | file b => simp [freeze, TmpFs.walk, ramWalk, Except.map]
    | special f => simp [freeze, TmpFs.walk, ramWalk, Except.map]
    | dir d =>
      rw [freeze, TmpFs.walk, ramWalk, lookup_freezeAll]
      cases OrderedMap.lookup s d with
      | none => rfl
      | some child => exact ih child

theorem ramReadFile_eq (root : RamNode) (abs : Str) :
    ramReadFile root ticks abs = TmpFs.readFile (freeze ticks root) abs := by
  rw [ramReadFile, TmpFs.readFile, walk_freeze]
  rcases ramWalk root (segments abs) with e | ⟨b | f | d⟩ <;> simp [Except.map, freeze]

theorem ramListDir_eq (root : RamNode) (abs : Str) :
    ramListDir root abs = TmpFs.listDir (freeze ticks root) abs := by
  rw [ramListDir, TmpFs.listDir, walk_freeze]
  rcases ramWalk root (segments abs) with e | ⟨b | f | d⟩ <;>
    simp [Except.map, freeze, keys_freezeAll]

theorem ramIsDir_eq (root : RamNode) (abs : Str) :
    ramIsDir root abs = TmpFs.isDir (freeze ticks root) abs := by
  rw [ramIsDir, TmpFs.isDir, walk_freeze]
  rcases ramWalk root (segments abs) with e | ⟨b | f | d⟩ <;> simp [Except.map, freeze]

theorem freezeAll_insert (s : Str) (node : RamNode) (d : List (Str × RamNode)) :
    freezeAll ticks (OrderedMap.insert s node d) =
      OrderedMap.insert s (freeze ticks node) (freezeAll ticks d) := by
  induction d with
  | nil => simp [OrderedMap.insert, freezeAll]
  | cons e d ih =>
    simp only [OrderedMap.insert, freezeAll]
    split_ifs
    · rfl
    · rfl
    · rw [freezeAll, ih]

theorem ordered_mapOf {entries : List (Str × RamNode)}
    (h : ∀ e ∈ entries, TmpFs.Ordered (freeze ticks e.2)) :
    TmpFs.Ordered (freeze ticks (.dir (mapOf entries))) := by
  suffices hfold : ∀ m, TmpFs.Ordered (.dir (freezeAll ticks m)) →
      TmpFs.Ordered (.dir
        (freezeAll ticks (entries.foldl (fun m e => OrderedMap.insert e.1 e.2 m) m))) from
    hfold [] (.dir List.Pairwise.nil (by simp [freezeAll]))
  induction entries with
  | nil => exact fun m hm => hm
  | cons e entries ih =>
    intro m hm
    refine ih (fun x hx => h x (List.mem_cons_of_mem _ hx)) _ ?_
    rw [freezeAll_insert]
    exact hm.insert _ (h e List.mem_cons_self)

theorem seed_ordered : TmpFs.Ordered (freeze ticks seed) := by
  have hetc : TmpFs.Ordered (freeze ticks (.dir (mapOf
      [(text "version", .file (text "willo 0.9 (M9)\n")),
        (text "motd", .file (text "the kernel that fits in your head\n"))]))) :=
    ordered_mapOf (List.forall_mem_cons.mpr ⟨.file _, List.forall_mem_cons.mpr ⟨.file _, by simp⟩⟩)
  have hproc : TmpFs.Ordered (freeze ticks (.dir (mapOf [(text "uptime", .special uptimeText)]))) :=
    ordered_mapOf (List.forall_mem_cons.mpr ⟨.file _, by simp⟩)
  have hbin : TmpFs.Ordered (freeze ticks (.dir [])) := .dir List.Pairwise.nil (by simp [freezeAll])
  exact ordered_mapOf (List.forall_mem_cons.mpr ⟨.file _, List.forall_mem_cons.mpr ⟨hetc,
    List.forall_mem_cons.mpr ⟨hproc, List.forall_mem_cons.mpr ⟨hbin, by simp⟩⟩⟩⟩)

end Frozen

theorem seed_shows (k : Kernel) : Shows (.ram seed) k (tmpLook (freeze k.ticks seed)) := by
  have hseed : TmpFs.Ordered (freeze k.ticks seed) := seed_ordered
  have h := tmp_shows hseed ⟨_, rfl⟩ k
  refine ⟨?_, ?_, ?_, h.root, h.nodup, h.child⟩
  · simpa only [Backend.isDir, ← ramIsDir_eq] using h.isDir
  · simpa only [Backend.listDir, ← ramListDir_eq] using h.listDir
  · have hread := h.missing
    simp only [Backend.readFile, ← ramReadFile_eq] at hread
    exact hread

/-! Device files. -/

def devNames : List Str := devNodes.map Prod.fst

def devLook : List Str → Except FsError (Option (List Str))
  | [] => .ok (some devNames)
  | [n] => if n ∈ devNames then .ok none else .error .notFound
  | _ => .error .notFound

theorem flatName_root : flatName [slash] = .ok [] := by decide

theorem flatName_single {n : Str} (h : Plain n) : flatName (render [n]) = .ok n := by
  simp [flatName, render, h.2]

theorem flatName_deep {a b : Str} {segs : List Str} :
    flatName (render (a :: b :: segs)) = .error .notFound := by
  simp [flatName, render]

theorem devReadFile_single {n : Str} (h : Plain n) :
    devReadFile (render [n]) = .error .notFound ∨ devReadFile (render [n]) = .error .notADir ↔
    n ∉ devNames := by
  simp only [devReadFile, flatName_single h, devNames, devNodes]
  change (if n = [] then _ else _) = _ ∨ (if n = [] then _ else _) = _ ↔ _
  rw [if_neg h.1]
  split_ifs <;> simp_all

theorem dev_shows (k : Kernel) : Shows .dev k devLook := by
  refine ⟨fun segs hs => ?_, fun segs names hs => ?_, fun segs hs => ?_, ⟨_, rfl⟩,
    fun segs names hl => ?_,
    fun segs names n hl => ?_⟩
  · rw [Backend.isDir, answer_pure, devIsDir]
    match segs with
    | [] => simp [flatName_root, devLook]
    | [n] =>
      rw [flatName_single (hs n (by simp)), devLook]
      have := (hs n (by simp)).1
      cases n with
      | nil => exact absurd rfl this
      | cons b n => split_ifs <;> simp
    | a :: b :: segs => simp [flatName_deep, devLook]
  · rw [Backend.listDir, answer_ofResult_ok, devListDir]
    match segs with
    | [] => simp [flatName_root, devLook, devNames, bind, Except.bind]
    | [n] =>
      rw [flatName_single (hs n (by simp)), devLook]
      have := (hs n (by simp)).1
      split_ifs <;> simp [bind, Except.bind, this]
    | a :: b :: segs => simp [flatName_deep, devLook, bind, Except.bind]
  · rw [Backend.readFile, answer_ofResult_error, answer_ofResult_error]
    match segs with
    | [] => simp [devReadFile, flatName_root, devLook, bind, Except.bind]
    | [n] =>
      rw [devReadFile_single (hs n (by simp)), devLook]
      split_ifs with hn <;> simp [hn]
    | a :: b :: segs => simp [devReadFile, flatName_deep, devLook, bind, Except.bind]
  · match segs with
    | [] =>
      cases hl
      decide +kernel
    | [n] =>
      rw [devLook] at hl
      split_ifs at hl
      cases hl
    | a :: b :: segs => simp [devLook] at hl
  · match segs with
    | [] =>
      cases hl
      rw [List.nil_append, devLook]
      split_ifs with hn <;> simp [hn]
    | [n] =>
      rw [devLook] at hl
      split_ifs at hl
      cases hl
    | a :: b :: segs => simp [devLook] at hl

inductive InMemory : Backend → Prop where
  | tmp {root : TmpFs.Node} (h : TmpFs.Reachable root) : InMemory (.tmp root)
  | ram : InMemory (.ram seed)
  | dev : InMemory .dev

theorem InMemory.shows {b : Backend} (h : InMemory b) (k : Kernel) : ∃ look, Shows b k look := by
  cases h with
  | tmp h => exact ⟨_, tmp_shows (TmpFs.reachable_ordered h) (tmp_root_dir h) k⟩
  | ram => exact ⟨_, seed_shows k⟩
  | dev => exact ⟨_, dev_shows k⟩

/-! Mount points along a path. -/

section Table

variable {F : Type} {as bs : List Str}

theorem render_ne_root {segs : List Str} (h : ∀ s ∈ segs, Plain s) (hs : segs ≠ []) :
    render segs ≠ [slash] := by
  intro heq
  rw [← segments_render_plain h, heq] at hs
  exact hs rfl

theorem canonicalPrefix_render {segs : List Str} (h : ∀ s ∈ segs, Plain s) :
    canonicalPrefix (render segs) = join segs := by
  rcases List.eq_nil_or_concat' segs with rfl | ⟨init, s, rfl⟩
  · rfl
  · have hs := h s (by simp)
    have hlast : (join (init ++ [s])).getLast? ≠ some slash := by
      rw [join_append, join_cons, join_nil, List.append_nil,
        List.getLast?_append_of_ne_nil _ (by simp), List.getLast?_cons]
      intro heq
      obtain ⟨b, hb⟩ := Option.ne_none_iff_exists'.mp (mt List.getLast?_eq_none_iff.mp hs.1)
      rw [hb] at heq
      cases heq
      exact hs.2 (List.mem_of_getLast? hb)
    rw [canonicalPrefix, if_neg (render_ne_root h (by simp)), render_eq_join (by simp),
      trimEnd_eq_self hlast]

theorem join_injective (ha : ∀ s ∈ as, Plain s) (hb : ∀ s ∈ bs, Plain s)
    (h : join as = join bs) : as = bs := by
  rw [← segments_join ha, h, segments_join hb]

theorem matches_render_iff (ha : ∀ s ∈ as, Plain s) (hb : ∀ s ∈ bs, Plain s) :
    Matches (join as) (render bs) ↔ as <+: bs := by
  by_cases hnil : bs = []
  · subst hnil
    rw [List.prefix_nil]
    constructor
    · intro h
      have hlen := (matches_initial h).length_le
      cases as with
      | nil => rfl
      | cons s as =>
        have := (ha s (by simp)).1
        cases s with
        | nil => exact absurd rfl this
        | cons b s => simp at hlen
    · rintro rfl
      exact Or.inl rfl
  · rw [render_eq_join hnil]
    constructor
    · rintro (h | h | ⟨⟨t, ht⟩, hne, hat⟩)
      · rw [join_injective ha (by simp) (h.trans join_nil.symm)]
        exact List.nil_prefix
      · rw [join_injective ha hb h]
      · rw [← ht, List.getElem?_append_right (Nat.le_refl _), Nat.sub_self] at hat
        obtain ⟨rest, rfl⟩ : ∃ rest, t = slash :: rest := by
          cases t with
          | nil => simp at hat
          | cons c t => exact ⟨t, by simpa using hat⟩
        obtain ⟨left, right, rfl, hleft, -⟩ := join_split hb ht.symm
        rw [join_injective ha (fun s hs => hb s (List.mem_append_left _ hs)) hleft]
        exact List.prefix_append _ _
    · rintro ⟨cs, rfl⟩
      cases cs with
      | nil => exact Or.inr (Or.inl (by rw [List.append_nil]))
      | cons c cs =>
        refine Or.inr (Or.inr ⟨⟨join (c :: cs), (join_append _ _).symm⟩, fun heq => ?_, ?_⟩)
        · simp [join_append] at heq
        · rw [join_append, List.getElem?_append_right (Nat.le_refl _), Nat.sub_self]
          rfl

theorem relative_render {m : Mount F} {cs : List Str} (hm : m.pfx = join as) :
    relative m (render (as ++ cs)) = render cs := by
  cases as with
  | nil =>
    rw [join_nil] at hm
    rw [relative, if_pos hm]
    rfl
  | cons s as =>
    have hne : m.pfx ≠ [] := by simp [hm]
    rw [relative, if_neg hne, render_eq_join (by simp), join_append, hm]
    simp only [List.drop_left]
    cases cs with
    | nil => rfl
    | cons c cs => rfl

theorem bestMount_eq_of_matches {v : Vfs F} {p q : Str}
    (h : ∀ m ∈ v.mounts, Matches m.pfx p ↔ Matches m.pfx q) : bestMount v p = bestMount v q := by
  have hscan : ∀ (ms : List (Mount F)) best, (∀ m ∈ ms, Matches m.pfx p ↔ Matches m.pfx q) →
      ms.foldl (scan p) best = ms.foldl (scan q) best := by
    intro ms
    induction ms with
    | nil => exact fun _ _ => rfl
    | cons m ms ih =>
      intro best hms
      have hone : scan p best m = scan q best m := by
        by_cases root : m.pfx = []
        · simp [scan, root]
        · have hcov : covers m.pfx p = covers m.pfx q := by
            rw [Bool.eq_iff_iff, covers_iff root, covers_iff root]
            exact hms m (by simp)
          simp only [scan, hcov]
      rw [List.foldl_cons, List.foldl_cons, hone]
      exact ih _ fun m' hm' => hms m' (by simp [hm'])
  exact hscan v.mounts none h

/-- Every prefix is stored as the components of a normalized path. -/
structure PathTable (v : Vfs F) : Prop where
  ok : TableOk v
  paths : ∀ m ∈ v.mounts, ∃ segs, (∀ s ∈ segs, Component s) ∧ m.pfx = join segs

theorem directChild_iff {parent child n : Str} :
    directChild parent child = some n ↔ child = parent ++ slash :: n ∧ Plain n := by
  have hstrip : ∀ {pre s t : Str}, stripPrefix pre s = some t ↔ s = pre ++ t := by
    intro pre s t
    simp only [stripPrefix, List.isPrefixOf_iff_prefix]
    split_ifs with h
    · obtain ⟨u, rfl⟩ := h
      simp
    · refine ⟨fun hnone => absurd hnone (by simp), ?_⟩
      rintro rfl
      exact absurd (List.prefix_append _ _) h
  have hrest : ∀ {t : Str}, belowParent parent child = some t ↔ child = parent ++ slash :: t := by
    intro t
    unfold belowParent
    split_ifs with h
    · subst h
      simp [hstrip]
    · simp [Option.bind_eq_some_iff, hstrip]
  unfold directChild
  split_ifs with hc
  · simp [hc]
  · change (belowParent parent child).bind _ = _ ↔ _
    rw [Option.bind_eq_some_iff]
    simp only [hrest]
    constructor
    · rintro ⟨t, rfl, ht⟩
      split_ifs at ht with hbad
      cases ht
      exact ⟨rfl, not_or.mp hbad⟩
    · rintro ⟨rfl, hn⟩
      exact ⟨n, rfl, if_neg (not_or.mpr hn)⟩

theorem foldl_addChild (parent : Str) (ms : List (Mount F)) (entries : List Str) :
    (∀ n, n ∈ ms.foldl (addChild parent) entries ↔
      n ∈ entries ∨ ∃ m ∈ ms, directChild parent m.pfx = some n) ∧
    (entries.Nodup → (ms.foldl (addChild parent) entries).Nodup) := by
  induction ms generalizing entries with
  | nil => simp
  | cons m ms ih =>
    rw [List.foldl_cons]
    obtain ⟨hmem, hnd⟩ := ih (addChild parent entries m)
    have hone : (∀ n, n ∈ addChild parent entries m ↔ n ∈ entries ∨
      directChild parent m.pfx = some n) ∧
        (entries.Nodup → (addChild parent entries m).Nodup) := by
      unfold addChild
      cases hd : directChild parent m.pfx with
      | none => simp
      | some child =>
        dsimp only
        split_ifs with hin
        · refine ⟨fun n => ⟨Or.inl, ?_⟩, id⟩
          rintro (h | h)
          · exact h
          · cases h
            exact hin
        · refine ⟨fun n => by simp [eq_comm], fun h => ?_⟩
          rw [List.nodup_append]
          exact ⟨h, by simp, by rintro a ha b hb rfl; exact hin (List.mem_singleton.mp hb ▸ ha)⟩
    refine ⟨fun n => ?_, fun h => hnd (hone.2 h)⟩
    rw [hmem, hone.1]
    simp [or_assoc]

theorem mount_paths {v : Vfs F} (h : PathTable v) {pfx : Str} (hp : Canonical pfx) (fs : F) :
    PathTable (mount v pfx fs).2 := by
  refine ⟨mount_tableOk h.ok pfx fs, fun m hm => ?_⟩
  unfold mount at hm
  dsimp only at hm
  split_ifs at hm
  · exact h.paths m hm
  · exact h.paths m hm
  · exact h.paths m hm
  · rcases List.mem_append.mp hm with hm | hm
    · exact h.paths m hm
    · obtain ⟨segs, hsegs, rfl⟩ := hp
      rw [List.mem_singleton.mp hm]
      exact ⟨segs, hsegs, canonicalPrefix_render fun s hs => (hsegs s hs).1⟩

theorem mem_of_mem_unmount {v : Vfs F} {pfx : Str} {m : Mount F}
    (h : m ∈ (unmount v pfx).2.mounts) :
    m ∈ v.mounts := by
  unfold unmount at h
  dsimp only at h
  split at h
  · exact h
  · exact (List.eraseIdx_sublist _ _).subset h

theorem mem_of_mem_mount {v : Vfs F} {pfx : Str} {fs : F} {m : Mount F}
    (h : m ∈ (mount v pfx fs).2.mounts) : m ∈ v.mounts ∨ m.fs = fs := by
  unfold mount at h
  dsimp only at h
  split_ifs at h
  · exact Or.inl h
  · exact Or.inl h
  · exact Or.inl h
  · rcases List.mem_append.mp h with h | h
    · exact Or.inl h
    · exact Or.inr (by rw [List.mem_singleton.mp h])

end Table

/-- Every table of in-memory backends that mounting and unmounting at normalized paths
can build. -/
inductive Built : Vfs Backend → Prop where
  | new : Built new
  | mount {v : Vfs Backend} (h : Built v) {pfx : Str} (hp : Canonical pfx) {fs : Backend}
    (hfs : InMemory fs) :
      Built (mount v pfx fs).2
  | unmount {v : Vfs Backend} (h : Built v) {pfx : Str} (hp : Canonical pfx) :
    Built (unmount v pfx).2

theorem Built.table {v : Vfs Backend} (h : Built v) :
    PathTable v ∧ ∀ m ∈ v.mounts, InMemory m.fs := by
  induction h with
  | new => exact ⟨⟨reachable_tableOk .new, by simp [MountTable.new]⟩, by simp [MountTable.new]⟩
  | mount h hp hfs ih =>
    refine ⟨mount_paths ih.1 hp _, fun m hm => ?_⟩
    rcases mem_of_mem_mount hm with hm | hm
    · exact ih.2 m hm
    · rwa [hm]
  | unmount h hp ih =>
    exact ⟨⟨unmount_tableOk ih.1.ok _, fun m hm => ih.1.paths m (mem_of_mem_unmount hm)⟩,
      fun m hm => ih.2 m (mem_of_mem_unmount hm)⟩

def childPath (p n : Str) : Str := if p = [slash] then slash :: n else p ++ slash :: n

/-- Something is there: a directory, or a file whose reading fails, if it does, for a
reason of its own. -/
def IsThere (v : Vfs Backend) (k : Kernel) (p : Str) : Prop :=
  answer (isDir v p) k = .ok true ∨
    (answer (readFile v p) k ≠ .error (.err .notFound) ∧
      answer (readFile v p) k ≠ .error (.err .notADir))

section Listings

variable {v : Vfs Backend} {k : Kernel}

theorem childPath_render {segs : List Str} {n : Str} (h : ∀ s ∈ segs, Plain s) :
    childPath (render segs) n = render (segs ++ [n]) := by
  rw [render_eq_join (by simp : segs ++ [n] ≠ []), join_append, childPath]
  by_cases hs : segs = []
  · subst hs
    simp
  · rw [if_neg (render_ne_root h hs), render_eq_join hs]
    simp

theorem resolve_none {p : Str} (hb : bestMount v p = none) : resolve v p = .error .notFound := by
  unfold resolve resolveMount
  split_ifs
  · rfl
  · rw [hb]
    rfl

theorem resolve_some {segs cs : List Str} {m : Mount Backend}
    (hb : bestMount v (render segs) = some m) (hm : ∃ as, m.pfx = join as ∧ segs = as ++ cs) :
    resolve v (render segs) = .ok (m.fs, render cs) := by
  obtain ⟨as, has, rfl⟩ := hm
  unfold resolve resolveMount
  rw [if_neg (by simp [render_head]), hb]
  simp [Except.map, relative_render has]

theorem bestMount_cases (T : PathTable v) {segs : List Str} (hs : ∀ s ∈ segs, Plain s) :
    bestMount v (render segs) = none ∧ (∀ m ∈ v.mounts, m.pfx ≠ join segs) ∨
      ∃ m ∈ v.mounts, ∃ as cs, bestMount v (render segs) = some m ∧ m.pfx = join as ∧
        segs = as ++ cs ∧
        (cs ≠ [] → ∀ m ∈ v.mounts, m.pfx ≠ join segs) := by
  have hbest := bestMount_best v (render segs)
  have hwhole : Matches (join segs) (render segs) := (matches_render_iff hs hs).mpr List.prefix_rfl
  cases hb : bestMount v (render segs) with
  | none =>
    rw [hb] at hbest
    exact Or.inl ⟨rfl, fun m hm heq => hbest m hm (heq ▸ hwhole)⟩
  | some m =>
    rw [hb] at hbest
    obtain ⟨as, has, hpfx⟩ := T.paths m hbest.1
    have hplain : ∀ s ∈ as, Plain s := fun s h => (has s h).1
    obtain ⟨cs, rfl⟩ := (matches_render_iff hplain hs).mp (hpfx ▸ hbest.2.1)
    refine Or.inr ⟨m, hbest.1, as, cs, rfl, hpfx, rfl, fun hne m' hm' heq => ?_⟩
    -- a mount at the whole path would be longer
    have hlen := hbest.2.2 m' hm' (heq ▸ hwhole)
    rw [heq, hpfx, join_append, List.length_append] at hlen
    obtain ⟨c, rest, rfl⟩ := List.exists_cons_of_ne_nil hne
    rw [join_cons, List.length_cons] at hlen
    omega

theorem bestMount_child (T : PathTable v) {segs : List Str} {n : Str} (hs : ∀ s ∈ segs, Plain s)
    (hn : Plain n) (hno : ∀ m ∈ v.mounts, m.pfx ≠ join (segs ++ [n])) :
    bestMount v (render (segs ++ [n])) = bestMount v (render segs) := by
  refine bestMount_eq_of_matches fun m hm => ?_
  obtain ⟨as, has, hpfx⟩ := T.paths m hm
  have hplain : ∀ s ∈ as, Plain s := fun s h => (has s h).1
  rw [hpfx, matches_render_iff hplain hs, matches_render_iff hplain (plain_snoc hs hn)]
  refine ⟨fun h => ?_, fun h => h.trans (List.prefix_append _ _)⟩
  rcases List.prefix_concat_iff.mp h with heq | h
  · exact absurd (hpfx.trans (by rw [heq])) (hno m hm)
  · exact h

theorem answer_isDir {p : Str} {fs : Backend} {rel : Str} (hres : resolve v p = .ok (fs, rel))
    (hno : ∀ m ∈ v.mounts, m.pfx ≠ canonicalPrefix p) :
    answer (isDir v p) k = answer (fs.isDir rel) k := by
  have hany : ¬(v.mounts.any (·.pfx == canonicalPrefix p)) = true := by simpa using hno
  rw [isDir, if_neg hany, hres]

theorem answer_readFile {p : Str} {fs : Backend} {rel : Str} (hres : resolve v p = .ok (fs, rel)) :
    answer (readFile v p) k = answer (fs.readFile rel) k :=
  answer_bind_ofResult hres

theorem answer_listDir {p : Str} {fs : Backend} {rel : Str} {names : List Str}
    (hres : resolve v p = .ok (fs, rel)) :
    answer (listDir v p) k = .ok names ↔ ∃ entries, answer (fs.listDir rel) k = .ok entries ∧
      names = v.mounts.foldl (addChild (canonicalPrefix p)) entries := by
  rw [listDir, answer_bind_ofResult hres]
  simp only [answer, exec_bind]
  rcases exec (fs.listDir rel) k with ⟨e | entries, k'⟩
  · simp
  · simp [eq_comm]

theorem answer_isDir_mount {m : Mount Backend} {p : Str} (hm : m ∈ v.mounts)
    (hp : m.pfx = canonicalPrefix p) : answer (isDir v p) k = .ok true := by
  have hany : (v.mounts.any (·.pfx == canonicalPrefix p)) = true :=
    List.any_eq_true.mpr ⟨m, hm, beq_iff_eq.mpr hp⟩
  rw [isDir, if_pos hany]
  rfl

theorem isThere_iff {fs : Backend} {segs : List Str} {p : Str}
    {look : List Str → Except FsError (Option (List Str))}
    (S : Shows fs k look) (hs : ∀ s ∈ segs, Plain s) (hres : resolve v p = .ok (fs, render segs))
    (hno : ∀ m ∈ v.mounts, m.pfx ≠ canonicalPrefix p) : IsThere v k p ↔ ∃ x, look segs = .ok x := by
  rw [IsThere, answer_isDir hres hno, answer_readFile hres, S.isDir segs hs, ← not_or,
    S.missing segs hs]
  cases look segs with
  | error e => simp
  | ok x => simp

end Listings

/-- Listing, directory test and existence agree at every normalized path. -/
theorem listings_agree {v : Vfs Backend} (hv : Built v) (k : Kernel) {p : Str} (hp : Canonical p) :
    (answer (isDir v p) k = .ok true ↔ ∃ names, answer (listDir v p) k = .ok names) ∧
    ∀ names, answer (listDir v p) k = .ok names →
      names.Nodup ∧ ∀ n, Plain n → (n ∈ names ↔ IsThere v k (childPath p n)) := by
  obtain ⟨T, hmem⟩ := hv.table
  obtain ⟨segs, hsegs, rfl⟩ := hp
  have hplain : ∀ s ∈ segs, Plain s := fun s hs => (hsegs s hs).1
  have hcanon := canonicalPrefix_render hplain
  rcases bestMount_cases T hplain with ⟨hb, hno⟩ | ⟨m, hm, as, cs, hb, hpfx, hsplit, hno⟩
  · -- no mount covers the path
    have hres := resolve_none hb
    have hlist : ∀ names, answer (listDir v (render segs)) k ≠ .ok names := by
      intro names
      simp [listDir, hres, answer, ofResult]
    refine ⟨⟨fun h => ?_, fun ⟨names, h⟩ => absurd h (hlist names)⟩, fun names h =>
      absurd h (hlist names)⟩
    have hany : ¬(v.mounts.any (·.pfx == canonicalPrefix (render segs))) = true := by
      simpa [hcanon] using hno
    rw [isDir, if_neg hany, hres] at h
    simp [answer] at h
  · have hcs : ∀ s ∈ cs, Plain s := fun s hs => hplain s (hsplit ▸ List.mem_append_right _ hs)
    have hres := resolve_some hb ⟨as, hpfx, hsplit⟩
    obtain ⟨look, S⟩ := (hmem m hm).shows k
    have hlist : (∃ names, answer (listDir v (render segs)) k = .ok names) ↔
      ∃ names, look cs = .ok (some names) := by
      simp only [answer_listDir hres, S.listDir cs _ hcs]
      constructor
      · rintro ⟨names, entries, h, -⟩
        exact ⟨entries, h⟩
      · rintro ⟨entries, h⟩
        exact ⟨_, entries, h, rfl⟩
    refine ⟨?_, fun names hnames => ?_⟩
    · rw [hlist]
      by_cases hroot : cs = []
      · subst hroot
        have hwhole : m.pfx = canonicalPrefix (render segs) := by
          rw [hcanon, hpfx, hsplit, List.append_nil]
        exact ⟨fun _ => S.root, fun _ => answer_isDir_mount hm hwhole⟩
      · rw [answer_isDir hres (by rw [hcanon]; exact hno hroot), S.isDir cs hcs]
    · obtain ⟨entries, hentries, rfl⟩ := (answer_listDir hres).mp hnames
      rw [S.listDir cs _ hcs] at hentries
      obtain ⟨hmemIff, hnodup⟩ := foldl_addChild (canonicalPrefix (render segs)) v.mounts entries
      refine ⟨hnodup (S.nodup cs entries hentries), fun n hn => ?_⟩
      rw [hmemIff, childPath_render hplain, hcanon]
      have hchild : ∀ m : Mount Backend, directChild (join segs) m.pfx = some n ↔
        m.pfx = join (segs ++ [n]) := by
        intro m
        rw [directChild_iff, join_append]
        simp [hn]
      simp only [hchild]
      have hcanon' := canonicalPrefix_render (plain_snoc hplain hn)
      by_cases hat : ∃ m ∈ v.mounts, m.pfx = join (segs ++ [n])
      · obtain ⟨m', hm', heq⟩ := hat
        exact ⟨fun _ => Or.inl (answer_isDir_mount hm' (heq.trans hcanon'.symm)),
          fun _ => Or.inr ⟨m', hm', heq⟩⟩
      · -- no mount at the child: the same backend answers for it
        have hnone : ∀ m ∈ v.mounts, m.pfx ≠ join (segs ++ [n]) :=
          fun m' hm' heq => hat ⟨m', hm', heq⟩
        have hb' := (bestMount_child T hplain hn hnone).trans hb
        have hres' := resolve_some hb' ⟨as, hpfx, show segs ++ [n] = as ++ (cs ++ [n]) by
          rw [hsplit, List.append_assoc]⟩
        rw [isThere_iff S (plain_snoc hcs hn) hres' (by rw [hcanon']; exact hnone),
          S.child cs entries n hentries]
        exact or_iff_left hat

/-- The seeded tree at `/`, and the device files over its `etc`. -/
def devOverEtc : Vfs Backend := (mount (mount new (text "/") (.ram seed)).2 (text "/etc") .dev).2

theorem canonical_root : Canonical (text "/") := ⟨[], by simp, by decide +kernel⟩

theorem devOverEtc_built : Built devOverEtc := by
  have hetc : Canonical (text "/etc") := ⟨[text "etc"], by decide +kernel, by decide +kernel⟩
  exact .mount (.mount .new canonical_root .ram) hetc .dev

def quietKernel : Kernel := ⟨⟨0, fun _ => ⟨List.replicate blockSize 0, by simp⟩⟩, 0, [], none⟩

theorem listings_agree_devOverEtc :
    ∃ names, answer (listDir devOverEtc (text "/")) quietKernel = .ok names ∧ names.Nodup ∧
      text "etc" ∈ names ∧ IsThere devOverEtc quietKernel (text "/etc") := by
  have hlist : answer (listDir devOverEtc (text "/")) quietKernel =
      .ok [text "bin", text "etc", text "proc", text "welcome.txt"] := by decide +kernel
  have hagree := (listings_agree devOverEtc_built quietKernel canonical_root).2 _ hlist
  have hetc : text "etc" ∈ [text "bin", text "etc", text "proc", text "welcome.txt"] := by simp
  have hpath : childPath (text "/") (text "etc") = text "/etc" := by decide +kernel
  exact ⟨_, hlist, hagree.1, hetc, hpath ▸ (hagree.2 _ (by decide +kernel)).mp hetc⟩

end Willo.KernelFs
