import Willo.TmpFs

/-! `TmpFs` implements the tree store. A mutation replaces the map of one
directory; grafting that map back leaves every observation outside the changed
path as it was. The same graft gives the refinement to `TreeStore`. -/

namespace Willo.TmpFs
open Text Paths TreeStore

/-- Put `fresh` in place of the node at a path that exists. -/
def graft (node fresh : Node) : List Str → Node
  | [] => fresh
  | s :: segs =>
    match node with
    | .dir d =>
      match OrderedMap.lookup s d with
      | some child => .dir (OrderedMap.put s (graft child fresh segs) d)
      | none => node
    | .file _ => node

attribute [local simp] walk walkMut graft

theorem walk_cons_ok {node target : Node} {s : Str} {segs : List Str}
    (h : walk node (s :: segs) = .ok target) :
    ∃ d child, node = .dir d ∧ OrderedMap.lookup s d = some child ∧
      walk child segs = .ok target := by
  cases node with
  | file b => simp at h
  | dir d =>
    cases hl : OrderedMap.lookup s d with
    | none => simp [hl] at h
    | some child =>
      simp only [walk, hl] at h
      exact ⟨d, child, rfl, hl, h⟩

theorem walkMut_ok {node target : Node} {segs : List Str} (h : walk node segs = .ok target)
    (k : Node → Except FsError Unit × Node) :
    walkMut node k segs = ((k target).1, graft node (k target).2 segs) := by
  induction segs generalizing node with
  | nil =>
    simp only [walk, Except.ok.injEq] at h
    rw [h]
    rfl
  | cons s segs ih =>
    obtain ⟨d, child, rfl, hl, hw⟩ := walk_cons_ok h
    simp only [walkMut, hl, graft, ih hw]

theorem walkMut_error {node : Node} {segs : List Str} {e : FsError} (hn : Ordered node)
    (h : walk node segs = .error e) (k : Node → Except FsError Unit × Node) :
    walkMut node k segs = (.error e, node) := by
  induction segs generalizing node with
  | nil => simp at h
  | cons s segs ih =>
    cases node with
    | file b =>
      simp only [walk, Except.error.injEq] at h
      simp [h]
    | dir d =>
      cases hl : OrderedMap.lookup s d with
      | none =>
        simp only [walk, hl, Except.error.injEq] at h
        simp [hl, h]
      | some child =>
        simp only [walk, hl] at h
        simp only [walkMut, hl, ih (hn.lookup hl) h, OrderedMap.put_eq_self hn.sorted hl]

theorem walk_ordered {node target : Node} {segs : List Str} (hn : Ordered node)
    (h : walk node segs = .ok target) : Ordered target := by
  induction segs generalizing node with
  | nil =>
    simp only [walk, Except.ok.injEq] at h
    exact h ▸ hn
  | cons s segs ih =>
    obtain ⟨d, child, rfl, hl, hw⟩ := walk_cons_ok h
    exact ih (hn.lookup hl) hw

theorem graft_self {node target : Node} {segs : List Str} (hn : Ordered node)
    (h : walk node segs = .ok target) : graft node target segs = node := by
  induction segs generalizing node with
  | nil =>
    simp only [walk, Except.ok.injEq] at h
    exact h.symm
  | cons s segs ih =>
    obtain ⟨d, child, rfl, hl, hw⟩ := walk_cons_ok h
    simp only [graft, hl, ih (hn.lookup hl) hw, OrderedMap.put_eq_self hn.sorted hl]

theorem graft_ordered {node target fresh : Node} {segs : List Str} (hn : Ordered node)
    (h : walk node segs = .ok target) (hf : Ordered fresh) : Ordered (graft node fresh segs) := by
  induction segs generalizing node with
  | nil => exact hf
  | cons s segs ih =>
    obtain ⟨d, child, rfl, hl, hw⟩ := walk_cons_ok h
    simp only [graft, hl]
    exact hn.put s (ih (hn.lookup hl) hw)

theorem walk_append (node : Node) (as bs : List Str) :
    walk node (as ++ bs) = (walk node as).bind fun m => walk m bs := by
  induction as generalizing node with
  | nil => rfl
  | cons s as ih =>
    cases node with
    | file b => rfl
    | dir d =>
      cases hl : OrderedMap.lookup s d with
      | none => simp [hl, Except.bind]
      | some child => simp [hl, ih]

theorem walk_graft {node target : Node} (fresh : Node) {segs : List Str}
    (h : walk node segs = .ok target) : walk (graft node fresh segs) segs = .ok fresh := by
  induction segs generalizing node with
  | nil => rfl
  | cons s segs ih =>
    obtain ⟨d, child, rfl, hl, hw⟩ := walk_cons_ok h
    simp only [graft, hl, walk, OrderedMap.lookup_put, if_true, Option.map_some]
    exact ih hw

/-- What the three readers can see of a node. -/
inductive Shape where
  | file (data : List UInt8)
  | dir (names : List Str)

def shape : Node → Shape
  | .file b => .file b
  | .dir d => .dir (OrderedMap.keys d)

def observe (root : Node) (segs : List Str) : Except FsError Shape := (walk root segs).map shape

theorem observe_cons (d : Entries) (s : Str) (segs : List Str) :
    observe (.dir d) (s :: segs) =
      match OrderedMap.lookup s d with
      | some child => observe child segs
      | none => .error .notFound := by
  unfold observe
  cases h : OrderedMap.lookup s d <;> simp [h, Except.map]

theorem observe_graft {node : Node} {d d' : Entries} {name : Str} {segs : List Str}
    (h : walk node segs = .ok (.dir d))
    (same : ∀ n, n ≠ name → OrderedMap.lookup n d' = OrderedMap.lookup n d)
    {q : List Str} (hq : ¬ segs ++ [name] <+: q) (hp : q ≠ segs) :
    observe (graft node (.dir d') segs) q = observe node q := by
  induction segs generalizing node q with
  | nil =>
    simp only [walk, Except.ok.injEq] at h
    subst h
    cases q with
    | nil => exact absurd rfl hp
    | cons s q =>
      have hs : s ≠ name := by
        rintro rfl
        exact hq ⟨q, rfl⟩
      rw [graft, observe_cons, observe_cons, same s hs]
  | cons s segs ih =>
    obtain ⟨d₀, child, rfl, hl, hw⟩ := walk_cons_ok h
    simp only [graft, hl]
    cases q with
    | nil => simp [observe, shape, Except.map]
    | cons t q =>
      rw [observe_cons, observe_cons, OrderedMap.lookup_put]
      by_cases ht : t = s
      · subst ht
        rw [if_pos rfl, hl, Option.map_some]
        refine ih hw (fun hpre => hq ?_) (fun heq => hp (by rw [heq]))
        simpa using hpre
      · rw [if_neg ht]

theorem readFile_eq_observe (root : Node) (rel : Str) :
    readFile root rel =
      match observe root (segments rel) with
      | .ok (.file b) => .ok b
      | .ok (.dir _) => .error .isADir
      | .error e => .error e := by
  unfold readFile observe
  rcases walk root (segments rel) with e | ⟨b⟩ | ⟨d⟩ <;> rfl

theorem listDir_eq_observe (root : Node) (rel : Str) :
    listDir root rel =
      match observe root (segments rel) with
      | .ok (.dir names) => .ok names
      | .ok (.file _) => .error .notADir
      | .error e => .error e := by
  unfold listDir observe
  rcases walk root (segments rel) with e | ⟨b⟩ | ⟨d⟩ <;> rfl

theorem isDir_eq_observe (root : Node) (rel : Str) :
    isDir root rel =
      match observe root (segments rel) with
      | .ok (.dir _) => true
      | _ => false := by
  unfold isDir observe
  rcases walk root (segments rel) with e | ⟨b⟩ | ⟨d⟩ <;> rfl

def targetNode : Mutation UInt8 → Option Node → Option Node
  | .createFile, _ => some (.file [])
  | .writeFile data, _ => some (.file data)
  | .appendFile data, some (.file old) => some (.file (old ++ data))
  | .appendFile data, _ => some (.file data)
  | .createDir, _ => some (.dir [])
  | .remove, _ => none

theorem body_error {op : Mutation UInt8} {name : Str} {d d' : Entries} {e : FsError}
    (h : body op name d = (.error e, d')) : d' = d := by
  cases op <;> simp only [body, placeFile, extendFile, placeDir, removeEntry] at h <;>
    split at h <;> simp_all

theorem body_ok {op : Mutation UInt8} {name : Str} {d d' : Entries}
    (h : body op name d = (.ok (), d')) (n : Str) :
    OrderedMap.lookup n d' =
      if n = name then targetNode op (OrderedMap.lookup name d) else OrderedMap.lookup n d := by
  cases op with
  | createFile | writeFile | createDir =>
    simp only [body, placeFile, placeDir] at h
    split at h
    · simp at h
    · simp only [Prod.mk.injEq, true_and] at h
      rw [← h, OrderedMap.lookup_insert]
      rfl
  | appendFile data =>
    simp only [body, extendFile] at h
    split at h
    · next b hb =>
      simp only [Prod.mk.injEq, true_and] at h
      rw [← h, OrderedMap.lookup_put, hb]
      rfl
    · simp at h
    · next hb =>
      simp only [Prod.mk.injEq, true_and] at h
      rw [← h, OrderedMap.lookup_insert, hb]
      rfl
  | remove =>
    simp only [body, removeEntry] at h
    split at h
    · simp at h
    · simp at h
    · simp only [Prod.mk.injEq, true_and] at h
      rw [← h, OrderedMap.lookup_remove]
      rfl

theorem body_ordered (op : Mutation UInt8) (name : Str) {d : Entries} (h : Ordered (.dir d)) :
    Ordered (.dir (body op name d).2) := by
  cases op with
  | createFile | writeFile =>
    simp only [body, placeFile]
    split
    · exact h
    · exact h.insert name (.file _)
  | appendFile data =>
    simp only [body, extendFile]
    split
    · exact h.put name (.file _)
    · exact h
    · exact h.insert name (.file _)
  | createDir =>
    simp only [body, placeDir]
    split
    · exact h
    · exact h.insert name (.dir List.Pairwise.nil (by simp))
  | remove =>
    simp only [body, removeEntry]
    split
    · exact h
    · exact h
    · exact h.remove name

theorem remove_dir_empty {name : Str} {d d' children : Entries}
    (h : body .remove name d = (.ok (), d'))
    (hc : OrderedMap.lookup name d = some (.dir children)) : children = [] := by
  simp only [body, removeEntry, hc] at h
  cases children with
  | nil => rfl
  | cons e es => simp at h

theorem splitParent_nil {rel : Str} (h : segments rel = []) : splitParent rel = none := by
  simp [splitParent, h]

theorem splitParent_append {rel : Str} {parent : List Str} {name : Str}
    (h : segments rel = parent ++ [name]) : splitParent rel = some (parent, name) := by
  simp [splitParent, h]

/-- Everything a mutation can do: fail before it touches the tree, or run its body
on the map of the parent directory. -/
theorem apply_cases {root : Node} (hn : Ordered root) (rel : Str) (op : Mutation UInt8) :
    (segments rel = [] ∧ apply root rel op = (.error .io, root)) ∨
    ∃ parent name, segments rel = parent ++ [name] ∧
      ((∃ e, walk root parent = .error e ∧ apply root rel op = (.error e, root)) ∨
       (∃ b, walk root parent = .ok (.file b) ∧ apply root rel op = (.error .notADir, root)) ∨
       (∃ d, walk root parent = .ok (.dir d) ∧
         apply root rel op =
         ((body op name d).1, graft root (.dir (body op name d).2) parent))) := by
  rcases List.eq_nil_or_concat' (segments rel) with h | ⟨parent, name, h⟩
  · exact Or.inl ⟨h, by rw [apply_eq_inParent, inParent, splitParent_nil h]⟩
  · refine Or.inr ⟨parent, name, h, ?_⟩
    rw [apply_eq_inParent, inParent, splitParent_append h]
    dsimp only
    cases hw : walk root parent with
    | error e => exact Or.inl ⟨e, rfl, walkMut_error hn hw _⟩
    | ok node =>
      rw [walkMut_ok hw]
      cases node with
      | file b => exact Or.inr (Or.inl ⟨b, rfl, by rw [graft_self hn hw]⟩)
      | dir d => exact Or.inr (Or.inr ⟨d, rfl, rfl⟩)

theorem apply_ok {root root' : Node} (hn : Ordered root) {rel : Str} {op : Mutation UInt8}
    (h : apply root rel op = (.ok (), root')) :
    ∃ parent name d d', segments rel = parent ++ [name] ∧ walk root parent = .ok (.dir d) ∧
      body op name d = (.ok (), d') ∧ root' = graft root (.dir d') parent := by
  rcases apply_cases hn rel op with ⟨_, ha⟩ | ⟨parent, name, hs,
    ⟨e, _, ha⟩ | ⟨b, _, ha⟩ | ⟨d, hw, ha⟩⟩
  · simp [ha] at h
  · simp [ha] at h
  · simp [ha] at h
  · rw [ha, Prod.mk.injEq] at h
    exact ⟨parent, name, d, _, hs, hw, Prod.ext h.1 rfl, h.2.symm⟩

theorem apply_error {root root' : Node} (hn : Ordered root) {rel : Str} {op : Mutation UInt8}
    {e : FsError} (h : apply root rel op = (.error e, root')) : root' = root := by
  rcases apply_cases hn rel op with ⟨_, ha⟩ | ⟨parent, name, hs,
    ⟨e, _, ha⟩ | ⟨b, _, ha⟩ | ⟨d, hw, ha⟩⟩
  · exact (Prod.ext_iff.mp (h.symm.trans ha)).2
  · exact (Prod.ext_iff.mp (h.symm.trans ha)).2
  · exact (Prod.ext_iff.mp (h.symm.trans ha)).2
  · rw [ha, Prod.mk.injEq] at h
    have hb : (body op name d).2 = d := body_error (Prod.ext h.1 rfl)
    rw [← h.2, hb, graft_self hn hw]

theorem apply_ordered {root : Node} (hn : Ordered root) (rel : Str) (op : Mutation UInt8) :
    Ordered (apply root rel op).2 := by
  rcases apply_cases hn rel op with ⟨_, ha⟩ | ⟨parent, name, hs,
    ⟨e, _, ha⟩ | ⟨b, _, ha⟩ | ⟨d, hw, ha⟩⟩
  · rw [ha]; exact hn
  · rw [ha]; exact hn
  · rw [ha]; exact hn
  · rw [ha]
    exact graft_ordered hn hw (body_ordered op name (walk_ordered hn hw))

theorem reachable_ordered {root : Node} (h : Reachable root) : Ordered root := by
  induction h with
  | new => exact .dir List.Pairwise.nil (by simp)
  | apply _ rel op ih => exact apply_ordered ih rel op

def node? (root : Node) (segs : List Str) : Option Node := (walk root segs).toOption

theorem walk_snoc {root : Node} {parent : List Str} {d : Entries}
    (h : walk root parent = .ok (.dir d)) (name : Str) :
    node? root (parent ++ [name]) = OrderedMap.lookup name d := by
  rw [node?, walk_append, h]
  cases hl : OrderedMap.lookup name d <;> simp [Except.bind, hl, Except.toOption]

/-- The mutation laws of the tree: the path decides only through its segments, a
success changes one node and shows in one listing, a failure changes nothing. -/
theorem apply_treeStore {root : Node} (h : Reachable root) (rel : Str) (op : Mutation UInt8) :
    (∀ rel', segments rel' = segments rel →
      readFile root rel' = readFile root rel ∧ listDir root rel' = listDir root rel ∧
      isDir root rel' = isDir root rel ∧ apply root rel' op = apply root rel op) ∧
    (∀ root', apply root rel op = (.ok (), root') →
      node? root' (segments rel) = targetNode op (node? root (segments rel)) ∧
      (∀ q, ¬ segments rel <+: segments q →
        readFile root' q = readFile root q ∧ isDir root' q = isDir root q ∧
        (segments q ≠ (segments rel).dropLast → listDir root' q = listDir root q)) ∧
      (∃ name, segments rel = (segments rel).dropLast ++ [name] ∧
        ∀ q, segments q = (segments rel).dropLast → ∃ names names',
          listDir root q = .ok names ∧ listDir root' q = .ok names' ∧
          names.Nodup ∧ names'.Nodup ∧
          ∀ n, n ∈ names' ↔ if n = name then op ≠ .remove else n ∈ names) ∧
      (op = .remove → ∀ d, walk root (segments rel) = .ok (.dir d) → d = [])) ∧
    (∀ e root', apply root rel op = (.error e, root') → root' = root) := by
  have hn := reachable_ordered h
  refine ⟨fun rel' hs => ?_, fun root' hok => ?_, fun e root' herr => apply_error hn herr⟩
  · have hp : splitParent rel' = splitParent rel := by simp only [splitParent, hs]
    simp only [readFile, listDir, isDir, hs, apply_eq_inParent, inParent, hp, and_self]
  · have hn' : Ordered root' := by
      have := apply_ordered hn rel op
      rwa [hok] at this
    obtain ⟨parent, name, d, d', hs, hw, hb, rfl⟩ := apply_ok hn hok
    have hw' := walk_graft (.dir d') hw
    have look := body_ok hb
    have frame : ∀ q, ¬ segments rel <+: segments q → segments q ≠ parent →
        observe (graft root (.dir d') parent) (segments q) = observe root (segments q) := by
      intro q hq hp
      refine observe_graft hw (fun n hne => by rw [look, if_neg hne]) ?_ hp
      rwa [hs] at hq
    have atParent : observe root parent = .ok (.dir (OrderedMap.keys d)) := by
      simp [observe, hw, Except.map, shape]
    have atParent' :
        observe (graft root (.dir d') parent) parent = .ok (.dir (OrderedMap.keys d')) := by
      simp [observe, hw', Except.map, shape]
    refine ⟨?_, fun q hq => ?_, ⟨name, by simp [hs], fun q hq => ?_⟩, fun hop d₀ hd₀ => ?_⟩
    · rw [hs, walk_snoc hw', walk_snoc hw, look, if_pos rfl]
    · by_cases hp : segments q = parent
      · refine ⟨?_, ?_, fun hne => absurd hp (by simpa [hs] using hne)⟩
        · rw [readFile_eq_observe, readFile_eq_observe, hp, atParent, atParent']
        · rw [isDir_eq_observe, isDir_eq_observe, hp, atParent, atParent']
      · have hobs := frame q hq hp
        refine ⟨?_, ?_, fun _ => ?_⟩
        · rw [readFile_eq_observe, readFile_eq_observe, hobs]
        · rw [isDir_eq_observe, isDir_eq_observe, hobs]
        · rw [listDir_eq_observe, listDir_eq_observe, hobs]
    · rw [hs, List.dropLast_concat] at hq
      refine ⟨OrderedMap.keys d, OrderedMap.keys d', ?_, ?_, ?_, ?_, fun n => ?_⟩
      · rw [listDir_eq_observe, hq, atParent]
      · rw [listDir_eq_observe, hq, atParent']
      · exact (walk_ordered hn hw).sorted.nodup
      · exact (walk_ordered hn' hw').sorted.nodup
      · rw [OrderedMap.mem_keys_iff, OrderedMap.mem_keys_iff, look]
        split_ifs
        · cases op <;> simp [targetNode]
          cases OrderedMap.lookup name d with
          | none => rfl
          | some node => cases node <;> rfl
        · rfl
    · subst hop
      rw [hs] at hd₀
      refine remove_dir_empty hb ?_
      rw [← walk_snoc hw, node?, hd₀]
      rfl

def workTree : Node := (apply new (text "/work") .createDir).2

theorem workTree_reachable : Reachable workTree := .apply .new _ _

theorem apply_treeStore_workTree :
    (apply workTree (text "/work/log") (.writeFile [1])).1 = .ok () ∧
    node? (apply workTree (text "/work/log") (.writeFile [1])).2 (segments (text "/work/log")) =
      some (.file [1]) := by
  have hok : (apply workTree (text "/work/log") (.writeFile [1])).1 = .ok () := by decide +kernel
  exact ⟨hok, ((apply_treeStore workTree_reachable (text "/work/log") (.writeFile [1])).2.1 _
    (Prod.ext hok rfl)).1⟩

/-! Refinement: the tree read as a store, and each mutation as the store's. -/

def store (root : Node) : Store Str UInt8 := fun p =>
  match walk root p with
  | .ok (.file b) => some (.file b)
  | .ok (.dir _) => some .dir
  | .error _ => none

def entryOf : Node → Entry UInt8
  | .file b => .file b
  | .dir _ => .dir

theorem store_eq (root : Node) (p : List Str) : store root p = (node? root p).map entryOf := by
  unfold store node?
  rcases walk root p with e | ⟨b⟩ | ⟨d⟩ <;> rfl

theorem store_eq_dir_iff (root : Node) (p : List Str) :
    store root p = some .dir ↔ ∃ d, walk root p = .ok (.dir d) := by
  unfold store
  rcases walk root p with e | ⟨b⟩ | ⟨d⟩ <;> simp

theorem store_snoc {root : Node} {parent : List Str} {d : Entries}
    (h : walk root parent = .ok (.dir d)) (name : Str) :
    store root (parent ++ [name]) = (OrderedMap.lookup name d).map entryOf := by
  rw [store_eq, walk_snoc h]

theorem listDir_store {root : Node} {q : Str} {names : List Str}
    (h : listDir root q = .ok names) (n : Str) :
    n ∈ names ↔ store root (segments q ++ [n]) ≠ none := by
  unfold listDir at h
  split at h
  · next d hd =>
    simp only [Except.ok.injEq] at h
    rw [store_snoc hd, ← h, OrderedMap.mem_keys_iff]
    cases OrderedMap.lookup n d <;> simp
  · simp at h
  · simp at h

theorem body_ok_iff (op : Mutation UInt8) (name : Str) {root : Node} {parent : List Str}
    {d : Entries} (h : walk root parent = .ok (.dir d)) :
    (body op name d).1 = .ok () ↔ Fits (store root) (parent ++ [name]) op := by
  have children : ∀ es, OrderedMap.lookup name d = some (.dir es) →
      ((∀ n, store root (parent ++ [name] ++ [n]) = none) ↔ es = []) := by
    intro es hes
    have hw : walk root (parent ++ [name]) = .ok (.dir es) := by
      rw [walk_append, h]
      simp [Except.bind, hes]
    constructor
    · intro hall
      cases es with
      | nil => rfl
      | cons e es =>
        have := hall e.1
        rw [store_snoc hw] at this
        simp [OrderedMap.lookup_cons] at this
    · rintro rfl n
      rw [store_snoc hw]
      rfl
  have here := store_snoc h name
  cases op with
  | createFile | writeFile =>
    simp only [body, placeFile, Fits, here]
    rcases OrderedMap.lookup name d with _ | ⟨b⟩ | ⟨es⟩ <;> simp [entryOf]
  | appendFile data =>
    simp only [body, extendFile, Fits, here]
    rcases OrderedMap.lookup name d with _ | ⟨b⟩ | ⟨es⟩ <;> simp [entryOf]
  | createDir =>
    simp only [body, placeDir, Fits, here]
    rcases OrderedMap.lookup name d with _ | ⟨b⟩ | ⟨es⟩ <;> simp
  | remove =>
    simp only [body, removeEntry, Fits, here]
    rcases hl : OrderedMap.lookup name d with _ | ⟨b⟩ | ⟨es⟩
    · simp
    · simp [entryOf]
    · have := children es hl
      cases es with
      | nil => simpa [entryOf] using this.mpr rfl
      | cons e es => simpa [entryOf] using this

theorem apply_ok_iff {root : Node} (hn : Ordered root) (rel : Str) (op : Mutation UInt8) :
    (apply root rel op).1 = .ok () ↔ Allowed (store root) op (segments rel) := by
  rcases apply_cases hn rel op with ⟨hs, ha⟩ | ⟨parent, name, hs,
    ⟨e, hw, ha⟩ | ⟨b, hw, ha⟩ | ⟨d, hw, ha⟩⟩
  · simp [ha, Allowed, hs]
  · simp [ha, Allowed, hs, store, hw]
  · simp [ha, Allowed, hs, store, hw]
  · rw [ha, body_ok_iff op name hw]
    simp [Allowed, hs, store, hw]

theorem store_below {root : Node} {p r : List Str} (hr : r ≠ [])
    (h : ∀ d, walk root p = .ok (.dir d) → d = []) : store root (p ++ r) = none := by
  rw [store, walk_append]
  obtain ⟨s, r, rfl⟩ := List.exists_cons_of_ne_nil hr
  rcases hw : walk root p with e | ⟨b⟩ | ⟨d⟩
  · rfl
  · rfl
  · rw [h d hw]
    rfl

theorem store_eq_observe (root : Node) (q : List Str) :
    store root q =
      match observe root q with
      | .ok (.file b) => some (.file b)
      | .ok (.dir _) => some .dir
      | .error _ => none := by
  unfold store observe
  rcases walk root q with e | ⟨b⟩ | ⟨d⟩ <;> rfl

theorem store_apply {root root' : Node} (hn : Ordered root) {rel : Str} {op : Mutation UInt8}
    (h : apply root rel op = (.ok (), root')) :
    store root' = after (store root) op (segments rel) := by
  obtain ⟨parent, name, d, d', hs, hw, hb, rfl⟩ := apply_ok hn h
  have hw' := walk_graft (.dir d') hw
  have look := body_ok hb
  have fits : Fits (store root) (parent ++ [name]) op := (body_ok_iff op name hw).mp (by rw [hb])
  have node := walk_snoc hw name
  have node' := walk_snoc hw' name
  rw [look, if_pos rfl, ← node] at node'
  rw [hs]
  funext q
  by_cases below : parent ++ [name] <+: q
  · obtain ⟨r, rfl⟩ := below
    by_cases hr : r = []
    · subst hr
      simp only [List.append_nil, after, put_self]
      rw [store_eq, store_eq, node']
      cases op with
      | createFile | writeFile | createDir | remove => rfl
      | appendFile data => rcases node? root (parent ++ [name]) with _ | ⟨b⟩ | ⟨es⟩ <;> rfl
    · rw [after_of_ne _ _ (by simpa using hr)]
      rw [store_below hr, store_below hr]
      · intro es hes
        have hnode : node? root (parent ++ [name]) = some (.dir es) := by
          simp [node?, hes, Except.toOption]
        have hst : store root (parent ++ [name]) = some .dir := (store_eq_dir_iff _ _).mpr ⟨es, hes⟩
        cases op with
        | createFile | writeFile | appendFile => exact absurd hst fits
        | createDir =>
          have hno : store root (parent ++ [name]) = none := fits
          simp [hst] at hno
        | remove => exact remove_dir_empty hb (by rw [← node, hnode])
      · intro es hes
        rw [node?, hes] at node'
        cases op with
        | createFile | writeFile | remove => simp [targetNode, Except.toOption] at node'
        | createDir => simpa [targetNode, Except.toOption] using node'
        | appendFile data =>
          revert node'
          rcases node? root (parent ++ [name]) with _ | ⟨b⟩ | ⟨es⟩ <;>
            simp [targetNode, Except.toOption]
  · have hne : q ≠ parent ++ [name] := by
      rintro rfl
      exact below List.prefix_rfl
    rw [after_of_ne _ _ hne]
    by_cases hp : q = parent
    · rw [hp]
      simp only [store, hw, hw']
    · rw [store_eq_observe, store_eq_observe,
        observe_graft hw (fun n hne => by rw [look, if_neg hne]) below hp]

end Willo.TmpFs
