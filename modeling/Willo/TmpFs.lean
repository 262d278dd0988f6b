import Willo.OrderedMap
import Willo.Paths
import Willo.TreeStore

/-! The in-memory file system (`fs/tmp.rs`). A directory is a B-tree map from
names to nodes, here a key-sorted association list. The immutable walker returns
the node at a path; the mutable walker hands the node to the rest of the caller
and puts the result back along the path, so a failed call keeps the tree. -/

namespace Willo.TmpFs
open Text Paths TreeStore

inductive Node where
  | file (data : List UInt8)
  | dir (entries : List (Str × Node))

abbrev Entries := List (Str × Node)

def new : Node := .dir []

def splitParent (rel : Str) : Option (List Str × Str) :=
  let segs := segments rel
  segs.getLast?.map fun last => (segs.dropLast, last)

def walk (node : Node) : List Str → Except FsError Node
  | [] => .ok node
  | s :: segs =>
    match node with
    | .dir d =>
      match OrderedMap.lookup s d with
      | some child => walk child segs
      | none => .error .notFound
    | .file _ => .error .notADir

/-- `walk_mut` followed by the caller's use `k` of the reference it returns. -/
def walkMut (node : Node) (k : Node → Except FsError Unit × Node) :
    List Str → Except FsError Unit × Node
  | [] => k node
  | s :: segs =>
    match node with
    | .dir d =>
      match OrderedMap.lookup s d with
      | some child =>
        let r := walkMut child k segs
        (r.1, .dir (OrderedMap.put s r.2 d))
      | none => (.error .notFound, node)
    | .file _ => (.error .notADir, node)

def readFile (root : Node) (rel : Str) : Except FsError (List UInt8) :=
  match walk root (segments rel) with
  | .ok (.file b) => .ok b
  | .ok (.dir _) => .error .isADir
  | .error e => .error e

def listDir (root : Node) (rel : Str) : Except FsError (List Str) :=
  match walk root (segments rel) with
  | .ok (.dir d) => .ok (OrderedMap.keys d)
  | .ok (.file _) => .error .notADir
  | .error e => .error e

def isDir (root : Node) (rel : Str) : Bool :=
  match walk root (segments rel) with
  | .ok (.dir _) => true
  | _ => false

/-- The frame all five mutators share: split off the name, walk to the parent,
require a directory, and run the operation's own body on its map. -/
def inParent (root : Node) (rel : Str) (body : Str → Entries → Except FsError Unit × Entries) :
    Except FsError Unit × Node :=
  match splitParent rel with
  | none => (.error .io, root)
  | some (parent, name) =>
    walkMut root (fun node =>
      match node with
      | .dir d =>
        let r := body name d
        (r.1, .dir r.2)
      | .file _ => (.error .notADir, node)) parent

/-- `create_file` and `write_file` on the parent's map: any file there is replaced. -/
def placeFile (data : List UInt8) (name : Str) (d : Entries) : Except FsError Unit × Entries :=
  match OrderedMap.lookup name d with
  | some (.dir _) => (.error .isADir, d)
  | _ => (.ok (), OrderedMap.insert name (.file data) d)

def extendFile (data : List UInt8) (name : Str) (d : Entries) : Except FsError Unit × Entries :=
  match OrderedMap.lookup name d with
  | some (.file b) => (.ok (), OrderedMap.put name (.file (b ++ data)) d)
  | some (.dir _) => (.error .isADir, d)
  | none => (.ok (), OrderedMap.insert name (.file data) d)

def placeDir (name : Str) (d : Entries) : Except FsError Unit × Entries :=
  if (OrderedMap.lookup name d).isSome then (.error .io, d)
  else (.ok (), OrderedMap.insert name (.dir []) d)

def removeEntry (name : Str) (d : Entries) : Except FsError Unit × Entries :=
  match OrderedMap.lookup name d with
  | none => (.error .notFound, d)
  | some (.dir (_ :: _)) => (.error .io, d)
  | some _ => (.ok (), OrderedMap.remove name d)

def createFile (root : Node) (rel : Str) : Except FsError Unit × Node :=
  inParent root rel (placeFile [])

def writeFile (root : Node) (rel : Str) (data : List UInt8) : Except FsError Unit × Node :=
  inParent root rel (placeFile data)

def appendFile (root : Node) (rel : Str) (data : List UInt8) : Except FsError Unit × Node :=
  inParent root rel (extendFile data)

def createDir (root : Node) (rel : Str) : Except FsError Unit × Node :=
  inParent root rel placeDir

def remove (root : Node) (rel : Str) : Except FsError Unit × Node :=
  inParent root rel removeEntry

def apply (root : Node) (rel : Str) : Mutation UInt8 → Except FsError Unit × Node
  | .createFile => createFile root rel
  | .writeFile data => writeFile root rel data
  | .appendFile data => appendFile root rel data
  | .createDir => createDir root rel
  | .remove => remove root rel

inductive Reachable : Node → Prop where
  | new : Reachable new
  | apply {root : Node} (h : Reachable root) (rel : Str) (op : Mutation UInt8) :
      Reachable (apply root rel op).2

/-! The maps along every path of a reachable tree stay sorted. -/

inductive Ordered : Node → Prop where
  | file (data : List UInt8) : Ordered (.file data)
  | dir {d : Entries} (sorted : OrderedMap.Sorted d) (children : ∀ e ∈ d, Ordered e.2) :
      Ordered (.dir d)

theorem Ordered.lookup {d : Entries} {s : Str} {child : Node} (h : Ordered (.dir d))
    (hc : OrderedMap.lookup s d = some child) : Ordered child := by
  cases h with
  | dir _ children => exact children _ (OrderedMap.lookup_mem hc)

theorem Ordered.sorted {d : Entries} (h : Ordered (.dir d)) : OrderedMap.Sorted d := by
  cases h with
  | dir sorted _ => exact sorted

theorem Ordered.put {d : Entries} {child : Node} (h : Ordered (.dir d)) (s : Str)
    (hc : Ordered child) : Ordered (.dir (OrderedMap.put s child d)) := by
  cases h with
  | dir sorted children =>
    refine .dir (OrderedMap.put_sorted s child sorted) fun e he => ?_
    obtain ⟨x, hx, rfl⟩ := List.mem_map.mp he
    split_ifs
    · exact hc
    · exact children x hx

theorem mem_insert {s : Str} {child : Node} {d : Entries} {e : Str × Node}
    (h : e ∈ OrderedMap.insert s child d) : e = (s, child) ∨ e ∈ d := by
  induction d with
  | nil => simpa [OrderedMap.insert] using h
  | cons x d ih =>
    unfold OrderedMap.insert at h
    split_ifs at h
    · rcases List.mem_cons.mp h with h | h
      · exact Or.inl h
      · exact Or.inr (List.mem_cons_of_mem _ h)
    · exact List.mem_cons.mp h
    · rcases List.mem_cons.mp h with h | h
      · exact Or.inr (h ▸ List.mem_cons_self)
      · exact (ih h).imp_right (List.mem_cons_of_mem _)

theorem Ordered.insert {d : Entries} {child : Node} (h : Ordered (.dir d)) (s : Str)
    (hc : Ordered child) : Ordered (.dir (OrderedMap.insert s child d)) := by
  cases h with
  | dir sorted children =>
    refine .dir (OrderedMap.insert_sorted s child sorted) fun e he => ?_
    rcases mem_insert he with rfl | he
    · exact hc
    · exact children e he

theorem Ordered.remove {d : Entries} (h : Ordered (.dir d)) (s : Str) :
    Ordered (.dir (OrderedMap.remove s d)) := by
  cases h with
  | dir sorted children =>
    exact .dir (OrderedMap.remove_sorted s sorted) fun e he => children e (List.mem_filter.mp he).1

def body : Mutation UInt8 → Str → Entries → Except FsError Unit × Entries
  | .createFile => placeFile []
  | .writeFile data => placeFile data
  | .appendFile data => extendFile data
  | .createDir => placeDir
  | .remove => removeEntry

theorem apply_eq_inParent (root : Node) (rel : Str) (op : Mutation UInt8) :
    apply root rel op = inParent root rel (body op) := by
  cases op <;> rfl

end Willo.TmpFs
