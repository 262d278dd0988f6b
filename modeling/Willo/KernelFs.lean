import Willo.FatFs
import Willo.MountTable
import Willo.TmpFs

/-! The file systems of the running kernel behind one mount table: the seeded
read-only tree (`fs/ram.rs`), the device files (`fs/dev.rs`), the in-memory
store and the FAT driver, and the `Vfs` calls that go through `resolve`. A call
may touch the disk, the screen and the serial port, so it runs on the kernel's
state. -/

namespace Willo.KernelFs
open Text Paths ByteCodec BlockDevice FaultState TreeStore MountTable

/-- What the calls reach outside the mount table: the drive, the timer, the characters
printed so far, and the bytes sent to the serial port, if there is one. -/
structure Kernel where
  disk : Disk
  ticks : Nat
  console : Str
  serial : Option Bytes

abbrev KernelM (α : Type) := ExceptT Fault (StateM Kernel) α

def onDisk {α : Type} (x : FatM α) : KernelM α :=
  ExceptT.mk fun k => let r := exec x k.disk; (r.1, { k with disk := r.2 })

def ofResult {α : Type} : Except FsError α → KernelM α
  | .ok a => pure a
  | .error e => throw (.err e)

def print (s : Str) : KernelM Unit := modify fun k => { k with console := k.console ++ s }

def fromUtf8 (b : Bytes) : Option Str :=
  if (ByteArray.mk b.toArray).validateUTF8 then some b else none

/-! The read-only tree. -/

inductive RamNode where
  | file (data : Bytes)
  | special (f : Nat → Str)
  | dir (entries : List (Str × RamNode))

def ramWalk (node : RamNode) : List Str → Except FsError RamNode
  | [] => .ok node
  | s :: segs =>
    match node with
    | .dir d =>
      match OrderedMap.lookup s d with
      | some child => ramWalk child segs
      | none => .error .notFound
    | _ => .error .notADir

/-- The timer is read when a `Special` file is. -/
def ramReadFile (root : RamNode) (ticks : Nat) (abs : Str) : Except FsError Bytes :=
  match ramWalk root (segments abs) with
  | .ok (.file b) => .ok b
  | .ok (.special f) => .ok (f ticks)
  | .ok (.dir _) => .error .isADir
  | .error e => .error e

def ramListDir (root : RamNode) (abs : Str) : Except FsError (List Str) :=
  match ramWalk root (segments abs) with
  | .ok (.dir d) => .ok (OrderedMap.keys d)
  | .ok _ => .error .notADir
  | .error e => .error e

def ramIsDir (root : RamNode) (abs : Str) : Bool :=
  match ramWalk root (segments abs) with
  | .ok (.dir _) => true
  | _ => false

def uptimeText (ticks : Nat) : Str := text (toString ticks) ++ text " ticks\n"

def mapOf {ν : Type} (entries : List (Str × ν)) : List (Str × ν) :=
  entries.foldl (fun m e => OrderedMap.insert e.1 e.2 m) []

def seed : RamNode :=
  .dir (mapOf
    [(text "welcome.txt", .file (text "Welcome to Willo!\nType `help`.\n")),
      (text "etc", .dir (mapOf
        [(text "version", .file (text "willo 0.9 (M9)\n")),
          (text "motd", .file (text "the kernel that fits in your head\n"))])),
      (text "proc", .dir (mapOf [(text "uptime", .special uptimeText)])),
      (text "bin", .dir [])])

/-! Device files. -/

inductive DevNode where
  | console
  | null
  | zero
  | serial0
  | disk0
  deriving DecidableEq

def devNodes : List (Str × DevNode) :=
  [(text "console", .console), (text "null", .null), (text "zero", .zero),
    (text "serial0", .serial0),
    (text "disk0", .disk0)]

def devNode (name : Str) : Option DevNode := (devNodes.find? fun e => e.1 == name).map Prod.snd

/-- Without the leading `/`; the namespace is flat. -/
def flatName (rel : Str) : Except FsError Str :=
  let trimmed := if rel.head? = some slash then rel.tail else rel
  if slash ∈ trimmed then .error .notFound else .ok trimmed

def zeroReadFileBytes : Nat := 4096

def devReadFile (rel : Str) : Except FsError Bytes := do
  let name ← flatName rel
  if name = [] then .error .isADir
  else if name = text "null" then .ok []
  else if name = text "zero" then .ok (List.replicate zeroReadFileBytes 0)
  else if name = text "console" ∨ name = text "serial0" ∨
    name = text "disk0" then .error .unsupported
  else .error .notFound

def devListDir (rel : Str) : Except FsError (List Str) := do
  let name ← flatName rel
  if name ≠ [] then .error .notADir else .ok (devNodes.map Prod.fst)

def devIsDir (rel : Str) : Bool :=
  match flatName rel with
  | .ok [] => true
  | _ => false

def writeDiskBlocks (lba : Nat) (buf : Bytes) : List Nat → FatM Unit
  | [] => pure ()
  | i :: is => do
    writeBlock (lba + i) (slice buf (i * blockSize) blockSize)
    writeDiskBlocks lba buf is

def DevNode.write (node : DevNode) (off : Nat) (buf : Bytes) : KernelM Nat :=
  match node with
  | .console => do
    print ((fromUtf8 buf).getD [])
    pure buf.length
  | .null | .zero => pure buf.length
  | .serial0 => do
    let k ← get
    match k.serial with
    | some sent => do
      set { k with serial := some (sent ++ buf) }
      pure buf.length
    | none => throw (.err .io)
  | .disk0 =>
    if buf = [] then pure 0
    else if off % blockSize ≠ 0 ∨ buf.length % blockSize ≠ 0 then throw (.err .io)
    else do
      onDisk (writeDiskBlocks (off / blockSize) buf (List.range (buf.length / blockSize)))
      pure buf.length

def devWriteAt (rel : Str) (off : Nat) (buf : Bytes) : KernelM Nat := do
  let name ← ofResult (flatName rel)
  match devNode name with
  | some node => node.write off buf
  | none => throw (.err .notFound)

def devWriteFile (rel : Str) (data : Bytes) : KernelM Unit := do
  let n ← devWriteAt rel 0 data
  if n = data.length then pure () else throw (.err .io)

/-! One interface for the four. -/

inductive Backend where
  | tmp (root : TmpFs.Node)
  | ram (root : RamNode)
  | dev
  | fat (v : Fat.FatFs)

def Backend.readFile : Backend → Str → KernelM Bytes
  | .tmp root, rel => ofResult (TmpFs.readFile root rel)
  | .ram root, rel => do
    let k ← get
    ofResult (ramReadFile root k.ticks rel)
  | .dev, rel => ofResult (devReadFile rel)
  | .fat v, rel => onDisk (Fat.readFile v rel)

def Backend.listDir : Backend → Str → KernelM (List Str)
  | .tmp root, rel => ofResult (TmpFs.listDir root rel)
  | .ram root, rel => ofResult (ramListDir root rel)
  | .dev, rel => ofResult (devListDir rel)
  | .fat v, rel => onDisk (Fat.listDir v rel)

def Backend.isDir : Backend → Str → KernelM Bool
  | .tmp root, rel => pure (TmpFs.isDir root rel)
  | .ram root, rel => pure (ramIsDir root rel)
  | .dev, rel => pure (devIsDir rel)
  | .fat v, rel => onDisk (Fat.isDir v rel)

def Backend.backing : Backend → Str
  | .tmp _ => text "tmpfs"
  | .ram _ => text "ramfs (no data disk)"
  | .dev => text "devfs"
  | .fat _ => text "fat32 on /dev/ata1"

/-- The five mutations, with the defaults of the trait. A mutation of the in-memory
store changes the backend itself, the others the kernel's state. -/
def Backend.apply (b : Backend) (rel : Str) (op : Mutation UInt8) (k : Kernel) :
    Except Fault Unit × Backend × Kernel :=
  match b, op with
  | .tmp root, op =>
    let r := TmpFs.apply root rel op
    (match r.1 with | .ok u => .ok u | .error e => .error (.err e), .tmp r.2, k)
  | .dev, .writeFile data =>
    let r := exec (devWriteFile rel data) k
    (r.1, b, r.2)
  | .fat v, op =>
    let r := exec (onDisk (Fat.apply v rel op)) k
    (r.1, b, r.2)
  | _, _ => (.error (.err .unsupported), b, k)

/-! The calls of the mount table. -/

variable {F : Type}

def readFile (v : Vfs Backend) (abs : Str) : KernelM Bytes := do
  let (fs, rel) ← ofResult (resolve v abs)
  fs.readFile rel

def stripPrefix (pre s : Str) : Option Str :=
  if pre.isPrefixOf s then some (s.drop pre.length) else none

def belowParent (parent childPrefix : Str) : Option Str :=
  if parent = [] then stripPrefix [slash] childPrefix
  else (stripPrefix parent childPrefix).bind (stripPrefix [slash])

def directChild (parent childPrefix : Str) : Option Str :=
  if childPrefix = [] then none
  else do
    let rest ← belowParent parent childPrefix
    if rest = [] ∨ slash ∈ rest then none else some rest

def addChild (parent : Str) (entries : List Str) (m : Mount F) : List Str :=
  match directChild parent m.pfx with
  | some child => if child ∈ entries then entries else entries ++ [child]
  | none => entries

def listDir (v : Vfs Backend) (abs : Str) : KernelM (List Str) := do
  let (fs, rel) ← ofResult (resolve v abs)
  let entries ← fs.listDir rel
  pure (v.mounts.foldl (addChild (canonicalPrefix abs)) entries)

def isDir (v : Vfs Backend) (abs : Str) : KernelM Bool :=
  if v.mounts.any (·.pfx == canonicalPrefix abs) then pure true
  else
    match resolve v abs with
    | .ok (fs, rel) => fs.isDir rel
    | .error _ => pure false

def replaceFs (v : Vfs F) (pfx : Str) (fs : F) : Vfs F :=
  ⟨v.mounts.map fun m => if m.pfx = pfx then { m with fs := fs } else m⟩

def apply (v : Vfs Backend) (abs : Str) (op : Mutation UInt8) (k : Kernel) :
    Except Fault Unit × Vfs Backend × Kernel :=
  match resolveMount v abs with
  | .error e => (.error (.err e), v, k)
  | .ok (m, rel) =>
    let r := m.fs.apply rel op k
    (r.1, replaceFs v m.pfx r.2.1, r.2.2)

end Willo.KernelFs
