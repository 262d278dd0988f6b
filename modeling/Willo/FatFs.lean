import Willo.BlockDevice
import Willo.TreeStore

/-! The FAT32 driver (`fs/fat.rs`), function by function. Numbers are naturals;
`u32` sums and products that the source computes at run time stop with a panic
past 32 bits, as a dev build does. Loops over a cluster chain carry fuel: a walk
visits numbers below the end-of-chain threshold, so one that uses up
`chainFuel` steps has come back to a cluster it had left and goes on forever. -/

namespace Willo.Fat
open Text Paths ByteCodec BlockDevice

def attrReadOnly : UInt8 := 0x01
def attrHidden : UInt8 := 0x02
def attrSystem : UInt8 := 0x04
def attrVolumeId : UInt8 := 0x08
def attrDirectory : UInt8 := 0x10
def attrLongName : UInt8 := attrReadOnly ||| attrHidden ||| attrSystem ||| attrVolumeId

def eocThreshold : Nat := 0x0FFFFFF8
def clusterMask : Nat := 0x0FFFFFFF

def chainFuel : Nat := eocThreshold

def usizeMax : Nat := 2 ^ 64 - 1

structure FatFs where
  bytesPerSector : Nat
  sectorsPerCluster : Nat
  reservedSectors : Nat
  numFats : Nat
  sectorsPerFat : Nat
  rootCluster : Nat
  fatStartLba : Nat
  dataStartLba : Nat
  deriving DecidableEq

structure DirEntry where
  name : Str
  isDir : Bool
  cluster : Nat
  size : Nat
  deriving DecidableEq

def addU32 (a b : Nat) : FatM Nat := if a + b < 2 ^ 32 then pure (a + b) else throw .panic

def subU32 (a b : Nat) : FatM Nat := if b ≤ a then pure (a - b) else throw .panic

def mulU32 (a b : Nat) : FatM Nat := if a * b < 2 ^ 32 then pure (a * b) else throw .panic

def mount : FatM FatFs := do
  let buf ← readBlock 0
  let bytesPerSector := le16 buf 0x0B
  let sectorsPerCluster := (byteAt buf 0x0D).toNat
  let reservedSectors := le16 buf 0x0E
  let numFats := (byteAt buf 0x10).toNat
  let sectorsPerFat := le32 buf 0x24
  let rootCluster := le32 buf 0x2C
  if bytesPerSector ≠ blockSize ∨ sectorsPerCluster = 0 ∨ numFats = 0 then throw (.err .io)
  else do
    let fats ← mulU32 numFats sectorsPerFat
    let dataStartLba ← addU32 reservedSectors fats
    pure ⟨bytesPerSector, sectorsPerCluster, reservedSectors, numFats, sectorsPerFat, rootCluster,
      reservedSectors, dataStartLba⟩

/-- At most 255 sectors of 512 bytes, so the product stays far below 32 bits. -/
def clusterBytes (v : FatFs) : Nat := v.sectorsPerCluster * v.bytesPerSector

def clusterToLba (v : FatFs) (cluster : Nat) : FatM Nat := do
  let index ← subU32 cluster 2
  let offset ← mulU32 index v.sectorsPerCluster
  addU32 v.dataStartLba offset

def nextCluster (v : FatFs) (cluster : Nat) : FatM Nat := do
  let fatOffset ← mulU32 cluster 4
  let fatSector ← addU32 v.fatStartLba (fatOffset / v.bytesPerSector)
  let buf ← readBlock fatSector
  pure (le32 buf (fatOffset % v.bytesPerSector) &&& clusterMask)

def readSectors (lba : Nat) : Nat → FatM Bytes
  | 0 => pure []
  | n + 1 => do
    let head ← readSectors lba n
    let buf ← readBlock (lba + n)
    pure (head ++ buf)

def readChainLoop (v : FatFs) (maxBytes : Nat) : Nat → Nat → Bytes → FatM Bytes
  | 0, _, _ => throw .diverge
  | fuel + 1, cluster, out =>
    if 2 ≤ cluster ∧ cluster < eocThreshold then do
      let lba ← clusterToLba v cluster
      let buf ← readSectors lba v.sectorsPerCluster
      if maxBytes ≤ (out ++ buf).length then pure (out ++ buf)
      else do
        let next ← nextCluster v cluster
        readChainLoop v maxBytes fuel next (out ++ buf)
    else pure out

def readChain (v : FatFs) (start maxBytes : Nat) : FatM Bytes :=
  readChainLoop v maxBytes chainFuel start []

/-! Directory slots. -/

/-- `b as char` pushed to a `String`: one or two UTF-8 bytes. -/
def pushByte (b : UInt8) : Str :=
  if b < 0x80 then [b] else [(0xC0 : UInt8) ||| (b >>> 6), (0x80 : UInt8) ||| (b &&& 0x3F)]

def decodeField (raw : Bytes) : Str := (raw.takeWhile (· != space)).flatMap pushByte

def decodeShortName (entry : Bytes) : Str :=
  let name := decodeField (slice entry 0 8)
  let ext := decodeField (slice entry 8 3)
  lower (if ext = [] then name else name ++ dot :: ext)

def skipped (chunk : Bytes) : Bool :=
  byteAt chunk 0 == 0xE5 || (byteAt chunk 11 &&& attrLongName) == attrLongName ||
    (byteAt chunk 11 &&& attrVolumeId) != 0

def decodeEntry (chunk : Bytes) : DirEntry :=
  ⟨decodeShortName chunk, (byteAt chunk 11 &&& attrDirectory) != 0,
    le16 chunk 20 * 65536 + le16 chunk 26, le32 chunk 28⟩

def isDotName (name : Str) : Bool := name == [dot] || name == [dot, dot]

def scanDir : List Bytes → List DirEntry
  | [] => []
  | chunk :: rest =>
    if byteAt chunk 0 = 0x00 then []
    else if skipped chunk then scanDir rest
    else if isDotName (decodeShortName chunk) then scanDir rest
    else decodeEntry chunk :: scanDir rest

def readDir (v : FatFs) (cluster : Nat) : FatM (List DirEntry) := do
  let bytes ← readChain v cluster usizeMax
  pure (scanDir (chunksExact 32 bytes))

def findInDir (v : FatFs) (cluster : Nat) (name : Str) : FatM (Option DirEntry) := do
  let entries ← readDir v cluster
  pure (entries.find? fun e => eqIgnoreAsciiCase e.name name)

/-- The loop over the path's segments; `found` is empty only before the first. -/
def lookupLoop (v : FatFs) : Nat → Option DirEntry → List Str → FatM DirEntry
  | _, found, [] =>
    match found with
    | some e => pure e
    | none => throw (.err .notFound)
  | current, found, seg :: rest =>
    match found with
    | none => do
      match ← findInDir v current seg with
      | some e => lookupLoop v current (some e) rest
      | none => throw (.err .notFound)
    | some f =>
      if f.isDir then do
        match ← findInDir v f.cluster seg with
        | some e => lookupLoop v f.cluster (some e) rest
        | none => throw (.err .notFound)
      else throw (.err .notADir)

def rootEntry (v : FatFs) : DirEntry := ⟨[slash], true, v.rootCluster, 0⟩

def lookup (v : FatFs) (abs : Str) : FatM DirEntry :=
  if abs = [slash] ∨ abs = [] then pure (rootEntry v)
  else lookupLoop v v.rootCluster none (segments abs)

def readFile (v : FatFs) (abs : Str) : FatM Bytes := do
  let entry ← lookup v abs
  if entry.isDir then throw (.err .isADir)
  else if entry.size = 0 ∨ entry.cluster < 2 then pure []
  else do
    let out ← readChain v entry.cluster entry.size
    pure (out.take entry.size)

def listDir (v : FatFs) (abs : Str) : FatM (List Str) := do
  let entry ← lookup v abs
  if entry.isDir then do
    let cluster := if abs = [slash] then v.rootCluster else entry.cluster
    let entries ← readDir v cluster
    pure (entries.map DirEntry.name)
  else throw (.err .notADir)

def isDir (v : FatFs) (abs : Str) : FatM Bool := do
  match ← attempt (lookup v abs) with
  | .ok e => pure e.isDir
  | .error _ => pure false

def clusterFor (v : FatFs) (abs : Str) : FatM Nat :=
  if abs = [slash] then pure v.rootCluster
  else do
    let entry ← lookup v abs
    if entry.isDir then pure entry.cluster else throw (.err .notADir)

/-! The FAT itself. -/

def findFreeLoop (v : FatFs) : List Nat → Option Nat → Bytes → FatM Nat
  | [], _, _ => throw (.err .io)
  | c :: cs, currentSector, buf => do
    let fatOffset ← mulU32 c 4
    let fatSector ← addU32 v.fatStartLba (fatOffset / v.bytesPerSector)
    let buf ← if some fatSector ≠ currentSector then readBlock fatSector else pure buf
    if le32 buf (fatOffset % v.bytesPerSector) &&& clusterMask = 0 then pure c
    else findFreeLoop v cs (some fatSector) buf

def findFreeCluster (v : FatFs) : FatM Nat := do
  let fatBytes ← mulU32 v.sectorsPerFat v.bytesPerSector
  findFreeLoop v (List.range' 2 (fatBytes / 4 - 2)) none (List.replicate blockSize 0)

/-- The new entry: the low 28 bits of `value` under the top bits already there. -/
def maskedEntry (value old : Nat) : Nat := (value &&& clusterMask) ||| (old &&& 0xF0000000)

def writeFatCopies (v : FatFs) (fatOffset value : Nat) : List Nat → FatM Unit
  | [] => pure ()
  | i :: is => do
    let copy ← mulU32 i v.sectorsPerFat
    let base ← addU32 v.fatStartLba copy
    let fatSector ← addU32 base (fatOffset / v.bytesPerSector)
    let buf ← readBlock fatSector
    let inSector := fatOffset % v.bytesPerSector
    writeBlock fatSector (patch buf inSector (toLe32 (maskedEntry value (le32 buf inSector))))
    writeFatCopies v fatOffset value is

def writeFatEntry (v : FatFs) (cluster value : Nat) : FatM Unit := do
  let fatOffset ← mulU32 cluster 4
  writeFatCopies v fatOffset value (List.range v.numFats)

def updateFsinfo (deltaFree : Int) (lastAlloc : Nat) : FatM Unit := do
  let buf ← readBlock 1
  if le32 buf 0 ≠ 0x41615252 ∨ le32 buf 484 ≠ 0x61417272 then pure ()
  else do
    let free := le32 buf 0x1E8
    let buf :=
      if free ≠ 0xFFFFFFFF then patch buf 0x1E8 (toLe32 ((free + deltaFree) ⊔ 0).toNat) else buf
    let buf := if lastAlloc ≠ 0 then patch buf 0x1EC (toLe32 lastAlloc) else buf
    writeBlock 1 buf

def writeSectors (lba : Nat) (data : Bytes) : List Nat → FatM Unit
  | [] => pure ()
  | sec :: secs => do
    writeBlock (lba + sec) (slice data (sec * blockSize) blockSize)
    writeSectors lba data secs

def writeCluster (v : FatFs) (cluster : Nat) (data : Bytes) : FatM Unit := do
  let lba ← clusterToLba v cluster
  writeSectors lba data (List.range v.sectorsPerCluster)

def zeroCluster (v : FatFs) (cluster : Nat) : FatM Unit :=
  writeCluster v cluster (List.replicate (clusterBytes v) 0)

def endOfChain : Nat := eocThreshold ||| 0xF

def allocateLoop (v : FatFs) : Nat → Nat → Nat → Nat → FatM (Nat × Nat)
  | 0, head, _, last => pure (head, last)
  | n + 1, head, prev, _ => do
    let c ← findFreeCluster v
    writeFatEntry v c endOfChain
    zeroCluster v c
    if prev = 0 then allocateLoop v n c c c
    else do
      writeFatEntry v prev c
      allocateLoop v n head c c

def allocateChain (v : FatFs) (count : Nat) : FatM Nat :=
  if count = 0 then pure 0
  else do
    let (head, last) ← allocateLoop v count 0 0 0
    let _ ← attempt (updateFsinfo (-(count : Int)) last)
    pure head

def freeLoop (v : FatFs) : Nat → Nat → Nat → FatM Nat
  | 0, _, _ => throw .diverge
  | fuel + 1, cluster, freed =>
    if 2 ≤ cluster ∧ cluster < eocThreshold then do
      let next ← nextCluster v cluster
      writeFatEntry v cluster 0
      freeLoop v fuel next (freed + 1)
    else pure freed

def freeChain (v : FatFs) (start : Nat) : FatM Unit := do
  let freed ← freeLoop v chainFuel start 0
  if 0 < freed then do
    let _ ← attempt (updateFsinfo freed 0)
    pure ()
  else pure ()

def writeChainLoop (v : FatFs) : Nat → Nat → Bytes → FatM Unit
  | 0, _, _ => pure ()
  | fuel + 1, cluster, rest =>
    if rest ≠ [] ∧ 2 ≤ cluster ∧ cluster < eocThreshold then do
      let chunk := rest.take (clusterBytes v)
      writeCluster v cluster (chunk ++ List.replicate (clusterBytes v - chunk.length) 0)
      let rest := rest.drop (clusterBytes v)
      if rest = [] then pure ()
      else do
        let next ← nextCluster v cluster
        writeChainLoop v fuel next rest
    else pure ()

/-- Each turn consumes data, so the length of the data bounds the turns. -/
def writeChain (v : FatFs) (head : Nat) (data : Bytes) : FatM Unit :=
  writeChainLoop v data.length head data

/-! Writing directory slots. -/

def splitName (name : Str) : Str × Str :=
  if name = [dot] ∨ name = [dot, dot] then (name, [])
  else
    match rfind dot name with
    | some i => (name.take i, name.drop (i + 1))
    | none => (name, [])

/-- At most 11 bytes of `s` in upper case, as `HeaplessUpper` keeps them. -/
def heaplessUpper (s : Str) : Str := (s.take 11).map toAsciiUpper

def padField (n : Nat) (s : Str) : Bytes := s.take n ++ List.replicate (n - s.length) space

def nameField (name : Str) : Bytes :=
  if name = [dot] then dot :: List.replicate 10 space
  else if name = [dot, dot] then dot :: dot :: List.replicate 9 space
  else
    padField 8 (heaplessUpper (splitName name).1) ++ padField 3 (heaplessUpper (splitName name).2)

def writeShortEntry (name : Str) (attrs : UInt8) (cluster size : Nat) : Bytes :=
  nameField name ++ [attrs] ++ List.replicate 8 0 ++ toLe16 (cluster / 65536) ++
    List.replicate 4 0 ++ toLe16 cluster ++ toLe32 size

def freeSlot (buf : Bytes) : Option Nat :=
  ((List.range (blockSize / 32)).map (· * 32)).find? fun off =>
    byteAt buf off == 0x00 || byteAt buf off == 0xE5

def addInSectors (lba : Nat) (entry : Bytes) : List Nat → FatM Bool
  | [] => pure false
  | sec :: secs => do
    let buf ← readBlock (lba + sec)
    match freeSlot buf with
    | some off => do
      writeBlock (lba + sec) (patch buf off entry)
      pure true
    | none => addInSectors lba entry secs

def addDirEntryLoop (v : FatFs) (entry : Bytes) : Nat → Nat → FatM Unit
  | 0, _ => throw .diverge
  | fuel + 1, chainCluster => do
    let lba ← clusterToLba v chainCluster
    if ← addInSectors lba entry (List.range v.sectorsPerCluster) then pure ()
    else do
      let next ← nextCluster v chainCluster
      if next < 2 ∨ eocThreshold ≤ next then do
        let newCluster ← findFreeCluster v
        writeFatEntry v newCluster endOfChain
        zeroCluster v newCluster
        writeFatEntry v chainCluster newCluster
        let _ ← attempt (updateFsinfo (-1) newCluster)
        addDirEntryLoop v entry fuel newCluster
      else addDirEntryLoop v entry fuel next

/-- One turn per cluster of the directory and one for a cluster added to it. -/
def addDirEntry (v : FatFs) (parentCluster : Nat) (name : Str) (attrs : UInt8)
    (cluster size : Nat) : FatM Unit :=
  addDirEntryLoop v (writeShortEntry name attrs cluster size) chainFuel parentCluster

inductive Scan where
  | endOfDir
  | found (off : Nat)
  | missing
  deriving DecidableEq

def scanBlock (buf : Bytes) (name : Str) : List Nat → Scan
  | [] => .missing
  | off :: offs =>
    let chunk := slice buf off 32
    if byteAt chunk 0 = 0x00 then .endOfDir
    else if skipped chunk then scanBlock buf name offs
    else if eqIgnoreAsciiCase (decodeShortName chunk) name then .found off
    else scanBlock buf name offs

def deleteInSectors (lba : Nat) (name : Str) : List Nat → FatM Bool
  | [] => pure false
  | sec :: secs => do
    let buf ← readBlock (lba + sec)
    match scanBlock buf name ((List.range (blockSize / 32)).map (· * 32)) with
    | .endOfDir => pure true
    | .found off => do
      writeBlock (lba + sec) (patch buf off [0xE5])
      pure true
    | .missing => deleteInSectors lba name secs

def deleteDirEntryLoop (v : FatFs) (name : Str) : Nat → Nat → FatM Unit
  | 0, _ => throw .diverge
  | fuel + 1, chainCluster => do
    let lba ← clusterToLba v chainCluster
    if ← deleteInSectors lba name (List.range v.sectorsPerCluster) then pure ()
    else do
      let next ← nextCluster v chainCluster
      if next < 2 ∨ eocThreshold ≤ next then throw (.err .notFound)
      else deleteDirEntryLoop v name fuel next

def deleteDirEntry (v : FatFs) (parentCluster : Nat) (name : Str) : FatM Unit :=
  deleteDirEntryLoop v name chainFuel parentCluster

/-! The public mutations. -/

def splitParent (abs : Str) : FatM (Str × Str) :=
  let trimmed := trimEnd abs
  if trimmed = [] then throw (.err .io)
  else
    match rfind slash trimmed with
    | none => throw (.err .io)
    | some idx =>
      let parent := if idx = 0 then [slash] else trimmed.take idx
      let name := trimmed.drop (idx + 1)
      if name = [] then throw (.err .io) else pure (parent, name)

/-- Common start of the creating calls: the parent directory's cluster and the name. -/
def openParent (v : FatFs) (abs : Str) : FatM (Str × Nat × Str) := do
  let (parent, name) ← splitParent abs
  if ← isDir v parent then do
    let parentCluster ← clusterFor v parent
    pure (parent, parentCluster, name)
  else throw (.err .notADir)

def truncateFile (v : FatFs) (parentCluster : Nat) (name : Str) : FatM Unit := do
  match ← findInDir v parentCluster name with
  | none => throw (.err .notFound)
  | some entry =>
    if entry.isDir then throw (.err .isADir)
    else do
      if 2 ≤ entry.cluster then freeChain v entry.cluster else pure ()
      deleteDirEntry v parentCluster name
      addDirEntry v parentCluster name 0x20 0 0

def createFile (v : FatFs) (abs : Str) : FatM Unit := do
  let (_, parentCluster, name) ← openParent v abs
  match ← findInDir v parentCluster name with
  | some _ => truncateFile v parentCluster name
  | none => addDirEntry v parentCluster name 0 0 0

def discardOld (v : FatFs) (parentCluster : Nat) (name : Str) : FatM Unit := do
  match ← findInDir v parentCluster name with
  | none => pure ()
  | some old =>
    if old.isDir then throw (.err .isADir)
    else do
      if 2 ≤ old.cluster then freeChain v old.cluster else pure ()
      deleteDirEntry v parentCluster name

/-- `data.len().div_ceil(cluster_bytes) as u32`. -/
def clustersFor (v : FatFs) (len : Nat) : Nat :=
  (len + clusterBytes v - 1) / clusterBytes v % 2 ^ 32

def storeData (v : FatFs) (data : Bytes) : FatM Nat :=
  if data = [] then pure 0
  else do
    let head ← allocateChain v (clustersFor v data.length)
    writeChain v head data
    pure head

def writeFile (v : FatFs) (abs : Str) (data : Bytes) : FatM Unit := do
  let (_, parentCluster, name) ← openParent v abs
  discardOld v parentCluster name
  let firstCluster ← storeData v data
  addDirEntry v parentCluster name 0x20 firstCluster (data.length % 2 ^ 32)

def appendFile (v : FatFs) (abs : Str) (data : Bytes) : FatM Unit := do
  match ← attempt (readFile v abs) with
  | .ok existing => writeFile v abs (existing ++ data)
  | .error .notFound => writeFile v abs data
  | .error e => throw (.err e)

def createDir (v : FatFs) (abs : Str) : FatM Unit := do
  let (parent, parentCluster, name) ← openParent v abs
  match ← findInDir v parentCluster name with
  | some _ => throw (.err .io)
  | none => do
    let cluster ← allocateChain v 1
    let parentForDotdot := if parent = [slash] then 0 else parentCluster
    let dots := writeShortEntry [dot] attrDirectory cluster 0 ++
      writeShortEntry [dot, dot] attrDirectory parentForDotdot 0
    writeCluster v cluster (dots ++ List.replicate (clusterBytes v - dots.length) 0)
    addDirEntry v parentCluster name attrDirectory cluster 0

def remove (v : FatFs) (abs : Str) : FatM Unit := do
  let (parent, name) ← splitParent abs
  let parentCluster ← clusterFor v parent
  match ← findInDir v parentCluster name with
  | none => throw (.err .notFound)
  | some entry => do
    if entry.isDir then do
      let kids ← readDir v entry.cluster
      if kids ≠ [] then throw (.err .io) else pure ()
    else pure ()
    if 2 ≤ entry.cluster then freeChain v entry.cluster else pure ()
    deleteDirEntry v parentCluster name

def apply (v : FatFs) (abs : Str) : TreeStore.Mutation UInt8 → FatM Unit
  | .createFile => createFile v abs
  | .writeFile data => writeFile v abs data
  | .appendFile data => appendFile v abs data
  | .createDir => createDir v abs
  | .remove => remove v abs

end Willo.Fat
