import Willo.BlockDevice

/-! The ATA driver (`ata.rs`) against a drive with a status register. The drive is
the device model that the driver is written for: a command makes it busy for some
status reads; on a healthy sector it then asks for the data and completes without an
error bit, on a bad one it ends with ERR set, and ERR stays until the next byte is
written to the command register. -/

namespace Willo.Ata
open ByteCodec BlockDevice FaultState

inductive BlockError where
  | timeout
  | driveError
  | outOfRange
  deriving DecidableEq

def statusErr : UInt8 := 0x01
def statusDrq : UInt8 := 0x08
def statusDf : UInt8 := 0x20
def statusReady : UInt8 := 0x40
def statusBsy : UInt8 := 0x80

def cmdReadSectors : UInt8 := 0x20
def cmdWriteSectors : UInt8 := 0x30

def pollLimit : Nat := 100000

/-! The drive. -/

def wordsOf : Bytes → List UInt16
  | lo :: hi :: rest => (lo.toUInt16 ||| (hi.toUInt16 <<< 8)) :: wordsOf rest
  | _ => []

def bytesOf (ws : List UInt16) : Bytes :=
  ws.flatMap fun w : UInt16 => [w.toUInt8, (w >>> 8).toUInt8]

theorem length_bytesOf (ws : List UInt16) : (bytesOf ws).length = ws.length * 2 :=
  length_flatMap_of_length fun _ _ => rfl

def sectorWords : Nat := 256

/-- What stays the same about a drive: its size, its bad sectors, and for each command, by its
number, for how many status reads the drive is busy before and after the data and whether a
command on a bad sector fails before the data. -/
structure Drive where
  sectors : Nat
  bad : Nat → Bool
  accessTime : Nat → Nat
  commitTime : Nat → Nat
  failsEarly : Nat → Bool
  sectors_le : sectors ≤ 2 ^ 28
  accessTime_lt : ∀ n, accessTime n < pollLimit
  commitTime_lt : ∀ n, commitTime n < pollLimit

/-- What the drive does once it is no longer busy. -/
inductive Phase where
  | idle
  | failed
  | sending (rest : List UInt16)
  | taking (lba : Nat) (got : List UInt16)
  deriving DecidableEq

structure Device where
  busy : Nat
  phase : Phase
  driveHead : UInt8
  sectorCount : UInt8
  lbaLo : UInt8
  lbaMid : UInt8
  lbaHi : UInt8
  commands : Nat
  block : Nat → Block

def Phase.status : Phase → UInt8
  | .idle => statusReady
  | .failed => statusReady ||| statusErr
  | .sending _ => statusReady ||| statusDrq
  | .taking _ _ => statusReady ||| statusDrq

def Device.lba (d : Device) : Nat :=
  (d.driveHead &&& 0x0F).toNat * 2 ^ 24 + d.lbaHi.toNat * 2 ^ 16 + d.lbaMid.toNat * 2 ^
    8 + d.lbaLo.toNat

def Device.addressed (D : Drive) (d : Device) : Bool :=
  d.driveHead &&& 0xF0 == 0xF0 && d.sectorCount == 1 && d.lba < D.sectors

def Device.command (D : Drive) (d : Device) (c : UInt8) : Device :=
  let phase :=
    if d.addressed D = false then Phase.failed
    else if c = cmdReadSectors then
      if D.bad d.lba then .failed else .sending (wordsOf (d.block d.lba).1)
    else if c = cmdWriteSectors then
      if D.bad d.lba && D.failsEarly d.commands then .failed else .taking d.lba []
    else .failed
  { d with busy := D.accessTime d.commands, phase := phase, commands := d.commands + 1 }

def Device.commit (D : Drive) (d : Device) (lba : Nat) (b : Block) : Device :=
  if D.bad lba then { d with busy := D.commitTime d.commands, phase := .failed }
  else
    { d with
      busy := D.commitTime d.commands, phase := .idle, block := Function.update d.block lba b }

def sendingPhase (ws : List UInt16) : Phase := if ws = [] then .idle else .sending ws

abbrev AtaM (α : Type) := ExceptT BlockError (StateM Device) α

def readStatus : AtaM UInt8 := do
  let d ← get
  if 0 < d.busy then do
    set { d with busy := d.busy - 1 }
    pure statusBsy
  else pure d.phase.status

def writeCommand (D : Drive) (c : UInt8) : AtaM Unit := modify fun d => d.command D c

/-- A word read while none is offered is whatever is on the bus. -/
def readData : AtaM UInt16 := do
  let d ← get
  match d.phase with
  | .sending (w :: ws) => do
    set { d with phase := sendingPhase ws }
    pure w
  | _ => pure 0xFFFF

def writeData (D : Drive) (w : UInt16) : AtaM Unit :=
  modify fun d =>
    match d.phase with
    | .taking lba got =>
      if h : (got ++ [w]).length = sectorWords then
        d.commit D lba ⟨bytesOf (got ++ [w]), by rw [length_bytesOf, h]; rfl⟩
      else { d with phase := .taking lba (got ++ [w]) }
    | _ => d

/-- The ports that the driver reads and writes. What is attached to them may be this drive. -/
structure Ports where
  readStatus : AtaM UInt8
  readData : AtaM UInt16
  writeData : UInt16 → AtaM Unit
  writeCommand : UInt8 → AtaM Unit

def Drive.ports (D : Drive) : Ports :=
  ⟨Ata.readStatus, Ata.readData, Ata.writeData D, Ata.writeCommand D⟩

/-! The driver. -/

def delay400ns (p : Ports) : AtaM Unit := do
  let _ ← p.readStatus
  let _ ← p.readStatus
  let _ ← p.readStatus
  let _ ← p.readStatus
  pure ()

def poll (p : Ports) (verdict : UInt8 → Option (Except BlockError Unit)) : Nat → AtaM Unit
  | 0 => throw .timeout
  | n + 1 => do
    let s ← p.readStatus
    match verdict s with
    | some (.ok _) => pure ()
    | some (.error e) => throw e
    | none => poll p verdict n

def notBusyVerdict (s : UInt8) : Option (Except BlockError Unit) :=
  if s &&& statusBsy = 0 then
    if s &&& statusErr ≠ 0 ∨ s &&& statusDf ≠ 0 then some (.error .driveError) else some (.ok ())
  else none

def waitNotBusy (p : Ports) : AtaM Unit := poll p notBusyVerdict pollLimit

def drqVerdict (s : UInt8) : Option (Except BlockError Unit) :=
  if s &&& statusBsy ≠ 0 then none
  else if s &&& statusErr ≠ 0 ∨ s &&& statusDf ≠ 0 then some (.error .driveError)
  else if s &&& statusDrq ≠ 0 then some (.ok ())
  else none

def waitDrq (p : Ports) : AtaM Unit := poll p drqVerdict pollLimit

/-- `lba as u8` and the like keep the low bits. -/
def selectLba28 (p : Ports) (lba : Nat) (count : UInt8) : AtaM Unit := do
  modify fun d => { d with driveHead := 0xF0 ||| (UInt8.ofNat (lba / 2 ^ 24) &&& 0x0F) }
  delay400ns p
  modify fun d =>
    { d with
      sectorCount := count
      lbaLo := UInt8.ofNat lba
      lbaMid := UInt8.ofNat (lba / 2 ^ 8)
      lbaHi := UInt8.ofNat (lba / 2 ^ 16) }

def readWords (p : Ports) : Nat → AtaM Bytes
  | 0 => pure []
  | n + 1 => do
    let word ← p.readData
    let rest ← readWords p n
    pure (word.toUInt8 :: (word >>> 8).toUInt8 :: rest)

def writeWords (p : Ports) : Bytes → AtaM Unit
  | lo :: hi :: rest => do
    p.writeData (lo.toUInt16 ||| (hi.toUInt16 <<< 8))
    writeWords p rest
  | _ => pure ()

/-- The number of bytes, and the caller's buffer after the call, for a drive known to have so many
sectors. -/
def readBlock (p : Ports) (sectors lba : Nat) (buf : Bytes) : AtaM (Nat × Bytes) :=
  if sectors ≤ lba then throw .outOfRange
  else if buf.length < blockSize then throw .outOfRange
  else do
    waitNotBusy p
    selectLba28 p lba 1
    p.writeCommand cmdReadSectors
    delay400ns p
    waitDrq p
    let data ← readWords p sectorWords
    pure (blockSize, data ++ buf.drop blockSize)

def writeBlock (p : Ports) (sectors lba : Nat) (buf : Bytes) : AtaM Nat :=
  if sectors ≤ lba then throw .outOfRange
  else if buf.length < blockSize then throw .outOfRange
  else do
    waitNotBusy p
    selectLba28 p lba 1
    p.writeCommand cmdWriteSectors
    delay400ns p
    waitDrq p
    writeWords p (buf.take blockSize)
    waitNotBusy p
    pure blockSize

end Willo.Ata
