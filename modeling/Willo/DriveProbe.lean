import Willo.ClientRuns
import Willo.DiskErrors

/-! Finding the data disk (`identify` and `init` of `ata.rs`), whatever is attached as
the primary slave, and the driver's calls after it. On a disk without bad sectors they
are those of the block device that the FAT driver is written on; without a disk the
driver has no sectors, and refuses every one. -/

namespace Willo.DriveProbe
open ByteCodec BlockDevice FaultState Ata ClientRuns Paths

def cmdIdentify : UInt8 := 0xEC

/-- With nothing attached every register reads what is on the bus. A packet device aborts
IDENTIFY, or only leaves its signature. A disk answers with its size and some other words. -/
inductive Attached where
  | nothing (level : UInt8)
  | packet (aborts : Bool) (busy : Nat)
  | disk (D : Drive) (word : Nat → UInt16)

def identityWord (D : Drive) (word : Nat → UInt16) (i : Nat) : UInt16 :=
  if i = 60 then UInt16.ofNat D.sectors
  else if i = 61 then UInt16.ofNat (D.sectors / 2 ^ 16)
  else word i

/-- A byte written to the command register. IDENTIFY is for the selected device; a busy disk
ignores what it is told. -/
def Attached.command (d : Device) (c : UInt8) : Attached → Device
  | .nothing _ => d
  | .packet aborts busy =>
    { d with
      busy := busy
      phase := if aborts then .failed else .idle
      lbaMid := 0x14
      lbaHi := 0xEB
      commands := d.commands + 1 }
  | .disk D word =>
    if 0 < d.busy then d
    else if c = cmdIdentify then
      if d.driveHead &&& 0x10 = 0x10 then
        { d with
          busy := D.accessTime d.commands
          phase := .sending ((List.range' 0 256).map (identityWord D word))
          commands := d.commands + 1 }
      else d
    else d.command D c

/-! The ports. -/

def readStatus : Attached → AtaM UInt8
  | .nothing level => pure level
  | _ => Ata.readStatus

def readLbaMid : Attached → AtaM UInt8
  | .nothing level => pure level
  | _ => do return (← get).lbaMid

def readLbaHi : Attached → AtaM UInt8
  | .nothing level => pure level
  | _ => do return (← get).lbaHi

def readData : Attached → AtaM UInt16
  | .nothing level => pure (level.toUInt16 ||| (level.toUInt16 <<< 8))
  | _ => Ata.readData

def writeData (a : Attached) (w : UInt16) : AtaM Unit :=
  match a with
  | .disk D _ => Ata.writeData D w
  | _ => pure ()

def writeCommand (a : Attached) (c : UInt8) : AtaM Unit := modify fun d => a.command d c

def Attached.ports (a : Attached) : Ports := ⟨readStatus a, readData a, writeData a, writeCommand a⟩

/-! The driver. -/

/-- The rest of the answer to IDENTIFY, from word `i` on: words 60 and 61 are kept. -/
def readIdentity (a : Attached) : Nat → Nat → UInt16 → UInt16 → AtaM (UInt16 × UInt16)
  | 0, _, sectorsLo, sectorsHi => pure (sectorsLo, sectorsHi)
  | n + 1, i, sectorsLo, sectorsHi => do
    let w ← readData a
    if i = 60 then readIdentity a n (i + 1) w sectorsHi
    else if i = 61 then readIdentity a n (i + 1) sectorsLo w
    else readIdentity a n (i + 1) sectorsLo sectorsHi

def identifyInner (a : Attached) : AtaM UInt32 := do
  modify fun d => { d with driveHead := 0xB0 }
  delay400ns a.ports
  modify fun d => { d with sectorCount := 0, lbaLo := 0, lbaMid := 0, lbaHi := 0 }
  writeCommand a cmdIdentify
  delay400ns a.ports
  let s ← readStatus a
  if s = 0 then throw .driveError
  else do
    waitNotBusy a.ports
    let mid ← readLbaMid a
    let hi ← readLbaHi a
    if mid ≠ 0 ∨ hi ≠ 0 then throw .driveError
    else do
      waitDrq a.ports
      let (sectorsLo, sectorsHi) ← readIdentity a 256 0 0 0
      pure (sectorsLo.toUInt32 ||| (sectorsHi.toUInt32 <<< 16))

structure Machine where
  initialised : Bool
  sectors : UInt32
  device : Device

abbrev MachineM (α : Type) := ExceptT BlockError (StateM Machine) α

def onDevice {α : Type} (x : AtaM α) : MachineM α :=
  ExceptT.mk fun m => ((exec x m.device).1, { m with device := (exec x m.device).2 })

def identify (a : Attached) : MachineM Unit := do
  let sectors ← onDevice (identifyInner a)
  modify fun m => { m with sectors := sectors }

def init (a : Attached) : MachineM Unit := do
  let m ← get
  if m.initialised then pure ()
  else do
    identify a
    modify fun m => { m with initialised := true }

def readBlock (a : Attached) (lba : Nat) (buf : Bytes) : MachineM (Nat × Bytes) := do
  let m ← get
  onDevice (Ata.readBlock a.ports m.sectors.toNat lba buf)

def writeBlock (a : Attached) (lba : Nat) (buf : Bytes) : MachineM Nat := do
  let m ← get
  onDevice (Ata.writeBlock a.ports m.sectors.toNat lba buf)

def powerOn (d : Device) : Machine := ⟨false, 0, d⟩

/-! On a disk the ports are those of the drive. -/

section Disks

variable {D : Drive} {word : Nat → UInt16} {d : Device}

theorem command_disk {c : UInt8} (hc : c ≠ cmdIdentify) (h : d.busy = 0) :
    (Attached.disk D word).command d c = d.command D c := by
  rw [Attached.command, if_neg (by omega), if_neg hc]

theorem reaches_disk (D : Drive) (word : Nat → UInt16) :
    Reaches (Attached.disk D word).ports D := by
  refine ⟨rfl, rfl, rfl, fun c hc d h => ?_⟩
  have hne : c ≠ cmdIdentify := by
    rcases hc with rfl | rfl <;> decide
  change exec (writeCommand (.disk D word) c) d = _
  rw [writeCommand, exec_modify, command_disk hne h]

end Disks

/-! IDENTIFY without a disk. -/

section Absent

variable {d : Device}

theorem leaves_readStatus (a : Attached) {I : Device → Prop}
    (hI : ∀ d b, I d → I { d with busy := b }) (h : I d) :
    Leaves (fun _ _ => True) (readStatus a) d fun _ => I := by
  cases a with
  | nothing level => exact h
  | packet aborts busy => exact .of_run (exec_readStatus d) (hI d _ h)
  | disk D word => exact .of_run (exec_readStatus d) (hI d _ h)

theorem leaves_poll (a : Attached) (verdict : UInt8 → Option (Except BlockError Unit)) (n : Nat)
    {I : Device → Prop} (hI : ∀ d b, I d → I { d with busy := b }) (h : I d) :
    Leaves (fun _ _ => True) (poll a.ports verdict n) d fun _ => I := by
  induction n generalizing d with
  | zero => trivial
  | succ n ih =>
    refine .bind (leaves_readStatus a hI h) fun s d' hd' => ?_
    rcases verdict s with _ | e | ⟨⟩
    · exact ih hd'
    · trivial
    · exact hd'

/-- Whatever is on the bus, or in the status of a packet device, there is no size to be had. -/
theorem identifyInner_absent {a : Attached} (ha : ∀ D word, a ≠ .disk D word) (d : Device) :
    Leaves (fun _ _ => True) (identifyInner a) d fun _ _ => False := by
  cases a with
  | disk D word => exact absurd rfl (ha D word)
  | nothing level =>
    change Leaves _ (if level = 0 then _ else _) _ _
    refine .ite (fun _ => trivial) fun hlevel => ?_
    refine .bind (leaves_poll _ _ _ (I := fun _ => True) (fun _ _ _ => trivial) trivial)
      fun _ d' _ => ?_
    change Leaves _ (if level ≠ 0 ∨ level ≠ 0 then _ else _) _ _
    rw [if_pos (Or.inl hlevel)]
    trivial
  | packet aborts busy =>
    rw [identifyInner]
    refine .ok_bind (exec_modify _ _)
      (.ok_bind (exec_delay400ns rfl _) (.ok_bind (exec_modify _ _) (.ok_bind
      (exec_modify _ _) (.ok_bind (exec_delay400ns rfl _)
        (.ok_bind (exec_readStatus _) (.ite (fun _ => trivial) ?_))))))
    intro _
    refine .bind (leaves_poll _ _ _ (I := fun d => d.lbaMid = 0x14) (fun _ _ h => h) rfl)
      fun _ d' hmid => ?_
    change Leaves _ (if d'.lbaMid ≠ 0 ∨ d'.lbaHi ≠ 0 then _ else _) _ _
    rw [if_pos (Or.inl (by rw [hmid]; decide))]
    trivial

end Absent

/-! IDENTIFY on a disk. -/

section Identity

variable {D : Drive} {word : Nat → UInt16} {d : Device}

theorem exec_readIdentity {f : Nat → UInt16} {i n : Nat} {lo hi : UInt16}
    (h : d.phase = sendingPhase ((List.range' i n).map f)) :
    exec (readIdentity (.disk D word) n i lo hi) d =
      (.ok (if i ≤ 60 ∧ 60 < i + n then f 60 else lo, if i ≤ 61 ∧ 61 < i + n then f 61 else hi),
        { d with phase := .idle }) := by
  induction n generalizing i lo hi d with
  | zero =>
    have hidle : d.phase = .idle := h
    rw [readIdentity, exec_pure, if_neg (by omega), if_neg (by omega), ← hidle]
  | succ n ih =>
    rw [List.range'_succ, List.map_cons] at h
    have hrest := fun lo hi =>
      @ih { d with phase := sendingPhase ((List.range' (i + 1) n).map f) } (i + 1) lo hi rfl
    rw [readIdentity]
    refine (exec_bind_ok (exec_readData h)).trans ?_
    by_cases h60 : i = 60
    · subst h60
      have hhi : 61 < 60 + (n + 1) ↔ 0 < n := by omega
      rw [if_pos rfl, hrest]
      simp [hhi]
    · rw [if_neg h60]
      by_cases h61 : i = 61
      · subst h61
        rw [if_pos rfl, hrest]
        simp
      · rw [if_neg h61, hrest]
        have hlo : (i + 1 ≤ 60 ∧ 60 < i + 1 + n) ↔ (i ≤ 60 ∧ 60 < i + (n + 1)) := by omega
        have hhi : (i + 1 ≤ 61 ∧ 61 < i + 1 + n) ↔ (i ≤ 61 ∧ 61 < i + (n + 1)) := by omega
        simp only [hlo, hhi]

theorem sectors_toNat {n : Nat} (h : n ≤ 2 ^ 28) :
    ((UInt16.ofNat n).toUInt32 ||| ((UInt16.ofNat (n / 2 ^ 16)).toUInt32 <<< 16)).toNat = n := by
  have hshift : ((UInt16.ofNat (n / 2 ^ 16)).toUInt32 <<< 16).toNat = 2 ^ 16 * (n / 2 ^ 16) := by
    rw [UInt32.toNat_shiftLeft, UInt16.toNat_toUInt32, Nat.shiftLeft_eq, UInt16.toNat_ofNat']
    have : (16 : UInt32).toNat % 32 = 16 := by decide
    rw [this, Nat.mod_eq_of_lt (a := n / 2 ^ 16) (by omega), Nat.mod_eq_of_lt (by omega),
      Nat.mul_comm]
  rw [UInt32.toNat_or, UInt16.toNat_toUInt32, hshift, UInt16.toNat_ofNat', Nat.or_comm,
    ← Nat.two_pow_add_eq_or_of_lt (Nat.mod_lt _ (by decide))]
  omega

theorem exec_readLbaMid (d : Device) : exec (readLbaMid (.disk D word)) d = (.ok d.lbaMid, d) := rfl

theorem exec_readLbaHi (d : Device) : exec (readLbaHi (.disk D word)) d = (.ok d.lbaHi, d) := rfl

theorem notBusy_sending (ws : List UInt16) :
    notBusyVerdict (Phase.sending ws).status = some (.ok ()) := by
  change notBusyVerdict (statusReady ||| statusDrq) = _
  decide

theorem exec_identifyInner (quiet : d.busy = 0) :
    ∃ n d', exec (identifyInner (.disk D word)) d = (.ok n, d') ∧ n.toNat = D.sectors ∧ AtRest d' ∧
    d'.block = d.block := by
  -- the device once it has taken the command, and with what is left of its delay
  let asked (b : Nat) : Device :=
    { d with
      busy := b
      phase := .sending ((List.range' 0 256).map (identityWord D word))
      driveHead := 0xB0
      sectorCount := 0
      lbaLo := 0
      lbaMid := 0
      lbaHi := 0
      commands := d.commands + 1 }
  have hstatus : (if 0 < D.accessTime d.commands - 4 then statusBsy
    else (asked 0).phase.status) ≠ 0 := by
    have hsending : (asked 0).phase.status = statusReady ||| statusDrq := rfl
    rw [hsending]
    split_ifs <;> decide
  have hports := (reaches_disk D word).status
  have hwait : exec (waitNotBusy (Attached.disk D word).ports)
    (asked (D.accessTime d.commands - 4 - 1)) =
      (.ok (), asked 0) := by
    have htime := D.accessTime_lt d.commands
    exact exec_waitNotBusy (d := asked (D.accessTime d.commands - 4 - 1)) hports (notBusy_sending _)
      (by change _ - 4 - 1 < _; omega)
  have hdrq : exec (waitDrq (Attached.disk D word).ports) (asked 0) = (.ok (), asked 0) :=
    exec_poll (d := asked 0) hports drq_bsy (drq_sending _) (Nat.zero_lt_of_lt (D.accessTime_lt 0))
  have hne : (List.range' 0 256).map (identityWord D word) ≠ [] := by simp
  have hread := @exec_readIdentity D word (asked 0) (identityWord D word) 0 256 0 0
    (if_neg hne).symm
  rw [if_pos (by omega), if_pos (by omega)] at hread
  refine ⟨_, { asked 0 with phase := .idle }, ?_, sectors_toNat D.sectors_le, ⟨rfl, rfl⟩, rfl⟩
  have hcommand : (Attached.disk D word).command
      { d with
        driveHead := 0xB0, busy := d.busy - 4, sectorCount := 0, lbaLo := 0, lbaMid := 0
        lbaHi := 0 } cmdIdentify = asked (D.accessTime d.commands) := by
    rw [Attached.command, if_neg (by dsimp only; omega), if_pos rfl,
      if_pos (show (0xB0 : UInt8) &&& 0x10 = 0x10 by decide)]
  rw [identifyInner, exec_bind_ok (exec_modify _ _), exec_bind_ok (exec_delay400ns hports _),
    exec_bind_ok (exec_modify _ _), writeCommand, exec_bind_ok (exec_modify _ _), hcommand,
    exec_bind_ok (exec_delay400ns hports _)]
  refine (exec_bind_ok (exec_readStatus _)).trans ?_
  rw [if_neg hstatus]
  refine (exec_bind_ok hwait).trans ?_
  refine (exec_bind_ok (exec_readLbaMid _)).trans ((exec_bind_ok (exec_readLbaHi _)).trans ?_)
  have hsigned : ¬((asked 0).lbaMid ≠ 0 ∨ (asked 0).lbaHi ≠ 0) :=
    show ¬((0 : UInt8) ≠ 0 ∨ (0 : UInt8) ≠ 0) by decide
  rw [if_neg hsigned, exec_bind_ok hdrq, exec_bind_ok hread]
  rfl

end Identity

/-! The driver after `init`, and the block device. -/

inductive Request where
  | init
  | numBlocks
  | read (lba : Nat) (buf : Bytes)
  | write (lba : Nat) (buf : Bytes)

/-- What a caller sees: every error of the drive is the same to the FAT driver. -/
abbrev Reply := Except Fault (Nat × Bytes)

def seen {α : Type} (f : α → Nat × Bytes) : Except BlockError α → Reply
  | .ok x => .ok (f x)
  | .error _ => .error (.err .io)

def Request.onDriver (a : Attached) (r : Request) (m : Machine) : Reply × Machine :=
  match r with
  | .init => (seen (fun _ => (0, [])) (exec (DriveProbe.init a) m).1,
    (exec (DriveProbe.init a) m).2)
  | .numBlocks => (.ok (m.sectors.toNat, []), m)
  | .read lba buf => (seen id (exec (readBlock a lba buf) m).1, (exec (readBlock a lba buf) m).2)
  | .write lba buf =>
    (seen (fun n => (n, buf)) (exec (writeBlock a lba buf) m).1, (exec (writeBlock a lba buf) m).2)

def Request.onDisk (present : Bool) (r : Request) (d : Disk) : Reply × Disk :=
  match r with
  | .init => (if present then .ok (0, []) else .error (.err .io), d)
  | .numBlocks => (.ok (d.sectors, []), d)
  | .read lba buf =>
    exec (if buf.length < blockSize then throw (.err .io) else do
      let data ← BlockDevice.readBlock lba
      pure (blockSize, data ++ buf.drop blockSize)) d
  | .write lba buf => exec (do BlockDevice.writeBlock lba buf; pure (blockSize, buf)) d

def Attached.present : Attached → Bool
  | .disk _ _ => true
  | _ => false

def Attached.Healthy (a : Attached) : Prop := ∀ D word, a = .disk D word → ∀ lba, D.bad lba = false

def Attached.volume (d : Device) : Attached → Disk
  | .disk D _ => ⟨D.sectors, d.block⟩
  | _ => ⟨0, d.block⟩

def Serves (a : Attached) (m : Machine) (d : Disk) : Prop :=
  m.sectors.toNat = d.sectors ∧
    match a with
    | .disk D _ => m.initialised = true ∧ AtRest m.device ∧ d = ⟨D.sectors, m.device.block⟩
    | _ => m.initialised = false ∧ d.sectors = 0

section Serving

variable {a : Attached} {D : Drive} {word : Nat → UInt16} {m : Machine} {d : Disk}
    {lba : Nat} {buf : Bytes}

theorem exec_onDevice {α : Type} (x : AtaM α) (m : Machine) :
    exec (onDevice x) m = ((exec x m.device).1, { m with device := (exec x m.device).2 }) := rfl

theorem exec_init_disk (hm : m.initialised = false) (quiet : m.device.busy = 0) :
    ∃ m', exec (init (.disk D word)) m = (.ok (), m') ∧
      Serves (.disk D word) m' ⟨D.sectors, m.device.block⟩ := by
  obtain ⟨n, d', hrun, hn, hrest, hblock⟩ := @exec_identifyInner D word _ quiet
  refine ⟨⟨true, n, d'⟩, ?_, hn, rfl, hrest, by rw [hblock]⟩
  have hidentify : exec (identify (.disk D word)) m =
    (.ok (), { m with sectors := n, device := d' }) := by
    have hdevice : exec (onDevice (identifyInner (.disk D word))) m =
      (.ok n, { m with device := d' }) := by
      rw [exec_onDevice, hrun]
    rw [identify, exec_bind_ok hdevice]
    rfl
  rw [init, exec_get_bind, if_neg (by rw [hm]; exact Bool.false_ne_true), exec_bind_ok hidentify]
  rfl

theorem exec_init_absent (ha : ∀ D word, a ≠ .disk D word) (hm : m.initialised = false) :
    ∃ e d', exec (init a) m = (.error e, { m with device := d' }) := by
  have hrun := identifyInner_absent ha m.device
  unfold Leaves at hrun
  rcases hexec : exec (identifyInner a) m.device with ⟨e | n, d'⟩
  · refine ⟨e, d', ?_⟩
    have hdevice : exec (onDevice (identifyInner a)) m = (.error e, { m with device := d' }) := by
      rw [exec_onDevice, hexec]
    rw [init, exec_get_bind, if_neg (by rw [hm]; exact Bool.false_ne_true)]
    exact exec_bind_error (exec_bind_error hdevice)
  · rw [hexec] at hrun
    exact hrun.elim

theorem exec_readBlock_onDevice (m : Machine) (lba : Nat) (buf : Bytes) :
    exec (readBlock a lba buf) m =
    ((exec (Ata.readBlock a.ports m.sectors.toNat lba buf) m.device).1,
      { m with device := (exec (Ata.readBlock a.ports m.sectors.toNat lba buf) m.device).2 }) := by
  rw [readBlock, exec_get_bind, exec_onDevice]

theorem exec_writeBlock_onDevice (m : Machine) (lba : Nat) (buf : Bytes) :
    exec (writeBlock a lba buf) m =
    ((exec (Ata.writeBlock a.ports m.sectors.toNat lba buf) m.device).1,
      { m with device := (exec (Ata.writeBlock a.ports m.sectors.toNat lba buf) m.device).2 }) := by
  rw [writeBlock, exec_get_bind, exec_onDevice]

theorem exec_readBlock_refused (h : m.sectors.toNat ≤ lba ∨ buf.length < blockSize) :
    exec (readBlock a lba buf) m = (.error .outOfRange, m) := by
  rw [exec_readBlock_onDevice, Ata.readBlock]
  by_cases hlba : m.sectors.toNat ≤ lba
  · rw [if_pos hlba, exec_throw]
  · rw [if_neg hlba, if_pos (h.resolve_left hlba), exec_throw]

theorem exec_writeBlock_refused (h : m.sectors.toNat ≤ lba ∨ buf.length < blockSize) :
    exec (writeBlock a lba buf) m = (.error .outOfRange, m) := by
  rw [exec_writeBlock_onDevice, Ata.writeBlock]
  by_cases hlba : m.sectors.toNat ≤ lba
  · rw [if_pos hlba, exec_throw]
  · rw [if_neg hlba, if_pos (h.resolve_left hlba), exec_throw]

theorem onDisk_read_refused {present : Bool} (h : d.sectors ≤ lba ∨ buf.length < blockSize) :
    (Request.read lba buf).onDisk present d = (.error (.err .io), d) := by
  rw [Request.onDisk]
  by_cases hbuf : buf.length < blockSize
  · rw [if_pos hbuf, exec_throw]
  · rw [if_neg hbuf, exec_bind_error (exec_readBlock_past (Nat.not_lt.mpr (h.resolve_right hbuf)))]

theorem onDisk_write_refused {present : Bool} (h : d.sectors ≤ lba ∨ buf.length < blockSize) :
    (Request.write lba buf).onDisk present d = (.error (.err .io), d) := by
  have hrun : exec (BlockDevice.writeBlock lba buf) d = (.error (.err .io), d) := by
    rw [BlockDevice.writeBlock, exec_get_bind]
    by_cases hlba : lba < d.sectors
    · rw [if_pos hlba, dif_neg (Nat.not_le.mpr (h.resolve_left (by omega))), exec_throw]
    · rw [if_neg hlba, exec_throw]
  rw [Request.onDisk, exec_bind_error hrun]

theorem onDisk_read {present : Bool} (hlba : lba < d.sectors) (hbuf : blockSize ≤ buf.length) :
    (Request.read lba buf).onDisk present d = (.ok ((Call.read lba buf).answer d.block), d) := by
  rw [Request.onDisk, if_neg (by omega), exec_bind_ok (exec_readBlock hlba), exec_pure]
  rfl

theorem onDisk_write {present : Bool} (hlba : lba < d.sectors) (hbuf : blockSize ≤ buf.length) :
    (Request.write lba buf).onDisk present d =
      (.ok ((Call.write lba buf).answer d.block),
      { d with block := (Call.write lba buf).stored d.block }) := by
  have hrun : exec (BlockDevice.writeBlock lba buf) d =
    (.ok (), d.write lba ⟨buf.take blockSize, take_sector hbuf⟩) := by
    rw [BlockDevice.writeBlock, exec_get_bind, if_pos hlba, dif_pos hbuf]
    rfl
  rw [Request.onDisk, exec_bind_ok hrun, exec_pure, stored_write hbuf]
  rfl

theorem present_absent (ha : ∀ D word, a ≠ .disk D word) : a.present = false := by
  cases a <;> first | rfl | exact absurd rfl (ha _ _)

theorem serves_absent (ha : ∀ D word, a ≠ .disk D word) (r : Request) (h : Serves a m d) :
    (r.onDriver a m).1 = (r.onDisk a.present d).1 ∧
    Serves a (r.onDriver a m).2 (r.onDisk a.present d).2 := by
  have hpresent := present_absent ha
  have hkeeps : ∀ d', Serves a m d → Serves a { m with device := d' } d := by
    cases a <;> first | exact fun _ h => h | exact absurd rfl (ha _ _)
  have hnone : m.initialised = false ∧ d.sectors = 0 := by
    cases a <;> first | exact h.2 | exact absurd rfl (ha _ _)
  have hm : m.sectors.toNat = 0 := h.1.trans hnone.2
  cases r with
  | init =>
    obtain ⟨e, d', hrun⟩ := exec_init_absent ha hnone.1
    rw [Request.onDriver, hrun, Request.onDisk, hpresent]
    exact ⟨rfl, hkeeps d' h⟩
  | numBlocks => exact ⟨by rw [Request.onDriver, Request.onDisk, h.1], h⟩
  | read lba buf =>
    rw [Request.onDriver, exec_readBlock_refused (Or.inl (by omega)),
      onDisk_read_refused (Or.inl (by omega))]
    exact ⟨rfl, h⟩
  | write lba buf =>
    rw [Request.onDriver, exec_writeBlock_refused (Or.inl (by omega)),
      onDisk_write_refused (Or.inl (by omega))]
    exact ⟨rfl, h⟩

theorem serves_disk (hgood : ∀ lba, D.bad lba = false) (r : Request)
    (h : Serves (.disk D word) m d) :
    (r.onDriver (.disk D word) m).1 = (r.onDisk true d).1 ∧
      Serves (.disk D word) (r.onDriver (.disk D word) m).2 (r.onDisk true d).2 := by
  obtain ⟨hs, hinit, hrest, rfl⟩ := h
  have hsectors : m.sectors.toNat = D.sectors := hs
  cases r with
  | init =>
    have hrun : exec (init (.disk D word)) m = (.ok (), m) := by
      rw [init, exec_get_bind, if_pos hinit, exec_pure]
    rw [Request.onDriver, hrun]
    exact ⟨rfl, hs, hinit, hrest, rfl⟩
  | numBlocks => exact ⟨by rw [Request.onDriver, Request.onDisk, hs], hs, hinit, hrest, rfl⟩
  | read lba buf =>
    by_cases hv : lba < D.sectors ∧ blockSize ≤ buf.length
    · obtain ⟨hlba, hbuf⟩ := hv
      have hvalid : Call.Valid D (.read lba buf) := ⟨hlba, hbuf⟩
      obtain ⟨d', hrun, hrest', hblock⟩ :=
        runOn_healthy (reaches_disk D word) hrest hvalid (hgood lba)
      rw [Call.runOn] at hrun
      rw [Request.onDriver, exec_readBlock_onDevice, hsectors, hrun, onDisk_read hlba hbuf]
      exact ⟨rfl, hs, hinit, hrest', by rw [hblock]; rfl⟩
    · rw [Request.onDriver, exec_readBlock_refused (by omega),
        onDisk_read_refused (by dsimp only; omega)]
      exact ⟨rfl, hs, hinit, hrest, rfl⟩
  | write lba buf =>
    by_cases hv : lba < D.sectors ∧ blockSize ≤ buf.length
    · obtain ⟨hlba, hbuf⟩ := hv
      have hvalid : Call.Valid D (.write lba buf) := ⟨hlba, hbuf⟩
      obtain ⟨d', hrun, hrest', hblock⟩ :=
        runOn_healthy (reaches_disk D word) hrest hvalid (hgood lba)
      have hwrite : exec (Ata.writeBlock (Attached.disk D word).ports D.sectors lba buf) m.device =
        (.ok blockSize, d') := by
        rw [Call.runOn, exec_bind] at hrun
        rcases hexec : exec (Ata.writeBlock (Attached.disk D word).ports D.sectors lba buf)
          m.device with ⟨e | n, d''⟩
        · rw [hexec] at hrun
          cases hrun
        · rw [hexec] at hrun
          cases hrun
          rfl
      rw [Request.onDriver, exec_writeBlock_onDevice, hsectors, hwrite, onDisk_write hlba hbuf]
      exact ⟨rfl, hs, hinit, hrest', by rw [hblock]⟩
    · rw [Request.onDriver, exec_writeBlock_refused (by omega),
        onDisk_write_refused (by dsimp only; omega)]
      exact ⟨rfl, hs, hinit, hrest, rfl⟩

theorem serves_simulates (healthy : a.Healthy) :
    Simulates (Serves a) (Request.onDriver a) (Request.onDisk a.present) := by
  intro r m d h
  by_cases ha : ∃ D word, a = .disk D word
  · obtain ⟨D, word, rfl⟩ := ha
    exact serves_disk (healthy D word rfl) r h
  · exact serves_absent (fun D word h => ha ⟨D, word, h⟩) r h

end Serving

theorem init_finds (a : Attached) {d : Device} (quiet : d.busy = 0) :
    ((exec (init a) (powerOn d)).1 = .ok () ↔ a.present = true) ∧
    Serves a (exec (init a) (powerOn d)).2 (a.volume d) := by
  by_cases ha : ∃ D word, a = .disk D word
  · obtain ⟨D, word, rfl⟩ := ha
    obtain ⟨m, hrun, hserves⟩ := @exec_init_disk D word (powerOn d) rfl quiet
    rw [hrun]
    exact ⟨iff_of_true rfl rfl, hserves⟩
  · have ha : ∀ D word, a ≠ .disk D word := fun D word h => ha ⟨D, word, h⟩
    obtain ⟨e, d', hrun⟩ := exec_init_absent ha (m := powerOn d) rfl
    rw [hrun, present_absent ha]
    refine ⟨iff_of_false nofun Bool.false_ne_true, ?_⟩
    cases a <;> first | exact ⟨rfl, rfl, rfl⟩ | exact absurd rfl (ha _ _)

/-- `init` finds a disk exactly if one is attached, good or bad. After it no caller, choosing its
calls by the answers before them, can tell the driver on a disk without bad sectors from the block
device with the blocks that were on the disk, or the driver without a disk from a device without
blocks: later `init`s, reads and writes past the end and short buffers among the calls. -/
theorem init_serves (a : Attached) {d : Device} (quiet : d.busy = 0) :
    ((exec (init a) (powerOn d)).1 = .ok () ↔ a.present = true) ∧
    (a.Healthy → ∀ (caller : List Reply → Request) (n : Nat),
      (talk (Request.onDriver a) caller n [] (exec (init a) (powerOn d)).2).1 =
        (talk (Request.onDisk a.present) caller n [] (a.volume d)).1) := by
  obtain ⟨hfinds, hserves⟩ := init_finds a quiet
  exact ⟨hfinds, fun healthy caller n => ((serves_simulates healthy).talk caller n [] hserves).1⟩

def plainDrive : Drive := { scratchedDrive with bad := fun _ => false }

/-- A second `init` and the size, asked of a disk that an earlier command left with an error. -/
theorem init_serves_plainDrive :
    (talk (Request.onDriver (.disk plainDrive fun _ => 0)) (fun got => if got = [] then .init
      else .numBlocks) 2 []
      (exec (init (.disk plainDrive fun _ => 0))
      (powerOn { freshDevice with phase := .failed })).2).1 =
    [.ok (0, []), .ok (4, [])] := by
  have healthy : Attached.Healthy (.disk plainDrive fun _ => 0) := by
    rintro D word h lba
    cases h
    rfl
  exact (init_serves _ (d := { freshDevice with phase := .failed }) rfl).2 healthy _ 2

end Willo.DriveProbe
