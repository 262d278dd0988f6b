import Willo.AtaDriver

/-! Runs of the ATA driver's calls on a drive with bad sectors. A call that meets a bad
sector leaves ERR behind, and the next call looks at the status before it writes its
command: it ends on the old error, and so does every call after it. -/

namespace Willo.Ata
open ByteCodec BlockDevice FaultState

def AtRest (d : Device) : Prop := d.busy = 0 ∧ d.phase = .idle

/-- The state that a failed command leaves. -/
def Poisoned (d : Device) : Prop := d.busy = 0 ∧ d.phase = .failed

/-! Words and bytes. -/

section Words

theorem word_toNat (lo hi : UInt8) :
    (lo.toUInt16 ||| (hi.toUInt16 <<< 8)).toNat = hi.toNat * 2 ^ 8 + lo.toNat := by
  have hlo := lo.toNat_lt
  have hhi := hi.toNat_lt
  have hshift : (hi.toUInt16 <<< 8).toNat = 2 ^ 8 * hi.toNat := by
    rw [UInt16.toNat_shiftLeft, UInt8.toNat_toUInt16, Nat.shiftLeft_eq]
    have : (8 : UInt16).toNat % 16 = 8 := by decide
    rw [this, Nat.mod_eq_of_lt (by omega), Nat.mul_comm]
  rw [UInt16.toNat_or, UInt8.toNat_toUInt16, hshift, Nat.or_comm, ← Nat.two_pow_add_eq_or_of_lt hlo,
    Nat.mul_comm]

theorem word_low (lo hi : UInt8) : (lo.toUInt16 ||| (hi.toUInt16 <<< 8)).toUInt8 = lo := by
  apply UInt8.toNat_inj.mp
  have hlo := lo.toNat_lt
  rw [UInt16.toNat_toUInt8, word_toNat]
  omega

theorem word_high (lo hi : UInt8) : ((lo.toUInt16 ||| (hi.toUInt16 <<< 8)) >>> 8).toUInt8 = hi := by
  apply UInt8.toNat_inj.mp
  have hlo := lo.toNat_lt
  have hhi := hi.toNat_lt
  have hshift : (8 : UInt16).toNat % 16 = 8 := by decide
  rw [UInt16.toNat_toUInt8, UInt16.toNat_shiftRight, word_toNat, hshift, Nat.shiftRight_eq_div_pow]
  omega

theorem bytesOf_append (ws : List UInt16) (w : UInt16) :
    bytesOf (ws ++ [w]) = bytesOf ws ++ [w.toUInt8, (w >>> 8).toUInt8] := by
  rw [bytesOf, List.flatMap_append]
  rfl

theorem bytesOf_cons (w : UInt16) (ws : List UInt16) :
    bytesOf (w :: ws) = w.toUInt8 :: (w >>> 8).toUInt8 :: bytesOf ws :=
  rfl

theorem length_wordsOf (b : Bytes) : (wordsOf b).length = b.length / 2 := by
  fun_induction wordsOf b with
  | case1 lo hi rest ih =>
    rw [List.length_cons, List.length_cons, List.length_cons, ih]
    omega
  | case2 b hb =>
    rcases b with _ | ⟨lo, _ | ⟨hi, rest⟩⟩
    · rfl
    · simp
    · exact absurd rfl (hb lo hi rest)

theorem bytesOf_wordsOf (b : Bytes) (h : b.length % 2 = 0) : bytesOf (wordsOf b) = b := by
  fun_induction wordsOf b with
  | case1 lo hi rest ih =>
    have hrest : rest.length % 2 = 0 := by
      rw [List.length_cons, List.length_cons] at h
      omega
    rw [bytesOf_cons, word_low, word_high, ih hrest]
  | case2 b hb =>
    rcases b with _ | ⟨lo, _ | ⟨hi, rest⟩⟩
    · rfl
    · cases h
    · exact absurd rfl (hb lo hi rest)

theorem wordsOf_sector (b : Block) :
    (wordsOf b.1).length = sectorWords ∧ bytesOf (wordsOf b.1) = b.1 := by
  have hlen := b.2
  exact ⟨by rw [length_wordsOf, hlen]; rfl, bytesOf_wordsOf b.1 (by rw [hlen]; rfl)⟩

end Words

/-! Polling. -/

section Status

variable {p : Ports} {d : Device} {verdict : UInt8 → Option (Except BlockError Unit)}
    {r : Except BlockError Unit} {n : Nat}

theorem exec_readStatus (d : Device) : exec readStatus d =
    (.ok (if 0 < d.busy then statusBsy else d.phase.status), { d with busy := d.busy - 1 }) := by
  rw [readStatus, exec_get_bind]
  by_cases h : 0 < d.busy
  · rw [if_pos h, if_pos h]
    rfl
  · obtain hzero : d.busy = 0 := Nat.eq_zero_of_not_pos h
    rw [if_neg h, if_neg h, exec_pure, hzero, Nat.zero_sub, ← hzero]

theorem exec_delay400ns (hp : p.readStatus = readStatus) (d : Device) :
    exec (delay400ns p) d = (.ok (), { d with busy := d.busy - 4 }) := by
  simp only [delay400ns, hp, exec_bind_ok (exec_readStatus _), exec_pure, Nat.sub_sub]

theorem exec_poll (hp : p.readStatus = readStatus) (hbusy : verdict statusBsy = none)
    (hr : verdict d.phase.status = some r) (h : d.busy < n) :
    exec (poll p verdict n) d = (r, { d with busy := 0 }) := by
  induction n generalizing d with
  | zero => exact absurd h (Nat.not_lt_zero _)
  | succ n ih =>
    rw [poll, hp, exec_bind_ok (exec_readStatus d)]
    by_cases hpos : 0 < d.busy
    · rw [if_pos hpos, hbusy]
      exact ih (d := { d with busy := d.busy - 1 }) hr (by dsimp only; omega)
    · obtain hzero : d.busy = 0 := Nat.eq_zero_of_not_pos hpos
      rw [if_neg hpos, hr, hzero]
      rcases r with e | ⟨⟩ <;> rfl

end Status

/-! The registers. -/

section Registers

variable {p : Ports} {D : Drive} {d : Device} {lba n : Nat} {c : UInt8}

theorem UInt8_or_and (a b c : UInt8) : (a ||| b) &&& c = (a &&& c) ||| (b &&& c) := by
  apply UInt8.toNat_inj.mp
  simp only [UInt8.toNat_and, UInt8.toNat_or, Nat.and_or_distrib_right]

theorem driveHead_low (x : UInt8) : (0xF0 ||| (x &&& 0x0F)) &&& 0x0F = x &&& 0x0F := by
  have hlow : (0xF0 : UInt8) &&& 0x0F = 0 := by decide
  rw [UInt8_or_and, UInt8.and_assoc, UInt8.and_self, hlow, UInt8.zero_or]

theorem driveHead_high (x : UInt8) : (0xF0 ||| (x &&& 0x0F)) &&& 0xF0 = 0xF0 := by
  have hlow : (0x0F : UInt8) &&& 0xF0 = 0 := by decide
  rw [UInt8_or_and, UInt8.and_assoc, UInt8.and_self, hlow, UInt8.and_zero, UInt8.or_zero]

theorem and_low_toNat (x : UInt8) : (x &&& 0x0F).toNat = x.toNat % 16 := by
  rw [UInt8.toNat_and, show (0x0F : UInt8).toNat = 2 ^ 4 - 1 from rfl,
    Nat.and_two_pow_sub_one_eq_mod]

def Device.selected (d : Device) (lba : Nat) (count : UInt8) : Device :=
  { d with
    driveHead := 0xF0 ||| (UInt8.ofNat (lba / 2 ^ 24) &&& 0x0F)
    sectorCount := count
    lbaLo := UInt8.ofNat lba
    lbaMid := UInt8.ofNat (lba / 2 ^ 8)
    lbaHi := UInt8.ofNat (lba / 2 ^ 16) }

def Device.answered (D : Drive) (d : Device) (lba : Nat) (c : UInt8) : Device :=
  { (d.selected lba 1).command D c with busy := 0 }

theorem exec_modify (g : Device → Device) (d : Device) :
    exec (modify g : AtaM Unit) d = (.ok (), g d) := rfl

theorem exec_selectLba28 (hp : p.readStatus = readStatus) (d : Device) (lba : Nat) (count : UInt8) :
    exec (selectLba28 p lba count) d =
      (.ok (), { d.selected lba count with busy := d.busy - 4 }) := by
  rw [selectLba28, exec_bind_ok (exec_modify _ d), exec_bind_ok (exec_delay400ns hp _), exec_modify]
  rfl

theorem lba_selected (h : lba < 2 ^ 28) (count : UInt8) : (d.selected lba count).lba = lba := by
  unfold Device.selected Device.lba
  dsimp only
  rw [driveHead_low, and_low_toNat]
  simp only [UInt8.toNat_ofNat']
  omega

theorem addressed_selected (h : lba < D.sectors) : (d.selected lba 1).addressed D = true := by
  have hlba := lba_selected (d := d) (Nat.lt_of_lt_of_le h D.sectors_le) 1
  rw [Device.addressed, hlba]
  unfold Device.selected
  dsimp only
  rw [driveHead_high]
  simp [h]

theorem phase_read (h : lba < D.sectors) : (d.answered D lba cmdReadSectors).phase =
    if D.bad lba then .failed else .sending (wordsOf (d.block lba).1) := by
  have hlba := lba_selected (d := d) (Nat.lt_of_lt_of_le h D.sectors_le) 1
  rw [Device.answered, Device.command, addressed_selected h, hlba]
  rfl

theorem phase_write (h : lba < D.sectors) : (d.answered D lba cmdWriteSectors).phase =
    if D.bad lba && D.failsEarly d.commands then .failed else .taking lba [] := by
  have hlba := lba_selected (d := d) (Nat.lt_of_lt_of_le h D.sectors_le) 1
  rw [Device.answered, Device.command, addressed_selected h, hlba]
  rfl

/-! The data. -/

theorem exec_readData {w : UInt16} {ws : List UInt16} (h : d.phase = sendingPhase (w :: ws)) :
    exec readData d = (.ok w, { d with phase := sendingPhase ws }) := by
  have h : d.phase = .sending (w :: ws) := h.trans (if_neg (List.cons_ne_nil w ws))
  rw [readData, exec_get_bind, h]
  rfl

theorem exec_readWords (hp : p.readData = readData) {ws : List UInt16}
    (h : d.phase = sendingPhase ws) :
    exec (readWords p ws.length) d = (.ok (bytesOf ws), { d with phase := .idle }) := by
  induction ws generalizing d with
  | nil =>
    have h : d.phase = .idle := h
    rw [List.length_nil, readWords, exec_pure, ← h]
    rfl
  | cons w ws ih =>
    have hrest := ih (d := { d with phase := sendingPhase ws }) rfl
    rw [List.length_cons, readWords, hp, exec_bind_ok (exec_readData h), exec_bind_ok hrest,
      exec_pure, bytesOf_cons]

theorem exec_writeData_more {w : UInt16} {got : List UInt16} (hphase : d.phase = .taking lba got)
    (h : (got ++ [w]).length ≠ sectorWords) :
    exec (writeData D w) d = (.ok (), { d with phase := .taking lba (got ++ [w]) }) := by
  rw [writeData, exec_modify, hphase]
  dsimp only
  rw [dif_neg h]

theorem exec_writeData_last {w : UInt16} {got : List UInt16} (hphase : d.phase = .taking lba got)
    (h : (got ++ [w]).length = sectorWords) {full : Block} (hfull : full.1 = bytesOf (got ++ [w])) :
    exec (writeData D w) d = (.ok (), d.commit D lba full) := by
  rw [writeData, exec_modify, hphase]
  dsimp only
  rw [dif_pos h]
  exact congrArg (fun b => (Except.ok (), d.commit D lba b)) (Subtype.ext hfull.symm)

theorem exec_readSector (hp : p.readData = readData) {b : Block}
    (h : d.phase = .sending (wordsOf b.1)) :
    exec (readWords p sectorWords) d = (.ok b.1, { d with phase := .idle }) := by
  have hsector := wordsOf_sector b
  have hne : wordsOf b.1 ≠ [] := by
    intro hnil
    have hlen := hsector.1
    rw [hnil] at hlen
    cases hlen
  have hwords := exec_readWords hp (h.trans (if_neg hne).symm)
  rwa [hsector.1, hsector.2] at hwords

theorem commit_good {b : Block} (h : D.bad lba = false) :
    d.commit D lba b =
      { d with
        busy := D.commitTime d.commands, phase := .idle
        block := Function.update d.block lba b } := by
  rw [Device.commit, h]
  rfl

theorem commit_bad {b : Block} (h : D.bad lba = true) :
    d.commit D lba b = { d with busy := D.commitTime d.commands, phase := .failed } := by
  rw [Device.commit, h]
  rfl

theorem commit_phase (D : Drive) (d : Device) (lba : Nat) (b : Block) (p : Phase) :
    ({ d with phase := p } : Device).commit D lba b = d.commit D lba b := rfl

theorem exec_writeWords (hp : p.writeData = writeData D) {b : Bytes} {got : List UInt16}
    (hphase : d.phase = .taking lba got) (hne : b ≠ [])
    (heven : b.length % 2 = 0) (hlen : got.length + b.length / 2 = sectorWords) {full : Block}
    (hfull : full.1 = bytesOf got ++ b) :
    exec (writeWords p b) d = (.ok (), d.commit D lba full) := by
  fun_induction wordsOf b generalizing d got with
  | case1 lo hi rest ih =>
    rw [List.length_cons, List.length_cons] at heven hlen
    have hgot := bytesOf_append got (lo.toUInt16 ||| (hi.toUInt16 <<< 8))
    rw [word_low, word_high] at hgot
    have hlength : (got ++ [lo.toUInt16 ||| (hi.toUInt16 <<< 8)]).length = got.length + 1 :=
      List.length_append
    by_cases hrest : rest = []
    · subst hrest
      rw [List.length_nil] at hlen
      rw [writeWords, hp,
        exec_bind_ok (exec_writeData_last hphase (by omega) (hfull.trans hgot.symm))]
      rfl
    · have hpos := List.length_pos_of_ne_nil hrest
      rw [writeWords, hp, exec_bind_ok (exec_writeData_more hphase (by omega)),
        ih rfl hrest (by omega) (by omega), commit_phase]
      rw [hgot, hfull, List.append_assoc]
      rfl
  | case2 b hb =>
    rcases b with _ | ⟨lo, _ | ⟨hi, rest⟩⟩
    · exact absurd rfl hne
    · cases heven
    · exact absurd rfl (hb lo hi rest)

end Registers

/-! One call. -/

/-- The drive is what is attached to the ports, for the commands of the two calls. -/
structure Reaches (p : Ports) (D : Drive) : Prop where
  status : p.readStatus = readStatus
  data : p.readData = readData
  setData : p.writeData = writeData D
  command : ∀ c, c = cmdReadSectors ∨ c = cmdWriteSectors → ∀ d : Device, d.busy = 0 →
    exec (p.writeCommand c) d = (.ok (), d.command D c)

theorem Drive.reaches (D : Drive) : Reaches D.ports D := ⟨rfl, rfl, rfl, fun _ _ _ _ => rfl⟩

def start (p : Ports) (lba : Nat) (c : UInt8) : AtaM Unit := do
  waitNotBusy p
  selectLba28 p lba 1
  p.writeCommand c
  delay400ns p
  waitDrq p

inductive Call where
  | read (lba : Nat) (buf : Bytes)
  | write (lba : Nat) (buf : Bytes)

def Call.lba : Call → Nat
  | .read lba _ => lba
  | .write lba _ => lba

def Call.buf : Call → Bytes
  | .read _ buf => buf
  | .write _ buf => buf

def Call.Valid (D : Drive) (c : Call) : Prop := c.lba < D.sectors ∧ blockSize ≤ c.buf.length

def Call.runOn (p : Ports) (sectors : Nat) : Call → AtaM (Nat × Bytes)
  | .read lba buf => readBlock p sectors lba buf
  | .write lba buf => do
    let n ← writeBlock p sectors lba buf
    pure (n, buf)

abbrev Call.run (D : Drive) : Call → AtaM (Nat × Bytes) := Call.runOn D.ports D.sectors

def Call.answer (store : Nat → Block) : Call → Nat × Bytes
  | .read lba buf => (blockSize, (store lba).1 ++ buf.drop blockSize)
  | .write _ buf => (blockSize, buf)

theorem take_sector {buf : Bytes} (h : blockSize ≤ buf.length) :
    (buf.take blockSize).length = blockSize := by
  rw [List.length_take]
  omega

def Call.stored (store : Nat → Block) : Call → Nat → Block
  | .read _ _ => store
  | .write lba buf =>
    if h : blockSize ≤ buf.length then
      Function.update store lba ⟨buf.take blockSize, take_sector h⟩
    else store

section Calls

variable {p : Ports} {D : Drive} {d : Device} {lba : Nat} {c : UInt8} {buf : Bytes}
    {r : Except BlockError Unit} {call : Call}

theorem notBusy_bsy : notBusyVerdict statusBsy = none := by decide

theorem drq_bsy : drqVerdict statusBsy = none := by decide

theorem notBusy_idle : notBusyVerdict Phase.idle.status = some (.ok ()) := by decide

theorem notBusy_failed : notBusyVerdict Phase.failed.status = some (.error .driveError) := by decide

theorem drq_failed : drqVerdict Phase.failed.status = some (.error .driveError) := by decide

theorem drq_sending (ws : List UInt16) : drqVerdict (Phase.sending ws).status = some (.ok ()) := by
  change drqVerdict (statusReady ||| statusDrq) = _
  decide

theorem drq_taking (lba : Nat) (got : List UInt16) :
    drqVerdict (Phase.taking lba got).status = some (.ok ()) := by
  change drqVerdict (statusReady ||| statusDrq) = _
  decide

theorem rest_eq (h : d.busy = 0) : ({ d with busy := 0 } : Device) = d := by rw [← h]

theorem exec_waitNotBusy (hp : p.readStatus = readStatus)
    (hr : notBusyVerdict d.phase.status = some r)
    (h : d.busy < pollLimit) : exec (waitNotBusy p) d = (r, { d with busy := 0 }) :=
  exec_poll hp notBusy_bsy hr h

theorem exec_start (R : Reaches p D) (lba : Nat) (hc : c = cmdReadSectors ∨ c = cmdWriteSectors)
    (h : AtRest d) (hr : drqVerdict (d.answered D lba c).phase.status = some r) :
    exec (start p lba c) d = (r, d.answered D lba c) := by
  have hwait := exec_waitNotBusy (d := d) R.status (by rw [h.2]; exact notBusy_idle)
    (by rw [h.1]; decide)
  have hselect := exec_selectLba28 R.status d lba 1
  rw [rest_eq h.1] at hwait
  rw [h.1, Nat.zero_sub, rest_eq (d := d.selected lba 1) h.1] at hselect
  rw [start, exec_bind_ok hwait, exec_bind_ok hselect,
    exec_bind_ok (R.command c hc (d.selected lba 1) h.1), exec_bind_ok (exec_delay400ns R.status _)]
  refine exec_poll (d := { (d.selected lba 1).command D c with busy := _ }) R.status drq_bsy hr ?_
  exact Nat.lt_of_le_of_lt (Nat.sub_le _ _) (D.accessTime_lt d.commands)

/-- An error that is left from an earlier command stops the call before its own command. -/
theorem exec_start_poisoned (R : Reaches p D) (h : Poisoned d) :
    exec (start p lba c) d = (.error .driveError, d) := by
  have hwait := exec_waitNotBusy (d := d) R.status (by rw [h.2]; exact notBusy_failed)
    (by rw [h.1]; decide)
  rw [rest_eq h.1] at hwait
  exact exec_bind_error hwait

theorem readBlock_eq {sectors : Nat} (hlba : lba < sectors) (hbuf : blockSize ≤ buf.length) :
    readBlock p sectors lba buf = (do
      start p lba cmdReadSectors
      let data ← readWords p sectorWords
      pure (blockSize, data ++ buf.drop blockSize)) := by
  rw [readBlock, if_neg (Nat.not_le.mpr hlba), if_neg (Nat.not_lt.mpr hbuf)]
  simp only [start, bind_assoc]

theorem writeBlock_eq {sectors : Nat} (hlba : lba < sectors) (hbuf : blockSize ≤ buf.length) :
    writeBlock p sectors lba buf = (do
      start p lba cmdWriteSectors
      writeWords p (buf.take blockSize)
      waitNotBusy p
      pure blockSize) := by
  rw [writeBlock, if_neg (Nat.not_le.mpr hlba), if_neg (Nat.not_lt.mpr hbuf)]
  simp only [start, bind_assoc]

theorem stored_write {store : Nat → Block} (h : blockSize ≤ buf.length) :
    (Call.write lba buf).stored store =
      Function.update store lba ⟨buf.take blockSize, take_sector h⟩ :=
  dif_pos h

theorem exec_writeSector (hp : p.writeData = writeData D) (hphase : d.phase = .taking lba [])
    (h : blockSize ≤ buf.length) :
    exec (writeWords p (buf.take blockSize)) d =
      (.ok (), d.commit D lba ⟨buf.take blockSize, take_sector h⟩) := by
  have hlen := take_sector h
  refine exec_writeWords hp hphase (List.ne_nil_of_length_pos (by rw [hlen]; decide)) ?_ ?_ rfl
  · rw [hlen]
    decide
  · rw [hlen]
    decide

theorem runOn_healthy (R : Reaches p D) (h : AtRest d) (hv : call.Valid D)
    (hgood : D.bad call.lba = false) :
    ∃ d', exec (call.runOn p D.sectors) d = (.ok (call.answer d.block), d') ∧ AtRest d' ∧
    d'.block = call.stored d.block := by
  cases call with
  | read lba buf =>
    have hlba : lba < D.sectors := hv.1
    have hbuf : blockSize ≤ buf.length := hv.2
    have hgood : D.bad lba = false := hgood
    have hphase := (phase_read (d := d) hlba).trans
      (if_neg (by rw [hgood]; exact Bool.false_ne_true))
    have hstart := exec_start R lba (Or.inl rfl) h (by rw [hphase]; exact drq_sending _)
    refine ⟨{ d.answered D lba cmdReadSectors with phase := .idle }, ?_, ⟨rfl, rfl⟩, rfl⟩
    rw [Call.runOn, readBlock_eq hlba hbuf, exec_bind_ok hstart,
      exec_bind_ok (exec_readSector R.data hphase), exec_pure]
    rfl
  | write lba buf =>
    have hlba : lba < D.sectors := hv.1
    have hbuf : blockSize ≤ buf.length := hv.2
    have hgood : D.bad lba = false := hgood
    have hphase : (d.answered D lba cmdWriteSectors).phase = .taking lba [] := by
      rw [phase_write hlba, hgood]
      rfl
    have hstart := exec_start R lba (Or.inr rfl) h (by rw [hphase]; exact drq_taking _ _)
    have hdata := exec_writeSector R.setData hphase hbuf
    rw [commit_good hgood] at hdata
    refine ⟨{ d.answered D lba cmdWriteSectors with
      phase := .idle, block := Function.update d.block lba ⟨buf.take blockSize, take_sector hbuf⟩ },
      ?_, ⟨rfl, rfl⟩, (stored_write hbuf).symm⟩
    rw [Call.runOn, writeBlock_eq hlba hbuf, bind_assoc, exec_bind_ok hstart, bind_assoc,
      exec_bind_ok hdata, bind_assoc,
      exec_bind_ok (exec_waitNotBusy R.status notBusy_idle (D.commitTime_lt _)), pure_bind,
      exec_pure]
    rfl

theorem runOn_bad (R : Reaches p D) (h : AtRest d) (hv : call.Valid D)
    (hbad : D.bad call.lba = true) :
    ∃ d', exec (call.runOn p D.sectors) d = (.error .driveError, d') ∧ Poisoned d' := by
  cases call with
  | read lba buf =>
    have hlba : lba < D.sectors := hv.1
    have hbuf : blockSize ≤ buf.length := hv.2
    have hphase := (phase_read (d := d) hlba).trans (if_pos hbad)
    have hstart := exec_start R lba (Or.inl rfl) h (by rw [hphase]; exact drq_failed)
    refine ⟨d.answered D lba cmdReadSectors, ?_, ⟨rfl, hphase⟩⟩
    rw [Call.runOn, readBlock_eq hlba hbuf]
    exact exec_bind_error hstart
  | write lba buf =>
    have hlba : lba < D.sectors := hv.1
    have hbuf : blockSize ≤ buf.length := hv.2
    have hbad : D.bad lba = true := hbad
    have hcommand := phase_write (d := d) hlba
    rw [hbad, Bool.true_and] at hcommand
    rw [Call.runOn, writeBlock_eq hlba hbuf, bind_assoc]
    by_cases hearly : D.failsEarly d.commands = true
    · have hphase := hcommand.trans (if_pos hearly)
      have hstart := exec_start R lba (Or.inr rfl) h (by rw [hphase]; exact drq_failed)
      exact ⟨d.answered D lba cmdWriteSectors, exec_bind_error hstart, rfl, hphase⟩
    · have hphase := hcommand.trans (if_neg hearly)
      have hstart := exec_start R lba (Or.inr rfl) h (by rw [hphase]; exact drq_taking _ _)
      have hdata := exec_writeSector R.setData hphase hbuf
      rw [commit_bad hbad] at hdata
      refine ⟨{ d.answered D lba cmdWriteSectors with phase := .failed }, ?_, ⟨rfl, rfl⟩⟩
      rw [exec_bind_ok hstart, bind_assoc, exec_bind_ok hdata, bind_assoc,
        exec_bind_error (exec_waitNotBusy R.status notBusy_failed (D.commitTime_lt _))]
      rfl

theorem runOn_poisoned (R : Reaches p D) (h : Poisoned d) (hv : call.Valid D) :
    exec (call.runOn p D.sectors) d = (.error .driveError, d) := by
  cases call with
  | read lba buf =>
    have hlba : lba < D.sectors := hv.1
    have hbuf : blockSize ≤ buf.length := hv.2
    rw [Call.runOn, readBlock_eq hlba hbuf]
    exact exec_bind_error (exec_start_poisoned R h)
  | write lba buf =>
    have hlba : lba < D.sectors := hv.1
    have hbuf : blockSize ≤ buf.length := hv.2
    rw [Call.runOn, writeBlock_eq hlba hbuf, bind_assoc]
    exact exec_bind_error (exec_start_poisoned R h)

end Calls

/-! Calls in sequence. -/

/-- In the run of the calls from `d`, each call on a healthy sector returns what it should when
`store` is what the sectors should hold. -/
def Unharmed (D : Drive) : Device → (Nat → Block) → List Call → Prop
  | _, _, [] => True
  | d, store, c :: cs =>
    (D.bad c.lba = false → (exec (c.run D) d).1 = .ok (c.answer store)) ∧
      Unharmed D (exec (c.run D) d).2 (if D.bad c.lba then store else c.stored store) cs

section Sequences

variable {D : Drive} {d : Device}

/-- From a poisoned drive on, no call on a healthy sector may follow. -/
theorem unharmed_poisoned (h : Poisoned d) (store : Nat → Block) {calls : List Call}
    (hv : ∀ c ∈ calls, c.Valid D) : Unharmed D d store calls ↔ ∀ c ∈ calls, D.bad c.lba = true := by
  induction calls generalizing store with
  | nil => exact iff_of_true trivial (by simp)
  | cons c cs ih =>
    have hrun := runOn_poisoned D.reaches h (hv c (by simp))
    have htail := ih (if D.bad c.lba then store else c.stored store) fun x hx => hv x (by simp [hx])
    rw [Unharmed, hrun, htail, List.forall_mem_cons]
    refine and_congr_left fun _ => ?_
    cases hbad : D.bad c.lba <;> simp

/-- The driver does what it should in a run exactly if no call on a healthy sector comes after
one on a bad sector. -/
theorem unharmed_iff (h : AtRest d) {calls : List Call} (hv : ∀ c ∈ calls, c.Valid D) :
    Unharmed D d d.block calls ↔ calls.Pairwise fun a b => D.bad a.lba = true →
      D.bad b.lba = true := by
  induction calls generalizing d with
  | nil => exact iff_of_true trivial .nil
  | cons c cs ih =>
    have hv' : ∀ x ∈ cs, x.Valid D := fun x hx => hv x (by simp [hx])
    rw [Unharmed, List.pairwise_cons]
    cases hbad : D.bad c.lba with
    | false =>
      obtain ⟨d', hrun, hrest, hblock⟩ := runOn_healthy D.reaches h (hv c (by simp)) hbad
      have htail := ih hrest hv'
      rw [hblock] at htail
      rw [hrun, if_neg Bool.false_ne_true, htail]
      simp
    | true =>
      obtain ⟨d', hrun, hpoisoned⟩ := runOn_bad D.reaches h (hv c (by simp)) hbad
      rw [hrun, if_pos rfl, unharmed_poisoned hpoisoned d.block hv', and_iff_right nofun]
      refine ⟨fun hall => ⟨fun x hx _ => hall x hx, ?_⟩, fun hall x hx => hall.1 x hx rfl⟩
      exact List.pairwise_of_forall_mem_list fun _ _ x hx _ => hall x hx

end Sequences

/-- Four sectors, of which the third cannot be used. -/
def scratchedDrive : Drive where
  sectors := 4
  bad lba := lba = 2
  accessTime _ := 10
  commitTime _ := 3
  failsEarly _ := false
  sectors_le := by decide
  accessTime_lt _ := by decide
  commitTime_lt _ := by decide

def freshDevice : Device :=
  ⟨0, .idle, 0xB0, 0, 0, 0, 0, 1, fun _ => zeroBlock⟩

theorem valid_of_length {D : Drive} {c : Call} (hlba : c.lba < D.sectors) {n : Nat} {x : UInt8}
    (hbuf : c.buf = List.replicate n x) (hn : blockSize ≤ n) : c.Valid D := by
  refine ⟨hlba, ?_⟩
  rwa [hbuf, List.length_replicate]

/-- What was written to a healthy sector is read back, and the bad one is met last. -/
theorem unharmed_iff_scratchedDrive :
    Unharmed scratchedDrive freshDevice freshDevice.block
      [.write 1 (List.replicate 512 7), .read 1 (List.replicate 600 0),
      .read 2 (List.replicate 512 0)] := by
  refine (unharmed_iff ⟨rfl, rfl⟩ ?_).mpr (by decide)
  refine List.forall_mem_cons.mpr ⟨?_,
    List.forall_mem_cons.mpr ⟨?_, List.forall_mem_singleton.mpr ?_⟩⟩
  all_goals exact valid_of_length (by decide) rfl (by decide)

/-- A failed read of the bad sector makes the next read of a healthy one fail. -/
theorem unharmed_fails : ¬ ∀ (D : Drive) (d : Device) (calls : List Call), AtRest d →
    (∀ c ∈ calls, c.Valid D) → Unharmed D d d.block calls := by
  intro hall
  have hbad : Call.Valid scratchedDrive (.read 2 (List.replicate 512 0)) :=
    valid_of_length (by decide) rfl (by decide)
  have hgood : Call.Valid scratchedDrive (.read 1 (List.replicate 512 0)) :=
    valid_of_length (by decide) rfl (by decide)
  have hrun := hall scratchedDrive freshDevice [.read 2 (List.replicate 512 0),
    .read 1 (List.replicate 512 0)]
    ⟨rfl, rfl⟩ (List.forall_mem_cons.mpr ⟨hbad, List.forall_mem_singleton.mpr hgood⟩)
  obtain ⟨d', hfirst, hpoisoned⟩ :=
    runOn_bad scratchedDrive.reaches (d := freshDevice) ⟨rfl, rfl⟩ hbad (by decide)
  have hsecond := hrun.2.1 (by decide)
  rw [hfirst, runOn_poisoned scratchedDrive.reaches hpoisoned hgood] at hsecond
  cases hsecond

end Willo.Ata
