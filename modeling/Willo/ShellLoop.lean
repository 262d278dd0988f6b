import Willo.Scrollback
import Willo.ShellSafety

/-! The shell's driver (`shell_loop` of `shell.rs`): decoded keys in, echo and command
output to the framebuffer writer and the serial port. A key whose handling
panics has no state after it. -/

namespace Willo.ShellLoop
open Text Paths ByteCodec BlockDevice FaultState TreeStore MountTable KernelFs ShellCore Framebuffer

/-! The characters of a string. -/

/-- The code point of a leading byte and the continuation bytes after it. -/
def codePoint (lead : UInt8) (tail : List Nat) : Nat :=
  let high := if lead < 0xE0 then lead.toNat % 32 else if lead < 0xF0 then lead.toNat % 16
    else lead.toNat % 8
  tail.foldl (fun n c => n * 64 + c) high

def decodeByte (b : UInt8) (acc : List Nat × List Char) : List Nat × List Char :=
  if b < 0x80 then ([], Char.ofNat b.toNat :: acc.2)
  else if b < 0xC0 then (b.toNat % 64 :: acc.1, acc.2)
  else ([], Char.ofNat (codePoint b acc.1) :: acc.2)

def chars (s : Str) : List Char := (s.foldr decodeByte ([], [])).2

/-! The loop. -/

inductive KeyCode where
  | pageUp
  | pageDown
  | end_
  | other

inductive DecodedKey where
  | rawKey (k : KeyCode)
  | unicode (c : Char)

structure LoopState where
  world : World
  line : Str
  writer : Writer

def serialPrint (s : Str) (w : World) : World :=
  { w with kernel := { w.kernel with serial := w.kernel.serial.map (· ++ s) } }

def echo (font : Font) (s : Str) (st : LoopState) : Option LoopState := do
  let writer ← writeStr font st.writer (chars s)
  some { st with world := serialPrint s st.world, writer := writer }

def routeRawkey (font : Font) (w : Writer) : KeyCode → Option Writer
  | .pageUp => scrollUp font w (max (w.viewportRows - 1) 1)
  | .pageDown => scrollDown font w (max (w.viewportRows - 1) 1)
  | .end_ => scrollEnd font w
  | .other => some w

def respond (font : Font) (out : Str) (st : LoopState) : Option LoopState :=
  if out = clearSentinel then
    some { st with writer := clear st.writer, world := serialPrint (text "\x1b[2J\x1b[H") st.world }
  else if out ≠ [] then echo font out st
  else some st

/-- The line run at a given tick. What it prints itself reaches the screen before its output. -/
def runLine (font : Font) (ticks : Nat) (st : LoopState) : Option LoopState :=
  match exec (executeLine st.line)
      { st.world with kernel := { st.world.kernel with ticks := ticks, console := [] } } with
  | (.error _, _) => none
  | (.ok out, world) => do
    let writer ← writeStr font st.writer (chars world.kernel.console)
    respond font out { st with world := world, writer := writer }

def enter (font : Font) (ticks : Nat) (st : LoopState) : Option LoopState := do
  let st ← echo font [newlineByte] st
  let st ← runLine font ticks st
  echo font (prompt st.world.shell) { st with line := [] }

def isErase (c : Char) : Bool := c = '\x08' || c = '\x7f'

def isPrintable (c : Char) : Bool := ' ' ≤ c && c ≤ '~'

def lineLimit : Nat := 120

def handleKey (font : Font) (ticks : Nat) (st : LoopState) : DecodedKey → Option LoopState
  | .rawKey k => do
    let writer ← routeRawkey font st.writer k
    some { st with writer := writer }
  | .unicode c =>
    if c = '\n' then enter font ticks st
    else if isErase c then
      if st.line = [] then some st
      else echo font (text "\x08 \x08") { st with line := st.line.dropLast }
    else if isPrintable c ∧ st.line.length < lineLimit then
      echo font [UInt8.ofNat c.toNat] { st with line := st.line ++ [UInt8.ofNat c.toNat] }
    else some st

/-- The loop up to its first key: a new shell has shown its prompt. -/
def start (font : Font) (vfs : Vfs Backend) (k : Kernel) (writer : Writer) : Option LoopState :=
  echo font (prompt (newShell vfs)) ⟨⟨newShell vfs, k⟩, [], writer⟩

def handleKeys (font : Font) (st : LoopState) (keys : List (Nat × DecodedKey)) : Option LoopState :=
  keys.foldlM (fun st key => handleKey font key.1 st key.2) st

/-! Characters of printable text. -/

section Characters

variable {s t : Str}

theorem foldr_decodeByte (s : Str) (tail : List Nat) (cs : List Char) :
    s.foldr decodeByte (tail, cs) =
      ((s.foldr decodeByte (tail, [])).1, (s.foldr decodeByte (tail, [])).2 ++ cs) := by
  induction s with
  | nil => rfl
  | cons b s ih =>
    simp only [List.foldr_cons, ih]
    unfold decodeByte
    split_ifs <;> rfl

theorem foldr_decodeByte_ascii (h : ∀ b ∈ s, b < 0x80) :
    s.foldr decodeByte ([], []) = ([], s.map fun b => Char.ofNat b.toNat) := by
  induction s with
  | nil => rfl
  | cons b s ih =>
    rw [List.foldr_cons, ih fun c hc => h c (List.mem_cons_of_mem _ hc), decodeByte,
      if_pos (h b List.mem_cons_self)]
    rfl

theorem chars_ascii (h : ∀ b ∈ s, b < 0x80) : chars s = s.map fun b => Char.ofNat b.toNat := by
  rw [chars, foldr_decodeByte_ascii h]

theorem chars_append (ht : ∀ b ∈ t, b < 0x80) : chars (s ++ t) = chars s ++ chars t := by
  rw [chars, List.foldr_append, foldr_decodeByte_ascii ht, foldr_decodeByte, ← chars_ascii ht]
  rfl

theorem printable_char : ∀ b, Printable b → b < 0x80 ∧ (Char.ofNat b.toNat).utf8Size = 1 ∧
    Char.ofNat b.toNat ≠ '\n' ∧ Char.ofNat b.toNat ≠ '\r' ∧ Char.ofNat b.toNat ≠ '\x08' :=
  forall_byte (by unfold Printable; decide +kernel)

theorem ascii_of_printable (h : ∀ b ∈ s, Printable b) : ∀ b ∈ s, b < 0x80 := fun b hb =>
  (printable_char b (h b hb)).1

theorem chars_printable (h : ∀ b ∈ s, Printable b) :
    byteLen (chars s) = s.length ∧ ∀ c ∈ chars s, c ≠ '\n' ∧ c ≠ '\r' := by
  rw [chars_ascii (ascii_of_printable h)]
  constructor
  · induction s with
    | nil => rfl
    | cons b s ih =>
      have hb := (printable_char b (h b List.mem_cons_self)).2.1
      have := ih fun c hc => h c (List.mem_cons_of_mem _ hc)
      simp only [byteLen, List.map_cons, List.sum_cons, List.length_cons] at this ⊢
      omega
  · intro c hc
    obtain ⟨b, hb, rfl⟩ := List.mem_map.mp hc
    obtain ⟨-, -, hline, hreturn, -⟩ := printable_char b (h b hb)
    exact ⟨hline, hreturn⟩

end Characters

/-! The line in progress. -/

section Writer

variable {font : Font} {w w' : Writer}

theorem writeChar_newline (h : writeChar font w '\n' = some w') : w'.currentLine = [] := by
  rw [writeChar, if_pos rfl] at h
  exact (newline_same h).currentLine

theorem writeChar_append {c : Char} (hc : c ≠ '\n' ∧ c ≠ '\r')
    (hroom : byteLen w.currentLine < maxLineLen)
    (h : writeChar font w c = some w') : w'.currentLine = w.currentLine ++ [c] := by
  rw [writeChar, if_neg hc.1, if_neg hc.2, wrapFullLine, if_neg (by omega)] at h
  obtain ⟨m, hm, h⟩ := Option.bind_eq_some_iff.mp h
  cases hm
  obtain ⟨m', hm', h⟩ := Option.bind_eq_some_iff.mp h
  cases h
  rw [(drawChar_same hm').currentLine]

theorem writeStr_append {s : List Char} (hs : ∀ c ∈ s, c ≠ '\n' ∧ c ≠ '\r')
    (hroom : byteLen w.currentLine + byteLen s ≤ maxLineLen) (h : writeStr font w s = some w') :
    w'.currentLine = w.currentLine ++ s := by
  induction s generalizing w with
  | nil =>
    cases h
    rw [List.append_nil]
  | cons c s ih =>
    rw [writeStr, List.foldlM_cons] at h
    obtain ⟨m, hm, h⟩ := Option.bind_eq_some_iff.mp h
    have hpos := Char.utf8Size_pos c
    simp only [byteLen, List.map_cons, List.sum_cons] at hroom
    have hcur := writeChar_append (hs c List.mem_cons_self) (by simp only [byteLen]; omega) hm
    rw [ih (fun d hd => hs d (List.mem_cons_of_mem _ hd)) ?_ h, hcur, List.append_assoc]
    · rfl
    · simp only [hcur, byteLen, List.map_append, List.sum_append, List.map_cons, List.map_nil,
        List.sum_cons, List.sum_nil]
      omega

theorem writeStr_getLast {s : List Char} {c : Char} (hc : c ≠ '\n' ∧ c ≠ '\r')
    (h : writeStr font w (s ++ [c]) = some w') : w'.currentLine.getLast? = some c := by
  rw [writeStr, List.foldlM_append] at h
  obtain ⟨m, -, h⟩ := Option.bind_eq_some_iff.mp h
  obtain ⟨m', hm', h⟩ := Option.bind_eq_some_iff.mp h
  cases h
  rw [writeChar, if_neg hc.1, if_neg hc.2] at hm'
  obtain ⟨m₁, -, hm'⟩ := Option.bind_eq_some_iff.mp hm'
  obtain ⟨m₂, -, hm'⟩ := Option.bind_eq_some_iff.mp hm'
  cases hm'
  exact List.getLast?_concat

theorem writeStr_terminated {s : Str} (hs : Terminated s) (hw : w.currentLine = [])
    (h : writeStr font w (chars s) = some w') : w'.currentLine = [] := by
  rcases hs with rfl | hs
  · cases h
    exact hw
  · obtain ⟨front, rfl⟩ := List.getLast?_eq_some_iff.mp hs
    have hnl : ∀ b ∈ [newlineByte], b < 0x80 := List.forall_mem_singleton.mpr (by decide)
    rw [chars_append hnl, writeStr, List.foldlM_append] at h
    obtain ⟨m, hm, h⟩ := Option.bind_eq_some_iff.mp h
    obtain ⟨m', hm', h⟩ := Option.bind_eq_some_iff.mp h
    cases h
    exact writeChar_newline hm'

theorem scrollTo_currentLine {n : Nat} (h : scrollTo font w n = some w') :
    w'.currentLine = w.currentLine := by
  unfold scrollTo at h
  split_ifs at h
  · cases h
    rfl
  · exact (redrawVisible_same h).currentLine

theorem routeRawkey_currentLine {k : KeyCode} (h : routeRawkey font w k = some w') :
    w'.currentLine = w.currentLine := by
  cases k with
  | pageUp =>
    unfold routeRawkey scrollUp at h
    dsimp only at h
    split_ifs at h
    exact scrollTo_currentLine h
  | pageDown => exact scrollTo_currentLine h
  | end_ => exact scrollTo_currentLine h
  | other =>
    cases h
    rfl

end Writer

/-! What the user sees. -/

theorem prompt_words : (∀ b ∈ text "willo:" ++ text "$ ", 32 ≤ b ∧ b ≤ 126) ∧
    (text "willo:" ++ [slash] ++ text "$ ").length = 9 := by decide +kernel

theorem chars_erase : chars (text "\x08 \x08") = ['\x08', ' '] ++ ['\x08'] := by decide +kernel

/-- The line on the screen is the prompt and what will be executed. -/
def Mirrors (st : LoopState) : Prop :=
  st.writer.currentLine = chars (prompt st.world.shell ++ st.line)

def Fits (st : LoopState) : Prop := (prompt st.world.shell ++ st.line).length < maxLineLen

instance : DecidablePred Fits := fun st =>
  inferInstanceAs (Decidable ((prompt st.world.shell ++ st.line).length < maxLineLen))

def Erases (st : LoopState) : DecodedKey → Prop
  | .rawKey _ => False
  | .unicode c => isErase c ∧ st.line ≠ []

structure Reading (st : LoopState) : Prop where
  cwd : Canonical st.world.shell.cwd
  printable : ∀ b ∈ st.world.shell.cwd, Printable b
  typed : Typed st.line

section Keys

variable {font : Font} {vfs : Vfs Backend} {k : Kernel} {st st' : LoopState} {ticks : Nat}
    {key : DecodedKey}

theorem Reading.shown (R : Reading st) : ∀ b ∈ prompt st.world.shell ++ st.line, Printable b := by
  intro b hb
  simp only [prompt, List.mem_append] at hb
  rcases hb with ((hb | hb) | hb) | hb
  · exact prompt_words.1 b (List.mem_append_left _ hb)
  · exact R.printable b hb
  · exact prompt_words.1 b (List.mem_append_right _ hb)
  · exact R.typed.printable b hb

theorem echo_same {s : Str} (h : echo font s st = some st') :
    st'.line = st.line ∧ st'.world.shell = st.world.shell ∧
    writeStr font st.writer (chars s) = some st'.writer := by
  obtain ⟨writer, hw, h⟩ := Option.bind_eq_some_iff.mp h
  cases h
  exact ⟨rfl, rfl, hw⟩

theorem typed_snoc {line : Str} {c : Char} (h : Typed line) (hc : isPrintable c)
    (hlen : line.length < lineLimit) : Typed (line ++ [UInt8.ofNat c.toNat]) := by
  have hrange : 32 ≤ c.toNat ∧ c.toNat ≤ 126 := by
    simp only [isPrintable, Bool.and_eq_true, decide_eq_true_eq] at hc
    exact ⟨hc.1, hc.2⟩
  constructor
  · simp only [List.length_append, List.length_singleton]
    exact hlen
  · intro b hb
    rcases List.mem_append.mp hb with hb | hb
    · exact h.printable b hb
    · rw [List.mem_singleton.mp hb]
      constructor
      · simp only [UInt8.le_iff_toNat_le, UInt8.toNat_ofNat']
        change 32 ≤ _
        omega
      · simp only [UInt8.le_iff_toNat_le, UInt8.toNat_ofNat']
        change _ ≤ 126
        omega

theorem runLine_ends (R : Reading st) (hw : st.writer.currentLine = [])
    (h : runLine font ticks st = some st') :
    Canonical st'.world.shell.cwd ∧ (∀ b ∈ st'.world.shell.cwd, Printable b) ∧
    st'.writer.currentLine = [] := by
  unfold runLine at h
  split at h
  · cases h
  · rename_i out world hrun
    have H : Healthy False Fat.smallVolume []
        { st.world with kernel := { st.world.kernel with ticks := ticks, console := [] } } :=
      ⟨False.elim, False.elim, R.cwd, R.printable, [], Or.inl rfl, rfl⟩
    obtain ⟨H', hout⟩ := (executeLine_meets H R.typed).of_eq hrun
    obtain ⟨writer, hconsole, h⟩ := Option.bind_eq_some_iff.mp h
    obtain ⟨t, ht, hprinted⟩ := H'.printed
    rw [hprinted, List.nil_append] at hconsole
    have hempty : writer.currentLine = [] := writeStr_terminated ht hw hconsole
    unfold respond at h
    split_ifs at h with hclear hsome
    · cases h
      exact ⟨H'.cwd, H'.printable, hempty⟩
    · obtain ⟨-, hshell, hwrite⟩ := echo_same h
      rw [hshell]
      exact ⟨H'.cwd, H'.printable,
        writeStr_terminated (hout.shape.resolve_right hclear) hempty hwrite⟩
    · cases h
      exact ⟨H'.cwd, H'.printable, hempty⟩

theorem enter_shown (R : Reading st) (h : enter font ticks st = some st') :
    Reading st' ∧ (Fits st' → Mirrors st') := by
  obtain ⟨st₁, h₁, h⟩ := Option.bind_eq_some_iff.mp h
  obtain ⟨st₂, h₂, h⟩ := Option.bind_eq_some_iff.mp h
  obtain ⟨hline₁, hshell₁, hwrite₁⟩ := echo_same h₁
  obtain ⟨hline, hshell, hwrite⟩ := echo_same h
  have R₁ : Reading st₁ := ⟨hshell₁ ▸ R.cwd, hshell₁ ▸ R.printable, hline₁ ▸ R.typed⟩
  have hnone : st₁.writer.currentLine = [] := by
    obtain ⟨m, hm, hwrite₁⟩ := Option.bind_eq_some_iff.mp hwrite₁
    cases hwrite₁
    exact writeChar_newline hm
  obtain ⟨hcwd, hprintable, hempty⟩ := runLine_ends R₁ hnone h₂
  have R' : Reading st' :=
    ⟨hshell ▸ hcwd, hshell ▸ hprintable, by rw [hline]; exact ⟨by simp, by simp⟩⟩
  refine ⟨R', fun hfit => ?_⟩
  have hshown := R'.shown
  rw [hline, List.append_nil, hshell] at hshown
  unfold Fits at hfit
  rw [hline, List.append_nil, hshell] at hfit
  obtain ⟨hlen, hordinary⟩ := chars_printable hshown
  have hroom : byteLen st₂.writer.currentLine + byteLen (chars (prompt st₂.world.shell)) ≤
    maxLineLen := by
    rw [hempty, hlen]
    exact (Nat.zero_add _).le.trans hfit.le
  have happend := writeStr_append hordinary hroom hwrite
  rw [Mirrors, hline, hshell, happend, hempty, List.append_nil, List.nil_append]

theorem handleKey_reading (R : Reading st) (h : handleKey font ticks st key = some st') :
    Reading st' := by
  cases key with
  | rawKey k =>
    obtain ⟨writer, -, h⟩ := Option.bind_eq_some_iff.mp h
    cases h
    exact ⟨R.cwd, R.printable, R.typed⟩
  | unicode c =>
    simp only [handleKey] at h
    split_ifs at h with hnl herase hnone htyped
    · exact (enter_shown R h).1
    · cases h
      exact R
    · obtain ⟨hline, hshell, -⟩ := echo_same h
      refine ⟨hshell ▸ R.cwd, hshell ▸ R.printable, hline ▸ ?_⟩
      have hlen := R.typed.length
      exact ⟨by
        rw [List.length_dropLast]; omega, fun b hb =>
          R.typed.printable b (List.mem_of_mem_dropLast hb)⟩
    · obtain ⟨hline, hshell, -⟩ := echo_same h
      exact ⟨hshell ▸ R.cwd, hshell ▸ R.printable, hline ▸ typed_snoc R.typed htyped.1 htyped.2⟩
    · cases h
      exact R

theorem handleKey_mirrors (R : Reading st) (hfit : Fits st') (hm : Mirrors st)
    (hkeep : ¬Erases st key) (h : handleKey font ticks st key = some st') : Mirrors st' := by
  have R' := handleKey_reading R h
  cases key with
  | rawKey k =>
    obtain ⟨writer, hw, h⟩ := Option.bind_eq_some_iff.mp h
    cases h
    exact (routeRawkey_currentLine hw).trans hm
  | unicode c =>
    simp only [handleKey] at h
    split_ifs at h with hnl herase hnone htyped
    · exact (enter_shown R h).2 hfit
    · cases h
      exact hm
    · exact absurd ⟨herase, hnone⟩ hkeep
    · obtain ⟨hline, hshell, hwrite⟩ := echo_same h
      have hshown := R'.shown
      have hsplit : prompt st'.world.shell ++ st'.line =
          (prompt st.world.shell ++ st.line) ++ [UInt8.ofNat c.toNat] := by
        rw [hline, hshell, List.append_assoc]
      unfold Fits at hfit
      rw [hsplit] at hshown hfit
      have hlast : ∀ b ∈ [UInt8.ofNat c.toNat], Printable b :=
        fun b hb => hshown b (List.mem_append_right _ hb)
      obtain ⟨hlen, -⟩ := chars_printable R.shown
      obtain ⟨hone, hordinary⟩ := chars_printable hlast
      have hroom : byteLen st.writer.currentLine + byteLen (chars [UInt8.ofNat c.toNat]) ≤
        maxLineLen := by
        rw [hm, hlen, hone, ← List.length_append]
        exact hfit.le
      rw [Mirrors, hsplit, chars_append (ascii_of_printable hlast),
        writeStr_append hordinary hroom hwrite, hm]
    · cases h
      exact hm

theorem handleKey_erases (R : Reading st) (he : Erases st key)
    (h : handleKey font ticks st key = some st') :
    ¬Mirrors st' := by
  intro hm
  have R' := handleKey_reading R h
  cases key with
  | rawKey k => exact he
  | unicode c =>
    have hnl : c ≠ '\n' := by
      rintro rfl
      exact absurd he.1 (by decide)
    rw [handleKey, if_neg hnl, if_pos he.1, if_neg he.2] at h
    obtain ⟨-, -, hwrite⟩ := echo_same h
    rw [chars_erase] at hwrite
    have hlast : '\x08' ∈ st'.writer.currentLine :=
      List.mem_of_getLast? (writeStr_getLast (by decide) hwrite)
    rw [hm, chars_ascii (ascii_of_printable R'.shown)] at hlast
    obtain ⟨b, hb, hback⟩ := List.mem_map.mp hlast
    exact (printable_char b (R'.shown b hb)).2.2.2.2 hback

theorem handleKeys_snoc (st : LoopState) (keys : List (Nat × DecodedKey)) (key : Nat × DecodedKey) :
    handleKeys font st (keys ++ [key]) =
      (handleKeys font st keys).bind fun st => handleKey font key.1 st key.2 := by
  rw [handleKeys, List.foldlM_append]
  simp only [List.foldlM_cons, List.foldlM_nil, bind_pure]
  rfl

theorem handleKeys_reading {keys : List (Nat × DecodedKey)} (R : Reading st)
    (h : handleKeys font st keys = some st') : Reading st' := by
  induction keys generalizing st with
  | nil =>
    cases h
    exact R
  | cons key keys ih =>
    rw [handleKeys, List.foldlM_cons] at h
    obtain ⟨m, hm, h⟩ := Option.bind_eq_some_iff.mp h
    exact ih (handleKey_reading R hm) h

theorem start_shown {writer : Writer} (hw : writer.currentLine = [])
    (h : start font vfs k writer = some st) :
    Reading st ∧ Mirrors st := by
  have hreading : Reading ⟨⟨newShell vfs, k⟩, [], writer⟩ :=
    ⟨⟨[], by simp, rfl⟩, root_printable, ⟨by simp, by simp⟩⟩
  obtain ⟨hline, hshell, hwrite⟩ := echo_same h
  have hshown := hreading.shown
  rw [List.append_nil] at hshown
  have hroom : byteLen writer.currentLine + (prompt (newShell vfs)).length ≤ maxLineLen := by
    rw [hw]
    change byteLen [] + (text "willo:" ++ [slash] ++ text "$ ").length ≤ maxLineLen
    rw [prompt_words.2]
    decide
  obtain ⟨hlen, hordinary⟩ := chars_printable hshown
  refine ⟨⟨hshell ▸ hreading.cwd, hshell ▸ hreading.printable, hline ▸ hreading.typed⟩, ?_⟩
  rw [Mirrors, hline, hshell, writeStr_append hordinary (hlen ▸ hroom) hwrite, hw, List.append_nil,
    List.nil_append]

/-- As long as no key takes a character off the line, the screen shows prompt and line after
every key. -/
theorem handleKeys_mirrors {keys : List (Nat × DecodedKey)} (R : Reading st) (hm : Mirrors st)
    (hfit : ∀ pre st', pre <+: keys → handleKeys font st pre = some st' → Fits st')
    (hkeep : ∀ pre key st', pre ++ [key] <+: keys → handleKeys font st pre = some st' →
      ¬Erases st' key.2)
    (pre : List (Nat × DecodedKey)) (hpre : pre <+: keys) (h : handleKeys font st pre = some st') :
    Mirrors st' := by
  induction pre using List.reverseRecOn generalizing st' with
  | nil =>
    cases h
    exact hm
  | append_singleton pre key ih =>
    rw [handleKeys_snoc] at h
    obtain ⟨m, hrun, hkey⟩ := Option.bind_eq_some_iff.mp h
    have hbefore : pre <+: keys := (List.prefix_append pre [key]).trans hpre
    have hfits : Fits st' :=
      hfit (pre ++ [key]) st' hpre (by rw [handleKeys_snoc, hrun]; exact hkey)
    exact handleKey_mirrors (handleKeys_reading R hrun) hfits (ih hbefore hrun)
      (hkeep pre key m hpre hrun) hkey

end Keys

/-- In a run whose prompt and line stay below the length of a screen line, the screen shows
the prompt and the line after every key just when no key takes a character off the line. -/
theorem shown_iff_no_erase {font : Font} {vfs : Vfs Backend} {k : Kernel} {writer : Writer}
    {st stEnd : LoopState} {keys : List (Nat × DecodedKey)} (hw : writer.currentLine = [])
    (hstart : start font vfs k writer = some st) (hend : handleKeys font st keys = some stEnd)
    (hfit : ∀ pre st', pre <+: keys → handleKeys font st pre = some st' → Fits st') :
    (∀ pre st', pre <+: keys → handleKeys font st pre = some st' → Mirrors st') ↔
      ∀ pre key st', pre ++ [key] <+: keys → handleKeys font st pre = some st' →
      ¬Erases st' key.2 := by
  obtain ⟨R, hm⟩ := start_shown hw hstart
  constructor
  · intro hall pre key st' hpre hrun herase
    -- the run goes on behind this key, so it has a state after it
    obtain ⟨rest, rfl⟩ := hpre
    rw [handleKeys, List.foldlM_append] at hend
    obtain ⟨m, hafter, -⟩ := Option.bind_eq_some_iff.mp hend
    have hkey := hafter
    change handleKeys font st (pre ++ [key]) = some m at hkey
    rw [handleKeys_snoc, hrun] at hkey
    exact handleKey_erases (handleKeys_reading R hrun) herase hkey
      (hall (pre ++ [key]) m (List.prefix_append _ _) hafter)
  · intro hkeep pre st' hpre hrun
    exact handleKeys_mirrors R hm hfit hkeep pre hpre hrun

def narrowWriter : Writer := new (List.replicate 400 0) ⟨10, 40, 10, 1, .u8⟩

def fitsAlong (keys : List (Nat × DecodedKey)) : Bool :=
  keys.inits.all fun pre =>
    match (start dotFont bootTable bootKernel narrowWriter).bind (handleKeys dotFont · pre) with
    | none => false
    | some st => decide (Fits st)

theorem narrow_starts {keys : List (Nat × DecodedKey)} (h : fitsAlong keys = true) :
    ∃ st, start dotFont bootTable bootKernel narrowWriter = some st := by
  have hpass := List.all_eq_true.mp h [] ((List.mem_inits _ _).mpr List.nil_prefix)
  cases hst : start dotFont bootTable bootKernel narrowWriter with
  | none =>
    rw [hst] at hpass
    cases hpass
  | some st => exact ⟨st, rfl⟩

theorem fits_of_fitsAlong {keys : List (Nat × DecodedKey)} (h : fitsAlong keys = true)
    {st : LoopState} (hst : start dotFont bootTable bootKernel narrowWriter = some st) :
    (∃ stEnd, handleKeys dotFont st keys = some stEnd) ∧
      ∀ pre st', pre <+: keys → handleKeys dotFont st pre = some st' → Fits st' := by
  have hone : ∀ pre, pre <+: keys → ∃ st', handleKeys dotFont st pre = some st' ∧ Fits st' := by
    intro pre hpre
    have hpass := List.all_eq_true.mp h pre ((List.mem_inits _ _).mpr hpre)
    rw [hst] at hpass
    simp only [Option.bind_some] at hpass
    cases hrun : handleKeys dotFont st pre with
    | none =>
      rw [hrun] at hpass
      cases hpass
    | some st' =>
      rw [hrun] at hpass
      exact ⟨st', rfl, of_decide_eq_true hpass⟩
  constructor
  · obtain ⟨stEnd, hend, -⟩ := hone keys List.prefix_rfl
    exact ⟨stEnd, hend⟩
  · intro pre st' hpre hrun
    obtain ⟨st'', hrun', hfit⟩ := hone pre hpre
    rw [hrun, Option.some.injEq] at hrun'
    exact hrun' ▸ hfit

theorem shown_iff_no_erase_commands :
    ∃ st, start dotFont bootTable bootKernel narrowWriter = some st ∧
      ∀ pre st', pre <+: [(0, .unicode 'x'), (0, .unicode '\n'), (1, .rawKey .pageUp),
      (2, .unicode 'y')] →
        handleKeys dotFont st pre = some st' → Mirrors st' := by
  have hfits : fitsAlong [(0, .unicode 'x'), (0, .unicode '\n'), (1, .rawKey .pageUp),
    (2, .unicode 'y')] = true := by
    decide +kernel
  obtain ⟨st, hst⟩ := narrow_starts hfits
  obtain ⟨⟨stEnd, hend⟩, hfit⟩ := fits_of_fitsAlong hfits hst
  refine ⟨st, hst, (shown_iff_no_erase rfl hst hend hfit).mpr ?_⟩
  intro pre key st' hpre _ herase
  have hmem := hpre.subset (List.mem_append_right pre List.mem_cons_self)
  simp only [List.mem_cons, List.not_mem_nil, or_false] at hmem
  rcases hmem with rfl | rfl | rfl | rfl
  · exact absurd herase.1 (by decide)
  · exact absurd herase.1 (by decide)
  · exact herase
  · exact absurd herase.1 (by decide)

/-- One character typed and taken off again. -/
theorem shown_fails_backspace :
    ∃ st stEnd, start dotFont bootTable bootKernel narrowWriter = some st ∧
      (∀ pre st', pre <+: [(0, .unicode 'a'), (0, .unicode '\x08')] →
      handleKeys dotFont st pre = some st' → Fits st') ∧
      handleKeys dotFont st [(0, .unicode 'a'), (0, .unicode '\x08')] = some stEnd ∧
      stEnd.line = [] ∧
      stEnd.writer.currentLine = chars (prompt stEnd.world.shell) ++ ['a', '\x08', ' ', '\x08'] ∧
      ¬Mirrors stEnd := by
  have hfits : fitsAlong [(0, .unicode 'a'), (0, .unicode '\x08')] = true := by decide +kernel
  obtain ⟨st, hst⟩ := narrow_starts hfits
  obtain ⟨⟨stEnd, hend⟩, hfit⟩ := fits_of_fitsAlong hfits hst
  have hshown : ((start dotFont bootTable bootKernel narrowWriter).bind
      (handleKeys dotFont · [(0, .unicode 'a'), (0, .unicode '\x08')])).all
        (fun st => decide (st.line = [] ∧
          st.writer.currentLine = chars (prompt st.world.shell) ++ ['a', '\x08', ' ', '\x08'])) =
            true := by
    decide +kernel
  rw [hst, Option.bind_some, hend] at hshown
  obtain ⟨hline, hcurrent⟩ := of_decide_eq_true hshown
  refine ⟨st, stEnd, hst, hfit, hend, hline, hcurrent, fun hm => ?_⟩
  rw [Mirrors, hline, List.append_nil, hcurrent] at hm
  exact absurd (congrArg List.length hm) (by simp)

end Willo.ShellLoop
