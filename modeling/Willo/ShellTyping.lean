import Willo.OutputLogs
import Willo.ScreenBounds
import Willo.ShellLoop
import Willo.ShellVolumes

/-! The interactive shell against the shell over lines. The keys are edited into lines, the
lines run as a session, and everything sent to the screen and the port follows from these:
the loop adds the echo and the prompts and changes nothing else. So what holds of sessions
holds of whatever is typed, and with the screen in order no key stops the loop. -/

namespace Willo.ShellLoop
open Text Paths ByteCodec BlockDevice FaultState TreeStore MountTable KernelFs ShellCore Framebuffer
open Fat (FatFs view WellFormed runCalls store reports)

/-! Editing. -/

def editKey (line : Str) : DecodedKey → Str
  | .rawKey _ => line
  | .unicode c =>
    if c = '\n' then []
    else if isErase c then line.dropLast
    else if isPrintable c ∧ line.length < lineLimit then line ++ [UInt8.ofNat c.toNat]
    else line

def entered (ticks : Nat) (line : Str) : DecodedKey → List (Nat × Str)
  | .rawKey _ => []
  | .unicode c => if c = '\n' then [(ticks, line)] else []

def typed : Str → List (Nat × DecodedKey) → List (Nat × Str)
  | _, [] => []
  | line, key :: keys => entered key.1 line key.2 ++ typed (editKey line key.2) keys

def begun (line : Str) (keys : List (Nat × DecodedKey)) : Str :=
  keys.foldl (fun line key => editKey line key.2) line

/-! Output. -/

/-- What the loop does to its two outputs. -/
inductive Output where
  | both (s : Str)
  | screen (s : Str)
  | port (s : Bytes)
  | wipe
  | scroll (k : KeyCode)

def Output.calls (page : Nat) : Output → List Call
  | .both s => [.writeStr (chars s)]
  | .screen s => [.writeStr (chars s)]
  | .port _ => []
  | .wipe => [.clear]
  | .scroll .pageUp => [.scrollUp page]
  | .scroll .pageDown => [.scrollDown page]
  | .scroll .end_ => [.scrollEnd]
  | .scroll .other => []

def Output.sent : Output → Bytes
  | .both s => s
  | .screen _ => []
  | .port s => s
  | .wipe => text "\x1b[2J\x1b[H"
  | .scroll _ => []

def answer (out : Str) : Output := if out = clearSentinel then .wipe else .both out

def lineOutputs (x : Nat × Str) (w : World) : List Output :=
  let r := exec (executeLine x.2) (tick x.1 w.bare)
  [.both [newlineByte], .screen r.2.kernel.console, .port (r.2.kernel.serial.getD []),
    answer (r.1.toOption.getD []), .both (prompt r.2.shell)]

def keyOutputs (ticks : Nat) (line : Str) (w : World) : DecodedKey → List Output
  | .rawKey k => [.scroll k]
  | .unicode c =>
    if c = '\n' then lineOutputs (ticks, line) w
    else if isErase c then if line = [] then [] else [.both (text "\x08 \x08")]
    else if isPrintable c ∧ line.length < lineLimit then [.both [UInt8.ofNat c.toNat]]
    else []

def outputs : Str → World → List (Nat × DecodedKey) → List Output
  | _, _, [] => []
  | line, w, key :: keys =>
    keyOutputs key.1 line w key.2 ++
      outputs (editKey line key.2) (worldAfter (entered key.1 line key.2) w) keys

/-! One key. -/

/-- From `st` to `st'` the outputs were sent, and the world is `w` but for what was sent. -/
structure Sends (font : Font) (page : Nat) (st st' : LoopState) (w : World)
    (outs : List Output) : Prop where
  world : st'.world.bare = w.bare
  serial : st'.world.kernel.serial = st.world.kernel.serial.map (· ++ outs.flatMap Output.sent)
  screen : run font st.writer (outs.flatMap (Output.calls page)) = some st'.writer

section Keys

variable {font : Font} {page ticks : Nat} {st st₁ st₂ st' : LoopState} {w w' : World}
    {outs outs' : List Output} {key : DecodedKey}
  {line : Str}

theorem Sends.refl (st : LoopState) : Sends font page st st st.world [] :=
  ⟨rfl, by simp, rfl⟩

theorem Sends.of_bare (h : Sends font page st st' w outs) (hw : w.bare = w'.bare) :
    Sends font page st st' w' outs :=
  ⟨h.world.trans hw, h.serial, h.screen⟩

theorem Sends.of_line (h : Sends font page { st with line := line } st' w outs) :
    Sends font page st st' w outs :=
  ⟨h.world, h.serial, h.screen⟩

theorem Sends.trans (h : Sends font page st st₁ w outs) (h' : Sends font page st₁ st' w' outs') :
    Sends font page st st' w' (outs ++ outs') := by
  refine ⟨h'.world, ?_, ?_⟩
  · rw [h'.serial, h.serial, Option.map_map, List.flatMap_append]
    simp only [Function.comp_def, List.append_assoc]
  · rw [List.flatMap_append, run_append, h.screen]
    exact h'.screen

theorem serialPrint_bare (s : Str) (w : World) : (serialPrint s w).bare = w.bare := by
  obtain ⟨shell, disk, ticks, console, serial⟩ := w
  cases serial <;> rfl

theorem echo_sends {s : Str} (h : echo font s st = some st') :
    Sends font page st st' st.world [.both s] := by
  obtain ⟨writer, hw, h⟩ := Option.bind_eq_some_iff.mp h
  cases h
  refine ⟨serialPrint_bare s st.world, ?_, ?_⟩
  · simp only [List.flatMap_cons, List.flatMap_nil, List.append_nil, Output.sent]
    rfl
  · exact (bind_pure _).trans hw

theorem lineOutputs_bare (h : w.bare = w'.bare) (x : Nat × Str) :
    lineOutputs x w = lineOutputs x w' := by
  rw [lineOutputs, lineOutputs, h]

theorem keyOutputs_bare (h : w.bare = w'.bare) (ticks : Nat) (line : Str) (key : DecodedKey) :
    keyOutputs ticks line w key = keyOutputs ticks line w' key := by
  cases key with
  | rawKey k => rfl
  | unicode c => simp only [keyOutputs, lineOutputs_bare h]

theorem outputs_bare (h : w.bare = w'.bare) (line : Str) (keys : List (Nat × DecodedKey)) :
    outputs line w keys = outputs line w' keys := by
  induction keys generalizing line w w' with
  | nil => rfl
  | cons key keys ih => rw [outputs, outputs, keyOutputs_bare h, ih (worldAfter_bare h _)]

theorem respond_line {out : Str} (h : respond font out st = some st') : st'.line = st.line := by
  unfold respond at h
  split_ifs at h
  · cases h
    rfl
  · exact (echo_same h).1
  · cases h
    rfl

theorem respond_sends {out : Str} (h : respond font out st = some st') :
    Sends font page st st' st.world [answer out] := by
  unfold respond at h
  unfold answer
  split_ifs at h ⊢ with hclear hsome
  · cases h
    refine ⟨serialPrint_bare _ st.world, ?_, rfl⟩
    simp only [List.flatMap_cons, List.flatMap_nil, List.append_nil, Output.sent]
    rfl
  · exact echo_sends h
  · cases h
    obtain rfl : out = [] := not_not.mp hsome
    refine ⟨rfl, ?_, rfl⟩
    simp [Output.sent]

theorem exec_runLine (ticks : Nat) (st : LoopState) :
    exec (executeLine st.line)
        { st.world with kernel := { st.world.kernel with ticks := ticks, console := [] } } =
      ((exec (executeLine st.line) (tick ticks st.world.bare)).1,
        (exec (executeLine st.line) (tick ticks st.world.bare)).2.after []
          (st.world.kernel.serial.getD [])) := by
  have hstart : World.after [] (st.world.kernel.serial.getD []) (tick ticks st.world.bare) =
      { st.world with kernel := { st.world.kernel with ticks := ticks, console := [] } } := by
    obtain ⟨⟨shell, disk, ticks, console, serial⟩, line, writer⟩ := st
    cases serial <;> simp [World.after, World.bare, Kernel.after, tick]
  rw [← hstart]
  exact executeLine_commutes st.line _

theorem runLine_ok {out : Str}
    (h : (exec (executeLine st.line) (tick ticks st.world.bare)).1 = .ok out) :
    runLine font ticks st =
      (writeStr font st.writer
        (chars (exec (executeLine st.line) (tick ticks st.world.bare)).2.kernel.console)).bind
        fun writer => respond font out { st with
          world := (exec (executeLine st.line) (tick ticks st.world.bare)).2.after []
            (st.world.kernel.serial.getD [])
          writer := writer } := by
  rw [runLine, exec_runLine, h]
  rfl

theorem runLine_error {f : Fault}
    (h : (exec (executeLine st.line) (tick ticks st.world.bare)).1 = .error f) :
    runLine font ticks st = none := by
  rw [runLine, exec_runLine, h]

theorem runLine_sends (h : runLine font ticks st = some st') :
    ∃ out, (exec (executeLine st.line) (tick ticks st.world.bare)).1 = .ok out ∧
      st'.line = st.line ∧
      Sends font page st st' (lineAfter st.world (ticks, st.line))
        [.screen (exec (executeLine st.line) (tick ticks st.world.bare)).2.kernel.console,
          .port ((exec (executeLine st.line) (tick ticks st.world.bare)).2.kernel.serial.getD []),
          answer out] := by
  have hport := executeLine_port st.line (tick ticks st.world.bare)
  have hworld : (lineAfter st.world (ticks, st.line)).bare =
    (exec (executeLine st.line) (tick ticks st.world.bare)).2.bare := by
    rw [lineAfter, exec_bare, bare_after]
    rfl
  cases hout : (exec (executeLine st.line) (tick ticks st.world.bare)).1 with
  | error f =>
    rw [runLine_error hout] at h
    cases h
  | ok out =>
    rw [runLine_ok hout] at h
    obtain ⟨writer, hw, h⟩ := Option.bind_eq_some_iff.mp h
    generalize (exec (executeLine st.line) (tick ticks st.world.bare)).2 = w' at h hw hport hworld ⊢
    have hsends : Sends font page st
        { st with world := w'.after [] (st.world.kernel.serial.getD []), writer := writer }
        (lineAfter st.world (ticks, st.line))
        [.screen w'.kernel.console, .port (w'.kernel.serial.getD [])] := by
      refine ⟨?_, ?_, (bind_pure _).trans hw⟩
      · rw [hworld]
        exact bare_after w'
      · change w'.kernel.serial.map (st.world.kernel.serial.getD [] ++ ·) = _
        change w'.kernel.serial.isSome = (st.world.kernel.serial.map fun _ => []).isSome at hport
        cases hs : st.world.kernel.serial <;> cases hs' : w'.kernel.serial <;>
          rw [hs, hs'] at hport <;> simp at hport
        · rfl
        · simp [Output.sent]
    have hrest : Sends font page _ st' _ [answer out] := respond_sends h
    have hline := respond_line h
    exact ⟨out, rfl, hline, hsends.trans (hrest.of_bare hsends.world)⟩

theorem Sends.shell (S : Sends font page st st' (lineAfter st.world (ticks, st.line)) outs) :
    st'.world.shell = (exec (executeLine st.line) (tick ticks st.world.bare)).2.shell := by
  have hlast : (lineAfter st.world (ticks, st.line)).shell =
    (exec (executeLine st.line) (tick ticks st.world.bare)).2.shell := by
    rw [lineAfter, exec_bare]
    rfl
  have hbare := congrArg World.shell S.world
  exact hlast ▸ hbare

theorem enter_sends (h : enter font ticks st = some st') :
    st'.line = [] ∧ Sends font page st st' (lineAfter st.world (ticks, st.line))
      (lineOutputs (ticks, st.line) st.world) ∧
      ∃ outs w', exec (session [(ticks, st.line)]) st.world = (.ok outs, w') := by
  obtain ⟨st₁, h₁, h⟩ := Option.bind_eq_some_iff.mp h
  obtain ⟨st₂, h₂, h⟩ := Option.bind_eq_some_iff.mp h
  have S₁ : Sends font page st st₁ st.world [.both [newlineByte]] := echo_sends h₁
  obtain ⟨out, hout, -, S₂⟩ := @runLine_sends font page _ _ _ h₂
  have S₃ : Sends font page { st₂ with line :=
    [] } st' st₂.world [.both (prompt st₂.world.shell)] := echo_sends h
  have hshell := S₂.shell
  rw [(echo_same h₁).1] at hout S₂ hshell
  have hafter := (lineAfter_bare S₁.world (ticks, st.line)).2
  rw [S₁.world] at hout S₂ hshell
  refine ⟨(echo_same h).1, ?_, ?_⟩
  · have S := S₁.trans (S₂.trans S₃.of_line)
    rw [hshell] at S
    have hanswer : answer out =
      answer ((exec (executeLine st.line) (tick ticks st.world.bare)).1.toOption.getD []) := by
      rw [hout]
      rfl
    rw [hanswer] at S
    exact S.of_bare (S₂.world.trans hafter)
  · have hrun : (exec (executeLine st.line) (tick ticks st.world)).1 = .ok out := by
      rw [exec_bare]
      exact hout
    exact ⟨_, _, session_step (Prod.ext hrun rfl) rfl⟩

theorem handleKey_sends (hpage : max (st.writer.viewportRows - 1) 1 = page)
    (h : handleKey font ticks st key = some st') :
    st'.line = editKey st.line key ∧
      Sends font page st st' (worldAfter (entered ticks st.line key) st.world)
      (keyOutputs ticks st.line st.world key) ∧
      ∃ outs w', exec (session (entered ticks st.line key)) st.world = (.ok outs, w') := by
  cases key with
  | rawKey k =>
    obtain ⟨writer, hw, h⟩ := Option.bind_eq_some_iff.mp h
    cases h
    refine ⟨rfl, ⟨rfl, by simp [keyOutputs, Output.sent], ?_⟩, [], _, rfl⟩
    subst hpage
    cases k with
    | other => exact hw
    | _ => exact (bind_pure _).trans hw
  | unicode c =>
    simp only [handleKey] at h
    simp only [editKey, keyOutputs, entered]
    split_ifs at h ⊢ with hnl herase hnone htyped
    · obtain ⟨hline, S, hrun⟩ := enter_sends h
      exact ⟨hline, S, hrun⟩
    · cases h
      exact ⟨by rw [hnone, List.dropLast_nil], .refl _, [], _, rfl⟩
    · have S : Sends font page _ st' _ [.both (text "\x08 \x08")] := echo_sends h
      exact ⟨(echo_same h).1, S.of_line, [], _, rfl⟩
    · have S : Sends font page _ st' _ [.both [UInt8.ofNat c.toNat]] := echo_sends h
      exact ⟨(echo_same h).1, S.of_line, [], _, rfl⟩
    · cases h
      exact ⟨rfl, .refl _, [], _, rfl⟩

/-! When a key is handled. -/

def Plays (font : Font) (page : Nat) (writer : Writer) (outs : List Output) : Prop :=
  ∃ wr, run font writer (outs.flatMap (Output.calls page)) = some wr

theorem Plays.left {writer : Writer} (h : Plays font page writer (outs ++ outs')) :
    Plays font page writer outs := by
  obtain ⟨wr, h⟩ := h
  rw [List.flatMap_append, run_append] at h
  obtain ⟨m, hm, -⟩ := Option.bind_eq_some_iff.mp h
  exact ⟨m, hm⟩

theorem Sends.plays_iff (S : Sends font page st st' w outs) :
    Plays font page st.writer (outs ++ outs') ↔ Plays font page st'.writer outs' := by
  simp only [Plays, List.flatMap_append, run_append, S.screen, Option.bind_some]

theorem echo_plays {s : Str} (h : Plays font page st.writer [.both s]) :
    ∃ st', echo font s st = some st' := by
  obtain ⟨wr, h⟩ := h
  have hw : writeStr font st.writer (chars s) = some wr := (bind_pure _).symm.trans h
  exact ⟨_, by rw [echo, hw]; rfl⟩

theorem respond_plays {out : Str} (h : Plays font page st.writer [answer out]) :
    ∃ st', respond font out st = some st' := by
  unfold answer at h
  unfold respond
  split_ifs at h ⊢ with hclear hsome
  · exact ⟨_, rfl⟩
  · exact echo_plays h
  · exact ⟨_, rfl⟩

theorem runLine_plays {out : Str}
    (hout : (exec (executeLine st.line) (tick ticks st.world.bare)).1 = .ok out)
    (h : Plays font page st.writer
      [.screen (exec (executeLine st.line) (tick ticks st.world.bare)).2.kernel.console,
      .port ((exec (executeLine st.line) (tick ticks st.world.bare)).2.kernel.serial.getD []),
      answer out]) :
    ∃ st', runLine font ticks st = some st' := by
  rw [runLine_ok hout]
  obtain ⟨wr, h⟩ := h
  obtain ⟨m, hm, h⟩ := Option.bind_eq_some_iff.mp h
  change writeStr font st.writer _ = some m at hm
  rw [hm, Option.bind_some]
  exact respond_plays ⟨wr, h⟩

theorem session_single (x : Nat × Str) (w : World) :
    (exec (session [x]) w).1 = (exec (executeLine x.2) (tick x.1 w)).1.map fun out => [out] := by
  change (exec (executeLine x.2 >>= _) (tick x.1 w)).1 = _
  rw [exec_bind]
  rcases exec (executeLine x.2) (tick x.1 w) with ⟨f | out, w'⟩ <;> rfl

theorem session_line {x : Nat × Str} {outs : List Str}
    (hrun : exec (session [x]) w = (.ok outs, w')) :
    ∃ out, (exec (executeLine x.2) (tick x.1 w.bare)).1 = .ok out := by
  have hbare := session_bare [x] w
  rw [hrun, session_single] at hbare
  cases hline : (exec (executeLine x.2) (tick x.1 w.bare)).1 with
  | error f =>
    rw [hline] at hbare
    cases hbare
  | ok out => exact ⟨out, rfl⟩

theorem enter_plays {outs : List Str}
    (hrun : exec (session [(ticks, st.line)]) st.world = (.ok outs, w'))
    (h : Plays font page st.writer (lineOutputs (ticks, st.line) st.world)) :
    ∃ st', enter font ticks st = some st' := by
  obtain ⟨out, hout⟩ : ∃ out, (exec (executeLine st.line) (tick ticks st.world.bare)).1 = .ok out :=
    session_line hrun
  have hsplit : lineOutputs (ticks, st.line) st.world = [.both [newlineByte]] ++
      ([.screen (exec (executeLine st.line) (tick ticks st.world.bare)).2.kernel.console,
        .port ((exec (executeLine st.line) (tick ticks st.world.bare)).2.kernel.serial.getD []),
          answer out] ++
        [.both (prompt (exec (executeLine st.line) (tick ticks st.world.bare)).2.shell)]) := by
    simp only [lineOutputs, hout]
    rfl
  rw [hsplit] at h
  obtain ⟨st₁, h₁⟩ := echo_plays h.left
  have S₁ : Sends font page st st₁ st.world [.both [newlineByte]] := echo_sends h₁
  rw [S₁.plays_iff] at h
  rw [← S₁.world, ← (echo_same h₁).1] at hout h
  obtain ⟨st₂, h₂⟩ := runLine_plays hout h.left
  obtain ⟨out', hout', -, S₂⟩ := @runLine_sends font page _ _ _ h₂
  obtain rfl : out = out' := Except.ok.inj (hout.symm.trans hout')
  rw [S₂.plays_iff, ← S₂.shell] at h
  have hprompt : ∃ st', echo font (prompt st₂.world.shell) { st₂ with line := [] } = some st' :=
    echo_plays h
  obtain ⟨st', h'⟩ := hprompt
  exact ⟨st', by rw [enter, h₁, Option.bind_eq_bind, Option.bind_some, h₂]; exact h'⟩

theorem handleKey_plays {outs : List Str} (hpage : max (st.writer.viewportRows - 1) 1 = page)
    (hrun : exec (session (entered ticks st.line key)) st.world = (.ok outs, w'))
    (h : Plays font page st.writer (keyOutputs ticks st.line st.world key)) :
    ∃ st', handleKey font ticks st key = some st' := by
  cases key with
  | rawKey k =>
    obtain ⟨wr, h⟩ := h
    subst hpage
    have hroute : routeRawkey font st.writer k = some wr := by
      cases k with
      | other => exact h
      | _ => exact (bind_pure _).symm.trans h
    exact ⟨_, by rw [handleKey, hroute]; rfl⟩
  | unicode c =>
    simp only [keyOutputs, entered] at h hrun
    simp only [handleKey]
    split_ifs at h hrun ⊢
    · exact enter_plays hrun h
    · exact ⟨_, rfl⟩
    · exact echo_plays h
    · exact echo_plays h
    · exact ⟨_, rfl⟩

end Keys

/-! Many keys. -/

section Runs

variable {font : Font} {page : Nat} {st st' : LoopState} {w w' : World} {info : Info}

theorem page_eq {P : Nat → Prop} (H : Placed info P st.writer) :
    max (st.writer.viewportRows - 1) 1 = pageStep info := by
  rw [H.viewport, pageStep]

theorem Sends.placed {outs : List Output} (S : Sends font (pageStep info) st st' w outs)
    (H : Placed info (fun _ => True) st.writer) : Placed info (fun _ => True) st'.writer :=
  run_placed ⟨fun _ _ _ => trivial, fun _ _ => trivial⟩ H S.screen

theorem session_returns {lines : List (Nat × Str)} (h : w.bare = w'.bare) :
    (∃ outs w₁, exec (session lines) w = (.ok outs, w₁)) ↔
    ∃ outs w₁, exec (session lines) w' = (.ok outs, w₁) := by
  have hsame : (exec (session lines) w).1 = (exec (session lines) w').1 := by
    rw [session_bare lines w, session_bare lines w', h]
  constructor
  · rintro ⟨outs, w₁, hrun⟩
    rw [hrun] at hsame
    exact ⟨outs, (exec (session lines) w').2, Prod.ext hsame.symm rfl⟩
  · rintro ⟨outs, w₁, hrun⟩
    rw [hrun] at hsame
    exact ⟨outs, (exec (session lines) w).2, Prod.ext hsame rfl⟩

theorem session_split {lines rest : List (Nat × Str)} {outs : List Str}
    (h : exec (session (lines ++ rest)) w = (.ok outs, w')) :
    (∃ outs₁ w₁, exec (session lines) w = (.ok outs₁, w₁)) ∧
      ∃ outs₂ w₂, exec (session rest) (worldAfter lines w) = (.ok outs₂, w₂) := by
  rw [session_append, exec_bind] at h
  rcases hrun : exec (session lines) w with ⟨f | outs₁, w₁⟩
  · rw [hrun] at h
    cases h
  · rw [hrun] at h
    dsimp only at h
    rw [exec_bind] at h
    rw [worldAfter_eq hrun]
    rcases hrest : exec (session rest) w₁ with ⟨f | outs₂, w₂⟩
    · rw [hrest] at h
      cases h
    · exact ⟨⟨outs₁, w₁, rfl⟩, outs₂, w₂, rfl⟩

/-- The loop is the session of the lines entered, plus what it sends. -/
theorem handleKeys_sends {keys : List (Nat × DecodedKey)}
    (H : Placed info (fun _ => True) st.writer) (h : handleKeys font st keys = some st') :
    st'.line = begun st.line keys ∧
      Sends font (pageStep info) st st' (worldAfter (typed st.line keys) st.world)
      (outputs st.line st.world keys) ∧
      ∃ outs w', exec (session (typed st.line keys)) st.world = (.ok outs, w') := by
  induction keys generalizing st with
  | nil =>
    cases h
    exact ⟨rfl, .refl _, [], _, rfl⟩
  | cons key keys ih =>
    rw [handleKeys, List.foldlM_cons] at h
    obtain ⟨m, hm, h⟩ := Option.bind_eq_some_iff.mp h
    obtain ⟨hline, S, outs, w₁, hrun⟩ := handleKey_sends (page_eq H) hm
    obtain ⟨hline', S', hreturns⟩ := ih (S.placed H) h
    rw [hline] at hline' S' hreturns
    rw [outputs_bare S.world] at S'
    rw [session_returns S.world] at hreturns
    obtain ⟨outs', w₂, hrun'⟩ := hreturns
    rw [worldAfter_eq hrun] at hrun'
    refine ⟨hline', ?_, outs ++ outs', w₂, session_then hrun hrun'⟩
    rw [typed, worldAfter, List.foldl_append]
    exact S.trans (S'.of_bare (worldAfter_bare S.world _))

theorem handleKeys_plays {keys : List (Nat × DecodedKey)} {outs : List Str}
    (H : Placed info (fun _ => True) st.writer)
    (hrun : exec (session (typed st.line keys)) st.world = (.ok outs, w'))
    (h : Plays font (pageStep info) st.writer (outputs st.line st.world keys)) :
    ∃ st', handleKeys font st keys = some st' := by
  induction keys generalizing st outs w' with
  | nil => exact ⟨st, rfl⟩
  | cons key keys ih =>
    obtain ⟨⟨outs₁, w₁, hrun₁⟩, hrest⟩ := session_split hrun
    rw [outputs] at h
    obtain ⟨m, hm⟩ := handleKey_plays (page_eq H) hrun₁ h.left
    obtain ⟨hline, S, -⟩ := handleKey_sends (page_eq H) hm
    rw [S.plays_iff, ← outputs_bare S.world, ← hline] at h
    rw [← session_returns S.world, ← hline] at hrest
    obtain ⟨outs₂, w₂, hrun₂⟩ := hrest
    obtain ⟨st', h'⟩ := ih (S.placed H) hrun₂ h
    refine ⟨st', ?_⟩
    rw [handleKeys, List.foldlM_cons, hm]
    exact h'

end Runs

/-! From the prompt on. -/

def transcript (vfs : Vfs Backend) (k : Kernel) (keys : List (Nat × DecodedKey)) : List Output :=
  .both (prompt (newShell vfs)) :: outputs [] ⟨newShell vfs, k⟩ keys

def shellLoop (font : Font) (vfs : Vfs Backend) (k : Kernel) (writer : Writer)
    (keys : List (Nat × DecodedKey)) :
    Option LoopState :=
  (start font vfs k writer).bind fun st => handleKeys font st keys

section Start

variable {font : Font} {fb : Bytes} {info : Info} {vfs : Vfs Backend} {k : Kernel}
    {st : LoopState} {w : World}
  {keys : List (Nat × DecodedKey)}

theorem start_sends {page : Nat} {writer : Writer} (h : start font vfs k writer = some st) :
    st.line = [] ∧
    Sends font page ⟨⟨newShell vfs, k⟩, [], writer⟩ st ⟨newShell vfs, k⟩
    [.both (prompt (newShell vfs))] :=
  ⟨(echo_same h).1, echo_sends h⟩

theorem new_rows (fb : Bytes) (info : Info) : Placed info (fun _ => True) (new fb info) :=
  new_placed ⟨fun _ _ _ => trivial, fun _ _ => trivial⟩ fb

theorem shellLoop_sends {writer : Writer} (H : Placed info (fun _ => True) writer)
    (h : shellLoop font vfs k writer keys = some st) : st.line = begun [] keys ∧
    Sends font (pageStep info) ⟨⟨newShell vfs, k⟩, [],
      writer⟩ st (worldAfter (typed [] keys) ⟨newShell vfs, k⟩)
      (transcript vfs k keys) ∧ ∃ outs w, exec (session (typed [] keys)) ⟨newShell vfs, k⟩ =
      (.ok outs, w) := by
  obtain ⟨m, hm, h⟩ := Option.bind_eq_some_iff.mp h
  obtain ⟨hline, S⟩ := start_sends hm
  obtain ⟨hline', S', hreturns⟩ := handleKeys_sends (S.placed H) h
  rw [hline] at hline' S' hreturns
  rw [outputs_bare S.world] at S'
  exact ⟨hline', S.trans (S'.of_bare (worldAfter_bare S.world _)),
    (session_returns S.world).mp hreturns⟩

theorem shellLoop_plays {writer : Writer} {outs : List Str} (H : Placed info (fun _ => True) writer)
    (hrun : exec (session (typed [] keys)) ⟨newShell vfs, k⟩ = (.ok outs, w))
    (h : Plays font (pageStep info) writer (transcript vfs k keys)) :
    ∃ st, shellLoop font vfs k writer keys = some st := by
  have hplays : Plays font (pageStep info) writer ([.both (prompt (newShell vfs))] ++
      outputs [] ⟨newShell vfs, k⟩ keys) := h
  obtain ⟨m, hm⟩ : ∃ m, start font vfs k writer = some m := echo_plays hplays.left
  obtain ⟨hline, S⟩ := start_sends hm
  rw [S.plays_iff, ← outputs_bare S.world, ← hline] at hplays
  have hreturns : ∃ outs w, exec (session (typed m.line keys)) m.world = (.ok outs, w) := by
    rw [session_returns S.world, hline]
    exact ⟨outs, w, hrun⟩
  obtain ⟨outs', w', hrun'⟩ := hreturns
  obtain ⟨st, h⟩ := handleKeys_plays (S.placed H) hrun' hplays
  exact ⟨st, by rw [shellLoop, hm]; exact h⟩

end Start

/-- The interactive shell is the shell over the lines that the keys spell: the file systems
and the drive end as after the session of these lines, the port has been sent the transcript
and the screen shows what the transcript's calls draw; and the driver stops early only where
the session or one of these calls does. -/
theorem shellLoop_session (font : Font) (fb : Bytes) (info : Info) (vfs : Vfs Backend) (k : Kernel)
    (keys : List (Nat × DecodedKey)) :
    ((∃ st, shellLoop font vfs k (new fb info) keys = some st) ↔
      (∃ outs w, exec (session (typed [] keys)) ⟨newShell vfs, k⟩ = (.ok outs, w)) ∧
        ∃ writer, run font (new fb info)
        ((transcript vfs k keys).flatMap (Output.calls (pageStep info))) = some writer) ∧
    ∀ st, shellLoop font vfs k (new fb info) keys = some st →
      st.line = begun [] keys ∧
      st.world.bare = (worldAfter (typed [] keys) ⟨newShell vfs, k⟩).bare ∧
      st.world.kernel.serial = k.serial.map (· ++ (transcript vfs k keys).flatMap Output.sent) ∧
      run font (new fb info) ((transcript vfs k keys).flatMap (Output.calls (pageStep info))) =
      some st.writer := by
  refine ⟨⟨fun ⟨st, h⟩ => ?_, fun ⟨⟨outs, w, hrun⟩, hplays⟩ =>
    shellLoop_plays (new_rows fb info) hrun hplays⟩, fun st h => ?_⟩
  · obtain ⟨-, S, hreturns⟩ := shellLoop_sends (new_rows fb info) h
    exact ⟨hreturns, _, S.screen⟩
  · obtain ⟨hline, S, -⟩ := shellLoop_sends (new_rows fb info) h
    exact ⟨hline, S.world, S.serial, S.screen⟩

/-! Power cycles with a keyboard. -/

/-- What `kernel_main` prints before it starts the shell. -/
def greeting : List Char := chars (text "Willo M10 — type `help`\n")

def kernelMain (font : Font) (fb : Bytes) (info : Info) (vfs : Vfs Backend) (k : Kernel)
    (keys : List (Nat × DecodedKey)) :
    Option LoopState :=
  (writeStr font (new fb info) greeting).bind fun writer => shellLoop font vfs k writer keys

theorem greeting_placed {font : Font} {fb : Bytes} {info : Info} {writer : Writer}
    (h : writeStr font (new fb info) greeting = some writer) : Placed info (fun _ => True) writer :=
  writeStr_placed ⟨fun _ _ _ => trivial, fun _ _ => trivial⟩ (new_rows fb info) h

theorem editKey_typed {line : Str} (h : Typed line) (key : DecodedKey) :
    Typed (editKey line key) := by
  cases key with
  | rawKey k => exact h
  | unicode c =>
    simp only [editKey]
    split_ifs with hnl herase hprint
    · exact ⟨by simp, by simp⟩
    · have hlen := h.length
      exact ⟨by
        rw [List.length_dropLast]; omega, fun b hb => h.printable b (List.mem_of_mem_dropLast hb)⟩
    · exact typed_snoc h hprint.1 hprint.2
    · exact h

theorem typed_typed {line : Str} (h : Typed line) (keys : List (Nat × DecodedKey)) :
    ∀ x ∈ typed line keys, Typed x.2 := by
  induction keys generalizing line with
  | nil => exact fun x hx => absurd hx List.not_mem_nil
  | cons key keys ih =>
    intro x hx
    rw [typed, List.mem_append] at hx
    rcases hx with hx | hx
    · obtain ⟨ticks, k | c⟩ := key
      · exact absurd hx List.not_mem_nil
      · simp only [entered] at hx
        split_ifs at hx
        · rw [List.mem_singleton.mp hx]
          exact h
        · exact absurd hx List.not_mem_nil
    · exact ih (editKey_typed h key.2) x hx

theorem calls_paged {page n : Nat} (outs : List Output)
    (h : Call.scrollUp n ∈ outs.flatMap (Output.calls page)) : n = page := by
  obtain ⟨out, -, hcall⟩ := List.mem_flatMap.mp h
  rcases out with s | s | s | _ | (_ | _ | _ | _) <;> simp [Output.calls] at hcall
  exact hcall

def bootKeys (font : Font) (info : Info) (fb : Bytes) (d : Disk) (keys : List (Nat × DecodedKey)) :
    Option LoopState :=
  match exec (mountRoot (.ok ())) (powerOn d) with
  | (.error _, _) => none
  -- the greeting comes before the mounts, which print to the serial port alone
  | (.ok vfs, k) => kernelMain font fb info vfs k keys

def keyCycles (font : Font) (info : Info) (fb : Bytes) :
    List (List (Nat × DecodedKey)) → Disk → Option Disk
  | [], d => some d
  | keys :: cycles, d =>
    (bootKeys font info fb d keys).bind fun st => keyCycles font info fb cycles st.world.kernel.disk

section Cycles

variable {font : Font} {info : Info} {fb : Bytes} {v : FatFs} {d d' : Disk} {w : World}

theorem bootKeys_of_boot (S : Screen font info fb.length) {keys : List (Nat × DecodedKey)}
    {outs : List Str} (h : boot d (typed [] keys) = .ok (outs, w)) :
    ∃ st, bootKeys font info fb d keys = some st ∧ st.world.bare = w.bare ∧
    Within info fb.length st.writer := by
  obtain ⟨vfs, k, hmount, hrun⟩ := boot_split h
  obtain ⟨writer, hgreet, W⟩ := writeStr_within S (new_within S rfl) greeting
  have hwithin := run_within S W (writeStr_holds hgreet (new_holds fb info))
    fun n hn => calls_paged (transcript vfs k keys) hn
  obtain ⟨last, hplays, W'⟩ := hwithin
  obtain ⟨st, hst⟩ := shellLoop_plays (greeting_placed hgreet) hrun ⟨last, hplays⟩
  obtain ⟨-, hsends, -⟩ := shellLoop_sends (greeting_placed hgreet) hst
  have hmain : kernelMain font fb info vfs k keys = some st :=
    Option.bind_eq_some_iff.mpr ⟨writer, hgreet, hst⟩
  refine ⟨st, by rw [bootKeys, hmount]; exact hmain, ?_, ?_⟩
  · rw [hsends.world, worldAfter_eq hrun]
  · obtain rfl : last = st.writer := Option.some.inj (hplays.symm.trans hsends.screen)
    exact W'

theorem keyCycles_eq (S : Screen font info fb.length) {cycles : List (List (Nat × DecodedKey))}
    {outs : List (List Str)} (h : powerCycles (cycles.map (typed [])) d = .ok (outs, d')) :
    keyCycles font info fb cycles d = some d' := by
  induction cycles generalizing d outs with
  | nil =>
    cases h
    rfl
  | cons keys cycles ih =>
    obtain ⟨out, w, outs', hboot, hrest, -⟩ := powerCycles_split h
    obtain ⟨st, hst, hworld, -⟩ := bootKeys_of_boot S hboot
    have hdisk : st.world.kernel.disk = w.kernel.disk := congrArg (fun w => w.kernel.disk) hworld
    rw [keyCycles, hst, Option.bind_some, hdisk]
    exact ih hrest

end Cycles

theorem keyCycles_mounts {font : Font} {info : Info} {fb : Bytes} {v : FatFs} {d : Disk}
    (S : Screen font info fb.length) {cycles : List (List (Nat × DecodedKey))}
    (h : MountsEach v d (cycles.map (typed []))) {done : List (List (Nat × DecodedKey))}
    (hdone : done <+: cycles) : ∃ d', keyCycles font info fb done d = some d' ∧
      (exec (mountRoot (.ok ())) (powerOn d')).1 = .ok (rootTable (.fat v) (.tmp TmpFs.new)) := by
  obtain ⟨outs, hrun, hmount⟩ := h _ (hdone.map (typed []))
  exact ⟨_, keyCycles_eq S hrun, hmount⟩

/-- The machine from power-on to power-off, again and again, under whatever keys: with a font
and a screen in order and a well-formed volume whose created names come back, every boot
mounts the volume and handles every key, and the volume refines the store machine through
all of it, its calls being those of the lines that the keys spell. -/
theorem keyCycles_refine {font : Font} {info : Info} {fb : Bytes} {v : FatFs} {d : Disk}
    (W : WellFormed v d) (S : Screen font info fb.length) {cycles : List (List (Nat × DecodedKey))}
    (hkept : NamesKept (cycleCalls v (cycles.map (typed [])) d)) :
    ∃ d', keyCycles font info fb cycles d = some d' ∧
      d' = runCalls v (cycleCalls v (cycles.map (typed [])) d) d ∧
      WellFormed v d' ∧
      (∀ done, done <+: cycles → ∃ d₁, keyCycles font info fb done d = some d₁ ∧
        (exec (mountRoot (.ok ())) (powerOn d₁)).1 = .ok (rootTable (.fat v) (.tmp TmpFs.new))) ∧
      History lower (store v (view v d))
      ((cycleCalls v (cycles.map (typed [])) d).map Fat.Call.request)
        (reports v (cycleCalls v (cycles.map (typed [])) d) d) (store v (view v d')) := by
  have htyped : ∀ lines ∈ cycles.map (typed []), ∀ x ∈ lines, Typed x.2 := by
    intro lines hlines
    obtain ⟨keys, -, rfl⟩ := List.mem_map.mp hlines
    exact typed_typed ⟨by simp, by simp⟩ keys
  obtain ⟨outs, hrun, -, W'⟩ := powerCycles_run W htyped hkept
  have hregular := cycleCalls_regular htyped hkept
  exact ⟨_, keyCycles_eq S hrun, rfl, W', fun done =>
    keyCycles_mounts S (powerCycles_mounts W htyped hkept),
    Fat.runCalls_refines W (Fat.along_of_forall fun c hc d => hregular c hc d)⟩

def pressed (s : String) : List (Nat × DecodedKey) := s.toList.map fun c => (0, .unicode c)

/-- A file in a directory, its name corrected while typed, and a removal refused at the
next boot. -/
def correctedKeys : List (List (Nat × DecodedKey)) :=
  [pressed "mkdir /d\nwrite /d/b\x08a hi\n", pressed "rm /d\n"]

theorem keyCycles_refine_twoBoots :
    ∃ d', keyCycles blockFont ⟨10, 17, 10, 3,
      .rgb⟩ (List.replicate 510 0) correctedKeys (Fat.blankDisk 20) = some d' ∧
      d' = runCalls Fat.smallVolume
      (cycleCalls Fat.smallVolume (correctedKeys.map (typed [])) (Fat.blankDisk 20))
        (Fat.blankDisk 20) ∧
      WellFormed Fat.smallVolume d' ∧
      (∀ done, done <+: correctedKeys → ∃ d₁,
        keyCycles blockFont ⟨10, 17, 10, 3, .rgb⟩ (List.replicate 510 0) done (Fat.blankDisk 20) =
        some d₁ ∧
        (exec (mountRoot (.ok ())) (powerOn d₁)).1 =
        .ok (rootTable (.fat Fat.smallVolume) (.tmp TmpFs.new))) ∧
      History lower (store Fat.smallVolume (view Fat.smallVolume (Fat.blankDisk 20)))
        ((cycleCalls Fat.smallVolume (correctedKeys.map (typed [])) (Fat.blankDisk 20)).map
        Fat.Call.request)
        (reports Fat.smallVolume
        (cycleCalls Fat.smallVolume (correctedKeys.map (typed [])) (Fat.blankDisk 20))
        (Fat.blankDisk 20))
        (store Fat.smallVolume (view Fat.smallVolume d')) := by
  have hscreen : Screen blockFont ⟨10, 17, 10, 3,
    .rgb⟩ (List.replicate 510 (0 : UInt8)).length := by
    rw [List.length_replicate]
    exact screen_of_glyph (fun _ => rfl) (by decide) (by decide) (by decide) (by decide)
      (by decide) (by decide)
      (by decide) (by decide)
  have hkept : ∀ c ∈ cycleCalls Fat.smallVolume (correctedKeys.map (typed [])) (Fat.blankDisk 20),
      ∀ name ∈ c.path.getLast?, Fat.Kept name := by decide +kernel
  exact keyCycles_refine (Fat.blankDisk_wellFormed (show 4 ≤ 20 by decide)) hscreen
    fun c hc _ name hname =>
    hkept c hc name hname

end Willo.ShellLoop
