import Willo.ClearedScreen
import Willo.ShellTyping

/-! From the keys to the pixels. The shell at its keyboard makes the calls of its transcript,
and its `clear` always comes between lines, since every command prints whole lines; so the
frame buffer is a picture that the mounts, the drive and the keys determine. -/

namespace Willo.ShellLoop
open Text Paths ByteCodec FaultState MountTable KernelFs ShellCore Framebuffer

structure Located (w : World) : Prop where
  cwd : Canonical w.shell.cwd
  printable : ∀ b ∈ w.shell.cwd, Printable b

section Between

variable {page : Nat} {t : Lines} {w w' : World} {x : Nat × Str} {outs : List Str}

theorem chars_newline : chars [newlineByte] = ['\n'] := by decide +kernel

theorem push_terminated {s : Str} (hs : Terminated s) (h : t.rest = []) :
    ((chars s).foldl Lines.push t).rest = [] := by
  rcases hs with rfl | hs
  · exact h
  · obtain ⟨front, rfl⟩ := List.getLast?_eq_some_iff.mp hs
    have hnl : ∀ b ∈ [newlineByte], b < 0x80 := List.forall_mem_singleton.mpr (by decide)
    rw [chars_append hnl, List.foldl_append, chars_newline]
    rfl

theorem line_prints (L : Located w) (h : Typed x.2) (hrun : exec (session [x]) w = (.ok outs, w')) :
    Terminated (exec (executeLine x.2) (tick x.1 w.bare)).2.kernel.console ∧
    Located (lineAfter w x) := by
  obtain ⟨out, hout⟩ := session_line hrun
  have H : Healthy False Fat.smallVolume [] (tick x.1 w.bare) :=
    ⟨False.elim, False.elim, L.cwd, L.printable, [], Or.inl rfl, rfl⟩
  obtain ⟨H', -⟩ := (executeLine_meets H h).of_eq (Prod.ext hout rfl)
  obtain ⟨printed, hprinted, hconsole⟩ := H'.printed
  have hshell : (lineAfter w x).shell = (exec (executeLine x.2) (tick x.1 w.bare)).2.shell := by
    rw [lineAfter, exec_bare]
    rfl
  refine ⟨?_, ⟨hshell ▸ H'.cwd, hshell ▸ H'.printable⟩⟩
  rw [hconsole]
  exact hprinted

theorem writeStr_between (s : List Char) {calls : List Call}
    (h : ClearsBetween (s.foldl Lines.push t) calls) :
    ClearsBetween t (.writeStr s :: calls) := by
  refine ⟨by simp, ?_⟩
  have hwritten : written [.writeStr s] = s := by simp [written]
  rwa [hwritten]

theorem lineOutputs_clears
    (h : Terminated (exec (executeLine x.2) (tick x.1 w.bare)).2.kernel.console) (t : Lines) :
    ClearsBetween t ((lineOutputs x w).flatMap (Output.calls page)) := by
  have hline : ((chars [newlineByte]).foldl Lines.push t).rest = [] := by
    rw [chars_newline]
    rfl
  have hprinted := push_terminated h hline
  simp only [lineOutputs, answer]
  split_ifs
  · simpa [Output.calls, ClearsBetween, written] using hprinted
  · simp [Output.calls, ClearsBetween]

theorem keyOutputs_clears {ticks : Nat} {line : Str} {key : DecodedKey} (L : Located w)
    (h : Typed line)
    (hrun : exec (session (entered ticks line key)) w = (.ok outs, w')) (t : Lines) :
    ClearsBetween t ((keyOutputs ticks line w key).flatMap (Output.calls page)) ∧
      Located (worldAfter (entered ticks line key) w) := by
  cases key with
  | rawKey k => cases k <;> exact ⟨by simp [keyOutputs, Output.calls, ClearsBetween], L⟩
  | unicode c =>
    simp only [keyOutputs, entered] at hrun ⊢
    split_ifs at hrun ⊢
    · obtain ⟨hconsole, L'⟩ := line_prints L h hrun
      exact ⟨lineOutputs_clears hconsole t, L'⟩
    · exact ⟨trivial, L⟩
    · exact ⟨by simp [Output.calls, ClearsBetween], L⟩
    · exact ⟨by simp [Output.calls, ClearsBetween], L⟩
    · exact ⟨trivial, L⟩

theorem outputs_clears {keys : List (Nat × DecodedKey)} {line : Str} (L : Located w)
    (h : Typed line) (hrun : exec (session (typed line keys)) w = (.ok outs, w')) (t : Lines) :
    ClearsBetween t ((outputs line w keys).flatMap (Output.calls page)) := by
  induction keys generalizing line w w' outs t with
  | nil => trivial
  | cons key keys ih =>
    obtain ⟨⟨outs₁, w₁, hrun₁⟩, outs₂, w₂, hrun₂⟩ := session_split hrun
    obtain ⟨hkey, L'⟩ := @keyOutputs_clears page _ _ _ _ _ _ L h hrun₁ t
    rw [outputs, List.flatMap_append, clearsBetween_append]
    exact ⟨hkey, ih L' (editKey_typed h key.2) hrun₂ _⟩

theorem transcript_clears {vfs : Vfs Backend} {k : Kernel} {keys : List (Nat × DecodedKey)}
    (hrun : exec (session (typed [] keys)) ⟨newShell vfs, k⟩ = (.ok outs, w)) (t : Lines) :
    ClearsBetween t ((transcript vfs k keys).flatMap (Output.calls page)) := by
  have L : Located ⟨newShell vfs, k⟩ := ⟨⟨[], by simp, rfl⟩, root_printable⟩
  exact writeStr_between _ (outputs_clears L ⟨by simp, by simp⟩ hrun _)

theorem fitsRows_of_length {font : Font} {info : Info} {cs : List Char}
    (h : borderPadding + cs.length * font.width < info.width) : FitsRows font info cs :=
  fun _ hrun _ =>
  Nat.lt_of_le_of_lt (Nat.add_le_add_left (Nat.mul_le_mul_right _ hrun.length_le) _) h

end Between

def screenCalls (info : Info) (vfs : Vfs Backend) (k : Kernel)
    (keys : List (Nat × DecodedKey)) : List Call :=
  .writeStr greeting :: (transcript vfs k keys).flatMap (Output.calls (pageStep info))

def shownLines (info : Info) (vfs : Vfs Backend) (k : Kernel) (keys : List (Nat × DecodedKey)) :
    List (List Char) :=
  (Watcher.run (viewportRows info) (screenCalls info vfs k keys)).lines (viewportRows info)

/-- Whatever is typed, scrolled and cleared: with a font and a screen in order and output that
fits its rows, the frame buffer is the picture of the lines that the transcript tells. -/
theorem typed_shows {font : Font} {fb : Bytes} {info : Info} (G : Geometry font info)
    (hcap : viewportRows info ≤ scrollbackLines + 1) {vfs : Vfs Backend} {k : Kernel}
    {keys : List (Nat × DecodedKey)}
    {st : LoopState} (h : kernelMain font fb info vfs k keys = some st)
    (hr : '\r' ∉ written (screenCalls info vfs k keys))
    (hfits : FitsRows font info (written (screenCalls info vfs k keys))) :
    picture font info (viewportRows info) (shownLines info vfs k keys) fb =
      some st.writer.framebuffer := by
  obtain ⟨writer, hgreet, h⟩ := Option.bind_eq_some_iff.mp h
  obtain ⟨-, S, outs, w, hrun⟩ := shellLoop_sends (greeting_placed hgreet) h
  have hcalls : run font (new fb info) (screenCalls info vfs k keys) = some st.writer := by
    rw [screenCalls, run, List.foldlM_cons]
    exact Option.bind_eq_some_iff.mpr ⟨writer, hgreet, S.screen⟩
  exact run_shows G hcap hr hfits (writeStr_between _ (transcript_clears hrun _)) hcalls

def wideRows : Info := ⟨802, 40, 802, 1, .u8⟩

theorem wideRows_screen : Screen blockFont wideRows (List.replicate 32080 (0 : UInt8)).length := by
  rw [List.length_replicate]
  exact screen_of_glyph (fun _ => rfl) (by decide) (by decide) (by decide) (by decide)
    (by decide) (by decide)
    (by decide) (by decide)

/-- An empty line, `clear`, and the beginning of another line. -/
theorem typed_shows_clear :
    ∃ st, kernelMain blockFont (List.replicate 32080 0) wideRows bootTable bootKernel
      (pressed "\nclear\nl") = some st ∧
      picture blockFont wideRows 2 [chars (text "willo:/$ l")] (List.replicate 32080 0) =
      some st.writer.framebuffer := by
  obtain ⟨outs, w, hrun, -⟩ :=
    session_safe (k := bootKernel) bootTable_fats (Fat.blankDisk_wellFormed (by decide))
    (@typed_typed [] ⟨by simp, by simp⟩ (pressed "\nclear\nl"))
  have W : Within wideRows _ (new (List.replicate 32080 0) wideRows) :=
    new_within wideRows_screen rfl
  obtain ⟨writer, hgreet, W'⟩ := writeStr_within wideRows_screen W greeting
  obtain ⟨last, hplays, -⟩ := run_within wideRows_screen W' (writeStr_holds hgreet (new_holds _ _))
    fun n hn => calls_paged (transcript bootTable bootKernel (pressed "\nclear\nl")) hn
  obtain ⟨st, hst⟩ := shellLoop_plays (greeting_placed hgreet) hrun ⟨last, hplays⟩
  have hmain : kernelMain blockFont (List.replicate 32080 0) wideRows bootTable bootKernel
    (pressed "\nclear\nl") = some st :=
    Option.bind_eq_some_iff.mpr ⟨writer, hgreet, hst⟩
  have hlines : shownLines wideRows bootTable bootKernel (pressed "\nclear\nl") =
    [chars (text "willo:/$ l")] := by
    decide +kernel
  have hfits : FitsRows blockFont wideRows
    (written (screenCalls wideRows bootTable bootKernel (pressed "\nclear\nl"))) :=
    fitsRows_of_length (by decide +kernel)
  have hshows := typed_shows (blockFont_geometry (by decide) (by decide) (by decide))
    (by decide) hmain (by decide +kernel) hfits
  rw [hlines] at hshows
  exact ⟨st, hmain, hshows⟩

end Willo.ShellLoop
