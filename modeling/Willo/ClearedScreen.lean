import Willo.ScrolledScreen

/-! The screen with `clear`. Clearing at the start of a line takes the lines so far off a
live screen and nothing out of the ring: the live screen is then the one of the later lines
alone, until a turn back and forth brings the others in again. -/

namespace Willo.Framebuffer
open ByteCodec

/-! The watcher. -/

/-- The viewer, and how many of the lines from the first a live screen leaves out. -/
structure Watcher extends Viewer where
  hidden : Nat

/-- A `clear` hides the lines so far, and a redraw shows them again. -/
def Watcher.hides (rows : Nat) (s : Watcher) : Call → Nat
  | .clear => s.text.done.length
  | call => if (s.toViewer.step rows call).offset = s.offset then s.hidden else 0

def Watcher.step (rows : Nat) (s : Watcher) (call : Call) : Watcher :=
  ⟨s.toViewer.step rows call, s.hides rows call⟩

def Watcher.run (rows : Nat) (calls : List Call) : Watcher :=
  calls.foldl (Watcher.step rows) ⟨.start, 0⟩

def Watcher.lines (rows : Nat) (s : Watcher) : List (List Char) :=
  if s.offset = 0 then latest (rows - 1) (s.text.done.drop s.hidden) ++ [s.text.rest] else s.shown

@[irreducible] def cropped (hidden : Nat) (t : Lines) (w : Writer) : Writer :=
  { w with ring := latest scrollbackLines (t.done.drop hidden) }

section Fields

variable (hidden : Nat) (t : Lines) (w : Writer)

theorem cropped_scrollBack : (cropped hidden t w).scrollBack = w.scrollBack := by
  simp only [cropped]

theorem cropped_ring : (cropped hidden t w).ring = latest scrollbackLines (t.done.drop hidden) := by
  simp only [cropped]

theorem cropped_framebuffer : (cropped hidden t w).framebuffer = w.framebuffer := by
  simp only [cropped]

theorem cropped_currentLine : (cropped hidden t w).currentLine = w.currentLine := by
  simp only [cropped]

theorem cropped_info : (cropped hidden t w).info = w.info := by simp only [cropped]

theorem cropped_xPos : (cropped hidden t w).xPos = w.xPos := by simp only [cropped]

theorem cropped_yPos : (cropped hidden t w).yPos = w.yPos := by simp only [cropped]

theorem cropped_viewportRows : (cropped hidden t w).viewportRows = w.viewportRows := by
  simp only [cropped]

end Fields

/-- A live writer with this text, drawn as if the hidden lines had never been. -/
structure Follows (font : Font) (geo : Info) (size : Nat) (t : Lines) (hidden : Nat)
    (w : Writer) : Prop where
  text : Holds w t
  back : w.scrollBack = 0
  hidden_le : hidden ≤ t.done.length
  live : Live font geo size (cropped hidden t w)

theorem latest_latest {α : Type} {n m : Nat} (h : n ≤ m) (l : List α) :
    latest n (latest m l) = latest n l := by
  simp only [latest, List.drop_drop, List.length_drop]
  congr 1
  omega

theorem latest_drop {α : Type} {n k : Nat} {l : List α} (hk : k ≤ l.length)
    (h : n ≤ (l.drop k).length) :
    latest n (l.drop k) = latest n l := by
  rw [List.length_drop] at h
  simp only [latest, List.drop_drop, List.length_drop]
  congr 1
  omega

section Following

variable {font : Font} {info : Info} {size hidden : Nat} {t : Lines} {w w' : Writer}

theorem cropped_holds (F : Follows font info size t hidden w) :
    Holds (cropped hidden t w) ⟨t.done.drop hidden, t.rest⟩ :=
  ⟨cropped_ring hidden t w, (cropped_currentLine hidden t w).trans F.text.currentLine, by
    rw [cropped_scrollBack, F.back]
    exact Nat.zero_le _⟩

theorem redrawVisible_ring {r : List (List Char)} (hrow : 1 ≤ w.viewportRows)
    (hring : latest (w.viewportRows - 1) r = latest (w.viewportRows - 1) w.ring)
    (h : redrawVisible font w 0 = some w') :
    redrawVisible font { w with ring := r } 0 = some { w' with ring := r } := by
  obtain ⟨⟨fb, x, row⟩, hrows, h⟩ := Option.bind_eq_some_iff.mp h
  cases h
  have hsame : visible { w with ring := r } 0 = visible w 0 := by
    rw [visible_zero hrow, visible_zero (w := { w with ring := r }) hrow]
    exact congrArg (· ++ [w.currentLine]) hring
  rw [redrawVisible, hsame]
  exact Option.bind_eq_some_iff.mpr ⟨_, hrows, rfl⟩

theorem advanceVisualRow_ring {r : List (List Char)} (hrow : 1 ≤ w.viewportRows)
    (hring : w.info.height ≤ w.yPos + rowHeight + rasterHeight + borderPadding →
      latest (w.viewportRows - 1) r = latest (w.viewportRows - 1) w.ring)
      (h : advanceVisualRow font w = some w') :
    advanceVisualRow font { w with ring := r } = some { w' with ring := r } := by
  unfold advanceVisualRow
  dsimp only
  obtain ⟨hfull, m, hm, rfl⟩ | ⟨hroom, rfl⟩ := advanceVisualRow_cases h
  · rw [if_pos hfull]
    exact Option.bind_eq_some_iff.mpr ⟨_, redrawVisible_ring (by exact hrow) (hring hfull) hm, rfl⟩
  · rw [if_neg hroom]

theorem pushCurrentToRing_cropped (F : Follows font info size t hidden w) :
    pushCurrentToRing (cropped hidden t w) =
      cropped hidden ⟨t.done ++ [t.rest], []⟩ (pushCurrentToRing w) := by
  have hring := (pushCurrentToRing_holds (cropped_holds F)).ring
  have hsplit : pushCurrentToRing (cropped hidden t w) =
      { w with ring := (pushCurrentToRing (cropped hidden t w)).ring, currentLine := [] } := by
    simp only [pushCurrentToRing, cropped]
  rw [hsplit, hring, ← List.drop_append_of_le_length F.hidden_le]
  simp only [pushCurrentToRing, cropped]

/-- A line end does the same without the hidden lines: a full screen has enough others. -/
theorem newline_cropped (G : Geometry font info) (hcap : viewportRows info ≤ scrollbackLines + 1)
    (F : Follows font info size t hidden w) (h : newline font w = some w') :
    newline font (cropped hidden t w) = some (cropped hidden ⟨t.done ++ [t.rest], []⟩ w') := by
  have hpush := pushCurrentToRing_cropped F
  have H := pushCurrentToRing_holds F.text
  have hcropped := (cropped_scrollBack hidden t w).trans F.back
  have hold := F.live.redrawn hcropped
  have hback : (pushCurrentToRing w).scrollBack = 0 := F.back
  have hback' : (pushCurrentToRing (cropped hidden t w)).scrollBack = 0 := hcropped
  have hview : w.viewportRows = viewportRows info :=
    (cropped_viewportRows hidden t w).symm.trans F.live.viewport
  simp only [newline, hback, hback', if_true] at h ⊢
  rw [hpush, cropped, cropped]
  refine advanceVisualRow_ring (hview ▸ G.row) (fun hfull => ?_) h
  have hlen : (cropped hidden t w).ring.length =
    min scrollbackLines (t.done.drop hidden).length := by
    rw [cropped_ring, length_latest]
  have hover : viewportRows info ≤
    min (w.viewportRows - 1) (cropped hidden t w).ring.length + 1 := by
    have hy := hold.yPos
    rw [cropped_yPos, cropped_viewportRows] at hy
    rw [← G.overflow_iff, ← hy, ← F.live.info, cropped_info]
    exact hfull
  have henough : viewportRows info - 1 ≤ ((t.done ++ [t.rest]).drop hidden).length := by
    rw [List.length_drop] at hlen
    rw [List.length_drop, List.length_append, List.length_singleton]
    omega
  have hview' : (pushCurrentToRing w).viewportRows = viewportRows info := hview
  rw [H.ring, hview', latest_latest (by omega), latest_latest (by omega),
    latest_drop (Nat.le_trans F.hidden_le (by simp)) (by omega)]

theorem newline_follows (G : Geometry font info) (hcap : viewportRows info ≤ scrollbackLines + 1)
    (F : Follows font info size t hidden w) (h : newline font w = some w') :
    Follows font info size ⟨t.done ++ [t.rest], []⟩ hidden w' := by
  refine ⟨newline_holds h F.text, (newline_same h).scrollBack.trans F.back, ?_, ?_⟩
  · rw [List.length_append]
    exact Nat.le_trans F.hidden_le (Nat.le_add_right _ _)
  · exact newline_live G hcap (cropped_holds F).ring_le F.live (newline_cropped G hcap F h)

theorem Live.inside (G : Geometry font info) (L : Live font info size w) (hback : w.scrollBack = 0)
    (hfit : borderPadding + (w.currentLine.length + 1) * font.width < info.width) :
    ¬w.info.width ≤ w.xPos + font.width := by
  obtain ⟨older, x, -, hline⟩ := (L.redrawn hback).drawn
  rw [Nat.add_mul, Nat.one_mul] at hfit
  have hwide : borderPadding + w.currentLine.length * font.width < w.info.width := by
    rw [L.info]
    omega
  have hx := drawLine_x G.glyphWidth hwide hline
  rw [L.info]
  omega

theorem drawChar_ring {c : Char} {r : List (List Char)}
    (hinside : ¬w.info.width ≤ w.xPos + font.width)
    (hback : w.scrollBack = 0) (h : drawChar font c w = some w') :
    drawChar font c { w with ring := r } = some { w' with ring := r } := by
  rw [drawChar, if_pos hback, wrapAtEdge, if_neg hinside, Option.bind_eq_bind,
    Option.bind_some] at h
  obtain ⟨glyph, hglyph, h⟩ := Option.bind_eq_some_iff.mp h
  obtain ⟨fb, hfb, h⟩ := Option.bind_eq_some_iff.mp h
  cases h
  rw [drawChar, if_pos hback, wrapAtEdge, if_neg hinside, Option.bind_eq_bind, Option.bind_some]
  exact Option.bind_eq_some_iff.mpr ⟨glyph, hglyph, Option.bind_eq_some_iff.mpr ⟨fb, hfb, rfl⟩⟩

theorem drawChar_follows (G : Geometry font info) {c : Char}
    (hfit : borderPadding + (t.rest.length + 1) * font.width < info.width)
    (F : Follows font info size t hidden w) (h : drawChar font c w = some w') :
    Follows font info size ⟨t.done,
      t.rest ++ [c]⟩ hidden { w' with currentLine := w'.currentLine ++ [c] } := by
  have hsame := drawChar_same h
  have hcur : (cropped hidden t w).currentLine = t.rest :=
    (cropped_currentLine hidden t w).trans F.text.currentLine
  have hinside := F.live.inside G ((cropped_scrollBack hidden t w).trans F.back) (hcur.symm ▸ hfit)
  rw [cropped_info, cropped_xPos] at hinside
  have hcropped : drawChar font c (cropped hidden t w) = some (cropped hidden t w') := by
    rw [cropped, cropped]
    exact drawChar_ring hinside F.back h
  refine ⟨append_holds (hsame.holds F.text), hsame.scrollBack.trans F.back, F.hidden_le, ?_⟩
  have hdrawn : cropped hidden ⟨t.done,
    t.rest ++ [c]⟩ { w' with currentLine := w'.currentLine ++ [c] } =
      { cropped hidden t w' with currentLine := (cropped hidden t w').currentLine ++ [c] } := by
    simp only [cropped]
  rw [hdrawn]
  exact drawChar_live G (hcur.symm ▸ hfit) F.live hcropped

theorem writeChar_follows (G : Geometry font info)
    (hcap : viewportRows info ≤ scrollbackLines + 1) {c : Char}
    (hc : c ≠ '\r') (hfit : borderPadding + (t.push c).rest.length * font.width < info.width)
    (F : Follows font info size t hidden w) (h : writeChar font w c = some w') :
    Follows font info size (t.push c) hidden w' := by
  unfold writeChar at h
  unfold Lines.push at hfit ⊢
  split_ifs at h hfit ⊢ with hn hfull
  · exact newline_follows G hcap F h
  · obtain ⟨m, hm, h⟩ := Option.bind_eq_some_iff.mp h
    obtain ⟨m', hm', h⟩ := Option.bind_eq_some_iff.mp h
    cases h
    rw [wrapFullLine, F.text.currentLine, if_pos hfull] at hm
    exact drawChar_follows G hfit (newline_follows G hcap F hm) hm'
  · obtain ⟨m, hm, h⟩ := Option.bind_eq_some_iff.mp h
    obtain ⟨m', hm', h⟩ := Option.bind_eq_some_iff.mp h
    cases h
    rw [wrapFullLine, F.text.currentLine, if_neg hfull] at hm
    cases hm
    exact drawChar_follows G (by simpa using hfit) F hm'

theorem writeStr_follows (G : Geometry font info) (hcap : viewportRows info ≤ scrollbackLines + 1)
    {before s after : List Char} (hfits : FitsRows font info (before ++ s ++ after))
    (hr : '\r' ∉ before ++ s)
    (F : Follows font info size (cutLines before) hidden w) (h : writeStr font w s = some w') :
    Follows font info size (cutLines (before ++ s)) hidden w' := by
  induction s generalizing w before with
  | nil =>
    cases h
    rwa [List.append_nil]
  | cons c s ih =>
    rw [writeStr, List.foldlM_cons] at h
    obtain ⟨m, hm, h⟩ := Option.bind_eq_some_iff.mp h
    have hassoc : before ++ c :: s = before ++ [c] ++ s := by simp
    rw [hassoc] at hfits hr ⊢
    have hpush : cutLines (before ++ [c]) = (cutLines before).push c := by simp [cutLines]
    have hr' : '\r' ∉ before ++ [c] := fun hmem => hr (List.mem_append_left _ hmem)
    have hfit : borderPadding + ((cutLines before).push c).rest.length * font.width <
      info.width := by
      rw [List.append_assoc] at hfits
      exact hpush ▸ hfits.rest hr'
    have hc : c ≠ '\r' := by
      rintro rfl
      exact hr' (by simp)
    exact ih hfits hr (hpush ▸ writeChar_follows G hcap hc hfit F hm) h

theorem clear_follows (hrest : t.rest = []) (H : Holds w t) (hback : w.scrollBack = 0)
    (hinfo : w.info = info)
    (hsize : w.framebuffer.length = size) (hview : w.viewportRows = viewportRows info) :
    Follows font info size t t.done.length (clear w) := by
  have hnew : cropped t.done.length t (clear w) = new w.framebuffer info := by
    rw [cropped, List.drop_length]
    obtain ⟨fb, inf, x, y, ring, cur, back, view⟩ := w
    obtain rfl : cur = [] := H.currentLine.trans hrest
    dsimp only at hback hinfo hview
    subst hback hinfo hview
    rfl
  refine ⟨⟨H.ring, H.currentLine, H.offset⟩, hback, Nat.le_refl _, ?_⟩
  rw [hnew, ← hsize]
  exact new_live w.framebuffer

theorem redrawVisible_follows (G : Geometry font info) (H : Holds w' t) (hback : w.scrollBack = 0)
    (hinfo : w.info = info) (hsize : w.framebuffer.length = size)
    (hview : w.viewportRows = viewportRows info) (h : redrawVisible font w 0 = some w') :
    Follows font info size t 0 w' := by
  have hsame := redrawVisible_same h
  have hall : cropped 0 t w' = w' := by
    rw [cropped, List.drop_zero, ← H.ring]
  refine ⟨H, hsame.scrollBack.trans hback, Nat.zero_le _, ?_⟩
  rw [hall]
  exact ⟨hsame.info.trans hinfo, hsame.length.trans hsize, hsame.viewportRows.trans hview,
    fun _ => ((redrawVisible_iff (hview ▸ G.row)).mp h).again⟩

end Following

/-! Runs. -/

def ClearsBetween : Lines → List Call → Prop
  | _, [] => True
  | t, call :: calls =>
    (call = .clear → t.rest = []) ∧ ClearsBetween ((written [call]).foldl Lines.push t) calls

structure Watches (font : Font) (geo : Info) (fb : Bytes) (s : Watcher) (w : Writer) : Prop where
  knows : Knows font fb s.toViewer w
  placed : Placed geo (fun _ => True) w
  follows : s.offset = 0 → Follows font geo fb.length s.text s.hidden w

section Runs

variable {font : Font} {info : Info} {fb : Bytes} {s : Watcher} {w w' : Writer} {t : Lines}
    {calls : List Call}

theorem written_append (calls calls' : List Call) :
    written (calls ++ calls') = written calls ++ written calls' :=
  List.flatMap_append

theorem clearsBetween_append (t : Lines) (calls calls' : List Call) :
    ClearsBetween t (calls ++ calls') ↔
      ClearsBetween t calls ∧ ClearsBetween ((written calls).foldl Lines.push t) calls' := by
  induction calls generalizing t with
  | nil => simp [ClearsBetween, written]
  | cons call calls ih =>
    have hsplit : written (call :: calls) = written [call] ++ written calls :=
      written_append [call] calls
    rw [List.cons_append, ClearsBetween, ih, ClearsBetween, hsplit, List.foldl_append, and_assoc]

theorem moveTo_text (rows : Nat) (s : Viewer) (n : Nat) : (s.moveTo rows n).text = s.text := by
  unfold Viewer.moveTo
  split_ifs <;> rfl

theorem step_text (rows : Nat) (s : Viewer) (call : Call) :
    (s.step rows call).text = (written [call]).foldl Lines.push s.text := by
  cases call with
  | writeStr cs => simp [Viewer.step, written]
  | scrollUp n => exact moveTo_text rows s _
  | scrollDown n => exact moveTo_text rows s _
  | scrollEnd => exact moveTo_text rows s _
  | clear => rfl

theorem Watches.shows (G : Geometry font info) (hcap : viewportRows info ≤ scrollbackLines + 1)
    (W : Watches font info fb s w) :
    picture font info (viewportRows info) (s.lines (viewportRows info)) fb =
      some w.framebuffer := by
  unfold Watcher.lines
  split_ifs with hback
  · have F := W.follows hback
    have hrow : 1 ≤ w.viewportRows := W.placed.viewport.symm ▸ G.row
    have hrow' : 1 ≤ (cropped s.hidden s.text w).viewportRows := by
      rw [cropped_viewportRows]
      exact hrow
    have hlive := F.live.redrawn ((cropped_scrollBack _ _ w).trans F.back)
    have hpic := redrawVisible_picture ((redrawVisible_iff hrow').mpr hlive)
    rw [visible_zero hrow', picture, blank_congr F.live.size, F.live.info, F.live.viewport,
      cropped_currentLine, F.text.currentLine, cropped_ring, cropped_framebuffer,
      latest_latest (by omega)] at hpic
    exact hpic
  · have hpic := W.knows.shown (Nat.pos_of_ne_zero hback)
    rwa [W.placed.info, W.placed.viewport] at hpic

theorem scrollTo_follows (G : Geometry font info) (W : Watches font info fb s w) {n : Nat}
    (hn : n ≤ w.ring.length + 1 - w.viewportRows) (h : scrollTo font w n = some w')
    (hback : (s.toViewer.moveTo (viewportRows info) n).offset = 0) :
    Follows font info fb.length s.text
      (if (s.toViewer.moveTo (viewportRows info) n).offset = s.offset then s.hidden else 0) w' := by
  unfold Viewer.moveTo at hback ⊢
  unfold scrollTo at h
  rw [W.knows.offset] at h
  by_cases hsame : n = s.offset
  · rw [if_pos hsame] at h hback ⊢
    cases h
    rw [if_pos rfl]
    exact W.follows hback
  · rw [if_neg hsame] at h hback ⊢
    obtain rfl : n = 0 := hback
    dsimp only
    rw [if_neg hsame]
    have H : Holds { w with scrollBack := 0 } s.text :=
      ⟨W.knows.text.ring, W.knows.text.currentLine, hn⟩
    exact redrawVisible_follows (w := { w with scrollBack := 0 }) G
      ((redrawVisible_same h).holds H) rfl W.placed.info
      W.knows.length W.placed.viewport h

theorem step_watches (G : Geometry font info) (hcap : viewportRows info ≤ scrollbackLines + 1)
    {before after : List Char} {call : Call}
    (hfits : FitsRows font info (before ++ written [call] ++ after))
    (hr : '\r' ∉ before ++ written [call]) (htext : s.text = cutLines before)
    (hclear : call = .clear → s.text.rest = []) (W : Watches font info fb s w)
    (h : step font w call = some w') :
    Watches font info fb (s.step (viewportRows info) call) w' := by
  have K' := step_knows W.knows h
  rw [W.placed.viewport] at K'
  refine ⟨K', step_placed ⟨fun _ _ _ => trivial, fun _ _ => trivial⟩ W.placed h, fun hback => ?_⟩
  have hmoves : ∀ n, n ≤ w.ring.length + 1 - w.viewportRows → scrollTo font w n = some w' →
      (s.toViewer.moveTo (viewportRows info) n).offset = 0 → Follows font info fb.length
        (s.toViewer.moveTo (viewportRows info) n).text
        (if (s.toViewer.moveTo (viewportRows info) n).offset = s.offset then s.hidden
          else 0) w' := by
    intro n hn hscroll hmoved
    rw [moveTo_text]
    exact scrollTo_follows G W hn hscroll hmoved
  have hring : w.ring.length + 1 = (kept s.text).length := W.knows.text.length_kept
  cases call with
  | writeStr cs =>
    have hwritten : written [.writeStr cs] = cs := by simp [written]
    rw [hwritten] at hfits hr
    have F := writeStr_follows G hcap hfits hr (htext ▸ W.follows hback) h
    rw [cutLines, List.foldl_append, ← cutLines, ← htext] at F
    have hsame : (s.step (viewportRows info) (.writeStr cs)).hidden = s.hidden := if_pos rfl
    rw [hsame]
    exact F
  | scrollUp n =>
    simp only [step, scrollUp] at h
    split_ifs at h
    rw [hring, W.knows.offset, W.placed.viewport] at h
    refine hmoves _ ?_ h hback
    rw [hring, W.placed.viewport]
    exact Nat.min_le_right _ _
  | scrollDown n =>
    simp only [step, scrollDown, W.knows.offset] at h
    have hoff := W.knows.text.offset
    rw [W.knows.offset] at hoff
    exact hmoves _ (Nat.le_trans (Nat.sub_le _ _) hoff) h hback
  | scrollEnd => exact hmoves 0 (Nat.zero_le _) h hback
  | clear =>
    cases h
    exact clear_follows (hclear rfl) W.knows.text (W.knows.offset.trans hback) W.placed.info
      W.knows.length W.placed.viewport

theorem run_watches (G : Geometry font info) (hcap : viewportRows info ≤ scrollbackLines + 1)
    {before : List Char} (hfits : FitsRows font info (before ++ written calls))
    (hr : '\r' ∉ before ++ written calls) (htext : s.text = cutLines before)
    (hclear : ClearsBetween s.text calls) (W : Watches font info fb s w)
    (h : run font w calls = some w') :
    Watches font info fb (calls.foldl (Watcher.step (viewportRows info)) s) w' := by
  induction calls generalizing s w before with
  | nil =>
    cases h
    exact W
  | cons call calls ih =>
    rw [run, List.foldlM_cons] at h
    obtain ⟨m, hm, h⟩ := Option.bind_eq_some_iff.mp h
    have hsplit : before ++ written (call :: calls) =
      before ++ written [call] ++ written calls := by
      rw [List.append_assoc, ← written_append, List.singleton_append]
    rw [hsplit] at hfits hr
    have hnext : (s.step (viewportRows info) call).text = cutLines (before ++ written [call]) := by
      rw [cutLines, List.foldl_append, ← cutLines, ← htext]
      exact step_text _ s.toViewer call
    have hrest : ClearsBetween (s.step (viewportRows info) call).text calls := by
      have hlater := hclear.2
      rw [← step_text (viewportRows info)] at hlater
      exact hlater
    exact ih hfits hr hnext hrest
      (step_watches G hcap hfits (fun hmem =>
        hr (List.mem_append_left _ hmem)) htext hclear.1 W hm) h

theorem new_watches (fb : Bytes) (info : Info) :
    Watches font info fb ⟨.start, 0⟩ (new fb info) := by
  refine ⟨new_knows fb info, new_placed ⟨fun _ _ _ => trivial, fun _ _ => trivial⟩ fb, fun _ =>
    ⟨new_holds fb info, rfl, Nat.le_refl _, ?_⟩⟩
  have hnew : cropped 0 Viewer.start.text (new fb info) = new fb info := by
    rw [cropped]
    rfl
  rw [hnew]
  exact new_live fb

end Runs

/-- Whatever is written in rows that fit, scrolled, and cleared between lines: the frame
buffer is the picture of the lines that the watcher tells. -/
theorem run_shows {font : Font} {info : Info} (G : Geometry font info)
    (hcap : viewportRows info ≤ scrollbackLines + 1) {fb : Bytes} {calls : List Call} {w : Writer}
    (hr : '\r' ∉ written calls) (hfits : FitsRows font info (written calls))
    (hclear : ClearsBetween ⟨[], []⟩ calls) (h : run font (new fb info) calls = some w) :
    picture font info (viewportRows info)
      ((Watcher.run (viewportRows info) calls).lines (viewportRows info)) fb =
      some w.framebuffer := by
  have htext : Viewer.start.text = cutLines [] := rfl
  have W := run_watches G hcap (by simpa using hfits)
    (by simpa using hr) htext hclear (new_watches fb info) h
  exact W.shows G hcap

end Willo.Framebuffer
