import Willo.ScreenCells

/-! The screen while it is scrolled back. Text that arrives then is kept and not drawn, and a
redraw happens only when the offset changes; so what is shown is a window of the text as it
was at the last change. A viewer that knows the text and the calls, and nothing of pixels,
tells the picture exactly. -/

namespace Willo.Framebuffer
open ByteCodec

/-! The viewer. -/

/-- The lines that the ring has not dropped, and the one in progress. -/
def kept (t : Lines) : List (List Char) := latest scrollbackLines t.done ++ [t.rest]

def window (rows : Nat) (t : Lines) (n : Nat) : List (List Char) :=
  let total := (kept t).length
  let off := min n (total - rows)
  ((kept t).take (total - off)).drop (total - (rows + off))

/-- The text so far, how far back the screen is, and the lines that are on it. -/
structure Viewer where
  text : Lines
  offset : Nat
  shown : List (List Char)

def Viewer.moveTo (rows : Nat) (s : Viewer) (n : Nat) : Viewer :=
  if n = s.offset then s else { s with offset := n, shown := window rows s.text n }

def Viewer.step (rows : Nat) (s : Viewer) : Call → Viewer
  | .writeStr cs => { s with text := cs.foldl Lines.push s.text }
  | .scrollUp n => s.moveTo rows (min (s.offset + n) ((kept s.text).length - rows))
  | .scrollDown n => s.moveTo rows (s.offset - n)
  | .scrollEnd => s.moveTo rows 0
  | .clear => { s with shown := [] }

def Viewer.start : Viewer := ⟨⟨[], []⟩, 0, []⟩

def Viewer.run (rows : Nat) (calls : List Call) : Viewer := calls.foldl (Viewer.step rows) .start

def picture (font : Font) (info : Info) (rows : Nat) (lines : List (List Char)) (fb : Bytes) :
    Option Bytes :=
  (drawRows font info rows 0 borderPadding lines (blank fb)).map Prod.fst

/-- The viewer knows the writer, and what is on a screen that is scrolled back. -/
structure Knows (font : Font) (fb : Bytes) (s : Viewer) (w : Writer) : Prop where
  text : Holds w s.text
  offset : w.scrollBack = s.offset
  length : w.framebuffer.length = fb.length
  shown : 0 < s.offset → picture font w.info w.viewportRows s.shown fb = some w.framebuffer

section Steps

variable {font : Font} {s : Viewer} {w w' : Writer} {info : Info} {fb : Bytes}

theorem blank_congr {fb fb' : Bytes} (h : fb.length = fb'.length) : blank fb = blank fb' := by
  rw [blank, blank, h]

theorem visible_window {t : Lines} (H : Holds w t) (n : Nat) :
    visible w n = window w.viewportRows t n := by
  have hkept : w.ring ++ [w.currentLine] = kept t := by rw [kept, ← H.ring, ← H.currentLine]
  have hlen : w.ring.length + 1 = (kept t).length := by
    rw [← hkept, List.length_append, List.length_singleton]
  simp only [visible, window, hkept, hlen]

theorem window_getElem? {rows n i : Nat} {t : Lines} (hn : n ≤ (kept t).length - rows)
    (hlow : (kept t).length - (rows + n) ≤ i) (hhigh : i < (kept t).length - n) :
    (window rows t n)[i - ((kept t).length - (rows + n))]? = (kept t)[i]? := by
  simp only [window, Nat.min_eq_left hn]
  rw [List.getElem?_drop, Nat.add_sub_cancel' hlow, List.getElem?_take, if_pos hhigh]

theorem redrawVisible_picture {n : Nat} (h : redrawVisible font w n = some w') :
    picture font w.info w.viewportRows (visible w n) w.framebuffer = some w'.framebuffer := by
  obtain ⟨⟨fb, x, row⟩, hrows, h⟩ := Option.bind_eq_some_iff.mp h
  cases h
  rw [picture, hrows, Option.map_some]

theorem writeChar_length {c : Char} (h : writeChar font w c = some w') :
    w'.framebuffer.length = w.framebuffer.length := by
  unfold writeChar at h
  split_ifs at h
  · exact (newline_same h).length
  · cases h
    rfl
  · obtain ⟨m, hm, h⟩ := Option.bind_eq_some_iff.mp h
    obtain ⟨m', hm', h⟩ := Option.bind_eq_some_iff.mp h
    cases h
    unfold wrapFullLine at hm
    split_ifs at hm
    · exact (drawChar_same hm').length.trans (newline_same hm).length
    · cases hm
      exact (drawChar_same hm').length

theorem writeStr_length {cs : List Char} (h : writeStr font w cs = some w') :
    w'.framebuffer.length = w.framebuffer.length := by
  induction cs generalizing w with
  | nil =>
    cases h
    rfl
  | cons c cs ih =>
    rw [writeStr, List.foldlM_cons] at h
    obtain ⟨m, hm, h⟩ := Option.bind_eq_some_iff.mp h
    exact (ih h).trans (writeChar_length hm)

structure Frozen (w w' : Writer) : Prop where
  framebuffer : w'.framebuffer = w.framebuffer
  scrollBack : w'.scrollBack = w.scrollBack
  info : w'.info = w.info
  viewportRows : w'.viewportRows = w.viewportRows

theorem Frozen.trans {w'' : Writer} (h : Frozen w w') (h' : Frozen w' w'') : Frozen w w'' :=
  ⟨h'.framebuffer.trans h.framebuffer, h'.scrollBack.trans h.scrollBack, h'.info.trans h.info,
    h'.viewportRows.trans h.viewportRows⟩

theorem writeChar_scrolled (h : 0 < w.scrollBack) (c : Char) :
    ∃ w', writeChar font w c = some w' ∧ Frozen w w' := by
  have hne : ∀ m : Writer, m.scrollBack = w.scrollBack → ¬m.scrollBack = 0 := fun m hm => by omega
  have hline : newline font w = some (pushCurrentToRing w) := if_neg (hne (pushCurrentToRing w) rfl)
  unfold writeChar
  split_ifs
  · exact ⟨_, hline, rfl, rfl, rfl, rfl⟩
  · exact ⟨_, rfl, rfl, rfl, rfl, rfl⟩
  · have hfull : ∃ m, wrapFullLine font w = some m ∧ Frozen w m := by
      unfold wrapFullLine
      split_ifs
      · exact ⟨_, hline, rfl, rfl, rfl, rfl⟩
      · exact ⟨w, rfl, rfl, rfl, rfl, rfl⟩
    obtain ⟨m, hm, F⟩ := hfull
    have hdraw : drawChar font c m = some m := if_neg (hne m F.scrollBack)
    rw [hm, Option.bind_eq_bind, Option.bind_some, hdraw]
    exact ⟨_, rfl, F.framebuffer, F.scrollBack, F.info, F.viewportRows⟩

theorem writeStr_scrolled (h : 0 < w.scrollBack) (cs : List Char) :
    ∃ w', writeStr font w cs = some w' ∧ Frozen w w' := by
  induction cs generalizing w with
  | nil => exact ⟨w, rfl, rfl, rfl, rfl, rfl⟩
  | cons c cs ih =>
    obtain ⟨m, hm, F⟩ : ∃ m, writeChar font w c = some m ∧ Frozen w m := writeChar_scrolled h c
    obtain ⟨w', hw', F'⟩ := ih (F.scrollBack ▸ h)
    refine ⟨w', ?_, F.trans F'⟩
    rw [writeStr, List.foldlM_cons, hm]
    exact hw'

theorem scrollTo_knows (K : Knows font fb s w) {n : Nat}
    (hn : n ≤ w.ring.length + 1 - w.viewportRows)
    (h : scrollTo font w n = some w') : Knows font fb (s.moveTo w.viewportRows n) w' := by
  have H' := scrollTo_holds h hn K.text
  unfold scrollTo at h
  unfold Viewer.moveTo
  rw [← K.offset]
  split_ifs at h ⊢ with hsame
  · cases h
    exact K
  · have hpic := redrawVisible_picture h
    have hsame' := redrawVisible_same h
    have hnext : Holds { w with scrollBack := n } s.text := ⟨K.text.ring, K.text.currentLine, hn⟩
    refine ⟨H', hsame'.scrollBack, hsame'.length.trans K.length, fun _ => ?_⟩
    rw [visible_window hnext, picture, blank_congr K.length] at hpic
    rw [hsame'.info, hsame'.viewportRows]
    exact hpic

theorem step_knows (K : Knows font fb s w) {call : Call} (h : step font w call = some w') :
    Knows font fb (s.step w.viewportRows call) w' := by
  have hring : w.ring.length + 1 = (kept s.text).length := by
    rw [kept, ← K.text.ring, List.length_append, List.length_singleton]
  cases call with
  | writeStr cs =>
    have H' := writeStr_holds h K.text
    rcases Nat.eq_zero_or_pos w.scrollBack with hlive | hback
    · refine ⟨H', (writeStr_scrollBack h).trans K.offset, (writeStr_length h).trans K.length,
        fun hpos => ?_⟩
      have hzero : s.offset = 0 := K.offset.symm.trans hlive
      exact absurd hpos (by simp [Viewer.step, hzero])
    · obtain ⟨m, hm, F⟩ : ∃ m, writeStr font w cs = some m ∧ Frozen w m :=
        writeStr_scrolled hback cs
      obtain rfl : w' = m := Option.some.inj (h.symm.trans hm)
      refine ⟨H', F.scrollBack.trans K.offset, (congrArg List.length F.framebuffer).trans K.length,
        fun hoff => ?_⟩
      rw [F.info, F.viewportRows, F.framebuffer]
      exact K.shown hoff
  | scrollUp n =>
    simp only [step, scrollUp] at h
    split_ifs at h
    have hmove := scrollTo_knows K (Nat.min_le_right _ _) h
    rw [Viewer.step, ← hring, ← K.offset]
    exact hmove
  | scrollDown n =>
    have hmove := scrollTo_knows K (Nat.le_trans (Nat.sub_le _ _) K.text.offset) h
    rw [Viewer.step, ← K.offset]
    exact hmove
  | scrollEnd => exact scrollTo_knows K (Nat.zero_le _) h
  | clear =>
    cases h
    refine ⟨⟨K.text.ring, K.text.currentLine, K.text.offset⟩, K.offset,
      (length_blank _).trans K.length, fun _ => ?_⟩
    simp only [picture, clear, Viewer.step, drawRows, Option.map_some, blank_congr K.length]

theorem run_knows (K : Knows font fb s w) (H : Placed info (fun _ => True) w) {calls : List Call}
    (h : run font w calls = some w') :
    Knows font fb (calls.foldl (Viewer.step (viewportRows info)) s) w' := by
  induction calls generalizing s w with
  | nil =>
    cases h
    exact K
  | cons call calls ih =>
    rw [run, List.foldlM_cons] at h
    obtain ⟨m, hm, h⟩ := Option.bind_eq_some_iff.mp h
    have K' := step_knows K hm
    rw [H.viewport] at K'
    exact ih K' (step_placed ⟨fun _ _ _ => trivial, fun _ _ => trivial⟩ H hm) h

theorem new_knows (fb : Bytes) (info : Info) : Knows font fb .start (new fb info) :=
  ⟨new_holds fb info, rfl, length_blank fb, fun h => absurd h (Nat.lt_irrefl 0)⟩

end Steps

/-- Whatever is written and scrolled, a screen that is scrolled back shows the window of the
text that the viewer tells, and goes on showing it whatever is written to it. -/
theorem scrolled_shows {font : Font} {fb : Bytes} {info : Info} {calls : List Call} {w : Writer}
    (h : run font (new fb info) calls = some w) :
    w.scrollBack = (Viewer.run (viewportRows info) calls).offset ∧
    (0 < w.scrollBack →
      picture font info (viewportRows info) (Viewer.run (viewportRows info) calls).shown fb =
      some w.framebuffer ∧
        ∀ cs, ∃ w', writeStr font w cs = some w' ∧ w'.framebuffer = w.framebuffer ∧
        w'.scrollBack = w.scrollBack) := by
  have H : Placed info (fun _ => True) (new fb info) :=
    new_placed ⟨fun _ _ _ => trivial, fun _ _ => trivial⟩ fb
  have H' : Placed info (fun _ => True) w :=
    run_placed ⟨fun _ _ _ => trivial, fun _ _ => trivial⟩ H h
  have K := run_knows (new_knows fb info) H h
  refine ⟨K.offset, fun hback => ⟨?_, fun cs => ?_⟩⟩
  · have hpic := K.shown (K.offset ▸ hback)
    rwa [H'.info, H'.viewport] at hpic
  · obtain ⟨w', hw', F⟩ : ∃ w', writeStr font w cs = some w' ∧ Frozen w w' :=
      writeStr_scrolled hback cs
    exact ⟨w', hw', F.framebuffer, F.scrollBack⟩

def twoRows : Info := ⟨10, 40, 10, 1, .u8⟩

theorem twoRows_screen : Screen blockFont twoRows (List.replicate 400 (0 : UInt8)).length := by
  rw [List.length_replicate]
  exact screen_of_glyph (fun _ => rfl) (by decide) (by decide) (by decide) (by decide)
    (by decide) (by decide)
    (by decide) (by decide)

theorem twoRows_runs (calls : List Call) (h : ∀ n, .scrollUp n ∈ calls → n = pageStep twoRows) :
    ∃ w, run blockFont (new (List.replicate 400 0) twoRows) calls = some w := by
  obtain ⟨w, hw, -⟩ := run_within twoRows_screen (new_within twoRows_screen rfl) (new_holds _ _) h
  exact ⟨w, hw⟩

def threeLines : List Call := [.writeStr ['a', '\n', 'b', '\n', 'c']]

/-- Scrolled back by one line, with more text to come. -/
theorem scrolled_shows_threeLines :
    ∃ w, run blockFont (new (List.replicate 400 0) twoRows)
      (threeLines ++ [.scrollUp 1, .writeStr ['d', '\n']]) = some w ∧
      0 < w.scrollBack ∧
      picture blockFont twoRows 2 [['a'], ['b']] (List.replicate 400 0) = some w.framebuffer := by
  obtain ⟨w, hw⟩ := twoRows_runs (threeLines ++ [.scrollUp 1, .writeStr ['d', '\n']])
    (by simp [threeLines]; rfl)
  obtain ⟨hoff, hshown⟩ := scrolled_shows hw
  have hback : 0 < w.scrollBack := by
    rw [hoff]
    decide
  have hwindow : (Viewer.run (viewportRows twoRows)
    (threeLines ++ [.scrollUp 1, .writeStr ['d', '\n']])).shown =
      [['a'], ['b']] := by decide
  exact ⟨w, hw, hback, hwindow ▸ (hshown hback).1⟩

/-! Going back page by page. -/

structure Turned (font : Font) (info : Info) (fb : Bytes) (t : Lines) (w : Writer) : Prop where
  within : Within info fb.length w
  text : Holds w t
  shown : picture font info (viewportRows info) (visible w w.scrollBack) fb = some w.framebuffer

section Pages

variable {font : Font} {info : Info} {fb : Bytes} {t : Lines} {w w' : Writer}

theorem Holds.length_kept (H : Holds w t) : w.ring.length + 1 = (kept t).length := by
  rw [kept, ← H.ring, List.length_append, List.length_singleton]

theorem SameText.visible_eq (h : SameText w w') (n : Nat) : visible w' n = visible w n := by
  simp only [visible, h.ring, h.currentLine, h.viewportRows]

theorem scrollTo_shows (S : Screen font info fb.length) (W : Within info fb.length w)
    (H : Holds w t) {n : Nat} (hn : n ≤ w.ring.length + 1 - w.viewportRows) :
    ∃ w', scrollTo font w n = some w' ∧ Within info fb.length w' ∧ Holds w' t ∧ w'.scrollBack = n ∧
      (n ≠ w.scrollBack → Turned font info fb t w') := by
  by_cases hsame : n = w.scrollBack
  · exact ⟨w, if_pos hsame, W, H, hsame.symm, fun hne => absurd hsame hne⟩
  · have hinfo : { w with scrollBack := n }.info = info := W.info
    obtain ⟨w', h, W'⟩ := redrawVisible_within S hinfo W.viewport W.length n
    have hscroll : scrollTo font w n = some w' := (if_neg hsame).trans h
    have hpic := redrawVisible_picture h
    have htext := redrawVisible_same h
    have H' := scrollTo_holds hscroll hn H
    refine ⟨w', hscroll, W', H', htext.scrollBack, fun _ => ⟨W', H', ?_⟩⟩
    rw [htext.scrollBack, htext.visible_eq, ← W.viewport, ← W.info, picture, ← blank_congr W.length]
    exact hpic

theorem scrollUp_shows (S : Screen font info fb.length) (W : Within info fb.length w)
    (H : Holds w t) :
    ∃ w', run font w [.scrollUp (pageStep info)] = some w' ∧ Within info fb.length w' ∧ Holds w' t ∧
      w'.scrollBack = min (w.scrollBack + pageStep info) ((kept t).length - viewportRows info) ∧
      (w'.scrollBack ≠ w.scrollBack → Turned font info fb t w') := by
  have hmax : w.ring.length + 1 - w.viewportRows = (kept t).length - viewportRows info := by
    rw [H.length_kept, W.viewport]
  obtain ⟨w', h, W', H', hback, hturned⟩ := scrollTo_shows S W H
    (n := min (w.scrollBack + pageStep info) (w.ring.length + 1 - w.viewportRows))
      (Nat.min_le_right _ _)
  have hup : scrollUp font w (pageStep info) = some w' := (if_pos (S.page_lt H)).trans h
  exact ⟨w', (bind_pure _).trans hup, W', H', by rw [hback, hmax], by rwa [hback]⟩

theorem scrollEnd_shows (S : Screen font info fb.length) (W : Within info fb.length w)
    (H : Holds w t) :
    ∃ w', run font w [.scrollEnd] = some w' ∧ Within info fb.length w' ∧ Holds w' t ∧
      w'.scrollBack = 0 ∧
      (0 ≠ w.scrollBack → Turned font info fb t w') := by
  obtain ⟨w', h, hrest⟩ := scrollTo_shows S W H (Nat.zero_le _)
  exact ⟨w', (bind_pure _).trans h, hrest⟩

theorem pageStep_pos (info : Info) : 0 < pageStep info :=
  Nat.lt_of_lt_of_le Nat.one_pos (Nat.le_max_right _ _)

/-- `End`, one page back and `End` again draw the latest lines anew, whatever was on the screen. -/
theorem run_redraws (S : Screen font info fb.length) (W : Within info fb.length w) (H : Holds w t)
    (hmore : viewportRows info < (kept t).length) :
    ∃ w', run font w [.scrollEnd, .scrollUp (pageStep info), .scrollEnd] = some w' ∧
      Turned font info fb t w' ∧
      w'.scrollBack = 0 := by
  obtain ⟨w₁, h₁, W₁, H₁, hback₁, -⟩ := scrollEnd_shows S W H
  obtain ⟨w₂, h₂, W₂, H₂, hback₂, -⟩ := scrollUp_shows S W₁ H₁
  obtain ⟨w₃, h₃, -, -, hback₃, hturned⟩ := scrollEnd_shows S W₂ H₂
  refine ⟨w₃, ?_, hturned ?_, hback₃⟩
  · rw [show [Call.scrollEnd, .scrollUp (pageStep info), .scrollEnd] =
      [.scrollEnd] ++ ([.scrollUp (pageStep info)] ++ [.scrollEnd]) from rfl, run_append, h₁,
        Option.bind_some, run_append, h₂]
    exact h₃
  · have := pageStep_pos info
    rw [hback₂, hback₁]
    omega

theorem run_pages (S : Screen font info fb.length) (T : Turned font info fb t w)
    (hback : w.scrollBack = 0) (j : Nat) :
    ∃ w', run font w (List.replicate j (.scrollUp (pageStep info))) = some w' ∧
      Turned font info fb t w' ∧
      w'.scrollBack = min (j * pageStep info) ((kept t).length - viewportRows info) := by
  induction j with
  | zero => exact ⟨w, rfl, T, by rw [hback, Nat.zero_mul, Nat.zero_min]⟩
  | succ j ih =>
    obtain ⟨m, hm, T₁, hback₁⟩ := ih
    obtain ⟨w', h, W', H', hback', hturned⟩ := scrollUp_shows S T₁.within T₁.text
    refine ⟨w', ?_, ?_, ?_⟩
    · rw [List.replicate_succ', run_append, hm]
      exact h
    · by_cases hsame : w'.scrollBack = m.scrollBack
      · -- at the oldest line the key does nothing
        have hstay : w' = m := by
          have hup := (bind_pure _).symm.trans h
          change scrollUp font m (pageStep info) = some w' at hup
          have hmax : m.ring.length + 1 - m.viewportRows = (kept t).length - viewportRows info := by
            rw [T₁.text.length_kept, T₁.within.viewport]
          have hscroll : scrollUp font m (pageStep info) = some m :=
            (if_pos (S.page_lt T₁.text)).trans (if_pos (by rw [hmax, ← hback', hsame]))
          exact Option.some.inj (hup.symm.trans hscroll)
        rwa [hstay]
      · exact hturned hsame
    · rw [hback', hback₁, Nat.add_mul, Nat.one_mul]
      omega

theorem page_covers {rows total i : Nat} (hrows : 0 < rows) (hi : i < total) :
    ∃ j, total - (rows + min (j * max (rows - 1) 1) (total - rows)) ≤ i ∧
      i < total - min (j * max (rows - 1) 1) (total - rows) := by
  generalize hp : max (rows - 1) 1 = p
  have hpos : 0 < p := by omega
  have hle : p ≤ rows := by omega
  by_cases hlive : total - rows ≤ i
  · exact ⟨0, by omega, by omega⟩
  · -- the first page that reaches back to the line still has it
    have hlow : total - rows - i ≤ (total - rows - i + p - 1) / p * p := by
      have := Nat.lt_div_mul_add (a := total - rows - i + p - 1) hpos
      omega
    have hhigh := Nat.div_mul_le_self (total - rows - i + p - 1) p
    exact ⟨(total - rows - i + p - 1) / p, by omega, by omega⟩

end Pages

/-- From every state the keyboard can bring about, also one that was cleared, these keys bring
every line to the screen that the ring keeps, each of the latest lines ever written: `End`, a
page back, `End` and some number of pages back. With no more lines than rows there is nothing
to turn, and the keys do nothing. -/
theorem pages_cover {font : Font} {info : Info} {fb : Bytes} (S : Screen font info fb.length)
    (hrows : 1 ≤ viewportRows info) {calls : List Call} {w : Writer}
    (h : run font (new fb info) calls = some w) :
    (viewportRows info < (kept (cutLines (written calls))).length →
      ∀ i < (kept (cutLines (written calls))).length, ∃ j w' r,
        run font w ([.scrollEnd, .scrollUp (pageStep info), .scrollEnd] ++
        List.replicate j (.scrollUp (pageStep info))) =
          some w' ∧ r < viewportRows info ∧
        (visible w' w'.scrollBack)[r]? = (kept (cutLines (written calls)))[i]? ∧
        picture font info (viewportRows info) (visible w' w'.scrollBack) fb = some w'.framebuffer) ∧
    ((kept (cutLines (written calls))).length ≤ viewportRows info →
      ∀ call, call = .scrollEnd ∨ call = .scrollUp (pageStep info) →
      run font w [call] = some w) := by
  have W := run_within_of_some S (new_within S rfl) h
  have H := run_holds h (new_holds fb info)
  refine ⟨fun hmore i hi => ?_, fun hfew call hcall => ?_⟩
  · obtain ⟨j, hlow, hhigh⟩ := page_covers hrows hi
    obtain ⟨w₀, hw₀, T₀, hback₀⟩ := run_redraws S W H hmore
    obtain ⟨w', hw', T, hback⟩ := run_pages S T₀ hback₀ j
    change w'.scrollBack = min (j * max (viewportRows info - 1) 1)
      ((kept (cutLines (written calls))).length - viewportRows info) at hback
    rw [← hback] at hlow hhigh
    have hwindow : visible w' w'.scrollBack =
        window w'.viewportRows (cutLines (written calls)) w'.scrollBack :=
      visible_window T.text w'.scrollBack
    rw [T.within.viewport] at hwindow
    have hoff : w'.scrollBack ≤ (kept (cutLines (written calls))).length - viewportRows info := by
      rw [hback]
      exact Nat.min_le_right _ _
    refine ⟨j, w',
      i - ((kept (cutLines (written calls))).length - (viewportRows info + w'.scrollBack)),
      ?_, by omega, ?_, T.shown⟩
    · rw [run_append, hw₀]
      exact hw'
    · rw [hwindow]
      exact window_getElem? hoff hlow hhigh
  · have hmax : w.ring.length + 1 - w.viewportRows = 0 := by
      rw [H.length_kept, W.viewport]
      exact Nat.sub_eq_zero_of_le hfew
    have hzero : w.scrollBack = 0 := Nat.le_zero.mp (hmax ▸ H.offset)
    have hstay : scrollTo font w 0 = some w := if_pos hzero.symm
    rcases hcall with rfl | rfl
    · exact (bind_pure _).trans hstay
    · have hup : scrollUp font w (pageStep info) = some w :=
        (if_pos (S.page_lt H)).trans (if_pos (by rw [hmax, hzero, Nat.min_zero]))
      exact (bind_pure _).trans hup

/-- The first of three lines on two rows, after `clear`. -/
theorem pages_cover_threeLines :
    ∃ w j w' r, run blockFont (new (List.replicate 400 0) twoRows) (threeLines ++ [.clear]) =
      some w ∧
      run blockFont w ([.scrollEnd, .scrollUp (pageStep twoRows), .scrollEnd] ++
        List.replicate j (.scrollUp (pageStep twoRows))) = some w' ∧ r < viewportRows twoRows ∧
      (visible w' w'.scrollBack)[r]? = some ['a'] ∧
      picture blockFont twoRows (viewportRows twoRows) (visible w' w'.scrollBack)
      (List.replicate 400 0) =
        some w'.framebuffer := by
  obtain ⟨w, hw⟩ := twoRows_runs (threeLines ++ [.clear]) (by simp [threeLines])
  obtain ⟨j, w', r, hrun, hr, hline, hpic⟩ :=
    (pages_cover twoRows_screen (by decide) hw).1 (by decide) 0 (by decide)
  exact ⟨w, j, w', r, hw, hrun, hr, hline.trans (by decide), hpic⟩

end Willo.Framebuffer
