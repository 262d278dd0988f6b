import Willo.Framebuffer

/-! The text behind the screen. The ring and the line in progress depend on the
written characters alone, whatever was drawn or scrolled in between: they are
the stream cut into lines, less the lines the ring has dropped. -/

namespace Willo.Framebuffer
open ByteCodec

/-! Drawing leaves the text alone. -/

/-- Same text, same offset, same geometry; only pixels and cursor may differ. -/
structure SameText (w w' : Writer) : Prop where
  ring : w'.ring = w.ring
  currentLine : w'.currentLine = w.currentLine
  scrollBack : w'.scrollBack = w.scrollBack
  viewportRows : w'.viewportRows = w.viewportRows
  info : w'.info = w.info
  length : w'.framebuffer.length = w.framebuffer.length

section Frame

variable {font : Font} {info : Info} {w w' w'' : Writer} {fb fb' : Bytes}

theorem SameText.trans (h : SameText w w') (h' : SameText w' w'') : SameText w w'' :=
  ⟨h'.ring.trans h.ring, h'.currentLine.trans h.currentLine, h'.scrollBack.trans h.scrollBack,
    h'.viewportRows.trans h.viewportRows, h'.info.trans h.info, h'.length.trans h.length⟩

@[simp] theorem length_blank (fb : Bytes) : (blank fb).length = fb.length := by simp [blank]

theorem length_writePixel {x y : Nat} {i : UInt8} (h : writePixel info x y i fb = some fb') :
    fb'.length = fb.length := by
  obtain ⟨c, -, h⟩ := Option.bind_eq_some_iff.mp h
  dsimp only at h
  split_ifs at h with hfit
  cases h
  rw [length_patch]
  rw [List.length_take]
  omega

theorem length_blitRow {x y : Nat} {row : List UInt8} (h : blitRow info y x row fb = some fb') :
    fb'.length = fb.length := by
  induction row generalizing x fb with
  | nil =>
    cases h
    rfl
  | cons i row ih =>
    obtain ⟨mid, hmid, hrest⟩ := Option.bind_eq_some_iff.mp h
    rw [ih hrest, length_writePixel hmid]

theorem length_blit {x y : Nat} {rows : List (List UInt8)} (h : blit info x y rows fb = some fb') :
    fb'.length = fb.length := by
  induction rows generalizing y fb with
  | nil =>
    cases h
    rfl
  | cons row rows ih =>
    obtain ⟨mid, hmid, hrest⟩ := Option.bind_eq_some_iff.mp h
    rw [ih hrest, length_blitRow hmid]

theorem length_drawLine {x x' y : Nat} {line : List Char}
    (h : drawLine font info y x line fb = some (fb', x')) : fb'.length = fb.length := by
  induction line generalizing x fb with
  | nil =>
    cases h
    rfl
  | cons c line ih =>
    rw [drawLine] at h
    split_ifs at h
    · cases h
      rfl
    · obtain ⟨glyph, -, h⟩ := Option.bind_eq_some_iff.mp h
      obtain ⟨mid, hmid, hrest⟩ := Option.bind_eq_some_iff.mp h
      rw [ih hrest, length_blit hmid]

theorem length_drawRows {viewport row row' x x' : Nat} {lines : List (List Char)}
    (h : drawRows font info viewport row x lines fb = some (fb', x', row')) :
    fb'.length = fb.length := by
  induction lines generalizing row x fb with
  | nil =>
    cases h
    rfl
  | cons line lines ih =>
    obtain ⟨⟨mid, xm⟩, hmid, hrest⟩ := Option.bind_eq_some_iff.mp h
    dsimp only at hrest
    split_ifs at hrest
    · cases hrest
      exact length_drawLine hmid
    · rw [ih hrest, length_drawLine hmid]

theorem redrawVisible_same {n : Nat} (h : redrawVisible font w n = some w') : SameText w w' := by
  obtain ⟨⟨fb, x, row⟩, hrows, h⟩ := Option.bind_eq_some_iff.mp h
  cases h
  exact ⟨rfl, rfl, rfl, rfl, rfl, by simpa using length_drawRows hrows⟩

theorem advanceVisualRow_same (h : advanceVisualRow font w = some w') : SameText w w' := by
  unfold advanceVisualRow at h
  dsimp only at h
  split_ifs at h
  · obtain ⟨m, hm, h⟩ := Option.bind_eq_some_iff.mp h
    cases h
    have := redrawVisible_same hm
    exact ⟨this.ring, this.currentLine, this.scrollBack, this.viewportRows, this.info, this.length⟩
  · cases h
    exact ⟨rfl, rfl, rfl, rfl, rfl, rfl⟩

theorem writeRendered_same {glyph : Raster} (h : writeRendered glyph w = some w') :
    SameText w w' := by
  obtain ⟨fb, hfb, h⟩ := Option.bind_eq_some_iff.mp h
  cases h
  exact ⟨rfl, rfl, rfl, rfl, rfl, length_blit hfb⟩

theorem drawChar_same {c : Char} (h : drawChar font c w = some w') : SameText w w' := by
  unfold drawChar at h
  split_ifs at h
  · obtain ⟨m, hm, h⟩ := Option.bind_eq_some_iff.mp h
    obtain ⟨glyph, -, h⟩ := Option.bind_eq_some_iff.mp h
    have hdraw := writeRendered_same h
    unfold wrapAtEdge at hm
    split_ifs at hm
    · exact (advanceVisualRow_same hm).trans hdraw
    · cases hm
      exact hdraw
  · cases h
    exact ⟨rfl, rfl, rfl, rfl, rfl, rfl⟩

theorem newline_same (h : newline font w = some w') : SameText (pushCurrentToRing w) w' := by
  unfold newline at h
  dsimp only at h
  split_ifs at h
  · exact advanceVisualRow_same h
  · cases h
    exact ⟨rfl, rfl, rfl, rfl, rfl, rfl⟩

end Frame

/-! The stream cut into lines. -/

structure Lines where
  done : List (List Char)
  rest : List Char

/-- The next character of the stream: `\r` is dropped, `\n` completes the line, and so
does any other character that finds the line full. -/
def Lines.push (t : Lines) (c : Char) : Lines :=
  if c = '\n' then ⟨t.done ++ [t.rest], []⟩
  else if c = '\r' then t
  else if maxLineLen ≤ byteLen t.rest then ⟨t.done ++ [t.rest], [c]⟩
  else ⟨t.done, t.rest ++ [c]⟩

def cutLines (s : List Char) : Lines := s.foldl Lines.push ⟨[], []⟩

def latest {α : Type} (n : Nat) (l : List α) : List α := l.drop (l.length - n)

theorem length_latest {α : Type} (n : Nat) (l : List α) : (latest n l).length = min n l.length := by
  rw [latest, List.length_drop]
  omega

theorem latest_append {α : Type} {n : Nat} (hn : 0 < n) (l : List α) (a : α) :
    latest n (l ++ [a]) = (if (latest n l).length = n then (latest n l).tail
      else latest n l) ++ [a] := by
  rw [length_latest]
  by_cases hle : n ≤ l.length
  · rw [if_pos (by omega), latest, latest, List.length_append, List.length_singleton,
      show l.length + 1 - n = l.length - n + 1 by omega, List.drop_append_of_le_length (by omega),
      List.tail_drop]
  · rw [if_neg (by omega), latest, latest, List.length_append, List.length_singleton,
      show l.length + 1 - n = 0 by
        omega, show l.length - n = 0 by omega, List.drop_zero, List.drop_zero]

/-- The writer holds the latest lines of the stream, and the offset stays in its range. -/
structure Holds (w : Writer) (t : Lines) : Prop where
  ring : w.ring = latest scrollbackLines t.done
  currentLine : w.currentLine = t.rest
  offset : w.scrollBack ≤ w.ring.length + 1 - w.viewportRows

section Stream

variable {font : Font} {w w' : Writer} {t : Lines} {c : Char}

theorem SameText.holds (h : SameText w w') (H : Holds w t) : Holds w' t :=
  ⟨h.ring.trans H.ring, h.currentLine.trans H.currentLine, by
    rw [h.scrollBack, h.ring, h.viewportRows]
    exact H.offset⟩

theorem Holds.ring_le (H : Holds w t) : w.ring.length ≤ scrollbackLines := by
  rw [H.ring, length_latest]
  exact Nat.min_le_left _ _

theorem pushCurrentToRing_holds (H : Holds w t) :
    Holds (pushCurrentToRing w) ⟨t.done ++ [t.rest], []⟩ := by
  refine ⟨?_, rfl, ?_⟩
  · rw [latest_append (by decide), ← H.ring, ← H.currentLine]
    rfl
  · have hlen : w.ring.length ≤ (pushCurrentToRing w).ring.length := by
      simp only [pushCurrentToRing, List.length_append, List.length_singleton]
      split_ifs
      · rw [List.length_tail]
        omega
      · omega
    exact Nat.le_trans H.offset (by simp only [pushCurrentToRing] at hlen ⊢; omega)

theorem newline_holds (h : newline font w = some w') (H : Holds w t) :
    Holds w' ⟨t.done ++ [t.rest], []⟩ :=
  (newline_same h).holds (pushCurrentToRing_holds H)

theorem append_holds {s : List Char} (H : Holds w ⟨t.done, s⟩) :
    Holds { w with currentLine := w.currentLine ++ [c] } ⟨t.done, s ++ [c]⟩ :=
  ⟨H.ring, by rw [H.currentLine], H.offset⟩

theorem writeChar_holds (h : writeChar font w c = some w') (H : Holds w t) :
    Holds w' (t.push c) := by
  unfold writeChar at h
  unfold Lines.push
  split_ifs at h ⊢ with hn hr hfull
  · exact newline_holds h H
  · cases h
    exact ⟨H.ring, H.currentLine, H.offset⟩
  · -- the line was full: it is committed before the character is drawn
    obtain ⟨m, hm, h⟩ := Option.bind_eq_some_iff.mp h
    rw [wrapFullLine, H.currentLine, if_pos hfull] at hm
    obtain ⟨m', hm', h⟩ := Option.bind_eq_some_iff.mp h
    cases h
    exact append_holds (t := ⟨t.done ++ [t.rest], []⟩) (s := [])
      ((drawChar_same hm').holds (newline_holds hm H))
  · obtain ⟨m, hm, h⟩ := Option.bind_eq_some_iff.mp h
    rw [wrapFullLine, H.currentLine, if_neg hfull] at hm
    cases hm
    obtain ⟨m', hm', h⟩ := Option.bind_eq_some_iff.mp h
    cases h
    exact append_holds ((drawChar_same hm').holds H)

theorem writeStr_holds {s : List Char} (h : writeStr font w s = some w') (H : Holds w t) :
    Holds w' (s.foldl Lines.push t) := by
  induction s generalizing w t with
  | nil =>
    cases h
    exact H
  | cons c s ih =>
    rw [writeStr, List.foldlM_cons] at h
    obtain ⟨m, hm, h⟩ := Option.bind_eq_some_iff.mp h
    exact ih h (writeChar_holds hm H)

theorem scrollTo_holds {n : Nat} (h : scrollTo font w n = some w')
    (hn : n ≤ w.ring.length + 1 - w.viewportRows) (H : Holds w t) : Holds w' t := by
  unfold scrollTo at h
  split_ifs at h
  · cases h
    exact H
  · exact (redrawVisible_same h).holds ⟨H.ring, H.currentLine, hn⟩

theorem step_holds {call : Call} (h : step font w call = some w') (H : Holds w t) :
    Holds w' ((written [call]).foldl Lines.push t) := by
  cases call with
  | writeStr s => simpa [written] using writeStr_holds h H
  | scrollUp n =>
    simp only [step, scrollUp] at h
    split_ifs at h
    exact scrollTo_holds h (Nat.min_le_right _ _) H
  | scrollDown n => exact scrollTo_holds h (Nat.le_trans (Nat.sub_le _ _) H.offset) H
  | scrollEnd => exact scrollTo_holds h (Nat.zero_le _) H
  | clear =>
    cases h
    exact ⟨H.ring, H.currentLine, H.offset⟩

theorem run_append (w : Writer) (calls calls' : List Call) :
    run font w (calls ++ calls') = (run font w calls).bind fun m => run font m calls' :=
  List.foldlM_append ..

theorem run_holds {calls : List Call} (h : run font w calls = some w') (H : Holds w t) :
    Holds w' ((written calls).foldl Lines.push t) := by
  induction calls generalizing w t with
  | nil =>
    cases h
    exact H
  | cons call calls ih =>
    rw [run, List.foldlM_cons] at h
    obtain ⟨m, hm, h⟩ := Option.bind_eq_some_iff.mp h
    have hsplit : written (call :: calls) = written [call] ++ written calls := by simp [written]
    rw [hsplit, List.foldl_append]
    exact ih h (step_holds hm H)

theorem new_holds (fb : Bytes) (info : Info) : Holds (new fb info) ⟨[], []⟩ :=
  ⟨rfl, rfl, Nat.zero_le _⟩

end Stream

/-- In every reachable state the ring holds the latest completed lines of the written
text and nothing else, and the offset does not pass the oldest of them. -/
theorem run_keeps_latest {font : Font} {fb : Bytes} {info : Info} {calls : List Call} {w : Writer}
    (h : run font (new fb info) calls = some w) :
    let t := cutLines (written calls)
    w.ring = latest scrollbackLines t.done ∧ w.ring.length = min scrollbackLines t.done.length ∧
      w.currentLine = t.rest ∧ w.scrollBack ≤ w.ring.length + 1 - w.viewportRows := by
  have H := run_holds h (new_holds fb info)
  exact ⟨H.ring, by rw [H.ring, length_latest]; rfl, H.currentLine, H.offset⟩

def dotFont : Font := ⟨1, fun _ => some ⟨[[255]], 1⟩⟩

theorem run_keeps_latest_twoLines :
    ∃ w, run dotFont (new (List.replicate 400 0) ⟨10, 40, 10, 1, .u8⟩)
        [.writeStr ['a', '\r', '\n', 'b', '\n'], .scrollUp 1, .clear, .writeStr ['c']] = some w ∧
      w.ring = [['a'], ['b']] ∧ w.currentLine = ['c'] := by
  obtain ⟨w, hw⟩ := Option.isSome_iff_exists.mp (show (run dotFont
    (new (List.replicate 400 0) ⟨10, 40, 10, 1, .u8⟩) [.writeStr ['a', '\r', '\n', 'b', '\n'],
      .scrollUp 1, .clear, .writeStr ['c']]).isSome = true by decide +kernel)
  have hkept := run_keeps_latest hw
  exact ⟨w, hw, hkept.1, hkept.2.2.1⟩

end Willo.Framebuffer
