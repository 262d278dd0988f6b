import Mathlib.Data.List.Induction
import Willo.Scrollback

/-! Drawing as the text arrives, against redrawing from the ring. While the
viewport is live the screen is the one a full redraw would show, as long as the
ring holds enough lines to fill it. -/

namespace Willo.Framebuffer
open ByteCodec

/-- A glyph row and a column fit, the pixel the overflow test gives away does not
cost a row, and glyphs are as wide as the font says. -/
structure Geometry (font : Font) (info : Info) : Prop where
  glyphWidth : ∀ c glyph, rasterFor font c = some glyph → glyph.width = font.width
  column : borderPadding + font.width < info.width
  row : 1 ≤ viewportRows info
  bottom : (info.height - 1) / rowHeight = (info.height - 2) / rowHeight

def FitsRows (font : Font) (info : Info) (text : List Char) : Prop :=
  ∀ run, run <:+: text → '\n' ∉ run → borderPadding + run.length * font.width < info.width

structure PlainCalls (font : Font) (info : Info) (calls : List Call) : Prop where
  noClear : Call.clear ∉ calls
  noReturn : '\r' ∉ written calls
  fits : FitsRows font info (written calls)

/-! The drawing loops, from the last character and the last line. -/

section Loops

variable {font : Font} {info : Info} {fb fb' : Bytes}

theorem drawLine_snoc (hw : ∀ c glyph, rasterFor font c = some glyph → glyph.width = font.width)
    {x y x' : Nat} {cs : List Char} {c : Char} {glyph : Raster} {fb'' : Bytes}
    (hfit : x + (cs.length + 1) * font.width < info.width)
    (hline : drawLine font info y x cs fb = some (fb', x')) (hglyph : rasterFor font c = some glyph)
    (hblit : blit info x' y glyph.rows fb' = some fb'') :
    drawLine font info y x (cs ++ [c]) fb = some (fb'', x' + glyph.width + letterSpacing) := by
  induction cs generalizing x fb with
  | nil =>
    cases hline
    rw [List.nil_append, drawLine, if_neg (by simp at hfit; omega)]
    simp [hglyph, hblit, drawLine]
  | cons d cs ih =>
    simp only [List.length_cons, Nat.add_mul, Nat.one_mul] at hfit
    rw [drawLine, if_neg (by omega)] at hline
    rw [List.cons_append, drawLine, if_neg (by omega)]
    obtain ⟨g, hg, hline⟩ := Option.bind_eq_some_iff.mp hline
    obtain ⟨mid, hmid, hline⟩ := Option.bind_eq_some_iff.mp hline
    have hwide := hw d g hg
    refine Option.bind_eq_some_iff.mpr ⟨g, hg, Option.bind_eq_some_iff.mpr ⟨mid, hmid, ?_⟩⟩
    refine ih ?_ hline
    simp only [hwide, letterSpacing, Nat.add_mul, Nat.one_mul]
    omega

theorem drawLine_x (hw : ∀ c glyph, rasterFor font c = some glyph → glyph.width = font.width)
    {x y x' : Nat} {cs : List Char} (hfit : x + cs.length * font.width < info.width)
    (h : drawLine font info y x cs fb = some (fb', x')) : x' = x + cs.length * font.width := by
  induction cs generalizing x fb with
  | nil =>
    cases h
    simp
  | cons c cs ih =>
    simp only [List.length_cons, Nat.add_mul, Nat.one_mul] at hfit ⊢
    rw [drawLine, if_neg (by omega)] at h
    obtain ⟨g, hg, h⟩ := Option.bind_eq_some_iff.mp h
    obtain ⟨mid, -, h⟩ := Option.bind_eq_some_iff.mp h
    have hwide := hw c g hg
    have := ih (by simp only [hwide, letterSpacing]; omega) h
    simp only [hwide, letterSpacing] at this
    omega

theorem drawRows_snoc {viewport row row' x x' x'' : Nat} {lines : List (List Char)}
    {line : List Char} {fb'' : Bytes} (hroom : row + lines.length < viewport)
    (hrows : drawRows font info viewport row x lines fb = some (fb', x', row'))
    (hline : drawLine font info (borderPadding + row' * rowHeight) borderPadding line fb' =
      some (fb'', x'')) :
    drawRows font info viewport row x (lines ++ [line]) fb = some (fb'', x'', row' + 1) := by
  induction lines generalizing row x fb with
  | nil =>
    cases hrows
    rw [List.nil_append, drawRows]
    refine Option.bind_eq_some_iff.mpr ⟨(fb'', x''), hline, ?_⟩
    simp [drawRows]
  | cons l lines ih =>
    simp only [List.length_cons] at hroom
    obtain ⟨⟨mid, xm⟩, hmid, hrows⟩ := Option.bind_eq_some_iff.mp hrows
    refine Option.bind_eq_some_iff.mpr ⟨(mid, xm), hmid, ?_⟩
    dsimp only at hrows ⊢
    rw [if_neg (by omega)] at hrows ⊢
    exact ih (by omega) hrows

theorem drawRows_snoc_inv {viewport row x x'' row'' : Nat} {lines : List (List Char)}
    {line : List Char} {fb'' : Bytes} (hroom : row + lines.length < viewport)
    (h : drawRows font info viewport row x (lines ++ [line]) fb = some (fb'', x'', row'')) :
    ∃ fb' x', drawRows font info viewport row x lines fb = some (fb', x', row + lines.length) ∧
      drawLine font info (borderPadding + (row + lines.length) * rowHeight) borderPadding line fb' =
        some (fb'', x'') ∧ row'' = row + lines.length + 1 := by
  induction lines generalizing row x fb with
  | nil =>
    obtain ⟨⟨mid, xm⟩, hmid, h⟩ := Option.bind_eq_some_iff.mp h
    refine ⟨fb, x, rfl, ?_⟩
    dsimp only at h
    simp only [drawRows, ite_self, Option.some.injEq, Prod.mk.injEq] at h
    obtain ⟨rfl, rfl, rfl⟩ := h
    exact ⟨hmid, rfl⟩
  | cons l lines ih =>
    simp only [List.length_cons] at hroom
    obtain ⟨⟨mid, xm⟩, hmid, h⟩ := Option.bind_eq_some_iff.mp h
    dsimp only at h
    rw [if_neg (by omega)] at h
    obtain ⟨fb', x', hrows, hline, hrow⟩ := ih (by omega) h
    have hlen : row + (l :: lines).length = row + 1 + lines.length := by
      simp only [List.length_cons]
      omega
    rw [hlen]
    refine ⟨fb', x', Option.bind_eq_some_iff.mpr ⟨(mid, xm), hmid, ?_⟩, hline, hrow⟩
    dsimp only
    rw [if_neg (by omega)]
    exact hrows

theorem drawRows_row_le {viewport row x x' row' : Nat} {lines : List (List Char)}
    (h : drawRows font info viewport row x lines fb = some (fb', x', row')) :
    row' ≤ row + lines.length := by
  induction lines generalizing row x fb with
  | nil =>
    cases h
    exact Nat.le_refl _
  | cons line lines ih =>
    obtain ⟨⟨mid, xm⟩, -, h⟩ := Option.bind_eq_some_iff.mp h
    simp only [List.length_cons]
    dsimp only at h
    split_ifs at h
    · cases h
      omega
    · have := ih h
      omega

end Loops

/-! A full redraw. -/

section Redraw

variable {font : Font} {w w' : Writer}

theorem visible_zero (h : 1 ≤ w.viewportRows) :
    visible w 0 = latest (w.viewportRows - 1) w.ring ++ [w.currentLine] := by
  have htake : (w.ring ++ [w.currentLine]).take (w.ring.length + 1) =
    w.ring ++ [w.currentLine] := by
    rw [List.take_of_length_le (by simp)]
  simp only [visible, Nat.zero_min, Nat.add_zero, Nat.sub_zero, latest]
  rw [htake, List.drop_append_of_le_length (by omega)]
  congr 2
  omega

/-- What the redraw of a writer's live window does: `older` lines above, the line in
progress below them. -/
structure Redrawn (font : Font) (w w' : Writer) : Prop where
  same : SameText w w'
  drawn : ∃ older x, drawRows font w.info w.viewportRows 0 borderPadding
      (latest (w.viewportRows - 1) w.ring) (blank w.framebuffer) =
        some (older, x, min (w.viewportRows - 1) w.ring.length) ∧
    drawLine font w.info w'.yPos borderPadding w.currentLine older = some (w'.framebuffer, w'.xPos)
  yPos : w'.yPos = borderPadding + min (w.viewportRows - 1) w.ring.length * rowHeight

theorem redrawVisible_iff (hrow : 1 ≤ w.viewportRows) :
    redrawVisible font w 0 = some w' ↔ Redrawn font w w' := by
  have hlen := length_latest (w.viewportRows - 1) w.ring
  constructor
  · intro h
    have hsame := redrawVisible_same h
    obtain ⟨⟨fb, x, row⟩, hrows, h⟩ := Option.bind_eq_some_iff.mp h
    rw [visible_zero hrow] at hrows
    obtain ⟨older, x', hold, hline, rfl⟩ := drawRows_snoc_inv (by omega) hrows
    cases h
    rw [hlen, Nat.zero_add] at hold hline
    refine ⟨hsame, ⟨older, x', hold, ?_⟩, ?_⟩
    · simpa [hlen] using hline
    · simp [hlen]
  · rintro ⟨hsame, ⟨older, x, hold, hline⟩, hy⟩
    rw [hy] at hline
    have hrows := drawRows_snoc (by omega) hold hline
    rw [← visible_zero hrow] at hrows
    refine Option.bind_eq_some_iff.mpr ⟨_, hrows, ?_⟩
    obtain ⟨hring, hcur, hback, hview, hinfo, -⟩ := hsame
    cases w'
    simp_all

theorem Redrawn.of_same {v : Writer} (h : Redrawn font w w') (hv : SameText v w) :
    Redrawn font v w' := by
  obtain ⟨hsame, ⟨older, x, hold, hline⟩, hy⟩ := h
  have hblank : blank w.framebuffer = blank v.framebuffer := by rw [blank, blank, hv.length]
  rw [hv.info, hv.viewportRows, hv.ring, hblank] at hold
  rw [hv.info, hv.currentLine] at hline
  rw [hv.viewportRows, hv.ring] at hy
  exact ⟨hv.trans hsame, ⟨older, x, hold, hline⟩, hy⟩

theorem SameText.symm (h : SameText w w') : SameText w' w :=
  ⟨h.ring.symm, h.currentLine.symm, h.scrollBack.symm, h.viewportRows.symm, h.info.symm,
    h.length.symm⟩

theorem Redrawn.again (h : Redrawn font w w') : Redrawn font w' w' :=
  h.of_same h.same.symm

end Redraw

/-! Drawing as the text arrives. -/

structure Live (font : Font) (geo : Info) (size : Nat) (w : Writer) : Prop where
  info : w.info = geo
  size : w.framebuffer.length = size
  viewport : w.viewportRows = Framebuffer.viewportRows geo
  redrawn : w.scrollBack = 0 → Redrawn font w w

section Drawing

variable {font : Font} {info : Info} {size : Nat} {w w' : Writer} {t : Lines}

theorem Geometry.overflow_iff (G : Geometry font info) (k : Nat) :
    info.height ≤ borderPadding + k * rowHeight + rowHeight + rasterHeight + borderPadding ↔
      viewportRows info ≤ k + 1 := by
  obtain ⟨-, -, hrow, hbottom⟩ := G
  simp only [viewportRows, rowHeight, rasterHeight, lineSpacing, borderPadding] at *
  omega

theorem length_pushCurrentToRing (h : w.ring.length ≤ scrollbackLines) :
    (pushCurrentToRing w).ring.length = min scrollbackLines (w.ring.length + 1) := by
  simp only [pushCurrentToRing]
  rw [List.length_append, List.length_singleton]
  split_ifs with hfull
  · rw [List.length_tail, hfull]
    rfl
  · omega

theorem advanceVisualRow_cases (h : advanceVisualRow font w = some w') :
    w.info.height ≤ w.yPos + rowHeight + rasterHeight + borderPadding ∧
        (∃ m,
          redrawVisible font { w with yPos := w.yPos + rowHeight, xPos := borderPadding } 0 =
            some m ∧
          w' = { m with
            yPos := borderPadding + (m.viewportRows - 1) * rowHeight, xPos := borderPadding }) ∨
      ¬w.info.height ≤ w.yPos + rowHeight + rasterHeight + borderPadding ∧
        w' = { w with yPos := w.yPos + rowHeight, xPos := borderPadding } := by
  unfold advanceVisualRow at h
  dsimp only at h
  split_ifs at h with hover
  · obtain ⟨m, hm, h⟩ := Option.bind_eq_some_iff.mp h
    exact .inl ⟨hover, m, hm, (Option.some.inj h).symm⟩
  · exact .inr ⟨hover, (Option.some.inj h).symm⟩

theorem newline_redrawn_below (h : Redrawn font w w) (hroom : w.ring.length + 1 < w.viewportRows)
    (hring : w.ring.length < scrollbackLines) :
    Redrawn font (pushCurrentToRing w)
      { pushCurrentToRing w with yPos := w.yPos + rowHeight, xPos := borderPadding } := by
  obtain ⟨-, ⟨older, x, hold, hline⟩, hy⟩ := h
  have hpush : (pushCurrentToRing w).ring = w.ring ++ [w.currentLine] := by
    simp [pushCurrentToRing, Nat.ne_of_lt hring]
  have hmin : min (w.viewportRows - 1) w.ring.length = w.ring.length := by omega
  have hall : latest (w.viewportRows - 1) w.ring = w.ring := by
    rw [latest, Nat.sub_eq_zero_of_le (by omega), List.drop_zero]
  have hall' : latest (w.viewportRows - 1) (w.ring ++ [w.currentLine]) =
    w.ring ++ [w.currentLine] := by
    rw [latest, Nat.sub_eq_zero_of_le (by simp; omega), List.drop_zero]
  rw [hall, hmin] at hold
  rw [hmin] at hy
  rw [hy] at hline
  have hrows := drawRows_snoc (by omega) hold hline
  have hmin' : min (w.viewportRows - 1) (w.ring ++ [w.currentLine]).length = w.ring.length + 1 := by
    simp
    omega
  refine ⟨⟨rfl, rfl, rfl, rfl, rfl, rfl⟩, ⟨w.framebuffer, w.xPos, ?_, ?_⟩, ?_⟩
  · rw [hpush]
    exact hall'.symm ▸ hmin'.symm ▸ hrows
  · rfl
  · rw [hpush]
    change w.yPos + rowHeight = borderPadding + min (w.viewportRows - 1) _ * rowHeight
    rw [hmin', hy, Nat.add_mul, Nat.one_mul]
    omega

theorem newline_live (G : Geometry font info) (hcap : viewportRows info ≤ scrollbackLines + 1)
    (hring : w.ring.length ≤ scrollbackLines) (L : Live font info size w)
    (h : newline font w = some w') :
    Live font info size w' := by
  have hsame := newline_same h
  refine ⟨hsame.info.trans L.info, hsame.length.trans L.size, hsame.viewportRows.trans L.viewport,
    fun hback => ?_⟩
  have hback' : (pushCurrentToRing w).scrollBack = 0 := hsame.scrollBack ▸ hback
  have hold := L.redrawn hback'
  have hrow : 1 ≤ w.viewportRows := L.viewport.symm ▸ G.row
  have hview := L.viewport
  have hlen := length_pushCurrentToRing hring
  have hover : (pushCurrentToRing w).info.height ≤
      (pushCurrentToRing w).yPos + rowHeight + rasterHeight + borderPadding ↔
        viewportRows info ≤ min (w.viewportRows - 1) w.ring.length + 1 := by
    rw [← G.overflow_iff, ← hold.yPos, ← L.info]
    rfl
  simp only [newline, hback', if_true] at h
  obtain ⟨hfull, m, hm, rfl⟩ | ⟨hroom, rfl⟩ := advanceVisualRow_cases h
  · -- the viewport is full: the redraw leaves the cursor where the code then puts it
    rw [hover] at hfull
    have hdrawn := (redrawVisible_iff (by exact hrow)).mp hm
    have hx : m.xPos = borderPadding := by
      obtain ⟨-, ⟨older, x, -, hline⟩, -⟩ := hdrawn
      exact (Prod.mk.inj (Option.some.inj hline)).2.symm
    have hy : m.yPos = borderPadding + (m.viewportRows - 1) * rowHeight := by
      rw [hdrawn.yPos, hdrawn.same.viewportRows]
      change borderPadding +
        min (w.viewportRows - 1) (pushCurrentToRing w).ring.length * rowHeight =
        borderPadding + (w.viewportRows - 1) * rowHeight
      rw [hlen, Nat.min_eq_left (by omega)]
    rw [← hy, ← hx]
    exact hdrawn.again
  · rw [hover] at hroom
    exact (newline_redrawn_below hold (by omega) (by omega)).again

theorem drawChar_live (G : Geometry font info) {c : Char}
    (hfit : borderPadding + (w.currentLine.length + 1) * font.width < info.width)
    (L : Live font info size w) (h : drawChar font c w = some w') :
    Live font info size { w' with currentLine := w'.currentLine ++ [c] } := by
  have hsame := drawChar_same h
  refine ⟨hsame.info.trans L.info, hsame.length.trans L.size, hsame.viewportRows.trans L.viewport,
    fun hback => ?_⟩
  have hback' : w.scrollBack = 0 := hsame.scrollBack ▸ hback
  obtain ⟨-, ⟨older, x, hold, hline⟩, hy⟩ := L.redrawn hback'
  have hwide : borderPadding + w.currentLine.length * font.width < w.info.width := by
    rw [L.info]
    rw [Nat.add_mul, Nat.one_mul] at hfit
    omega
  have hx := drawLine_x G.glyphWidth hwide hline
  rw [drawChar, if_pos hback'] at h
  obtain ⟨m, hm, h⟩ := Option.bind_eq_some_iff.mp h
  rw [wrapAtEdge, L.info, if_neg (by rw [Nat.add_mul, Nat.one_mul] at hfit; omega)] at hm
  cases hm
  obtain ⟨glyph, hglyph, h⟩ := Option.bind_eq_some_iff.mp h
  obtain ⟨fb, hfb, h⟩ := Option.bind_eq_some_iff.mp h
  cases h
  have hlong := drawLine_snoc G.glyphWidth (by rw [L.info]; exact hfit) hline hglyph hfb
  have hblank : blank fb = blank w.framebuffer := by rw [blank, blank, length_blit hfb]
  exact ⟨⟨rfl, rfl, rfl, rfl, rfl, rfl⟩, ⟨older, x, hblank.symm ▸ hold, hlong⟩, hy⟩

theorem writeChar_live (G : Geometry font info)
    (hcap : viewportRows info ≤ scrollbackLines + 1) {c : Char}
    (hc : c ≠ '\r') (hfit : borderPadding + (t.push c).rest.length * font.width < info.width)
    (H : Holds w t) (L : Live font info size w) (h : writeChar font w c = some w') :
    Live font info size w' := by
  have hring := H.ring_le
  unfold writeChar at h
  unfold Lines.push at hfit
  split_ifs at h hfit with hn hfull
  · exact newline_live G hcap hring L h
  · obtain ⟨m, hm, h⟩ := Option.bind_eq_some_iff.mp h
    rw [wrapFullLine, H.currentLine, if_pos hfull] at hm
    obtain ⟨m', hm', h⟩ := Option.bind_eq_some_iff.mp h
    cases h
    have hempty : m.currentLine = [] := (newline_same hm).currentLine
    exact drawChar_live G (by rw [hempty]; exact hfit) (newline_live G hcap hring L hm) hm'
  · obtain ⟨m, hm, h⟩ := Option.bind_eq_some_iff.mp h
    rw [wrapFullLine, H.currentLine, if_neg hfull] at hm
    cases hm
    obtain ⟨m', hm', h⟩ := Option.bind_eq_some_iff.mp h
    cases h
    exact drawChar_live G (by rw [H.currentLine]; simpa using hfit) L hm'

end Drawing

/-! Runs. -/

theorem cutLines_rest {text : List Char} (h : '\r' ∉ text) :
    (cutLines text).rest <:+ text ∧ '\n' ∉ (cutLines text).rest := by
  induction text using List.reverseRecOn with
  | nil => exact ⟨List.suffix_refl _, List.not_mem_nil⟩
  | append_singleton text c ih =>
    simp only [List.mem_append, List.mem_singleton, not_or] at h
    obtain ⟨⟨front, hfront⟩, hnl⟩ := ih h.1
    rw [cutLines, List.foldl_append]
    change (Lines.push (cutLines text) c).rest <:+ _ ∧ '\n' ∉ (Lines.push (cutLines text) c).rest
    unfold Lines.push
    rw [if_neg (Ne.symm h.2)]
    split_ifs with hc hfull
    · exact ⟨List.nil_suffix, List.not_mem_nil⟩
    · exact ⟨List.suffix_append _ _, by simpa using Ne.symm hc⟩
    · refine ⟨⟨front, by rw [← List.append_assoc, hfront]⟩, ?_⟩
      simp only [List.mem_append, List.mem_singleton, not_or]
      exact ⟨hnl, Ne.symm hc⟩

section Runs

variable {font : Font} {info : Info} {size : Nat} {w w' : Writer}

theorem FitsRows.rest {text more : List Char} (h : FitsRows font info (text ++ more))
    (hr : '\r' ∉ text) : borderPadding + (cutLines text).rest.length * font.width < info.width := by
  obtain ⟨hsuf, hnl⟩ := cutLines_rest hr
  exact h _ (hsuf.isInfix.trans (List.prefix_append _ _).isInfix) hnl

theorem writeStr_live (G : Geometry font info) (hcap : viewportRows info ≤ scrollbackLines + 1)
    {before s after : List Char} (hfits : FitsRows font info (before ++ s ++ after))
    (hr : '\r' ∉ before ++ s) (H : Holds w (cutLines before)) (L : Live font info size w)
    (h : writeStr font w s = some w') : Live font info size w' := by
  induction s generalizing w before with
  | nil =>
    cases h
    exact L
  | cons c s ih =>
    rw [writeStr, List.foldlM_cons] at h
    obtain ⟨m, hm, h⟩ := Option.bind_eq_some_iff.mp h
    have hassoc : before ++ c :: s = before ++ [c] ++ s := by simp
    rw [hassoc] at hfits hr
    have hpush : cutLines (before ++ [c]) = (cutLines before).push c := by simp [cutLines]
    have hr' : '\r' ∉ before ++ [c] := fun hmem => hr (List.mem_append_left _ hmem)
    have hfit : borderPadding + ((cutLines before).push c).rest.length * font.width <
      info.width := by
      rw [List.append_assoc] at hfits
      exact hpush ▸ hfits.rest hr'
    have hc : c ≠ '\r' := by
      rintro rfl
      exact hr' (by simp)
    exact ih hfits hr (hpush ▸ writeChar_holds hm H) (writeChar_live G hcap hc hfit H L hm) h

theorem scrollTo_live (G : Geometry font info) {n : Nat} (L : Live font info size w)
    (h : scrollTo font w n = some w') : Live font info size w' := by
  unfold scrollTo at h
  split_ifs at h
  · cases h
    exact L
  · have hsame := redrawVisible_same h
    refine ⟨hsame.info.trans L.info, hsame.length.trans L.size, hsame.viewportRows.trans L.viewport,
      fun hback => ?_⟩
    have hn : n = 0 := by
      rw [← hback, hsame.scrollBack]
    subst hn
    have hrow : 1 ≤ w.viewportRows := L.viewport.symm ▸ G.row
    exact ((redrawVisible_iff (by exact hrow)).mp h).again

theorem run_live (G : Geometry font info) (hcap : viewportRows info ≤ scrollbackLines + 1)
    {before : List Char} {calls : List Call} (hclear : Call.clear ∉ calls)
    (hr : '\r' ∉ before ++ written calls) (hfits : FitsRows font info (before ++ written calls))
    (H : Holds w (cutLines before)) (L : Live font info size w) (h : run font w calls = some w') :
    Live font info size w' := by
  induction calls generalizing w before with
  | nil =>
    cases h
    exact L
  | cons call calls ih =>
    rw [run, List.foldlM_cons] at h
    obtain ⟨m, hm, h⟩ := Option.bind_eq_some_iff.mp h
    have hsplit : before ++ written (call :: calls) =
      before ++ written [call] ++ written calls := by
      simp [written]
    rw [hsplit] at hr hfits
    have hheld : Holds m (cutLines (before ++ written [call])) := by
      rw [cutLines, List.foldl_append]
      exact step_holds hm H
    refine ih (fun hmem => hclear (List.mem_cons_of_mem _ hmem)) hr hfits hheld ?_ h
    cases call with
    | writeStr s =>
      have hone : written [.writeStr s] = s := by simp [written]
      rw [hone] at hr hfits
      exact writeStr_live G hcap hfits (fun hmem => hr (List.mem_append_left _ hmem)) H L hm
    | scrollUp n =>
      simp only [step, scrollUp] at hm
      split_ifs at hm
      exact scrollTo_live G L hm
    | scrollDown n => exact scrollTo_live G L hm
    | scrollEnd => exact scrollTo_live G L hm
    | clear => exact absurd List.mem_cons_self hclear

theorem new_live (fb : Bytes) : Live font info fb.length (new fb info) := by
  refine ⟨rfl, length_blank fb, rfl, fun _ => ?_⟩
  have hblank : blank (blank fb) = blank fb := by rw [blank, length_blank, ← blank]
  refine ⟨⟨rfl, rfl, rfl, rfl, rfl, rfl⟩, ⟨blank fb, borderPadding, ?_, rfl⟩, ?_⟩
  · change drawRows font info _ 0 borderPadding (latest _ []) (blank (blank fb)) =
      some (blank fb, borderPadding, min _ 0)
    rw [hblank, latest, List.drop_nil, Nat.min_zero]
    rfl
  · change borderPadding = borderPadding + min (viewportRows info - 1) 0 * rowHeight
    rw [Nat.min_zero, Nat.zero_mul, Nat.add_zero]

/-! A viewport the ring cannot fill. -/

theorem newlines_reach (font : Font) (info : Info) (fb : Bytes) {n : Nat}
    (hn : ∀ k < n, ¬info.height ≤ borderPadding + k * rowHeight + rowHeight + rasterHeight +
      borderPadding) :
    ∃ w, run font (new fb info) [.writeStr (List.replicate n '\n')] = some w ∧ w.scrollBack = 0 ∧
      w.info = info ∧ w.yPos = borderPadding + n * rowHeight := by
  have hrun : ∀ w, run font (new fb info) [.writeStr (List.replicate n '\n')] = some w ↔
      writeStr font (new fb info) (List.replicate n '\n') = some w := by
    intro w
    simp [run, step]
  simp only [hrun]
  induction n with
  | zero => exact ⟨new fb info, rfl, rfl, rfl, by simp [new]⟩
  | succ n ih =>
    obtain ⟨w, hw, hback, hinfo, hy⟩ := ih (fun k hk => hn k (by omega)) (by simp [run, step])
    have hroom : ¬(pushCurrentToRing w).info.height ≤
        (pushCurrentToRing w).yPos + rowHeight + rasterHeight + borderPadding := by
      change ¬w.info.height ≤ w.yPos + rowHeight + rasterHeight + borderPadding
      rw [hinfo, hy]
      exact hn n (by omega)
    refine ⟨{ pushCurrentToRing w with yPos := w.yPos + rowHeight, xPos := borderPadding }, ?_,
      hback, hinfo, ?_⟩
    · rw [List.replicate_succ', writeStr, List.foldlM_append]
      refine Option.bind_eq_some_iff.mpr ⟨w, hw, ?_⟩
      have hback' : (pushCurrentToRing w).scrollBack = 0 := hback
      simp only [List.foldlM_cons, List.foldlM_nil, writeChar, if_true, newline, hback',
        advanceVisualRow]
      rw [if_neg hroom]
      rfl
    · change w.yPos + rowHeight = _
      rw [hy, Nat.add_mul, Nat.one_mul]
      omega

theorem redrawVisible_yPos_le {w w' : Writer} {n : Nat} (hring : w.ring.length ≤ scrollbackLines)
    (h : redrawVisible font w n = some w') :
    w'.yPos ≤ borderPadding + scrollbackLines * rowHeight := by
  obtain ⟨⟨fb, x, row⟩, hrows, h⟩ := Option.bind_eq_some_iff.mp h
  cases h
  have hle := drawRows_row_le hrows
  have hlen : (visible w n).length ≤ w.ring.length + 1 := by
    simp only [visible, List.length_drop, List.length_take, List.length_append,
      List.length_singleton]
    omega
  have hrow : row - 1 ≤ scrollbackLines := by omega
  exact Nat.add_le_add_left (Nat.mul_le_mul_right _ hrow) _

end Runs

/-- The screen of a live viewport is what a redraw of the latest lines shows, and two
runs that write the same text end on the same screen, however they scrolled. -/
def LiveIsRedrawn (font : Font) (fb : Bytes) (info : Info) : Prop :=
  ∀ calls w, PlainCalls font info calls → run font (new fb info) calls = some w → w.scrollBack = 0 →
    redrawVisible font w 0 = some w ∧
      ∀ calls' w', PlainCalls font info calls' → written calls' = written calls →
        run font (new fb info) calls' = some w' → w'.scrollBack = 0 → w' = w

/-- Line ends alone take the cursor below the rows that a redraw can reach. -/
theorem not_liveIsRedrawn {font : Font} {info : Info} (G : Geometry font info) (fb : Bytes)
    (hcap : scrollbackLines + 1 < viewportRows info) : ¬LiveIsRedrawn font fb info := by
  intro hall
  obtain ⟨w, hw, hback, -, hy⟩ :=
    newlines_reach font info fb fun k (hk : k < scrollbackLines + 1) => by
    rw [G.overflow_iff]
    omega
  have hplain : PlainCalls font info [.writeStr (List.replicate (scrollbackLines + 1) '\n')] := by
    refine ⟨by simp, by simp [written], fun run hrun hnl => ?_⟩
    have hempty : run = [] := List.eq_nil_iff_forall_not_mem.mpr fun c hc => by
      have hmem := hrun.subset hc
      simp only [written, List.flatMap_cons, List.flatMap_nil, List.append_nil] at hmem
      exact hnl (List.eq_of_mem_replicate hmem ▸ hc)
    have := G.column
    rw [hempty, List.length_nil]
    omega
  have hring := (run_holds hw (new_holds fb info)).ring_le
  have := redrawVisible_yPos_le hring (hall _ w hplain hw hback).1
  simp only [scrollbackLines, rowHeight, rasterHeight, lineSpacing] at *
  omega

/-- Live drawing is redrawing exactly when the ring and the line in progress can fill
the viewport. -/
theorem liveIsRedrawn_iff {font : Font} {info : Info} (G : Geometry font info) (fb : Bytes) :
    LiveIsRedrawn font fb info ↔ viewportRows info ≤ scrollbackLines + 1 := by
  constructor
  · intro hall
    by_contra hcap
    exact not_liveIsRedrawn G fb (by omega) hall
  · intro hcap calls w hplain hw hback
    have hlive : ∀ {calls w}, PlainCalls font info calls → run font (new fb info) calls = some w →
        Live font info fb.length w := fun hp hrun =>
      run_live G hcap hp.noClear (by simpa using hp.noReturn) (by simpa using hp.fits)
        (show Holds _ (cutLines []) from new_holds fb info) (new_live fb) hrun
    have L := hlive hplain hw
    have hrow : 1 ≤ w.viewportRows := L.viewport.symm ▸ G.row
    have hdrawn := (redrawVisible_iff hrow).mpr (L.redrawn hback)
    refine ⟨hdrawn, fun calls' w' hplain' htext hw' hback' => ?_⟩
    have L' := hlive hplain' hw'
    have H := run_holds hw (new_holds fb info)
    have H' := run_holds hw' (new_holds fb info)
    rw [htext] at H'
    have hsame : SameText w' w :=
      ⟨H.ring.trans H'.ring.symm, H.currentLine.trans H'.currentLine.symm, hback.trans hback'.symm,
        L.viewport.trans L'.viewport.symm, L.info.trans L'.info.symm, L.size.trans L'.size.symm⟩
    -- both screens are the redraw of the same lines
    have hrow' : 1 ≤ w'.viewportRows := L'.viewport.symm ▸ G.row
    have hone := (redrawVisible_iff hrow').mpr ((L.redrawn hback).of_same hsame)
    have hother := (redrawVisible_iff hrow').mpr (L'.redrawn hback')
    exact Option.some.inj (hother.symm.trans hone)

def blockFont : Font := ⟨8, fun _ => some ⟨List.replicate 16 (List.replicate 8 255), 8⟩⟩

theorem blockFont_geometry {info : Info} (hcol : 9 < info.width) (hrow : 1 ≤ viewportRows info)
    (hbottom : (info.height - 1) / 18 = (info.height - 2) / 18) : Geometry blockFont info := by
  refine ⟨fun c glyph h => ?_, hcol, hrow, hbottom⟩
  simp only [rasterFor, blockFont, Option.some_or, Option.some.injEq] at h
  rw [← h]
  rfl

theorem liveIsRedrawn_smallScreen :
    LiveIsRedrawn blockFont (List.replicate 12000 0) ⟨100, 40, 100, 3, .rgb⟩ :=
  (liveIsRedrawn_iff (blockFont_geometry (by decide) (by decide) (by decide)) _).mpr (by decide)

/-- A screen of 258 rows, after 257 line ends: the cursor is on the last row, and a redraw
puts it one row higher. -/
theorem liveIsRedrawn_fails_tallScreen :
    ¬LiveIsRedrawn blockFont (List.replicate (640 * 4646 * 4) 0) ⟨640, 4646, 640, 4, .bgr⟩ :=
  not_liveIsRedrawn (blockFont_geometry (by decide) (by decide) (by decide)) _ (by decide)

end Willo.Framebuffer
