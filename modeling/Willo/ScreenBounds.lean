import Willo.LiveScreen

/-! Where the cursor can be and what the writer touches. One rule covers every
property of the cursor's height: it is set to the top, moved down a row when the
overflow test allows it, or put on one of the rows a redraw fills. From it follow
that no pixel falls outside the buffer, and that the cursor stays on the rows
scrollback can show exactly when the overflow test and the constructor count the
same rows. -/

namespace Willo.Framebuffer
open ByteCodec

/-! The rule for the cursor. -/

structure CursorRule (info : Info) (P : Nat → Prop) : Prop where
  down : ∀ y, P y → ¬info.height ≤ y + rowHeight + rasterHeight + borderPadding → P (y + rowHeight)
  drawn : ∀ r ≤ viewportRows info, P (borderPadding + (r - 1) * rowHeight)

structure Placed (geo : Info) (P : Nat → Prop) (w : Writer) : Prop where
  info : w.info = geo
  viewport : w.viewportRows = viewportRows geo
  cursor : P w.yPos

section Cursor

variable {font : Font} {info : Info} {P : Nat → Prop} {w w' : Writer} {fb fb' : Bytes}

theorem CursorRule.top (C : CursorRule info P) : P borderPadding := C.drawn 0 (Nat.zero_le _)

theorem drawRows_row_le_viewport {viewport row x x' row' : Nat} {lines : List (List Char)}
    (hrow : row ≤ viewport) (hlines : lines = [] ∨ row < viewport)
    (h : drawRows font info viewport row x lines fb = some (fb', x', row')) : row' ≤ viewport := by
  induction lines generalizing row x fb with
  | nil =>
    cases h
    exact hrow
  | cons line lines ih =>
    have hlt : row < viewport := hlines.resolve_left (by simp)
    obtain ⟨⟨mid, xm⟩, -, h⟩ := Option.bind_eq_some_iff.mp h
    dsimp only at h
    split_ifs at h with hfull
    · cases h
      omega
    · exact ih (by omega) (Or.inr (by omega)) h

theorem visible_nil (hrow : w.viewportRows = 0) (n : Nat) : visible w n = [] := by
  apply List.eq_nil_of_length_eq_zero
  simp only [visible, List.length_drop, List.length_take]
  omega

theorem visible_or_row (w : Writer) (n : Nat) : visible w n = [] ∨ 0 < w.viewportRows := by
  rcases Nat.eq_zero_or_pos w.viewportRows with hrow | hrow
  · exact Or.inl (visible_nil hrow n)
  · exact Or.inr hrow

theorem redrawVisible_placed (C : CursorRule info P) (hinfo : w.info = info)
    (hview : w.viewportRows = viewportRows info) {n : Nat} (h : redrawVisible font w n = some w') :
    Placed info P w' := by
  have hsame := redrawVisible_same h
  obtain ⟨⟨fb, x, row⟩, hrows, h⟩ := Option.bind_eq_some_iff.mp h
  have hrow := drawRows_row_le_viewport (Nat.zero_le _) (visible_or_row w n) hrows
  refine ⟨hsame.info.trans hinfo, hsame.viewportRows.trans hview, ?_⟩
  cases h
  exact C.drawn row (hview ▸ hrow)

theorem advanceVisualRow_placed (C : CursorRule info P) (H : Placed info P w)
    (h : advanceVisualRow font w = some w') : Placed info P w' := by
  have hsame := advanceVisualRow_same h
  refine ⟨hsame.info.trans H.info, hsame.viewportRows.trans H.viewport, ?_⟩
  obtain ⟨-, m, hm, rfl⟩ | ⟨hroom, rfl⟩ := advanceVisualRow_cases h
  · have hview : m.viewportRows = viewportRows info :=
      (redrawVisible_same hm).viewportRows.trans H.viewport
    have hlast := C.drawn (viewportRows info) (Nat.le_refl _)
    rwa [← hview] at hlast
  · rw [H.info] at hroom
    exact C.down w.yPos H.cursor hroom

theorem newline_placed (C : CursorRule info P) (H : Placed info P w)
    (h : newline font w = some w') :
    Placed info P w' := by
  have hpush : Placed info P (pushCurrentToRing w) := ⟨H.info, H.viewport, H.cursor⟩
  unfold newline at h
  dsimp only at h
  split_ifs at h
  · exact advanceVisualRow_placed C hpush h
  · cases h
    exact hpush

theorem wrapAtEdge_placed (C : CursorRule info P) (H : Placed info P w)
    (h : wrapAtEdge font w = some w') :
    Placed info P w' := by
  unfold wrapAtEdge at h
  split_ifs at h
  · exact advanceVisualRow_placed C H h
  · cases h
    exact H

theorem drawChar_placed (C : CursorRule info P) (H : Placed info P w) {c : Char}
    (h : drawChar font c w = some w') : Placed info P w' := by
  unfold drawChar at h
  split_ifs at h
  · obtain ⟨m, hm, h⟩ := Option.bind_eq_some_iff.mp h
    obtain ⟨glyph, -, h⟩ := Option.bind_eq_some_iff.mp h
    obtain ⟨fb, -, h⟩ := Option.bind_eq_some_iff.mp h
    have hwrap := wrapAtEdge_placed C H hm
    cases h
    exact ⟨hwrap.info, hwrap.viewport, hwrap.cursor⟩
  · cases h
    exact H

theorem writeChar_placed (C : CursorRule info P) (H : Placed info P w) {c : Char}
    (h : writeChar font w c = some w') : Placed info P w' := by
  unfold writeChar at h
  split_ifs at h
  · exact newline_placed C H h
  · cases h
    exact ⟨H.info, H.viewport, H.cursor⟩
  · obtain ⟨m, hm, h⟩ := Option.bind_eq_some_iff.mp h
    obtain ⟨m', hm', h⟩ := Option.bind_eq_some_iff.mp h
    have hfull : Placed info P m := by
      unfold wrapFullLine at hm
      split_ifs at hm
      · exact newline_placed C H hm
      · cases hm
        exact H
    have hdraw := drawChar_placed C hfull hm'
    cases h
    exact ⟨hdraw.info, hdraw.viewport, hdraw.cursor⟩

theorem writeStr_placed (C : CursorRule info P) (H : Placed info P w) {s : List Char}
    (h : writeStr font w s = some w') : Placed info P w' := by
  induction s generalizing w with
  | nil =>
    cases h
    exact H
  | cons c s ih =>
    rw [writeStr, List.foldlM_cons] at h
    obtain ⟨m, hm, h⟩ := Option.bind_eq_some_iff.mp h
    exact ih (writeChar_placed C H hm) h

theorem scrollTo_placed (C : CursorRule info P) (H : Placed info P w) {n : Nat}
    (h : scrollTo font w n = some w') : Placed info P w' := by
  unfold scrollTo at h
  split_ifs at h
  · cases h
    exact H
  · have hinfo : { w with scrollBack := n }.info = info := H.info
    exact redrawVisible_placed C hinfo H.viewport h

theorem step_placed (C : CursorRule info P) (H : Placed info P w) {call : Call}
    (h : step font w call = some w') : Placed info P w' := by
  cases call with
  | writeStr s => exact writeStr_placed C H h
  | scrollUp n =>
    simp only [step, scrollUp] at h
    split_ifs at h
    exact scrollTo_placed C H h
  | scrollDown n => exact scrollTo_placed C H h
  | scrollEnd => exact scrollTo_placed C H h
  | clear =>
    cases h
    exact ⟨H.info, H.viewport, C.top⟩

theorem run_placed (C : CursorRule info P) (H : Placed info P w) {calls : List Call}
    (h : run font w calls = some w') : Placed info P w' := by
  induction calls generalizing w with
  | nil =>
    cases h
    exact H
  | cons call calls ih =>
    rw [run, List.foldlM_cons] at h
    obtain ⟨m, hm, h⟩ := Option.bind_eq_some_iff.mp h
    exact ih (step_placed C H hm) h

theorem new_placed (C : CursorRule info P) (fb : Bytes) : Placed info P (new fb info) :=
  ⟨rfl, rfl, C.top⟩

end Cursor

/-! Pixels inside the buffer. -/

/-- A screen with room for a glyph, a supported format, and a buffer for all its pixels;
rasters are as wide as the font says and sixteen rows high, and the substitute
glyph is there. -/
structure Screen (font : Font) (info : Info) (bytes : Nat) : Prop where
  glyphs : ∀ c glyph, font.getRaster c = some glyph →
    glyph.width = font.width ∧ glyph.rows.length = rasterHeight ∧
      ∀ row ∈ glyph.rows, row.length = font.width
  backup : (font.getRaster backupChar).isSome
  width : font.width + 2 ≤ info.width
  height : 17 ≤ info.height
  stride : info.width ≤ info.stride
  pixel : 1 ≤ info.bytesPerPixel ∧ info.bytesPerPixel ≤ 4
  format : info.pixelFormat ≠ .other
  size : info.stride * info.height * info.bytesPerPixel ≤ bytes
  addressable : bytes < usizeCount

def Above (info : Info) (y : Nat) : Prop := y + rasterHeight ≤ info.height

section Inside

variable {font : Font} {info : Info} {size : Nat} {w w' : Writer} {fb : Bytes}

theorem Screen.cursorRule (S : Screen font info size) : CursorRule info (Above info) where
  down y _ hroom := by
    simp only [Above, rasterHeight, rowHeight, lineSpacing, borderPadding] at *
    omega
  drawn r hr := by
    have hheight := S.height
    simp only [Above, viewportRows, rasterHeight, rowHeight, lineSpacing, borderPadding] at *
    omega

theorem Screen.rasterFor (S : Screen font info size) (c : Char) :
    ∃ glyph, rasterFor font c = some glyph ∧
    glyph.width = font.width ∧ glyph.rows.length = rasterHeight ∧
    ∀ row ∈ glyph.rows, row.length = font.width := by
  unfold Framebuffer.rasterFor
  cases hc : font.getRaster c with
  | some glyph => exact ⟨glyph, rfl, S.glyphs c glyph hc⟩
  | none =>
    obtain ⟨glyph, hglyph⟩ := Option.isSome_iff_exists.mp S.backup
    exact ⟨glyph, by rw [hglyph]; rfl, S.glyphs backupChar glyph hglyph⟩

theorem color_inside {format : PixelFormat} (h : format ≠ .other) (intensity : UInt8) :
    ∃ bytes, color intensity format = some bytes ∧ bytes.length = 4 := by
  cases format with
  | rgb => exact ⟨_, rfl, rfl⟩
  | bgr => exact ⟨_, rfl, rfl⟩
  | u8 => exact ⟨_, rfl, rfl⟩
  | other => exact absurd rfl h

theorem Screen.pixel_le (S : Screen font info size) {x y : Nat} (hx : x < info.width)
    (hy : y < info.height) :
    (y * info.stride + x) * info.bytesPerPixel + info.bytesPerPixel ≤ size := by
  have hstride := S.stride
  have hrow : y * info.stride + x + 1 ≤ info.stride * info.height := by
    calc y * info.stride + x + 1
        ≤ (y + 1) * info.stride := by
          rw [Nat.add_mul, Nat.one_mul]
          omega
      _ ≤ info.height * info.stride := Nat.mul_le_mul_right _ hy
      _ = info.stride * info.height := Nat.mul_comm _ _
  calc (y * info.stride + x) * info.bytesPerPixel + info.bytesPerPixel
      = (y * info.stride + x + 1) * info.bytesPerPixel := by rw [Nat.add_mul _ 1, Nat.one_mul]
    _ ≤ info.stride * info.height * info.bytesPerPixel := Nat.mul_le_mul_right _ hrow
    _ ≤ size := S.size

theorem writePixel_inside (S : Screen font info size) (hfb : fb.length = size) {x y : Nat}
    (hx : x < info.width) (hy : y < info.height) (intensity : UInt8) :
    ∃ bytes, color intensity info.pixelFormat = some bytes ∧ bytes.length = 4 ∧
      writePixel info x y intensity fb =
        some (patch fb ((y * info.stride + x) * info.bytesPerPixel)
        (bytes.take info.bytesPerPixel)) := by
  obtain ⟨bytes, hcolor, hlen⟩ := color_inside S.format intensity
  have hend := S.pixel_le hx hy
  obtain ⟨hpos, hfour⟩ := S.pixel
  refine ⟨bytes, hcolor, hlen, Option.bind_eq_some_iff.mpr ⟨bytes, hcolor, ?_⟩⟩
  exact if_pos ⟨by omega, by omega, by omega⟩

theorem blitRow_inside (S : Screen font info size) (hfb : fb.length = size) {x y : Nat}
    {row : List UInt8} (hx : x + row.length ≤ info.width) (hy : y < info.height) :
    ∃ fb', blitRow info y x row fb = some fb' := by
  induction row generalizing x fb with
  | nil => exact ⟨fb, rfl⟩
  | cons byte row ih =>
    rw [List.length_cons] at hx
    have hlt : x < info.width := by omega
    obtain ⟨bytes, -, -, hmid⟩ := writePixel_inside S hfb hlt hy byte
    have hlen := (length_writePixel hmid).trans hfb
    have hnext : x + 1 + row.length ≤ info.width := by omega
    obtain ⟨fb', hfb'⟩ := ih hlen hnext
    exact ⟨fb', Option.bind_eq_some_iff.mpr ⟨_, hmid, hfb'⟩⟩

theorem blit_inside (S : Screen font info size) (hfb : fb.length = size) {x y : Nat}
    {rows : List (List UInt8)}
    (hrows : ∀ row ∈ rows, row.length = font.width) (hx : x + font.width ≤ info.width)
    (hy : y + rows.length ≤ info.height) : ∃ fb', blit info x y rows fb = some fb' := by
  induction rows generalizing y fb with
  | nil => exact ⟨fb, rfl⟩
  | cons row rows ih =>
    rw [List.length_cons] at hy
    have hrow := hrows row (by simp)
    have hin : x + row.length ≤ info.width := hrow ▸ hx
    have hlt : y < info.height := by omega
    obtain ⟨mid, hmid⟩ := blitRow_inside S hfb hin hlt
    have hlen : mid.length = size := (length_blitRow hmid).trans hfb
    have hnext : y + 1 + rows.length ≤ info.height := by omega
    obtain ⟨fb', hfb'⟩ := ih hlen (fun r hr => hrows r (by simp [hr])) hnext
    exact ⟨fb', Option.bind_eq_some_iff.mpr ⟨mid, hmid, hfb'⟩⟩

theorem drawLine_inside (S : Screen font info size) {y : Nat} (hy : Above info y) (line : List Char)
    (x : Nat) (hfb : fb.length = size) : ∃ r, drawLine font info y x line fb = some r := by
  induction line generalizing x fb with
  | nil => exact ⟨_, rfl⟩
  | cons c line ih =>
    rw [drawLine]
    split_ifs with hedge
    · exact ⟨_, rfl⟩
    · obtain ⟨glyph, hglyph, -, hheight, hrows⟩ := S.rasterFor c
      have hin : x + font.width ≤ info.width := by omega
      have hbelow : y + glyph.rows.length ≤ info.height := by
        rw [hheight]
        exact hy
      obtain ⟨mid, hmid⟩ := blit_inside S hfb hrows hin hbelow
      have hlen : mid.length = size := (length_blit hmid).trans hfb
      obtain ⟨r, hr⟩ := ih (x + glyph.width + letterSpacing) hlen
      exact ⟨r, Option.bind_eq_some_iff.mpr ⟨glyph, hglyph,
        Option.bind_eq_some_iff.mpr ⟨mid, hmid, hr⟩⟩⟩

theorem drawRows_inside (S : Screen font info size) {row : Nat} {lines : List (List Char)} (x : Nat)
    (hfb : fb.length = size) (hlines : lines = [] ∨ row < viewportRows info) :
    ∃ r, drawRows font info (viewportRows info) row x lines fb = some r := by
  induction lines generalizing row x fb with
  | nil => exact ⟨_, rfl⟩
  | cons line lines ih =>
    have hrow : row < viewportRows info := hlines.resolve_left (by simp)
    have hy : Above info (borderPadding + row * rowHeight) := S.cursorRule.drawn (row + 1) hrow
    obtain ⟨⟨mid, xm⟩, hmid⟩ := drawLine_inside S hy line borderPadding hfb
    have hlen : mid.length = size := (length_drawLine hmid).trans hfb
    by_cases hfull : viewportRows info ≤ row + 1
    · refine ⟨(mid, xm, row + 1), Option.bind_eq_some_iff.mpr ⟨(mid, xm), hmid, ?_⟩⟩
      exact if_pos hfull
    · have hnext : lines = [] ∨ row + 1 < viewportRows info := Or.inr (by omega)
      obtain ⟨r, hr⟩ := ih xm hlen hnext
      refine ⟨r, Option.bind_eq_some_iff.mpr ⟨(mid, xm), hmid, ?_⟩⟩
      exact (if_neg hfull).trans hr

structure Within (geo : Info) (bytes : Nat) (w : Writer) :
    Prop extends Placed geo (Above geo) w where
  length : w.framebuffer.length = bytes

theorem redrawVisible_within (S : Screen font info size) (hinfo : w.info = info)
    (hview : w.viewportRows = viewportRows info) (hfb : w.framebuffer.length = size) (n : Nat) :
    ∃ w', redrawVisible font w n = some w' ∧ Within info size w' := by
  have hblank : (blank w.framebuffer).length = size := by rw [length_blank, hfb]
  have hlines := visible_or_row w n
  rw [hview] at hlines
  obtain ⟨⟨fb', x, row⟩, hrows⟩ := drawRows_inside S borderPadding hblank hlines
  have hdrawn : redrawVisible font w n =
      some { w with
        framebuffer := fb', xPos := x, yPos := borderPadding + (row - 1) * rowHeight } := by
    refine Option.bind_eq_some_iff.mpr ⟨(fb', x, row), ?_, rfl⟩
    rw [hinfo, hview]
    exact hrows
  exact ⟨_, hdrawn, redrawVisible_placed S.cursorRule hinfo hview hdrawn,
    (redrawVisible_same hdrawn).length.trans hfb⟩

theorem advanceVisualRow_within (S : Screen font info size) (W : Within info size w) :
    ∃ w', advanceVisualRow font w = some w' ∧ Within info size w' ∧ w'.xPos = borderPadding := by
  have hkept : ∀ w', advanceVisualRow font w = some w' → Within info size w' := fun w' h =>
    ⟨advanceVisualRow_placed S.cursorRule W.toPlaced h,
      (advanceVisualRow_same h).length.trans W.length⟩
  by_cases hover : w.info.height ≤ w.yPos + rowHeight + rasterHeight + borderPadding
  · have hinfo : { w with yPos := w.yPos + rowHeight, xPos := borderPadding }.info = info := W.info
    obtain ⟨m, hm, -⟩ := redrawVisible_within S hinfo W.viewport W.length 0
    have hdone : advanceVisualRow font w =
        some { m with
          yPos := borderPadding + (m.viewportRows - 1) * rowHeight, xPos := borderPadding } :=
      (if_pos hover).trans (Option.bind_eq_some_iff.mpr ⟨m, hm, rfl⟩)
    exact ⟨_, hdone, hkept _ hdone, rfl⟩
  · have hdone : advanceVisualRow font w =
      some { w with yPos := w.yPos + rowHeight, xPos := borderPadding } :=
      if_neg hover
    exact ⟨_, hdone, hkept _ hdone, rfl⟩

theorem newline_within (S : Screen font info size) (W : Within info size w) :
    ∃ w', newline font w = some w' ∧ Within info size w' := by
  have hpush : Within info size (pushCurrentToRing w) := ⟨⟨W.info, W.viewport, W.cursor⟩, W.length⟩
  unfold newline
  dsimp only
  split_ifs
  · obtain ⟨w', h, W', -⟩ := advanceVisualRow_within S hpush
    exact ⟨w', h, W'⟩
  · exact ⟨_, rfl, hpush⟩

theorem wrapAtEdge_within (S : Screen font info size) (W : Within info size w) :
    ∃ w', wrapAtEdge font w = some w' ∧ Within info size w' ∧
    w'.xPos + font.width < info.width := by
  have hwidth := S.width
  unfold wrapAtEdge
  split_ifs with hedge
  · obtain ⟨w', h, W', hx⟩ := advanceVisualRow_within S W
    refine ⟨w', h, W', ?_⟩
    rw [hx, borderPadding]
    omega
  · rw [W.info] at hedge
    exact ⟨w, rfl, W, by omega⟩

/-- What a character on a live viewport does: the wrap leaves `m`, the glyph is drawn at its
cursor, and the cursor steps over it. -/
structure Drawing (font : Font) (info : Info) (bytes : Nat) (w : Writer) (c : Char) (m : Writer)
    (glyph : Raster) (fb : Bytes) : Prop where
  wrapped : wrapAtEdge font w = some m
  inside : Within info bytes m
  room : m.xPos + font.width < info.width
  raster : rasterFor font c = some glyph
  width : glyph.width = font.width
  height : glyph.rows.length = rasterHeight
  rows : ∀ row ∈ glyph.rows, row.length = font.width
  blitted : blit info m.xPos m.yPos glyph.rows m.framebuffer = some fb
  drawn : drawChar font c w = some { m with framebuffer := fb, xPos := m.xPos + font.width }

theorem drawChar_drawing (S : Screen font info size) (W : Within info size w)
    (hback : w.scrollBack = 0)
    (c : Char) : ∃ m glyph fb', Drawing font info size w c m glyph fb' := by
  obtain ⟨m, hm, M, hx⟩ := wrapAtEdge_within S W
  obtain ⟨glyph, hglyph, hwide, hheight, hrows⟩ := S.rasterFor c
  have hbelow : m.yPos + glyph.rows.length ≤ info.height := by
    rw [hheight]
    exact M.cursor
  obtain ⟨fb', hfb'⟩ := blit_inside S M.length hrows (Nat.le_of_lt hx) hbelow
  have hdone : writeRendered glyph m =
    some { m with framebuffer := fb', xPos := m.xPos + font.width } := by
    refine Option.bind_eq_some_iff.mpr ⟨fb', ?_, ?_⟩
    · rw [M.info]
      exact hfb'
    · rw [hwide]
      rfl
  have hdraw : drawChar font c w =
    some { m with framebuffer := fb', xPos := m.xPos + font.width } := by
    rw [drawChar, if_pos hback]
    exact Option.bind_eq_some_iff.mpr ⟨m, hm, Option.bind_eq_some_iff.mpr ⟨glyph, hglyph, hdone⟩⟩
  exact ⟨m, glyph, fb', hm, M, hx, hglyph, hwide, hheight, hrows, hfb', hdraw⟩

theorem Drawing.within {c : Char} {m : Writer} {glyph : Raster} {fb' : Bytes}
    (D : Drawing font info size w c m glyph fb') :
    Within info size { m with framebuffer := fb', xPos := m.xPos + font.width } :=
  ⟨⟨D.inside.info, D.inside.viewport, D.inside.cursor⟩,
    (length_blit D.blitted).trans D.inside.length⟩

theorem drawChar_within (S : Screen font info size) (W : Within info size w) (c : Char) :
    ∃ w', drawChar font c w = some w' ∧ Within info size w' := by
  by_cases hback : w.scrollBack = 0
  · obtain ⟨m, glyph, fb', D⟩ := drawChar_drawing S W hback c
    exact ⟨_, D.drawn, D.within⟩
  · exact ⟨w, if_neg hback, W⟩

theorem writeChar_within (S : Screen font info size) (W : Within info size w) (c : Char) :
    ∃ w', writeChar font w c = some w' ∧ Within info size w' := by
  unfold writeChar
  split_ifs
  · exact newline_within S W
  · exact ⟨_, rfl, ⟨W.info, W.viewport, W.cursor⟩, W.length⟩
  · have hfull : ∃ m, wrapFullLine font w = some m ∧ Within info size m := by
      unfold wrapFullLine
      split_ifs
      · exact newline_within S W
      · exact ⟨w, rfl, W⟩
    obtain ⟨m, hm, M⟩ := hfull
    obtain ⟨m', hm', M'⟩ := drawChar_within S M c
    refine ⟨_, Option.bind_eq_some_iff.mpr ⟨m, hm, Option.bind_eq_some_iff.mpr ⟨m', hm', rfl⟩⟩, ?_⟩
    exact ⟨⟨M'.info, M'.viewport, M'.cursor⟩, M'.length⟩

theorem writeStr_within (S : Screen font info size) (W : Within info size w) (s : List Char) :
    ∃ w', writeStr font w s = some w' ∧ Within info size w' := by
  induction s generalizing w with
  | nil => exact ⟨w, rfl, W⟩
  | cons c s ih =>
    obtain ⟨m, hm, M⟩ := writeChar_within S W c
    obtain ⟨w', h, W'⟩ := ih M
    refine ⟨w', ?_, W'⟩
    rw [writeStr, List.foldlM_cons]
    exact Option.bind_eq_some_iff.mpr ⟨m, hm, h⟩

theorem scrollTo_within (S : Screen font info size) (W : Within info size w) (n : Nat) :
    ∃ w', scrollTo font w n = some w' ∧ Within info size w' := by
  unfold scrollTo
  split_ifs
  · exact ⟨w, rfl, W⟩
  · have hinfo : { w with scrollBack := n }.info = info := W.info
    exact redrawVisible_within S hinfo W.viewport W.length n

theorem clear_within (S : Screen font info size) (W : Within info size w) :
    Within info size (clear w) :=
  ⟨⟨W.info, W.viewport, S.cursorRule.top⟩, by rw [clear, length_blank, W.length]⟩

end Inside

/-! The keyboard's calls. -/

/-- The lines PageUp and PageDown move by (`route_rawkey`). -/
def pageStep (info : Info) : Nat := max (viewportRows info - 1) 1

/-- A call the kernel makes: any text, and scrolling by pages. -/
def Paged (info : Info) : Call → Prop
  | .scrollUp n => n = pageStep info
  | .scrollDown n => n = pageStep info
  | _ => True

instance (info : Info) : DecidablePred (Paged info)
  | .writeStr _ => inferInstanceAs (Decidable True)
  | .scrollUp n => inferInstanceAs (Decidable (n = pageStep info))
  | .scrollDown n => inferInstanceAs (Decidable (n = pageStep info))
  | .scrollEnd => inferInstanceAs (Decidable True)
  | .clear => inferInstanceAs (Decidable True)

section Calls

variable {font : Font} {info : Info} {size : Nat} {w : Writer} {t : Lines}

/-- A screen has fewer rows than its buffer has bytes, so that adding a page to the offset does
not wrap around. -/
theorem Screen.height_lt (S : Screen font info size) : 2 * info.height < usizeCount := by
  have hwidth := S.width
  have hstride := S.stride
  obtain ⟨hpixel, -⟩ := S.pixel
  calc 2 * info.height
      ≤ info.stride * info.height := Nat.mul_le_mul_right _ (by omega)
    _ ≤ info.stride * info.height * info.bytesPerPixel := Nat.le_mul_of_pos_right _ hpixel
    _ ≤ size := S.size
    _ < usizeCount := S.addressable

theorem Screen.page_lt (S : Screen font info size) (H : Holds w t) :
    w.scrollBack + pageStep info < usizeCount := by
  have hring := H.ring_le
  have hback := H.offset
  have hheight := S.height_lt
  simp only [pageStep, viewportRows, rowHeight, rasterHeight, lineSpacing, borderPadding,
    scrollbackLines, usizeCount] at *
  omega

theorem step_within (S : Screen font info size) (W : Within info size w) {call : Call}
    (hcall : ∀ n, call = .scrollUp n → w.scrollBack + n < usizeCount) :
    ∃ w', step font w call = some w' ∧ Within info size w' := by
  cases call with
  | writeStr s => exact writeStr_within S W s
  | scrollUp n =>
    obtain ⟨w', h, W'⟩ :=
      scrollTo_within S W (min (w.scrollBack + n) (w.ring.length + 1 - w.viewportRows))
    exact ⟨w', (if_pos (hcall n rfl)).trans h, W'⟩
  | scrollDown n => exact scrollTo_within S W _
  | scrollEnd => exact scrollTo_within S W 0
  | clear => exact ⟨clear w, rfl, clear_within S W⟩

theorem run_within (S : Screen font info size) (W : Within info size w) (H : Holds w t)
    {calls : List Call} (hcalls : ∀ n, .scrollUp n ∈ calls → n = pageStep info) :
    ∃ w', run font w calls = some w' ∧ Within info size w' := by
  induction calls generalizing w t with
  | nil => exact ⟨w, rfl, W⟩
  | cons call calls ih =>
    have hcall : ∀ n, call = .scrollUp n → w.scrollBack + n < usizeCount := by
      intro n hn
      rw [hcalls n (hn ▸ List.mem_cons_self)]
      exact S.page_lt H
    obtain ⟨m, hm, M⟩ := step_within S W hcall
    obtain ⟨w', h, W'⟩ :=
      ih M (step_holds hm H) fun n hmem => hcalls n (List.mem_cons_of_mem _ hmem)
    refine ⟨w', ?_, W'⟩
    rw [run, List.foldlM_cons]
    exact Option.bind_eq_some_iff.mpr ⟨m, hm, h⟩

theorem run_within_of_some (S : Screen font info size) (W : Within info size w) {calls : List Call}
    {w' : Writer} (h : run font w calls = some w') : Within info size w' := by
  induction calls generalizing w with
  | nil =>
    cases h
    exact W
  | cons call calls ih =>
    rw [run, List.foldlM_cons] at h
    obtain ⟨m, hm, h⟩ := Option.bind_eq_some_iff.mp h
    have hcall : ∀ n, call = .scrollUp n → w.scrollBack + n < usizeCount := by
      intro n hn
      by_contra hover
      rw [hn, step, scrollUp, if_neg hover] at hm
      cases hm
    obtain ⟨m', hm', M⟩ := step_within S W hcall
    exact ih (Option.some.inj (hm'.symm.trans hm) ▸ M) h

theorem new_within (S : Screen font info size) {fb : Bytes} (hfb : fb.length = size) :
    Within info size (new fb info) :=
  ⟨new_placed S.cursorRule fb, by rw [new, length_blank, hfb]⟩

end Calls

/-! The indices of a redraw. -/

def checkedSub (a b : Nat) : Option Nat := if b ≤ a then some (a - b) else none

/-- The lines `redraw_visible` reads, index by index, with the checks of the subtraction and of
the ring. -/
def windowLines (w : Writer) (scrollBack : Nat) : Option (List (List Char)) := do
  let total := w.ring.length + 1
  let maxBack := total - w.viewportRows
  let off := min scrollBack maxBack
  let first := total - (w.viewportRows + off)
  let last ← checkedSub total off
  (List.range' first (last - first)).mapM fun idx =>
    if idx < w.ring.length then w.ring[idx]? else some w.currentLine

section Window

variable {w : Writer}

theorem lineAt_eq {idx : Nat} (h : idx < w.ring.length + 1) :
    (if idx < w.ring.length then w.ring[idx]? else some w.currentLine) =
      (w.ring ++ [w.currentLine])[idx]? := by
  split_ifs with hring
  · rw [List.getElem?_append_left hring]
  · have hidx : idx = w.ring.length := by omega
    rw [hidx, List.getElem?_concat_length]

theorem mapM_range' {α : Type} {f : Nat → Option α} {l : List α} {first n : Nat}
    (hn : first + n ≤ l.length) (hf : ∀ idx < l.length, f idx = l[idx]?) :
    (List.range' first n).mapM f = some ((l.drop first).take n) := by
  induction n generalizing first with
  | zero => simp
  | succ n ih =>
    have hlt : first < l.length := by omega
    have hrest := ih (show first + 1 + n ≤ l.length by omega)
    rw [List.range'_succ, List.mapM_cons, hf first hlt, List.getElem?_eq_getElem hlt, hrest,
      List.drop_eq_getElem_cons hlt, List.take_succ_cons]
    rfl

theorem windowLines_eq (w : Writer) (n : Nat) : windowLines w n = some (visible w n) := by
  simp only [windowLines, visible]
  generalize hoff : min n (w.ring.length + 1 - w.viewportRows) = off
  have hle : off ≤ w.ring.length + 1 := by omega
  rw [checkedSub, if_pos hle, List.drop_take]
  have hlen : (w.ring ++ [w.currentLine]).length = w.ring.length + 1 := by simp
  exact mapM_range' (by omega) fun idx hidx => lineAt_eq (by omega)

end Window

/-- On a screen with room for one glyph, no sequence of calls the kernel can make writes a pixel
outside the buffer or reads a line outside the ring. -/
theorem run_stays_inside {font : Font} {info : Info} {fb : Bytes} (S : Screen font info fb.length)
    {calls : List Call} (hcalls : ∀ call ∈ calls, Paged info call) :
    (∃ w, run font (new fb info) calls = some w ∧ w.framebuffer.length = fb.length) ∧
      ∀ w n, windowLines w n = some (visible w n) := by
  obtain ⟨w, hw, W⟩ := run_within S (new_within S rfl) (new_holds fb info) fun n hn => hcalls _ hn
  exact ⟨⟨w, hw, W.length⟩, windowLines_eq⟩

theorem screen_of_glyph {font : Font} {info : Info} {glyph : Raster} {size : Nat}
    (hall : ∀ c, font.getRaster c = some glyph)
    (hglyph : glyph.width = font.width ∧ glyph.rows.length = rasterHeight ∧
      ∀ row ∈ glyph.rows, row.length = font.width)
    (hwidth : font.width + 2 ≤ info.width) (hheight : 17 ≤ info.height)
    (hstride : info.width ≤ info.stride)
    (hpixel : 1 ≤ info.bytesPerPixel ∧ info.bytesPerPixel ≤ 4) (hformat : info.pixelFormat ≠ .other)
    (hsize : info.stride * info.height * info.bytesPerPixel ≤ size) (haddr : size < usizeCount) :
    Screen font info size := by
  refine ⟨fun c g h => ?_, ?_, hwidth, hheight, hstride, hpixel, hformat, hsize, haddr⟩
  · rw [hall c, Option.some.injEq] at h
    rw [← h]
    exact hglyph
  · rw [hall, Option.isSome_some]

/-- A screen too low for a whole viewport row. -/
theorem run_stays_inside_oneRow :
    ∃ w, run blockFont (new (List.replicate 510 0) ⟨10, 17, 10, 3, .rgb⟩)
      [.writeStr ['a', 'b', '\n'], .scrollUp 1, .clear, .scrollEnd] = some w := by
  have hscreen : Screen blockFont ⟨10, 17, 10, 3, .rgb⟩ 510 :=
    screen_of_glyph (fun _ => rfl) (by decide) (by decide) (by decide) (by decide)
      (by decide) (by decide)
      (by decide) (by decide)
  have hlen : (List.replicate 510 (0 : UInt8)).length = 510 := List.length_replicate
  have hcalls : ∀ call ∈ [.writeStr ['a', 'b', '\n'], .scrollUp 1, .clear, .scrollEnd],
      Paged ⟨10, 17, 10, 3, .rgb⟩ call := by decide
  obtain ⟨w, hw, -⟩ := (run_stays_inside (hlen.symm ▸ hscreen) hcalls).1
  exact ⟨w, hw⟩

/-! The rows of the cursor. -/

/-- The cursor is on a row of the viewport in every reachable state, and the overflow test
lets it on these rows only. -/
structure CursorKept (font : Font) (fb : Bytes) (info : Info) : Prop where
  reached : ∀ calls w, run font (new fb info) calls = some w →
    ∃ r < viewportRows info, w.yPos = borderPadding + r * rowHeight
  admitted : ∀ r, ¬info.height ≤ borderPadding + r * rowHeight + rasterHeight + borderPadding ↔
    r < viewportRows info

section Rows

variable {font : Font} {info : Info}

theorem admitted_iff (hrow : 1 ≤ viewportRows info)
    (hheight : info.height % rowHeight ≠ 1) (r : Nat) :
    ¬info.height ≤ borderPadding + r * rowHeight + rasterHeight + borderPadding ↔
    r < viewportRows info := by
  simp only [viewportRows, rowHeight, rasterHeight, lineSpacing, borderPadding] at *
  omega

theorem viewport_cursorRule (hrow : 1 ≤ viewportRows info) (hheight : info.height % rowHeight ≠ 1) :
    CursorRule info fun y => ∃ r < viewportRows info, y = borderPadding + r * rowHeight where
  down y hy hroom := by
    obtain ⟨r, -, rfl⟩ := hy
    have hnext : borderPadding + r * rowHeight + rowHeight =
      borderPadding + (r + 1) * rowHeight := by
      rw [Nat.add_mul, Nat.one_mul, Nat.add_assoc]
    rw [hnext] at hroom ⊢
    exact ⟨r + 1, (admitted_iff hrow hheight (r + 1)).mp hroom, rfl⟩
  drawn r hr := ⟨r - 1, by omega, rfl⟩

theorem newlines_leave_viewport (font : Font) (fb : Bytes) (hheight : info.height % rowHeight = 1) :
    ∃ w, run font (new fb info) [.writeStr (List.replicate (viewportRows info) '\n')] = some w ∧
      w.yPos = borderPadding + viewportRows info * rowHeight := by
  obtain ⟨w, hw, -, -, hy⟩ := newlines_reach font info fb fun k (hk : k < viewportRows info) => by
    simp only [viewportRows, rowHeight, rasterHeight, lineSpacing, borderPadding] at *
    omega
  exact ⟨w, hw, hy⟩

theorem not_cursorKept (font : Font) (fb : Bytes) (hheight : info.height % rowHeight = 1) :
    ¬CursorKept font fb info := by
  intro hkept
  obtain ⟨w, hw, hy⟩ := newlines_leave_viewport font fb hheight
  obtain ⟨r, hr, hy'⟩ := hkept.reached _ w hw
  simp only [rowHeight, rasterHeight, lineSpacing] at *
  omega

end Rows

/-- The constructor and the overflow test count the same rows except at heights that leave one
pixel over. -/
theorem cursorKept_iff (font : Font) (fb : Bytes) {info : Info} (hrow : 1 ≤ viewportRows info) :
    CursorKept font fb info ↔ info.height % rowHeight ≠ 1 := by
  constructor
  · intro hkept hheight
    exact not_cursorKept font fb hheight hkept
  · intro hheight
    have C := viewport_cursorRule hrow hheight
    exact ⟨fun calls w hw => (run_placed C (new_placed C fb) hw).cursor, admitted_iff hrow hheight⟩

theorem cursorKept_smallScreen :
    CursorKept blockFont (List.replicate 12000 0) ⟨100, 40, 100, 3, .rgb⟩ :=
  (cursorKept_iff blockFont _ (by decide)).mpr (by decide)

/-- A screen of 37 pixel rows has one glyph row, and a line end takes the cursor below it. -/
theorem cursorKept_fails_oneOver :
    ¬CursorKept blockFont (List.replicate 11100 0) ⟨100, 37, 100, 3, .rgb⟩ :=
  not_cursorKept blockFont _ (by decide)

end Willo.Framebuffer
