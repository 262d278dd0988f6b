import Willo.ScreenBounds

/-! What is on the screen. A glyph that was drawn is there pixel by pixel, and stays
there while other cells are drawn. Two results about whole runs rest on this:
when `clear` brings the output back to the top of the screen, and when a line
that wraps is still there from its first character on. -/

namespace Willo.Framebuffer
open ByteCodec

/-! Pixels. -/

def pixelAt (info : Info) (fb : Bytes) (x y : Nat) : Bytes :=
  slice fb ((y * info.stride + x) * info.bytesPerPixel) info.bytesPerPixel

def Shows (info : Info) (fb : Bytes) (x y : Nat) (glyph : Raster) : Prop :=
  ∀ gy row, glyph.rows[gy]? = some row → ∀ gx byte, row[gx]? = some byte →
    (color byte info.pixelFormat).map (·.take info.bytesPerPixel) =
      some (pixelAt info fb (x + gx) (y + gy))

section Pixels

variable {info : Info} {fb fb' : Bytes}

theorem pixel_offset_ne {stride x y px py : Nat} (hx : x < stride) (hpx : px < stride)
    (h : px ≠ x ∨ py ≠ y) :
    py * stride + px ≠ y * stride + x := by
  intro heq
  have hrow : py = y := by
    have hdiv := congrArg (· / stride) heq
    simpa [Nat.add_comm _ px, Nat.add_comm _ x, Nat.add_mul_div_right, Nat.div_eq_of_lt, hx, hpx,
      Nat.lt_of_le_of_lt (Nat.zero_le _) hx] using hdiv
  rw [hrow] at heq
  omega

theorem writePixel_self {x y : Nat} {byte : UInt8} (h : writePixel info x y byte fb = some fb') :
    (color byte info.pixelFormat).map (·.take info.bytesPerPixel) =
      some (pixelAt info fb' x y) := by
  obtain ⟨bytes, hcolor, h⟩ := Option.bind_eq_some_iff.mp h
  dsimp only at h
  split_ifs at h with hfit
  cases h
  have hlen : (bytes.take info.bytesPerPixel).length = info.bytesPerPixel := by
    rw [List.length_take]
    omega
  have hself : slice
    (patch fb ((y * info.stride + x) * info.bytesPerPixel) (bytes.take info.bytesPerPixel))
      ((y * info.stride + x) * info.bytesPerPixel) (bytes.take info.bytesPerPixel).length =
        bytes.take info.bytesPerPixel := slice_patch_self (Nat.le_of_lt hfit.2.2)
  rw [hlen] at hself
  rw [hcolor, Option.map_some, pixelAt, hself]

theorem writePixel_other {x y px py : Nat} {byte : UInt8} (hx : x < info.stride)
    (hpx : px < info.stride) (hne : px ≠ x ∨ py ≠ y) (h : writePixel info x y byte fb = some fb') :
    pixelAt info fb' px py = pixelAt info fb px py := by
  obtain ⟨bytes, -, h⟩ := Option.bind_eq_some_iff.mp h
  dsimp only at h
  split_ifs at h with hfit
  cases h
  have hlen : (bytes.take info.bytesPerPixel).length = info.bytesPerPixel := by
    rw [List.length_take]
    omega
  have hoff := pixel_offset_ne hx hpx hne
  have happart : (py * info.stride + px) * info.bytesPerPixel + info.bytesPerPixel ≤
        (y * info.stride + x) * info.bytesPerPixel ∨
      (y * info.stride + x) * info.bytesPerPixel + info.bytesPerPixel ≤
        (py * info.stride + px) * info.bytesPerPixel := by
    rw [← Nat.succ_mul, ← Nat.succ_mul]
    rcases Nat.lt_or_gt_of_ne hoff with hlt | hlt
    · exact Or.inl (Nat.mul_le_mul_right _ hlt)
    · exact Or.inr (Nat.mul_le_mul_right _ hlt)
  exact slice_patch_other (by omega) (by omega)

theorem blitRow_other {x y px py : Nat} {row : List UInt8} (hx : x + row.length ≤ info.stride)
    (hpx : px < info.stride) (hne : py ≠ y ∨ px < x ∨ x + row.length ≤ px)
    (h : blitRow info y x row fb = some fb') : pixelAt info fb' px py = pixelAt info fb px py := by
  induction row generalizing x fb with
  | nil =>
    cases h
    rfl
  | cons byte row ih =>
    rw [List.length_cons] at hx hne
    obtain ⟨mid, hmid, h⟩ := Option.bind_eq_some_iff.mp h
    rw [ih (by omega) (by omega) h]
    exact writePixel_other (by omega) hpx (by omega) hmid

theorem blitRow_self {x y : Nat} {row : List UInt8} (hx : x + row.length ≤ info.stride)
    (h : blitRow info y x row fb = some fb') {gx : Nat} {byte : UInt8}
    (hbyte : row[gx]? = some byte) :
    (color byte info.pixelFormat).map (·.take info.bytesPerPixel) =
      some (pixelAt info fb' (x + gx) y) := by
  induction row generalizing x fb gx with
  | nil => cases hbyte
  | cons first row ih =>
    rw [List.length_cons] at hx
    obtain ⟨mid, hmid, hrest⟩ := Option.bind_eq_some_iff.mp h
    cases gx with
    | zero =>
      cases hbyte
      have hin : x + 1 + row.length ≤ info.stride := by omega
      have hkept : pixelAt info fb' x y = pixelAt info mid x y :=
        blitRow_other hin (by omega) (by omega) hrest
      rw [Nat.add_zero, hkept]
      exact writePixel_self hmid
    | succ gx =>
      rw [show x + (gx + 1) = x + 1 + gx by omega]
      exact ih (by omega) hrest hbyte

theorem blit_other {x y px py wide : Nat} {rows : List (List UInt8)}
    (hrows : ∀ row ∈ rows, row.length = wide) (hx : x + wide ≤ info.stride) (hpx : px < info.stride)
    (hne : py < y ∨ y + rows.length ≤ py ∨ px < x ∨ x + wide ≤ px)
    (h : blit info x y rows fb = some fb') :
    pixelAt info fb' px py = pixelAt info fb px py := by
  induction rows generalizing y fb with
  | nil =>
    cases h
    rfl
  | cons row rows ih =>
    rw [List.length_cons] at hne
    have hrow : row.length = wide := hrows row List.mem_cons_self
    obtain ⟨mid, hmid, h⟩ := Option.bind_eq_some_iff.mp h
    rw [ih (fun r hr => hrows r (List.mem_cons_of_mem _ hr)) (by omega) h]
    exact blitRow_other (by omega) hpx (by omega) hmid

theorem blit_shows {x y wide width : Nat} {rows : List (List UInt8)}
    (hrows : ∀ row ∈ rows, row.length = wide)
    (hx : x + wide ≤ info.stride) (h : blit info x y rows fb = some fb') :
    Shows info fb' x y ⟨rows, width⟩ := by
  induction rows generalizing y fb with
  | nil =>
    intro gy row hrow
    cases hrow
  | cons first rows ih =>
    have hfirst : first.length = wide := hrows first List.mem_cons_self
    have hrest : ∀ row ∈ rows, row.length = wide := fun r hr => hrows r (List.mem_cons_of_mem _ hr)
    obtain ⟨mid, hmid, hbelow⟩ := Option.bind_eq_some_iff.mp h
    intro gy row hrow gx byte hbyte
    cases gy with
    | zero =>
      cases hrow
      have hgx : gx < first.length := (List.getElem?_eq_some_iff.mp hbyte).1
      have hkept : pixelAt info fb' (x + gx) y = pixelAt info mid (x + gx) y :=
        blit_other hrest hx (by omega) (by omega) hbelow
      rw [Nat.add_zero, hkept]
      exact blitRow_self (by omega) hmid hbyte
    | succ gy =>
      rw [show y + (gy + 1) = y + 1 + gy by omega]
      exact ih hrest hbelow gy row hrow gx byte hbyte

theorem Shows.kept {x y x' y' wide : Nat} {glyph : Raster} {rows : List (List UInt8)}
    (hshows : Shows info fb x y glyph) (hglyph : ∀ row ∈ glyph.rows, row.length = wide)
    (hrows : ∀ row ∈ rows, row.length = wide) (hx : x + wide ≤ info.stride)
    (hx' : x' + wide ≤ info.stride)
    (happart : y + glyph.rows.length ≤ y' ∨ y' + rows.length ≤ y ∨ x + wide ≤ x' ∨ x' + wide ≤ x)
    (h : blit info x' y' rows fb = some fb') : Shows info fb' x y glyph := by
  intro gy row hrow gx byte hbyte
  have hgy : gy < glyph.rows.length := (List.getElem?_eq_some_iff.mp hrow).1
  have hgx : gx < row.length := (List.getElem?_eq_some_iff.mp hbyte).1
  have hwide : row.length = wide := hglyph row (List.mem_of_getElem? hrow)
  have hkept : pixelAt info fb' (x + gx) (y + gy) = pixelAt info fb (x + gx) (y + gy) :=
    blit_other hrows hx' (by omega) (by omega) h
  rw [hkept]
  exact hshows gy row hrow gx byte hbyte

end Pixels

/-! Characters. -/

def DrawnAt (font : Font) (w : Writer) (c : Char) (x y : Nat) : Prop :=
  ∃ glyph, rasterFor font c = some glyph ∧ Shows w.info w.framebuffer x y glyph ∧
    w.xPos = x + glyph.width ∧ w.yPos = y

def Drawable (c : Char) : Prop := c ≠ '\n' ∧ c ≠ '\r'

section Characters

variable {font : Font} {info : Info} {size : Nat} {w w' m : Writer} {c : Char}
    {glyph : Raster} {fb : Bytes}

theorem Screen.fits_stride (S : Screen font info size) {x : Nat}
    (hx : x + font.width < info.width) :
    x + font.width ≤ info.stride :=
  Nat.le_trans (Nat.le_of_lt hx) S.stride

theorem Drawing.shows (S : Screen font info size) (D : Drawing font info size w c m glyph fb) :
    Shows info fb m.xPos m.yPos glyph := by
  have hblit := D.blitted
  obtain ⟨rows, width⟩ := glyph
  exact blit_shows D.rows (S.fits_stride D.room) hblit

theorem writeChar_drawing (S : Screen font info size) (W : Within info size w)
    (hback : w.scrollBack = 0)
    (hc : Drawable c) : ∃ v m glyph fb, wrapFullLine font w = some v ∧ Within info size v ∧
      Drawing font info size v c m glyph fb ∧
      writeChar font w c =
        some { m with
          framebuffer := fb, xPos := m.xPos + font.width
          currentLine := m.currentLine ++ [c] } := by
  have hfull : ∃ v, wrapFullLine font w = some v ∧ Within info size v ∧ v.scrollBack = 0 := by
    unfold wrapFullLine
    split_ifs
    · obtain ⟨v, hv, V⟩ := newline_within S W
      exact ⟨v, hv, V, (newline_same hv).scrollBack.trans hback⟩
    · exact ⟨w, rfl, W, hback⟩
  obtain ⟨v, hv, V, hback'⟩ := hfull
  obtain ⟨m, glyph, fb, D⟩ := drawChar_drawing S V hback' c
  refine ⟨v, m, glyph, fb, hv, V, D, ?_⟩
  rw [writeChar, if_neg hc.1, if_neg hc.2]
  exact Option.bind_eq_some_iff.mpr ⟨v, hv, Option.bind_eq_some_iff.mpr ⟨_, D.drawn, rfl⟩⟩

theorem Drawing.drawnAt (S : Screen font info size) (D : Drawing font info size w c m glyph fb)
    (line : List Char) :
    DrawnAt font
      { m with framebuffer := fb, xPos := m.xPos + font.width, currentLine := line } c
      m.xPos m.yPos := by
  refine ⟨glyph, D.raster, ?_, by rw [D.width], rfl⟩
  change Shows m.info fb m.xPos m.yPos glyph
  rw [D.inside.info]
  exact D.shows S

theorem writeChar_drawnAt (S : Screen font info size) (W : Within info size w)
    (hback : w.scrollBack = 0)
    (hc : Drawable c) : ∃ w', writeChar font w c = some w' ∧ ∃ x y, DrawnAt font w' c x y := by
  obtain ⟨v, m, glyph, fb, -, -, D, hdone⟩ := writeChar_drawing S W hback hc
  exact ⟨_, hdone, m.xPos, m.yPos, D.drawnAt S _⟩

theorem writeChar_scrollBack (h : writeChar font w c = some w') : w'.scrollBack = w.scrollBack := by
  unfold writeChar at h
  split_ifs at h
  · exact (newline_same h).scrollBack
  · cases h
    rfl
  · obtain ⟨v, hv, h⟩ := Option.bind_eq_some_iff.mp h
    obtain ⟨m, hm, h⟩ := Option.bind_eq_some_iff.mp h
    have hdraw := (drawChar_same hm).scrollBack
    cases h
    unfold wrapFullLine at hv
    split_ifs at hv
    · exact hdraw.trans (newline_same hv).scrollBack
    · cases hv
      exact hdraw

theorem writeStr_scrollBack {s : List Char} (h : writeStr font w s = some w') :
    w'.scrollBack = w.scrollBack := by
  induction s generalizing w with
  | nil =>
    cases h
    rfl
  | cons c s ih =>
    rw [writeStr, List.foldlM_cons] at h
    obtain ⟨m, hm, h⟩ := Option.bind_eq_some_iff.mp h
    exact (ih h).trans (writeChar_scrollBack hm)

end Characters

/-! `clear`. -/

/-- After `clear`, the first character goes to the top left cell, and every later one to the
cursor until `scroll_up` is called. -/
structure ClearReturns (font : Font) (w : Writer) : Prop where
  first : ∀ c, Drawable c →
    ∃ w', writeChar font (clear w) c = some w' ∧ DrawnAt font w' c borderPadding borderPadding
  later : ∀ calls, (∀ n, .scrollUp n ∉ calls) → ∃ m, run font (clear w) calls = some m ∧
    ∀ c, Drawable c → ∃ w', writeChar font m c = some w' ∧ ∃ x y, DrawnAt font w' c x y

section Clear

variable {font : Font} {info : Info} {size : Nat} {w w' v : Writer} {t : Lines} {c : Char}

theorem step_stays_live {call : Call} (hcall : ∀ n, call ≠ .scrollUp n) (hback : w.scrollBack = 0)
    (h : step font w call = some w') : w'.scrollBack = 0 := by
  have hscroll : ∀ n, w.scrollBack = n → scrollTo font w n = some w' → w'.scrollBack = 0 := by
    intro n hn hto
    rw [scrollTo, if_pos hn.symm] at hto
    cases hto
    exact hback
  cases call with
  | writeStr s => exact (writeStr_scrollBack h).trans hback
  | scrollUp n => exact absurd rfl (hcall n)
  | scrollDown n => exact hscroll _ (by omega) h
  | scrollEnd => exact hscroll 0 hback h
  | clear =>
    cases h
    exact hback

theorem run_stays_live {calls : List Call} (hcalls : ∀ n, .scrollUp n ∉ calls)
    (hback : w.scrollBack = 0) (h : run font w calls = some w') : w'.scrollBack = 0 := by
  induction calls generalizing w with
  | nil =>
    cases h
    exact hback
  | cons call calls ih =>
    rw [run, List.foldlM_cons] at h
    obtain ⟨m, hm, h⟩ := Option.bind_eq_some_iff.mp h
    have hlive : m.scrollBack = 0 :=
      step_stays_live (fun n hn => hcalls n (hn ▸ List.mem_cons_self)) hback hm
    exact ih (fun n hmem => hcalls n (List.mem_cons_of_mem _ hmem)) hlive h

theorem wrapFullLine_clear (W : Within info size w) (hback : w.scrollBack = 0)
    (h : wrapFullLine font (clear w) = some v) : v.xPos = borderPadding ∧
      (v.yPos = borderPadding ↔ byteLen w.currentLine < maxLineLen ∨
        info.height ≤ borderPadding + rowHeight + rasterHeight + borderPadding) := by
  unfold wrapFullLine at h
  split_ifs at h with hfull
  · have hnot : ¬byteLen w.currentLine < maxLineLen := Nat.not_lt.mpr hfull
    have hback' : (pushCurrentToRing (clear w)).scrollBack = 0 := hback
    simp only [newline, hback', if_true] at h
    obtain ⟨hover, m, hm, rfl⟩ | ⟨hroom, rfl⟩ := advanceVisualRow_cases h
    · have hview : m.viewportRows = viewportRows info :=
        (redrawVisible_same hm).viewportRows.trans W.viewport
      have hheight : info.height ≤ borderPadding + rowHeight + rasterHeight + borderPadding :=
        W.info ▸ hover
      have hrows : viewportRows info - 1 = 0 := by
        simp only [viewportRows, rowHeight, rasterHeight, lineSpacing, borderPadding] at *
        omega
      refine ⟨rfl, iff_of_true ?_ (Or.inr hheight)⟩
      change borderPadding + (m.viewportRows - 1) * rowHeight = borderPadding
      rw [hview, hrows, Nat.zero_mul, Nat.add_zero]
    · have hheight : ¬info.height ≤ borderPadding + rowHeight + rasterHeight + borderPadding :=
        W.info ▸ hroom
      refine ⟨rfl, iff_of_false ?_ (not_or.mpr ⟨hnot, hheight⟩)⟩
      change ¬borderPadding + rowHeight = borderPadding
      decide
  · cases h
    exact ⟨rfl, iff_of_true rfl (Or.inl (Nat.lt_of_not_le hfull))⟩

theorem clear_first (S : Screen font info size) (W : Within info size w) (hback : w.scrollBack = 0)
    (hc : Drawable c) : ∃ w' y, writeChar font (clear w) c = some w' ∧
      DrawnAt font w' c borderPadding y ∧
      (y = borderPadding ↔ byteLen w.currentLine < maxLineLen ∨
        info.height ≤ borderPadding + rowHeight + rasterHeight + borderPadding) := by
  obtain ⟨v, m, glyph, fb, hv, V, D, hdone⟩ := writeChar_drawing S (clear_within S W) hback hc
  obtain ⟨hx, hy⟩ := wrapFullLine_clear W hback hv
  have hm : v = m := by
    have hwidth := S.width
    have hroom : ¬v.info.width ≤ v.xPos + font.width := by
      rw [V.info, hx, borderPadding]
      omega
    exact Option.some.inj ((if_neg hroom).symm.trans D.wrapped)
  have hdrawn := D.drawnAt S (m.currentLine ++ [c])
  rw [← hm] at hdrawn hdone
  exact ⟨_, v.yPos, hdone, hx ▸ hdrawn, hy⟩

theorem scrolled_not_clearReturns (S : Screen font info size) (hwide : 0 < font.width)
    (hback : w.scrollBack ≠ 0) : ¬ClearReturns font w := by
  intro hret
  obtain ⟨w', hw', glyph, hglyph, -, hx, -⟩ := hret.first 'a' ⟨by decide, by decide⟩
  obtain ⟨glyph', hglyph', hwidth, -⟩ := S.rasterFor 'a'
  have hsame : glyph' = glyph := Option.some.inj (hglyph'.symm.trans hglyph)
  -- the frozen viewport leaves the cursor of `clear` alone
  have hkept : w'.xPos = borderPadding := by
    have hfrozen : (clear w).scrollBack ≠ 0 := hback
    rw [writeChar, if_neg (by decide), if_neg (by decide)] at hw'
    obtain ⟨v, hv, hw'⟩ := Option.bind_eq_some_iff.mp hw'
    obtain ⟨m, hm, hw'⟩ := Option.bind_eq_some_iff.mp hw'
    have hfull : v.xPos = borderPadding ∧ v.scrollBack ≠ 0 := by
      unfold wrapFullLine newline at hv
      dsimp only at hv
      split_ifs at hv with hline hlive
      · exact absurd hlive hback
      · cases hv
        exact ⟨rfl, hback⟩
      · cases hv
        exact ⟨rfl, hback⟩
    rw [drawChar, if_neg hfull.2] at hm
    cases hm
    cases hw'
    exact hfull.1
  rw [hkept, ← hsame, hwidth] at hx
  omega

end Clear

/-- `clear` brings the output back exactly on the live tail, when the line in progress is not full
or the screen has no second row. -/
theorem clearReturns_iff {font : Font} {info : Info} {fb : Bytes} (S : Screen font info fb.length)
    (hwide : 0 < font.width) {calls : List Call} {w : Writer}
    (hw : run font (new fb info) calls = some w) :
    ClearReturns font w ↔ w.scrollBack = 0 ∧ (byteLen w.currentLine < maxLineLen ∨
      info.height ≤ borderPadding + rowHeight + rasterHeight + borderPadding) := by
  have H := run_holds hw (new_holds fb info)
  have W : Within info fb.length w := run_within_of_some S (new_within S rfl) hw
  constructor
  · intro hret
    have hback : w.scrollBack = 0 := by
      by_contra hback
      exact scrolled_not_clearReturns S hwide hback hret
    have hprint : Drawable 'a' := ⟨by decide, by decide⟩
    obtain ⟨w', hw', glyph, -, -, -, htop⟩ := hret.first 'a' hprint
    obtain ⟨w'', y, hw'', ⟨glyph', -, -, -, hrow⟩, hy⟩ := clear_first S W hback hprint
    have hsame : w'' = w' := Option.some.inj (hw''.symm.trans hw')
    rw [hsame, htop] at hrow
    exact ⟨hback, hy.mp hrow.symm⟩
  · intro ⟨hback, hline⟩
    refine ⟨fun c hc => ?_, fun calls' hcalls => ?_⟩
    · obtain ⟨w', y, hw', hdrawn, hy⟩ := clear_first S W hback hc
      rw [hy.mpr hline] at hdrawn
      exact ⟨w', hw', hdrawn⟩
    · have hclear : step font w .clear = some (clear w) := rfl
      obtain ⟨m, hm, M⟩ := run_within S (clear_within S W) (step_holds hclear H)
        fun n hmem => absurd hmem (hcalls n)
      have hlive : (clear w).scrollBack = 0 := hback
      exact ⟨m, hm, fun c hc => writeChar_drawnAt S M (run_stays_live hcalls hlive hm) hc⟩

/-- One column of sixteen pixels for every character. -/
def barFont : Font := ⟨1, fun _ => some ⟨List.replicate 16 [255], 1⟩⟩

theorem barFont_small :
    Screen barFont ⟨4, 38, 4, 1, .u8⟩ (List.replicate 152 (0 : UInt8)).length := by
  rw [List.length_replicate]
  exact screen_of_glyph (fun _ => rfl) (by decide) (by decide) (by decide) (by decide)
    (by decide) (by decide)
    (by decide) (by decide)

theorem clearReturns_live : ∃ w, run barFont (new (List.replicate 152 0) ⟨4, 38, 4, 1, .u8⟩)
    [.writeStr ['a', '\n', '\n'], .scrollUp 1, .scrollEnd] = some w ∧ ClearReturns barFont w := by
  have hrun : (run barFont (new (List.replicate 152 0) ⟨4, 38, 4, 1, .u8⟩)
      [.writeStr ['a', '\n', '\n'], .scrollUp 1, .scrollEnd]).map (fun w =>
        (w.scrollBack, w.currentLine)) =
        some (0, []) := by decide +kernel
  obtain ⟨w, hw, hstate⟩ := Option.map_eq_some_iff.mp hrun
  obtain ⟨hback, hline⟩ := Prod.mk.inj hstate
  refine ⟨w, hw, (clearReturns_iff barFont_small (by decide) hw).mpr ⟨hback, Or.inl ?_⟩⟩
  rw [hline]
  decide

/-- Scrolled back by a line, `clear` leaves the viewport frozen. -/
theorem clearReturns_fails_scrolled :
    ∃ w, run barFont (new (List.replicate 152 0) ⟨4, 38, 4, 1, .u8⟩)
    [.writeStr ['a', '\n', '\n'], .scrollUp 1] = some w ∧ ¬ClearReturns barFont w := by
  have hrun : (run barFont (new (List.replicate 152 0) ⟨4, 38, 4, 1, .u8⟩)
      [.writeStr ['a', '\n', '\n'], .scrollUp 1]).map Writer.scrollBack =
        some 1 := by decide +kernel
  obtain ⟨w, hw, hback⟩ := Option.map_eq_some_iff.mp hrun
  exact ⟨w, hw, scrolled_not_clearReturns barFont_small (by decide) (by rw [hback]; decide)⟩

/-! Wrapped lines. -/

def columns (font : Font) (info : Info) : Nat := (info.width - 2 * borderPadding) / font.width

/-- The rows the overflow test lets the cursor on. -/
def admittedRows (info : Info) : Nat := (info.height - 1) / rowHeight

def wraps (font : Font) (info : Info) (line : List Char) : Nat :=
  (line.length - 1) / columns font info

/-- The row after `r`: the next one, or the viewport's last after a redraw. -/
def nextRow (info : Info) (r : Nat) : Nat :=
  if r + 1 < admittedRows info then r + 1 else viewportRows info - 1

def startRow (font : Font) (info : Info) (before : List (List Char)) : Nat :=
  (nextRow info)^[(before.map fun line => wraps font info line + 1).sum] 0

/-- The line in progress wraps without reaching past the last row. -/
def Unbroken (font : Font) (info : Info) (t : Lines) : Prop :=
  startRow font info t.done + wraps font info t.rest < admittedRows info

instance (font : Font) (info : Info) (t : Lines) : Decidable (Unbroken font info t) :=
  inferInstanceAs (Decidable (_ < _))

def filled (font : Font) (info : Info) (line : List Char) : Nat :=
  if line = [] then 0 else (line.length - 1) % columns font info + 1

/-- Every character of the line in progress is on the screen, in order, over consecutive rows that
end at the cursor. -/
def LineShown (font : Font) (w : Writer) : Prop :=
  ∃ s, (w.currentLine ≠ [] →
      w.xPos = borderPadding + filled font w.info w.currentLine * font.width ∧
      w.yPos = borderPadding + (s + wraps font w.info w.currentLine) * rowHeight) ∧
    ∀ i c, w.currentLine[i]? = some c → ∃ glyph, rasterFor font c = some glyph ∧
      Shows w.info w.framebuffer (borderPadding + i % columns font w.info * font.width)
        (borderPadding + (s + i / columns font w.info) * rowHeight) glyph

structure Laid (font : Font) (geo : Info) (bytes : Nat) (t : Lines) (w : Writer) : Prop where
  inside : Within geo bytes w
  live : w.scrollBack = 0
  column : w.xPos = borderPadding + filled font geo t.rest * font.width
  row : w.yPos = borderPadding +
    (nextRow geo)^[wraps font geo t.rest] (startRow font geo t.done) * rowHeight
  shown : Unbroken font geo t → ∀ i c, t.rest[i]? = some c →
    ∃ glyph, rasterFor font c = some glyph ∧
    Shows geo w.framebuffer (borderPadding + i % columns font geo * font.width)
      (borderPadding + (startRow font geo t.done + i / columns font geo) * rowHeight) glyph

section Wrapping

variable {font : Font} {info : Info} {size : Nat} {w w' m : Writer} {t : Lines} {c : Char}
    {glyph : Raster}
  {fb : Bytes}

theorem filled_or_full (hcol : 0 < columns font info) (line : List Char) :
    (filled font info line = columns font info ∧ line.length % columns font info = 0 ∧
        line.length / columns font info = wraps font info line + 1) ∨
      (filled font info line < columns font info ∧
      line.length % columns font info = filled font info line ∧
        line.length / columns font info = wraps font info line) := by
  unfold filled wraps
  cases line with
  | nil => exact Or.inr ⟨by simpa using hcol, by simp, by simp⟩
  | cons c line =>
    rw [if_neg (List.cons_ne_nil c line), List.length_cons, Nat.add_sub_cancel]
    generalize line.length = n
    generalize columns font info = C at hcol
    have hn := Nat.div_add_mod n C
    have hlt := Nat.mod_lt n hcol
    by_cases hfull : n % C + 1 = C
    · have hnext : n + 1 = C * (n / C + 1) := by
        rw [Nat.mul_add, Nat.mul_one]
        omega
      refine Or.inl ⟨hfull, ?_, ?_⟩
      · rw [hnext, Nat.mul_mod_right]
      · rw [hnext, Nat.mul_div_cancel_left _ hcol]
    · have hnext : n + 1 = C * (n / C) + (n % C + 1) := by omega
      have hroom : n % C + 1 < C := by omega
      refine Or.inr ⟨hroom, ?_, ?_⟩
      · rw [hnext, Nat.mul_add_mod, Nat.mod_eq_of_lt hroom]
      · rw [hnext, Nat.mul_add_div hcol, Nat.div_eq_of_lt hroom, Nat.add_zero]

@[simp] theorem wraps_nil : wraps font info [] = 0 := Nat.zero_div _

@[simp] theorem filled_nil : filled font info [] = 0 := rfl

@[simp] theorem startRow_nil : startRow font info [] = 0 := rfl

theorem wraps_snoc (line : List Char) (c : Char) :
    wraps font info (line ++ [c]) = line.length / columns font info := by
  simp [wraps]

theorem filled_snoc (line : List Char) (c : Char) :
    filled font info (line ++ [c]) = line.length % columns font info + 1 := by
  simp [filled]

theorem edge_iff (hwide : 0 < font.width) (n : Nat) :
    info.width ≤ borderPadding + n * font.width + font.width ↔ columns font info ≤ n := by
  have hstep : (n + 1) * font.width = n * font.width + font.width := by
    rw [Nat.add_mul, Nat.one_mul]
  calc info.width ≤ borderPadding + n * font.width + font.width
      ↔ info.width - 2 * borderPadding < (n + 1) * font.width := by
        simp only [borderPadding]
        omega
    _ ↔ columns font info < n + 1 := (Nat.div_lt_iff_lt_mul hwide).symm
    _ ↔ columns font info ≤ n := Nat.lt_succ_iff

theorem columns_pos (S : Screen font info size) (hwide : 0 < font.width) :
    0 < columns font info := by
  have hwidth := S.width
  exact Nat.div_pos (by simp only [borderPadding]; omega) hwide

theorem Screen.cell_le (S : Screen font info size) (hwide : 0 < font.width) (i : Nat) :
    borderPadding + i % columns font info * font.width + font.width ≤ info.stride := by
  have hlt : ¬columns font info ≤ i % columns font info :=
    Nat.not_le.mpr (Nat.mod_lt i (columns_pos S hwide))
  have hroom : ¬info.width ≤ borderPadding + i % columns font info * font.width + font.width :=
    fun hedge => hlt ((edge_iff hwide _).mp hedge)
  exact Nat.le_trans (Nat.le_of_lt (Nat.lt_of_not_le hroom)) S.stride

theorem nextRow_iterate {r k : Nat} (hrow : r + k < admittedRows info) :
    (nextRow info)^[k] r = r + k := by
  induction k with
  | zero => rfl
  | succ k ih =>
    have hnext : r + k + 1 < admittedRows info := by omega
    rw [Function.iterate_succ_apply', ih (by omega), nextRow, if_pos hnext, Nat.add_assoc]

theorem advanceVisualRow_row (W : Within info size w) {r : Nat}
    (hr : w.yPos = borderPadding + r * rowHeight)
    (h : advanceVisualRow font w = some w') : w'.xPos = borderPadding ∧
      w'.yPos = borderPadding + nextRow info r * rowHeight ∧
      (r + 1 < admittedRows info → w'.framebuffer = w.framebuffer) := by
  have hover : w.info.height ≤ w.yPos + rowHeight + rasterHeight + borderPadding ↔
    ¬r + 1 < admittedRows info := by
    rw [W.info, hr]
    simp only [admittedRows, rowHeight, rasterHeight, lineSpacing, borderPadding]
    omega
  obtain ⟨hfull, m, hm, rfl⟩ | ⟨hroom, rfl⟩ := advanceVisualRow_cases h
  · have hview : m.viewportRows = viewportRows info :=
      (redrawVisible_same hm).viewportRows.trans W.viewport
    have hlast := hover.mp hfull
    refine ⟨rfl, ?_, fun hlt => absurd hlt hlast⟩
    rw [nextRow, if_neg hlast, ← hview]
  · have hnext : r + 1 < admittedRows info := by
      by_contra hlast
      exact hroom (hover.mpr hlast)
    refine ⟨rfl, ?_, fun _ => rfl⟩
    rw [nextRow, if_pos hnext]
    change w.yPos + rowHeight = _
    rw [hr, Nat.add_mul, Nat.one_mul, Nat.add_assoc]

theorem Laid.wrap (S : Screen font info size) (hwide : 0 < font.width) (L : Laid font info size t w)
    (h : wrapAtEdge font w = some m) :
    m.xPos = borderPadding + t.rest.length % columns font info * font.width ∧
      m.yPos = borderPadding +
        (nextRow info)^[t.rest.length / columns font info] (startRow font info t.done) * rowHeight ∧
      (startRow font info t.done + t.rest.length / columns font info < admittedRows info →
        m.framebuffer = w.framebuffer) := by
  have hedge : info.width ≤ w.xPos + font.width ↔ columns font info ≤ filled font info t.rest := by
    rw [L.column]
    exact edge_iff hwide _
  rw [wrapAtEdge, L.inside.info] at h
  obtain ⟨hfull, hmod, hdiv⟩ | ⟨hroom, hmod, hdiv⟩ := filled_or_full (columns_pos S hwide) t.rest
  · rw [if_pos (hedge.mpr (Nat.le_of_eq hfull.symm))] at h
    obtain ⟨hx, hy, hfb⟩ := advanceVisualRow_row L.inside L.row h
    rw [hmod, Nat.zero_mul, hdiv, Function.iterate_succ_apply']
    refine ⟨hx, hy, fun hlt => hfb ?_⟩
    rw [nextRow_iterate (by omega)]
    omega
  · rw [if_neg (fun hle => Nat.not_le.mpr hroom (hedge.mp hle))] at h
    cases h
    rw [hmod, hdiv]
    exact ⟨L.column, L.row, fun _ => rfl⟩

theorem Unbroken.of_snoc (h : Unbroken font info ⟨t.done, t.rest ++ [c]⟩) :
    Unbroken font info t := by
  have hle : wraps font info t.rest ≤ wraps font info (t.rest ++ [c]) := by
    rw [wraps_snoc]
    exact Nat.div_le_div_right (Nat.sub_le _ _)
  exact Nat.lt_of_le_of_lt (Nat.add_le_add_left hle _) h

theorem cells_apart {C wide i n s : Nat} (hin : i < n) :
    borderPadding + (s + i / C) * rowHeight + rasterHeight ≤
      borderPadding + (s + n / C) * rowHeight ∨
      borderPadding + (s + n / C) * rowHeight + rasterHeight ≤
      borderPadding + (s + i / C) * rowHeight ∨
      borderPadding + i % C * wide + wide ≤ borderPadding + n % C * wide ∨
      borderPadding + n % C * wide + wide ≤ borderPadding + i % C * wide := by
  have hi := Nat.div_add_mod i C
  have hn := Nat.div_add_mod n C
  have hle : i / C ≤ n / C := Nat.div_le_div_right (Nat.le_of_lt hin)
  by_cases hrow : i / C = n / C
  · rw [hrow] at hi
    have hcol : (i % C + 1) * wide ≤ n % C * wide := Nat.mul_le_mul_right _ (by omega)
    rw [Nat.add_mul, Nat.one_mul] at hcol
    omega
  · refine Or.inl ?_
    simp only [rowHeight, rasterHeight, lineSpacing]
    omega

/-- The character goes to its cell, beside those of the characters before it. -/
theorem Laid.append (S : Screen font info size) (hwide : 0 < font.width)
    (L : Laid font info size t w) (D : Drawing font info size w c m glyph fb) (line : List Char) :
    Laid font info size ⟨t.done, t.rest ++ [c]⟩
      { m with framebuffer := fb, xPos := m.xPos + font.width, currentLine := line } := by
  obtain ⟨hx, hy, hfb⟩ := L.wrap S hwide D.wrapped
  have hlive : m.scrollBack = 0 := by
    have hsame := (drawChar_same D.drawn).scrollBack
    exact hsame.trans L.live
  refine ⟨⟨⟨D.inside.info, D.inside.viewport, D.inside.cursor⟩, D.within.length⟩, hlive, ?_, ?_, ?_⟩
  · change m.xPos + font.width = _
    rw [hx, filled_snoc, Nat.add_mul, Nat.one_mul, Nat.add_assoc]
  · change m.yPos = _
    rw [hy, wraps_snoc]
  · intro hkeep i c' hc'
    have hrow : startRow font info t.done + t.rest.length / columns font info <
      admittedRows info := by
      have hlt := hkeep
      rwa [Unbroken, wraps_snoc] at hlt
    rw [nextRow_iterate hrow] at hy
    change ∃ glyph, rasterFor font c' = some glyph ∧ Shows info fb _ _ glyph
    rcases Nat.lt_or_ge i t.rest.length with hlt | hge
    · rw [List.getElem?_append_left hlt] at hc'
      obtain ⟨glyph', hglyph', hshows⟩ := L.shown hkeep.of_snoc i c' hc'
      obtain ⟨g, hg, -, hheight, hrows⟩ := S.rasterFor c'
      have hsame : g = glyph' := Option.some.inj (hg.symm.trans hglyph')
      rw [hsame] at hheight hrows
      refine ⟨glyph', hglyph',
        hshows.kept hrows D.rows ?_ (S.fits_stride D.room) ?_ (hfb hrow ▸ D.blitted)⟩
      · exact S.cell_le hwide i
      · rw [hheight, D.height, hx, hy]
        exact cells_apart hlt
    · rw [List.getElem?_append_right hge] at hc'
      have hi : i = t.rest.length := by
        have hone := (List.getElem?_eq_some_iff.mp hc').1
        rw [List.length_singleton] at hone
        omega
      rw [hi, Nat.sub_self] at hc'
      cases hc'
      refine ⟨glyph, D.raster, ?_⟩
      rw [hi, ← hx, ← hy]
      exact D.shows S

theorem newline_laid (S : Screen font info size) (L : Laid font info size t w) :
    ∃ w', newline font w = some w' ∧ Laid font info size ⟨t.done ++ [t.rest], []⟩ w' := by
  obtain ⟨w', hw', W'⟩ := newline_within S L.inside
  have hpush : Within info size (pushCurrentToRing w) :=
    ⟨⟨L.inside.info, L.inside.viewport, L.inside.cursor⟩, L.inside.length⟩
  have hlive : (pushCurrentToRing w).scrollBack = 0 := L.live
  have hadvance : advanceVisualRow font (pushCurrentToRing w) = some w' :=
    (if_pos hlive).symm.trans hw'
  obtain ⟨hx, hy, -⟩ := advanceVisualRow_row hpush L.row hadvance
  have hstart : startRow font info (t.done ++ [t.rest]) =
      nextRow info ((nextRow info)^[wraps font info t.rest] (startRow font info t.done)) := by
    simp only [startRow, List.map_append, List.sum_append, List.map_cons, List.map_nil,
      List.sum_singleton]
    rw [← Function.iterate_succ_apply' (nextRow info), ← Function.iterate_add_apply]
    congr 1
    omega
  refine ⟨w', hw', W', (newline_same hw').scrollBack.trans hlive, ?_, ?_, fun _ i c hc => ?_⟩
  · rw [hx, filled_nil, Nat.zero_mul, Nat.add_zero]
  · rw [hy, wraps_nil, hstart, Function.iterate_zero_apply]
  · cases hc

theorem writeChar_laid (S : Screen font info size) (hwide : 0 < font.width) (hc : c ≠ '\r')
    (H : Holds w t) (L : Laid font info size t w) :
    ∃ w', writeChar font w c = some w' ∧ Laid font info size (t.push c) w' := by
  by_cases hn : c = '\n'
  · rw [writeChar, if_pos hn, Lines.push, if_pos hn]
    exact newline_laid S L
  · rw [writeChar, if_neg hn, if_neg hc, Lines.push, if_neg hn, if_neg hc, wrapFullLine,
      H.currentLine]
    split_ifs with hfull
    · -- the full line is committed, and the character starts the next
      obtain ⟨v, hv, V⟩ := newline_laid S L
      obtain ⟨m, glyph, fb, D⟩ := drawChar_drawing S V.inside V.live c
      exact ⟨_, Option.bind_eq_some_iff.mpr ⟨v, hv, Option.bind_eq_some_iff.mpr ⟨_, D.drawn, rfl⟩⟩,
        V.append S hwide D _⟩
    · obtain ⟨m, glyph, fb, D⟩ := drawChar_drawing S L.inside L.live c
      exact ⟨_, Option.bind_eq_some_iff.mpr ⟨w, rfl, Option.bind_eq_some_iff.mpr ⟨_, D.drawn, rfl⟩⟩,
        L.append S hwide D _⟩

theorem writeStr_laid (S : Screen font info size) (hwide : 0 < font.width) {s : List Char}
    (hr : '\r' ∉ s) (H : Holds w t) (L : Laid font info size t w) :
    ∃ w', writeStr font w s = some w' ∧ Laid font info size (s.foldl Lines.push t) w' := by
  induction s generalizing w t with
  | nil => exact ⟨w, rfl, L⟩
  | cons c s ih =>
    have hc : c ≠ '\r' := fun heq => hr (heq ▸ List.mem_cons_self)
    obtain ⟨m, hm, M⟩ := writeChar_laid S hwide hc H L
    obtain ⟨w', hw', W'⟩ :=
      ih (fun hmem => hr (List.mem_cons_of_mem _ hmem)) (writeChar_holds hm H) M
    refine ⟨w', ?_, W'⟩
    rw [writeStr, List.foldlM_cons]
    exact Option.bind_eq_some_iff.mpr ⟨m, hm, hw'⟩

theorem new_laid (S : Screen font info size) {fb : Bytes} (hfb : fb.length = size) :
    Laid font info size ⟨[], []⟩ (new fb info) := by
  refine ⟨new_within S hfb, rfl, ?_, ?_, fun _ i c hc => ?_⟩
  · rw [filled_nil, Nat.zero_mul]
    rfl
  · rw [wraps_nil, startRow_nil, Function.iterate_zero_apply, Nat.zero_mul]
    rfl
  · cases hc

theorem Laid.lineShown (H : Holds w t) (L : Laid font info size t w)
    (hkeep : Unbroken font info t) :
    LineShown font w := by
  rw [LineShown, H.currentLine, L.inside.info]
  refine ⟨startRow font info t.done, fun _ => ⟨L.column, ?_⟩, L.shown hkeep⟩
  rw [L.row, nextRow_iterate hkeep]

end Wrapping

theorem run_writeStr (font : Font) (w : Writer) (texts : List (List Char)) :
    run font w (texts.map .writeStr) = writeStr font w texts.flatten := by
  induction texts generalizing w with
  | nil => rfl
  | cons s texts ih =>
    rw [List.map_cons, run, List.foldlM_cons, List.flatten_cons, writeStr, List.foldlM_append]
    exact congrArg (Option.bind (writeStr font w s)) (funext fun m => ih m)

/-- In every run of `write_str` calls without a return, the line in progress is all on the screen
as long as its wrapping has not reached past the last row. -/
theorem wrappedLine_shown {font : Font} {info : Info} {fb : Bytes} (S : Screen font info fb.length)
    (hwide : 0 < font.width) {texts : List (List Char)} (hr : '\r' ∉ texts.flatten) :
    ∃ w, run font (new fb info) (texts.map .writeStr) = some w ∧
      w.currentLine = (cutLines texts.flatten).rest ∧
      (Unbroken font info (cutLines texts.flatten) → LineShown font w) := by
  have hnew := new_holds fb info
  obtain ⟨w, hw, L⟩ := writeStr_laid S hwide hr hnew (new_laid S rfl)
  have H := writeStr_holds hw hnew
  rw [run_writeStr]
  exact ⟨w, hw, H.currentLine, L.lineShown H⟩

theorem barFont_threeRows :
    Screen barFont ⟨4, 56, 4, 1, .u8⟩ (List.replicate 224 (0 : UInt8)).length := by
  rw [List.length_replicate]
  exact screen_of_glyph (fun _ => rfl) (by decide) (by decide) (by decide) (by decide)
    (by decide) (by decide)
    (by decide) (by decide)

theorem wrappedLine_shown_threeRows :
    ∃ w, run barFont (new (List.replicate 224 0) ⟨4, 56, 4, 1, .u8⟩)
    [.writeStr ['\n', 'a'], .writeStr ['b', 'c']] = some w ∧ w.currentLine = ['a', 'b', 'c'] ∧
      LineShown barFont w := by
  obtain ⟨w, hw, hline, hshown⟩ := wrappedLine_shown barFont_threeRows (by decide)
    (show '\r' ∉ [['\n', 'a'], ['b', 'c']].flatten by decide)
  exact ⟨w, hw, hline, hshown (by decide)⟩

/-- Three characters in rows of two, from the bottom row on: the redraw puts the first two on the
bottom row, where the third overwrites the first. -/
theorem wrappedLine_lost_bottomRow :
    ∃ w, run barFont (new (List.replicate 224 0) ⟨4, 56, 4, 1, .u8⟩)
    [.writeStr ['\n', '\n', 'a', 'b', 'c']] = some w ∧ w.currentLine = ['a', 'b', 'c'] ∧
      ¬LineShown barFont w := by
  have hrun : (run barFont (new (List.replicate 224 0) ⟨4, 56, 4, 1, .u8⟩)
      [.writeStr ['\n', '\n', 'a', 'b', 'c']]).map
        (fun w => (w.info, w.currentLine, w.yPos, pixelAt w.info w.framebuffer 1 19)) =
      some (⟨4, 56, 4, 1, .u8⟩, ['a', 'b', 'c'], 37, [0]) := by decide +kernel
  obtain ⟨w, hw, hstate⟩ := Option.map_eq_some_iff.mp hrun
  simp only [Prod.mk.injEq] at hstate
  obtain ⟨hinfo, hline, hy, hblank⟩ := hstate
  refine ⟨w, hw, hline, fun ⟨s, hcursor, hcells⟩ => ?_⟩
  -- the line ends on row 2, so that its first character belongs on row 1
  have hrow : w.yPos = borderPadding + (s + wraps barFont w.info w.currentLine) * rowHeight :=
    (hcursor (by rw [hline]; decide)).2
  have hs : s = 1 := by
    have hwraps : wraps barFont ⟨4, 56, 4, 1, .u8⟩ ['a', 'b', 'c'] = 1 := by decide
    rw [hy, hinfo, hline, hwraps, borderPadding, rowHeight, rasterHeight, lineSpacing] at hrow
    omega
  obtain ⟨glyph, hglyph, hshows⟩ := hcells 0 'a' (by rw [hline]; rfl)
  cases hglyph
  have hpixel := hshows 0 [255] rfl 0 255 rfl
  rw [hs, Nat.zero_mod, Nat.zero_div, Nat.zero_mul] at hpixel
  change _ = some (pixelAt w.info w.framebuffer 1 19) at hpixel
  rw [hblank, hinfo] at hpixel
  revert hpixel
  decide

end Willo.Framebuffer
