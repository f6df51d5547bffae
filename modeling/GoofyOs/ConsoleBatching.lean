import GoofyOs.ConsoleBounds
import GoofyOs.LibkMem

/-!
# The queue of the console

What is on the screen after any calls of `console_write`, with the integer types of the source. The
console draws what a plain terminal draws, as long as its `term_buffer` was zero at first and the
screen has fewer than `2 ^ 31` cells.

`vzalloc` takes pages that may hold anything and calls `memset`, which fills a range up to the last
multiple of eight bytes only. A `term_buffer` is zeroed whatever its pages hold if its entries are a
multiple of four.

## Main definitions

* `vzallocCells` — what `vzalloc` leaves in `term_buffer`
* `TracedConsole.written` — the console after `console_init` and calls

## Main results

* `console_batching` — what is on the screen after any calls
* `not_console_batching` — a cell that differs
-/

namespace GoofyOs

/-- The entries of `vzalloc(n * sizeof(uint16_t))`, for which `vmalloc` has returned the address
`range`. The bytes of `pages` are there before. -/
def vzallocCells (pages : ByteMem) (range n : ℕ) : ℕ → BitVec 16 := fun i =>
  let m := pages.memset range 0 (2 * n)
  (m.byte (range + 2 * i)).toBitVec.setWidth 16 |||
    (m.byte (range + 2 * i + 1)).toBitVec.setWidth 16 <<< 8

theorem vzallocCells_eq_zero {n : ℕ} (hn : 4 ∣ n) (pages : ByteMem) (range : ℕ) :
    ∀ i < n, vzallocCells pages range n i = 0 := by
  intro i hi
  have hbyte (j : ℕ) (hj : j < 2 * n) : (pages.memset range 0 (2 * n)).byte (range + j) = 0 := by
    rw [ByteMem.memset_byte, ByteMem.filled, if_pos]
    · rfl
    · split <;> omega
  rw [vzallocCells, hbyte (2 * i) (by omega), Nat.add_assoc, hbyte (2 * i + 1) (by omega)]
  rfl

/-- The console after `console_init` and calls of `console_write`. -/
def TracedConsole.written (w h : ℕ) (termBuffer : ℕ → BitVec 16)
    (strs : List (List (BitVec 8))) : TracedConsole :=
  traced (Fbconsole.consoleInit w h termBuffer) strs

open TracedConsole

/-- **The queue of the console is invisible**, but for the spaces of `console_init`. -/
theorem console_batching (vgaFont : ℕ → BitVec 8) (hfont : ∀ y < 16, vgaFont (0x20 * 16 + y) = 0)
    {w h : ℕ} (hw : 0 < w) (hh : 0 < h) (hw' : w < 2 ^ 16) (hh' : h < 2 ^ 16)
    (hfit : w * h < 2 ^ 31) {termBuffer : ℕ → BitVec 16} (hbuf : ∀ i < w * h, termBuffer i = 0)
    (strs : List (List (BitVec 8))) {x y : ℕ} (hx : x < w) (hy : y < h) :
    ((written w h termBuffer strs).screen x y =
        if (Terminal.written w h strs).fresh x y ∧ (written w h termBuffer strs).queued x y
        then ⟨0, 0⟩
        else (Terminal.written w h strs).cells x y) ∧
      ((Terminal.written w h strs).fresh x y → (Terminal.written w h strs).cells x y = initGlyph) ∧
      (∀ i < 8, ∀ j < 16, glyphPixel vgaFont ((written w h termBuffer strs).screen x y) i j =
        glyphPixel vgaFont ((Terminal.written w h strs).cells x y) i j) ∧
      ((written w h termBuffer strs).queued x y →
        (written w h termBuffer strs).termBuffer (y * w + x) =
          ((written w h termBuffer strs).screen x y).toCell) := by
  have heq : (written w h termBuffer strs).toFbconsole = Fbconsole.written w h termBuffer strs :=
    toFbconsole_traced hw' hh' (Fbconsole.onScreen_consoleInit hw hh) rfl hfit strs
  rw [heq]
  exact Fbconsole.written_agrees vgaFont hfont hw hh hbuf strs hx hy

/-- A font with the glyph of `a`. -/
def fontOfA (k : ℕ) : BitVec 8 :=
  if k / 16 = 0x61 then [0, 0, 0, 0, 0, 0x7c, 0x06, 0x06, 0x7e, 0xc6, 0xc6, 0xc6, 0x7e].getD (k % 16) 0
  else 0

/-- The string `"a\na\n"`. -/
def twoLines : List (BitVec 8) := [0x61, 0x0a, 0x61, 0x0a]

/-- Pages that were used before, and the buffer of a console of two columns and two rows in them. -/
def usedCells : ℕ → BitVec 16 := vzallocCells ⟨fun _ => 0xff, []⟩ 0x1000 4

/-- The cell right of the first `a`, when the string `"a\na\n"` has scrolled the console. -/
theorem console_batching_scrolled :
    (written 2 2 usedCells [twoLines]).screen 1 0 = ⟨0, 0⟩ ∧
      (Terminal.written 2 2 [twoLines]).cells 1 0 = initGlyph ∧
      glyphPixel fontOfA ((written 2 2 usedCells [twoLines]).screen 1 0) 3 5 =
        glyphPixel fontOfA ((Terminal.written 2 2 [twoLines]).cells 1 0) 3 5 := by
  have hzero : ∀ i < 2 * 2, usedCells i = 0 :=
    vzallocCells_eq_zero (n := 4) (by decide) ⟨fun _ => 0xff, []⟩ 0x1000
  obtain ⟨hscreen, hfresh, hpixel, -⟩ := console_batching fontOfA (by decide) (w := 2) (h := 2)
    (by decide) (by decide) (by decide) (by decide) (by decide) hzero [twoLines] (x := 1) (y := 0)
    (by decide) (by decide)
  exact ⟨hscreen.trans (if_pos (by decide +kernel)), hfresh (by decide),
    hpixel 3 (by decide) 5 (by decide)⟩

/-- After `"a\na\n"` the cell right of the first `a` shows glyph 0, and a space on the plain
terminal. -/
theorem not_console_batching :
    ¬∀ (w h : ℕ) (pages : ByteMem) (range : ℕ), 0 < w → 0 < h →
      ∀ (strs : List (List (BitVec 8))) (x y : ℕ), x < w → y < h →
        (written w h (vzallocCells pages range (w * h)) strs).screen x y =
            (Terminal.written w h strs).cells x y ∧
          ((written w h (vzallocCells pages range (w * h)) strs).queued x y →
            (written w h (vzallocCells pages range (w * h)) strs).termBuffer (y * w + x) =
              ((written w h (vzallocCells pages range (w * h)) strs).screen x y).toCell) := by
  intro hall
  have hcell := (hall 2 2 ⟨fun _ => 0xff, []⟩ 0x1000 (by decide) (by decide) [twoLines] 1 0
    (by decide) (by decide)).1
  revert hcell
  decide +kernel

end GoofyOs
