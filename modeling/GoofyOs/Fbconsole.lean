import Mathlib.Data.BitVec
import Mathlib.Data.List.Basic
import Mathlib.Logic.Function.Basic

/-!
# The framebuffer console

`console_write` does not draw a character where it is written. It queues it, remembers it in
`term_buffer`, and draws the queue at the end of the call or when the queue is full. Scrolling
queues every row again, read from `term_buffer`.

The plain terminal draws at once and scrolls what is on the screen. The two agree on every cell but
one kind: `console_init` draws spaces and asks for a `term_buffer` of zeros, so a space of
`console_init` that scrolls up is drawn as glyph 0 in colour 0. Both are black.

Sizes and indices are natural numbers here. `TracedConsole.toFbconsole_traced` says when the integer
types of the source make no difference.

## Main definitions

* `Fbconsole` — the console, with what was last drawn in each cell
* `Fbconsole.queuePush`, `Fbconsole.scroll`, `Fbconsole.consoleWrite` — the code
* `Terminal` — the plain terminal
* `Draws` — what a sequence of `queue_push` does to the cells
* `Fbconsole.written`, `Terminal.written` — the two after the same calls

## Main results

* `consoleWrite_sim` — the console simulates the plain terminal
* `Fbconsole.written_agrees` — what is on the screen after any calls
-/

namespace GoofyOs

/-- A character and its colours. -/
structure Glyph where
  c : BitVec 8
  col : BitVec 8
  deriving DecidableEq

/-- `struct fbconsole_queue_item`. -/
structure QueueItem extends Glyph where
  x : ℕ
  y : ℕ
  deriving DecidableEq

/-- `f` with `a` in the cell `(x, y)`. -/
def setCell {α : Type*} (f : ℕ → ℕ → α) (x y : ℕ) (a : α) : ℕ → ℕ → α :=
  fun x' y' => if x' = x ∧ y' = y then a else f x' y'

/-- `struct fbconsole`. The framebuffer is seen through `screen`, the glyph that `put_glyph` last
drew in each cell. `queued` is a history variable: the cells that `queue_push` has stored. -/
structure Fbconsole where
  cursorX : ℕ
  cursorY : ℕ
  widthChar : ℕ
  heightChar : ℕ
  color : BitVec 8
  termBuffer : ℕ → BitVec 16
  queue : List QueueItem
  screen : ℕ → ℕ → Glyph
  queued : ℕ → ℕ → Bool

/-! ### Glyphs and pixels -/

/-- `COLOR`. -/
def consoleColor (fg bg : BitVec 8) : BitVec 8 :=
  fg ||| (bg <<< 4)

/-- What `console_init` draws in every cell. -/
def initGlyph : Glyph :=
  ⟨0x20, consoleColor 15 0⟩

/-- `todo.c | (todo.col << 8)`, as `term_buffer` keeps it. -/
def Glyph.toCell (g : Glyph) : BitVec 16 :=
  g.c.setWidth 16 ||| (g.col.setWidth 16 <<< 8)

/-- `tar & 0xff` and `tar >> 8`. -/
def Glyph.ofCell (tar : BitVec 16) : Glyph :=
  ⟨(tar &&& 0xff).setWidth 8, (tar >>> 8).setWidth 8⟩

theorem Glyph.toNat_toCell (g : Glyph) : g.toCell.toNat = 2 ^ 8 * g.col.toNat + g.c.toNat := by
  have hc := g.c.isLt
  have hcol := g.col.isLt
  rw [Nat.two_pow_add_eq_or_of_lt hc, Nat.or_comm, Nat.mul_comm, toCell, BitVec.toNat_or,
    BitVec.toNat_shiftLeft, BitVec.toNat_setWidth, BitVec.toNat_setWidth, Nat.shiftLeft_eq]
  congr 1 <;> omega

@[simp] theorem Glyph.ofCell_toCell (g : Glyph) : Glyph.ofCell g.toCell = g := by
  have hc := g.c.isLt
  have hlow : (g.toCell &&& 0xff).setWidth 8 = g.c := by
    apply BitVec.eq_of_toNat_eq
    have hmask : (0xff : BitVec 16).toNat = 2 ^ 8 - 1 := rfl
    rw [BitVec.toNat_setWidth, BitVec.toNat_and, hmask, Nat.and_two_pow_sub_one_eq_mod,
      Glyph.toNat_toCell]
    omega
  have hhigh : (g.toCell >>> 8).setWidth 8 = g.col := by
    apply BitVec.eq_of_toNat_eq
    have hcol := g.col.isLt
    rw [BitVec.toNat_setWidth, BitVec.toNat_ushiftRight, Nat.shiftRight_eq_div_pow,
      Glyph.toNat_toCell]
    omega
  rw [Glyph.ofCell, hlow, hhigh]

@[simp] theorem Glyph.ofCell_zero : Glyph.ofCell 0 = ⟨0, 0⟩ := by decide

@[simp] theorem Glyph.toCell_zero : Glyph.toCell ⟨0, 0⟩ = 0 := by decide

/-- `ansi_colors`. -/
def ansiColors (i : ℕ) : BitVec 32 :=
  [0x000000, 0xaa0000, 0x00aa00, 0xaa5500, 0x0000aa, 0xaa00aa, 0x00aaaa, 0xaaaaaa,
    0x555555, 0xff5555, 0x55ff55, 0xffff55, 0x5555ff, 0xff55ff, 0x55ffff, 0xffffff].getD i 0

/-- The pixel that `put_glyph` draws in column `x` and row `y` of the cell. -/
def glyphPixel (vgaFont : ℕ → BitVec 8) (g : Glyph) (x y : ℕ) : BitVec 32 :=
  let row := vgaFont (g.c.toNat * 16 + y)
  if row &&& (0x80 >>> x) ≠ 0 then ansiColors (g.col &&& 0b1111).toNat
  else ansiColors (g.col >>> 4).toNat

/-- Glyph 0 in colour 0 and a space of `console_init` are both black. -/
theorem glyphPixel_zero {vgaFont : ℕ → BitVec 8} (hfont : ∀ y < 16, vgaFont (0x20 * 16 + y) = 0)
    (x : ℕ) {y : ℕ} (hy : y < 16) :
    glyphPixel vgaFont ⟨0, 0⟩ x y = glyphPixel vgaFont initGlyph x y := by
  have hspace : vgaFont (512 + y) = 0 := hfont y hy
  have hblack : glyphPixel vgaFont initGlyph x y = ansiColors 0 := by
    simp [glyphPixel, initGlyph, consoleColor, hspace]
  rw [hblack]
  simp [glyphPixel]

/-! ### The console -/

namespace Fbconsole

/-- `console_init`, given what `vzalloc` leaves in `term_buffer`. -/
def consoleInit (widthChar heightChar : ℕ) (termBuffer : ℕ → BitVec 16) : Fbconsole where
  cursorX := 0
  cursorY := 0
  widthChar := widthChar
  heightChar := heightChar
  color := consoleColor 15 0
  termBuffer := termBuffer
  queue := []
  screen := fun _ _ => initGlyph
  queued := fun _ _ => false

/-- `put_glyph`. -/
def putGlyph (screen : ℕ → ℕ → Glyph) (todo : QueueItem) : ℕ → ℕ → Glyph :=
  setCell screen todo.x todo.y todo.toGlyph

/-- What `console_flush` would leave on the screen. -/
def flushed (s : Fbconsole) : ℕ → ℕ → Glyph :=
  s.queue.foldl putGlyph s.screen

/-- `console_flush`. -/
def consoleFlush (s : Fbconsole) : Fbconsole :=
  { s with screen := s.flushed, queue := [] }

/-- The condition of `queue_push`, `*target & 0xff == todo.c && *target >> 8 == todo.col`. In C,
`==` binds tighter than `&`. -/
def unchanged (target : BitVec 16) (todo : QueueItem) : Prop :=
  target &&& (if 0xff = todo.c then 1 else 0) ≠ 0 ∧ target >>> 8 = todo.col.setWidth 16

instance (target : BitVec 16) (todo : QueueItem) : Decidable (unchanged target todo) :=
  inferInstanceAs (Decidable (_ ∧ _))

/-- `queue_push`. -/
def queuePush (s : Fbconsole) (todo : QueueItem) : Fbconsole :=
  let target := todo.y * s.widthChar + todo.x
  if unchanged (s.termBuffer target) todo then s
  else
    let s := if s.queue.length ≥ s.widthChar * s.heightChar then s.consoleFlush else s
    { s with
      termBuffer := Function.update s.termBuffer target todo.toCell
      queue := s.queue ++ [todo]
      queued := setCell s.queued todo.x todo.y true }

/-- The inner loop of `scroll` over row `i`, up to column `n`. -/
def scrollRow (s : Fbconsole) (i n : ℕ) : Fbconsole :=
  (List.range n).foldl (fun s j =>
    let tar := s.termBuffer (i * s.widthChar + j)
    s.queuePush { Glyph.ofCell tar with x := j, y := i - 1 }) s

/-- The first loop of `scroll`, over `n` rows from row 1 on. -/
def scrollRows (s : Fbconsole) (n : ℕ) : Fbconsole :=
  (List.range' 1 n).foldl (fun s i => s.scrollRow i s.widthChar) s

/-- The second loop of `scroll`, up to column `n`. -/
def clearBottom (s : Fbconsole) (n : ℕ) : Fbconsole :=
  (List.range n).foldl (fun s j =>
    s.queuePush { c := 0x20, col := s.color, x := j, y := s.heightChar - 1 }) s

/-- `scroll`. -/
def scroll (s : Fbconsole) : Fbconsole :=
  let s := s.scrollRows (s.heightChar - 1)
  let s := s.clearBottom s.widthChar
  { s with cursorX := 0 }

/-- `console_carriage_return`. -/
def consoleCarriageReturn (s : Fbconsole) : Fbconsole :=
  if s.cursorY + 1 ≥ s.heightChar then s.scroll
  else { s with cursorX := 0, cursorY := s.cursorY + 1 }

/-- `console_write_glyph`. -/
def consoleWriteGlyph (s : Fbconsole) (c : BitVec 8) : Fbconsole :=
  s.queuePush { c, col := s.color, x := s.cursorX, y := s.cursorY }

/-- `(0x20 <= cur) && (cur < 0x80)`. -/
def printable (cur : BitVec 8) : Prop :=
  0x20 ≤ cur ∧ cur < 0x80

instance (cur : BitVec 8) : Decidable (printable cur) :=
  inferInstanceAs (Decidable (_ ∧ _))

/-- The body of the loop of `console_write`. The cursor is in the console, so `cursor_x` stays
below `2 ^ 16` as `width_char` does. -/
def consoleWriteChar (s : Fbconsole) (cur : BitVec 8) : Fbconsole :=
  let s :=
    if printable cur then
      let s := s.consoleWriteGlyph cur
      { s with cursorX := s.cursorX + 1 }
    else s
  if s.cursorX ≥ s.widthChar ∨ cur = 0x0a then s.consoleCarriageReturn else s

/-- `console_write`. The loop stops at the first zero byte. -/
def consoleWrite (s : Fbconsole) (str : List (BitVec 8)) : Fbconsole :=
  ((str.takeWhile (· ≠ 0)).foldl consoleWriteChar s).consoleFlush

end Fbconsole

/-! ### The plain terminal -/

/-- A terminal that draws at once. `fresh` is a history variable: the content of the cell is what
`console_init` drew, here or in a cell further down. -/
structure Terminal where
  width : ℕ
  height : ℕ
  cursorX : ℕ
  cursorY : ℕ
  color : BitVec 8
  cells : ℕ → ℕ → Glyph
  fresh : ℕ → ℕ → Bool

namespace Terminal

/-- The terminal as `console_init` leaves it. -/
def init (width height : ℕ) : Terminal where
  width := width
  height := height
  cursorX := 0
  cursorY := 0
  color := consoleColor 15 0
  cells := fun _ _ => initGlyph
  fresh := fun _ _ => true

/-- Draw a character at the cursor. -/
def draw (t : Terminal) (c : BitVec 8) : Terminal :=
  { t with
    cells := setCell t.cells t.cursorX t.cursorY ⟨c, t.color⟩
    fresh := setCell t.fresh t.cursorX t.cursorY false }

/-- Every row is redrawn from the row below, and the last row is blanked. -/
def scroll (t : Terminal) : Terminal :=
  { t with
    cells := fun x y => if y + 1 < t.height then t.cells x (y + 1) else ⟨0x20, t.color⟩
    fresh := fun x y => if y + 1 < t.height then t.fresh x (y + 1) else false
    cursorX := 0 }

/-- The next line, with scrolling in the last one. -/
def newline (t : Terminal) : Terminal :=
  if t.cursorY + 1 ≥ t.height then t.scroll
  else { t with cursorX := 0, cursorY := t.cursorY + 1 }

/-- One character of a string. -/
def writeChar (t : Terminal) (cur : BitVec 8) : Terminal :=
  let t :=
    if Fbconsole.printable cur then
      let t := t.draw cur
      { t with cursorX := t.cursorX + 1 }
    else t
  if t.cursorX ≥ t.width ∨ cur = 0x0a then t.newline else t

/-- A string, up to its first zero byte. -/
def write (t : Terminal) (str : List (BitVec 8)) : Terminal :=
  (str.takeWhile (· ≠ 0)).foldl writeChar t

/-- What keeps the size in one step keeps it in all. -/
theorem size_foldl {α : Type*} {f : Terminal → α → Terminal}
    (hf : ∀ t a, (f t a).width = t.width ∧ (f t a).height = t.height) (l : List α) (t : Terminal) :
    (l.foldl f t).width = t.width ∧ (l.foldl f t).height = t.height := by
  induction l generalizing t with
  | nil => exact ⟨rfl, rfl⟩
  | cons a l ih => exact ⟨(ih (f t a)).1.trans (hf t a).1, (ih (f t a)).2.trans (hf t a).2⟩

theorem size_newline (t : Terminal) :
    t.newline.width = t.width ∧ t.newline.height = t.height := by
  rw [newline]
  split <;> exact ⟨rfl, rfl⟩

theorem size_writeChar (t : Terminal) (cur : BitVec 8) :
    (t.writeChar cur).width = t.width ∧ (t.writeChar cur).height = t.height := by
  rw [writeChar]
  by_cases hcur : Fbconsole.printable cur
  · simp only [if_pos hcur]
    split
    · exact size_newline _
    · exact ⟨rfl, rfl⟩
  · simp only [if_neg hcur]
    split
    · exact size_newline t
    · exact ⟨rfl, rfl⟩

theorem size_write (t : Terminal) (str : List (BitVec 8)) :
    (t.write str).width = t.width ∧ (t.write str).height = t.height :=
  size_foldl size_writeChar _ t

end Terminal

/-! ### What a sequence of `queue_push` does -/

/-- A cell of the console: what the flushed screen shows, the entry of `term_buffer`, and whether
it has been queued. -/
structure ConsoleCell where
  glyph : Glyph
  buffer : BitVec 16
  queued : Bool

/-- The cell after a glyph was queued for it. -/
def ConsoleCell.drawn (g : Glyph) : ConsoleCell :=
  ⟨g, g.toCell, true⟩

@[simp] theorem ConsoleCell.ofCell_drawn (g : Glyph) :
    Glyph.ofCell (ConsoleCell.drawn g).buffer = g :=
  Glyph.ofCell_toCell g

namespace Fbconsole

/-- The cell `(x, y)`. -/
def cell (s : Fbconsole) (x y : ℕ) : ConsoleCell :=
  ⟨s.flushed x y, s.termBuffer (y * s.widthChar + x), s.queued x y⟩

/-- `s'` is `s` after glyphs were queued for the cells in which `f` has one. -/
structure Draws (s s' : Fbconsole) (f : ℕ → ℕ → Option Glyph) : Prop where
  widthChar : s'.widthChar = s.widthChar
  heightChar : s'.heightChar = s.heightChar
  cursorX : s'.cursorX = s.cursorX
  cursorY : s'.cursorY = s.cursorY
  color : s'.color = s.color
  cell : ∀ x < s.widthChar, ∀ y, s'.cell x y = (f x y).elim (s.cell x y) ConsoleCell.drawn
  length_queue : 0 < s.widthChar * s.heightChar →
    s.queue.length ≤ s.widthChar * s.heightChar → s'.queue.length ≤ s.widthChar * s.heightChar

theorem Draws.refl (s : Fbconsole) : Draws s s fun _ _ => none :=
  ⟨rfl, rfl, rfl, rfl, rfl, fun _ _ _ => rfl, fun _ h => h⟩

theorem Draws.trans {s s' s'' : Fbconsole} {f g h : ℕ → ℕ → Option Glyph} (hf : Draws s s' f)
    (hg : Draws s' s'' g) (hfg : ∀ x < s.widthChar, ∀ y, h x y = (g x y).orElse fun _ => f x y) :
    Draws s s'' h where
  widthChar := hg.widthChar.trans hf.widthChar
  heightChar := hg.heightChar.trans hf.heightChar
  cursorX := hg.cursorX.trans hf.cursorX
  cursorY := hg.cursorY.trans hf.cursorY
  color := hg.color.trans hf.color
  cell := by
    intro x hx y
    rw [hg.cell x (hf.widthChar ▸ hx) y, hf.cell x hx y, hfg x hx y]
    cases g x y <;> rfl
  length_queue := by
    intro hpos hlen
    have := hg.length_queue
    rw [hf.widthChar, hf.heightChar] at this
    exact this hpos (hf.length_queue hpos hlen)

/-- Two cells of the console have two entries in `term_buffer`. -/
theorem target_inj {w x x' y y' : ℕ} (hx : x < w) (hx' : x' < w) :
    y * w + x = y' * w + x' ↔ x = x' ∧ y = y' := by
  refine ⟨fun h => ?_, fun ⟨hxx, hyy⟩ => by rw [hxx, hyy]⟩
  have hmod : (y * w + x) % w = (y' * w + x') % w := by rw [h]
  rw [Nat.mul_add_mod_of_lt hx, Nat.mul_add_mod_of_lt hx'] at hmod
  subst hmod
  exact ⟨rfl, Nat.eq_of_mul_eq_mul_right (by omega) (Nat.add_right_cancel h)⟩

/-- Each cell has its entry. -/
theorem target_lt {w h x y : ℕ} (hx : x < w) (hy : y < h) : y * w + x < w * h := by
  calc y * w + x < y * w + w := by omega
    _ = (y + 1) * w := by rw [Nat.succ_mul]
    _ ≤ h * w := Nat.mul_le_mul_right _ hy
    _ = w * h := Nat.mul_comm _ _

theorem not_unchanged {target : BitVec 16} {todo : QueueItem} (hc : todo.c ≠ 0xff) :
    ¬unchanged target todo := by
  rintro ⟨hand, -⟩
  rw [if_neg hc.symm] at hand
  exact hand BitVec.and_zero

theorem draws_consoleFlush (s : Fbconsole) : Draws s s.consoleFlush fun _ _ => none where
  widthChar := rfl
  heightChar := rfl
  cursorX := rfl
  cursorY := rfl
  color := rfl
  cell := fun _ _ _ => rfl
  length_queue := fun _ _ => Nat.zero_le _

/-- The last two statements of `queue_push`. -/
theorem draws_store {s : Fbconsole} {todo : QueueItem} (hx : todo.x < s.widthChar)
    (hroom : 0 < s.widthChar * s.heightChar → s.queue.length < s.widthChar * s.heightChar) :
    Draws s
      { s with
        termBuffer :=
          Function.update s.termBuffer (todo.y * s.widthChar + todo.x) todo.toCell
        queue := s.queue ++ [todo]
        queued := setCell s.queued todo.x todo.y true }
      fun x y => if x = todo.x ∧ y = todo.y then some todo.toGlyph else none where
  widthChar := rfl
  heightChar := rfl
  cursorX := rfl
  cursorY := rfl
  color := rfl
  cell := by
    intro x hxw y
    by_cases hxy : x = todo.x ∧ y = todo.y
    · obtain ⟨rfl, rfl⟩ := hxy
      simp [cell, flushed, putGlyph, setCell, ConsoleCell.drawn]
    · have htarget : y * s.widthChar + x ≠ todo.y * s.widthChar + todo.x := by
        rwa [Ne, target_inj hxw hx]
      simp [cell, flushed, putGlyph, setCell, hxy, Function.update_of_ne htarget]
  length_queue := by
    intro hpos _
    rw [List.length_append]
    exact hroom hpos

/-- **`queue_push`.** Whether it flushes first or not, the flushed screen gets the glyph. -/
theorem draws_queuePush (s : Fbconsole) (todo : QueueItem) (hx : todo.x < s.widthChar)
    (hc : todo.c ≠ 0xff) :
    Draws s (s.queuePush todo)
      fun x y => if x = todo.x ∧ y = todo.y then some todo.toGlyph else none := by
  rw [queuePush, if_neg (not_unchanged hc)]
  by_cases hfull : s.queue.length ≥ s.widthChar * s.heightChar
  · rw [if_pos hfull]
    refine (draws_consoleFlush s).trans (draws_store hx fun hpos => hpos) fun x _ y => ?_
    split <;> rfl
  · rw [if_neg hfull]
    exact draws_store hx fun _ => Nat.lt_of_not_le hfull

/-! ### Scrolling -/

/-- The glyph that `scroll` reads for the cell `(x, y)`. -/
def bufferGlyph (s : Fbconsole) (x y : ℕ) : Glyph :=
  Glyph.ofCell (s.cell x y).buffer

/-- The inner loop. Row `k + 1` is not written while it is read. -/
theorem draws_scrollRow (s : Fbconsole) (k : ℕ)
    (hc : ∀ x < s.widthChar, (s.bufferGlyph x (k + 1)).c ≠ 0xff) {n : ℕ} (hn : n ≤ s.widthChar) :
    Draws s (s.scrollRow (k + 1) n)
      fun x y => if x < n ∧ y = k then some (s.bufferGlyph x (k + 1)) else none := by
  induction n with
  | zero =>
    refine (Draws.refl s).trans (Draws.refl s) fun x _ y => ?_
    simp
  | succ n ih =>
    have ih := ih (Nat.le_of_succ_le hn)
    have hread : (s.scrollRow (k + 1) n).bufferGlyph n (k + 1) = s.bufferGlyph n (k + 1) := by
      rw [bufferGlyph, ih.cell n hn, if_neg (by omega)]
      rfl
    have hpush := draws_queuePush (s.scrollRow (k + 1) n)
      { (s.scrollRow (k + 1) n).bufferGlyph n (k + 1) with x := n, y := k + 1 - 1 }
      (ih.widthChar ▸ hn) (hread ▸ hc n hn)
    rw [scrollRow, List.range_succ, List.foldl_append]
    refine ih.trans hpush fun x _ y => ?_
    rw [hread]
    by_cases hxn : x = n
    · subst hxn
      by_cases hyk : y = k <;> simp [hyk]
    · simp [hxn, show x < n + 1 ↔ x < n by omega]

/-- The first loop of `scroll`. -/
theorem draws_scrollRows (s : Fbconsole) (n : ℕ)
    (hc : ∀ x < s.widthChar, ∀ y ≤ n, (s.bufferGlyph x y).c ≠ 0xff) :
    Draws s (s.scrollRows n) fun x y => if y < n then some (s.bufferGlyph x (y + 1)) else none := by
  induction n with
  | zero =>
    refine (Draws.refl s).trans (Draws.refl s) fun x _ y => ?_
    simp
  | succ n ih =>
    have ih := ih fun x hx y hy => hc x hx y (Nat.le_succ_of_le hy)
    have hread : ∀ x < s.widthChar,
        (s.scrollRows n).bufferGlyph x (n + 1) = s.bufferGlyph x (n + 1) := by
      intro x hx
      rw [bufferGlyph, ih.cell x hx, if_neg (by omega)]
      rfl
    have hrow := draws_scrollRow (s.scrollRows n) n (fun x hx => by
      rw [ih.widthChar] at hx
      rw [hread x hx]
      exact hc x hx (n + 1) le_rfl) le_rfl
    rw [scrollRows, List.range'_1_concat, List.foldl_append, Nat.add_comm 1 n]
    refine ih.trans hrow fun x hx y => ?_
    rw [ih.widthChar, hread x hx]
    by_cases hyn : y = n
    · simp [hyn, hx]
    · simp [hyn, show y < n + 1 ↔ y < n by omega]

/-- The second loop of `scroll`. -/
theorem draws_clearBottom (s : Fbconsole) {n : ℕ} (hn : n ≤ s.widthChar) :
    Draws s (s.clearBottom n)
      fun x y => if x < n ∧ y = s.heightChar - 1 then some ⟨0x20, s.color⟩ else none := by
  induction n with
  | zero =>
    refine (Draws.refl s).trans (Draws.refl s) fun x _ y => ?_
    simp
  | succ n ih =>
    have ih := ih (Nat.le_of_succ_le hn)
    have hspace : (0x20 : BitVec 8) ≠ 0xff := by decide
    have hpush := draws_queuePush (s.clearBottom n)
      ⟨⟨0x20, (s.clearBottom n).color⟩, n, (s.clearBottom n).heightChar - 1⟩
      (ih.widthChar ▸ hn) hspace
    rw [clearBottom, List.range_succ, List.foldl_append]
    refine ih.trans hpush fun x _ y => ?_
    rw [ih.color, ih.heightChar]
    by_cases hxn : x = n
    · subst hxn
      by_cases hy : y = s.heightChar - 1 <;> simp [hy]
    · simp [hxn, show x < n + 1 ↔ x < n by omega]

/-- **The two loops of `scroll`.** Every row is drawn as `term_buffer` has the row below. -/
theorem draws_scroll (s : Fbconsole)
    (hc : ∀ x < s.widthChar, ∀ y < s.heightChar, (s.bufferGlyph x y).c ≠ 0xff)
    (hh : 0 < s.heightChar) :
    Draws s
      ((s.scrollRows (s.heightChar - 1)).clearBottom (s.scrollRows (s.heightChar - 1)).widthChar)
      fun x y =>
        if y + 1 < s.heightChar then some (s.bufferGlyph x (y + 1))
        else if y + 1 = s.heightChar then some ⟨0x20, s.color⟩ else none := by
  have hrows := draws_scrollRows s (s.heightChar - 1)
    fun x hx y hy => hc x hx y (by omega)
  refine hrows.trans (draws_clearBottom _ le_rfl) fun x hx y => ?_
  rw [hrows.widthChar, hrows.heightChar, hrows.color]
  rcases Nat.lt_trichotomy (y + 1) s.heightChar with hy | hy | hy
  · simp [hy, show y < s.heightChar - 1 by omega, show y ≠ s.heightChar - 1 by omega]
  · simp [hx, show y = s.heightChar - 1 by omega, show s.heightChar - 1 + 1 = s.heightChar by omega]
  · simp [show ¬y + 1 < s.heightChar by omega, show y + 1 ≠ s.heightChar by omega,
      show y ≠ s.heightChar - 1 by omega, show ¬y < s.heightChar - 1 by omega]

end Fbconsole

/-! ### The simulation -/

/-- A cell of the console and the same cell of the plain terminal. -/
inductive CellSim : ConsoleCell → Glyph → Bool → Prop
  | drawn {g : Glyph} (hc : g.c ≠ 0xff) : CellSim (ConsoleCell.drawn g) g false
  | untouched : CellSim ⟨initGlyph, 0, false⟩ initGlyph true
  /-- `scroll` has moved the cell of `console_init`, and read zero for it -/
  | scrolled : CellSim (ConsoleCell.drawn ⟨0, 0⟩) initGlyph true

namespace CellSim

variable {cell : ConsoleCell} {g : Glyph} {fresh : Bool}

/-- `scroll` carries the relation one row up. -/
theorem scroll (h : CellSim cell g fresh) :
    CellSim (ConsoleCell.drawn (Glyph.ofCell cell.buffer)) g fresh := by
  cases h with
  | drawn hc =>
    rw [ConsoleCell.ofCell_drawn]
    exact .drawn hc
  | untouched => exact .scrolled
  | scrolled =>
    rw [ConsoleCell.ofCell_drawn]
    exact .scrolled

theorem c_ne (h : CellSim cell g fresh) : (Glyph.ofCell cell.buffer).c ≠ 0xff := by
  cases h with
  | drawn hc =>
    rw [ConsoleCell.ofCell_drawn]
    exact hc
  | untouched => decide
  | scrolled => decide

end CellSim

/-- The console and the plain terminal. -/
structure Sim (s : Fbconsole) (t : Terminal) : Prop where
  widthChar : s.widthChar = t.width
  heightChar : s.heightChar = t.height
  cursorX : s.cursorX = t.cursorX
  cursorY : s.cursorY = t.cursorY
  color : s.color = t.color
  cursorY_lt : s.cursorY < s.heightChar
  cell : ∀ x < s.widthChar, ∀ y < s.heightChar, CellSim (s.cell x y) (t.cells x y) (t.fresh x y)
  length_queue : s.queue.length ≤ s.widthChar * s.heightChar

namespace Sim

open Fbconsole

variable {s : Fbconsole} {t : Terminal}

/-- Glyphs are queued, and the plain terminal draws the same ones. -/
theorem of_draws (h : Sim s t) {s' : Fbconsole} {f : ℕ → ℕ → Option Glyph} (hd : Draws s s' f)
    (hw : 0 < s.widthChar) {cells : ℕ → ℕ → Glyph} {fresh : ℕ → ℕ → Bool}
    (hcell : ∀ x < s.widthChar, ∀ y < s.heightChar,
      CellSim ((f x y).elim (s.cell x y) ConsoleCell.drawn) (cells x y) (fresh x y)) :
    Sim s' { t with cells, fresh } where
  widthChar := hd.widthChar.trans h.widthChar
  heightChar := hd.heightChar.trans h.heightChar
  cursorX := hd.cursorX.trans h.cursorX
  cursorY := hd.cursorY.trans h.cursorY
  color := hd.color.trans h.color
  cursorY_lt := by
    rw [hd.cursorY, hd.heightChar]
    exact h.cursorY_lt
  cell := by
    intro x hx y hy
    rw [hd.widthChar] at hx
    rw [hd.heightChar] at hy
    rw [hd.cell x hx]
    exact hcell x hx y hy
  length_queue := by
    rw [hd.widthChar, hd.heightChar]
    exact hd.length_queue (Nat.mul_pos hw (Nat.zero_lt_of_lt h.cursorY_lt)) h.length_queue

theorem setCursorX (h : Sim s t) (x : ℕ) :
    Sim { s with cursorX := x } { t with cursorX := x } :=
  ⟨h.widthChar, h.heightChar, rfl, h.cursorY, h.color, h.cursorY_lt, h.cell, h.length_queue⟩

theorem setCursorY (h : Sim s t) {y : ℕ} (hy : y < s.heightChar) :
    Sim { s with cursorY := y } { t with cursorY := y } :=
  ⟨h.widthChar, h.heightChar, h.cursorX, rfl, h.color, hy, h.cell, h.length_queue⟩

theorem consoleWriteGlyph (h : Sim s t) {c : BitVec 8} (hx : s.cursorX < s.widthChar)
    (hc : c ≠ 0xff) : Sim (s.consoleWriteGlyph c) (t.draw c) := by
  refine h.of_draws (draws_queuePush s ⟨⟨c, s.color⟩, s.cursorX, s.cursorY⟩ hx hc)
    (Nat.zero_lt_of_lt hx) fun x hxw y hyh => ?_
  rw [← h.cursorX, ← h.cursorY, ← h.color]
  by_cases hxy : x = s.cursorX ∧ y = s.cursorY
  · simp only [setCell, if_pos hxy]
    exact .drawn hc
  · simp only [setCell, if_neg hxy]
    exact h.cell x hxw y hyh

theorem scroll (h : Sim s t) (hw : 0 < s.widthChar) : Sim s.scroll t.scroll := by
  have hdraws := draws_scroll s (fun x hx y hy => (h.cell x hx y hy).c_ne)
    (Nat.zero_lt_of_lt h.cursorY_lt)
  have hcell : ∀ x < s.widthChar, ∀ y < s.heightChar,
      CellSim ((if y + 1 < s.heightChar then some (s.bufferGlyph x (y + 1))
          else if y + 1 = s.heightChar then some ⟨0x20, s.color⟩ else none).elim
        (s.cell x y) ConsoleCell.drawn) (t.scroll.cells x y) (t.scroll.fresh x y) := by
    intro x hx y hy
    simp only [Terminal.scroll, ← h.heightChar, ← h.color]
    by_cases hlast : y + 1 < s.heightChar
    · simp only [if_pos hlast]
      exact (h.cell x hx (y + 1) hlast).scroll
    · have heq : y + 1 = s.heightChar := by omega
      have hspace : (0x20 : BitVec 8) ≠ 0xff := by decide
      simp only [if_neg hlast, if_pos heq]
      exact .drawn hspace
  exact (h.of_draws hdraws hw hcell).setCursorX 0

theorem consoleCarriageReturn (h : Sim s t) (hw : 0 < s.widthChar) :
    Sim s.consoleCarriageReturn t.newline := by
  rw [Fbconsole.consoleCarriageReturn, Terminal.newline]
  by_cases hlast : s.cursorY + 1 ≥ s.heightChar
  · have hlast' : t.cursorY + 1 ≥ t.height := by
      rw [← h.cursorY, ← h.heightChar]
      exact hlast
    rw [if_pos hlast, if_pos hlast']
    exact h.scroll hw
  · have hlast' : ¬t.cursorY + 1 ≥ t.height := by
      rw [← h.cursorY, ← h.heightChar]
      exact hlast
    rw [if_neg hlast, if_neg hlast', ← h.cursorY]
    exact (h.setCursorX 0).setCursorY (Nat.lt_of_not_le hlast)

end Sim

namespace Fbconsole

variable {s : Fbconsole} {t : Terminal}

theorem ne_0xff_of_printable {cur : BitVec 8} (h : printable cur) : cur ≠ 0xff := by
  rintro rfl
  revert h
  decide

/-- The second half of the loop body: the cursor may have left the last column. -/
theorem wrap_sim (h : Sim s t) (hw : 0 < s.widthChar) (cur : BitVec 8) :
    let s' := if s.cursorX ≥ s.widthChar ∨ cur = 0x0a then s.consoleCarriageReturn else s
    let t' := if t.cursorX ≥ t.width ∨ cur = 0x0a then t.newline else t
    Sim s' t' ∧ s'.cursorX < s'.widthChar := by
  by_cases hwrap : s.cursorX ≥ s.widthChar ∨ cur = 0x0a
  · have hwrap' : t.cursorX ≥ t.width ∨ cur = 0x0a := by
      rw [← h.cursorX, ← h.widthChar]
      exact hwrap
    have hsim := h.consoleCarriageReturn hw
    have hcursor : t.newline.cursorX = 0 := by
      rw [Terminal.newline]
      split <;> rfl
    simp only [if_pos hwrap, if_pos hwrap']
    rw [hsim.cursorX, hsim.widthChar, hcursor, t.size_newline.1, ← h.widthChar]
    exact ⟨hsim, hw⟩
  · have hwrap' : ¬(t.cursorX ≥ t.width ∨ cur = 0x0a) := by
      rw [← h.cursorX, ← h.widthChar]
      exact hwrap
    simp only [if_neg hwrap, if_neg hwrap']
    exact ⟨h, Nat.lt_of_not_le fun hx => hwrap (.inl hx)⟩

/-- **One character.** The cursor stays in the console. -/
theorem consoleWriteChar_sim (h : Sim s t) (hx : s.cursorX < s.widthChar) (cur : BitVec 8) :
    Sim (s.consoleWriteChar cur) (t.writeChar cur) ∧
      (s.consoleWriteChar cur).cursorX < (s.consoleWriteChar cur).widthChar := by
  rw [consoleWriteChar, Terminal.writeChar]
  by_cases hcur : printable cur
  · have hc := ne_0xff_of_printable hcur
    have hsim := h.consoleWriteGlyph hx hc
    have hw : 0 < (s.consoleWriteGlyph cur).widthChar := by
      rw [hsim.widthChar]
      exact h.widthChar ▸ Nat.zero_lt_of_lt hx
    simp only [if_pos hcur, hsim.cursorX]
    exact wrap_sim (hsim.setCursorX ((t.draw cur).cursorX + 1)) hw cur
  · simp only [if_neg hcur]
    exact wrap_sim h (Nat.zero_lt_of_lt hx) cur

theorem consoleWriteChars_sim (h : Sim s t) (hx : s.cursorX < s.widthChar)
    (str : List (BitVec 8)) :
    Sim (str.foldl consoleWriteChar s) (str.foldl Terminal.writeChar t) ∧
      (str.foldl consoleWriteChar s).cursorX < (str.foldl consoleWriteChar s).widthChar := by
  induction str generalizing s t with
  | nil => exact ⟨h, hx⟩
  | cons cur str ih =>
    obtain ⟨hsim, hlt⟩ := consoleWriteChar_sim h hx cur
    exact ih hsim hlt

/-- **One call of `console_write`.** -/
theorem consoleWrite_sim (h : Sim s t) (hx : s.cursorX < s.widthChar) (str : List (BitVec 8)) :
    Sim (s.consoleWrite str) (t.write str) ∧
      (s.consoleWrite str).cursorX < (s.consoleWrite str).widthChar := by
  obtain ⟨hsim, hlt⟩ := consoleWriteChars_sim h hx (str.takeWhile (· ≠ 0))
  exact ⟨⟨hsim.widthChar, hsim.heightChar, hsim.cursorX, hsim.cursorY, hsim.color, hsim.cursorY_lt,
    hsim.cell, Nat.zero_le _⟩, hlt⟩

/-- **Any calls of `console_write`.** -/
theorem run_sim (h : Sim s t) (hx : s.cursorX < s.widthChar) (hqueue : s.queue = [])
    (strs : List (List (BitVec 8))) :
    Sim (strs.foldl consoleWrite s) (strs.foldl Terminal.write t) ∧
      (strs.foldl consoleWrite s).queue = [] := by
  induction strs generalizing s t with
  | nil => exact ⟨h, hqueue⟩
  | cons str strs ih =>
    obtain ⟨hsim, hlt⟩ := consoleWrite_sim h hx str
    exact ih hsim hlt rfl

theorem consoleInit_sim {w h : ℕ} {termBuffer : ℕ → BitVec 16} (hh : 0 < h)
    (hbuf : ∀ i < w * h, termBuffer i = 0) :
    Sim (consoleInit w h termBuffer) (Terminal.init w h) := by
  refine ⟨rfl, rfl, rfl, rfl, rfl, hh, fun x hx y hy => ?_, Nat.zero_le _⟩
  show CellSim ⟨initGlyph, termBuffer (y * w + x), false⟩ initGlyph true
  rw [hbuf _ (target_lt hx hy)]
  exact .untouched

end Fbconsole

/-- What the simulation says of a cell. -/
theorem CellSim.agree {cell : ConsoleCell} {g : Glyph} {fresh : Bool} (h : CellSim cell g fresh) :
    (cell.glyph = if fresh ∧ cell.queued then ⟨0, 0⟩ else g) ∧ (fresh → g = initGlyph) ∧
      (cell.queued → cell.buffer = cell.glyph.toCell) := by
  cases h with
  | drawn hc => simp [ConsoleCell.drawn]
  | untouched => simp
  | scrolled => simp [ConsoleCell.drawn]

/-- The console after `console_init` and calls of `console_write`. -/
def Fbconsole.written (w h : ℕ) (termBuffer : ℕ → BitVec 16) (strs : List (List (BitVec 8))) :
    Fbconsole :=
  strs.foldl Fbconsole.consoleWrite (Fbconsole.consoleInit w h termBuffer)

/-- The plain terminal after the same calls. -/
def Terminal.written (w h : ℕ) (strs : List (List (BitVec 8))) : Terminal :=
  strs.foldl Terminal.write (Terminal.init w h)

theorem Terminal.size_written (w h : ℕ) (strs : List (List (BitVec 8))) :
    (written w h strs).width = w ∧ (written w h strs).height = h :=
  size_foldl size_write strs (init w h)

namespace Fbconsole

variable {w h x y : ℕ} {termBuffer : ℕ → BitVec 16}

/-- After any calls the console simulates the terminal, and its queue is empty. -/
theorem written_sim (hw : 0 < w) (hh : 0 < h) (hbuf : ∀ i < w * h, termBuffer i = 0)
    (strs : List (List (BitVec 8))) :
    Sim (written w h termBuffer strs) (.written w h strs) ∧
      (written w h termBuffer strs).queue = [] :=
  run_sim (consoleInit_sim hh hbuf) hw rfl strs

/-- **After any calls** the screen is that of the plain terminal, but for the spaces of
`console_init`. -/
theorem written_agrees (vgaFont : ℕ → BitVec 8) (hfont : ∀ y < 16, vgaFont (0x20 * 16 + y) = 0)
    (hw : 0 < w) (hh : 0 < h) (hbuf : ∀ i < w * h, termBuffer i = 0)
    (strs : List (List (BitVec 8))) (hx : x < w) (hy : y < h) :
    ((written w h termBuffer strs).screen x y =
        if (Terminal.written w h strs).fresh x y ∧ (written w h termBuffer strs).queued x y
        then ⟨0, 0⟩
        else (Terminal.written w h strs).cells x y) ∧
      ((Terminal.written w h strs).fresh x y → (Terminal.written w h strs).cells x y = initGlyph) ∧
      (∀ i < 8, ∀ j < 16, glyphPixel vgaFont ((written w h termBuffer strs).screen x y) i j =
        glyphPixel vgaFont ((Terminal.written w h strs).cells x y) i j) ∧
      ((written w h termBuffer strs).queued x y →
        (written w h termBuffer strs).termBuffer (y * w + x) =
          ((written w h termBuffer strs).screen x y).toCell) := by
  obtain ⟨hsim, hqueue⟩ := written_sim hw hh hbuf strs
  obtain ⟨hwidth, hheight⟩ := Terminal.size_written w h strs
  generalize written w h termBuffer strs = s, Terminal.written w h strs = t at *
  have hw' : s.widthChar = w := hsim.widthChar.trans hwidth
  have hh' : s.heightChar = h := hsim.heightChar.trans hheight
  have hcell : s.cell x y = ⟨s.screen x y, s.termBuffer (y * w + x), s.queued x y⟩ := by
    rw [cell, flushed, hqueue, hw']
    rfl
  have hagree := (hsim.cell x (hw'.symm ▸ hx) y (hh'.symm ▸ hy)).agree
  rw [hcell] at hagree
  obtain ⟨hglyph, hfresh, hbuffer⟩ := hagree
  refine ⟨hglyph, hfresh, fun i _ j hj => ?_, hbuffer⟩
  change s.screen x y = if t.fresh x y ∧ s.queued x y then ⟨0, 0⟩ else t.cells x y at hglyph
  by_cases hcopied : t.fresh x y ∧ s.queued x y
  · rw [hglyph, if_pos hcopied, hfresh hcopied.1]
    exact glyphPixel_zero hfont i hj
  · rw [hglyph, if_neg hcopied]

end Fbconsole

end GoofyOs
