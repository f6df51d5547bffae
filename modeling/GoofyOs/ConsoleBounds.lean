import GoofyOs.CInt
import GoofyOs.Fbconsole

/-!
# The indices of the console

The queue of the console has room for one item for each cell. `queue_push` flushes it when it is
full, and that can happen anywhere in the loops of `scroll`, which pushes a whole screen.

The console of `Fbconsole` counts in `ℕ`. Here the integer types of the source are written out:
`fbcon.width_char * fbcon.height_char` is an `int`, which is compared with `queue_items` as a
`size_t`. On a screen of `2 ^ 31` cells the product is negative, so as a `size_t` it is larger than
any queue, and no push finds the queue full.

## Main definitions

* `TracedConsole` — the console with the integer types of the source, and the runs of `queue_push`
* `TracedConsole.Inside` — the runs, the cursor and the queue are as they should be
* `TracedConsole.Bounded` — the invariant of the calls
* `TracedConsole.Pushed` — what a part of the code has pushed

## Main results

* `TracedConsole.toFbconsole_traced` — below `2 ^ 31` cells this is the console of `Fbconsole`
* `console_inside_iff` — the screens on which every index stays inside
-/

namespace GoofyOs

/-- A run of `queue_push`: the cell of `todo`, and the index into `queue` that it has stored at. -/
structure PushRun where
  x : ℕ
  y : ℕ
  index : Option ℕ

/-- `struct fbconsole`. `runs` is a history variable: the runs of `queue_push`, the last one
first. -/
structure TracedConsole extends Fbconsole where
  runs : List PushRun

/-- The cursor is on the screen. -/
structure Fbconsole.OnScreen (s : Fbconsole) : Prop where
  cursorX_lt : s.cursorX < s.widthChar
  cursorY_lt : s.cursorY < s.heightChar

/-- The run was for a cell of the screen, and its index is below `n`. -/
structure PushRun.Inside (r : PushRun) (w h n : ℕ) : Prop where
  x_lt : r.x < w
  y_lt : r.y < h
  index_lt : ∀ i ∈ r.index, i < n

namespace TracedConsole

open Fbconsole

/-! ### The code -/

/-- `y * fbcon.width_char + x`, an `int`, as the offset of a pointer. -/
def cellOffset (s : TracedConsole) (x y : ℕ) : ℕ :=
  (asInt (y * s.widthChar + x) % 2 ^ 64).toNat

/-- `fbcon.width_char * fbcon.height_char`, an `int`, as a `size_t`. -/
def capacity (s : TracedConsole) : ℕ :=
  (asInt (s.widthChar * s.heightChar) % 2 ^ 64).toNat

/-- `console_flush`. The `int` of the loop is negative after `2 ^ 31` items, which as a `size_t` is
not below `queue_items`. -/
def consoleFlush (s : TracedConsole) : TracedConsole :=
  { s with screen := (s.queue.take (2 ^ 31)).foldl putGlyph s.screen, queue := [] }

/-- The end of `queue_push`: the entry of `term_buffer`, and `queue[queue_items++]`. -/
def store (s : TracedConsole) (todo : QueueItem) : TracedConsole :=
  { s with
    termBuffer := Function.update s.termBuffer (s.cellOffset todo.x todo.y) todo.toCell
    queue := s.queue ++ [todo]
    queued := setCell s.queued todo.x todo.y true
    runs := ⟨todo.x, todo.y, some s.queue.length⟩ :: s.runs }

/-- `queue_push`. -/
def queuePush (s : TracedConsole) (todo : QueueItem) : TracedConsole :=
  if unchanged (s.termBuffer (s.cellOffset todo.x todo.y)) todo then
    { s with runs := ⟨todo.x, todo.y, none⟩ :: s.runs }
  else if s.queue.length ≥ s.capacity then s.consoleFlush.store todo
  else s.store todo

/-- The inner loop of `scroll` over row `i`, up to column `n`. -/
def scrollRow (s : TracedConsole) (i n : ℕ) : TracedConsole :=
  (List.range n).foldl (fun s j =>
    let tar := s.termBuffer (s.cellOffset j i)
    s.queuePush { Glyph.ofCell tar with x := j, y := i - 1 }) s

/-- The first loop of `scroll`, over `n` rows from row 1 on. -/
def scrollRows (s : TracedConsole) (n : ℕ) : TracedConsole :=
  (List.range' 1 n).foldl (fun s i => s.scrollRow i s.widthChar) s

/-- The second loop of `scroll`, up to column `n`. -/
def clearBottom (s : TracedConsole) (n : ℕ) : TracedConsole :=
  (List.range n).foldl (fun s j =>
    s.queuePush { c := 0x20, col := s.color, x := j, y := s.heightChar - 1 }) s

/-- `scroll`. -/
def scroll (s : TracedConsole) : TracedConsole :=
  let s := s.scrollRows (s.heightChar - 1)
  let s := s.clearBottom s.widthChar
  { s with cursorX := 0 }

/-- `console_carriage_return`. -/
def consoleCarriageReturn (s : TracedConsole) : TracedConsole :=
  if s.cursorY + 1 ≥ s.heightChar then s.scroll
  else { s with cursorX := 0, cursorY := (s.cursorY + 1) % 2 ^ 16 }

/-- `console_write_glyph`. -/
def consoleWriteGlyph (s : TracedConsole) (c : BitVec 8) : TracedConsole :=
  s.queuePush { c, col := s.color, x := s.cursorX, y := s.cursorY }

/-- The body of the loop of `console_write`. -/
def consoleWriteChar (s : TracedConsole) (cur : BitVec 8) : TracedConsole :=
  let s :=
    if printable cur then
      let s := s.consoleWriteGlyph cur
      { s with cursorX := (s.cursorX + 1) % 2 ^ 16 }
    else s
  if s.cursorX ≥ s.widthChar ∨ cur = 0x0a then s.consoleCarriageReturn else s

/-- `console_write`. -/
def consoleWrite (s : TracedConsole) (str : List (BitVec 8)) : TracedConsole :=
  ((str.takeWhile (· ≠ 0)).foldl consoleWriteChar s).consoleFlush

/-- The console `s` after calls of `console_write`. -/
def traced (s : Fbconsole) (strs : List (List (BitVec 8))) : TracedConsole :=
  strs.foldl consoleWrite ⟨s, []⟩

/-! ### The products -/

variable {s : TracedConsole}

theorem capacity_congr {t : TracedConsole} (hw : t.widthChar = s.widthChar)
    (hh : t.heightChar = s.heightChar) : t.capacity = s.capacity := by
  rw [capacity, capacity, hw, hh]

theorem capacity_eq (hfit : s.widthChar * s.heightChar < 2 ^ 31) :
    s.capacity = s.widthChar * s.heightChar := by
  have hint : asInt (s.widthChar * s.heightChar) = (s.widthChar * s.heightChar : ℕ) := by
    rw [← Nat.cast_mul]
    exact asInt_of_lt (by omega) (by omega)
  rw [capacity, hint]
  omega

/-- The product of a screen that is too large is negative as an `int`. -/
theorem lt_capacity (hw : s.widthChar < 2 ^ 16) (hh : s.heightChar < 2 ^ 16)
    (hbig : 2 ^ 31 ≤ s.widthChar * s.heightChar) : s.widthChar * s.heightChar < s.capacity := by
  have hmul : s.widthChar * s.heightChar < 2 ^ 16 * 2 ^ 16 :=
    Nat.mul_lt_mul'' hw hh
  rw [capacity, ← Nat.cast_mul, asInt, Int.bmod_def]
  omega

theorem capacity_pos (hw : s.widthChar < 2 ^ 16) (hh : s.heightChar < 2 ^ 16)
    (hpos : 0 < s.widthChar * s.heightChar) : 0 < s.capacity := by
  rcases Nat.lt_or_ge (s.widthChar * s.heightChar) (2 ^ 31) with hfit | hbig
  · rwa [capacity_eq hfit]
  · exact Nat.zero_lt_of_lt (lt_capacity hw hh hbig)

/-- The entry of a cell of the screen. -/
theorem cellOffset_eq (hfit : s.widthChar * s.heightChar < 2 ^ 31) {x y : ℕ}
    (hx : x < s.widthChar) (hy : y < s.heightChar) :
    s.cellOffset x y = y * s.widthChar + x := by
  have hcell : y * s.widthChar + x < s.widthChar * s.heightChar := target_lt hx hy
  have hint : asInt (y * s.widthChar + x) = (y * s.widthChar + x : ℕ) := by
    rw [← Nat.cast_mul, ← Nat.cast_add]
    exact asInt_of_lt (by omega) (by omega)
  rw [cellOffset, hint]
  omega

/-! ### The invariant -/

/-- What holds in the middle of a call: no index reaches the value that `queue_push` compares
with. -/
structure Bounded (s : TracedConsole) : Prop where
  runs : ∀ r ∈ s.runs, r.Inside s.widthChar s.heightChar s.capacity
  length_queue : s.queue.length ≤ s.capacity

/-- No index has reached `n`. -/
def IndexLT (s : TracedConsole) (n : ℕ) : Prop :=
  ∀ r ∈ s.runs, ∀ i ∈ r.index, i < n

/-- `s'` is `s` after code that has pushed at least `k` items, and does what `f` does on the console
of `Fbconsole`. As long as no index has reached an `n` below `capacity`, nothing was flushed. -/
structure Pushed (s s' : TracedConsole) (k : ℕ) (f : Fbconsole → Fbconsole) : Prop where
  widthChar : s'.widthChar = s.widthChar
  heightChar : s'.heightChar = s.heightChar
  runs : s.runs <:+ s'.runs
  bounded : s.Bounded → s'.Bounded
  toFbconsole : s.widthChar * s.heightChar < 2 ^ 31 → s.Bounded →
    s'.toFbconsole = f s.toFbconsole
  grows : ∀ n < s.capacity, s.queue.length ≤ n → s'.IndexLT n →
    s.queue.length + k ≤ s'.queue.length ∧ s'.queue.length ≤ n

namespace Pushed

variable {s s' s'' : TracedConsole} {k l : ℕ} {f g : Fbconsole → Fbconsole}

theorem refl (s : TracedConsole) : Pushed s s 0 id :=
  ⟨rfl, rfl, List.suffix_rfl, id, fun _ _ => rfl, fun _ _ hlen _ => ⟨le_rfl, hlen⟩⟩

theorem capacity (h : Pushed s s' k f) : s'.capacity = s.capacity :=
  capacity_congr h.widthChar h.heightChar

theorem capacity_pos (h : Pushed s s' k f) (hcap : 0 < s.capacity) : 0 < s'.capacity := by
  rw [h.capacity]
  exact hcap

theorem trans (h : Pushed s s' k f) (h' : Pushed s' s'' l g) :
    Pushed s s'' (k + l) fun t => g (f t) where
  widthChar := h'.widthChar.trans h.widthChar
  heightChar := h'.heightChar.trans h.heightChar
  runs := h.runs.trans h'.runs
  bounded hs := h'.bounded (h.bounded hs)
  toFbconsole := by
    intro hfit hs
    have hfit' : s'.widthChar * s'.heightChar < 2 ^ 31 := by
      rw [h.widthChar, h.heightChar]
      exact hfit
    rw [h'.toFbconsole hfit' (h.bounded hs), h.toFbconsole hfit hs]
  grows := by
    intro n hn hlen hlt
    have hlt' : s'.IndexLT n := fun r hr => hlt r (h'.runs.subset hr)
    obtain ⟨hk, hlen'⟩ := h.grows n hn hlen hlt'
    obtain ⟨hl, hlen''⟩ := h'.grows n (h.capacity.symm ▸ hn) hlen' hlt
    exact ⟨by omega, hlen''⟩

theorem mono (h : Pushed s s' k f) (hl : l ≤ k) : Pushed s s' l f where
  widthChar := h.widthChar
  heightChar := h.heightChar
  runs := h.runs
  bounded := h.bounded
  toFbconsole := h.toFbconsole
  grows := by
    intro n hn hlen hlt
    obtain ⟨hk, hlen'⟩ := h.grows n hn hlen hlt
    exact ⟨by omega, hlen'⟩

theorem congr (h : Pushed s s' k f)
    (hfg : s.widthChar * s.heightChar < 2 ^ 31 → f s.toFbconsole = g s.toFbconsole) :
    Pushed s s' k g :=
  { h with toFbconsole := fun hfit hs => (h.toFbconsole hfit hs).trans (hfg hfit) }

/-- A loop whose body pushes at least `k` items. -/
theorem foldl {α : Type*} {f : TracedConsole → α → TracedConsole} {g : Fbconsole → α → Fbconsole}
    {l : List α} (hbody : ∀ t : TracedConsole, t.widthChar = s.widthChar →
      t.heightChar = s.heightChar → ∀ a ∈ l, Pushed t (f t a) k fun u => g u a) :
    Pushed s (l.foldl f s) (l.length * k) fun u => l.foldl g u := by
  induction l generalizing s with
  | nil =>
    rw [List.length_nil, Nat.zero_mul]
    exact refl s
  | cons a l ih =>
    have hfirst := hbody s rfl rfl a List.mem_cons_self
    have hrest := ih fun t hw hh b hb =>
      hbody t (hw.trans hfirst.widthChar) (hh.trans hfirst.heightChar) b (List.mem_cons_of_mem a hb)
    rw [List.length_cons, Nat.succ_mul, Nat.add_comm]
    exact hfirst.trans hrest

end Pushed

/-! ### The functions -/

theorem toFbconsole_consoleFlush (hlen : s.queue.length ≤ 2 ^ 31) :
    s.consoleFlush.toFbconsole = s.toFbconsole.consoleFlush := by
  rw [consoleFlush, List.take_of_length_le hlen]
  rfl

theorem IndexLT.store {todo : QueueItem} {n : ℕ} (h : (s.store todo).IndexLT n) :
    s.queue.length < n :=
  h _ List.mem_cons_self _ rfl

theorem Bounded.store {todo : QueueItem} (h : s.Bounded) (hx : todo.x < s.widthChar)
    (hy : todo.y < s.heightChar) (hroom : s.queue.length < s.capacity) :
    (s.store todo).Bounded where
  runs := List.forall_mem_cons.mpr
    ⟨⟨hx, hy, fun i hi => Option.some.inj hi ▸ hroom⟩, h.runs⟩
  length_queue := by
    change (s.queue ++ [todo]).length ≤ s.capacity
    rw [List.length_append, List.length_singleton]
    exact hroom

theorem Bounded.consoleFlush (h : s.Bounded) : s.consoleFlush.Bounded :=
  ⟨h.runs, Nat.zero_le _⟩

/-- `queue_push`. Only the character 0xff can be left out. -/
theorem pushed_queuePush (todo : QueueItem) (hx : todo.x < s.widthChar)
    (hy : todo.y < s.heightChar) (hcap : 0 < s.capacity) :
    Pushed s (s.queuePush todo) (if todo.c = 0xff then 0 else 1) fun t => t.queuePush todo := by
  have hoffset (hfit : s.widthChar * s.heightChar < 2 ^ 31) :
      s.cellOffset todo.x todo.y = todo.y * s.widthChar + todo.x := cellOffset_eq hfit hx hy
  by_cases hsame : unchanged (s.termBuffer (s.cellOffset todo.x todo.y)) todo
  · have hc : todo.c = 0xff := by
      by_contra hc
      exact not_unchanged hc hsame
    rw [queuePush, if_pos hsame, if_pos hc]
    exact
      { widthChar := rfl
        heightChar := rfl
        runs := List.suffix_cons _ _
        bounded := fun h => ⟨List.forall_mem_cons.mpr ⟨⟨hx, hy, nofun⟩, h.runs⟩, h.length_queue⟩
        toFbconsole := by
          intro hfit _
          rw [hoffset hfit] at hsame
          rw [Fbconsole.queuePush, if_pos hsame]
        grows := fun _ _ hlen _ => ⟨le_rfl, hlen⟩ }
  · by_cases hfull : s.queue.length ≥ s.capacity
    · rw [queuePush, if_neg hsame, if_pos hfull]
      exact
        { widthChar := rfl
          heightChar := rfl
          runs := List.suffix_cons _ _
          bounded := fun h => h.consoleFlush.store hx hy hcap
          toFbconsole := by
            intro hfit h
            have hlen := h.length_queue
            rw [capacity_eq hfit] at hfull hlen
            have hflush := toFbconsole_consoleFlush (s := s) (by omega)
            rw [hoffset hfit] at hsame
            rw [Fbconsole.queuePush, if_neg hsame, if_pos hfull, ← hflush, ← hoffset hfit]
            rfl
          grows := by
            intro n hn hlen _
            omega }
    · rw [queuePush, if_neg hsame, if_neg hfull]
      exact
        { widthChar := rfl
          heightChar := rfl
          runs := List.suffix_cons _ _
          bounded := fun h => h.store hx hy (Nat.lt_of_not_le hfull)
          toFbconsole := by
            intro hfit _
            rw [capacity_eq hfit] at hfull
            rw [hoffset hfit] at hsame
            rw [Fbconsole.queuePush, if_neg hsame, if_neg hfull, ← hoffset hfit]
            rfl
          grows := by
            intro n _ _ hlt
            have hlen : (s.store todo).queue.length = s.queue.length + 1 := by
              change (s.queue ++ [todo]).length = _
              rw [List.length_append, List.length_singleton]
            have hroom := hlt.store
            rw [hlen]
            exact ⟨by split <;> omega, hroom⟩ }

/-- A row of the first loop of `scroll`. -/
theorem pushed_scrollRow {i n : ℕ} (hn : n ≤ s.widthChar) (hi : 0 < i) (hih : i < s.heightChar)
    (hcap : 0 < s.capacity) : Pushed s (s.scrollRow i n) 0 fun t => t.scrollRow i n := by
  have hloop : Pushed s (s.scrollRow i n) ((List.range n).length * 0) fun t => t.scrollRow i n := by
    refine Pushed.foldl fun t hw hh j hj => ?_
    have hj' : j < t.widthChar := by
      rw [hw]
      exact Nat.lt_of_lt_of_le (List.mem_range.mp hj) hn
    have hcap' : 0 < t.capacity := by
      rw [capacity_congr hw hh]
      exact hcap
    have hi' : i - 1 < t.heightChar := by omega
    refine ((pushed_queuePush _ hj' hi' hcap').mono (Nat.zero_le _)).congr fun hfit => ?_
    rw [cellOffset_eq hfit hj' (hh ▸ hih)]
  exact hloop

/-- The first loop of `scroll`. -/
theorem pushed_scrollRows {n : ℕ} (hn : n < s.heightChar) (hcap : 0 < s.capacity) :
    Pushed s (s.scrollRows n) 0 fun t => t.scrollRows n := by
  have hloop : Pushed s (s.scrollRows n) ((List.range' 1 n).length * 0)
      fun t => t.scrollRows n := by
    refine Pushed.foldl fun t hw hh i hi => ?_
    have hcap' : 0 < t.capacity := by
      rw [capacity_congr hw hh]
      exact hcap
    obtain ⟨hpos, hlt⟩ := List.mem_range'_1.mp hi
    exact (pushed_scrollRow le_rfl hpos (by omega) hcap').congr fun _ => rfl
  exact hloop

/-- The second loop of `scroll`. A space is never left out. -/
theorem pushed_clearBottom {n : ℕ} (hn : n ≤ s.widthChar) (hh : 0 < s.heightChar)
    (hcap : 0 < s.capacity) : Pushed s (s.clearBottom n) n fun t => t.clearBottom n := by
  have hloop : Pushed s (s.clearBottom n) ((List.range n).length * 1) fun t => t.clearBottom n := by
    refine Pushed.foldl fun t hw' hh' j hj => ?_
    have hj' : j < t.widthChar := by
      rw [hw']
      exact Nat.lt_of_lt_of_le (List.mem_range.mp hj) hn
    have hcap' : 0 < t.capacity := by
      rw [capacity_congr hw' hh']
      exact hcap
    have hbottom : t.heightChar - 1 < t.heightChar := by omega
    have hpush := pushed_queuePush ⟨⟨0x20, t.color⟩, j, t.heightChar - 1⟩ hj' hbottom hcap'
    exact hpush.congr fun _ => rfl
  rwa [List.length_range, Nat.mul_one] at hloop

/-- Moving the cursor pushes nothing. -/
theorem Pushed.setCursor {s' : TracedConsole} {k : ℕ} {f g : Fbconsole → Fbconsole}
    (h : Pushed s s' k f) (x y : ℕ)
    (hfg : s.widthChar * s.heightChar < 2 ^ 31 → s'.toFbconsole = f s.toFbconsole →
      { s'.toFbconsole with cursorX := x, cursorY := y } = g s.toFbconsole) :
    Pushed s { s' with cursorX := x, cursorY := y } k g :=
  { widthChar := h.widthChar
    heightChar := h.heightChar
    runs := h.runs
    bounded := fun hs => ⟨(h.bounded hs).runs, (h.bounded hs).length_queue⟩
    toFbconsole := fun hfit hs => hfg hfit (h.toFbconsole hfit hs)
    grows := h.grows }

/-- **`scroll`** pushes a row of spaces. -/
theorem pushed_scroll (hh : 0 < s.heightChar) (hcap : 0 < s.capacity) :
    Pushed s s.scroll s.widthChar fun t => t.scroll := by
  have hrows := pushed_scrollRows (s := s) (n := s.heightChar - 1) (by omega) hcap
  have hh' : 0 < (s.scrollRows (s.heightChar - 1)).heightChar := by
    rw [hrows.heightChar]
    exact hh
  have hbottom := (pushed_clearBottom le_rfl hh' (hrows.capacity_pos hcap)).congr
    (g := fun t => t.clearBottom t.widthChar) fun _ => rfl
  have hwidth : s.widthChar ≤ 0 + (s.scrollRows (s.heightChar - 1)).widthChar := by
    rw [hrows.widthChar, Nat.zero_add]
  refine ((hrows.trans hbottom).mono hwidth).setCursor 0 _ fun _ heq => ?_
  rw [heq]
  rfl

/-- `queue_push` leaves the cursor alone. -/
theorem cursor_queuePush (s : TracedConsole) (todo : QueueItem) :
    (s.queuePush todo).cursorX = s.cursorX ∧ (s.queuePush todo).cursorY = s.cursorY := by
  rw [queuePush]
  split
  · exact ⟨rfl, rfl⟩
  · split <;> exact ⟨rfl, rfl⟩

theorem cursorY_scrollRow (s : TracedConsole) (i n : ℕ) : (s.scrollRow i n).cursorY = s.cursorY :=
  List.foldlRecOn (motive := fun t => t.cursorY = s.cursorY) _ _ rfl
    fun t ht _ _ => (cursor_queuePush t _).2.trans ht

theorem cursorY_scrollRows (s : TracedConsole) (n : ℕ) : (s.scrollRows n).cursorY = s.cursorY :=
  List.foldlRecOn (motive := fun t => t.cursorY = s.cursorY) _ _ rfl
    fun t ht i _ => (cursorY_scrollRow t i t.widthChar).trans ht

theorem cursorY_clearBottom (s : TracedConsole) (n : ℕ) : (s.clearBottom n).cursorY = s.cursorY :=
  List.foldlRecOn (motive := fun t => t.cursorY = s.cursorY) _ _ rfl
    fun t ht _ _ => (cursor_queuePush t _).2.trans ht

theorem cursorY_scroll (s : TracedConsole) : s.scroll.cursorY = s.cursorY :=
  (cursorY_clearBottom _ _).trans (cursorY_scrollRows s _)

/-- **`console_carriage_return`**, after which the cursor is at the start of a row. -/
theorem pushed_consoleCarriageReturn (hh : s.heightChar < 2 ^ 16) (hy : s.cursorY < s.heightChar)
    (hcap : 0 < s.capacity) :
    Pushed s s.consoleCarriageReturn (if s.cursorY + 1 ≥ s.heightChar then s.widthChar else 0)
        (fun t => t.consoleCarriageReturn) ∧
      s.consoleCarriageReturn.cursorX = 0 ∧
      s.consoleCarriageReturn.cursorY =
        if s.cursorY + 1 ≥ s.heightChar then s.cursorY else s.cursorY + 1 := by
  by_cases hlast : s.cursorY + 1 ≥ s.heightChar
  · rw [consoleCarriageReturn, if_pos hlast, if_pos hlast, if_pos hlast]
    refine ⟨(pushed_scroll (by omega) hcap).congr fun _ => ?_, rfl, cursorY_scroll s⟩
    rw [Fbconsole.consoleCarriageReturn, if_pos hlast]
  · have hwrap : (s.cursorY + 1) % 2 ^ 16 = s.cursorY + 1 := Nat.mod_eq_of_lt (by omega)
    rw [consoleCarriageReturn, if_neg hlast, if_neg hlast, if_neg hlast, hwrap]
    refine ⟨(Pushed.refl s).setCursor 0 (s.cursorY + 1) fun _ _ => ?_, rfl, rfl⟩
    rw [Fbconsole.consoleCarriageReturn, if_neg hlast]

theorem onScreen_consoleCarriageReturn (hw : 0 < s.widthChar) (hh : s.heightChar < 2 ^ 16)
    (hy : s.cursorY < s.heightChar) (hcap : 0 < s.capacity) : s.consoleCarriageReturn.OnScreen := by
  obtain ⟨hpushed, hx', hy'⟩ := pushed_consoleCarriageReturn hh hy hcap
  constructor
  · rw [hx', hpushed.widthChar]
    exact hw
  · rw [hy', hpushed.heightChar]
    split <;> omega

/-- The second half of the loop body: the cursor may have left the last column. -/
theorem pushed_wrap (hw : 0 < s.widthChar) (hh : s.heightChar < 2 ^ 16)
    (hy : s.cursorY < s.heightChar) (hcap : 0 < s.capacity) (cur : BitVec 8) :
    let s' := if s.cursorX ≥ s.widthChar ∨ cur = 0x0a then s.consoleCarriageReturn else s
    Pushed s s' 0 (fun t =>
      if t.cursorX ≥ t.widthChar ∨ cur = 0x0a then t.consoleCarriageReturn else t) ∧
      s'.OnScreen := by
  by_cases hwrap : s.cursorX ≥ s.widthChar ∨ cur = 0x0a
  · have hpushed := (pushed_consoleCarriageReturn hh hy hcap).1
    simp only [if_pos hwrap]
    refine ⟨(hpushed.mono (Nat.zero_le _)).congr fun _ => ?_,
      onScreen_consoleCarriageReturn hw hh hy hcap⟩
    rw [if_pos hwrap]
  · simp only [if_neg hwrap]
    refine ⟨(Pushed.refl s).congr fun _ => ?_, ⟨by omega, hy⟩⟩
    rw [if_neg hwrap, id]

/-- **One character.** -/
theorem pushed_consoleWriteChar (hw : s.widthChar < 2 ^ 16) (hh : s.heightChar < 2 ^ 16)
    (hs : s.OnScreen) (hcap : 0 < s.capacity) (cur : BitVec 8) :
    Pushed s (s.consoleWriteChar cur) 0 (fun t => t.consoleWriteChar cur) ∧
      (s.consoleWriteChar cur).OnScreen := by
  obtain ⟨hx, hy⟩ := hs
  rw [consoleWriteChar]
  by_cases hcur : printable cur
  · have hglyph : Pushed s (s.consoleWriteGlyph cur) 0 fun t => t.consoleWriteGlyph cur :=
      ((pushed_queuePush ⟨⟨cur, s.color⟩, s.cursorX, s.cursorY⟩ hx hy hcap).mono
        (Nat.zero_le _)).congr fun _ => rfl
    have hcursor : (s.consoleWriteGlyph cur).cursorX = s.cursorX ∧
        (s.consoleWriteGlyph cur).cursorY = s.cursorY := cursor_queuePush s _
    have hnext : ((s.consoleWriteGlyph cur).cursorX + 1) % 2 ^ 16 =
        (s.consoleWriteGlyph cur).cursorX + 1 := by
      rw [hcursor.1]
      exact Nat.mod_eq_of_lt (by omega)
    have hmove := hglyph.setCursor ((s.consoleWriteGlyph cur).cursorX + 1)
      (s.consoleWriteGlyph cur).cursorY
      (g := fun t =>
        let t := t.consoleWriteGlyph cur
        { t with cursorX := t.cursorX + 1 })
      fun _ heq => by rw [heq]
    have hw' : 0 < (s.consoleWriteGlyph cur).widthChar := by
      rw [hglyph.widthChar]
      exact Nat.zero_lt_of_lt hx
    have hh' : (s.consoleWriteGlyph cur).heightChar < 2 ^ 16 := by
      rw [hglyph.heightChar]
      exact hh
    have hy' : (s.consoleWriteGlyph cur).cursorY < (s.consoleWriteGlyph cur).heightChar := by
      rw [hcursor.2, hglyph.heightChar]
      exact hy
    have hwrap := pushed_wrap
      (s := { s.consoleWriteGlyph cur with cursorX := (s.consoleWriteGlyph cur).cursorX + 1 })
      hw' hh' hy' (hglyph.capacity_pos hcap) cur
    simp only [if_pos hcur, hnext]
    refine ⟨(hmove.trans hwrap.1).congr fun _ => ?_, hwrap.2⟩
    simp only [Fbconsole.consoleWriteChar, if_pos hcur]
  · have hwrap := pushed_wrap (Nat.zero_lt_of_lt hx) hh hy hcap cur
    simp only [if_neg hcur]
    refine ⟨hwrap.1.congr fun _ => ?_, hwrap.2⟩
    simp only [Fbconsole.consoleWriteChar, if_neg hcur]

/-- The characters of a string. -/
theorem pushed_consoleWriteChars (hw : s.widthChar < 2 ^ 16) (hh : s.heightChar < 2 ^ 16)
    (hs : s.OnScreen) (hcap : 0 < s.capacity) (str : List (BitVec 8)) :
    Pushed s (str.foldl consoleWriteChar s) 0 (fun t => str.foldl Fbconsole.consoleWriteChar t) ∧
      (str.foldl consoleWriteChar s).OnScreen := by
  induction str generalizing s with
  | nil => exact ⟨Pushed.refl s, hs⟩
  | cons cur str ih =>
    obtain ⟨hfirst, hscreen⟩ := pushed_consoleWriteChar hw hh hs hcap cur
    obtain ⟨hrest, hscreen'⟩ := ih (hfirst.widthChar ▸ hw) (hfirst.heightChar ▸ hh) hscreen
      (hfirst.capacity_pos hcap)
    exact ⟨hfirst.trans hrest, hscreen'⟩

/-- The console between two calls. -/
structure AtRest (s : TracedConsole) (w h : ℕ) : Prop where
  widthChar : s.widthChar = w
  heightChar : s.heightChar = h
  onScreen : s.OnScreen
  queue_eq : s.queue = []
  bounded : s.Bounded

namespace AtRest

variable {w h : ℕ}

theorem capacity_pos (hs : s.AtRest w h) (hw : w < 2 ^ 16) (hh : h < 2 ^ 16) : 0 < s.capacity :=
  TracedConsole.capacity_pos (hs.widthChar ▸ hw) (hs.heightChar ▸ hh)
    (Nat.mul_pos (Nat.zero_lt_of_lt hs.onScreen.cursorX_lt)
      (Nat.zero_lt_of_lt hs.onScreen.cursorY_lt))

/-- **One call of `console_write`.** -/
theorem consoleWrite (hs : s.AtRest w h) (hw : w < 2 ^ 16) (hh : h < 2 ^ 16)
    (str : List (BitVec 8)) :
    (s.consoleWrite str).AtRest w h ∧
      (w * h < 2 ^ 31 → (s.consoleWrite str).toFbconsole = s.toFbconsole.consoleWrite str) := by
  obtain ⟨hpushed, hscreen⟩ := pushed_consoleWriteChars (hs.widthChar ▸ hw) (hs.heightChar ▸ hh)
    hs.onScreen (hs.capacity_pos hw hh) (str.takeWhile (· ≠ 0))
  have hbounded := hpushed.bounded hs.bounded
  refine ⟨⟨hpushed.widthChar.trans hs.widthChar, hpushed.heightChar.trans hs.heightChar,
    ⟨hscreen.cursorX_lt, hscreen.cursorY_lt⟩, rfl, hbounded.consoleFlush⟩, fun hfit => ?_⟩
  rw [← hs.widthChar, ← hs.heightChar] at hfit
  have hlen := hbounded.length_queue
  rw [hpushed.capacity, capacity_eq hfit] at hlen
  rw [TracedConsole.consoleWrite, toFbconsole_consoleFlush (by omega),
    hpushed.toFbconsole hfit hs.bounded, Fbconsole.consoleWrite]

/-- **Any calls of `console_write`.** -/
theorem foldl (hs : s.AtRest w h) (hw : w < 2 ^ 16) (hh : h < 2 ^ 16)
    (strs : List (List (BitVec 8))) :
    (strs.foldl TracedConsole.consoleWrite s).AtRest w h ∧
      (w * h < 2 ^ 31 → (strs.foldl TracedConsole.consoleWrite s).toFbconsole =
        strs.foldl Fbconsole.consoleWrite s.toFbconsole) := by
  induction strs generalizing s with
  | nil => exact ⟨hs, fun _ => rfl⟩
  | cons str strs ih =>
    obtain ⟨hfirst, heq⟩ := hs.consoleWrite hw hh str
    obtain ⟨hrest, heq'⟩ := ih hfirst
    refine ⟨hrest, fun hfit => ?_⟩
    rw [List.foldl_cons, heq' hfit, heq hfit, List.foldl_cons]

end AtRest

/-- A console in whose queue nothing is left. -/
theorem atRest_start {s : Fbconsole} (hs : s.OnScreen) (hqueue : s.queue = []) :
    AtRest ⟨s, []⟩ s.widthChar s.heightChar :=
  ⟨rfl, rfl, hs, hqueue, ⟨nofun, by rw [hqueue]; exact Nat.zero_le _⟩⟩

/-- **Below `2 ^ 31` cells the integer types of the source make no difference.** -/
theorem toFbconsole_traced {s : Fbconsole} (hw : s.widthChar < 2 ^ 16) (hh : s.heightChar < 2 ^ 16)
    (hs : s.OnScreen) (hqueue : s.queue = []) (hfit : s.widthChar * s.heightChar < 2 ^ 31)
    (strs : List (List (BitVec 8))) :
    (traced s strs).toFbconsole = strs.foldl Fbconsole.consoleWrite s :=
  ((atRest_start hs hqueue).foldl hw hh strs).2 hfit

/-- What is promised after calls of `console_write` on a screen of `w` columns and `h` rows. -/
structure Inside (s : TracedConsole) (w h : ℕ) : Prop where
  runs : ∀ r ∈ s.runs, r.Inside w h (w * h)
  cursorX_lt : s.cursorX < w
  cursorY_lt : s.cursorY < h
  queue_eq : s.queue = []

theorem AtRest.inside {w h : ℕ} (hs : s.AtRest w h) (hfit : w * h < 2 ^ 31) : s.Inside w h where
  runs := by
    intro r hr
    have hrun := hs.bounded.runs r hr
    rwa [capacity_eq (by rw [hs.widthChar, hs.heightChar]; exact hfit), hs.widthChar,
      hs.heightChar] at hrun
  cursorX_lt := hs.widthChar ▸ hs.onScreen.cursorX_lt
  cursorY_lt := hs.heightChar ▸ hs.onScreen.cursorY_lt
  queue_eq := hs.queue_eq

/-! ### A screen that is too large -/

theorem consoleWriteChar_newline (s : TracedConsole) :
    s.consoleWriteChar 0x0a = s.consoleCarriageReturn := by
  have hcur : ¬printable 0x0a := by decide
  rw [consoleWriteChar, if_neg hcur, if_pos (.inr rfl)]

/-- Newlines: each one in the last row pushes a row of spaces. -/
theorem pushed_newlines (hw : 0 < s.widthChar) (hh : s.heightChar < 2 ^ 16)
    (hy : s.cursorY < s.heightChar) (hcap : 0 < s.capacity) (n : ℕ) :
    ∃ f, Pushed s ((List.replicate n 0x0a).foldl consoleWriteChar s)
      ((n + (s.cursorY + 1) - s.heightChar) * s.widthChar) f := by
  induction n generalizing s with
  | zero =>
    have hnone : 0 + (s.cursorY + 1) - s.heightChar = 0 := by omega
    rw [hnone, Nat.zero_mul]
    exact ⟨_, Pushed.refl s⟩
  | succ n ih =>
    obtain ⟨hfirst, -, hcursor⟩ := pushed_consoleCarriageReturn hh hy hcap
    have hscreen := onScreen_consoleCarriageReturn hw hh hy hcap
    obtain ⟨f, hrest⟩ := ih (s := s.consoleCarriageReturn) (hfirst.widthChar ▸ hw)
      (hfirst.heightChar ▸ hh) hscreen.cursorY_lt (hfirst.capacity_pos hcap)
    rw [List.replicate_succ, List.foldl_cons, consoleWriteChar_newline]
    refine ⟨_, (hfirst.trans hrest).mono ?_⟩
    rw [hcursor, hfirst.widthChar, hfirst.heightChar]
    split
    · have hsucc : n + 1 + (s.cursorY + 1) - s.heightChar =
          n + (s.cursorY + 1) - s.heightChar + 1 := by omega
      rw [hsucc, Nat.succ_mul, Nat.add_comm]
    · have hsucc : n + 1 + (s.cursorY + 1) - s.heightChar =
          n + (s.cursorY + 1 + 1) - s.heightChar := by omega
      rw [hsucc, Nat.zero_add]

/-- The pushes of `2 * h` newlines do not all stay inside. -/
theorem not_inside_newlines {s : Fbconsole} (hw : s.widthChar < 2 ^ 16)
    (hh : s.heightChar < 2 ^ 16) (hs : s.OnScreen) (hqueue : s.queue = [])
    (hbig : 2 ^ 31 ≤ s.widthChar * s.heightChar) :
    ¬(traced s [List.replicate (2 * s.heightChar) 0x0a]).Inside s.widthChar s.heightChar := by
  intro hinside
  have hpos : 0 < s.widthChar := Nat.zero_lt_of_lt hs.cursorX_lt
  have hstr : (List.replicate (2 * s.heightChar) (0x0a : BitVec 8)).takeWhile (· ≠ 0) =
      List.replicate (2 * s.heightChar) 0x0a := by
    rw [List.takeWhile_replicate]
    rfl
  obtain ⟨f, hpushed⟩ := pushed_newlines (s := ⟨s, []⟩) hpos hh hs.cursorY_lt
    ((atRest_start hs hqueue).capacity_pos hw hh) (2 * s.heightChar)
  have hroom : s.widthChar * s.heightChar < TracedConsole.capacity ⟨s, []⟩ :=
    lt_capacity (s := ⟨s, []⟩) hw hh hbig
  have hruns : ((List.replicate (2 * s.heightChar) 0x0a).foldl consoleWriteChar ⟨s, []⟩).IndexLT
      (s.widthChar * s.heightChar) := by
    intro r hr
    have hrun := hinside.runs r
    rw [traced, List.foldl_cons, List.foldl_nil, consoleWrite, hstr] at hrun
    exact (hrun hr).index_lt
  have hlen : s.queue.length ≤ s.widthChar * s.heightChar := by
    rw [hqueue]
    exact Nat.zero_le _
  obtain ⟨hmany, hfew⟩ := hpushed.grows _ hroom hlen hruns
  have hscrolls : s.heightChar + 1 ≤ 2 * s.heightChar + (s.cursorY + 1) - s.heightChar := by omega
  have hpushes : (s.heightChar + 1) * s.widthChar ≤ s.widthChar * s.heightChar :=
    calc (s.heightChar + 1) * s.widthChar
        ≤ (2 * s.heightChar + (s.cursorY + 1) - s.heightChar) * s.widthChar :=
          Nat.mul_le_mul_right _ hscrolls
      _ ≤ s.widthChar * s.heightChar := (Nat.le_add_left _ _).trans (hmany.trans hfew)
  rw [Nat.succ_mul, Nat.mul_comm] at hpushes
  omega

end TracedConsole

/-- **The screens on which every index stays inside.** -/
theorem console_inside_iff {s : Fbconsole} (hw : s.widthChar < 2 ^ 16)
    (hh : s.heightChar < 2 ^ 16) (hs : s.OnScreen) (hqueue : s.queue = []) :
    (∀ strs, (TracedConsole.traced s strs).Inside s.widthChar s.heightChar) ↔
      s.widthChar * s.heightChar < 2 ^ 31 := by
  constructor
  · intro hinside
    by_contra hbig
    exact TracedConsole.not_inside_newlines hw hh hs hqueue (Nat.le_of_not_lt hbig) (hinside _)
  · intro hfit strs
    exact ((TracedConsole.atRest_start hs hqueue).foldl hw hh strs).1.inside hfit

theorem Fbconsole.onScreen_consoleInit {w h : ℕ} {termBuffer : ℕ → BitVec 16} (hw : 0 < w)
    (hh : 0 < h) : (consoleInit w h termBuffer).OnScreen :=
  ⟨hw, hh⟩

/-- A screen of 160 columns and 50 rows, and a line of text. -/
theorem console_inside_iff_160 :
    (TracedConsole.traced (Fbconsole.consoleInit 160 50 fun _ => 0)
      [[0x68, 0x69, 0x0a]]).Inside 160 50 :=
  (console_inside_iff (s := Fbconsole.consoleInit 160 50 fun _ => 0) (by decide) (by decide)
    (Fbconsole.onScreen_consoleInit (by decide) (by decide)) rfl).mpr (by decide) _

/-- A screen of 46341 columns and 46341 rows, and twice as many newlines. -/
theorem not_console_inside :
    ¬(TracedConsole.traced (Fbconsole.consoleInit 46341 46341 fun _ => 0)
      [List.replicate 92682 0x0a]).Inside 46341 46341 :=
  TracedConsole.not_inside_newlines (s := Fbconsole.consoleInit 46341 46341 fun _ => 0) (by decide)
    (by decide) (Fbconsole.onScreen_consoleInit (by decide) (by decide)) rfl (by decide)

end GoofyOs
