import Mathlib.Data.List.Basic
import Mathlib.Data.List.DropRight

/-!
# Strings of the kernel

The functions of `libk/string.c` over buffers of bytes. A pointer into a buffer is the buffer from
there on, so its end is the end of the list, and a function that reads or writes past it has no
result.

## Main definitions

* `strlen`, `memcpy`, `strcpy`, `strncmp` — the code
* `CStr buf s` — `buf` starts with `s` and a NUL

## Main results

* `CStr.strlen_eq`, `CStr.strcpy_eq`, `CStr.strncmp_eq` — what they do with strings
-/

namespace GoofyOs

/-- `strlen`. -/
def strlen : List UInt8 → Option ℕ
  | [] => none
  | c :: str => if c = 0 then some 0 else (strlen str).map (· + 1)

/-- `memcpy`. -/
def memcpy (dest src : List UInt8) (count : ℕ) : Option (List UInt8) :=
  if count ≤ dest.length ∧ count ≤ src.length then some (src.take count ++ dest.drop count)
  else none

/-- `str[i] = c`. -/
def setChar (str : List UInt8) (i : ℕ) (c : UInt8) : Option (List UInt8) :=
  if i < str.length then some (str.set i c) else none

/-- `strcpy`, without its result. -/
def strcpy (str1 str2 : List UInt8) : Option (List UInt8) := do
  let len ← strlen str2
  let str1 ← memcpy str1 str2 len
  setChar str1 len 0

/-- `strncmp`. -/
def strncmp : List UInt8 → List UInt8 → ℕ → Option ℤ
  | _, _, 0 => some 0
  | c1 :: str1, c2 :: str2, n + 1 =>
    if c1 ≠ c2 then some ((c1.toNat : ℤ) - c2.toNat)
    else if c1 = 0 then some 0
    else strncmp str1 str2 n
  | _, _, _ + 1 => none

/-- The string at the start of a buffer. -/
structure CStr (buf s : List UInt8) : Prop where
  zero_notMem : (0 : UInt8) ∉ s
  split : ∃ rest, buf = s ++ 0 :: rest

namespace CStr

variable {buf buf' dst s s' : List UInt8} {n : ℕ}

theorem of_append {rest : List UInt8} (h : (0 : UInt8) ∉ s) : CStr (s ++ 0 :: rest) s :=
  ⟨h, rest, rfl⟩

theorem strlen_eq (h : CStr buf s) : strlen buf = some s.length := by
  obtain ⟨hzero, rest, rfl⟩ := h
  induction s with
  | nil => rfl
  | cons c s ih =>
    obtain ⟨hc, hs⟩ := not_or.mp (mt List.mem_cons.mpr hzero)
    rw [List.cons_append, strlen, if_neg (Ne.symm hc), ih hs]
    rfl

/-- A buffer starts with one string. -/
theorem unique (h : CStr buf s) (h' : CStr buf s') : s = s' := by
  have hlen : s.length = s'.length := Option.some.inj (h.strlen_eq.symm.trans h'.strlen_eq)
  obtain ⟨-, rest, rfl⟩ := h
  obtain ⟨-, rest', heq⟩ := h'
  exact List.append_inj_left heq hlen

theorem length_lt (h : CStr buf s) : s.length < buf.length := by
  obtain ⟨rest, rfl⟩ := h.split
  rw [List.length_append, List.length_cons]
  omega

/-- The string from a later character on. -/
theorem drop (h : CStr buf s) (hn : n ≤ s.length) : CStr (buf.drop n) (s.drop n) := by
  obtain ⟨hzero, rest, rfl⟩ := h
  exact ⟨fun hmem => hzero (List.mem_of_mem_drop hmem), rest, List.drop_append_of_le_length hn⟩

theorem strcpy_eq (h : CStr buf s) (hlen : s.length < dst.length) :
    strcpy dst buf = some (s ++ 0 :: dst.drop (s.length + 1)) := by
  have hlt := h.length_lt
  have htake : buf.take s.length = s := by
    obtain ⟨rest, rfl⟩ := h.split
    exact List.take_left
  have hmem : memcpy dst buf s.length = some (s ++ dst.drop s.length) := by
    rw [memcpy, if_pos ⟨hlen.le, hlt.le⟩, htake]
  have hset : setChar (s ++ dst.drop s.length) s.length 0 =
      some (s ++ 0 :: dst.drop (s.length + 1)) := by
    rw [setChar, if_pos (by rw [List.length_append, List.length_drop]; omega),
      List.set_append_right _ _ le_rfl, Nat.sub_self, List.drop_eq_getElem_cons hlen]
    rfl
  rw [strcpy, h.strlen_eq]
  show (memcpy dst buf s.length).bind _ = _
  rw [hmem]
  exact hset

/-- The copy of a string. -/
theorem strcpy (h : CStr buf s) (hlen : s.length < dst.length) :
    ∃ dst', GoofyOs.strcpy dst buf = some dst' ∧ CStr dst' s ∧ dst'.length = dst.length := by
  refine ⟨_, h.strcpy_eq hlen, of_append h.zero_notMem, ?_⟩
  rw [List.length_append, List.length_cons, List.length_drop]
  omega

theorem sub_toNat_eq_zero {c c' : UInt8} : (c.toNat : ℤ) - c'.toNat = 0 ↔ c = c' := by
  rw [← UInt8.toNat_inj]
  omega

/-- **Comparing** far enough decides whether two strings are the same. -/
theorem strncmp_eq (h : CStr buf s) (h' : CStr buf' s') (hn : s.length < n) :
    ∃ r, strncmp buf buf' n = some r ∧ (r = 0 ↔ s = s') := by
  obtain ⟨hzero, rest, rfl⟩ := h
  obtain ⟨hzero', rest', rfl⟩ := h'
  induction s generalizing s' n with
  | nil =>
    obtain ⟨n, rfl⟩ := Nat.exists_eq_succ_of_ne_zero (Nat.ne_of_gt hn)
    cases s' with
    | nil => exact ⟨0, by simp [strncmp], by simp⟩
    | cons c' s' =>
      have hc' : (0 : UInt8) ≠ c' := fun heq => hzero' (heq ▸ List.mem_cons_self)
      refine ⟨_, if_pos hc', ?_⟩
      simp only [sub_toNat_eq_zero, hc', false_iff]
      exact fun heq => List.cons_ne_nil _ _ heq.symm
  | cons c s ih =>
    obtain ⟨n, rfl⟩ := Nat.exists_eq_succ_of_ne_zero (Nat.ne_of_gt (Nat.zero_lt_of_lt hn))
    obtain ⟨hc, hs⟩ := not_or.mp (mt List.mem_cons.mpr hzero)
    cases s' with
    | nil =>
      refine ⟨_, if_pos (Ne.symm hc), ?_⟩
      simp only [sub_toNat_eq_zero, Ne.symm hc, false_iff]
      exact List.cons_ne_nil _ _
    | cons c' s' =>
      by_cases hcc : c = c'
      · subst hcc
        obtain ⟨r, hr, hiff⟩ := ih (Nat.lt_of_succ_lt_succ hn) hs
          fun hmem => hzero' (List.mem_cons_of_mem _ hmem)
        refine ⟨r, ?_, by rw [hiff, List.cons_inj_right]⟩
        rw [List.cons_append, List.cons_append, strncmp, if_neg (not_not.mpr rfl),
          if_neg (Ne.symm hc)]
        exact hr
      · refine ⟨_, if_pos hcc, ?_⟩
        simp only [sub_toNat_eq_zero, hcc, false_iff]
        exact fun heq => hcc (List.cons.inj heq).1

end CStr

end GoofyOs
