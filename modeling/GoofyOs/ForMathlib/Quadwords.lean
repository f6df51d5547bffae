import Mathlib.Algebra.Group.Nat.Defs
import Mathlib.Data.Set.BooleanAlgebra
import Mathlib.Order.CompletePartialOrder

/-!
# Quadwords in a memory of bytes

Memory is a function on 64-bit addresses, and addresses wrap around. A quadword is its eight bytes,
the lowest one first. A stack grows downwards, and what is pushed on it lies below its pointer.

## Main definitions

* `bytesAt a n` — the `n` addresses from `a` on
* `Memory.load`, `Memory.store` — a quadword in memory
* `Memory.copy` — memory with a range copied
* `Memory.pushAll` — memory with quadwords pushed on a stack

## Main results

* `Memory.load_store`, `Memory.load_store_of_disjoint` — what is read after a store
* `Memory.load_copy` — what is read in the copy of a range
* `Memory.load_pushAll` — every quadword that was pushed is found on the stack
-/

namespace GoofyOs

/-- The `n` addresses from `a` on. -/
def bytesAt (a : BitVec 64) (n : ℕ) : Set (BitVec 64) := {b | (b - a).toNat < n}

/-- A memory of bytes. -/
abbrev Memory := BitVec 64 → UInt8

namespace Memory

/-- The number that is written in `n` bytes from `a` on, the lowest one first. -/
def value (f : Memory) (a : BitVec 64) : ℕ → ℕ
  | 0 => 0
  | n + 1 => (f a).toNat + 256 * value f (a + 1) n

/-- Reading a quadword. -/
def load (f : Memory) (a : BitVec 64) : BitVec 64 := .ofNat 64 (f.value a 8)

/-- Writing a quadword. -/
def store (f : Memory) (a v : BitVec 64) : Memory := fun b =>
  if (b - a).toNat < 8 then .ofNat (v.toNat / 256 ^ (b - a).toNat) else f b

/-- Memory with `n` bytes copied from `src` to `dst`. -/
def copy (f : Memory) (dst src : BitVec 64) (n : ℕ) : Memory := fun b =>
  if (b - dst).toNat < n then f (src + (b - dst)) else f b

/-- Memory with quadwords pushed on the stack at `sp`, one after the other. -/
def pushAll (f : Memory) (sp : BitVec 64) : List (BitVec 64) → Memory
  | [] => f
  | v :: vs => pushAll (f.store (sp - 8) v) (sp - 8) vs

end Memory

section BytesAt

variable {a b : BitVec 64} {n k i : ℕ}

theorem mem_bytesAt : b ∈ bytesAt a n ↔ (b - a).toNat < n := Iff.rfl

/-- A range inside another. -/
theorem bytesAt_add_subset (h : i + n ≤ k) (_ : k ≤ 2 ^ 64) :
    bytesAt (a + .ofNat 64 i) n ⊆ bytesAt a k := by
  intro b hb
  rw [mem_bytesAt] at hb ⊢
  bv_omega

/-- What lies below a stack pointer, one quadword further down. -/
theorem bytesAt_below_subset (h : n + 8 ≤ k) (_ : k ≤ 2 ^ 64) :
    bytesAt (a - 8 - .ofNat 64 n) n ⊆ bytesAt (a - .ofNat 64 k) k := by
  intro b hb
  rw [mem_bytesAt] at hb ⊢
  bv_omega

end BytesAt

namespace Memory

variable {f g : Memory} {a b v sp dst src : BitVec 64} {vs : List (BitVec 64)} {n i x : ℕ}

/-! ### Reading what was written -/

theorem value_congr (h : ∀ i < n, f (a + .ofNat 64 i) = g (b + .ofNat 64 i)) :
    f.value a n = g.value b n := by
  induction n generalizing a b with
  | zero => rfl
  | succ n ih =>
    have hfirst := h 0 (by omega)
    rw [BitVec.add_zero, BitVec.add_zero] at hfirst
    have hrest : f.value (a + 1) n = g.value (b + 1) n := ih fun i hi => by
      have hi' := h (i + 1) (by omega)
      rwa [Nat.add_comm i 1, BitVec.ofNat_add, ← BitVec.add_assoc, ← BitVec.add_assoc] at hi'
    rw [value, value, hfirst, hrest]

theorem load_congr (h : ∀ c ∈ bytesAt a 8, f c = g c) : f.load a = g.load a := by
  have hval : f.value a 8 = g.value a 8 := value_congr fun i hi => h _ <| by
    rw [mem_bytesAt]
    bv_omega
  rw [load, load, hval]

/-- The bytes of a number give the number back. -/
theorem value_eq (h : ∀ i < n, f (a + .ofNat 64 i) = .ofNat (x / 256 ^ i)) :
    f.value a n = x % 256 ^ n := by
  induction n generalizing a x with
  | zero => rw [Nat.pow_zero, Nat.mod_one, value]
  | succ n ih =>
    have hfirst : (f a).toNat = x % 256 := by
      have h0 := h 0 (by omega)
      rw [BitVec.add_zero, Nat.pow_zero, Nat.div_one] at h0
      rw [h0, UInt8.toNat_ofNat']
    have hrest : f.value (a + 1) n = x / 256 % 256 ^ n := ih fun i hi => by
      have hi' := h (i + 1) (by omega)
      rwa [Nat.pow_succ', ← Nat.div_div_eq_div_mul, Nat.add_comm i 1, BitVec.ofNat_add,
        ← BitVec.add_assoc] at hi'
    rw [value, hfirst, hrest, Nat.pow_succ', Nat.mod_mul]

/-- **What was stored is read.** -/
theorem load_store (f : Memory) (a v : BitVec 64) : (f.store a v).load a = v := by
  have hval : (f.store a v).value a 8 = v.toNat % 256 ^ 8 := value_eq fun i hi => by
    have hoff : (a + .ofNat 64 i - a).toNat = i := by bv_omega
    rw [store, hoff, if_pos hi]
  rw [load, hval]
  bv_omega

theorem store_of_notMem (h : b ∉ bytesAt a 8) : f.store a v b = f b := if_neg h

/-- What was stored elsewhere is not read. -/
theorem load_store_of_disjoint (h : Disjoint (bytesAt a 8) (bytesAt b 8)) :
    (f.store a v).load b = f.load b :=
  load_congr fun _ hc => store_of_notMem (Set.disjoint_right.mp h hc)

/-- Quadwords of one array. -/
theorem load_store_index {j n : ℕ} (hn : 8 * n ≤ 2 ^ 64) (hi : i < n) (hj : j < n) :
    (f.store (a + .ofNat 64 (8 * i)) v).load (a + .ofNat 64 (8 * j)) =
      if i = j then v else f.load (a + .ofNat 64 (8 * j)) := by
  split_ifs with hij
  · rw [hij, load_store]
  · refine load_store_of_disjoint (Set.disjoint_left.mpr fun b hb hb' => ?_)
    rw [mem_bytesAt] at hb hb'
    bv_omega

theorem copy_of_notMem (h : b ∉ bytesAt dst n) : f.copy dst src n b = f b := if_neg h

/-- **The copy of a range holds what the range held.** -/
theorem load_copy (h : i + 8 ≤ n) (hn : n ≤ 2 ^ 64) :
    (f.copy dst src n).load (dst + .ofNat 64 i) = f.load (src + .ofNat 64 i) := by
  have hval : (f.copy dst src n).value (dst + .ofNat 64 i) 8 = f.value (src + .ofNat 64 i) 8 :=
    value_congr fun j hj => by
      have hoff : (dst + .ofNat 64 i + .ofNat 64 j - dst).toNat = i + j := by bv_omega
      have hsrc : src + (dst + .ofNat 64 i + .ofNat 64 j - dst) =
          src + .ofNat 64 i + .ofNat 64 j := by bv_omega
      rw [copy, hoff, if_pos (by omega), hsrc]
  rw [load, load, hval]

/-! ### A stack -/

/-- Pushing changes what is below the stack pointer, and nothing else. -/
theorem pushAll_of_notMem (hlen : 8 * vs.length ≤ 2 ^ 64)
    (hb : b ∉ bytesAt (sp - .ofNat 64 (8 * vs.length)) (8 * vs.length)) :
    f.pushAll sp vs b = f b := by
  induction vs generalizing f sp with
  | nil => rfl
  | cons v vs ih =>
    rw [List.length_cons, Nat.mul_succ] at hlen hb
    have hfirst : b ∉ bytesAt (sp - 8) 8 := by
      rw [mem_bytesAt] at hb ⊢
      bv_omega
    rw [pushAll, ih (by omega) fun h => hb (bytesAt_below_subset le_rfl hlen h), store_of_notMem hfirst]

/-- **Every quadword that was pushed is found on the stack**, the last one at its top. -/
theorem load_pushAll (hlen : 8 * vs.length ≤ 2 ^ 64) (hi : i < vs.length) :
    (f.pushAll sp vs).load (sp - .ofNat 64 (8 * (i + 1))) = vs[i] := by
  induction vs generalizing f sp i with
  | nil => cases hi
  | cons v vs ih =>
    rw [List.length_cons] at hlen hi
    rw [pushAll]
    cases i with
    | zero =>
      have hkept : ∀ c ∈ bytesAt (sp - 8) 8,
          (f.store (sp - 8) v).pushAll (sp - 8) vs c = f.store (sp - 8) v c := fun c hc =>
        pushAll_of_notMem (by omega) (by rw [mem_bytesAt] at hc ⊢; bv_omega)
      exact (load_congr hkept).trans (load_store _ _ _)
    | succ i =>
      have haddr : sp - .ofNat 64 (8 * (i + 1 + 1)) = sp - 8 - .ofNat 64 (8 * (i + 1)) := by
        bv_omega
      rw [haddr, ih (by omega) (by omega), List.getElem_cons_succ]

/-- Reading the stack upwards from its top. -/
theorem load_pushAll_top (hlen : 8 * vs.length ≤ 2 ^ 64) (hi : i < vs.length) :
    (f.pushAll sp vs).load (sp - .ofNat 64 (8 * vs.length) + .ofNat 64 (8 * i)) =
      vs.reverse.getD i 0 := by
  have haddr : sp - .ofNat 64 (8 * vs.length) + .ofNat 64 (8 * i) =
      sp - .ofNat 64 (8 * (vs.length - 1 - i + 1)) := by bv_omega
  rw [haddr, load_pushAll hlen (by omega), List.getD_eq_getElem?_getD,
    List.getElem?_eq_getElem (by rwa [List.length_reverse]), Option.getD_some, List.getElem_reverse]

end Memory

end GoofyOs
