import Mathlib.Algebra.Group.Nat.Defs
import Mathlib.Data.List.Basic
import Mathlib.Data.List.Find
import Mathlib.Logic.Function.Basic

/-!
# The hash map of `dsa/hashmap.c`

An array of buckets, each a list of entries. `hmap_add` appends to a bucket and `hmap_lookup`
returns the first entry of the bucket with the key, so the entry that was added first wins.

Keys are compared byte by byte, and have the same bytes only if they are the same.

## Main definitions

* `Hashmap`, `HashmapEntry` — the table
* `fnvaHash` — the hash of a key's bytes
* `Hashmap.hmapAdd`, `Hashmap.hmapLookup`, `Hashmap.hmapRemove`, `Hashmap.hmapResize` — the functions
  of the source
* `Hashmap.Refines` — the table stands for an association list

## Main results

* `Hashmap.hmapAdd_eq` — the table is never resized, as `hmap_add` does not count
* `Hashmap.hmapLookup_push` — lookup after an insertion
* `Hashmap.Refines.hmapLookup`, `Hashmap.Refines.push`, `Hashmap.Refines.hmapRemove` — the functions on
  the association list
-/

namespace GoofyOs

/-- The bytes of a key. -/
class HashKey (κ : Type) where
  bytes : κ → List UInt8

def fnvPrime : BitVec 64 := 0x00000100000001b3
def fnvOffset : BitVec 64 := 0xcbf29ce484222325

/-- `fnva_hash`. A `char` is signed. -/
def fnvaHash (data : List UInt8) : BitVec 64 :=
  data.foldl (fun hash c => (hash ^^^ c.toBitVec.signExtend 64) * fnvPrime) fnvOffset

/-- The eight bytes of a `long`. -/
def longBytes (n : ℕ) : List UInt8 :=
  (List.range 8).map fun i => UInt8.ofNat (n / 256 ^ i)

/-- `struct hashmap_entry`. -/
structure HashmapEntry (κ ν : Type) where
  hash : BitVec 64
  key : κ
  value : ν

/-- `struct hashmap`, with the function `fnva_hash`. -/
structure Hashmap (κ ν : Type) where
  size : ℕ
  count : ℕ
  buf : ℕ → List (HashmapEntry κ ν)

namespace Hashmap

variable {κ ν : Type} (h : Hashmap κ ν)

/-- `hmap_init`: one page of buckets. -/
def hmapInit : Hashmap κ ν := ⟨0x1000 / 24, 0, fun _ => []⟩

/-- `hmap_resize`. It takes the value that `dlist_back_pop` returns for a list node, so that an entry
to move makes it read the hash of the entry as a pointer. -/
def hmapResize : Option (Hashmap κ ν) :=
  if ∀ i < h.size, (h.buf i).isEmpty then some { h with size := h.size * 2, buf := fun _ => [] }
  else none

/-- Nothing was counted, and there are buckets. -/
def Fixed (h : Hashmap κ ν) : Prop := h.count = 0 ∧ 0 < h.size

theorem fixed_hmapInit : (hmapInit : Hashmap κ ν).Fixed := ⟨rfl, show 0 < 170 by decide⟩

variable [HashKey κ] [DecidableEq κ]

/-- The bucket of a key. -/
def slot (key : κ) : ℕ := (fnvaHash (HashKey.bytes key)).toNat % h.size

/-- Appending an entry to its bucket. -/
def push (key : κ) (value : ν) : Hashmap κ ν :=
  let bucket := h.buf (h.slot key) ++ [⟨fnvaHash (HashKey.bytes key), key, value⟩]
  { h with buf := Function.update h.buf (h.slot key) bucket }

/-- `hmap_add`. -/
def hmapAdd (key : κ) (value : ν) : Option (Hashmap κ ν) :=
  if h.count ≥ h.size then (h.hmapResize).map fun h => h.push key value
  else some (h.push key value)

/-- `hmap_lookup`. -/
def hmapLookup (key : κ) : Option ν :=
  ((h.buf (h.slot key)).find? fun ent => ent.key = key).map HashmapEntry.value

/-- `hmap_remove`: the entry that `hmap_lookup` finds is taken out of its bucket. -/
def hmapRemove (key : κ) : Hashmap κ ν :=
  let bucket := (h.buf (h.slot key)).eraseP fun ent => ent.key = key
  { h with buf := Function.update h.buf (h.slot key) bucket }

variable {h} {key key' : κ} {value : ν}

omit [DecidableEq κ] in
/-- `hmap_add` does not resize. -/
theorem Fixed.hmapAdd_eq (hf : h.Fixed) : h.hmapAdd key value = some (h.push key value) := by
  rw [hmapAdd, if_neg]
  have := hf.1
  have := hf.2
  omega

@[simp] theorem hmapLookup_hmapInit : (hmapInit : Hashmap κ ν).hmapLookup key = none := rfl

omit [DecidableEq κ] in
theorem buf_push (i : ℕ) : (h.push key value).buf i =
    if i = h.slot key then
      h.buf (h.slot key) ++ [⟨fnvaHash (HashKey.bytes key), key, value⟩]
    else h.buf i :=
  Function.update_apply _ _ _ _

/-- **Lookup after an insertion**: the new value is found under its key, unless there was one
before. -/
theorem hmapLookup_push : (h.push key value).hmapLookup key' =
    (h.hmapLookup key').or (if key' = key then some value else none) := by
  have hslot : (h.push key value).slot key' = h.slot key' := rfl
  rw [hmapLookup, hslot, buf_push, hmapLookup]
  by_cases hkey : key' = key
  · subst hkey
    rw [if_pos rfl, if_pos rfl, List.find?_append]
    cases (h.buf (h.slot key')).find? fun ent => ent.key = key' with
    | none => simp
    | some ent => rfl
  · rw [if_neg hkey, Option.or_none]
    split
    · next hslot =>
      rw [hslot, List.find?_append]
      cases (h.buf (h.slot key)).find? fun ent => ent.key = key' with
      | none => simp [Ne.symm hkey]
      | some ent => rfl
    · rfl

/-! ### Association lists -/

/-- What the key `key` is associated with first. -/
def assocLookup (as : List (κ × ν)) (key : κ) : Option ν :=
  (as.find? fun a => a.1 = key).map Prod.snd

/-- The list without the first entry of a key. -/
def assocRemove (as : List (κ × ν)) (key : κ) : List (κ × ν) := as.eraseP fun a => a.1 = key

omit [HashKey κ] in
/-- Removing an entry does not change what other keys are associated with. -/
theorem assocLookup_assocRemove {as : List (κ × ν)} (hne : key' ≠ key) :
    assocLookup (assocRemove as key) key' = assocLookup as key' := by
  induction as with
  | nil => rfl
  | cons a as ih =>
    by_cases ha : a.1 = key
    · have ha' : ¬ a.1 = key' := fun h' => hne (h'.symm.trans ha)
      rw [assocRemove, List.eraseP_cons_of_pos (by simpa using ha), assocLookup, assocLookup,
        List.find?_cons_of_neg (by simpa using ha')]
    · rw [assocRemove, List.eraseP_cons_of_neg (by simpa using ha), assocLookup, assocLookup,
        List.find?_cons, List.find?_cons]
      cases (decide (a.1 = key')) with
      | true => rfl
      | false => exact ih

omit [HashKey κ] in
theorem assocLookup_append_of_ne {as : List (κ × ν)} (hne : key' ≠ key) :
    assocLookup (as ++ [(key, value)]) key' = assocLookup as key' := by
  have hlast : ¬ key = key' := Ne.symm hne
  rw [assocLookup, List.find?_append, List.find?_cons_of_neg (by simpa using hlast), List.find?_nil,
    Option.or_none, assocLookup]

/-- The entry of a bucket. -/
def entryOf (a : κ × ν) : HashmapEntry κ ν := ⟨fnvaHash (HashKey.bytes a.1), a.1, a.2⟩

/-- The buckets hold the associations `as`, each bucket those of its keys in the order in which they
were added. -/
structure Refines (h : Hashmap κ ν) (as : List (κ × ν)) : Prop where
  fixed : h.Fixed
  buf : ∀ i, h.buf i = (as.filter fun a => h.slot a.1 = i).map entryOf

variable {as : List (κ × ν)}

omit [DecidableEq κ] in
theorem refines_hmapInit : (hmapInit : Hashmap κ ν).Refines [] := ⟨fixed_hmapInit, fun _ => rfl⟩

/-- **Lookup** finds what was associated first. -/
theorem Refines.hmapLookup (hr : h.Refines as) (key : κ) :
    h.hmapLookup key = assocLookup as key := by
  rw [Hashmap.hmapLookup, hr.buf, List.find?_map, List.find?_filter, Option.map_map, assocLookup]
  refine congrArg _ (List.find?_congr fun a _ => ?_)
  by_cases ha : a.1 = key
  · simp [entryOf, ha]
  · simp [entryOf, ha]

omit [DecidableEq κ] in
/-- **Insertion** adds an association. -/
theorem Refines.push (hr : h.Refines as) (key : κ) (value : ν) :
    (h.push key value).Refines (as ++ [(key, value)]) where
  fixed := hr.fixed
  buf i := by
    show (h.push key value).buf i = (List.filter (fun a => h.slot a.1 = i) _).map entryOf
    rw [buf_push, List.filter_append, List.map_append, ← hr.buf i]
    by_cases hi : i = h.slot key
    · subst hi
      rw [if_pos rfl, List.filter_cons_of_pos (by simp)]
      rfl
    · rw [if_neg hi, List.filter_cons_of_neg (by simpa using Ne.symm hi)]
      simp

omit [HashKey κ] [DecidableEq κ] in
theorem filter_eraseP {p q : κ × ν → Bool} (h : ∀ a, p a = true → ¬ q a = true) :
    (as.eraseP p).filter q = as.filter q := by
  induction as with
  | nil => rfl
  | cons a as ih =>
    by_cases ha : p a
    · rw [List.eraseP_cons_of_pos ha, List.filter_cons_of_neg (h a ha)]
    · rw [List.eraseP_cons_of_neg ha, List.filter_cons, List.filter_cons, ih]

/-- **Removal** takes the first association of the key away. -/
theorem Refines.hmapRemove (hr : h.Refines as) (key : κ) :
    (h.hmapRemove key).Refines (assocRemove as key) where
  fixed := hr.fixed
  buf i := by
    show Function.update h.buf (h.slot key) _ i =
      (List.filter (fun a => h.slot a.1 = i) _).map entryOf
    rw [Function.update_apply, assocRemove]
    by_cases hi : i = h.slot key
    · subst hi
      have hpred : (fun a : κ × ν => decide ((entryOf a).key = key) && decide (h.slot a.1 = h.slot key)) =
          fun a => decide (a.1 = key) := by
        funext a
        by_cases ha : a.1 = key
        · simp [entryOf, ha]
        · simp [entryOf, ha]
      rw [if_pos rfl, hr.buf, List.eraseP_map, List.eraseP_filter]
      exact congrArg (fun p => ((as.eraseP p).filter _).map entryOf) hpred
    · rw [if_neg hi, hr.buf, filter_eraseP]
      intro a ha hslot
      simp only [decide_eq_true_eq] at ha hslot
      exact hi (hslot ▸ ha ▸ rfl)

end Hashmap

end GoofyOs
