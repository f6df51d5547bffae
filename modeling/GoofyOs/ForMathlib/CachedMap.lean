import Mathlib.Logic.Function.Basic

/-!
# Maps that readers remember parts of

A map changes now and then, and several readers remember values that they found in it. What a reader
sees is what it remembers, and otherwise what the map says. A writer makes itself forget what it
overwrites, and nobody else.

## Main definitions

* `CachedMap` — a map and the caches of its readers
* `CachedMap.Coherent` — what is remembered is still so
* `CachedMap.flush`, `CachedMap.load`, `CachedMap.evict`, `CachedMap.write` — the steps

## Main results

* `CachedMap.coherent_iff` — everybody sees the map
* `CachedMap.coherent_write_iff` — a write keeps this if and only if no other reader remembers
  something else
-/

namespace GoofyOs

/-- A map, and what each reader remembers of it. -/
structure CachedMap (ι κ α : Type*) where
  map : κ → Option α
  cache : ι → κ → Option α

namespace CachedMap

variable {ι κ α : Type*} (s : CachedMap ι κ α) (i : ι) (k : κ)

/-- What a reader sees. -/
def read : Option α := (s.cache i k).or (s.map k)

/-- What is remembered is still so. -/
def Coherent : Prop := ∀ i k x, s.cache i k = some x → s.map k = some x

variable {s i k}

theorem read_of_none (h : s.cache i k = none) : s.read i k = s.map k := by
  rw [read, h, Option.none_or]

theorem read_of_some {x : α} (h : s.cache i k = some x) : s.read i k = some x := by
  rw [read, h, Option.some_or]

/-- **Everybody sees the map.** -/
theorem coherent_iff : s.Coherent ↔ ∀ i k, s.read i k = s.map k := by
  constructor
  · intro h i k
    cases hc : s.cache i k with
    | none => exact read_of_none hc
    | some x => rw [read_of_some hc, h i k x hc]
  · intro h i k x hc
    rw [← h i k, read_of_some hc]

section Flush

variable [DecidableEq ι] (s i)

/-- A reader forgets everything. -/
def flush : CachedMap ι κ α := { s with cache := Function.update s.cache i fun _ => none }

variable {s}

theorem Coherent.flush (h : s.Coherent) (i : ι) : (s.flush i).Coherent := by
  intro j l x hx
  change Function.update s.cache i (fun _ => none) j l = some x at hx
  by_cases hj : j = i
  · subst hj
    rw [Function.update_self] at hx
    exact absurd hx (by simp)
  · rw [Function.update_of_ne hj] at hx
    exact h j l x hx

end Flush

variable [DecidableEq ι] [DecidableEq κ] (s i k)

/-- A reader remembers what the map says. -/
def load : CachedMap ι κ α :=
  { s with cache := Function.update s.cache i (Function.update (s.cache i) k (s.map k)) }

/-- A reader forgets a value. -/
def evict : CachedMap ι κ α :=
  { s with cache := Function.update s.cache i (Function.update (s.cache i) k none) }

/-- The map changes, and the writer forgets the old value. -/
def write (x : Option α) : CachedMap ι κ α :=
  evict { s with map := Function.update s.map k x } i k

variable {s i k}

theorem map_write (x : Option α) : (s.write i k x).map = Function.update s.map k x := rfl

theorem cache_evict (j : ι) (l : κ) :
    (s.evict i k).cache j l = if j = i ∧ l = k then none else s.cache j l := by
  show Function.update s.cache i (Function.update (s.cache i) k none) j l = _
  by_cases hj : j = i
  · subst hj
    by_cases hl : l = k
    · subst hl
      rw [Function.update_self, Function.update_self, if_pos ⟨rfl, rfl⟩]
    · rw [Function.update_self, Function.update_of_ne hl, if_neg fun h => hl h.2]
  · rw [Function.update_of_ne hj, if_neg fun h => hj h.1]

theorem Coherent.load (h : s.Coherent) (i : ι) (k : κ) : (s.load i k).Coherent := by
  intro j l x hx
  change Function.update s.cache i (Function.update (s.cache i) k (s.map k)) j l = some x at hx
  by_cases hj : j = i
  · subst hj
    rw [Function.update_self] at hx
    by_cases hl : l = k
    · subst hl
      rwa [Function.update_self] at hx
    · rw [Function.update_of_ne hl] at hx
      exact h j l x hx
  · rw [Function.update_of_ne hj] at hx
    exact h j l x hx

theorem Coherent.evict (h : s.Coherent) (i : ι) (k : κ) : (s.evict i k).Coherent := by
  intro j l x hx
  rw [cache_evict] at hx
  split at hx
  · exact absurd hx (by simp)
  · exact h j l x hx

/-- **A write** is seen by all if and only if no other reader remembers something else. -/
theorem coherent_write_iff (h : s.Coherent) (x : Option α) :
    (s.write i k x).Coherent ↔ ∀ j ≠ i, ∀ y, s.cache j k = some y → x = some y := by
  have hcache : ∀ j l, (s.write i k x).cache j l = if j = i ∧ l = k then none else s.cache j l :=
    fun j l => cache_evict j l
  constructor
  · intro hw j hj y hy
    have hnew := hw j k y ((hcache j k).trans ((if_neg fun hk => hj hk.1).trans hy))
    rw [map_write, Function.update_self] at hnew
    exact hnew
  · intro hall j l y hy
    rw [hcache] at hy
    rw [map_write]
    split at hy
    · exact absurd hy (by simp)
    · next hne =>
      by_cases hl : l = k
      · subst hl
        rw [Function.update_self]
        exact hall j (fun hj => hne ⟨hj, rfl⟩) y hy
      · rw [Function.update_of_ne hl]
        exact h j l y hy

end CachedMap

end GoofyOs
