import GoofyOs.VfsRun

/-!
# Entries of regular files

Neither `vfs.c` nor `tmpfs.c` asks whether the parent of a new file is a directory: callers are
trusted to name one. What follows if they do, and if they do not.

## Main definitions

* `VfsState.OnlyDirs` — only directories have entries
* `VfsSys.DirParent` — a call that adds something adds it to a directory

## Main results

* `onlyDirs_reached_iff` — only directories have entries just when every call adds to directories
* `not_onlyDirs_reached` — a run after which a regular file has an entry
-/

namespace GoofyOs

open Proc PathWalk VfsState VfsSys

/-- The mode that the vnodes of an inode have. `tmpfs_mount` gives the one of the root. -/
def VfsState.vnodeMode (i : ℕ) (x : TmpfsInode) : BitVec 16 :=
  if i = 0 then sIfdir ||| 0x1ff else x.mode

/-- Only directories have entries. -/
def VfsState.OnlyDirs (s : VfsState) : Prop :=
  ∀ (i : ℕ) (x : TmpfsInode), s.inodes[i]? = some x → x.children ≠ [] →
    sIsdir (vnodeMode i x) = true

/-- If the call adds an inode, it adds it under a directory. -/
def VfsSys.DirParent (t : VfsSys) (c : VfsCall) : Prop :=
  ∀ p name, t.AddsUnder p name c → ∀ x : TmpfsInode, t.fs.inodes[p]? = some x →
    sIsdir (vnodeMode p x) = true

variable {vmalloc : VfsState → ℕ → List UInt8} {t t' : VfsSys} {s s' : VfsState} {c : VfsCall}
  {cs : List VfsCall}

/-- **One call.** Only directories have entries afterwards just when this was so before, and the call
added to a directory. -/
theorem VfsSys.Did.onlyDirs_iff (h : Did t c s') :
    s'.OnlyDirs ↔ t.fs.OnlyDirs ∧ t.DirParent c := by
  cases h with
  | grows h _ hno =>
    have hdir : t.DirParent c := fun p name hadds => (hno p name hadds).elim
    rw [OnlyDirs, h.inodes]
    exact ⟨fun hd => ⟨hd, hdir⟩, And.left⟩
  | written h hno =>
    have hdir : t.DirParent c := fun p name hadds => (hno p name hadds).elim
    constructor
    · intro hd
      refine ⟨fun i x hx hne => ?_, hdir⟩
      obtain ⟨z, hz, -, hchildren, -, hmode⟩ := h.old hx
      have := hd i z hz (hchildren ▸ hne)
      rwa [vnodeMode, hmode] at this
    · rintro ⟨hd, -⟩ i z hz hne
      obtain ⟨x, hx, -, hchildren, -, hmode⟩ := h.cases hz
      have := hd i x hx (hchildren ▸ hne)
      rwa [vnodeMode, ← hmode] at this
  | @added s₁ p name mode hgrow h₁ hp hadds habs hmode h =>
    have hmode' : ∀ {i : ℕ} {x₀ : TmpfsInode}, vnodeMode i (if i = p then
        { x₀ with children := x₀.children ++ [s₁.inodes.length] } else x₀) = vnodeMode i x₀ := by
      intro i x₀
      split
      · rfl
      · rfl
    constructor
    · intro hd
      refine ⟨fun i x hx hne => ?_, fun p' name' hadds' x hx => ?_⟩
      · rw [← hgrow.inodes] at hx
        have := hd i _ (h.old hx) (by split <;> simp [hne])
        rwa [hmode'] at this
      · obtain rfl := hadds.unique hadds'
        rw [← hgrow.inodes] at hx
        have := hd p _ (h.old hx) (by simp)
        rwa [hmode'] at this
    · rintro ⟨hd, hdir⟩ i z hz hne
      rcases h.cases hz with ⟨rfl, rfl⟩ | ⟨x₀, hx₀, rfl⟩
      · exact absurd rfl hne
      · rw [hmode']
        rw [hgrow.inodes] at hx₀
        by_cases hip : i = p
        · subst hip
          exact hdir i name hadds x₀ hx₀
        · rw [if_neg hip] at hne
          exact hd i x₀ hx₀ hne

theorem onlyDirs_initVfs : initVfs.OnlyDirs := by
  intro i x hx hne
  obtain ⟨rfl, rfl⟩ := inodes_initVfs hx
  exact absurd rfl hne

/-- A run from any state with the invariant. -/
theorem VfsSys.SysInv.onlyDirs_run (hv : ∀ s n, (vmalloc s n).length = n) (ht : t.SysInv)
    (h : Run (exec vmalloc) Allowed t cs t') :
    (t'.fs.OnlyDirs → t.fs.OnlyDirs) ∧ (t.fs.OnlyDirs → (t'.fs.OnlyDirs ↔
      Run (exec vmalloc) (fun t c => t.Allowed c ∧ t.DirParent c) t cs t')) := by
  induction h with
  | nil t => exact ⟨fun hd => hd, fun hd => ⟨fun _ => .nil t, fun _ => hd⟩⟩
  | cons ha hc hr ih =>
    obtain ⟨hdid, ht₁⟩ := exec_cases hv ht ha hc
    obtain ⟨hback, hiff⟩ := ih ht₁
    refine ⟨fun hd' => (hdid.onlyDirs_iff.mp (hback hd')).1, fun hd => ⟨fun hd' => ?_, fun hr' => ?_⟩⟩
    · -- once a regular file has an entry, it keeps it
      have hmid := hback hd'
      exact .cons ⟨ha, (hdid.onlyDirs_iff.mp hmid).2⟩ hc ((hiff hmid).mp hd')
    · obtain ⟨⟨-, hdir⟩, s', hc', hr'⟩ := Run.cons_iff.mp hr'
      obtain rfl := Option.some.inj (hc.symm.trans hc')
      exact (hiff (hdid.onlyDirs_iff.mpr ⟨hd, hdir⟩)).mpr hr'

/-- **A run.** Only directories have entries in the state that is reached just when every call added
to a directory. -/
theorem onlyDirs_reached_iff (hv : ∀ s n, (vmalloc s n).length = n)
    (h : Reached vmalloc cs t) :
    t.fs.OnlyDirs ↔
      Run (exec vmalloc) (fun t c => t.Allowed c ∧ t.DirParent c) ⟨initVfs, []⟩ cs t :=
  ((Reached.sysInv hv (.nil _)).onlyDirs_run hv h).2 onlyDirs_initVfs

theorem onlyDirs_sampleCalls : ∃ t, Reached vzeroed sampleCalls t ∧ (t.fs.OnlyDirs ↔
    Run (exec vzeroed) (fun t c => t.Allowed c ∧ t.DirParent c) ⟨initVfs, []⟩ sampleCalls t) := by
  obtain ⟨t, ht, -⟩ := reached_sampleCalls
  exact ⟨t, ht, onlyDirs_reached_iff length_vzeroed ht⟩

/-- After `vfs_create("/f")` and `vfs_create("/f/g")` a regular file has an entry, and the path
`/f/g` resolves through it. -/
theorem not_onlyDirs_reached : ∃ t, Reached vzeroed
    [.vfsCreate [47, 102] none 0, .vfsCreate [47, 102, 47, 103] none 0] t ∧
    (∃ (i : ℕ) (x : TmpfsInode), t.fs.inodes[i]? = some x ∧ x.children ≠ [] ∧
      sIsreg x.mode = true ∧ sIsdir x.mode = false) ∧
    (opened [47, 102] none t.fs).map Prod.fst = some (.ok 1) ∧
    (opened [47, 102, 47, 103] none t.fs).map Prod.fst = some (.ok 2) := by
  let calls : List VfsCall := [.vfsCreate [47, 102] none 0, .vfsCreate [47, 102, 47, 103] none 0]
  have hcheck : ((Run.check (exec vzeroed) Allowed ⟨initVfs, []⟩ calls).map fun t =>
      ((t.fs.inodes[1]?).map fun x => (x.children, sIsreg x.mode, sIsdir x.mode),
        (opened [47, 102] none t.fs).map Prod.fst,
        (opened [47, 102, 47, 103] none t.fs).map Prod.fst)) =
      some (some ([2], true, false), some (.ok 1), some (.ok 2)) := by decide +kernel
  obtain ⟨t, ht, heq⟩ := Option.map_eq_some_iff.mp hcheck
  obtain ⟨hx, hopen, hopen'⟩ : _ ∧ _ ∧ _ := by simpa only [Prod.mk.injEq] using heq
  obtain ⟨x, hx, hx'⟩ := Option.map_eq_some_iff.mp hx
  obtain ⟨hchildren, hreg, hdir⟩ : _ ∧ _ ∧ _ := by simpa only [Prod.mk.injEq] using hx'
  have hne : x.children ≠ [] := by
    rw [hchildren]
    exact List.cons_ne_nil _ _
  exact ⟨t, Run.of_check ht, ⟨1, x, hx, hne, hreg, hdir⟩, hopen, hopen'⟩

end GoofyOs
