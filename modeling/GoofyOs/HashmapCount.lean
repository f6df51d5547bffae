import GoofyOs.HashmapResize

/-!
# Counting the entries of the hash map of `dsa/hashmap.c`

`hmap_add` resizes the table when the count reaches the number of buckets, but nothing ever counts:
the table keeps the buckets of `hmap_init`, however many entries they hold.

## Main definitions

* `LoadKept` — the count is that of the entries, and they are not more than the buckets

## Main results

* `HmapSys.Holds.size_exec` — no call changes the number of buckets
* `hmap_count_iff` — the count is right just while nothing was added
-/

namespace GoofyOs

open LinkedList HmapState

variable {s : HmapState} {fuel : ℕ} {calls : List HmapCall} {sys : HmapSys}

/-- The call is `hmap_add`. -/
def HmapCall.IsAdd : HmapCall → Prop
  | add .. => True
  | lookup .. | remove .. | write .. => False

/-- The count is the number of entries, and after `hmap_add` there are not more of them than
buckets. -/
def LoadKept (calls : List HmapCall) (s : HmapState) : Prop :=
  s.count = s.storedEntries.length ∧
    ∀ c, calls.getLast? = some c → c.IsAdd → s.storedEntries.length ≤ s.size

variable {sys' : HmapSys} {call : HmapCall} {n : ℕ}

/-- No call changes the number of buckets. -/
theorem HmapSys.Holds.size_exec (hs : sys.Holds n) (hn : n < fuel) (hok : sys.Allowed call)
    (hexec : sys.exec fuel call = some sys') : sys'.st.size = sys.st.size := by
  obtain ⟨L, h, hr, href, hlen⟩ := hs
  cases call with
  | add key size value newEnt newNode =>
    obtain ⟨s₁, hadd, rfl⟩ := Option.map_eq_some_iff.mp hexec
    obtain rfl := Option.some.inj ((hr.hmapAdd_eq href.fixed).symm.trans hadd)
    rfl
  | lookup key size =>
    obtain ⟨-, -, rfl⟩ := Option.map_eq_some_iff.mp hexec
    rfl
  | remove key size =>
    obtain ⟨s₁, hremove, rfl⟩ := Option.map_eq_some_iff.mp hexec
    obtain ⟨s₂, L', hremove', hr', -, -⟩ :=
      hr.hmapRemove key hok (Nat.lt_of_le_of_lt (hlen _) hn)
    obtain rfl := Option.some.inj (hremove'.symm.trans hremove)
    exact hr'.size.symm.trans hr.size
  | write mem =>
    obtain rfl := Option.some.inj hexec
    rfl

/-- What is there after a run: nothing was counted, and there are as many buckets as at the start.
-/
theorem HmapSys.Holds.size_run (hs : sys.Holds n)
    (hrun : Run (HmapSys.exec fuel) HmapSys.Allowed sys calls sys')
    (hfuel : n + calls.length < fuel) :
    sys'.st.size = sys.st.size := by
  induction hrun generalizing n with
  | nil => rfl
  | cons hok hstep _ ih =>
    rw [List.length_cons] at hfuel
    have hn : n < fuel := by omega
    obtain ⟨sys₁, hexec, hs₁⟩ := hs.exec hn hok
    obtain rfl := Option.some.inj (hexec.symm.trans hstep)
    rw [ih hs₁ (by omega), hs.size_exec hn hok hstep]

/-- Without `hmap_add`, there are no entries. -/
theorem entries_of_not_isAdd (hrun : Run (HmapSys.exec fuel) HmapSys.Allowed sys calls sys')
    (hadd : ∀ c ∈ calls, ¬ c.IsAdd) (hs : sys.entries = []) : sys'.entries = [] := by
  induction hrun with
  | nil => exact hs
  | @cons sys sys₁ _ call _ _ hstep _ ih =>
    obtain ⟨hcall, hadd⟩ := List.forall_mem_cons.mp hadd
    refine ih hadd ?_
    cases call with
    | add key size value newEnt newNode => exact absurd trivial hcall
    | lookup key size =>
      obtain ⟨-, -, rfl⟩ := Option.map_eq_some_iff.mp hstep
      exact hs
    | remove key size =>
      obtain ⟨s₁, -, rfl⟩ := Option.map_eq_some_iff.mp hstep
      show Hashmap.assocRemove sys.entries _ = []
      rw [hs]
      rfl
    | write mem =>
      obtain rfl := Option.some.inj hstep
      exact hs

/-- After a run from `hmap_init`, the count is 0, there are 170 buckets, and they hold the entries
of the association list. -/
theorem count_of_run (hfuel : calls.length + 1 < fuel)
    (hrun : Run (HmapSys.exec fuel) HmapSys.Allowed ⟨s.hmapInit, []⟩ calls sys) :
    sys.st.count = 0 ∧ sys.st.size = 170 ∧ sys.st.storedEntries.length = sys.entries.length := by
  have hs := HmapSys.holds_hmapInit s
  have hsize := hs.size_run hrun (by omega)
  obtain ⟨L, h, hr, href, -⟩ := hs.run hrun (by omega)
  exact ⟨hr.count.symm.trans href.fixed.1, hsize, hr.length_stored href⟩

/-- **Counting** in every run of `hmap_add`, `hmap_lookup` and `hmap_remove` after `hmap_init`: the
count is 0 and there are 170 buckets, and the count is the number of entries in every state just
when nothing is ever added. -/
theorem hmap_count_iff (hfuel : calls.length + 1 < fuel)
    (hrun : Run (HmapSys.exec fuel) HmapSys.Allowed ⟨s.hmapInit, []⟩ calls sys) :
    ((∀ pre post mid, calls = pre ++ post →
        Run (HmapSys.exec fuel) HmapSys.Allowed ⟨s.hmapInit, []⟩ pre mid → LoadKept pre mid.st) ↔
      ∀ c ∈ calls, ¬ c.IsAdd) ∧
    sys.st.count = 0 ∧ sys.st.size = 170 ∧ sys.st.storedEntries.length = sys.entries.length := by
  refine ⟨⟨fun hkept c hc hadd => ?_, fun hadd pre post mid hcalls hmid => ?_⟩,
    count_of_run hfuel hrun⟩
  · -- the state after the call has an entry
    obtain ⟨pre, post, rfl⟩ := List.append_of_mem hc
    have hsplit : pre ++ c :: post = (pre ++ [c]) ++ post := by simp
    rw [hsplit] at hrun hfuel
    obtain ⟨mid, hmid, -⟩ := Run.append_iff.mp hrun
    rw [List.length_append] at hfuel
    obtain ⟨hcount, -, hlen⟩ := count_of_run (by omega) hmid
    have hkept := (hkept (pre ++ [c]) post mid hsplit hmid).1
    obtain ⟨sys₁, -, hlast⟩ := Run.append_iff.mp hmid
    obtain ⟨-, mid', hstep, hnil⟩ := Run.cons_iff.mp hlast
    obtain rfl : mid' = mid := by
      cases hnil
      rfl
    cases c with
    | add key size value newEnt newNode =>
      obtain ⟨s₁, -, rfl⟩ := Option.map_eq_some_iff.mp hstep
      rw [List.length_append, List.length_singleton] at hlen
      omega
    | lookup key size => exact hadd
    | remove key size => exact hadd
    | write mem => exact hadd
  · have hnone : ∀ c ∈ pre, ¬ c.IsAdd := fun c hc => hadd c (hcalls ▸ List.mem_append_left _ hc)
    rw [hcalls, List.length_append] at hfuel
    obtain ⟨hcount, -, hlen⟩ := count_of_run (by omega) hmid
    rw [entries_of_not_isAdd hmid hnone rfl] at hlen
    exact ⟨hcount.trans hlen.symm, fun c hc hc' => absurd hc' (hnone c (List.mem_of_getLast? hc))⟩

/-- Nothing was counted after two additions. -/
theorem hmap_count_iff_equalKeys : equalKeysAdded.count = 0 ∧ equalKeysAdded.size = 170 ∧
    equalKeysAdded.storedEntries.length = 2 :=
  (hmap_count_iff (by decide) equalKeys_run).2

theorem not_loadKept_equalKeys :
    Run (HmapSys.exec 4) HmapSys.Allowed ⟨equalKeys.hmapInit, []⟩
      [.add 0 1 (some 7) 0 0, .add 1 1 (some 8) 1 1]
      ⟨equalKeysAdded, [([1], some 7), ([1], some 8)]⟩ ∧
    ¬ LoadKept [.add 0 1 (some 7) 0 0, .add 1 1 (some 8) 1 1] equalKeysAdded := by
  refine ⟨equalKeys_run, fun hkept => ?_⟩
  obtain ⟨hcount, -, hlen⟩ := count_of_run (by decide) equalKeys_run
  have hzero : 0 = 2 := hcount.symm.trans (hkept.1.trans hlen)
  exact absurd hzero (by decide)

end GoofyOs
