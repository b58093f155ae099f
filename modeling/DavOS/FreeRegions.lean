import DavOS.HalfOpen
import DavOS.PagingInit

/-! `paging_get_initial_free_regions`: the virtual memory that a heap may manage
is what lies between the ranges that are in use or cannot be addressed. -/
namespace DavOS
open MachineWord HalfOpen

/-! ### The code -/

/-- `unavailable_virtual_memory_ranges`: what the initial mappings cover, and the
addresses that are not canonical. -/
def unavailableVirtualMemoryRanges (offset : Nat) (image : KernelImage) : List MemoryRegion :=
  let used := (initialMappings offset image).map Mapping.fromVirtual
  used.take 1 ++ [⟨0x800000000000, 0xffff000000000000⟩] ++ used.drop 1

/-- The locals of the loop: the array and what lies behind it, the next slot,
and the end of what has been swept. -/
structure FreeRegionSweep where
  freeRegions : Nat → MemoryRegion
  i : Nat
  base : Nat

abbrev pagingNumFreeMemoryRegions : Nat := 16

/-- The body of the loop. Its test lets slot 16 pass, which is outside of the array. -/
def freeRegionStep (sweep : FreeRegionSweep) (unavailable : MemoryRegion) : Except Stop FreeRegionSweep :=
  let unavailableEnd := wrap (unavailable.base + unavailable.size)
  if unavailable.base ≤ sweep.base then
    .ok { sweep with base := max sweep.base unavailableEnd }
  else if pagingNumFreeMemoryRegions < sweep.i then
    .error (.panic "exceeded number of supported free regions (16)\n")
  else
    .ok
      { freeRegions := Function.update sweep.freeRegions sweep.i ⟨sweep.base, wrapSub unavailable.base sweep.base⟩
        i := sweep.i + 1
        base := unavailableEnd }

/-- The array that the function returns; slots that the loop does not fill are empty regions. -/
def pagingGetInitialFreeRegions (unavailable : List MemoryRegion) : Except Stop (List MemoryRegion) := do
  let sweep ← unavailable.foldlM freeRegionStep ⟨fun _ => ⟨0, 0⟩, 0, 0x1000⟩
  return (List.range pagingNumFreeMemoryRegions).map sweep.freeRegions

/-! ### Regions as intervals -/

def MemoryRegion.stop (r : MemoryRegion) : Nat := r.base + r.size

def MemoryRegion.Has (r : MemoryRegion) (x : Nat) : Prop := r.base ≤ x ∧ x < r.stop

def MemoryRegion.interval (r : MemoryRegion) : Nat × Nat := (r.base, r.stop)

def regionOf (iv : Nat × Nat) : MemoryRegion := ⟨iv.1, iv.2 - iv.1⟩

def largestEnd (ranges : List MemoryRegion) : Nat := (ranges.map MemoryRegion.stop).foldr max 0

def FreeRegionSweep.filled (sweep : FreeRegionSweep) : List MemoryRegion := (List.range sweep.i).map sweep.freeRegions

def FreeRegionSweep.Blank (sweep : FreeRegionSweep) : Prop := ∀ k, sweep.i ≤ k → sweep.freeRegions k = ⟨0, 0⟩

section

variable {sweep : FreeRegionSweep} {ranges : List MemoryRegion} {r : MemoryRegion} {x : Nat}

theorem lt_largestEnd : x < largestEnd ranges ↔ ∃ u ∈ ranges, x < u.stop := by
  unfold largestEnd
  induction ranges with
  | nil => simp
  | cons u ranges ih =>
      rw [List.map_cons, List.foldr_cons, lt_max_iff, ih, List.exists_mem_cons_iff]

theorem regionOf_has {iv : Nat × Nat} : (regionOf iv).Has x ↔ Within iv x := by
  unfold regionOf MemoryRegion.Has MemoryRegion.stop Within
  dsimp only
  omega

/-- A round either moves the base over the range or writes the gap before it. -/
theorem freeRegionStep_eq (hblank : sweep.Blank) (hroom : sweep.i < 16) (hstop : r.stop < 2 ^ 64) :
    ∃ next, freeRegionStep sweep r = .ok next ∧ next.Blank ∧ next.i ≤ sweep.i + 1 ∧
      if r.base ≤ sweep.base then next.filled = sweep.filled ∧ next.base = max sweep.base r.stop
      else next.filled = sweep.filled ++ [regionOf (sweep.base, r.base)] ∧ next.base = r.stop := by
  have hend : wrap (r.base + r.size) = r.stop := wrap_of_lt hstop
  unfold freeRegionStep
  simp only [hend]
  split
  · exact ⟨_, rfl, hblank, Nat.le_succ _, rfl, rfl⟩
  · rename_i hbelow
    have hsize : wrapSub r.base sweep.base = r.base - sweep.base :=
      wrapSub_of_le (Nat.lt_of_le_of_lt (Nat.le_add_right _ _) hstop) (by omega)
    rw [if_neg (by simp only [pagingNumFreeMemoryRegions]; omega), hsize]
    refine ⟨_, rfl, ?_, Nat.le_refl _, ?_, rfl⟩
    · intro k hk
      exact (Function.update_of_ne (Nat.ne_of_gt hk) _ _).trans (hblank k (Nat.le_of_succ_le hk))
    · unfold FreeRegionSweep.filled
      dsimp only
      rw [List.range_succ, List.map_append, List.map_singleton, Function.update_self]
      refine congrArg (· ++ _) (List.map_congr_left fun k hk => ?_)
      exact Function.update_of_ne (Nat.ne_of_lt (List.mem_range.mp hk)) _ _

theorem freeRegionSteps_eq (hblank : sweep.Blank) (hroom : sweep.i + ranges.length ≤ 16)
    (hstop : ∀ r ∈ ranges, r.stop < 2 ^ 64) :
    ∃ last, ranges.foldlM freeRegionStep sweep = .ok last ∧ last.Blank ∧ last.i ≤ 16 ∧
      last.filled = sweep.filled ++ (gaps sweep.base (ranges.map MemoryRegion.interval)).map regionOf := by
  induction ranges generalizing sweep with
  | nil => exact ⟨sweep, rfl, hblank, hroom, by simp [gaps]⟩
  | cons r ranges ih =>
      rw [List.length_cons] at hroom
      obtain ⟨next, hnext, hblank', hi, hround⟩ := freeRegionStep_eq hblank (by omega) (hstop r List.mem_cons_self)
      obtain ⟨last, hlast, hblank'', hi', hfilled⟩ := ih hblank' (by omega) fun u hu =>
        hstop u (List.mem_cons_of_mem r hu)
      refine ⟨last, ?_, hblank'', hi', ?_⟩
      · rw [List.foldlM_cons, hnext]
        exact hlast
      · rw [hfilled, List.map_cons]
        unfold MemoryRegion.interval
        rw [gaps]
        split at hround
        · rename_i hcovers
          rw [if_pos hcovers, hround.1, hround.2]
        · rename_i hbelow
          rw [if_neg hbelow, hround.1, hround.2, List.append_assoc, List.map_cons, List.singleton_append]

end

def MemoryRegion.NonEmpty (r : MemoryRegion) : Prop := 0 < r.size

instance : DecidablePred MemoryRegion.NonEmpty := fun r => inferInstanceAs (Decidable (0 < r.size))

theorem pagingGetInitialFreeRegions_eq {ranges : List MemoryRegion} (hlength : ranges.length ≤ 16)
    (hsweep : Sweepable (ranges.map MemoryRegion.interval)) (hstop : ∀ r ∈ ranges, r.stop < 2 ^ 64) :
    ∃ regions, pagingGetInitialFreeRegions ranges = .ok regions ∧
      regions.filter MemoryRegion.NonEmpty = (gaps 0x1000 (ranges.map MemoryRegion.interval)).map regionOf := by
  have hstart : FreeRegionSweep.Blank ⟨fun _ => ⟨0, 0⟩, 0, 0x1000⟩ := fun _ _ => rfl
  obtain ⟨last, hlast, hblank, hi, hfilled⟩ := freeRegionSteps_eq hstart (by simpa using hlength) hstop
  refine ⟨(List.range 16).map last.freeRegions, ?_, ?_⟩
  · unfold pagingGetInitialFreeRegions
    rw [hlast]
    rfl
  · -- the filled slots hold gaps, none of which is empty; the others are blank
    obtain ⟨n, hn⟩ := Nat.exists_eq_add_of_le hi
    have hgaps : last.filled.filter MemoryRegion.NonEmpty = last.filled := by
      rw [hfilled]
      refine List.filter_eq_self.mpr fun r hr => ?_
      obtain ⟨iv, hiv, rfl⟩ := List.mem_map.mp hr
      have hlt := (mem_gaps hsweep hiv).2
      exact decide_eq_true (Nat.sub_pos_of_lt hlt)
    have hrest : (((List.range n).map (last.i + ·)).map last.freeRegions).filter MemoryRegion.NonEmpty = [] := by
      refine List.filter_eq_nil_iff.mpr fun r hr => ?_
      obtain ⟨k, hk, rfl⟩ := List.mem_map.mp hr
      obtain ⟨j, _, rfl⟩ := List.mem_map.mp hk
      rw [hblank _ (Nat.le_add_right _ _)]
      decide
    rw [hn, List.range_add, List.map_append, List.filter_append, hrest, List.append_nil]
    exact hgaps.trans hfilled

/-- The free regions are exactly the gaps: in increasing order, without a common
address, and together all that no unavailable range has up to the last of their ends. -/
theorem initial_free_regions_are_gaps (unavailable : List MemoryRegion) (hlength : unavailable.length ≤ 16)
    (hsorted : unavailable.Pairwise fun p q => p.base ≤ q.base) (hstop : ∀ r ∈ unavailable, r.stop < 2 ^ 64) :
    ∃ regions, pagingGetInitialFreeRegions unavailable = .ok regions ∧
      ((regions.filter MemoryRegion.NonEmpty).Pairwise fun p q => p.base < q.base ∧ ∀ x, ¬ (p.Has x ∧ q.Has x)) ∧
      (∀ r ∈ regions.filter MemoryRegion.NonEmpty, ∀ u ∈ unavailable, ∀ x, ¬ (r.Has x ∧ u.Has x)) ∧
      ∀ x, (∃ r ∈ regions.filter MemoryRegion.NonEmpty, r.Has x) ↔
        0x1000 ≤ x ∧ x < largestEnd unavailable ∧ ¬ ∃ u ∈ unavailable, u.Has x := by
  have hsweep : Sweepable (unavailable.map MemoryRegion.interval) := by
    refine ⟨List.pairwise_map.mpr hsorted, fun p hp => ?_⟩
    obtain ⟨u, _, rfl⟩ := List.mem_map.mp hp
    exact Nat.le_add_right u.base u.size
  obtain ⟨regions, hregions, heq⟩ := pagingGetInitialFreeRegions_eq hlength hsweep hstop
  have hunion : ∀ x, (∃ r ∈ regions.filter MemoryRegion.NonEmpty, r.Has x) ↔
      0x1000 ≤ x ∧ x < largestEnd unavailable ∧ ¬ ∃ u ∈ unavailable, u.Has x := by
    intro x
    have hgaps := within_gaps_iff (a := 0x1000) (x := x) hsweep
    simp only [List.mem_map, exists_exists_and_eq_and, forall_exists_index, and_imp,
      forall_apply_eq_imp_iff₂] at hgaps
    simp only [heq, List.mem_map, exists_exists_and_eq_and, regionOf_has, hgaps, lt_largestEnd, not_exists, not_and]
    rfl
  refine ⟨regions, hregions, ?_, ?_, hunion⟩
  · rw [heq, List.pairwise_map]
    refine (gaps_sorted 0x1000 hsweep).imp_of_mem ?_
    intro p q hp _ hpq
    have hlt := (mem_gaps hsweep hp).2
    refine ⟨Nat.lt_of_lt_of_le hlt hpq, fun x hx => ?_⟩
    rw [regionOf_has, regionOf_has] at hx
    exact absurd hx.1.2 (Nat.not_lt_of_le (hpq.trans hx.2.1))
  · intro r hr u hu x hx
    exact ((hunion x).mp ⟨r, hr, hx.1⟩).2.2 ⟨u, hu, hx.2⟩

/-- The ranges of a kernel in its usual place leave the addresses above the
identity map, and those between the direct map and the kernel. -/
theorem initial_free_regions_are_gaps_at_boot : ∃ regions,
    pagingGetInitialFreeRegions (unavailableVirtualMemoryRanges 0xffff800000000000
      ⟨0xffffffff80000000, 0xffffffff80010000, 0xffffffff80010000, 0xffffffff80020000, 0x200000⟩) = .ok regions ∧
    ∀ x, (∃ r ∈ regions.filter MemoryRegion.NonEmpty, r.Has x) ↔
      0x100001000 ≤ x ∧ x < 0x800000000000 ∨ 0xffff800100000000 ≤ x ∧ x < 0xffffffff80000000 := by
  obtain ⟨regions, hregions, _, _, hunion⟩ := initial_free_regions_are_gaps
    (unavailableVirtualMemoryRanges 0xffff800000000000
      ⟨0xffffffff80000000, 0xffffffff80010000, 0xffffffff80010000, 0xffffffff80020000, 0x200000⟩)
    (by decide) (by decide) (by decide)
  have hranges : unavailableVirtualMemoryRanges 0xffff800000000000
      ⟨0xffffffff80000000, 0xffffffff80010000, 0xffffffff80010000, 0xffffffff80020000, 0x200000⟩ =
      [⟨0x1000, 0x100000000⟩, ⟨0x800000000000, 0xffff000000000000⟩, ⟨0xffff800000000000, 0x100000000⟩,
        ⟨0xffffffff80000000, 0x10000⟩, ⟨0xffffffff80010000, 0x10000⟩] := rfl
  refine ⟨regions, hregions, fun x => ?_⟩
  rw [hunion x, lt_largestEnd, hranges]
  simp only [List.exists_mem_cons_iff, List.not_mem_nil, false_and, exists_false, or_false, MemoryRegion.Has,
    MemoryRegion.stop]
  omega

end DavOS
