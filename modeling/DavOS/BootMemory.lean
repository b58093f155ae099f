import DavOS.HeapExtent
import DavOS.PageSwitch
import DavOS.VmmRuns

/-! `paging_init` and `vmm_init` together: the heap is given exactly the memory that
the initial mappings leave unmapped. -/
namespace DavOS
open MachineWord HalfOpen

section

variable {offset : Nat} {image : KernelImage} {v : Nat}

theorem KernelImage.Placed.meets_iff (h : image.Placed offset) (hv : Canonical v) (hlow : 0x1000 ≤ v)
    (hhigh : v < image.rwEnd) : (∃ mapping ∈ initialMappings offset image, mapping.Meets v) ↔
      ∃ u ∈ unavailableVirtualMemoryRanges offset image, u.Has v := by
  rw [h.mappings_eq, h.ranges_eq]
  obtain ⟨hidentity, hdirect, hreadonly, hwritable⟩ :=
    h.meets v (wrap (image.physicalBase + (image.readonlyEnd - image.readonlyStart)))
  simp only [List.exists_mem_cons_iff, List.not_mem_nil, false_and, exists_false, or_false, hidentity, hdirect,
    hreadonly, hwritable, MemoryRegion.Has, MemoryRegion.stop]
  clear hidentity hdirect hreadonly hwritable
  obtain ⟨hcanonical, _, habove, _, hguard, _, ⟨hrw, hstack⟩, hbounded⟩ := h
  unfold Canonical at hv
  omega

theorem has_freeGaps_iff {unavailable : List MemoryRegion} (h : Spaced unavailable) :
    (∃ g ∈ freeGaps unavailable, g.Has v) ↔
      0x1000 ≤ v ∧ (∃ u ∈ unavailable, v < u.stop) ∧ ¬ ∃ u ∈ unavailable, u.Has v := by
  have hgaps := within_gaps_iff (a := 0x1000) (x := v) h.sweepable
  simp only [List.mem_map, exists_exists_and_eq_and, forall_exists_index, and_imp, forall_apply_eq_imp_iff₂] at hgaps
  simp only [freeGaps, List.mem_map, exists_exists_and_eq_and, regionOf_has, hgaps, not_exists, not_and]
  rfl

theorem KernelImage.Placed.has_freeGaps_iff (h : image.Placed offset) :
    (∃ g ∈ freeGaps (unavailableVirtualMemoryRanges offset image), g.Has v) ↔
      Canonical v ∧ 0x1000 ≤ v ∧ v < image.rwEnd ∧ ¬ ∃ mapping ∈ initialMappings offset image, mapping.Meets v := by
  rw [DavOS.has_freeGaps_iff h.spaced]
  constructor
  · rintro ⟨hlow, hsome, hnone⟩
    have hv : Canonical v ∧ v < image.rwEnd := by
      rw [h.ranges_eq] at hsome hnone
      obtain ⟨hcanonical, _, habove, _, hguard, _, ⟨hrw, hstack⟩, hbounded⟩ := h
      simp only [List.exists_mem_cons_iff, List.not_mem_nil, false_and, exists_false, or_false, MemoryRegion.stop,
        MemoryRegion.Has] at hsome hnone
      unfold Canonical
      omega
    refine ⟨hv.1, hlow, hv.2, fun hmeets => hnone ?_⟩
    exact (h.meets_iff hv.1 hlow hv.2).mp hmeets
  · rintro ⟨hv, hlow, hhigh, hnone⟩
    refine ⟨hlow, ?_, fun hsome => hnone ((h.meets_iff hv hlow hhigh).mpr hsome)⟩
    rw [h.ranges_eq]
    refine ⟨⟨image.rwStart, image.rwEnd - image.rwStart⟩, by simp, ?_⟩
    have := h.stack
    simp only [MemoryRegion.stop]
    omega

end

theorem pagingInit_mapped {r : HhdmResponse} {mappings : List Mapping} {map : List LimineMemmapEntry} {m : Memory}
    {free : FreeStack} (hnodup : free.frames.Nodup) (hframes : ∀ f ∈ free.frames, IsFrame f)
    (hresponse : r.frame ∉ free.frames) (htable : IsTable r.frame) (hread : r.hhdm m = r.offset)
    (hregular : ∀ mapping ∈ mappings, mapping.Regular)
    (hapart : mappings.Pairwise fun mapping later => ∀ v, Canonical v → mapping.Meets v → ¬ later.Meets v)
    {root : Nat} {s : PagingState} (hs : pagingInit r.hhdm map mappings ⟨m, free⟩ = .ok (root, s)) (v : Nat)
    (hv : Canonical v) : Mapped r.offset root s v ↔ ∃ mapping ∈ mappings, mapping.Meets v := by
  obtain ⟨⟨spare, hintact⟩, hleaves⟩ :=
    pagingInit_leaves hnodup hframes hresponse htable hread hregular hapart hs
  have hmapped : Mapped r.offset root s v ↔ Ia32e.isPresent (leafEntry r.offset root s.mem v) = true :=
    mapped_iff hintact v
  rw [hmapped]
  by_cases hmeets : ∃ mapping ∈ mappings, mapping.Meets v
  · obtain ⟨mapping, hmem, hv'⟩ := hmeets
    rw [(hleaves v hv).1 mapping hmem hv', entryWord_isPresent]
    exact iff_of_true rfl ⟨mapping, hmem, hv'⟩
  · rw [(hleaves v hv).2 fun mapping hmem hv' => hmeets ⟨mapping, hmem, hv'⟩]
    exact iff_of_false (by decide) hmeets

/-- `vmm_init` gives the heap the canonical memory from the second page to the end of
the kernel that `paging_init` has not mapped: all of it, and nothing else. -/
theorem heap_gets_unmapped_memory (r : HhdmResponse) (image : KernelImage) (map : List LimineMemmapEntry)
    (m : Memory) (free : FreeStack) (hplaced : image.Placed r.offset)
    (hphysical : image.physicalBase + (image.rwEnd - image.readonlyStart) < 2 ^ 51)
    (hnodup : free.frames.Nodup) (hframes : ∀ f ∈ free.frames, IsFrame f) (hresponse : r.frame ∉ free.frames)
    (htable : IsTable r.frame) (hread : r.hhdm m = r.offset) (root : Nat) (s : PagingState)
    (hs : pagingInit r.hhdm map (initialMappings r.offset image) ⟨m, free⟩ = .ok (root, s)) (heap : VirtualMemory) :
    ∃ boot, vmmInit (unavailableVirtualMemoryRanges r.offset image) { alloc := ⟨heap, 0⟩ } = .ok boot ∧
      ∀ v, boot.Owns v ↔ Canonical v ∧ 0x1000 ≤ v ∧ v < image.rwEnd ∧ ¬ Mapped r.offset root s v := by
  obtain ⟨boot, hboot, _, _, hadded⟩ := vmmInit_eq hplaced.spaced heap
  refine ⟨boot, hboot, fun v => ?_⟩
  have howns : boot.Owns v ↔ ∃ g ∈ freeGaps (unavailableVirtualMemoryRanges r.offset image), g.Has v := by
    constructor
    · rintro ⟨_, hadd, hv⟩
      obtain ⟨g, hg, rfl⟩ := (hadded _).mp hadd
      exact ⟨g, hg, hv⟩
    · rintro ⟨g, hg, hv⟩
      exact ⟨g.region, (hadded _).mpr ⟨g, hg, rfl⟩, hv⟩
  rw [howns, hplaced.has_freeGaps_iff]
  refine and_congr_right fun hv => ?_
  rw [pagingInit_mapped hnodup hframes hresponse htable hread (hplaced.mappings_regular hphysical)
    hplaced.mappings_apart hs v hv]

theorem frameOf_first_page {mapping : Mapping} {offset root v : Nat} {m : Memory}
    (hleaf : leafEntry offset root m v = entryWord (mapping.frame v) mapping.flags.bits)
    (hpage : v / 4096 = mapping.fromVirtual.base / 4096) (hlow : mapping.toPhysical < 2 ^ 32) :
    frameOf offset root m v = mapping.toPhysical / 4096 * 4096 := by
  have hframe : mapping.frame v = mapping.toPhysical / 4096 * 4096 := by
    rw [Mapping.frame, hpage, Nat.sub_self, Nat.mul_zero, Nat.add_zero]
  rw [frameOf, hleaf, hframe, entryWord_childAddress (Nat.mul_mod_left _ _)]
  exact Nat.mod_eq_of_lt (Nat.lt_of_le_of_lt (Nat.div_mul_le_self _ _) hlow)

/-- The regions of `vmm_init` meet what `VmmOp.Safe` asks of them when no free frame is 0 or the kernel's: the 16
bytes after a region are mapped to frame 0, to the kernel or not at all. -/
theorem vmm_init_regions_clear (r : HhdmResponse) (image : KernelImage) (map : List LimineMemmapEntry)
    (m : Memory) (free : FreeStack) (hplaced : image.Placed r.offset)
    (hphysical : image.physicalBase + (image.rwEnd - image.readonlyStart) < 2 ^ 32)
    (hnodup : free.frames.Nodup) (hframes : ∀ f ∈ free.frames, IsFrame f) (hresponse : r.frame ∉ free.frames)
    (htable : IsTable r.frame) (hread : r.hhdm m = r.offset) (root : Nat) (s : PagingState)
    (hs : pagingInit r.hhdm map (initialMappings r.offset image) ⟨m, free⟩ = .ok (root, s))
    (hfree : ∀ f ∈ s.free.frames, f ≠ 0 ∧ f ≠ image.physicalBase / 4096 * 4096) (g : MemoryRegion)
    (hg : g ∈ freeGaps (unavailableVirtualMemoryRanges r.offset image)) :
    8 ≤ g.size ∧ g.base + g.size + 16 < 2 ^ 64 ∧ Clear r.offset root s g.base g.size := by
  obtain ⟨hlo, hsize, u, hu, hstop⟩ := hplaced.spaced.mem_freeGaps hg
  have hregular := hplaced.mappings_regular (by omega)
  obtain ⟨⟨spare, hintact⟩, hleaves⟩ :=
    pagingInit_leaves hnodup hframes hresponse htable hread hregular hplaced.mappings_apart hs
  have hmapped := pagingInit_mapped hnodup hframes hresponse htable hread hregular hplaced.mappings_apart hs
  have hguard := hplaced.guard
  have hstack := hplaced.stack
  have hdirect : ∀ x, x / 4096 = r.offset / 4096 → Canonical x → frameOf r.offset root s.mem x = 0 := by
    intro x hpage hx
    have haligned := hplaced.aligned
    have hmem : (⟨⟨r.offset, 0x100000000⟩, 0, FlagSet.write⟩ : Mapping) ∈ initialMappings r.offset image := by
      simp [initialMappings]
    have hmeets := (hplaced.meets x 0).2.1.mpr ⟨by omega, by omega⟩
    rw [frameOf_first_page ((hleaves x hx).1 _ hmem hmeets) hpage (Nat.two_pow_pos 32), Nat.zero_div, Nat.zero_mul]
  have hend : g.base + g.size = u.base := hstop
  refine ⟨hsize, ?_, fun x hlow hhigh hm => ?_⟩
  · have hthick := hplaced.spaced.thick u hu
    have hbounded := hplaced.spaced.bounded u hu
    unfold MemoryRegion.stop at hbounded
    omega
  by_cases hin : x < g.base + g.size
  · obtain ⟨hx, _, _, hnone⟩ := hplaced.has_freeGaps_iff.mp ⟨g, hg, hlow, hin⟩
    exact absurd ((hmapped x hx).mp hm) hnone
  have hzero : frameOf r.offset root s.mem x = 0 → frameOf r.offset root s.mem x ∉ s.free.frames := fun h0 hc =>
    (hfree _ hc).1 h0
  have hcanonical := hplaced.canonical
  have haligned := hplaced.aligned
  have habove := hplaced.above
  have hbounded := hplaced.bounded
  rw [hplaced.ranges_eq] at hu
  simp only [List.mem_cons, List.not_mem_nil, or_false] at hu
  rcases hu with rfl | rfl | rfl | rfl | rfl
  · dsimp only at hend
    omega
  · -- the page tree does not see the sign bits of an address that is not canonical
    dsimp only at hend
    obtain ⟨y, hy⟩ : ∃ y, y = x + 0xffff000000000000 := ⟨_, rfl⟩
    have hsame : SamePage x y := by
      unfold SamePage
      omega
    have hcy : Canonical y := Or.inr ⟨by omega, by omega⟩
    refine hzero ?_
    rw [frameOf, leafEntry_congr hsame]
    by_cases hoffset : r.offset = 0xffff800000000000
    · exact hdirect y (by omega) hcy
    · have hnone : ∀ mapping ∈ initialMappings r.offset image, ¬ mapping.Meets y := by
        rw [hplaced.mappings_eq]
        obtain ⟨hfst, hsnd, hthd, hfth⟩ :=
          hplaced.meets y (wrap (image.physicalBase + (image.readonlyEnd - image.readonlyStart)))
        simp only [List.forall_mem_cons, List.not_mem_nil, false_imp_iff, implies_true, and_true, hfst, hsnd, hthd, hfth]
        clear hfst hsnd hthd hfth hdirect hmapped hleaves hzero hfree
        omega
      rw [(hleaves y hcy).2 hnone]
      decide
  · dsimp only at hend
    exact hzero (hdirect x (by omega) (Or.inr ⟨by omega, by omega⟩))
  · dsimp only at hend
    have hx : Canonical x := Or.inr ⟨by omega, by omega⟩
    have hmem : (⟨⟨image.readonlyStart, image.readonlyEnd - image.readonlyStart⟩, image.physicalBase, FlagSet.none⟩ :
        Mapping) ∈ initialMappings r.offset image := by
      rw [hplaced.mappings_eq]
      simp
    have hmeets := (hplaced.meets x 0).2.2.1.mpr ⟨by omega, by omega⟩
    have hstart := hplaced.start
    rw [frameOf_first_page ((hleaves x hx).1 _ hmem hmeets) (by dsimp only; omega) (by dsimp only; omega)]
    exact fun hc => (hfree _ hc).2 rfl
  · -- no gap ends where the writable part starts: the read-only part is right before it
    dsimp only at hend
    have hlast : g.Has (g.base + g.size - 1) := ⟨by omega, by unfold MemoryRegion.stop; omega⟩
    obtain ⟨_, _, _, hnone⟩ := hplaced.has_freeGaps_iff.mp ⟨g, hg, hlast⟩
    refine absurd ⟨_, ?_, (hplaced.meets (g.base + g.size - 1) 0).2.2.1.mpr ⟨by omega, by omega⟩⟩ hnone
    rw [hplaced.mappings_eq]
    simp

theorem vmm_init_regions_clear_at_boot : ∃ root s, ∃ free : FreeStack,
    pagingInit bootResponse.hhdm bootMap.entries (initialMappings bootResponse.offset bootImage) ⟨bootMemory, free⟩ =
      .ok (root, s) ∧
    ∃ g ∈ freeGaps (unavailableVirtualMemoryRanges bootResponse.offset bootImage), g.base = 0x100001000 ∧
      Clear bootResponse.offset root s g.base g.size := by
  obtain ⟨root, free, s, hbooted⟩ := booted
  obtain ⟨hnodup, hframes, hresponse⟩ := hbooted.stack
  obtain ⟨rest, hrest⟩ := bootImage_placed.freeGaps_cons
  have hmem : ⟨0x100001000, 0x7ffefffff000⟩ ∈ freeGaps (unavailableVirtualMemoryRanges bootResponse.offset bootImage) := by
    rw [hrest]
    exact List.mem_cons_self
  have hfree : ∀ f ∈ s.free.frames, f ≠ 0 ∧ f ≠ bootImage.physicalBase / 4096 * 4096 := by
    intro f hf
    obtain ⟨h0, hlow⟩ := hbooted.running.2 f hf
    exact ⟨h0, Nat.ne_of_lt (Nat.lt_trans hlow (by decide))⟩
  exact ⟨root, s, free, hbooted.paging, _, hmem, rfl, (vmm_init_regions_clear bootResponse bootImage bootMap.entries
    bootMemory free bootImage_placed (by decide) hnodup hframes hresponse (by decide) bootMemory_reads root s
    hbooted.paging hfree _ hmem).2.2⟩

/-- A machine that has started: the first address above the identity map that lacks a table is the heap's. -/
theorem heap_gets_unmapped_memory_at_boot : ∃ root s boot, ∃ free : FreeStack,
    pagingInit bootResponse.hhdm bootMap.entries (initialMappings bootResponse.offset bootImage) ⟨bootMemory, free⟩ =
      .ok (root, s) ∧
    vmmInit (unavailableVirtualMemoryRanges bootResponse.offset bootImage) emptyHeap = .ok boot ∧
    ¬ Mapped bootResponse.offset root s 0x100200000 ∧ boot.Owns 0x100200000 := by
  obtain ⟨root, free, s, hbooted⟩ := booted
  obtain ⟨hnodup, hframes, hresponse⟩ := hbooted.stack
  obtain ⟨boot, hboot, howns⟩ := heap_gets_unmapped_memory bootResponse bootImage bootMap.entries bootMemory free
    bootImage_placed (by decide) hnodup hframes hresponse (by decide) bootMemory_reads root s hbooted.paging fun _ => 0#8
  have hunmapped : ¬ Mapped bootResponse.offset root s 0x100200000 := by
    rw [mapped_iff hbooted.intact, leafEntry_of_missing hbooted.none]
    decide
  refine ⟨root, s, boot, free, hbooted.paging, hboot, hunmapped,
    (howns 0x100200000).mpr ⟨?_, by decide, by decide, hunmapped⟩⟩
  exact Or.inl (by decide)

end DavOS
