import DavOS.FreeListMerge
import DavOS.FreeRegions

/-! `vmm_init` and the heap that it leaves behind: the free list is made of the
gaps between the ranges that are in use, each of them 16 bytes too long, and
what `vmalloc` hands out afterwards stays as close to the gaps as that. -/
namespace DavOS
open MachineWord HalfOpen GuardedRun

/-! ### The code -/

/-- The body of the loop: empty slots of the array are skipped. -/
def addFreeRegion (heap : HeapState) (r : MemoryRegion) : Except Stop HeapState :=
  if r.size = 0 then .ok heap else heapStep heap (.addMemory r.base r.size)

def vmmInit (unavailable : List MemoryRegion) (heap : HeapState) : Except Stop HeapState := do
  let regions ← pagingGetInitialFreeRegions unavailable
  regions.foldlM addFreeRegion heap

/-! ### Adding regions one after the other -/

def MemoryRegion.region (r : MemoryRegion) : Region := ⟨r.base, r.size⟩

/-- The free block that a region becomes. -/
def MemoryRegion.block (r : MemoryRegion) : Block := r.region.block

/-- Regions in increasing order that `add_memory` can take, with more than the 16
bytes between them by which their blocks are too long. -/
structure Addable (regions : List MemoryRegion) : Prop where
  nonnull : ∀ r ∈ regions, r.base ≠ 0
  room : ∀ r ∈ regions, 8 ≤ r.size
  bounded : ∀ r ∈ regions, r.stop + 16 ≤ 2 ^ 64
  apart : regions.Pairwise fun p q => p.stop + 16 < q.base

section

variable {heap : HeapState} {regions : List MemoryRegion} {r : MemoryRegion} {L : List Block} {k : Nat}

theorem addFreeRegions_filter (regions : List MemoryRegion) (heap : HeapState) :
    regions.foldlM addFreeRegion heap = (regions.filter MemoryRegion.NonEmpty).foldlM addFreeRegion heap := by
  induction regions generalizing heap with
  | nil => rfl
  | cons r regions ih =>
      rw [List.foldlM_cons, List.filter_cons]
      by_cases hr : r.NonEmpty
      · rw [if_pos (decide_eq_true hr), List.foldlM_cons]
        exact congrArg _ (funext fun next => ih next)
      · rw [if_neg (by simpa using hr)]
        have hsize : r.size = 0 := Nat.eq_zero_of_not_pos hr
        rw [addFreeRegion, if_pos hsize]
        exact ih heap

theorem Addable.tail (h : Addable (r :: regions)) : Addable regions :=
  ⟨fun q hq => h.nonnull q (List.mem_cons_of_mem r hq), fun q hq => h.room q (List.mem_cons_of_mem r hq),
    fun q hq => h.bounded q (List.mem_cons_of_mem r hq), (List.pairwise_cons.mp h.apart).2⟩

theorem MemoryRegion.block_stop (hroom : 8 ≤ r.size) : r.block.stop = r.stop + 16 := by
  simp only [block, region, Region.block, Block.stop, stop]
  omega

theorem Addable.coalesced (h : Addable regions) : Coalesced (regions.map MemoryRegion.block) := by
  have hstop : ∀ b ∈ regions.map MemoryRegion.block, b.addr ≠ 0 ∧ b.stop ≤ 2 ^ 64 := by
    intro b hb
    obtain ⟨r, hr, rfl⟩ := List.mem_map.mp hb
    rw [MemoryRegion.block_stop (h.room r hr)]
    exact ⟨h.nonnull r hr, h.bounded r hr⟩
  have hapart : (regions.map MemoryRegion.block).Pairwise fun a b => a.stop < b.addr := by
    refine List.pairwise_map.mpr (h.apart.imp_of_mem fun {p q} hp _ hpq => ?_)
    rw [MemoryRegion.block_stop (h.room p hp)]
    exact hpq
  exact ⟨⟨fun b hb => (hstop b hb).1, fun b hb => (hstop b hb).2, hapart.imp Nat.le_of_lt⟩, hapart⟩

theorem addFreeRegion_sound (h : HeapSound k heap L) (hL : Coalesced L) (hroomy : r.region.Roomy heap.regions) :
    ∃ next L', addFreeRegion heap r = .ok next ∧ HeapSound k next L' ∧ Coalesced L' ∧ next.live = heap.live ∧
      next.regions = r.region :: heap.regions ∧ ∀ x, Covered L' x ↔ Covered L x ∨ r.block.Has x := by
  have hsize : r.size ≠ 0 := Nat.ne_of_gt (Nat.lt_of_lt_of_le (by decide) hroomy.room)
  have hfreeable := h.region_freeable hroomy
  obtain ⟨before, after, rfl, ho⟩ := hfreeable.split hL.ordered
  obtain ⟨a, ha, hreleased⟩ := deallocate_between hfreeable ho
  have hok : heapStep heap (.addMemory r.base r.size) =
      .ok { heap with alloc := a, regions := r.region :: heap.regions } := by
    change (FreeListAllocator.addMemory heap.alloc r.base r.size >>= _) = _
    rw [show heap.alloc.addMemory r.base r.size = .ok a from ha]
    rfl
  obtain ⟨L', hsound, _, _, hr⟩ := h.addMemory hroomy hok
  obtain rfl : L' = _ := hsound.chained.unique hreleased.chained hsound.ordered.nonnull hreleased.ordered.nonnull
  exact ⟨_, _, by rw [addFreeRegion, if_neg hsize, hok], hsound, hL.released ho, rfl, rfl, hr.covered⟩

theorem addFreeRegions_sound (h : HeapSound k heap L) (hL : Coalesced L) (hadd : Addable regions)
    (hbelow : ∀ r ∈ regions, ∀ g ∈ heap.regions, g.base + g.size + 16 ≤ r.base) :
    ∃ last M, regions.foldlM addFreeRegion heap = .ok last ∧ HeapSound k last M ∧ Coalesced M ∧
      last.live = heap.live ∧ (∀ g, g ∈ last.regions ↔ g ∈ heap.regions ∨ ∃ r ∈ regions, g = r.region) ∧
      ∀ x, Covered M x ↔ Covered L x ∨ Covered (regions.map MemoryRegion.block) x := by
  induction regions generalizing heap L with
  | nil => exact ⟨heap, L, rfl, h, hL, rfl, fun g => by simp, fun x => by simp [Covered]⟩
  | cons r regions ih =>
      have hr : r ∈ r :: regions := List.mem_cons_self
      have hroomy : r.region.Roomy heap.regions :=
        ⟨hadd.nonnull r hr, hadd.room r hr, hadd.bounded r hr, fun g hg => Or.inr (hbelow r hr g hg)⟩
      obtain ⟨next, L', hnext, hsound, hL', hlive, hregions, hcovered⟩ := addFreeRegion_sound h hL hroomy
      have hbelow' : ∀ q ∈ regions, ∀ g ∈ next.regions, g.base + g.size + 16 ≤ q.base := by
        intro q hq g hg
        rw [hregions] at hg
        rcases List.mem_cons.mp hg with rfl | hg
        · exact Nat.le_of_lt ((List.pairwise_cons.mp hadd.apart).1 q hq)
        · exact hbelow q (List.mem_cons_of_mem r hq) g hg
      obtain ⟨last, M, hlast, hsound', hM, hlive', hregions', hcovered'⟩ := ih hsound hL' hadd.tail hbelow'
      refine ⟨last, M, ?_, hsound', hM, hlive'.trans hlive, fun g => ?_, fun x => ?_⟩
      · rw [List.foldlM_cons, hnext]
        exact hlast
      · rw [hregions' g, hregions, List.mem_cons, List.exists_mem_cons_iff, or_assoc, or_left_comm]
      · rw [hcovered' x, hcovered x, or_assoc, List.map_cons]
        unfold Covered
        rw [List.exists_mem_cons_iff]

end

/-! ### The ranges in use -/

/-- Ranges in increasing order, each of more than 16 bytes, between which there is
room for a free header or none at all. -/
structure Spaced (unavailable : List MemoryRegion) : Prop where
  few : unavailable.length ≤ 16
  sorted : unavailable.Pairwise fun p q => p.base ≤ q.base
  thick : ∀ u ∈ unavailable, 16 < u.size
  bounded : ∀ u ∈ unavailable, u.stop < 2 ^ 64
  first : ∀ u ∈ unavailable, u.base ≤ 0x1000 ∨ 0x1008 ≤ u.base
  spaced : ∀ u ∈ unavailable, ∀ v ∈ unavailable, v.base ≤ u.stop ∨ u.stop + 8 ≤ v.base

/-- The gaps that `vmm_init` adds. -/
def freeGaps (unavailable : List MemoryRegion) : List MemoryRegion :=
  (gaps 0x1000 (unavailable.map MemoryRegion.interval)).map regionOf

section

variable {unavailable : List MemoryRegion} {r : MemoryRegion} {x : Nat}

theorem Spaced.sweepable (h : Spaced unavailable) : Sweepable (unavailable.map MemoryRegion.interval) := by
  refine ⟨List.pairwise_map.mpr h.sorted, fun p hp => ?_⟩
  obtain ⟨u, _, rfl⟩ := List.mem_map.mp hp
  exact Nat.le_add_right u.base u.size

theorem Spaced.mem_freeGaps (h : Spaced unavailable) (hr : r ∈ freeGaps unavailable) :
    0x1000 ≤ r.base ∧ 8 ≤ r.size ∧ ∃ u ∈ unavailable, r.stop = u.base := by
  obtain ⟨p, hp, rfl⟩ := List.mem_map.mp hr
  obtain ⟨hlo, hlt⟩ := mem_gaps h.sweepable hp
  obtain ⟨⟨q, hq, hstop⟩, hstart⟩ := gap_ends hp
  obtain ⟨v, hv, rfl⟩ := List.mem_map.mp hq
  have hstop' : p.2 = v.base := hstop
  have hroom : p.1 + 8 ≤ v.base := by
    rcases hstart with hstart | ⟨q, hq, hstart⟩
    · have := h.first v hv
      omega
    · obtain ⟨u, hu, rfl⟩ := List.mem_map.mp hq
      have hstart' : p.1 = u.stop := hstart
      have := h.spaced u hu v hv
      omega
  unfold regionOf
  refine ⟨hlo, by dsimp only; omega, v, hv, ?_⟩
  simp only [MemoryRegion.stop]
  omega

theorem Spaced.addable (h : Spaced unavailable) : Addable (freeGaps unavailable) := by
  refine ⟨fun r hr => ?_, fun r hr => (h.mem_freeGaps hr).2.1, fun r hr => ?_, ?_⟩
  · have := (h.mem_freeGaps hr).1
    omega
  · obtain ⟨_, _, u, hu, hstop⟩ := h.mem_freeGaps hr
    have hthick := h.thick u hu
    have hbounded := h.bounded u hu
    unfold MemoryRegion.stop at hbounded hstop ⊢
    omega
  · refine List.pairwise_map.mpr ((gaps_between 0x1000 h.sweepable).imp_of_mem ?_)
    rintro p q hp _ ⟨iv, hiv, hstart, hstop⟩
    obtain ⟨u, hu, rfl⟩ := List.mem_map.mp hiv
    have hlt := (mem_gaps h.sweepable hp).2
    have hthick := h.thick u hu
    simp only [MemoryRegion.interval, MemoryRegion.stop, regionOf] at hstart hstop ⊢
    omega

/-- The free list that `vmm_init` leaves behind is made of the gaps, in order. -/
theorem vmmInit_eq (h : Spaced unavailable) (m : VirtualMemory) :
    ∃ boot, vmmInit unavailable { alloc := ⟨m, 0⟩ } = .ok boot ∧ boot.live = [] ∧
      HeapSound 8 boot ((freeGaps unavailable).map MemoryRegion.block) ∧
      ∀ g, g ∈ boot.regions ↔ ∃ r ∈ freeGaps unavailable, g = r.region := by
  obtain ⟨regions, hregions, hfilter⟩ := pagingGetInitialFreeRegions_eq h.few h.sweepable h.bounded
  have hnone : Coalesced [] := ⟨⟨by simp, by simp, .nil⟩, .nil⟩
  obtain ⟨boot, M, hboot, hsound, hM, hlive, hadded, hcovered⟩ :=
    addFreeRegions_sound (heapSound_empty 8 m) hnone h.addable (by simp)
  obtain rfl : M = _ := hM.ext h.addable.coalesced fun x => by
    rw [hcovered x]
    simp [Covered]
  refine ⟨boot, ?_, hlive, hsound, fun g => (hadded g).trans (or_iff_right (by simp))⟩
  unfold vmmInit
  rw [hregions]
  change regions.foldlM addFreeRegion _ = _
  rw [addFreeRegions_filter, hfilter]
  exact hboot

end

/-! ### After `vmm_init` -/

/-- Nothing but `vmm_init` adds memory. -/
def HeapOp.AfterInit : HeapOp → Prop
  | .addMemory _ _ => False
  | _ => True

/-- A run of the kernel's heap after `vmm_init`. -/
abbrev HeapRun : HeapState → List HeapOp → HeapState → Prop :=
  Run heapStep fun s op => op.Allowed s ∧ op.Safe s ∧ op.AfterInit

section

variable {s t boot : HeapState} {ops : List HeapOp} {L : List Block} {unavailable : List MemoryRegion} {x : Nat}

theorem heapStep_regions {op : HeapOp} (hop : op.AfterInit) (hs : heapStep s op = .ok t) : t.regions = s.regions := by
  cases op with
  | addMemory base size => exact hop.elim
  | allocate request =>
      obtain ⟨_, _, hs⟩ := bind_ok hs
      cases hs
      rfl
  | deallocate block =>
      obtain ⟨_, _, hs⟩ := bind_ok hs
      cases hs
      rfl
  | store address byte =>
      cases hs
      rfl

theorem HeapRun.sound (hrun : HeapRun boot ops s) (h : HeapSound 8 boot L) :
    s.regions = boot.regions ∧ ∃ L', HeapSound 8 s L' := by
  refine hrun.invariant (I := fun s => s.regions = boot.regions ∧ ∃ L', HeapSound 8 s L') ?_ ⟨rfl, L, h⟩
  rintro s op t ⟨hregions, L, h⟩ ⟨hallowed, hsafe, hafter⟩ hs
  exact ⟨(heapStep_regions hafter hs).trans hregions, heapStep_sound h hallowed hsafe hs⟩

/-- What lies in a gap or in the 16 bytes after it is free for use, or at the very
beginning of a range that is not. -/
theorem Spaced.near_gap (h : Spaced unavailable) {r : MemoryRegion} (hr : r ∈ freeGaps unavailable)
    (hlo : r.base ≤ x) (hhi : x < r.stop + 16) :
    (∀ u ∈ unavailable, ¬ u.Has x) ∨ ∃ v ∈ unavailable, v.base ≤ x ∧ x < v.base + 16 := by
  by_cases hx : x < r.stop
  · refine Or.inl fun u hu hux => ?_
    obtain ⟨p, hp, rfl⟩ := List.mem_map.mp hr
    have hwithin : Within p x := regionOf_has.mp ⟨hlo, hx⟩
    exact ((within_gaps_iff h.sweepable).mp ⟨p, hp, hwithin⟩).2.2 _ (List.mem_map_of_mem hu) hux
  · obtain ⟨_, _, v, hv, hstop⟩ := h.mem_freeGaps hr
    exact Or.inr ⟨v, hv, by omega, by omega⟩

theorem HeapRun.live_near_gaps (hrun : HeapRun boot ops s) (h : Spaced unavailable) (hsound : HeapSound 8 boot L)
    (hadded : ∀ g, g ∈ boot.regions ↔ ∃ r ∈ freeGaps unavailable, g = r.region) {l : LiveBlock} (hl : l ∈ s.live)
    (hx : l.Has x) : (∀ u ∈ unavailable, ¬ u.Has x) ∨ ∃ v ∈ unavailable, v.base ≤ x ∧ x < v.base + 16 := by
  obtain ⟨hregions, L', hsound'⟩ := hrun.sound hsound
  obtain ⟨g, hg, hlo, hhi⟩ := hsound'.owned x (Or.inr ⟨l, hl, hx⟩)
  rw [hregions] at hg
  obtain ⟨r, hr, rfl⟩ := (hadded g).mp hg
  exact h.near_gap hr hlo hhi

theorem HeapSound.allocate_first {b : Block} {after : List Block} (h : HeapSound 8 boot (b :: after)) {request : Nat}
    (hr : request + 16 < b.size) (hstop : b.stop < 2 ^ 64) (hlive : boot.live = []) :
    ∃ t, heapStep boot (.allocate request) = .ok t ∧ t.live = [⟨b.stop - request, request⟩] := by
  have hsize : b.size < 2 ^ 64 := by
    unfold Block.stop at hstop
    omega
  have hchained : Chained boot.alloc.mem boot.alloc.head ([] ++ b :: after) := h.chained
  obtain ⟨m', hreserve, _⟩ := reserveEnd_spec hchained h.ordered hr
  have hwrap : wrap (request + 16) = request + 16 := wrap_of_lt (by omega)
  have hfit : wrap (request + 16) ≤ b.size := by omega
  have hok := (allocate_eq hchained h.ordered (by simp) hfit).2
  rw [hwrap, if_neg (Nat.ne_of_lt hr), hreserve] at hok
  have hbase : wrap (b.stop - (request + 16) + 16) = b.stop - request := by
    rw [wrap_of_lt (by omega)]
    unfold Block.stop
    omega
  rw [hbase] at hok
  refine ⟨{ boot with alloc := ⟨m', boot.alloc.head⟩, live := [⟨b.stop - request, request⟩] }, ?_, rfl⟩
  change (boot.alloc.allocate request >>= _) = _
  rw [hok, ← hlive]
  rfl

end

/-- How the linker script and the bootloader place the kernel: the direct map is
above the addresses that are not canonical, and the image above the direct map, its
read-only part with the guard page of the stack at its end and the stack right behind it. -/
structure KernelImage.Placed (offset : Nat) (image : KernelImage) : Prop where
  canonical : 0xffff800000000000 ≤ offset
  aligned : offset % 0x1000 = 0
  above : offset + 0x100000000 ≤ image.readonlyStart
  start : image.readonlyStart % 0x1000 = 0
  guard : image.readonlyStart + 0x1000 ≤ image.readonlyEnd
  aligned_end : image.readonlyEnd % 0x1000 = 0
  stack : image.rwStart = image.readonlyEnd ∧ image.rwStart + 0x1000 ≤ image.rwEnd
  bounded : image.rwEnd ≤ 0xfffffffffffff000

section

variable {offset : Nat} {image : KernelImage}

theorem KernelImage.Placed.ranges_eq (h : image.Placed offset) :
    unavailableVirtualMemoryRanges offset image =
      [⟨0x1000, 0x100000000⟩, ⟨0x800000000000, 0xffff000000000000⟩, ⟨offset, 0x100000000⟩,
        ⟨image.readonlyStart, image.readonlyEnd - image.readonlyStart⟩,
        ⟨image.rwStart, image.rwEnd - image.rwStart⟩] := by
  obtain ⟨_, _, _, _, hguard, _, ⟨hstart, hstack⟩, hbounded⟩ := h
  have hreadonly : wrapSub image.readonlyEnd image.readonlyStart = image.readonlyEnd - image.readonlyStart :=
    wrapSub_of_le (by omega) (by omega)
  have hrw : wrapSub image.rwEnd image.rwStart = image.rwEnd - image.rwStart :=
    wrapSub_of_le (by omega) (by omega)
  unfold unavailableVirtualMemoryRanges initialMappings
  rw [hreadonly, hrw]
  rfl

theorem KernelImage.Placed.spaced (h : image.Placed offset) : Spaced (unavailableVirtualMemoryRanges offset image) := by
  rw [h.ranges_eq]
  obtain ⟨hcanonical, haligned, habove, hstart, hguard, _, ⟨hrw, hstack⟩, hbounded⟩ := h
  refine ⟨by simp, ?_, ?_, ?_, ?_, ?_⟩
  · simp only [List.pairwise_cons, List.forall_mem_cons, List.not_mem_nil, false_implies, implies_true,
      List.Pairwise.nil, and_true]
    omega
  all_goals
    simp only [List.forall_mem_cons, MemoryRegion.stop, List.not_mem_nil, false_implies, implies_true, and_true]
    omega

theorem KernelImage.Placed.freeGaps_cons (h : image.Placed offset) :
    ∃ rest, freeGaps (unavailableVirtualMemoryRanges offset image) = ⟨0x100001000, 0x7ffefffff000⟩ :: rest := by
  rw [h.ranges_eq]
  exact ⟨_, rfl⟩

end

end DavOS
