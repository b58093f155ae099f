import DavOS.Paging

/-! Which pages `paging_add_mapping` and `paging_allocate_and_map` visit for a
region. The last page of the address space is the exclusive end that every range
is cut off at, so it is never visited itself. -/
namespace DavOS
open MachineWord kernelConstants

/-- The pages that the loop of `paging_add_mapping` visits. -/
def addMappingPages (virtualBase length : Nat) : Option (List Nat) :=
  let range := getPageRange virtualBase length
  strideWhile (fun page => decide (page < range.lastPage)) pageSize loopFuel range.firstPage

/-- The pages that the loop of `paging_allocate_and_map` visits. -/
def allocateAndMapPages (virtualBase length : Nat) : Option (List Nat) :=
  let range := getPageRange virtualBase length
  strideWhile (fun page => decide (page ≠ range.lastPage)) pageSize loopFuel range.firstPage

theorem pagingAddMapping_eq (hhdm : HhdmOffset) (root : Nat) (s : PagingState)
    (virtualBase physicalBase length : Nat) (flags : PageFlags) :
    pagingAddMapping hhdm root s virtualBase physicalBase length flags =
      (orHang (addMappingPages virtualBase length) >>= fun pages =>
        pages.foldlM (addMappingStep hhdm root flags) (s, pageFloor physicalBase) >>= fun at_ => pure at_.1) := rfl

theorem pagingAllocateAndMap_eq (hhdm : HhdmOffset) (root : Nat) (s : PagingState) (virtualBase length : Nat)
    (flags : PageFlags) :
    pagingAllocateAndMap hhdm root s virtualBase length flags =
      (orHang (allocateAndMapPages virtualBase length) >>= fun pages =>
        pages.foldlM (allocateAndMapStep hhdm root flags) s) := rfl

/-- The 4096 bytes from `page` on are a page that has a byte of the region. -/
def PageMeets (virtualBase length page : Nat) : Prop :=
  page % 4096 = 0 ∧ ∃ a, virtualBase ≤ a ∧ a < virtualBase + length ∧ page ≤ a ∧ a < page + 4096

/-- The loop ends, and visits the pages of the region in increasing order, each once. -/
def VisitsRegion (pages : Option (List Nat)) (virtualBase length : Nat) : Prop :=
  ∃ visited, pages = some visited ∧ visited.Pairwise (· < ·) ∧ ∀ page, page ∈ visited ↔ PageMeets virtualBase length page

/-- What `get_page_range` promises, and what the two loops make of it. -/
structure RangeExact (virtualBase length : Nat) : Prop where
  first_aligned : (getPageRange virtualBase length).firstPage % 4096 = 0
  last_aligned : (getPageRange virtualBase length).lastPage % 4096 = 0
  ordered : (getPageRange virtualBase length).firstPage ≤ (getPageRange virtualBase length).lastPage
  addMapping : VisitsRegion (addMappingPages virtualBase length) virtualBase length
  allocateAndMap : VisitsRegion (allocateAndMapPages virtualBase length) virtualBase length

section

variable {virtualBase length : Nat}

theorem pageMeets_iff (hlength : 0 < length) (page : Nat) :
    PageMeets virtualBase length page ↔
      page % 4096 = 0 ∧ page < virtualBase + length ∧ virtualBase < page + 4096 := by
  unfold PageMeets
  constructor
  · rintro ⟨haligned, a, ha⟩
    omega
  · rintro ⟨haligned, hbelow, habove⟩
    exact ⟨haligned, max virtualBase page, by omega⟩

def pageCount (virtualBase length : Nat) : Nat := (virtualBase + length + 4095) / 4096 - virtualBase / 4096

theorem pages_eq_stride (h : virtualBase + length ≤ 0xfffffffffffff000) :
    addMappingPages virtualBase length = some (stride 4096 (virtualBase / 4096 * 4096) (pageCount virtualBase length)) ∧
    allocateAndMapPages virtualBase length =
      some (stride 4096 (virtualBase / 4096 * 4096) (pageCount virtualBase length)) := by
  have hlast : (virtualBase + length + 4095) / 4096 * 4096 =
      virtualBase / 4096 * 4096 + 4096 * pageCount virtualBase length := by
    unfold pageCount
    omega
  have hwrap : (virtualBase + length + 4095) / 4096 * 4096 < 2 ^ 64 := by omega
  unfold addMappingPages allocateAndMapPages
  rw [getPageRange_of_le h]
  exact ⟨strideWhile_lt (by decide) hlast hwrap, strideWhile_ne (by decide) hlast hwrap⟩

theorem addMappingPages_page (h : virtualBase < 2 ^ 64) :
    ∃ n ≤ 2, addMappingPages virtualBase 0x1000 = some (stride 4096 (virtualBase / 4096 * 4096) n) := by
  by_cases hend : virtualBase + 0x1000 ≤ 0xfffffffffffff000
  · refine ⟨pageCount virtualBase 0x1000, ?_, (pages_eq_stride hend).1⟩
    unfold pageCount
    omega
  · have hfloor : pageFloor virtualBase = virtualBase / 4096 * 4096 := by
      simp only [pageFloor, pageSize]
      omega
    unfold addMappingPages
    rw [getPageRange_saturates (by decide) (by omega), hfloor]
    dsimp only
    -- the range is cut off at the last page, so at most the page before it is left
    refine ⟨(0xfffffffffffff000 - virtualBase / 4096 * 4096) / 4096, by omega, ?_⟩
    by_cases hlast : virtualBase / 4096 * 4096 < 0xfffffffffffff000
    · exact strideWhile_lt (by decide) (by unfold pageSize; omega) (by decide)
    · have hzero : (0xfffffffffffff000 - virtualBase / 4096 * 4096) / 4096 = 0 := by omega
      rw [hzero]
      exact strideWhile_eq_stride _ 0 (fun i hi => absurd hi (Nat.not_lt_zero i))
        (by simpa using Nat.le_of_not_lt hlast) (by unfold pageSize; omega) (by decide)

theorem mem_stride_pages (hlength : 0 < length) (page : Nat) :
    page ∈ stride 4096 (virtualBase / 4096 * 4096) (pageCount virtualBase length) ↔
      PageMeets virtualBase length page := by
  rw [pageMeets_iff hlength, mem_stride]
  unfold pageCount
  constructor
  · rintro ⟨i, hi, rfl⟩
    omega
  · rintro ⟨haligned, hbelow, habove⟩
    exact ⟨page / 4096 - virtualBase / 4096, by omega⟩

theorem rangeExact_of_le (hlength : 0 < length) (h : virtualBase + length ≤ 0xfffffffffffff000) :
    RangeExact virtualBase length := by
  have hvisits : VisitsRegion (some (stride 4096 (virtualBase / 4096 * 4096) (pageCount virtualBase length)))
      virtualBase length :=
    ⟨_, rfl, stride_sorted (by decide) _ _, fun page => mem_stride_pages hlength page⟩
  obtain ⟨hadd, hallocate⟩ := pages_eq_stride h
  refine ⟨?_, ?_, ?_, hadd ▸ hvisits, hallocate ▸ hvisits⟩
  · rw [getPageRange_of_le h]
    exact Nat.mul_mod_left _ _
  · rw [getPageRange_of_le h]
    exact Nat.mul_mod_left _ _
  · rw [getPageRange_of_le h]
    dsimp only
    omega

/-- When the length alone passes the last page, the overflow check is the one that overflows. -/
theorem getPageRange_of_long (hlong : 0xfffffffffffff000 < length) (hfits : virtualBase + length ≤ 2 ^ 64) :
    (getPageRange virtualBase length).lastPage = wrap (virtualBase + length) := by
  have hguard : ¬ wrapSub (pageFloor uint64Max) length < virtualBase := by
    rw [pageFloor_uint64Max]
    unfold wrapSub
    omega
  rw [getPageRange, if_neg hguard]
  unfold pageCeil
  by_cases hmod : wrap (virtualBase + length) % pageSize = 0
  · rw [if_pos hmod]
  · -- the end lies inside the last page, where rounding up would overflow
    rw [if_neg hmod, if_pos]
    simp only [pageSize, uint64Max, wrap] at hmod ⊢
    omega

theorem not_rangeExact (hlength : 0 < length) (hfits : virtualBase + length ≤ 2 ^ 64)
    (h : 0xfffffffffffff000 < virtualBase + length) : ¬ RangeExact virtualBase length := by
  intro hexact
  have hmeets : PageMeets virtualBase length 0xfffffffffffff000 := by
    rw [pageMeets_iff hlength]
    omega
  obtain ⟨visited, hvisited, _, hmem⟩ := hexact.addMapping
  have hgo := strideWhile_go hvisited _ ((hmem _).mpr hmeets)
  rw [decide_eq_true_eq] at hgo
  by_cases hlong : length ≤ 0xfffffffffffff000
  · rw [getPageRange_saturates hlong h] at hgo
    exact absurd hgo (lt_irrefl _)
  · have haligned := hexact.last_aligned
    rw [getPageRange_of_long (by omega) hfits] at haligned hgo
    unfold wrap at haligned hgo
    omega

end

/-- Page ranges are exact for the regions that have no byte of the last page. -/
theorem page_range_exact_iff (virtualBase length : Nat) (hlength : 0 < length)
    (hfits : virtualBase + length ≤ 2 ^ 64) :
    RangeExact virtualBase length ↔ virtualBase + length ≤ 0xfffffffffffff000 := by
  constructor
  · intro hexact
    by_contra h
    exact not_rangeExact hlength hfits (by omega) hexact
  · exact rangeExact_of_le hlength

/-- Two bytes on either side of a page boundary. -/
theorem page_range_exact_boundary : RangeExact 0x1fff 2 :=
  (page_range_exact_iff 0x1fff 2 (by decide) (by decide)).mpr (by decide)

/-- The last page of the address space, as a region of its own. -/
theorem last_page_not_visited : 0 < 0x1000 ∧ 0xfffffffffffff000 + 0x1000 ≤ 2 ^ 64 ∧
    ¬ RangeExact 0xfffffffffffff000 0x1000 :=
  ⟨by decide, by decide, not_rangeExact (by decide) (by decide) (by decide)⟩

end DavOS
