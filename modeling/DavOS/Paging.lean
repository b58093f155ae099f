import DavOS.PageMapping

/-! `paging.cpp`: page ranges and the loops that map them, and the page-fault
handler of `idt.cpp` that calls them. -/
namespace DavOS
open MachineWord kernelConstants

abbrev uint64Max : Nat := 2 ^ 64 - 1

/-- Round the address down to the nearest page. -/
def pageFloor (address : Nat) : Nat := address - address % pageSize

/-- Round the address up to the nearest page, or leave it as it is when the
next page would be beyond the address space. -/
def pageCeil (address : Nat) : Nat :=
  if address % pageSize = 0 then address
  else if uint64Max - pageSize < address then address
  else pageFloor (wrap (address + pageSize))

structure PageRange where
  firstPage : Nat
  lastPage : Nat
  deriving DecidableEq

def getPageRange (virtualBase length : Nat) : PageRange where
  firstPage := pageFloor virtualBase
  lastPage :=
    -- the overflow check subtracts in 64 bits as well
    if wrapSub (pageFloor uint64Max) length < virtualBase then pageFloor uint64Max
    else pageCeil (wrap (virtualBase + length))

/-- The body of the loop in `paging_add_mapping`: page and frame advance together. -/
def addMappingStep (hhdm : HhdmOffset) (root : Nat) (flags : PageFlags) (at_ : PagingState × Nat)
    (page : Nat) : Except Stop (PagingState × Nat) := do
  let s ← PageTree.mapPageToFrame hhdm root at_.1 page at_.2 flags
  return (s, wrap (at_.2 + frameSize))

def pagingAddMapping (hhdm : HhdmOffset) (root : Nat) (s : PagingState)
    (virtualBase physicalBase length : Nat) (flags : PageFlags) : Except Stop PagingState := do
  let range := getPageRange virtualBase length
  let pages ← orHang (strideWhile (fun page => decide (page < range.lastPage)) pageSize loopFuel range.firstPage)
  let (s, _) ← pages.foldlM (addMappingStep hhdm root flags) (s, pageFloor physicalBase)
  return s

/-- The body of the loop in `paging_allocate_and_map`. -/
def allocateAndMapStep (hhdm : HhdmOffset) (root : Nat) (flags : PageFlags) (s : PagingState)
    (page : Nat) : Except Stop PagingState := do
  let (frame, free) ← s.free.allocateFrame
  pagingAddMapping hhdm root ⟨s.mem, free⟩ page frame pageSize flags

def pagingAllocateAndMap (hhdm : HhdmOffset) (root : Nat) (s : PagingState)
    (virtualBase length : Nat) (flags : PageFlags) : Except Stop PagingState := do
  let range := getPageRange virtualBase length
  let pages ← orHang (strideWhile (fun page => decide (page ≠ range.lastPage)) pageSize loopFuel range.firstPage)
  pages.foldlM (allocateAndMapStep hhdm root flags) s

/-- The handler takes the faulting address from `cr2` as it is. -/
def isrPageFault (hhdm : HhdmOffset) (root : Nat) (s : PagingState) (faultingAddress : Nat) :
    Except Stop PagingState :=
  pagingAllocateAndMap hhdm root s faultingAddress pageSize PageFlags.write

/-! ### Ranges -/

theorem pageFloor_uint64Max : pageFloor uint64Max = 0xfffffffffffff000 := by decide

theorem getPageRange_of_le {virtualBase length : Nat} (h : virtualBase + length ≤ 0xfffffffffffff000) :
    getPageRange virtualBase length = ⟨virtualBase / 4096 * 4096, (virtualBase + length + 4095) / 4096 * 4096⟩ := by
  have hguard : ¬ wrapSub (pageFloor uint64Max) length < virtualBase := by
    rw [pageFloor_uint64Max, wrapSub_of_le (by decide) (by omega)]
    omega
  have hwrap : wrap (virtualBase + length) = virtualBase + length := wrap_of_lt (by omega)
  have hceil : pageCeil (virtualBase + length) = (virtualBase + length + 4095) / 4096 * 4096 := by
    simp only [pageCeil, pageFloor, pageSize, uint64Max]
    by_cases hmod : (virtualBase + length) % 4096 = 0
    · rw [if_pos hmod]
      omega
    · rw [if_neg hmod, if_neg (by omega), wrap_of_lt (by omega)]
      omega
  rw [getPageRange, if_neg hguard, hwrap, hceil, PageRange.mk.injEq]
  refine ⟨?_, rfl⟩
  simp only [pageFloor, pageSize]
  omega

/-- A region that would pass the last page is cut off there. -/
theorem getPageRange_saturates {virtualBase length : Nat} (hlength : length ≤ 0xfffffffffffff000)
    (h : 0xfffffffffffff000 < virtualBase + length) :
    getPageRange virtualBase length = ⟨pageFloor virtualBase, 0xfffffffffffff000⟩ := by
  have hguard : wrapSub (pageFloor uint64Max) length < virtualBase := by
    rw [pageFloor_uint64Max, wrapSub_of_le (by decide) hlength]
    omega
  rw [getPageRange, if_pos hguard, pageFloor_uint64Max]

theorem pagingAddMapping_page (hhdm : HhdmOffset) (root : Nat) (s : PagingState) {page frame : Nat}
    (hpage : page % 4096 = 0) (hlast : page + 4096 ≤ 0xfffffffffffff000) (hframe : frame % 4096 = 0)
    (flags : PageFlags) :
    pagingAddMapping hhdm root s page frame pageSize flags =
      PageTree.mapPageToFrame hhdm root s page frame flags := by
  have hrange : getPageRange page pageSize = ⟨page, page + 4096⟩ := by
    rw [pageSize, getPageRange_of_le hlast, PageRange.mk.injEq]
    omega
  have hpages : strideWhile (fun y => decide (y < page + 4096)) pageSize loopFuel page = some [page] := by
    rw [strideWhile_lt (n := 1) (by decide) (by rw [pageSize]) (by omega)]
    rfl
  have hfloor : pageFloor frame = frame := by
    simp only [pageFloor, pageSize]
    omega
  unfold pagingAddMapping
  rw [hrange]
  simp only [hpages, orHang_some, hfloor]
  change (List.foldlM (addMappingStep hhdm root flags) (s, frame) [page] >>= fun x => pure x.1) = _
  rw [List.foldlM_cons]
  unfold addMappingStep
  cases PageTree.mapPageToFrame hhdm root s page frame flags <;> rfl

theorem addMappingStep_ok {hhdm : HhdmOffset} {root page frame : Nat} {s : PagingState} {flags : PageFlags}
    (hframe : frame + 4096 < 2 ^ 64) {at_ : PagingState × Nat} :
    addMappingStep hhdm root flags (s, frame) page = .ok at_ ↔
      ∃ t, PageTree.mapPageToFrame hhdm root s page frame flags = .ok t ∧ at_ = (t, frame + 4096) := by
  have hnext : wrap (frame + frameSize) = frame + 4096 := wrap_of_lt hframe
  unfold addMappingStep
  constructor
  · intro hs
    obtain ⟨t, ht, hs⟩ := bind_ok hs
    rw [← hnext]
    exact ⟨t, ht, (Except.ok.inj hs).symm⟩
  · rintro ⟨t, ht, rfl⟩
    dsimp only
    rw [ht]
    change Except.ok (t, wrap (frame + frameSize)) = _
    rw [hnext]

end DavOS
