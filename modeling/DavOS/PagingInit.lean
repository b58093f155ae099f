import DavOS.FrameOwnership
import DavOS.OffsetReads
import DavOS.Paging
import DavOS.TreeStates

/-! `paging_init` and the calls after it. The direct-map offset is read from the
bootloader's response structure on every conversion of an address, while the
frames of that structure go back to the free stack. -/
namespace DavOS
open MachineWord PathGraph PageTreeNode kernelConstants GuardedRun

/-! ### The code -/

/-- The HHDM response that `limine::hhdm_address` points to: the offset given at
boot, and the frame and word of the frame where it is stored. -/
structure HhdmResponse where
  offset : Nat
  frame : Nat
  word : Index

/-- `limine::hhdm_address->offset`; the pointer is an address of the direct map. -/
def HhdmResponse.hhdm (r : HhdmResponse) : HhdmOffset := offsetIn r.offset r.frame r.word

structure MemoryRegion where
  base : Nat
  size : Nat

structure Mapping where
  fromVirtual : MemoryRegion
  toPhysical : Nat
  flags : FlagSet

/-- The kernel image: the linker's symbols and where the bootloader has put it. -/
structure KernelImage where
  readonlyStart : Nat
  readonlyEnd : Nat
  rwStart : Nat
  rwEnd : Nat
  physicalBase : Nat

/-- The static array is filled before `main`, so the offset in it is the one given at boot. -/
def initialMappings (offset : Nat) (image : KernelImage) : List Mapping :=
  [ -- 4 GiB identity map
    ⟨⟨0x1000, 0x100000000⟩, 0x1000, FlagSet.write⟩,
    -- 4 GiB HHDM map
    ⟨⟨offset, 0x100000000⟩, 0, FlagSet.write⟩,
    -- kernel mapping (read-only section)
    ⟨⟨image.readonlyStart, wrapSub image.readonlyEnd image.readonlyStart⟩, image.physicalBase,
      FlagSet.none⟩,
    -- kernel mapping (read/write section)
    ⟨⟨image.rwStart, wrapSub image.rwEnd image.rwStart⟩,
      wrap (image.physicalBase + wrapSub image.readonlyEnd image.readonlyStart),
      FlagSet.write⟩ ]

inductive PagingCall where
  | addMapping (virtualBase physicalBase length : Nat) (flags : FlagSet)
  | allocateAndMap (virtualBase length : Nat) (flags : FlagSet)

def pagingCall (hhdm : HhdmOffset) (root : Nat) (s : PagingState) : PagingCall → Except Stop PagingState
  | .addMapping virtualBase physicalBase length flags =>
      pagingAddMapping hhdm root s virtualBase physicalBase length flags.bits
  | .allocateAndMap virtualBase length flags => pagingAllocateAndMap hhdm root s virtualBase length flags.bits

def Mapping.call (mapping : Mapping) : PagingCall :=
  .addMapping mapping.fromVirtual.base mapping.toPhysical mapping.fromVirtual.size mapping.flags

def addInitialMappings (hhdm : HhdmOffset) (root : Nat) (mappings : List Mapping) (s : PagingState) :
    Except Stop PagingState :=
  (mappings.map Mapping.call).foldlM (pagingCall hhdm root) s

/-- `free_limine_bootloader_memory` on the list that the stack stands for. -/
def FreeStack.freeLimineBootloaderMemory (map : List LimineMemmapEntry) : FreeStack → Except Stop FreeStack :=
  sweepFrames isReclaimable deallocateFrame map

/-- The frame of the root table, and the state in which `paging_init` returns. -/
def pagingInit (hhdm : HhdmOffset) (map : List LimineMemmapEntry) (mappings : List Mapping) (s : PagingState) :
    Except Stop (Nat × PagingState) := do
  let (pml4TableFrame, free) ← s.free.allocateFrame
  let virtualPml4TableFrame := kernelPhysicalToVirtual hhdm s.mem pml4TableFrame
  let m := construct s.mem virtualPml4TableFrame
  let s ← addInitialMappings hhdm virtualPml4TableFrame mappings ⟨m, free⟩
  -- `load_ptbr` makes the new tree the active one; the kernel's view of its own memory stays
  let free ← s.free.freeLimineBootloaderMemory map
  return (pml4TableFrame, ⟨s.mem, free⟩)

theorem Backs.reclaim {map : LimineMap} {base : Nat} {a a' : FrameAllocator} {free : FreeStack}
    (h : Backs base a free) (hs : a.freeLimineBootloaderMemory map.entries = .ok a') :
    ∃ free', free.freeLimineBootloaderMemory map.entries = .ok free' ∧ Backs base a' free' := by
  have hregular : ∀ e ∈ map.entries, isReclaimable e → e.Regular := fun e he hc => map.regular e he (Or.inr hc)
  rw [FrameAllocator.freeLimineBootloaderMemory, sweepFrames_eq _ hregular, Except.ok.injEq] at hs
  subst hs
  exact ⟨_, sweepFrames_eq _ hregular free, h.foldl_push fun f hf => map.frame_lt (Or.inr hf)⟩

theorem FreeStack.freeLimineBootloaderMemory_ok {map : LimineMap} {free free' : FreeStack}
    (h : free.freeLimineBootloaderMemory map.entries = .ok free') :
    free'.frames = (map.reclaimableFrames.take (free.capacity - free.frames.length)).reverse ++ free.frames ∧
      free'.capacity = free.capacity := by
  have hregular : ∀ e ∈ map.entries, isReclaimable e → e.Regular := fun e he hc => map.regular e he (Or.inr hc)
  rw [freeLimineBootloaderMemory, sweepFrames_eq _ hregular, Except.ok.injEq] at h
  subst h
  exact FreeStack.foldl_deallocateFrame map.reclaimableFrames free

/-! ### One mapping -/

/-- The tables of the tree are neither free nor the frame `f`. -/
structure Standing (offset root f : Nat) (s : PagingState) : Prop where
  intact : Intact offset root ⟨s.mem, noFrames⟩
  nodup : s.free.frames.Nodup
  nodes : ∀ ρ n, ρ.length ≤ 3 → follow (edge offset s.mem) root ρ = some n → n ∉ s.free.frames ∧ n ≠ f

/-- What a sequence of mappings keeps: the words of `f`, and the tables of the tree. -/
structure Maintains (offset root f : Nat) (s s' : PagingState) : Prop where
  standing : Standing offset root f s'
  words : ∀ j, entryAt offset s'.mem f j = entryAt offset s.mem f j
  free : s'.free.frames <:+ s.free.frames
  grown : ∀ ρ n, ρ.length ≤ 3 → follow (edge offset s'.mem) root ρ = some n →
    follow (edge offset s.mem) root ρ = some n ∨ n ∈ s.free.frames

section

variable {offset root f : Nat} {j : Index} {s s' t : PagingState}

theorem Maintains.refl (h : Standing offset root f s) : Maintains offset root f s s :=
  ⟨h, fun _ => rfl, List.suffix_refl _, fun _ _ _ hn => Or.inl hn⟩

theorem Maintains.trans (h : Maintains offset root f s t) (h' : Maintains offset root f t s') :
    Maintains offset root f s s' := by
  refine ⟨h'.standing, fun j => (h'.words j).trans (h.words j), h'.free.trans h.free, fun ρ n hρ hn => ?_⟩
  rcases h'.grown ρ n hρ hn with hn | hn
  · exact h.grown ρ n hρ hn
  · exact Or.inr (h.free.subset hn)

theorem Maintains.reads (h : Maintains offset root f s s') (hread : offsetIn offset f j s.mem = offset) :
    offsetIn offset f j s'.mem = offset := by
  rw [offsetIn, h.words]
  exact hread

theorem Standing.taking (h : Standing offset root f s) {page : Nat} (hf : IsTable f)
    (htaken : ∀ g ∈ tablesTaken offset root s page, IsFrame g ∧ g ≠ f) :
    let small : FreeStack := ⟨tablesTaken offset root s page, _, Nat.le_refl _⟩
    Intact offset root ⟨s.mem, small⟩ ∧ Aside offset root ⟨s.mem, small⟩ f := by
  have hsub : ∀ g ∈ tablesTaken offset root s page, g ∈ s.free.frames := fun g hg => List.mem_of_mem_take hg
  refine ⟨⟨h.intact.rootTable, h.intact.unshared, ?_, h.intact.entries, ?_, ?_⟩, hf, ?_, ?_⟩
  · intro ρ n hρ hn
    exact ⟨(h.intact.nodes ρ n hρ hn).1, fun hc => (h.nodes ρ n hρ hn).1 (hsub n hc)⟩
  · exact h.nodup.sublist (List.take_sublist _ _)
  · exact fun g hg => (htaken g hg).1
  · exact fun hc => (htaken f hc).2 rfl
  · exact fun ρ hρ hn => (h.nodes ρ f hρ hn).2 rfl

/-- `map_page_to_frame` when none of the tables it takes is the frame that holds the offset. -/
theorem Standing.map (h : Standing offset root f s) (hf : IsTable f)
    (hread : offsetIn offset f j s.mem = offset) {page frame : Nat} {flags : FlagSet}
    (hframe : IsTable frame) (htaken : ∀ g ∈ tablesTaken offset root s page, IsFrame g ∧ g ≠ f)
    (hs : PageTree.mapPageToFrame (offsetIn offset f j) (wrap (root + offset)) s page frame flags.bits =
      .ok s') : Maintains offset root f s s' ∧
    (∀ v, leafEntry offset root s'.mem v =
      if SamePage v page then entryWord frame flags.bits else leafEntry offset root s.mem v) ∧
    ∀ n, IsNode offset root s'.mem n → IsNode offset root s.mem n ∨ n ∈ tablesTaken offset root s page := by
  obtain ⟨hintact, haside⟩ := h.taking hf htaken
  obtain ⟨m', big'⟩ := s'
  obtain ⟨small', hsmall, hover⟩ :=
    mapPageToFrame_taken hintact (mapPageToFrame_congr hintact haside hread page frame) hs
  have hmap := mapPageToFrame_spec hintact hframe hsmall
  obtain ⟨haside', hwords⟩ := mapPageToFrame_aside hintact hframe.1 haside hsmall
  obtain ⟨nodes, hnodes, _⟩ := hmap.taken
  have hbig : big'.frames <:+ s.free.frames := by
    rw [hover]
    refine ⟨nodes, ?_⟩
    rw [← List.append_assoc, ← hnodes]
    exact List.take_append_drop _ _
  have hnodup : (tablesTaken offset root s page).Disjoint
      (s.free.frames.drop (missing (edge offset s.mem) root (path page))) := by
    have hn := h.nodup
    rw [← List.take_append_drop (missing (edge offset s.mem) root (path page)) s.free.frames] at hn
    exact List.disjoint_of_nodup_append hn
  have htables : ∀ ρ n, ρ.length ≤ 3 → follow (edge offset m') root ρ = some n →
      follow (edge offset s.mem) root ρ = some n ∨ n ∈ tablesTaken offset root s page := by
    intro ρ n hρ hn
    rcases hmap.grown ρ n hρ hn with hold | ⟨hnew, _⟩
    · exact Or.inl hold
    · exact Or.inr hnew
  refine ⟨⟨⟨hmap.intact.shrink (List.nil_sublist _), hbig.sublist.nodup h.nodup, ?_⟩, hwords, hbig, ?_⟩,
    hmap.leaves, ?_⟩
  · intro ρ n hρ hn
    refine ⟨fun hc => ?_, fun hc => haside'.node ρ hρ (hc ▸ hn)⟩
    rcases htables ρ n hρ hn with hold | hnew
    · exact (h.nodes ρ n hρ hold).1 (hbig.subset hc)
    · rw [hover] at hc
      rcases List.mem_append.mp hc with hc | hc
      · exact (hmap.intact.nodes ρ n hρ hn).2 hc
      · exact hnodup hnew hc
  · intro ρ n hρ hn
    exact (htables ρ n hρ hn).imp_right List.mem_of_mem_take
  · rintro n ⟨ρ, hρ, hn⟩
    exact (htables ρ n hρ hn).imp_left fun hold => ⟨ρ, hρ, hold⟩

theorem Standing.pop {frame : Nat} {free : FreeStack} (h : Standing offset root f s)
    (halloc : s.free.allocateFrame = .ok (frame, free)) : Maintains offset root f s ⟨s.mem, free⟩ := by
  have hsuffix : free.frames <:+ s.free.frames := by
    rw [(FreeStack.allocateFrame_ok halloc).1]
    exact List.suffix_cons frame _
  refine ⟨⟨h.intact, hsuffix.sublist.nodup h.nodup, fun ρ n hρ hn => ?_⟩, fun _ => rfl, hsuffix,
    fun _ _ _ hn => Or.inl hn⟩
  exact ⟨fun hc => (h.nodes ρ n hρ hn).1 (hsuffix.subset hc), (h.nodes ρ n hρ hn).2⟩

end

/-! ### Calls round by round -/

section

variable (hhdm : HhdmOffset) (root : Nat) (round : PagingState → Nat → Nat → Prop)

/-- Each round of the loop in `paging_add_mapping` meets `round`, with the page and the frame of the round. -/
def AddMappingRounds (s : PagingState) (virtualBase physicalBase length : Nat) (flags : FlagSet) : Prop :=
  ∀ pages, strideWhile (fun page => decide (page < (getPageRange virtualBase length).lastPage)) pageSize
      loopFuel (getPageRange virtualBase length).firstPage = some pages →
    Guarded (addMappingStep hhdm root flags.bits) (fun at_ page => round at_.1 page at_.2)
      (s, pageFloor physicalBase) pages

/-- A round of `paging_allocate_and_map` first takes the frame that it maps. -/
def AllocateAndMapRounds (s : PagingState) (virtualBase length : Nat) (flags : FlagSet) : Prop :=
  ∀ pages, strideWhile (fun page => decide (page ≠ (getPageRange virtualBase length).lastPage)) pageSize
      loopFuel (getPageRange virtualBase length).firstPage = some pages →
    Guarded (allocateAndMapStep hhdm root flags.bits)
      (fun s page => ∀ frame free, s.free.allocateFrame = .ok (frame, free) →
        AddMappingRounds hhdm root round ⟨s.mem, free⟩ page frame pageSize flags) s pages

def PagingCall.Rounds (s : PagingState) : PagingCall → Prop
  | .addMapping virtualBase physicalBase length flags =>
      AddMappingRounds hhdm root round s virtualBase physicalBase length flags
  | .allocateAndMap virtualBase length flags => AllocateAndMapRounds hhdm root round s virtualBase length flags

end

section

variable {hhdm : HhdmOffset} {root : Nat} {round : PagingState → Nat → Nat → Prop} {I : PagingState → Prop}
  {s s' : PagingState}

theorem AddMappingRounds.invariant {virtualBase physicalBase length : Nat} {flags : FlagSet}
    (hmap : ∀ s page frame flags t, I s → round s page frame →
      PageTree.mapPageToFrame hhdm root s page frame (FlagSet.bits flags) = .ok t → I t)
    (h : AddMappingRounds hhdm root round s virtualBase physicalBase length flags)
    (hs : pagingAddMapping hhdm root s virtualBase physicalBase length flags.bits = .ok s') (hI : I s) : I s' := by
  unfold pagingAddMapping at hs
  obtain ⟨pages, hpages, hs⟩ := bind_ok hs
  obtain ⟨⟨t, last⟩, hloop, hs⟩ := bind_ok hs
  cases hs
  refine ((h pages (orHang_ok hpages)).run hloop).invariant (I := fun at_ => I at_.1) ?_ hI
  rintro ⟨t, frame⟩ page ⟨u, next⟩ ht hround hu
  obtain ⟨v, hv, hu⟩ := bind_ok hu
  cases hu
  exact hmap t page frame flags _ ht hround hv

theorem AddMappingRounds.mono {round' : PagingState → Nat → Nat → Prop} {virtualBase physicalBase length : Nat}
    {flags : FlagSet} (hround : ∀ s page frame, round s page frame → round' s page frame)
    (h : AddMappingRounds hhdm root round s virtualBase physicalBase length flags) :
    AddMappingRounds hhdm root round' s virtualBase physicalBase length flags :=
  fun pages hpages => (h pages hpages).mono fun (at_ : PagingState × Nat) page => hround at_.1 page at_.2

theorem PagingCall.Rounds.mono {round' : PagingState → Nat → Nat → Prop} {call : PagingCall}
    (hround : ∀ s page frame, round s page frame → round' s page frame) (h : call.Rounds hhdm root round s) :
    call.Rounds hhdm root round' s := by
  cases call with
  | addMapping virtualBase physicalBase length flags => exact AddMappingRounds.mono hround h
  | allocateAndMap virtualBase length flags =>
      exact fun pages hpages => (h pages hpages).mono fun t page hrounds frame free halloc =>
        (hrounds frame free halloc).mono hround

theorem AddMappingRounds.page {page frame : Nat} {flags : FlagSet} (hpage : page % 4096 = 0)
    (hlast : page + 4096 ≤ 0xfffffffffffff000) (hframe : frame % 4096 = 0) (h : round s page frame) :
    AddMappingRounds hhdm root round s page frame pageSize flags := by
  intro pages hpages
  have hrange : getPageRange page pageSize = ⟨page, page + 4096⟩ := by
    rw [pageSize, getPageRange_of_le hlast, PageRange.mk.injEq]
    omega
  have hone : strideWhile (fun y => decide (y < page + 4096)) pageSize loopFuel page = some [page] := by
    rw [strideWhile_lt (n := 1) (by decide) (by rw [pageSize]) (by omega)]
    rfl
  have hfloor : pageFloor frame = frame := by
    simp only [pageFloor, pageSize]
    omega
  rw [hrange] at hpages
  cases hone.symm.trans hpages
  rw [hfloor]
  exact ⟨h, fun _ _ => trivial⟩

/-- What each round preserves, and the taking of a frame, a call preserves. -/
theorem PagingCall.Rounds.invariant {call : PagingCall}
    (hmap : ∀ s page frame flags t, I s → round s page frame →
      PageTree.mapPageToFrame hhdm root s page frame (FlagSet.bits flags) = .ok t → I t)
    (hpop : ∀ s frame free, I s → s.free.allocateFrame = .ok (frame, free) → I ⟨s.mem, free⟩)
    (h : call.Rounds hhdm root round s) (hs : pagingCall hhdm root s call = .ok s') (hI : I s) : I s' := by
  cases call with
  | addMapping virtualBase physicalBase length flags => exact AddMappingRounds.invariant hmap h hs hI
  | allocateAndMap virtualBase length flags =>
      change pagingAllocateAndMap hhdm root s virtualBase length flags.bits = .ok s' at hs
      unfold pagingAllocateAndMap at hs
      obtain ⟨pages, hpages, hs⟩ := bind_ok hs
      refine ((h pages (orHang_ok hpages)).run hs).invariant (I := I) ?_ hI
      intro t page u ht hround hu
      obtain ⟨⟨frame, free⟩, halloc, hu⟩ := bind_ok hu
      exact AddMappingRounds.invariant hmap (hround frame free halloc) hu (hpop t frame free ht halloc)

theorem rounds_invariant {calls : List PagingCall}
    (hmap : ∀ s page frame flags t, I s → round s page frame →
      PageTree.mapPageToFrame hhdm root s page frame (FlagSet.bits flags) = .ok t → I t)
    (hpop : ∀ s frame free, I s → s.free.allocateFrame = .ok (frame, free) → I ⟨s.mem, free⟩)
    (hrun : Run (pagingCall hhdm root) (PagingCall.Rounds hhdm root round) s calls s') (hI : I s) : I s' :=
  hrun.invariant (fun _ _ _ ht hrounds hu => hrounds.invariant hmap hpop hu ht) hI

end

/-! ### Safe calls -/

section

variable (r : HhdmResponse) (root : Nat)

/-- A round that takes no table that is the response's frame or that the getter of
the tree would cut off. -/
def RoundSafe (s : PagingState) (page frame : Nat) : Prop :=
  IsTable frame ∧ ∀ f ∈ tablesTaken r.offset root s page, IsFrame f ∧ f ≠ r.frame

/-- The processor finds the frame `f` at its address in the direct map. -/
def InDirectMap (s : PagingState) (f : Nat) : Prop :=
  (Ia32e.leaf (physical r.offset s.mem) root (wrap (f + r.offset))).map Ia32e.addressField = some f

/-- The frames that the kernel reads and writes through the direct map when it maps a page. -/
def WorkFrame (s : PagingState) (f : Nat) : Prop := f = r.frame ∨ IsNode r.offset root s.mem f

/-- A round under the kernel's own tables. The new tables are in the direct map, and the
round does not map the page there of a frame that the kernel works on to another frame. -/
def RoundSeen (s : PagingState) (page frame : Nat) : Prop :=
  (∀ f ∈ tablesTaken r.offset root s page, InDirectMap r root s f) ∧
    ∀ f, WorkFrame r root s f ∨ f ∈ tablesTaken r.offset root s page → SamePage (wrap (f + r.offset)) page → frame = f

end

section

variable {r : HhdmResponse} {root : Nat} {s s' t : PagingState} {page frame f : Nat} {flags : FlagSet}

theorem Standing.calls (h : Standing r.offset root r.frame s) (hf : IsTable r.frame)
    (hread : r.hhdm s.mem = r.offset) {calls : List PagingCall}
    (hrun : Run (pagingCall r.hhdm (wrap (root + r.offset)))
      (PagingCall.Rounds r.hhdm (wrap (root + r.offset)) (RoundSafe r root)) s calls s') :
    Maintains r.offset root r.frame s s' := by
  refine rounds_invariant (I := fun t => Maintains r.offset root r.frame s t) ?_ ?_ hrun (.refl h)
  · intro t page frame flags u ht hsafe hu
    exact ht.trans (ht.standing.map hf (ht.reads hread) hsafe.1 hsafe.2 hu).1
  · intro t frame free ht halloc
    exact ht.trans (ht.standing.pop halloc)

theorem InDirectMap.congr (h : InDirectMap r root s f)
    (hleaf : leafEntry r.offset root t.mem (wrap (f + r.offset)) = leafEntry r.offset root s.mem (wrap (f + r.offset))) :
    InDirectMap r root t f := by
  unfold InDirectMap at h ⊢
  rwa [leaf_eq_leafEntry, hleaf, ← leaf_eq_leafEntry]

theorem inDirectMap_of_entryWord (hf : IsTable f)
    (hleaf : leafEntry r.offset root t.mem (wrap (f + r.offset)) = entryWord f flags.bits) : InDirectMap r root t f := by
  rw [InDirectMap, leaf_eq_leafEntry, hleaf, if_pos (entryWord_isPresent _ _), Option.map_some,
    entryWord_addressField hf.1 hf.2]

theorem RoundSeen.keeps (hseen : RoundSeen r root s page frame) (hframe : IsTable frame)
    (hleaves : ∀ v, leafEntry r.offset root t.mem v =
      if SamePage v page then entryWord frame flags.bits else leafEntry r.offset root s.mem v)
    (hnodes : ∀ n, IsNode r.offset root t.mem n → IsNode r.offset root s.mem n ∨ n ∈ tablesTaken r.offset root s page)
    (h : ∀ f, WorkFrame r root s f → InDirectMap r root s f) (hf : WorkFrame r root t f) : InDirectMap r root t f := by
  have hwork : WorkFrame r root s f ∨ f ∈ tablesTaken r.offset root s page := by
    rcases hf with rfl | hnode
    · exact Or.inl (Or.inl rfl)
    · exact (hnodes f hnode).imp_left Or.inr
  have hbefore : InDirectMap r root s f := hwork.elim (h f) (hseen.1 f)
  by_cases hsame : SamePage (wrap (f + r.offset)) page
  · obtain rfl := hseen.2 f hwork hsame
    exact inDirectMap_of_entryWord hframe (by rw [hleaves, if_pos hsame])
  · exact hbefore.congr (by rw [hleaves, if_neg hsame])

theorem Standing.seenCalls (h : Standing r.offset root r.frame s) (hf : IsTable r.frame)
    (hread : r.hhdm s.mem = r.offset) {calls : List PagingCall}
    (hrun : Run (pagingCall r.hhdm (wrap (root + r.offset))) (PagingCall.Rounds r.hhdm (wrap (root + r.offset))
      fun s page frame => RoundSafe r root s page frame ∧ RoundSeen r root s page frame) s calls s') :
    Maintains r.offset root r.frame s s' ∧
      ((∀ f, WorkFrame r root s f → InDirectMap r root s f) → ∀ f, WorkFrame r root s' f → InDirectMap r root s' f) := by
  refine rounds_invariant (I := fun t => Maintains r.offset root r.frame s t ∧
    ((∀ f, WorkFrame r root s f → InDirectMap r root s f) → ∀ f, WorkFrame r root t f → InDirectMap r root t f))
    ?_ ?_ hrun ⟨.refl h, id⟩
  · rintro t page frame flags u ⟨ht, hmap⟩ ⟨hsafe, hseen⟩ hu
    obtain ⟨hu, hleaves, hnodes⟩ := ht.standing.map hf (ht.reads hread) hsafe.1 hsafe.2 hu
    exact ⟨ht.trans hu, fun hstart f hwork => hseen.keeps hsafe.1 hleaves hnodes (hmap hstart) hwork⟩
  · rintro t frame free ⟨ht, hmap⟩ halloc
    exact ⟨ht.trans (ht.standing.pop halloc), hmap⟩

end

end DavOS
