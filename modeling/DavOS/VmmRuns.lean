import DavOS.Vmm

/-! Runs of the virtual memory manager: whether a frame on the free stack can
still be behind memory in use. `vfree` gives back the frame of a whole page, so
everything else in use on that page loses its frame too. -/
namespace DavOS
open MachineWord PathGraph LinkedSegment FreeBlockHeader GuardedRun

inductive VmmOp where
  | addMemory (base size : Nat)
  | vmalloc (size : Nat)
  | vfree (block : LiveBlock) (contents : VirtualMemory)
  | fault (address : Nat) (contents : VirtualMemory)
  | store (address : Nat) (byte : BitVec 8)

def vmmStep (offset root : Nat) (s : VmmState) : VmmOp → Except Stop VmmState
  | .addMemory base size => do
      let heap ← heapStep s.heap (.addMemory base size)
      return { s with heap := heap }
  | .vmalloc size => vmalloc s size
  | .vfree block contents => vfree offset root s block contents
  | .fault address contents => pageFault offset root s address contents
  | .store address byte => do
      let heap ← heapStep s.heap (.store address byte)
      return { s with heap := heap }

/-- `vmm_init` adds its regions before anything is freed; live blocks are freed once;
a fault is at a page that is not mapped. -/
def VmmOp.Allowed (offset root : Nat) (s : VmmState) : VmmOp → Prop
  | .addMemory base size => (HeapOp.addMemory base size).Allowed s.heap ∧ s.given = []
  | .vmalloc _ => True
  | .vfree block _ => block ∈ s.heap.live
  | .fault address _ => FaultAllowed offset root s.paging address
  | .store address byte => (HeapOp.store address byte).Allowed s.heap

/-- The bytes that `vmalloc` would hand out are on no page that has lost its frame. -/
def FreshFit (s : VmmState) (request : Nat) : Prop :=
  ∀ b, findFit s.heap.alloc.mem request loopFuel s.heap.alloc.head = some b → b ≠ 0 →
    ∀ x, LiveBlock.Has ⟨if perfectFit s.heap.alloc.mem b request then b + 16
        else b + 24 + size s.heap.alloc.mem b - request, request⟩ x → ∀ p ∈ s.given, ¬ SamePage x p

/-- The freed block joins a free block before it, and nothing else in use is on
the page of its pointer: no live block, and no free header but one that the
block absorbs. -/
structure LonePage (s : VmmState) (block : LiveBlock) : Prop where
  request : 8 ≤ block.request
  joined : ∃ b, Reachable (next s.heap.alloc.mem) s.heap.alloc.head b ∧
    b + 24 + size s.heap.alloc.mem b + 16 = block.base
  live : ∀ l ∈ s.heap.live, l ≠ block → ∀ x, l.Has x → ¬ SamePage x block.base
  free : ∀ b, Reachable (next s.heap.alloc.mem) s.heap.alloc.head b → b ≠ block.base + block.request →
    ∀ x, b ≤ x → x < b + 24 → ¬ SamePage x block.base

/-- The free frames of `start` are nowhere behind a region and the 16 bytes that
`add_memory` takes after it. -/
def Clear (offset root : Nat) (start : PagingState) (base size : Nat) : Prop :=
  ∀ x, base ≤ x → x < base + size + 16 → Mapped offset root start x →
    frameOf offset root start.mem x ∉ start.free.frames

/-- A region and the 16 bytes after it lie in `area`. -/
def LiesIn (area : Nat → Prop) (base size : Nat) : Prop :=
  ∀ x, base ≤ x → x < base + size + 16 → area x

/-- A byte of a header: of a live block, or on the free list. -/
def HeapState.Header (s : HeapState) (x : Nat) : Prop :=
  (∃ l ∈ s.live, l.base ≤ x + 16 ∧ x < l.base) ∨ ∃ b, Reachable (next s.alloc.mem) s.alloc.head b ∧ b ≤ x ∧ x < b + 24

/-- A fault at `address` leaves the heap its headers. -/
def Spares (offset root : Nat) (s : VmmState) (address : Nat) : Prop :=
  ∀ x, s.heap.Header x → ¬ Moved offset root s.paging address x

/-- What a step must meet. The page that `vfree` gives back has its frame from a fault, or
had it in `start` and was the only page of `area` there that did. -/
def VmmOp.Safe (offset root : Nat) (area : Nat → Prop) (start : PagingState) (s : VmmState) : VmmOp → Prop
  | .addMemory base size =>
      8 ≤ size ∧ base + size + 16 < 2 ^ 64 ∧ Clear offset root start base size ∧ LiesIn area base size
  | .vmalloc request => request + 16 < 2 ^ 64 ∧ PerfectFitLinked s.heap.alloc request ∧ FreshFit s request
  | .vfree block _ => LonePage s block ∧
      (Mapped offset root start block.base →
        frameOf offset root s.paging.mem block.base ≠ frameOf offset root start.mem block.base ∨
          Sole offset root area start block.base) ∧
      (¬ Mapped offset root s.paging block.base → Spares offset root s block.base)
  | .fault address _ => Spares offset root s address
  | .store _ _ => True

/-- A byte of a live block or of a header on the free list. -/
def HeapState.Uses (s : HeapState) (x : Nat) : Prop :=
  (∃ l ∈ s.live, l.Has x) ∨ ∃ b, Reachable (next s.alloc.mem) s.alloc.head b ∧ b ≤ x ∧ x < b + 24

structure VmmSound (offset root : Nat) (area : Nat → Prop) (start : PagingState) (s : VmmState)
    (L : List Block) : Prop where
  heap : HeapSound 0 s.heap L
  backed : Backed offset root area start s.paging s.given
  regions : ∀ g ∈ s.heap.regions, g.base + g.size + 16 < 2 ^ 64 ∧ Clear offset root start g.base g.size ∧
    LiesIn area g.base g.size
  kept : ∀ x, s.heap.Uses x → ∀ p ∈ s.given, ¬ SamePage x p

section

variable {offset root : Nat} {area : Nat → Prop} {start : PagingState} {s s' : VmmState} {L : List Block}

theorem HeapSound.uses_iff {k : Nat} {h : HeapState} (hs : HeapSound k h L) {x : Nat} :
    h.Uses x ↔ (∃ l ∈ h.live, l.Has x) ∨ ∃ b ∈ L, b.addr ≤ x ∧ x < b.addr + 24 := by
  apply or_congr_right
  constructor
  · rintro ⟨b, hb, hx⟩
    obtain ⟨d, hd, rfl⟩ := (hs.chained.mem_reachable hs.ordered).mp hb
    exact ⟨d, hd, hx⟩
  · rintro ⟨d, hd, hx⟩
    exact ⟨d.addr, (hs.chained.mem_reachable hs.ordered).mpr ⟨d, hd, rfl⟩, hx⟩

theorem VmmSound.uses_region (h : VmmSound offset root area start s L) {x : Nat} (hx : s.heap.Uses x) :
    ∃ g ∈ s.heap.regions, g.base ≤ x ∧ x < g.base + g.size + 16 := by
  apply h.heap.owned x
  rcases h.heap.uses_iff.mp hx with hl | ⟨b, hb, hlo, hhi⟩
  · exact Or.inr hl
  · exact Or.inl ⟨b, hb, hlo, by unfold Block.stop; omega⟩

/-- What no reachable state may show: a free frame behind memory in use. -/
theorem VmmSound.not_free (h : VmmSound offset root area start s L) {x : Nat} (hx : s.heap.Uses x) :
    frameOf offset root s.paging.mem x ∉ s.paging.free.frames := by
  by_cases hm : Mapped offset root s.paging x
  · by_cases hown : Mapped offset root start x →
        frameOf offset root s.paging.mem x ≠ frameOf offset root start.mem x ∨ Sole offset root area start x
    · exact (h.backed.owned x ⟨hm, hown, h.kept x hx⟩).taken
    · -- the page has the frame of `start`, which was neither free there nor of a page alone
      push Not at hown
      obtain ⟨hstart, hsame, hnot⟩ := hown
      obtain ⟨g, hg, hlo, hhi⟩ := h.uses_region hx
      obtain ⟨_, hclear, hwithin⟩ := h.regions g hg
      have harea := hwithin x hlo hhi
      intro hc
      rcases h.backed.spare _ hc with hfree | ⟨y, hy, heq⟩
      · exact hclear x hlo hhi hstart (hsame ▸ hfree)
      · exact hnot (hy.congr harea hstart (hy.alone x harea hstart (hsame.symm.trans heq.symm)))
  · rw [frameOf_unmapped h.backed.intact hm]
    exact fun h0 => (h.backed.intact.frames 0 h0).2.1 rfl

theorem VmmSound.addMemory (h : VmmSound offset root area start s L) {base size : Nat}
    (hallowed : (VmmOp.addMemory base size).Allowed offset root s)
    (hsafe : (VmmOp.addMemory base size).Safe offset root area start s)
    (hs : vmmStep offset root s (.addMemory base size) = .ok s') : ∃ L', VmmSound offset root area start s' L' := by
  obtain ⟨heap, hheap, hs⟩ := bind_ok hs
  cases hs
  obtain ⟨hallowed, hgiven⟩ := hallowed
  obtain ⟨hsize, hend, hplace⟩ := hsafe
  obtain ⟨L', hheap', _, hregions, _⟩ := h.heap.addMemory (hallowed.roomy ⟨hsize, by omega⟩) hheap
  refine ⟨L', hheap', h.backed, ?_, ?_⟩
  · intro g hg
    rw [hregions] at hg
    rcases List.mem_cons.mp hg with rfl | hg
    · exact ⟨hend, hplace⟩
    · exact h.regions g hg
  · intro x _ p hp
    rw [hgiven] at hp
    cases hp

theorem VmmSound.vmalloc (h : VmmSound offset root area start s L) {request : Nat}
    (hsafe : (VmmOp.vmalloc request).Safe offset root area start s)
    (hs : vmmStep offset root s (.vmalloc request) = .ok s') : ∃ L', VmmSound offset root area start s' L' := by
  obtain ⟨heap, hheap, hs⟩ := bind_ok hs
  cases hs
  obtain ⟨hr16, hlinked, hfresh⟩ := hsafe
  have hend : ∀ b ∈ L, b.stop < 2 ^ 64 + request := by
    intro b hb
    have := h.heap.stop_lt (fun g hg => (h.regions g hg).1) hb
    omega
  obtain ⟨L', p, hheap', halloc, hlive, hregions, ht⟩ := h.heap.allocate (Nat.zero_le _) hr16 hend hlinked hheap
  obtain ⟨b, hfind, hnull, hp⟩ := allocate_place h.heap.chained h.heap.ordered hend hr16 halloc
  refine ⟨L', hheap', h.backed, by rw [hregions]; exact h.regions, ?_⟩
  intro x hx
  rcases hheap'.uses_iff.mp hx with ⟨l, hl, hx⟩ | ⟨d, hd, hx⟩
  · rw [hlive] at hl
    rcases List.mem_cons.mp hl with rfl | hl
    · exact hfresh b hfind hnull x (hp ▸ hx)
    · exact h.kept x (Or.inl ⟨l, hl, hx⟩)
  · obtain ⟨d', hd', heq⟩ := ht.headers d hd
    exact h.kept x (h.heap.uses_iff.mpr (Or.inr ⟨d', hd', heq ▸ hx⟩))

theorem VmmSound.pageFault (h : VmmSound offset root area start s L) {a : Nat} {contents : VirtualMemory} (ha : a < 2 ^ 64)
    (hspares : Spares offset root s a) (hs : pageFault offset root s a contents = .ok s') :
    VmmSound offset root area start s' L ∧ s'.heap.live = s.heap.live ∧ s'.heap.regions = s.heap.regions ∧
      s'.given ⊆ s.given := by
  obtain ⟨paging, hpaging, hs⟩ := bind_ok hs
  cases hs
  have hkeep : ∀ x, s.heap.Header x →
      (if Moved offset root s.paging a x then contents x else s.heap.alloc.mem x) = s.heap.alloc.mem x :=
    fun x hx => if_neg (hspares x hx)
  have hheap := h.heap.congr
    (m := fun x => if Moved offset root s.paging a x then contents x else s.heap.alloc.mem x)
    (fun b hb x hlo hhi => hkeep x
      (Or.inr ⟨b.addr, (h.heap.chained.mem_reachable h.heap.ordered).mpr ⟨b, hb, rfl⟩, hlo, hhi⟩))
    (fun l hl x hlo hhi => hkeep x (Or.inl ⟨l, hl, hlo, hhi⟩))
  have hsub := stillGiven_subset a s.given
  refine ⟨⟨hheap, h.backed.fault ha hpaging, h.regions, fun x hx p hp => ?_⟩, rfl, rfl, hsub⟩
  exact h.kept x (h.heap.uses_iff.mpr (hheap.uses_iff.mp hx)) p (hsub hp)

theorem VmmSound.touch (h : VmmSound offset root area start s L) {a : Nat} {contents : VirtualMemory} (ha : a < 2 ^ 64)
    (hspares : ¬ Mapped offset root s.paging a → Spares offset root s a)
    (hs : touch offset root s a contents = .ok s') :
    VmmSound offset root area start s' L ∧ Mapped offset root s'.paging a ∧ s'.heap.live = s.heap.live ∧
      s'.heap.regions = s.heap.regions ∧ s'.given ⊆ s.given ∧ (Mapped offset root s.paging a → s' = s) := by
  obtain ⟨t, ht, hs⟩ := bind_ok hs
  by_cases hflag : t.flags.getLsbD 0 = true
  · rw [if_pos hflag] at hs
    cases hs
    exact ⟨h, ⟨t, ht, hflag⟩, rfl, rfl, List.Subset.refl _, fun _ => rfl⟩
  · have hunmapped : ¬ Mapped offset root s.paging a := fun hm => hflag ((Mapped.of_translation ht).mp hm)
    rw [if_neg hflag] at hs
    obtain ⟨next, hfault, hs⟩ := bind_ok hs
    obtain ⟨hnext, hlive, hregions, hgiven⟩ := h.pageFault ha (hspares hunmapped) hfault
    obtain ⟨t', ht', hs⟩ := bind_ok hs
    by_cases hpresent : t'.flags.getLsbD 0 = true
    · rw [if_pos hpresent] at hs
      cases hs
      exact ⟨hnext, ⟨t', ht', hpresent⟩, hlive, hregions, hgiven, fun hm => absurd hm hunmapped⟩
    · rw [if_neg hpresent] at hs
      cases hs

theorem VmmSound.vfree (h : VmmSound offset root area start s L) {block : LiveBlock} {contents : VirtualMemory}
    (hlive : block ∈ s.heap.live) (hsafe : (VmmOp.vfree block contents).Safe offset root area start s)
    (hs : vmmStep offset root s (.vfree block contents) = .ok s') : ∃ L', VmmSound offset root area start s' L' := by
  obtain ⟨hlone, hmoved, hspares⟩ := hsafe
  have hreq := hlone.request
  have hlow := (h.heap.intact block hlive).low
  -- the pointer is a byte of the block, so no frame of its page has been given back
  have hptr : s.heap.Uses block.base := Or.inl ⟨block, hlive, by omega, by omega⟩
  obtain ⟨g, hg, _, hhi⟩ := h.uses_region hptr
  have hbase : block.base < 2 ^ 64 := by
    have := (h.regions g hg).1
    omega
  obtain ⟨u, htouch, hs⟩ := bind_ok hs
  obtain ⟨heap, hheap, hs⟩ := bind_ok hs
  obtain ⟨t, htranslate, hs⟩ := bind_ok hs
  cases hs
  obtain ⟨hu, hmapped, hliveSame, hregionsSame, hsub, hsame⟩ := h.touch hbase hspares htouch
  have hliveIn : block ∈ u.heap.live := hliveSame ▸ hlive
  obtain ⟨L', hheap', hlive', hregions, hr⟩ := hu.heap.deallocate hliveIn hreq hheap
  have hheld : Held offset root area start u.paging u.given block.base := by
    refine ⟨hmapped, fun hstart => ?_, fun p hp => h.kept block.base hptr p (hsub hp)⟩
    rw [hsame (h.backed.grown block.base hstart)]
    exact hmoved hstart
  have hframe : t.physicalAddress = frameOf offset root u.paging.mem block.base := by
    rw [getTranslation_eq hu.backed.intact] at htranslate
    cases htranslate
    rfl
  refine ⟨L', hheap', hframe ▸ hu.backed.give hheld, by rw [hregions]; exact hu.regions, ?_⟩
  intro x hx p hp
  have hused : ∀ l ∈ heap.live, l ∈ u.heap.live ∧ l ≠ block := by
    intro l hl
    rw [hlive'] at hl
    refine ⟨List.mem_of_mem_erase hl, ?_⟩
    rintro rfl
    exact hu.heap.live_nodup.not_mem_erase hl
  -- a header that is left is an old one, and not one that the block has absorbed
  have hheader : ∀ d ∈ L', ∃ d' ∈ L, d'.addr = d.addr ∧ d.addr ≠ block.base + block.request := by
    intro d hd
    rcases hr.headers d hd with ⟨_, hnone⟩ | ⟨d', hd', heq, hne⟩
    · obtain ⟨b, hb, hstop⟩ := hlone.joined
      obtain ⟨q, hq, rfl⟩ := (h.heap.chained.mem_reachable h.heap.ordered).mp hb
      rw [h.heap.chained.sizes q hq] at hstop
      refine absurd ?_ (hnone q hq)
      simp only [Block.stop, LiveBlock.block]
      omega
    · refine ⟨d', hd', heq, ?_⟩
      simp only [Block.stop, LiveBlock.block] at hne
      omega
  rcases List.mem_cons.mp hp with rfl | hp
  · rcases hheap'.uses_iff.mp hx with ⟨l, hl, hx⟩ | ⟨d, hd, hlo, hhi⟩
    · exact hlone.live l (hliveSame ▸ (hused l hl).1) (hused l hl).2 x hx
    · obtain ⟨d', hd', heq, hne⟩ := hheader d hd
      exact hlone.free d.addr ((h.heap.chained.mem_reachable h.heap.ordered).mpr ⟨d', hd', heq⟩) hne x hlo hhi
  · rcases hheap'.uses_iff.mp hx with ⟨l, hl, hx⟩ | ⟨d, hd, hx⟩
    · exact hu.kept x (Or.inl ⟨l, (hused l hl).1, hx⟩) p hp
    · obtain ⟨d', hd', heq, _⟩ := hheader d hd
      exact hu.kept x (hu.heap.uses_iff.mpr (Or.inr ⟨d', hd', heq ▸ hx⟩)) p hp

theorem vmmStep_sound (h : VmmSound offset root area start s L) {op : VmmOp}
    (hallowed : op.Allowed offset root s) (hsafe : op.Safe offset root area start s)
    (hs : vmmStep offset root s op = .ok s') : ∃ L', VmmSound offset root area start s' L' := by
  cases op with
  | addMemory base size => exact h.addMemory hallowed hsafe hs
  | vmalloc request => exact h.vmalloc hsafe hs
  | vfree block contents => exact h.vfree hallowed hsafe hs
  | fault address contents => exact ⟨L, (h.pageFault hallowed.1 hsafe hs).1⟩
  | store address byte =>
      obtain ⟨heap, hheap, hs⟩ := bind_ok hs
      cases hs
      obtain ⟨hheap', hlive, hregions⟩ := h.heap.store hallowed hheap
      refine ⟨L, hheap', h.backed, by rw [hregions]; exact h.regions, fun x hx => h.kept x ?_⟩
      rw [h.heap.uses_iff]
      rw [hheap'.uses_iff, hlive] at hx
      exact hx

theorem vmmSound_start (h : Intact offset root start) (m : VirtualMemory) :
    VmmSound offset root area start ⟨{ alloc := ⟨m, 0⟩ }, start, []⟩ [] :=
  ⟨heapSound_empty 0 m, backed_start h area [], fun _ hg => absurd hg List.not_mem_nil,
    fun _ _ _ hp => absurd hp List.not_mem_nil⟩

end

/-- No free frame is behind memory in use, in every state of a run whose steps
meet `VmmOp.Safe`, from any state of the page tree and the frame allocator on and for any
`area` that the regions are in. -/
theorem free_frames_unused (offset root : Nat) (area : Nat → Prop) (m₀ : Memory) (free : FreeStack)
    (hroot : IsTable root) (hdistinct : (root :: free.frames).Nodup)
    (hframes : ∀ f ∈ free.frames, IsFrame f) (before : List PagingOp) (start : PagingState)
    (hreach : Run (pagingStep offset root) (PagingOp.Allowed offset root)
      ⟨PageTreeNode.construct m₀ (wrap (root + offset)), free⟩ before start)
    (m : VirtualMemory) (ops : List VmmOp) (s : VmmState)
    (hrun : Run (vmmStep offset root)
      (fun s op => op.Allowed offset root s ∧ op.Safe offset root area start s)
      ⟨{ alloc := ⟨m, 0⟩ }, start, []⟩ ops s) :
    s.paging.free.frames.Nodup ∧ 0 ∉ s.paging.free.frames ∧
      ∀ x, s.heap.Uses x → ∃ t, PageTree.getTranslation (fun _ => offset) (wrap (root + offset))
        s.paging.mem x = .ok t ∧ t.physicalAddress ∉ s.paging.free.frames := by
  have hstart : Intact offset root start :=
    hreach.invariant pagingStep_intact (fresh_tree offset m₀ hroot hdistinct hframes).1
  obtain ⟨L, h⟩ := hrun.invariant (I := fun s => ∃ L, VmmSound offset root area start s L)
    (fun s op t ⟨L, h⟩ hop ht => vmmStep_sound h hop.1 hop.2 ht) ⟨[], vmmSound_start hstart m⟩
  refine ⟨h.backed.intact.nodup, fun h0 => (h.backed.intact.frames 0 h0).2.1 rfl, ?_⟩
  intro x hx
  exact ⟨_, getTranslation_eq h.backed.intact x, h.not_free hx⟩

/-! ### Two runs -/

instance (offset root : Nat) (s : PagingState) (a : Nat) : Decidable (FaultAllowed offset root s a) :=
  inferInstanceAs (Decidable (_ ∧ ¬ _))

instance (offset root : Nat) (s : VmmState) (op : VmmOp) : Decidable (op.Allowed offset root s) :=
  match op with
  | .addMemory _ _ => inferInstanceAs (Decidable (_ ∧ _))
  | .vmalloc _ => inferInstanceAs (Decidable True)
  | .vfree block _ => inferInstanceAs (Decidable (block ∈ s.heap.live))
  | .fault address _ => inferInstanceAs (Decidable (FaultAllowed offset root s.paging address))
  | .store address byte => inferInstanceAs (Decidable ((HeapOp.store address byte).Allowed s.heap))

/-- No bound on where the regions lie. -/
def Anywhere (_ : Nat) : Prop := True

/-- A mapping of the page after the region `0x400000` to `0x403000`. -/
def pageAfterRegion : MapCall := ⟨0x403000, 0x2a0000, FlagSet.write, by decide⟩

def regionStart : PagingState :=
  match pagingStep 0 0x1000 sixFrames (.map pageAfterRegion) with
  | .ok s => s
  | .error _ => sixFrames

theorem regionStart_reached : pagingStep 0 0x1000 sixFrames (.map pageAfterRegion) = .ok regionStart := by
  have hok : (pagingStep 0 0x1000 sixFrames (.map pageAfterRegion)).isOk = true := by decide +kernel
  unfold regionStart
  cases hs : pagingStep 0 0x1000 sixFrames (.map pageAfterRegion) with
  | ok s => rfl
  | error e =>
      rw [hs] at hok
      cases hok

theorem regionStart_maps : Intact 0 0x1000 regionStart ∧ ∀ x, leafEntry 0 0x1000 regionStart.mem x =
    if SamePage x 0x403000 then entryWord 0x2a0000 FlagSet.write.bits else 0#64 := by
  obtain ⟨hintact, hleaf⟩ := fresh_tree 0 (fun _ => 0#64) (show IsTable 0x1000 by decide)
    (show (0x1000 :: sixFrames.free.frames).Nodup by decide) (by decide)
  have hmap := mapPageToFrame_spec hintact pageAfterRegion.aligned regionStart_reached
  refine ⟨hmap.intact, fun x => ?_⟩
  rw [hmap.leaves, hleaf]
  rfl

theorem regionStart_clear (base size : Nat) : Clear 0 0x1000 regionStart base size := by
  intro x _ _ _
  have hfree : regionStart.free.frames = [0x5000, 0x6000, 0x7000] := by decide +kernel
  rw [hfree, frameOf, regionStart_maps.2]
  split
  · decide
  · decide

/-- The only live block, with the only free block right before it and no header on its page. -/
structure LoneBlock (s : VmmState) (block : LiveBlock) : Prop where
  live : s.heap.live = [block]
  request : 8 ≤ block.request
  head : s.heap.alloc.head ≠ 0 ∧ next s.heap.alloc.mem s.heap.alloc.head = 0
  joined : s.heap.alloc.head + 24 + size s.heap.alloc.mem s.heap.alloc.head + 16 = block.base
  free : ∀ i < 24, ¬ SamePage (s.heap.alloc.head + i) block.base

theorem LoneBlock.lonePage {s : VmmState} {block : LiveBlock} (h : LoneBlock s block) : LonePage s block := by
  have hseg : Segment (next s.heap.alloc.mem) s.heap.alloc.head [s.heap.alloc.head] 0 := ⟨rfl, h.head.2⟩
  refine ⟨h.request, ⟨_, .start h.head.1, h.joined⟩, ?_, ?_⟩
  · intro l hl hne
    rw [h.live] at hl
    exact absurd (List.mem_singleton.mp hl) hne
  · intro b hb _ x hlo hhi
    obtain rfl := List.mem_singleton.mp ((hseg.reachable_iff (by simpa using h.head.1) b).mp hb)
    have := h.free (x - s.heap.alloc.head) (by omega)
    rwa [Nat.add_sub_cancel' hlo] at this

/-- A fault on its page leaves the headers alone, if the one on the free list is not on
the next page either. -/
theorem LoneBlock.spares {offset root : Nat} {s : VmmState} {block : LiveBlock} (h : LoneBlock s block)
    (hintact : Intact offset root s.paging) (hunmapped : ¬ Mapped offset root s.paging block.base)
    (hwithin : 16 ≤ block.base % 4096)
    (hnext : ∀ i < 24, ¬ SamePage (s.heap.alloc.head + i) (pageFloor block.base + 4096)) :
    Spares offset root s block.base := by
  have hseg : Segment (next s.heap.alloc.mem) s.heap.alloc.head [s.heap.alloc.head] 0 := ⟨rfl, h.head.2⟩
  rintro x (⟨l, hl, hlo, hhi⟩ | ⟨b, hb, hlo, hhi⟩) ⟨hmapped, page, hp, hsame⟩
  · rw [h.live] at hl
    obtain rfl := List.mem_singleton.mp hl
    have hpage : SamePage x l.base := by
      unfold SamePage
      omega
    exact hunmapped (hmapped.congr hintact hpage)
  · obtain rfl := List.mem_singleton.mp ((hseg.reachable_iff (by simpa using h.head.1) b).mp hb)
    obtain ⟨i, rfl⟩ := Nat.exists_eq_add_of_le hlo
    have hi : i < 24 := by omega
    rcases (mem_faultPages hp).2.2 with rfl | ⟨rfl, _⟩
    · exact h.free i hi (hsame.trans (samePage_pageFloor _))
    · exact hnext i hi hsame

/-- The last part of a region of three pages, and 16 bytes of the page after it. -/
def lastBlock : LiveBlock := ⟨0x402f10, 0x100⟩

def lonePageRun : List VmmOp :=
  [.addMemory 0x400000 0x3000, .fault 0x400000 fun _ => 0xff#8, .vmalloc 0x100]

/-- A part of `VmmOp.Safe` that can be tested, for runs before the first `vfree`. -/
def VmmOp.SafeHere (s : VmmState) : VmmOp → Prop
  | .addMemory base size => 8 ≤ size ∧ base + size + 16 < 2 ^ 64
  | .vmalloc request => request + 16 < 2 ^ 64 ∧ NoPerfectFit s.heap.alloc request ∧ s.given = []
  | .vfree _ _ => False
  | .fault address _ => address % 4096 = 0
  | .store _ _ => True

instance (s : VmmState) (op : VmmOp) : Decidable (op.SafeHere s) :=
  match op with
  | .addMemory _ _ => inferInstanceAs (Decidable (_ ∧ _))
  | .vmalloc _ => inferInstanceAs (Decidable (_ ∧ _ ∧ _))
  | .vfree _ _ => inferInstanceAs (Decidable False)
  | .fault _ _ => inferInstanceAs (Decidable (_ = _))
  | .store _ _ => inferInstanceAs (Decidable True)

theorem VmmOp.SafeHere.safe {offset root : Nat} {start : PagingState} {s : VmmState} {op : VmmOp}
    (hclear : ∀ base size, Clear offset root start base size) (hintact : Intact offset root s.paging)
    (hallowed : op.Allowed offset root s) (h : op.SafeHere s) : op.Safe offset root Anywhere start s := by
  cases op with
  | addMemory base size => exact ⟨h.1, h.2, hclear base size, fun x _ _ => trivial⟩
  | vmalloc request =>
      refine ⟨h.1, h.2.1.linked, fun b _ _ x _ p hp => ?_⟩
      rw [h.2.2] at hp
      cases hp
  | vfree block contents => exact h.elim
  | fault address contents =>
      rintro x _ ⟨hmapped, page, hp, hsame⟩
      have hsafe : FaultSafe offset root s.paging address := Or.inl h
      exact hsafe.other_page hintact hallowed.2 hmapped hp hsame
  | store address byte => trivial

theorem lonePageRun_states : ∃ s s',
    Run (vmmStep 0 0x1000) (fun s op => op.Allowed 0 0x1000 s ∧ op.Safe 0 0x1000 Anywhere regionStart s)
      ⟨emptyHeap, regionStart, []⟩ lonePageRun s ∧
    (VmmOp.vfree lastBlock fun _ => 0xff#8).Allowed 0 0x1000 s ∧
    (VmmOp.vfree lastBlock fun _ => 0xff#8).Safe 0 0x1000 Anywhere regionStart s ∧
    vmmStep 0 0x1000 s (.vfree lastBlock fun _ => 0xff#8) = .ok s' ∧ s'.paging.free.frames = [0x6000] := by
  have hbefore : (replay (vmmStep 0 0x1000) (fun s op => op.Allowed 0 0x1000 s ∧ op.SafeHere s)
      ⟨emptyHeap, regionStart, []⟩ lonePageRun).map (fun s =>
        (s.heap.live, s.heap.alloc.head, next s.heap.alloc.mem 0x400000, size s.heap.alloc.mem 0x400000,
          (vmmStep 0 0x1000 s (.vfree lastBlock fun _ => 0xff#8)).toOption.map (·.paging.free.frames))) =
      some ([lastBlock], 0x400000, 0, 0x2ee8, some [0x6000]) := by decide +kernel
  obtain ⟨s, hs, hobs⟩ := Option.map_eq_some_iff.mp hbefore
  have hunmapped : ¬ Mapped 0 0x1000 s.paging lastBlock.base := by
    have hmapped : (replay (vmmStep 0 0x1000) (fun s op => op.Allowed 0 0x1000 s ∧ op.SafeHere s)
        ⟨emptyHeap, regionStart, []⟩ lonePageRun).map (fun s => decide (Mapped 0 0x1000 s.paging lastBlock.base)) =
        some false := by decide +kernel
    rw [hs, Option.map_some, Option.some.injEq] at hmapped
    exact of_decide_eq_false hmapped
  obtain ⟨hlive, hhead, hnext, hsize, hfree⟩ : s.heap.live = _ ∧ s.heap.alloc.head = _ ∧
      next s.heap.alloc.mem 0x400000 = _ ∧ size s.heap.alloc.mem 0x400000 = _ ∧
      (vmmStep 0 0x1000 s (.vfree lastBlock fun _ => 0xff#8)).toOption.map (·.paging.free.frames) = _ := by
    simpa only [Prod.mk.injEq] using hobs
  obtain ⟨s', hs', hfree⟩ := Option.map_eq_some_iff.mp hfree
  have hsafe : ∀ (s : VmmState) (op : VmmOp), (∃ L, VmmSound 0 0x1000 Anywhere regionStart s L) →
      op.Allowed 0 0x1000 s ∧ op.SafeHere s → op.Safe 0 0x1000 Anywhere regionStart s :=
    fun s op ⟨L, h⟩ hop => hop.2.safe regionStart_clear h.backed.intact hop.1
  have hinit : ∃ L, VmmSound 0 0x1000 Anywhere regionStart ⟨emptyHeap, regionStart, []⟩ L :=
    ⟨[], vmmSound_start regionStart_maps.1 _⟩
  have hrun : Run (vmmStep 0 0x1000) (fun s op => op.Allowed 0 0x1000 s ∧ op.Safe 0 0x1000 Anywhere regionStart s)
      ⟨emptyHeap, regionStart, []⟩ lonePageRun s :=
    (replay_run hs).mono (I := fun s => ∃ L, VmmSound 0 0x1000 Anywhere regionStart s L)
      (fun s op t ⟨L, h⟩ hop ht => vmmStep_sound h hop.1 (hsafe s op ⟨L, h⟩ hop) ht)
      (fun s op hI hop => ⟨hop.1, hsafe s op hI hop⟩) hinit
  obtain ⟨L, hsound⟩ := hrun.invariant (I := fun s => ∃ L, VmmSound 0 0x1000 Anywhere regionStart s L)
    (fun s op t ⟨L, h⟩ hop ht => vmmStep_sound h hop.1 hop.2 ht) hinit
  have hlone : LoneBlock s lastBlock := by
    refine ⟨hlive, by decide, ?_, ?_, ?_⟩
    · rw [hhead, hnext]
      decide
    · rw [hhead, hsize]
      rfl
    · rw [hhead]
      decide
  have hmem : lastBlock ∈ s.heap.live := by
    rw [hlive]
    exact List.mem_cons_self
  refine ⟨s, s', hrun, hmem, ⟨hlone.lonePage, fun hm => ?_, fun _ => ?_⟩, ?_, hfree⟩
  · exact absurd (hsound.backed.grown _ hm) hunmapped
  · refine hlone.spares hsound.backed.intact hunmapped (by decide) ?_
    rw [hhead]
    decide
  · generalize vmmStep 0 0x1000 s (.vfree lastBlock fun _ => 0xff#8) = r at hs'
    cases r with
    | error e => cases hs'
    | ok t => exact congrArg Except.ok (Option.some.inj hs')

theorem free_frames_unused_lone_page : ∃ s,
    Run (vmmStep 0 0x1000) (fun s op => op.Allowed 0 0x1000 s ∧ op.Safe 0 0x1000 Anywhere regionStart s)
      ⟨emptyHeap, regionStart, []⟩ (lonePageRun ++ [.vfree lastBlock fun _ => 0xff#8]) s ∧
    s.paging.free.frames = [0x6000] ∧ 0 ∉ s.paging.free.frames := by
  obtain ⟨s, s', hrun, hallowed, hsafe, hstep, hfree⟩ := lonePageRun_states
  have hrun' := hrun.snoc ⟨hallowed, hsafe⟩ hstep
  have hreach : Run (pagingStep 0 0x1000) (PagingOp.Allowed 0 0x1000) sixFrames [.map pageAfterRegion] regionStart :=
    .cons trivial regionStart_reached (.nil _)
  exact ⟨s', hrun', hfree, (free_frames_unused 0 0x1000 Anywhere (fun _ => 0#64) sixFrames.free (by decide) (by decide)
    (by decide) [.map pageAfterRegion] regionStart hreach (fun _ => 0#8) _ s' hrun').2.1⟩

/-- Two blocks of one page, one of which is freed. -/
def sharedPageRun : List VmmOp :=
  [.addMemory 0x400000 512, .fault 0x400000 fun _ => 0#8, .vmalloc 16, .vmalloc 16,
    .vfree ⟨0x400200, 16⟩ fun _ => 0#8]

/-- Freeing one of them frees the frame behind the other. -/
theorem vfree_takes_shared_frame : ∃ s t,
    Run (vmmStep 0 0x1000) (VmmOp.Allowed 0 0x1000) ⟨emptyHeap, sixFrames, []⟩ sharedPageRun s ∧
    ⟨0x4001e0, 16⟩ ∈ s.heap.live ∧ LiveBlock.Has ⟨0x4001e0, 16⟩ 0x4001e0 ∧
    PageTree.getTranslation (fun _ => 0) (wrap (0x1000 + 0)) s.paging.mem 0x4001e0 = .ok t ∧
    t.physicalAddress ∈ s.paging.free.frames := by
  have hfinal : (replay (vmmStep 0 0x1000) (VmmOp.Allowed 0 0x1000) ⟨emptyHeap, sixFrames, []⟩ sharedPageRun).map
      (fun s => (s.heap.live, s.paging.free.frames, translationAfter 0 0x1000 s.paging [] 0x4001e0)) =
      some ([⟨0x4001e0, 16⟩], [0x2000, 0x6000, 0x7000], some ⟨0x2000, 3#64⟩) := by decide +kernel
  obtain ⟨s, hs, hobs⟩ := Option.map_eq_some_iff.mp hfinal
  obtain ⟨hlive, hfree, ht⟩ : s.heap.live = _ ∧ s.paging.free.frames = _ ∧
      translationAfter 0 0x1000 s.paging [] 0x4001e0 = _ := by
    simpa only [Prod.mk.injEq] using hobs
  refine ⟨s, ⟨0x2000, 3#64⟩, replay_run hs, by rw [hlive]; exact List.mem_cons_self, ⟨by decide, by decide⟩,
    translationAfter_nil ht, ?_⟩
  rw [hfree]
  decide

end DavOS
