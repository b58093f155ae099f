import DavOS.FreeListReserve
import DavOS.GuardedRun

/-! Runs of the free-list allocator with the clients that use it: regions are
added, blocks are handed out, written to and given back. The blocks that
clients hold stay apart from each other and from the free list as long as no
stale previous pointer is followed. -/
namespace DavOS
open MachineWord ByteMemory LinkedSegment FreeBlockHeader GuardedRun

structure Region where
  base : Nat
  size : Nat
  deriving DecidableEq

/-- The allocator, the blocks that clients hold and the memory it was given. -/
structure HeapState where
  alloc : FreeListAllocator
  live : List LiveBlock := []
  regions : List Region := []

inductive HeapOp where
  | addMemory (base size : Nat)
  | allocate (request : Nat)
  | deallocate (block : LiveBlock)
  | store (address : Nat) (byte : BitVec 8)

def heapStep (s : HeapState) : HeapOp → Except Stop HeapState
  | .addMemory base size => do
      let alloc ← s.alloc.addMemory base size
      return { s with alloc := alloc, regions := ⟨base, size⟩ :: s.regions }
  | .allocate request => do
      let (base, alloc) ← s.alloc.allocate request
      return { s with alloc := alloc, live := ⟨base, request⟩ :: s.live }
  | .deallocate block => do
      let alloc ← s.alloc.deallocate block.base
      return { s with alloc := alloc, live := s.live.erase block }
  | .store address byte =>
      .ok { s with alloc := { s.alloc with mem := Function.update s.alloc.mem address byte } }

/-- What clients promise. Regions are in memory, not at the null pointer, and at
least 24 bytes apart; requests are of 8 bytes or more and do not wrap; blocks
that are given back or written to are live. -/
def HeapOp.Allowed (s : HeapState) : HeapOp → Prop
  | .addMemory base size => base ≠ 0 ∧ base + size ≤ 2 ^ 64 ∧
      ∀ g ∈ s.regions, base + size + 24 ≤ g.base ∨ g.base + g.size + 24 ≤ base
  | .allocate request => 8 ≤ request ∧ request + 16 < 2 ^ 64
  | .deallocate block => block ∈ s.live
  | .store address _ => ∃ l ∈ s.live, l.base ≤ address ∧ address < l.base + l.request

/-- Where the allocator keeps blocks apart: a region has room for a free header
and the 16 bytes after its end exist; a perfect fit follows no stale pointer. -/
def HeapOp.Safe (s : HeapState) : HeapOp → Prop
  | .addMemory base size => 8 ≤ size ∧ base + size + 16 ≤ 2 ^ 64
  | .allocate request => PerfectFitLinked s.alloc request
  | _ => True

/-- Two live blocks have no byte in common. -/
def LiveBlock.Apart (a b : LiveBlock) : Prop := ∀ x, ¬ (a.Has x ∧ b.Has x)

/-- A live block as the allocator can give it back: its header records the request. -/
structure LiveBlock.Intact (m : VirtualMemory) (l : LiveBlock) : Prop where
  low : 16 < l.base
  high : l.base + l.request ≤ 2 ^ 64
  size : UsedBlockHeader.size m (l.base - 16) = l.request

/-- The invariant of the heap, for the free list `L` and requests of `k` bytes or more. -/
structure HeapSound (k : Nat) (s : HeapState) (L : List Block) : Prop where
  chained : Chained s.alloc.mem s.alloc.head L
  ordered : Ordered L
  liveApart : s.live.Pairwise LiveBlock.Apart
  freeApart : ∀ l ∈ s.live, ∀ x, l.Has x → ¬ Covered L x
  intact : ∀ l ∈ s.live, l.Intact s.alloc.mem
  large : ∀ l ∈ s.live, k ≤ l.request
  owned : ∀ x, (Covered L x ∨ ∃ l ∈ s.live, l.Has x) →
    ∃ g ∈ s.regions, g.base ≤ x ∧ x < g.base + g.size + 16

section

variable {s s' : HeapState} {L L' : List Block} {m m' : VirtualMemory} {l : LiveBlock} {k : Nat}

theorem LiveBlock.Intact.congr (h : l.Intact m) (hm : ∀ x, l.base ≤ x + 16 → x < l.base → m' x = m x) :
    l.Intact m' := by
  refine ⟨h.low, h.high, Eq.trans (load64_congr ?_) h.size⟩
  intro x hx hx'
  have := h.low
  exact hm x (by omega) (by omega)

theorem LiveBlock.Apart.symm {a b : LiveBlock} (h : a.Apart b) : b.Apart a := fun x hx => h x hx.symm

theorem HeapSound.live_ne (h : HeapSound k s L) {a b : LiveBlock} (ha : a ∈ s.live) (hb : b ∈ s.live)
    (hne : a ≠ b) : a.Apart b := by
  have hsymm : Std.Symm LiveBlock.Apart := ⟨fun _ _ => LiveBlock.Apart.symm⟩
  exact h.liveApart.forall ha hb hne

theorem HeapSound.live_nodup (h : HeapSound k s L) : s.live.Nodup := by
  refine h.liveApart.imp_of_mem ?_
  rintro a b ha _ hab rfl
  have hlow := (h.intact a ha).low
  -- the first byte of its header would be in both
  exact hab (a.base - 16) ⟨⟨by omega, by omega⟩, ⟨by omega, by omega⟩⟩

theorem HeapSound.stop_lt (h : HeapSound k s L) (hends : ∀ g ∈ s.regions, g.base + g.size + 16 < 2 ^ 64)
    {b : Block} (hb : b ∈ L) : b.stop < 2 ^ 64 := by
  have hlast : b.Has (b.stop - 1) := by
    unfold Block.Has Block.stop
    omega
  obtain ⟨g, hg, _, hhi⟩ := h.owned (b.stop - 1) (Or.inl ⟨b, hb, hlast⟩)
  have := hends g hg
  omega

theorem HeapSound.release (h : HeapSound k s L) {u : Block} {a : FreeListAllocator} {live : List LiveBlock}
    {regions : List Region} (hr : Released L L' s.alloc a u) (hlive : live.Sublist s.live)
    (hregions : ∀ g ∈ s.regions, g ∈ regions) (hu : ∀ l ∈ live, ∀ x, l.Has x → ¬ u.Has x)
    (hown : ∀ x, u.Has x → ∃ g ∈ regions, g.base ≤ x ∧ x < g.base + g.size + 16) :
    HeapSound k ⟨a, live, regions⟩ L' := by
  refine ⟨hr.chained, hr.ordered, h.liveApart.sublist hlive, ?_, ?_, fun l hl => h.large l (hlive.subset hl), ?_⟩
  · intro l hl x hx hc
    rcases (hr.covered x).mp hc with hc | hc
    · exact h.freeApart l (hlive.subset hl) x hx hc
    · exact hu l hl x hx hc
  · intro l hl
    refine (h.intact l (hlive.subset hl)).congr ?_
    intro x hx hx'
    have hlx : l.Has x := ⟨hx, Nat.lt_of_lt_of_le hx' (Nat.le_add_right _ _)⟩
    exact hr.frame x (h.freeApart l (hlive.subset hl) x hlx) (hu l hl x hlx)
  · rintro x (hc | ⟨l, hl, hx⟩)
    · rcases (hr.covered x).mp hc with hc | hc
      · obtain ⟨g, hg, hx⟩ := h.owned x (Or.inl hc)
        exact ⟨g, hregions g hg, hx⟩
      · exact hown x hc
    · obtain ⟨g, hg, hx⟩ := h.owned x (Or.inr ⟨l, hlive.subset hl, hx⟩)
      exact ⟨g, hregions g hg, hx⟩

/-- The free block that a region becomes: 16 bytes longer than the region. -/
def Region.block (g : Region) : Block := ⟨g.base, g.size - 8⟩

/-- A new region with room for a free header whose block, 16 bytes longer than
the region, stays in memory and clear of the blocks of the other regions. -/
structure Region.Roomy (regions : List Region) (new : Region) : Prop where
  nonnull : new.base ≠ 0
  room : 8 ≤ new.size
  bounded : new.base + new.size + 16 ≤ 2 ^ 64
  apart : ∀ g ∈ regions, new.base + new.size + 16 ≤ g.base ∨ g.base + g.size + 16 ≤ new.base

theorem HeapOp.Allowed.roomy {base size : Nat} (hallowed : (HeapOp.addMemory base size).Allowed s)
    (hsafe : (HeapOp.addMemory base size).Safe s) : Region.Roomy s.regions ⟨base, size⟩ := by
  refine ⟨hallowed.1, hsafe.1, hsafe.2, ?_⟩
  intro g hg
  have := hallowed.2.2 g hg
  dsimp only
  omega

theorem Region.Roomy.stop {g : Region} {regions : List Region} (h : g.Roomy regions) :
    g.block.stop = g.base + g.size + 16 := by
  have := h.room
  simp only [Region.block, Block.stop]
  omega

/-- The used header that `add_memory` forges lies in the region, so the list is as it was. -/
theorem HeapSound.region_freeable (h : HeapSound k s L) {base size : Nat}
    (hroomy : Region.Roomy s.regions ⟨base, size⟩) :
    Freeable { s.alloc with mem := UsedBlockHeader.construct s.alloc.mem base size } L
      (wrap (base + UsedBlockHeader.bytes)) (Region.block ⟨base, size⟩) := by
  have hstop := hroomy.stop
  obtain ⟨hnull, hsize, hend, hgap⟩ := hroomy
  dsimp only at hnull hsize hend hgap hstop
  have hused := used_construct_self (m := s.alloc.mem) base (show size < 2 ^ 64 by omega)
  have hfresh : ∀ x, (Region.block ⟨base, size⟩).Has x → ¬ Covered L x := by
    intro x hx hc
    obtain ⟨g, hg, hlo, hhi⟩ := h.owned x (Or.inl hc)
    have := hgap g hg
    unfold Block.Has at hx
    rw [hstop] at hx
    simp only [Region.block] at hx
    omega
  refine ⟨?_, hused.2, hused.1.trans ?_, ?_, hnull, by rw [hstop]; exact hend, hfresh⟩
  · simp only [wrapSub, wrap, UsedBlockHeader.bytes, Region.block]
    omega
  · simp only [Region.block]
    omega
  · refine h.chained.congr fun b hb => used_construct_clear size ?_
    have hapart := Block.apart_iff.mp fun x hx => hfresh x hx.2 ⟨b, hb, hx.1⟩
    rw [hstop] at hapart
    simp only [Region.block, Block.stop] at hapart
    omega

theorem addMemory_released (h : HeapSound k s L) {base size : Nat} (hroomy : Region.Roomy s.regions ⟨base, size⟩) :
    ∃ a L', s.alloc.addMemory base size = .ok a ∧ Released L L' s.alloc a (Region.block ⟨base, size⟩) := by
  obtain ⟨a, L', ha, hr⟩ := deallocate_release (h.region_freeable hroomy) h.ordered
  refine ⟨a, L', ha, hr.chained, hr.ordered, hr.covered, hr.headers, ?_⟩
  intro x hx hu
  rw [hr.frame x hx hu]
  apply used_construct_other
  unfold Block.Has at hu
  rw [hroomy.stop] at hu
  simp only [Region.block] at hu
  omega

/-- The free block that a live block becomes. -/
def LiveBlock.block (l : LiveBlock) : Block := ⟨l.base - 16, l.request - 8⟩

theorem LiveBlock.Intact.block_has (h : l.Intact m) (hreq : 8 ≤ l.request) (x : Nat) :
    l.block.Has x ↔ l.Has x := by
  have hlow := h.low
  simp only [LiveBlock.block, Block.Has, Block.stop, LiveBlock.Has]
  omega

theorem LiveBlock.Intact.block_addr (h : l.Intact m) : wrapSub l.base UsedBlockHeader.bytes = l.block.addr := by
  have hlow := h.low
  have hhigh := h.high
  simp only [LiveBlock.block, UsedBlockHeader.bytes, wrapSub]
  omega

theorem LiveBlock.Intact.freeable {a : FreeListAllocator} (h : l.Intact a.mem) (hreq : 8 ≤ l.request)
    (hmagic : UsedBlockHeader.magic a.mem (l.base - 16) = UsedBlockHeader.magicConstant)
    (hchain : Chained a.mem a.head L) (hfresh : ∀ x, l.Has x → ¬ Covered L x) : Freeable a L l.base l.block := by
  have hfresh' : ∀ x, l.block.Has x → ¬ Covered L x := fun x hx => hfresh x ((h.block_has hreq x).mp hx)
  have hlow := h.low
  have hhigh := h.high
  refine ⟨h.block_addr, hmagic, h.size.trans ?_, hchain, ?_, ?_, hfresh'⟩
  · simp only [LiveBlock.block]
    omega
  · simp only [LiveBlock.block]
    omega
  · simp only [LiveBlock.block, Block.stop]
    omega

theorem HeapSound.live_freeable (h : HeapSound k s L) (hl : l ∈ s.live) (hreq : 8 ≤ l.request) {a : FreeListAllocator}
    (hs : s.alloc.deallocate l.base = .ok a) : Freeable s.alloc L l.base l.block := by
  have hintact := h.intact l hl
  refine hintact.freeable hreq ?_ h.chained (h.freeApart l hl)
  -- without the magic word `deallocate` would not have returned
  by_contra hne
  unfold FreeListAllocator.deallocate at hs
  simp only [hintact.block_addr, LiveBlock.block, ne_eq, hne, not_false_iff, if_true] at hs
  cases hs

theorem deallocate_released (h : HeapSound k s L) (hl : l ∈ s.live) (hreq : 8 ≤ l.request) {a : FreeListAllocator}
    (hs : s.alloc.deallocate l.base = .ok a) : ∃ L', Released L L' s.alloc a l.block := by
  obtain ⟨a', L', ha', hr⟩ := deallocate_release (h.live_freeable hl hreq hs) h.ordered
  obtain rfl := Except.ok.inj (hs.symm.trans ha')
  exact ⟨L', hr⟩

theorem HeapSound.addMemory (h : HeapSound k s L) {base size : Nat} (hroomy : Region.Roomy s.regions ⟨base, size⟩)
    (hs : heapStep s (.addMemory base size) = .ok s') :
    ∃ L', HeapSound k s' L' ∧ s'.live = s.live ∧ s'.regions = ⟨base, size⟩ :: s.regions ∧
      Released L L' s.alloc s'.alloc (Region.block ⟨base, size⟩) := by
  obtain ⟨a, ha, hs⟩ := bind_ok hs
  cases hs
  obtain ⟨a', L', ha', hr⟩ := addMemory_released h hroomy
  obtain rfl := Except.ok.inj (ha.symm.trans ha')
  obtain ⟨_, hsize, _, hgap⟩ := hroomy
  dsimp only at hsize hgap
  refine ⟨L', h.release hr (List.Sublist.refl _) (fun g hg => List.mem_cons_of_mem _ hg) ?_ ?_, rfl, rfl, hr⟩
  · intro l hl x hx hu
    obtain ⟨g, hg, hlo, hhi⟩ := h.owned x (Or.inr ⟨l, hl, hx⟩)
    have := hgap g hg
    simp only [Region.block, Block.Has, Block.stop] at hu
    omega
  · intro x hx
    refine ⟨⟨base, size⟩, List.mem_cons_self, ?_⟩
    simp only [Region.block, Block.Has, Block.stop] at hx
    dsimp only
    omega

theorem HeapSound.allocate (h : HeapSound k s L) {request : Nat} (hr : k ≤ request) (hr16 : request + 16 < 2 ^ 64)
    (hend : ∀ b ∈ L, b.stop < 2 ^ 64 + request) (hsafe : PerfectFitLinked s.alloc request)
    (hs : heapStep s (.allocate request) = .ok s') :
    ∃ L' p, HeapSound k s' L' ∧ s.alloc.allocate request = .ok (p, s'.alloc) ∧ s'.live = ⟨p, request⟩ :: s.live ∧
      s'.regions = s.regions ∧ Taken L L' s.alloc s'.alloc ⟨p, request⟩ := by
  obtain ⟨⟨p, a⟩, ha, hs⟩ := bind_ok hs
  cases hs
  obtain ⟨L', ht⟩ := allocate_spec h.chained h.ordered hend hr16 hsafe ha
  refine ⟨L', p, ⟨ht.chained, ht.ordered, ?_, ?_, ?_, ?_, ?_⟩, ha, rfl, rfl, ht⟩
  · refine List.pairwise_cons.mpr ⟨fun b hb x hx => ?_, h.liveApart⟩
    exact h.freeApart b hb x hx.2 (ht.inside x hx.1)
  · intro l hl x hx hc
    obtain ⟨hold, hnew⟩ := ht.remaining x hc
    rcases List.mem_cons.mp hl with rfl | hl
    · exact hnew hx
    · exact h.freeApart l hl x hx hold
  · intro l hl
    rcases List.mem_cons.mp hl with rfl | hl
    · exact ⟨ht.header.1, ht.bounded, ht.header.2.1⟩
    · refine (h.intact l hl).congr fun x hx hx' => ht.frame x ?_
      exact h.freeApart l hl x ⟨hx, Nat.lt_of_lt_of_le hx' (Nat.le_add_right _ _)⟩
  · intro l hl
    rcases List.mem_cons.mp hl with rfl | hl
    · exact hr
    · exact h.large l hl
  · rintro x (hc | ⟨l, hl, hx⟩)
    · exact h.owned x (Or.inl (ht.remaining x hc).1)
    · rcases List.mem_cons.mp hl with rfl | hl
      · exact h.owned x (Or.inl (ht.inside x hx))
      · exact h.owned x (Or.inr ⟨l, hl, hx⟩)

theorem HeapSound.deallocate (h : HeapSound k s L) (hl : l ∈ s.live) (hreq : 8 ≤ l.request)
    (hs : heapStep s (.deallocate l) = .ok s') :
    ∃ L', HeapSound k s' L' ∧ s'.live = s.live.erase l ∧ s'.regions = s.regions ∧
      Released L L' s.alloc s'.alloc l.block := by
  obtain ⟨a, ha, hs⟩ := bind_ok hs
  cases hs
  obtain ⟨L', hr⟩ := deallocate_released h hl hreq ha
  refine ⟨L', h.release hr List.erase_sublist (fun g hg => hg) ?_ ?_, rfl, rfl, hr⟩
  · intro l' hl' x hx hu
    have hne : l' ≠ l := by
      rintro rfl
      exact h.live_nodup.not_mem_erase hl'
    exact h.live_ne (List.mem_of_mem_erase hl') hl hne x ⟨hx, ((h.intact l hl).block_has hreq x).mp hu⟩
  · intro x hx
    exact h.owned x (Or.inr ⟨l, hl, ((h.intact l hl).block_has hreq x).mp hx⟩)

theorem HeapSound.store_outside (h : HeapSound k s L) {address : Nat} {byte : BitVec 8}
    (hallowed : (HeapOp.store address byte).Allowed s) {b : Block} (hb : b ∈ L) {x : Nat} (hlo : b.addr ≤ x)
    (hhi : x < b.addr + 24) : Function.update s.alloc.mem address byte x = s.alloc.mem x := by
  obtain ⟨l, hl, hlo', hhi'⟩ := hallowed
  refine Function.update_of_ne ?_ _ _
  rintro rfl
  exact h.freeApart l hl x ⟨by omega, hhi'⟩ ⟨b, hb, hlo, by unfold Block.stop; omega⟩

/-- The heap depends on the bytes of its headers only. -/
theorem HeapSound.congr (h : HeapSound k s L)
    (hfree : ∀ b ∈ L, ∀ x, b.addr ≤ x → x < b.addr + 24 → m x = s.alloc.mem x)
    (hused : ∀ l ∈ s.live, ∀ x, l.base ≤ x + 16 → x < l.base → m x = s.alloc.mem x) :
    HeapSound k { s with alloc := { s.alloc with mem := m } } L := by
  refine ⟨h.chained.congr ?_, h.ordered, h.liveApart, h.freeApart, ?_, h.large, h.owned⟩
  · intro b hb
    exact ⟨load64_congr fun x hx hx' => hfree b hb x hx (by omega),
      load64_congr fun x hx hx' => hfree b hb x (by omega) (by omega)⟩
  · intro l hl
    exact (h.intact l hl).congr (hused l hl)

theorem HeapSound.store (h : HeapSound k s L) {address : Nat} {byte : BitVec 8}
    (hallowed : (HeapOp.store address byte).Allowed s) (hs : heapStep s (.store address byte) = .ok s') :
    HeapSound k s' L ∧ s'.live = s.live ∧ s'.regions = s.regions := by
  cases hs
  have houtside := fun {b : Block} (hb : b ∈ L) {x : Nat} => h.store_outside hallowed (x := x) hb
  obtain ⟨l, hl, hlo, hhi⟩ := hallowed
  have hlx : l.Has address := ⟨by omega, hhi⟩
  refine ⟨h.congr (fun b hb x => houtside hb) ?_, rfl, rfl⟩
  intro l' hl' x hx hx'
  refine Function.update_of_ne ?_ _ _
  rintro rfl
  by_cases hsame : l' = l
  · rw [hsame] at hx'
    omega
  · exact h.live_ne hl' hl hsame x ⟨⟨hx, Nat.lt_of_lt_of_le hx' (Nat.le_add_right _ _)⟩, hlx⟩

theorem heapStep_sound (h : HeapSound 8 s L) {op : HeapOp} (hallowed : op.Allowed s) (hsafe : op.Safe s)
    (hs : heapStep s op = .ok s') : ∃ L', HeapSound 8 s' L' := by
  cases op with
  | addMemory base size =>
      obtain ⟨L', h', _⟩ := h.addMemory (hallowed.roomy hsafe) hs
      exact ⟨L', h'⟩
  | allocate request =>
      obtain ⟨hr, hr16⟩ := hallowed
      have hend : ∀ b ∈ L, b.stop < 2 ^ 64 + request := fun b hb => by
        have := h.ordered.bounded b hb
        omega
      obtain ⟨L', _, h', _⟩ := h.allocate hr hr16 hend hsafe hs
      exact ⟨L', h'⟩
  | deallocate l =>
      obtain ⟨L', h', _⟩ := h.deallocate hallowed (h.large l hallowed) hs
      exact ⟨L', h'⟩
  | store address byte => exact ⟨L, (h.store hallowed hs).1⟩

theorem heapSound_empty (k : Nat) (m : VirtualMemory) : HeapSound k { alloc := ⟨m, 0⟩ } [] := by
  refine ⟨⟨rfl, by simp⟩, ⟨by simp, by simp, .nil⟩, .nil, by simp, by simp, by simp, ?_⟩
  rintro x (⟨b, hb, _⟩ | ⟨l, hl, _⟩)
  · cases hb
  · cases hl

end

/-- No two live blocks overlap and none overlaps a block of the free list, in
every state of a run whose steps meet `HeapOp.Safe`. -/
theorem heap_blocks_disjoint (m : VirtualMemory) (ops : List HeapOp) (s : HeapState)
    (hrun : Run heapStep (fun s op => op.Allowed s ∧ op.Safe s) { alloc := ⟨m, 0⟩ } ops s) :
    s.live.Pairwise LiveBlock.Apart ∧
      ∀ l ∈ s.live, ∀ b, Reachable (next s.alloc.mem) s.alloc.head b →
        ∀ x, ¬ (l.Has x ∧ b ≤ x ∧ x < b + 24 + size s.alloc.mem b) := by
  obtain ⟨L, h⟩ := hrun.invariant (I := fun s => ∃ L, HeapSound 8 s L)
    (fun s op t ⟨L, h⟩ hop ht => heapStep_sound h hop.1 hop.2 ht) ⟨[], heapSound_empty 8 m⟩
  refine ⟨h.liveApart, ?_⟩
  rintro l hl b hb x ⟨hlx, hlo, hhi⟩
  obtain ⟨d, hd, rfl⟩ := (h.chained.mem_reachable h.ordered).mp hb
  rw [h.chained.sizes d hd] at hhi
  exact h.freeApart l hl x hlx ⟨d, hd, hlo, hhi⟩

/-! ### Two runs -/

instance (s : HeapState) (op : HeapOp) : Decidable (op.Allowed s) :=
  match op with
  | .addMemory _ _ => inferInstanceAs (Decidable (_ ∧ _ ∧ _))
  | .allocate _ => inferInstanceAs (Decidable (_ ∧ _))
  | .deallocate block => inferInstanceAs (Decidable (block ∈ s.live))
  | .store _ _ => inferInstanceAs (Decidable (∃ l ∈ s.live, _ ∧ _))

/-- First fit does not end at a block that fits perfectly. -/
def NoPerfectFit (s : FreeListAllocator) (request : Nat) : Prop :=
  (findFit s.mem request loopFuel s.head).all fun b => !perfectFit s.mem b request

instance (s : FreeListAllocator) (request : Nat) : Decidable (NoPerfectFit s request) :=
  inferInstanceAs (Decidable (_ = true))

theorem NoPerfectFit.linked {s : FreeListAllocator} {request : Nat} (h : NoPerfectFit s request) :
    PerfectFitLinked s request := by
  intro b hb _ hperfect
  rw [NoPerfectFit, hb] at h
  simp [hperfect] at h

/-- A condition that implies `HeapOp.Safe` and can be tested. -/
def HeapOp.SafeSize (s : HeapState) : HeapOp → Prop
  | .addMemory base size => 8 ≤ size ∧ base + size + 16 ≤ 2 ^ 64
  | .allocate request => NoPerfectFit s.alloc request
  | _ => True

instance (s : HeapState) (op : HeapOp) : Decidable (op.SafeSize s) :=
  match op with
  | .addMemory _ _ => inferInstanceAs (Decidable (_ ∧ _))
  | .allocate request => inferInstanceAs (Decidable (NoPerfectFit s.alloc request))
  | .deallocate _ => inferInstanceAs (Decidable True)
  | .store _ _ => inferInstanceAs (Decidable True)

theorem HeapOp.SafeSize.safe {s : HeapState} {op : HeapOp} (h : op.SafeSize s) : op.Safe s := by
  cases op with
  | addMemory base size => exact h
  | allocate request => exact NoPerfectFit.linked h
  | deallocate block => trivial
  | store address byte => trivial

def emptyHeap : HeapState := { alloc := ⟨fun _ => 0#8, 0⟩ }

/-- Three blocks, the first of which is given back. -/
def threeBlocks : List HeapOp :=
  [.addMemory 0x1000 512, .allocate 256, .allocate 16, .allocate 16, .deallocate ⟨0x1110, 256⟩]

theorem heap_blocks_disjoint_three_blocks : ∃ s,
    Run heapStep (fun s op => op.Allowed s ∧ op.Safe s) emptyHeap threeBlocks s ∧
    s.live = [⟨0x10d0, 16⟩, ⟨0x10f0, 16⟩] ∧ s.live.Pairwise LiveBlock.Apart := by
  have hlive : (replay heapStep (fun s op => op.Allowed s ∧ op.SafeSize s) emptyHeap threeBlocks).map
      HeapState.live = some [⟨0x10d0, 16⟩, ⟨0x10f0, 16⟩] := by decide +kernel
  obtain ⟨s, hs, hlive⟩ := Option.map_eq_some_iff.mp hlive
  have hrun : Run heapStep (fun s op => op.Allowed s ∧ op.Safe s) emptyHeap threeBlocks s :=
    (replay_run hs).mono (I := fun _ => True) (fun _ _ _ _ _ _ => trivial) (fun s op _ h => ⟨h.1, h.2.safe⟩) trivial
  exact ⟨s, hrun, hlive, (heap_blocks_disjoint _ _ s hrun).1⟩

/-- The third block joins the free block below it, which leaves the previous
pointer of the first one stale; the request then fits the first one perfectly. -/
def staleLink : List HeapOp :=
  threeBlocks ++ [.deallocate ⟨0x10d0, 16⟩, .allocate 232]

/-- A block that was handed out is still on the free list. -/
theorem heap_blocks_overlap : ∃ s, Run heapStep (fun s op => op.Allowed s) emptyHeap staleLink s ∧
    ⟨0x1110, 232⟩ ∈ s.live ∧ Reachable (next s.alloc.mem) s.alloc.head 0x1100 ∧
    LiveBlock.Has ⟨0x1110, 232⟩ 0x1100 ∧ 0x1100 < 0x1100 + 24 + size s.alloc.mem 0x1100 := by
  have hfinal : (replay heapStep (fun s op => op.Allowed s) emptyHeap staleLink).map
      (fun s => (s.live, s.alloc.head, next s.alloc.mem 0x1000)) =
        some ([⟨0x1110, 232⟩, ⟨0x10f0, 16⟩], 0x1000, 0x1100) := by decide +kernel
  obtain ⟨s, hs, hobs⟩ := Option.map_eq_some_iff.mp hfinal
  obtain ⟨hlive, hhead, hnext⟩ : s.live = _ ∧ s.alloc.head = _ ∧ next s.alloc.mem 0x1000 = _ := by
    simpa only [Prod.mk.injEq] using hobs
  refine ⟨s, replay_run hs, by rw [hlive]; exact List.mem_cons_self, ?_, ⟨by decide, by decide⟩, by omega⟩
  rw [hhead, ← hnext]
  exact .step (.start (by decide)) (by rw [hnext]; decide)

end DavOS
