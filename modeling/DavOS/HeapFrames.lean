import DavOS.HeapRuns

/-! What the allocator writes. Its headers lie between the blocks of clients, so
a free header that is longer than the block it replaces, or a write through a
stale link, lands in memory that a client holds. -/
namespace DavOS
open MachineWord ByteMemory LinkedSegment FreeBlockHeader GuardedRun

/-- What clients promise when regions may touch: new regions are in memory, not
at the null pointer, and overlap no other; requests are of `k` bytes or more and
do not wrap; blocks that are given back or written to are live. -/
def HeapOp.Lawful (k : Nat) (s : HeapState) : HeapOp → Prop
  | .addMemory base size => base ≠ 0 ∧ base + size ≤ 2 ^ 64 ∧
      ∀ g ∈ s.regions, base + size ≤ g.base ∨ g.base + g.size ≤ base
  | .allocate request => k ≤ request ∧ request + 16 < 2 ^ 64
  | .deallocate block => block ∈ s.live
  | .store address _ => ∃ l ∈ s.live, l.base ≤ address ∧ address < l.base + l.request

/-- Where the allocator writes into no live block: the 16 bytes that it adds to
a region exist and are in no other region, a perfect fit follows no stale
pointer, and a freed block has room for the 24 bytes of a free header. -/
def HeapOp.Sparing (s : HeapState) : HeapOp → Prop
  | .addMemory base size => 8 ≤ size ∧ base + size + 16 < 2 ^ 64 ∧
      ∀ g ∈ s.regions, base + size + 16 ≤ g.base ∨ g.base + g.size + 16 ≤ base
  | .allocate request => PerfectFitLinked s.alloc request
  | .deallocate block => 8 ≤ block.request
  | .store _ _ => True

/-- The step is taken by the allocator, not by a client. -/
def HeapOp.ByAllocator : HeapOp → Prop
  | .store _ _ => False
  | _ => True

/-- The used header of a live block as `allocate` wrote it. -/
structure LiveBlock.Marked (s : HeapState) (l : LiveBlock) : Prop where
  size : s.alloc.getSize l.base = l.request
  magic : UsedBlockHeader.magic s.alloc.mem (wrapSub l.base UsedBlockHeader.bytes) = UsedBlockHeader.magicConstant

/-- The heap invariant for requests of any size. -/
structure HeapMarked (s : HeapState) (L : List Block) : Prop where
  sound : HeapSound 0 s L
  ends : ∀ g ∈ s.regions, g.base + g.size + 16 < 2 ^ 64
  magic : ∀ l ∈ s.live, UsedBlockHeader.magic s.alloc.mem (l.base - 16) = UsedBlockHeader.magicConstant

section

variable {s s' : HeapState} {L : List Block} {l : LiveBlock} {k : Nat}

theorem HeapOp.Sparing.roomy {base size : Nat} (hlawful : (HeapOp.addMemory base size).Lawful k s)
    (hsparing : (HeapOp.addMemory base size).Sparing s) : Region.Roomy s.regions ⟨base, size⟩ :=
  ⟨hlawful.1, hsparing.1, Nat.le_of_lt hsparing.2.1, hsparing.2.2⟩

theorem HeapMarked.marked (h : HeapMarked s L) (hl : l ∈ s.live) : l.Marked s := by
  obtain ⟨hlow, hhigh, hsize⟩ := h.sound.intact l hl
  have hmagic := h.magic l hl
  by_cases hend : l.base < 2 ^ 64
  · have hbase : wrapSub l.base UsedBlockHeader.bytes = l.base - 16 := wrapSub_of_le hend (by
      simp only [UsedBlockHeader.bytes]
      omega)
    refine ⟨?_, by rw [hbase]; exact hmagic⟩
    unfold FreeListAllocator.getSize
    rw [hbase]
    exact hsize
  · -- a pointer past the end would need a region that reaches it
    have hheader : l.Has (l.base - 1) := ⟨by omega, by omega⟩
    obtain ⟨g, hg, _, hhi⟩ := h.sound.owned (l.base - 1) (Or.inr ⟨l, hl, hheader⟩)
    have := h.ends g hg
    omega

theorem magic_congr {m m' : VirtualMemory} (hlow : 16 < l.base) (hm : ∀ x, l.Has x → m' x = m x) :
    UsedBlockHeader.magic m' (l.base - 16) = UsedBlockHeader.magic m (l.base - 16) := by
  refine load64_congr fun x hx hx' => hm x ⟨by omega, ?_⟩
  omega

theorem HeapMarked.step (h : HeapMarked s L) {op : HeapOp} (hlawful : op.Lawful 0 s) (hsparing : op.Sparing s)
    (hop : op.ByAllocator) (hs : heapStep s op = .ok s') :
    (∃ L', HeapMarked s' L') ∧ ∀ l ∈ s.live, l ∈ s'.live → ∀ x, l.Has x → s'.alloc.mem x = s.alloc.mem x := by
  cases op with
  | addMemory base size =>
      obtain ⟨L', h', hlive, hregions, hr⟩ := h.sound.addMemory (hsparing.roomy hlawful) hs
      have hkeep : ∀ l ∈ s.live, ∀ x, l.Has x → s'.alloc.mem x = s.alloc.mem x := by
        intro l hl x hx
        refine hr.frame x (h.sound.freeApart l hl x hx) ?_
        intro hu
        exact h'.freeApart l (hlive ▸ hl) x hx ((hr.covered x).mpr (Or.inr hu))
      refine ⟨⟨L', h', ?_, ?_⟩, fun l hl _ => hkeep l hl⟩
      · intro g hg
        rw [hregions] at hg
        rcases List.mem_cons.mp hg with rfl | hg
        · exact hsparing.2.1
        · exact h.ends g hg
      · intro l hl
        rw [hlive] at hl
        rw [magic_congr (h.sound.intact l hl).low (hkeep l hl)]
        exact h.magic l hl
  | allocate request =>
      have hend : ∀ b ∈ L, b.stop < 2 ^ 64 + request := fun b hb => by
        have := h.sound.stop_lt h.ends hb
        omega
      obtain ⟨L', p, h', _, hlive, hregions, ht⟩ :=
        h.sound.allocate (Nat.zero_le _) hlawful.2 hend hsparing hs
      have hkeep : ∀ l ∈ s.live, ∀ x, l.Has x → s'.alloc.mem x = s.alloc.mem x :=
        fun l hl x hx => ht.frame x (h.sound.freeApart l hl x hx)
      refine ⟨⟨L', h', by rw [hregions]; exact h.ends, ?_⟩, fun l hl _ => hkeep l hl⟩
      intro l hl
      rw [hlive] at hl
      rcases List.mem_cons.mp hl with rfl | hl
      · exact ht.header.2.2
      · rw [magic_congr (h.sound.intact l hl).low (hkeep l hl)]
        exact h.magic l hl
  | deallocate block =>
      obtain ⟨L', h', hlive, hregions, hr⟩ := h.sound.deallocate hlawful hsparing hs
      have hkeep : ∀ l ∈ s'.live, ∀ x, l.Has x → s'.alloc.mem x = s.alloc.mem x := by
        intro l hl x hx
        have hold : l ∈ s.live := by
          rw [hlive] at hl
          exact List.mem_of_mem_erase hl
        refine hr.frame x (h.sound.freeApart l hold x hx) ?_
        intro hu
        exact h'.freeApart l hl x hx ((hr.covered x).mpr (Or.inr hu))
      refine ⟨⟨L', h', by rw [hregions]; exact h.ends, ?_⟩, fun l _ hl => hkeep l hl⟩
      intro l hl
      rw [magic_congr (h'.intact l hl).low (hkeep l hl)]
      rw [hlive] at hl
      exact h.magic l (List.mem_of_mem_erase hl)
  | store address byte => cases hop

theorem HeapMarked.store (h : HeapMarked s L) {address : Nat} {byte : BitVec 8}
    (hlawful : (HeapOp.store address byte).Lawful k s) (hs : heapStep s (.store address byte) = .ok s') :
    HeapMarked s' L := by
  obtain ⟨h', hlive, hregions⟩ := h.sound.store hlawful hs
  refine ⟨h', by rw [hregions]; exact h.ends, ?_⟩
  cases hs
  obtain ⟨owner, howner, hlo, hhi⟩ := hlawful
  intro l hl
  refine Eq.trans (load64_congr ?_) (h.magic l hl)
  intro x hx hx'
  have hlow := (h.sound.intact l hl).low
  refine Function.update_of_ne ?_ _ _
  rintro rfl
  by_cases hsame : l = owner
  · obtain rfl := hsame
    omega
  · exact h.sound.live_ne hl howner hsame x ⟨⟨by omega, by omega⟩, ⟨by omega, hhi⟩⟩

theorem HeapMarked.next (h : HeapMarked s L) {op : HeapOp} (hlawful : op.Lawful 0 s) (hsparing : op.Sparing s)
    (hs : heapStep s op = .ok s') : ∃ L', HeapMarked s' L' := by
  cases op with
  | addMemory base size => exact (h.step hlawful hsparing trivial hs).1
  | allocate request => exact (h.step hlawful hsparing trivial hs).1
  | deallocate block => exact (h.step hlawful hsparing trivial hs).1
  | store address byte => exact ⟨L, h.store hlawful hs⟩

theorem heapMarked_empty (m : VirtualMemory) : HeapMarked { alloc := ⟨m, 0⟩ } [] :=
  ⟨heapSound_empty 0 m, by simp, by simp⟩

end

/-- In every state of a run whose steps meet `HeapOp.Sparing`, live blocks have
the header that `allocate` wrote, and the allocator's next step changes no byte
of a block that stays live. -/
theorem heap_writes_spare_live (m : VirtualMemory) (ops : List HeapOp) (s : HeapState)
    (hrun : Run heapStep (fun s op => op.Lawful 0 s ∧ op.Sparing s) { alloc := ⟨m, 0⟩ } ops s) :
    (∀ l ∈ s.live, l.Marked s) ∧
      ∀ op s', op.Lawful 0 s → op.Sparing s → op.ByAllocator → heapStep s op = .ok s' →
        ∀ l ∈ s.live, l ∈ s'.live → ∀ x, l.Has x → s'.alloc.mem x = s.alloc.mem x := by
  obtain ⟨L, h⟩ := hrun.invariant (I := fun s => ∃ L, HeapMarked s L)
    (fun s op t ⟨L, h⟩ hop ht => h.next hop.1 hop.2 ht) ⟨[], heapMarked_empty m⟩
  refine ⟨fun l hl => h.marked hl, ?_⟩
  intro op s' hlawful hsparing hop hs
  exact (h.step hlawful hsparing hop hs).2

/-! ### Two runs -/

instance (k : Nat) (s : HeapState) (op : HeapOp) : Decidable (op.Lawful k s) :=
  match op with
  | .addMemory _ _ => inferInstanceAs (Decidable (_ ∧ _ ∧ _))
  | .allocate _ => inferInstanceAs (Decidable (_ ∧ _))
  | .deallocate block => inferInstanceAs (Decidable (block ∈ s.live))
  | .store _ _ => inferInstanceAs (Decidable (∃ l ∈ s.live, _ ∧ _))

/-- A condition that implies `HeapOp.Sparing` and can be tested. -/
def HeapOp.SparingSize (s : HeapState) : HeapOp → Prop
  | .addMemory base size => 8 ≤ size ∧ base + size + 16 < 2 ^ 64 ∧
      ∀ g ∈ s.regions, base + size + 16 ≤ g.base ∨ g.base + g.size + 16 ≤ base
  | .allocate request => NoPerfectFit s.alloc request
  | .deallocate block => 8 ≤ block.request
  | .store _ _ => True

instance (s : HeapState) (op : HeapOp) : Decidable (op.SparingSize s) :=
  match op with
  | .addMemory _ _ => inferInstanceAs (Decidable (_ ∧ _ ∧ _))
  | .allocate request => inferInstanceAs (Decidable (NoPerfectFit s.alloc request))
  | .deallocate block => inferInstanceAs (Decidable (8 ≤ block.request))
  | .store _ _ => inferInstanceAs (Decidable True)

theorem HeapOp.SparingSize.sparing {s : HeapState} {op : HeapOp} (h : op.SparingSize s) : op.Sparing s := by
  cases op with
  | addMemory base size => exact h
  | allocate request => exact NoPerfectFit.linked h
  | deallocate block => exact h
  | store address byte => trivial

/-- A block of 16 bytes, one of 8 bytes just below it that is given back, and an empty one. -/
def emptyRequest : List HeapOp :=
  [.addMemory 0x1000 512, .allocate 16, .allocate 8, .deallocate ⟨0x11e8, 8⟩, .allocate 0]

theorem heap_writes_spare_live_empty_request : ∃ s,
    Run heapStep (fun s op => op.Lawful 0 s ∧ op.Sparing s) emptyHeap emptyRequest s ∧
    s.live = [⟨0x11f0, 0⟩, ⟨0x1200, 16⟩] ∧ ∀ l ∈ s.live, l.Marked s := by
  have hlive : (replay heapStep (fun s op => op.Lawful 0 s ∧ op.SparingSize s) emptyHeap emptyRequest).map
      HeapState.live = some [⟨0x11f0, 0⟩, ⟨0x1200, 16⟩] := by decide +kernel
  obtain ⟨s, hs, hlive⟩ := Option.map_eq_some_iff.mp hlive
  have hrun : Run heapStep (fun s op => op.Lawful 0 s ∧ op.Sparing s) emptyHeap emptyRequest s :=
    (replay_run hs).mono (I := fun _ => True) (fun _ _ _ _ _ _ => trivial)
      (fun s op _ h => ⟨h.1, h.2.sparing⟩) trivial
  exact ⟨s, hrun, hlive, (heap_writes_spare_live _ _ s hrun).1⟩

/-- A block of 4 bytes lies just below one of 16 bytes; it is given back. -/
def shortBlock : List HeapOp :=
  [.addMemory 0x1000 512, .allocate 16, .allocate 4, .deallocate ⟨0x11ec, 4⟩]

/-- The free header of the short block runs into the header of the block above. -/
theorem heap_write_hits_live : ∃ s, Run heapStep (fun s op => op.Lawful 0 s) emptyHeap shortBlock s ∧
    ⟨0x1200, 16⟩ ∈ s.live ∧ s.alloc.getSize 0x1200 = 0 := by
  have hfinal : (replay heapStep (fun s op => op.Lawful 0 s) emptyHeap shortBlock).map
      (fun s => (s.live, s.alloc.getSize 0x1200)) = some ([⟨0x1200, 16⟩], 0) := by decide +kernel
  obtain ⟨s, hs, hobs⟩ := Option.map_eq_some_iff.mp hfinal
  obtain ⟨hlive, hsize⟩ : s.live = _ ∧ s.alloc.getSize 0x1200 = 0 := by
    simpa only [Prod.mk.injEq] using hobs
  exact ⟨s, replay_run hs, by rw [hlive]; exact List.mem_cons_self, hsize⟩

end DavOS
