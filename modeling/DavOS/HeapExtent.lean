import DavOS.HeapRuns

/-! How far the free list reaches. `add_memory` makes a used block of the size
of the whole region and gives it back; the 16 bytes of the used header are then
counted on top of that size, so the free block ends 16 bytes after the region. -/
namespace DavOS
open MachineWord ByteMemory LinkedSegment FreeBlockHeader GuardedRun

/-- What clients promise here: regions of at least 40 bytes of memory, not at the
null pointer; requests that do not wrap; blocks that are live. -/
def HeapOp.Given (s : HeapState) : HeapOp → Prop
  | .addMemory base size => base ≠ 0 ∧ 40 ≤ size ∧ base + size ≤ 2 ^ 64
  | .allocate request => 8 ≤ request ∧ request + 16 < 2 ^ 64
  | .deallocate block => block ∈ s.live
  | .store address _ => ∃ l ∈ s.live, l.base ≤ address ∧ address < l.base + l.request

/-- Address `x` is in a region that was added. -/
def HeapState.Owns (s : HeapState) (x : Nat) : Prop := ∃ g ∈ s.regions, g.base ≤ x ∧ x < g.base + g.size

/-- Every free block and every live block is inside the added regions. -/
def HeapState.Inside (s : HeapState) : Prop :=
  (∀ b, Reachable (next s.alloc.mem) s.alloc.head b →
    ∀ x, b ≤ x → x < b + 24 + size s.alloc.mem b → s.Owns x) ∧
  ∀ l ∈ s.live, ∀ x, l.Has x → s.Owns x

/-- The first region becomes the head of the list, 16 bytes longer than it is. -/
theorem addMemory_empty (m : VirtualMemory) {base sz : Nat} (hnull : base ≠ 0) (hsize : 40 ≤ sz)
    (hend : base + sz ≤ 2 ^ 64) : ∃ m', FreeListAllocator.addMemory ⟨m, 0⟩ base sz = .ok ⟨m', base⟩ ∧
      size m' base = sz - 8 := by
  have hbase : wrapSub (wrap (base + UsedBlockHeader.bytes)) UsedBlockHeader.bytes = base := by
    simp only [wrapSub, wrap, UsedBlockHeader.bytes]
    omega
  have hused := used_construct_self (m := m) base (show sz < 2 ^ 64 by omega)
  have hspot : findSpot (UsedBlockHeader.construct m base sz) base loopFuel 0 0 = some (0, 0) := by
    rw [show loopFuel = (2 ^ 64 - 1) + 1 by decide, findSpot, if_neg (by simp)]
  have hfree : wrapSub (wrap (sz + UsedBlockHeader.bytes)) FreeBlockHeader.bytes = sz - 8 := by
    simp only [wrapSub, wrap, UsedBlockHeader.bytes, FreeBlockHeader.bytes]
    omega
  obtain ⟨hs, hn, hp⟩ := construct_self (m := UsedBlockHeader.construct m base sz) base
    (show sz - 8 < 2 ^ 64 by omega) (show 0 < 2 ^ 64 by decide) (show 0 < 2 ^ 64 by decide)
  refine ⟨construct (UsedBlockHeader.construct m base sz) base (sz - 8) 0 0, ?_, hs⟩
  have hnext : coalesceNext (construct (UsedBlockHeader.construct m base sz) base (sz - 8) 0 0) base =
      construct (UsedBlockHeader.construct m base sz) base (sz - 8) 0 0 := by
    unfold coalesceNext
    rw [if_neg (by simp [hn])]
  have hprev : coalescePrev (construct (UsedBlockHeader.construct m base sz) base (sz - 8) 0 0) base =
      construct (UsedBlockHeader.construct m base sz) base (sz - 8) 0 0 := by
    unfold coalescePrev
    rw [if_neg (by simp [hp])]
  unfold FreeListAllocator.addMemory FreeListAllocator.deallocate
  simp only [hbase, hused.1, hused.2, hspot, hfree, ne_eq, not_true, if_false, orHang_some]
  change Except.ok (FreeListAllocator.mk (coalescePrev (coalesceNext
    (construct (UsedBlockHeader.construct m base sz) base (sz - 8) 0 0) base) base) base) = _
  rw [hnext, hprev]

theorem allocate_empty (m : VirtualMemory) (request : Nat) :
    FreeListAllocator.allocate ⟨m, 0⟩ request = .error (.panic "ran out of virtual memory!\n") := by
  have hfind : findFit m request loopFuel 0 = some 0 := by
    rw [show loopFuel = (2 ^ 64 - 1) + 1 by decide, findFit, if_neg (by simp)]
  unfold FreeListAllocator.allocate
  simp only [hfind, orHang_some]
  rfl

theorem heap_run_first {m : VirtualMemory} {op : HeapOp} {ops : List HeapOp} {s : HeapState}
    (h : Run heapStep HeapOp.Given { alloc := ⟨m, 0⟩ } (op :: ops) s) :
    ∃ base sz, op = .addMemory base sz ∧ base ≠ 0 ∧ 40 ≤ sz ∧ base + sz ≤ 2 ^ 64 := by
  cases h with
  | cons hop hs _ =>
      cases op with
      | addMemory base sz => exact ⟨base, sz, rfl, hop⟩
      | allocate request =>
          simp only [heapStep, allocate_empty] at hs
          cases hs
      | deallocate block => cases hop
      | store address byte =>
          obtain ⟨l, hl, _⟩ := hop
          cases hl

/-- Every block stays inside the added regions in all states of a run exactly
when the run adds no memory at all: the first free block already passes the end
of its region. -/
theorem heap_stays_inside_iff (m : VirtualMemory) (ops : List HeapOp) (s : HeapState)
    (hrun : Run heapStep HeapOp.Given { alloc := ⟨m, 0⟩ } ops s) :
    (∀ before t, before <+: ops → Run heapStep HeapOp.Given { alloc := ⟨m, 0⟩ } before t → t.Inside) ↔
      ∀ base sz, HeapOp.addMemory base sz ∉ ops := by
  cases ops with
  | nil =>
      refine iff_of_true ?_ (fun _ _ h => by cases h)
      intro before t hprefix hrun
      obtain rfl := List.prefix_nil.mp hprefix
      cases hrun
      refine ⟨fun b hb => ?_, fun l hl => by cases hl⟩
      have hnone : Segment (next m) 0 [] 0 := rfl
      exact absurd ((hnone.reachable_iff (by simp) b).mp hb) List.not_mem_nil
  | cons op ops =>
      obtain ⟨base, sz, rfl, hnull, hsize, hend⟩ := heap_run_first hrun
      refine iff_of_false ?_ (fun h => h base sz List.mem_cons_self)
      intro hinside
      obtain ⟨m', hadd, hm'⟩ := addMemory_empty m hnull hsize hend
      have hone : Run heapStep HeapOp.Given { alloc := ⟨m, 0⟩ } [.addMemory base sz]
          ⟨⟨m', base⟩, [], [⟨base, sz⟩]⟩ := by
        refine .cons ⟨hnull, hsize, hend⟩ ?_ (.nil _)
        simp only [heapStep, hadd]
        rfl
      have hfirst := (hinside [.addMemory base sz] _ (List.cons_prefix_cons.mpr ⟨rfl, List.nil_prefix⟩) hone).1
      obtain ⟨g, hg, _, hhi⟩ := hfirst base (.start hnull) (base + sz) (by omega) (by
        change base + sz < base + 24 + size m' base
        omega)
      obtain rfl := List.mem_singleton.mp hg
      exact Nat.lt_irrefl _ hhi

instance (s : HeapState) (op : HeapOp) : Decidable (op.Given s) :=
  match op with
  | .addMemory _ _ => inferInstanceAs (Decidable (_ ∧ _ ∧ _))
  | .allocate _ => inferInstanceAs (Decidable (_ ∧ _))
  | .deallocate block => inferInstanceAs (Decidable (block ∈ s.live))
  | .store _ _ => inferInstanceAs (Decidable (∃ l ∈ s.live, _ ∧ _))

/-- A region and the first block that is taken from it. -/
def firstBlock : List HeapOp := [.addMemory 0x1000 512, .allocate 16]

theorem firstBlock_run : ∃ s, Run heapStep HeapOp.Given emptyHeap firstBlock s ∧
    s.live = [⟨0x1200, 16⟩] ∧ s.regions = [⟨0x1000, 512⟩] := by
  have hfinal : (replay heapStep HeapOp.Given emptyHeap firstBlock).map (fun s => (s.live, s.regions)) =
      some ([⟨0x1200, 16⟩], [⟨0x1000, 512⟩]) := by decide +kernel
  obtain ⟨s, hs, hobs⟩ := Option.map_eq_some_iff.mp hfinal
  exact ⟨s, replay_run hs, Prod.mk.inj hobs⟩

theorem heap_stays_inside_first_block :
    ¬ ∀ before t, before <+: firstBlock → Run heapStep HeapOp.Given emptyHeap before t → t.Inside := by
  obtain ⟨s, hs, _⟩ := firstBlock_run
  intro h
  exact (heap_stays_inside_iff (fun _ => 0#8) firstBlock s hs).mp h 0x1000 512 List.mem_cons_self

/-- The payload of the first block begins where the region ends. -/
theorem heap_leaves_region : ∃ s, Run heapStep HeapOp.Given emptyHeap firstBlock s ∧
    ⟨0x1200, 16⟩ ∈ s.live ∧ LiveBlock.Has ⟨0x1200, 16⟩ 0x1200 ∧ ¬ s.Owns 0x1200 := by
  obtain ⟨s, hs, hlive, hregions⟩ := firstBlock_run
  refine ⟨s, hs, by rw [hlive]; exact List.mem_cons_self, ⟨by decide, by decide⟩, ?_⟩
  rintro ⟨g, hg, _, hhi⟩
  rw [hregions] at hg
  obtain rfl := List.mem_singleton.mp hg
  exact Nat.lt_irrefl _ hhi

end DavOS
