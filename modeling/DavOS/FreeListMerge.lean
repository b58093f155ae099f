import DavOS.HalfOpen
import DavOS.HeapRuns

/-! Freeing into a fully coalesced list. No two blocks of such a list touch, so
the bytes that it covers say what the list is; freeing keeps it coalesced, and the
order in which blocks are freed leaves no trace in it. -/
namespace DavOS
open MachineWord ByteMemory FreeBlockHeader HalfOpen

/-- An ordered list with at least one byte between each block and the next. -/
structure Coalesced (L : List Block) : Prop where
  ordered : Ordered L
  apart : L.Pairwise fun a b => a.stop < b.addr

section

variable {L L' before after rest : List Block} {b u : Block}

theorem apart_absorbNext (hrest : rest.Pairwise fun a b => a.stop < b.addr) (hle : ∀ c ∈ rest, b.stop ≤ c.addr) :
    (absorbNext b rest).Pairwise fun a b => a.stop < b.addr := by
  cases rest with
  | nil => exact List.pairwise_singleton _ _
  | cons c rest =>
      obtain ⟨hc, htail⟩ := List.pairwise_cons.mp hrest
      rw [absorbNext_cons]
      split
      · rename_i hstop
        refine List.pairwise_cons.mpr ⟨fun d hd => ?_, htail⟩
        have := hc d hd
        simp only [Block.stop] at hstop this ⊢
        omega
      · rename_i hne
        have hlt : b.stop < c.addr := Nat.lt_of_le_of_ne (hle c List.mem_cons_self) hne
        refine List.pairwise_cons.mpr ⟨fun d hd => ?_, hrest⟩
        rcases List.mem_cons.mp hd with rfl | hd
        · exact hlt
        · have := hc d hd
          unfold Block.stop at hlt this ⊢
          omega

theorem addr_le_absorbNext (ho : Ordered (before ++ b :: after)) {d : Block} (hd : d ∈ absorbNext b after) :
    b.addr ≤ d.addr := by
  rcases mem_absorbNext ho hd with heq | ⟨hd, _⟩
  · exact Nat.le_of_eq heq.symm
  · have := (ordered_append_cons.mp ho).2.2.2.2 d hd
    unfold Block.stop at this
    omega

theorem Coalesced.released (h : Coalesced (before ++ after)) (ho : Ordered (before ++ u :: after)) :
    Coalesced (released before u after) := by
  refine ⟨ho.released, ?_⟩
  have hapart := List.pairwise_append.mp h.apart
  have hnext := apart_absorbNext hapart.2.1 (ordered_append_cons.mp ho).2.2.2.2
  rcases List.eq_nil_or_concat' before with rfl | ⟨init, q, rfl⟩
  · exact hnext
  · -- the block before the freed one is joined with what the first join has made
    have hjoined := ho.absorbNext
    rw [List.append_assoc, List.singleton_append] at hjoined
    obtain ⟨hinit, _, hq⟩ := List.pairwise_append.mp hapart.1
    rw [released_snoc]
    refine List.pairwise_append.mpr ⟨hinit, apart_absorbNext hnext (ordered_append_cons.mp hjoined).2.2.2.2, ?_⟩
    intro d hd e he
    exact Nat.lt_of_lt_of_le (hq d hd q (by simp)) (addr_le_absorbNext hjoined he)

/-- The bytes of a block, as an interval. -/
def Block.interval (b : Block) : Nat × Nat := (b.addr, b.stop)

theorem Block.interval_inj {a b : Block} (h : a.interval = b.interval) : a = b := by
  obtain ⟨addr, size⟩ := a
  obtain ⟨addr', size'⟩ := b
  simp only [interval, stop, Prod.mk.injEq] at h
  simp only [Block.mk.injEq]
  omega

theorem Coalesced.separated (h : Coalesced L) : Separated (L.map Block.interval) := by
  refine ⟨fun p hp => ?_, List.pairwise_map.mpr h.apart⟩
  obtain ⟨b, _, rfl⟩ := List.mem_map.mp hp
  simp only [Block.interval, Block.stop]
  omega

theorem covered_iff_within (L : List Block) (x : Nat) :
    Covered L x ↔ ∃ p ∈ L.map Block.interval, Within p x := by
  simp only [Covered, List.mem_map, exists_exists_and_eq_and]
  rfl

theorem Coalesced.ext (h : Coalesced L) (h' : Coalesced L') (hsame : ∀ x, Covered L x ↔ Covered L' x) : L = L' := by
  have hintervals : L.map Block.interval = L'.map Block.interval := by
    refine h.separated.ext h'.separated fun x => ?_
    rw [← covered_iff_within, ← covered_iff_within]
    exact hsame x
  exact List.map_injective_iff.mpr (fun _ _ => Block.interval_inj) hintervals

end

/-! ### Used blocks -/

/-- A used block that is not at the null pointer and has room for a free header. -/
structure LiveBlock.Usable (m : VirtualMemory) (l : LiveBlock) : Prop where
  intact : l.Intact m
  magic : UsedBlockHeader.magic m (l.base - 16) = UsedBlockHeader.magicConstant
  large : 8 ≤ l.request

section

variable {s s' : FreeListAllocator} {L L' : List Block} {m m' : VirtualMemory} {l : LiveBlock}

theorem LiveBlock.Usable.congr (h : l.Usable m) (hm : ∀ x, l.Has x → m' x = m x) : l.Usable m' := by
  have hlow := h.intact.low
  refine ⟨h.intact.congr fun x hx hx' => hm x ⟨hx, by omega⟩, Eq.trans (load64_congr ?_) h.magic, h.large⟩
  intro x hx hx'
  exact hm x ⟨by omega, by omega⟩

theorem LiveBlock.Usable.has_iff (h : l.Usable m) (x : Nat) : l.block.Has x ↔ l.Has x :=
  h.intact.block_has h.large x

theorem LiveBlock.Usable.freeable (h : l.Usable s.mem) (hchain : Chained s.mem s.head L)
    (hfresh : ∀ x, l.Has x → ¬ Covered L x) : Freeable s L l.base l.block :=
  h.intact.freeable h.large h.magic hchain hfresh

theorem LiveBlock.Usable.release (h : l.Usable s.mem) (hchain : Chained s.mem s.head L) (hL : Coalesced L)
    (hfresh : ∀ x, l.Has x → ¬ Covered L x) :
    ∃ s' L', s.deallocate l.base = .ok s' ∧ Coalesced L' ∧ Released L L' s s' l.block := by
  have hfreeable := h.freeable hchain hfresh
  obtain ⟨before, after, rfl, ho⟩ := hfreeable.split hL.ordered
  obtain ⟨s', hs', hreleased⟩ := deallocate_between hfreeable ho
  exact ⟨s', _, hs', hL.released ho, hreleased⟩

end

/-- `deallocate` gives exactly the bytes of the block back, and joins it with the free blocks that it touches. -/
theorem deallocate_returns_bytes (s : FreeListAllocator) (L : List Block) (hchain : Chained s.mem s.head L)
    (hL : Coalesced L) (l : LiveBlock) (hl : l.Usable s.mem) (hfresh : ∀ x, l.Has x → ¬ Covered L x) :
    ∃ s' L', s.deallocate l.base = .ok s' ∧ Chained s'.mem s'.head L' ∧ Coalesced L' ∧
      ∀ x, Covered L' x ↔ Covered L x ∨ l.Has x := by
  obtain ⟨s', L', hs', hL', hreleased⟩ := hl.release hchain hL hfresh
  refine ⟨s', L', hs', hreleased.chained, hL', fun x => ?_⟩
  rw [hreleased.covered x, hl.has_iff x]

/-- A used block of 64 bytes at `0x1000`, and right behind it a free one that is the whole list. -/
def usedBesideFree : FreeListAllocator :=
  ⟨construct (UsedBlockHeader.construct (fun _ => 0) 0x1000 64) 0x1050 8 0 0, 0x1050⟩

theorem usedBesideFree_chained : Chained usedBesideFree.mem usedBesideFree.head [⟨0x1050, 8⟩] :=
  ⟨⟨rfl, (by decide +kernel : next usedBesideFree.mem 0x1050 = 0)⟩, by decide +kernel⟩

theorem usedBesideFree_coalesced : Coalesced [⟨0x1050, 8⟩] :=
  ⟨⟨by decide, by decide, List.pairwise_singleton _ _⟩, List.pairwise_singleton _ _⟩

theorem usedBesideFree_usable : LiveBlock.Usable usedBesideFree.mem ⟨0x1010, 64⟩ :=
  ⟨⟨by decide, by decide, by decide +kernel⟩, by decide +kernel, by decide⟩

theorem usedBesideFree_fresh (x : Nat) (hx : LiveBlock.Has ⟨0x1010, 64⟩ x) : ¬ Covered [⟨0x1050, 8⟩] x := by
  rintro ⟨b, hb, hbx⟩
  rw [List.mem_singleton.mp hb] at hbx
  simp only [LiveBlock.Has, Block.Has, Block.stop] at hx hbx
  omega

/-- Freeing it leaves one block. -/
theorem deallocate_returns_bytes_joined : ∃ s' L', usedBesideFree.deallocate 0x1010 = .ok s' ∧
    Chained s'.mem s'.head L' ∧ Coalesced L' ∧ ∀ x, Covered L' x ↔ 0x1000 ≤ x ∧ x < 0x1070 := by
  obtain ⟨s', L', hs', hchain, hL', hcovered⟩ := deallocate_returns_bytes usedBesideFree [⟨0x1050, 8⟩]
    usedBesideFree_chained usedBesideFree_coalesced ⟨0x1010, 64⟩ usedBesideFree_usable usedBesideFree_fresh
  refine ⟨s', L', hs', hchain, hL', fun x => ?_⟩
  rw [hcovered x, covered_cons]
  simp only [Covered, List.not_mem_nil, false_and, exists_false, or_false, Block.Has, Block.stop, LiveBlock.Has]
  omega

/-! ### Freeing one block after the other -/

def deallocateAll (s : FreeListAllocator) (blocks : List LiveBlock) : Except Stop FreeListAllocator :=
  blocks.foldlM (fun s l => s.deallocate l.base) s

/-- Used blocks that have no byte in common with each other or with the free list. -/
structure UsedBlocks (m : VirtualMemory) (L : List Block) (blocks : List LiveBlock) : Prop where
  usable : ∀ l ∈ blocks, l.Usable m
  liveApart : blocks.Pairwise LiveBlock.Apart
  freeApart : ∀ l ∈ blocks, ∀ x, l.Has x → ¬ Covered L x

section

variable {s s' : FreeListAllocator} {L L' : List Block} {m : VirtualMemory} {l : LiveBlock}
  {blocks blocks' : List LiveBlock}

theorem UsedBlocks.perm (h : UsedBlocks m L blocks) (hperm : blocks.Perm blocks') : UsedBlocks m L blocks' :=
  ⟨fun l hl => h.usable l (hperm.mem_iff.mpr hl), (hperm.pairwise_iff LiveBlock.Apart.symm).mp h.liveApart,
    fun l hl => h.freeApart l (hperm.mem_iff.mpr hl)⟩

theorem UsedBlocks.release (h : UsedBlocks s.mem L (l :: blocks)) (hreleased : Released L L' s s' l.block) :
    UsedBlocks s'.mem L' blocks := by
  obtain ⟨hapart, hrest⟩ := List.pairwise_cons.mp h.liveApart
  have hl := h.usable l List.mem_cons_self
  have houtside : ∀ k ∈ blocks, ∀ x, k.Has x → ¬ Covered L x ∧ ¬ l.block.Has x := by
    intro k hk x hx
    refine ⟨h.freeApart k (List.mem_cons_of_mem l hk) x hx, fun hlx => ?_⟩
    exact hapart k hk x ⟨(hl.has_iff x).mp hlx, hx⟩
  refine ⟨fun k hk => ?_, hrest, fun k hk x hx hc => ?_⟩
  · refine (h.usable k (List.mem_cons_of_mem l hk)).congr fun x hx => ?_
    exact hreleased.frame x (houtside k hk x hx).1 (houtside k hk x hx).2
  · exact ((hreleased.covered x).mp hc).elim (houtside k hk x hx).1 (houtside k hk x hx).2

theorem UsedBlocks.deallocated (h : UsedBlocks s.mem L blocks) (hchain : Chained s.mem s.head L) (hL : Coalesced L) :
    ∃ t M, deallocateAll s blocks = .ok t ∧ Chained t.mem t.head M ∧ Coalesced M ∧
      ∀ x, Covered M x ↔ Covered L x ∨ ∃ l ∈ blocks, l.Has x := by
  induction blocks generalizing s L with
  | nil => exact ⟨s, L, rfl, hchain, hL, fun x => by simp⟩
  | cons l blocks ih =>
      have hl := h.usable l List.mem_cons_self
      obtain ⟨s', L', hs', hL', hreleased⟩ := hl.release hchain hL (h.freeApart l List.mem_cons_self)
      obtain ⟨t, M, ht, hchain', hM, hcovered⟩ := ih (h.release hreleased) hreleased.chained hL'
      refine ⟨t, M, ?_, hchain', hM, fun x => ?_⟩
      · rw [deallocateAll, List.foldlM_cons, hs']
        exact ht
      · rw [hcovered x, hreleased.covered x, hl.has_iff x, List.exists_mem_cons_iff, or_assoc]

end

/-- Whatever the order in which used blocks are freed, the free list is the same in the end. -/
theorem free_order_irrelevant (s : FreeListAllocator) (L : List Block) (hchain : Chained s.mem s.head L)
    (hL : Coalesced L) (blocks blocks' : List LiveBlock) (hused : UsedBlocks s.mem L blocks)
    (hperm : blocks.Perm blocks') :
    ∃ t t' M, deallocateAll s blocks = .ok t ∧ deallocateAll s blocks' = .ok t' ∧ t.head = t'.head ∧
      Chained t.mem t.head M ∧ Chained t'.mem t'.head M := by
  obtain ⟨t, M, ht, hchain₁, hM, hcovered⟩ := hused.deallocated hchain hL
  obtain ⟨t', M', ht', hchain₂, hM', hcovered'⟩ := (hused.perm hperm).deallocated hchain hL
  have hsame : M = M' := hM.ext hM' fun x => by
    rw [hcovered x, hcovered' x]
    simp only [hperm.mem_iff]
  subst hsame
  exact ⟨t, t', M, ht, ht', hchain₁.head_eq.trans hchain₂.head_eq.symm, hchain₁, hchain₂⟩

/-- Two neighbouring blocks of 8 bytes each, both used. -/
def twoUsed : FreeListAllocator :=
  ⟨UsedBlockHeader.construct (UsedBlockHeader.construct (fun _ => 0) 0x1000 8) 0x1018 8, 0⟩

theorem twoUsed_usedBlocks : UsedBlocks twoUsed.mem [] [⟨0x1010, 8⟩, ⟨0x1028, 8⟩] := by
  refine ⟨?_, ?_, fun l _ x _ => ?_⟩
  · intro l hl
    simp only [List.mem_cons, List.not_mem_nil, or_false] at hl
    rcases hl with rfl | rfl
    · exact ⟨⟨by decide, by decide, by decide +kernel⟩, by decide +kernel, by decide⟩
    · exact ⟨⟨by decide, by decide, by decide +kernel⟩, by decide +kernel, by decide⟩
  · rw [List.pairwise_pair]
    rintro x ⟨hx, hx'⟩
    simp only [LiveBlock.Has] at hx hx'
    omega
  · simp [Covered]

/-- Freed from below or from above, they become one block. -/
theorem free_order_irrelevant_two : ∃ t t' M, deallocateAll twoUsed [⟨0x1010, 8⟩, ⟨0x1028, 8⟩] = .ok t ∧
    deallocateAll twoUsed [⟨0x1028, 8⟩, ⟨0x1010, 8⟩] = .ok t' ∧ t.head = t'.head ∧
    Chained t.mem t.head M ∧ Chained t'.mem t'.head M :=
  free_order_irrelevant twoUsed [] ⟨rfl, by simp⟩ ⟨⟨by simp, by simp, .nil⟩, .nil⟩ _ _ twoUsed_usedBlocks (.swap _ _ _)

end DavOS
