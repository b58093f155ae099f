import DavOS.HeapFrames

/-! The free list as a doubly linked list. `deallocate` sets all four pointers
around the block that it links in, and `unlink` the two around the block that it
takes out; the two coalescing functions move only the next pointer of the block
that grows, so the block after the absorbed one keeps a link to it. -/
namespace DavOS
open MachineWord ByteMemory LinkedSegment FreeBlockHeader GuardedRun

/-- The previous pointers follow the list. -/
def BackLinked (m : VirtualMemory) (L : List Block) : Prop := BackLinks (prev m) 0 (L.map Block.addr)

section

variable {m m' : VirtualMemory} {head : Nat} {L before after : List Block} {b c q u : Block} {request : Nat}

theorem BackLinked.congr (h : BackLinked m L) (hm : ∀ d ∈ L, prev m' d.addr = prev m d.addr) : BackLinked m' L := by
  refine BackLinks.congr h ?_
  intro x hx
  obtain ⟨d, hd, rfl⟩ := List.mem_map.mp hx
  exact hm d hd

theorem last_addr (before : List Block) : (before.map Block.addr).getLast?.getD 0 = lastAddr before := by
  rw [List.getLast?_map]
  rfl

theorem backLinked_append_cons : BackLinked m (before ++ b :: after) ↔
    BackLinked m before ∧ prev m b.addr = lastAddr before ∧ BackLinks (prev m) b.addr (after.map Block.addr) := by
  unfold BackLinked
  rw [List.map_append, List.map_cons, backLinks_append, last_addr, BackLinks]

theorem BackLinked.of_addrs {M : List Block} (h : BackLinked m L) (haddr : M.map Block.addr = L.map Block.addr) :
    BackLinked m M := by
  unfold BackLinked
  rw [haddr]
  exact h

theorem BackLinked.left (h : BackLinked m (before ++ after)) : BackLinked m before := by
  unfold BackLinked at h
  rw [List.map_append, backLinks_append] at h
  exact h.1

theorem BackLinked.absorbNext (h : BackLinked m (before ++ b :: after))
    (hlast : ∀ c rest, after = c :: rest → b.stop = c.addr → rest = []) :
    BackLinked m (before ++ absorbNext b after) := by
  cases after with
  | nil => exact h
  | cons c rest =>
      rw [absorbNext_cons]
      split
      · rename_i hstop
        obtain rfl := hlast c rest rfl hstop
        rw [← List.singleton_append, ← List.append_assoc] at h
        exact h.left.of_addrs (by simp)
      · exact h

/-! ### Which writes reach a previous pointer -/

theorem prev_construct_clear {x block sz nxt prv : Nat} (h : Clear x block) :
    prev (construct m block sz nxt prv) x = prev m x := by
  unfold construct
  rw [prev_setPrev_of_clear h, prev_setNext (Or.inr h), prev_setSize (Or.inr h)]

theorem prev_used_construct {block x : Nat} (h : x + 24 ≤ block ∨ block + 16 ≤ x) :
    prev (UsedBlockHeader.construct m block request) x = prev m x :=
  load64_congr fun y hy hy' => used_construct_other (by omega)

theorem prev_coalesceNext {x block : Nat} (h : x = block ∨ Clear x block) :
    prev (coalesceNext m block) x = prev m x := by
  unfold coalesceNext
  split
  · rw [prev_setNext h, prev_setSize h]
  · rfl

theorem prev_coalescePrev {x block : Nat}
    (h : prev m block = 0 ∨ Clear block (prev m block) ∧ (x = prev m block ∨ Clear x (prev m block))) :
    prev (coalescePrev m block) x = prev m x := by
  unfold coalescePrev
  split
  · rename_i hjoin
    obtain ⟨hblock, hx⟩ := h.resolve_left hjoin.1
    dsimp only
    rw [prev_setSize (Or.inr hblock), prev_setNext hx, prev_setSize hx]
  · rfl

theorem prev_linkBetween_next {block sz p c : Nat} (hc : c ≠ 0) (hblock : block < 2 ^ 64) :
    prev (linkBetween m block sz p c) c = block := by
  unfold linkBetween
  simp only [ne_eq, hc, not_false_iff, if_true]
  rw [prev_setPrev hblock]

/-! ### Linking a block in -/

theorem linkBetween_backLinked (h : BackLinked m (before ++ after)) (ho : Ordered (before ++ u :: after)) :
    BackLinked (linkBetween m u.addr u.size (lastAddr before) (firstAddr after)) (before ++ u :: after) := by
  obtain ⟨hclear, hlast, hfirst⟩ := ho.neighbours
  have hustop : u.stop ≤ 2 ^ 64 := ho.bounded u (by simp)
  have husize : u.size < 2 ^ 64 := by
    have := ho.nonnull u (by simp)
    unfold Block.stop at hustop
    omega
  have hself := (construct_self (m := m) u.addr husize (firstAddr_lt ho) (lastAddr_lt ho)).2.2
  have hsorted := List.pairwise_append.mp ho.sorted
  have hafter := List.pairwise_cons.mp hsorted.2.1
  -- a block that is not the first of those above keeps its previous pointer
  have hkeep : ∀ d ∈ before ++ after, (firstAddr after = 0 ∨ Clear d.addr (firstAddr after)) →
      prev (linkBetween m u.addr u.size (lastAddr before) (firstAddr after)) d.addr = prev m d.addr := by
    intro d hd hc
    have hd' : d ∈ before ++ u :: after :=
      (List.Sublist.append_left (List.sublist_cons_self u after) before).subset hd
    rw [prev_linkBetween (hlast d hd') hc, prev_construct_clear (hclear d hd)]
  have hbelow := ho.first_clear
  refine backLinked_append_cons.mpr ⟨?_, ?_, ?_⟩
  · exact h.left.congr fun d hd => hkeep d (List.mem_append_left _ hd) (hbelow d (List.mem_append_left _ hd))
  · rw [prev_linkBetween (hlast u (by simp)) (hbelow u (by simp)), hself]
  · rcases firstAddr_cases after with ⟨rfl, _⟩ | ⟨c, rest, rfl, hc⟩
    · trivial
    · have hcnull : c.addr ≠ 0 := ho.nonnull c (by simp)
      have hrest := (backLinked_append_cons.mp h).2.2
      rw [hc] at hkeep ⊢
      refine ⟨prev_linkBetween_next hcnull ?_, BackLinks.congr hrest ?_⟩
      · have := ho.nonnull u (by simp)
        unfold Block.stop at hustop
        omega
      · intro x hx
        obtain ⟨d, hd, rfl⟩ := List.mem_map.mp hx
        have hle := (List.pairwise_cons.mp hafter.2).1 d hd
        unfold Block.stop at hle
        exact hkeep d (by simp [hd]) (Or.inr (Or.inr (by omega)))

/-- Each block that grows by coalescing is the last of the list afterwards. -/
structure JoinsLast (before : List Block) (u : Block) (after : List Block) : Prop where
  above : ∀ c rest, after = c :: rest → u.stop = c.addr → rest = []
  below : ∀ init b, before = init ++ [b] → b.stop = u.addr → after = [] ∨ ∃ c, after = [c] ∧ u.stop = c.addr

theorem deallocate_backLinked {s s' : FreeListAllocator} {base : Nat}
    (hbase : wrapSub base UsedBlockHeader.bytes = u.addr)
    (hmagic : UsedBlockHeader.magic s.mem u.addr = UsedBlockHeader.magicConstant)
    (hsize : UsedBlockHeader.size s.mem u.addr = u.size + 8)
    (h : Chained s.mem s.head (before ++ after)) (ho : Ordered (before ++ u :: after))
    (hback : BackLinked s.mem (before ++ after)) (hjoin : JoinsLast before u after)
    (hs : s.deallocate base = .ok s') : BackLinked s'.mem (released before u after) := by
  rw [deallocate_eq hbase hmagic hsize h ho] at hs
  obtain rfl := Except.ok.inj hs
  have hlinked := linkBetween_backLinked hback ho
  have hprev := (linkBetween_chained h ho).2
  dsimp only
  generalize linkBetween s.mem u.addr u.size (lastAddr before) (firstAddr after) = m₁ at hlinked hprev ⊢
  -- joining with the block above leaves all previous pointers as they are
  have hmid : BackLinked (coalesceNext m₁ u.addr) (before ++ u :: after) := by
    refine hlinked.congr fun d hd => prev_coalesceNext ?_
    exact ho.clear hd (by simp)
  have hprev' : prev (coalesceNext m₁ u.addr) u.addr = lastAddr before :=
    (prev_coalesceNext (Or.inl rfl)).trans hprev
  have hend : BackLinked (coalescePrev (coalesceNext m₁ u.addr) u.addr) (before ++ u :: after) := by
    refine hmid.congr fun d hd => prev_coalescePrev ?_
    rw [hprev']
    rcases lastAddr_cases before with ⟨_, h0⟩ | ⟨init, b, rfl, hb⟩
    · exact Or.inl h0
    · rw [hb]
      exact Or.inr ⟨(ho.clear_of_mem (by simp)).symm, ho.clear hd (by simp)⟩
  have hnext := hend.absorbNext hjoin.above
  rcases List.eq_nil_or_concat' before with rfl | ⟨init, b, rfl⟩
  · exact hnext
  · rw [released_snoc]
    rw [List.append_assoc, List.singleton_append] at hnext
    refine hnext.absorbNext ?_
    intro c rest hshape hstop
    cases after with
    | nil =>
        obtain ⟨rfl, rfl⟩ := List.cons.inj (show [u] = c :: rest from hshape)
        rfl
    | cons d rest' =>
        rw [absorbNext_cons] at hshape
        have haddr : c.addr = u.addr := by
          split at hshape
          · rw [← (List.cons.inj hshape).1]
          · rw [← (List.cons.inj hshape).1]
        rcases hjoin.below init b rfl (hstop.trans haddr) with hnil | ⟨c', hone, htouch⟩
        · cases hnil
        · cases hone
          rw [if_pos htouch] at hshape
          exact (List.cons.inj hshape).2.symm

/-! ### Taking memory out -/

theorem reserveEnd_backLinked (h : Chained m head (before ++ b :: after)) (ho : Ordered (before ++ b :: after))
    (hback : BackLinked m (before ++ b :: after)) (hfit : request + 16 < b.size) :
    BackLinked (reserveEnd m b.addr request).2 (before ++ ⟨b.addr, b.size - (request + 16)⟩ :: after) := by
  obtain ⟨_, hnull, hstop, hlow, hhigh⟩ := ordered_append_cons.mp ho
  have hsize : size m b.addr = b.size := h.sizes b (by simp)
  have haddr : wrapSub (wrap (b.addr + FreeBlockHeader.bytes + b.size)) (wrap (request + UsedBlockHeader.bytes)) =
      b.stop - (request + 16) := by
    simp only [Block.stop, FreeBlockHeader.bytes, UsedBlockHeader.bytes, wrap, wrapSub] at hstop ⊢
    omega
  have hkept : BackLinked (reserveEnd m b.addr request).2 (before ++ b :: after) := by
    refine hback.congr fun d hd => ?_
    unfold reserveEnd
    rw [hsize]
    dsimp only
    rw [haddr, prev_setSize (ho.clear hd (by simp)), prev_used_construct]
    rcases List.mem_append.mp hd with hd | hd
    · have := hlow d hd
      unfold Block.stop at this ⊢
      omega
    · rcases List.mem_cons.mp hd with rfl | hd
      · unfold Block.stop
        omega
      · have := hhigh d hd
        unfold Block.stop at this ⊢
        omega
  exact hkept.of_addrs (by simp)

theorem reserveEntire_backLinked (h : Chained m head (before ++ q :: b :: after))
    (ho : Ordered (before ++ q :: b :: after)) (hback : BackLinked m (before ++ q :: b :: after)) :
    BackLinked (reserveEntire m b.addr request).2 (before ++ q :: after) := by
  obtain ⟨hbefore, hqprev, hprev, hafter⟩ := backLinked_append_cons.mp hback
  have hnextEq := h.next_second
  have hsorted := (List.pairwise_cons.mp (List.pairwise_append.mp ho.sorted).2.1)
  -- only the block after the one taken out gets another previous pointer
  have hkeep : ∀ d ∈ before ++ q :: after, (firstAddr after = 0 ∨ Clear d.addr (firstAddr after)) →
      prev (reserveEntire m b.addr request).2 d.addr = prev m d.addr := by
    intro d hd hc
    have hd' := (sublist_skip before q b after).subset hd
    have hclear := ho.clear_second hd
    unfold reserveEntire
    dsimp only
    rw [prev_used_construct (by unfold Clear at hclear; omega), unlink_eq ho hprev, hnextEq]
    by_cases h0 : firstAddr after = 0
    · rw [if_neg (by simp [h0]), prev_setNext (ho.clear hd' (by simp))]
    · rw [if_pos h0, prev_setPrev_of_clear (hc.resolve_left h0), prev_setNext (ho.clear hd' (by simp))]
  have hbelow := (ho.sublist (sublist_skip before q b after)).first_clear
  refine backLinked_append_cons.mpr ⟨?_, ?_, ?_⟩
  · exact hbefore.congr fun d hd => hkeep d (List.mem_append_left _ hd) (hbelow d (List.mem_append_left _ hd))
  · rw [hkeep q (by simp) (hbelow q (by simp))]
    exact hqprev
  · rcases firstAddr_cases after with ⟨rfl, _⟩ | ⟨c, rest, rfl, hc⟩
    · trivial
    · have hcnull : c.addr ≠ 0 := ho.nonnull c (by simp)
      have hbc := hsorted.2
      have hcrest := (List.pairwise_cons.mp hbc).2
      rw [hc] at hkeep hnextEq
      refine ⟨?_, BackLinks.congr hafter.2 ?_⟩
      · have hle := (List.pairwise_cons.mp hbc).1 c (by simp)
        have hqlt : q.addr < 2 ^ 64 := by
          have := ho.bounded q (by simp)
          unfold Block.stop at this
          omega
        unfold reserveEntire
        dsimp only
        rw [prev_used_construct (by unfold Block.stop at hle; omega), unlink_eq ho hprev, hnextEq, if_pos hcnull,
          prev_setPrev hqlt]
      · intro x hx
        obtain ⟨d, hd, rfl⟩ := List.mem_map.mp hx
        have hle := (List.pairwise_cons.mp hcrest).1 d hd
        unfold Block.stop at hle
        exact hkeep d (by simp [hd]) (Or.inr (Or.inr (by omega)))

end

/-! ### Runs -/

/-- Following the next pointers from the head meets finitely many blocks at
increasing addresses; the previous pointers lead back. -/
def FreeListAllocator.WellLinked (s : FreeListAllocator) : Prop :=
  ∃ xs : List Nat, Segment (next s.mem) s.head xs 0 ∧ (0 :: xs).Pairwise (· < ·) ∧
    (s.head ≠ 0 → prev s.mem s.head = 0) ∧
    ∀ x ∈ xs, next s.mem x ≠ 0 → prev s.mem (next s.mem x) = x

/-- Bytes from `start` to `stop` that are freed join no block with another one
after it: a free block that begins at `stop` is the last, and one that ends at
`start` is the last or has only the block at `stop` after it. -/
def FreeListAllocator.JoinsAtEnd (s : FreeListAllocator) (start stop : Nat) : Prop :=
  ∀ b, Reachable (next s.mem) s.head b → (b = stop → next s.mem b = 0) ∧
    (b + 24 + size s.mem b = start → next s.mem b = 0 ∨ next s.mem b = stop)

/-- Where the allocator keeps the previous pointers right: freed memory joins
blocks at the end of the list only, and the head is never a perfect fit. -/
def HeapOp.Linking (s : HeapState) : HeapOp → Prop
  | .addMemory base size => 8 ≤ size ∧ base + size + 16 ≤ 2 ^ 64 ∧
      (∀ g ∈ s.regions, base + size + 16 ≤ g.base ∨ g.base + g.size + 16 ≤ base) ∧
      s.alloc.JoinsAtEnd base (base + size + 16)
  | .allocate request => ∀ b, findFit s.alloc.mem request loopFuel s.alloc.head = some b → b ≠ 0 →
      perfectFit s.alloc.mem b request = true → b ≠ s.alloc.head
  | .deallocate block => s.alloc.JoinsAtEnd (block.base - 16) (block.base + block.request)
  | .store _ _ => True

section

variable {s s' : FreeListAllocator} {L L' before after : List Block} {u : Block}

theorem Chained.wellLinked (h : Chained s.mem s.head L) (ho : Ordered L) (hback : BackLinked s.mem L) :
    s.WellLinked := by
  refine ⟨L.map Block.addr, h.links, List.pairwise_cons.mpr ⟨?_, ?_⟩, ?_, ?_⟩
  · intro x hx
    obtain ⟨b, hb, rfl⟩ := List.mem_map.mp hx
    exact Nat.pos_of_ne_zero (ho.nonnull b hb)
  · rw [List.pairwise_map]
    refine ho.sorted.imp ?_
    intro a b hle
    unfold Block.stop at hle
    omega
  · intro hne
    cases L with
    | nil => exact absurd h.links hne
    | cons b L =>
        rw [show s.head = b.addr from h.links.1]
        exact hback.1
  · exact fun x hx hne => h.links.prev_next hback hx hne

theorem JoinsLast.of_joinsAtEnd (h : Chained s.mem s.head (before ++ after)) (ho : Ordered (before ++ u :: after))
    (hjoin : s.JoinsAtEnd u.addr u.stop) : JoinsLast before u after := by
  have hold := (ordered_append_cons.mp ho).1
  have habove : ∀ c rest, after = c :: rest → u.stop = c.addr → rest = [] := by
    rintro c rest rfl hstop
    have hlast := (hjoin c.addr ((h.mem_reachable hold).mpr ⟨c, by simp, rfl⟩)).1 hstop.symm
    rw [h.next_eq] at hlast
    cases rest with
    | nil => rfl
    | cons d rest => exact absurd hlast (ho.nonnull d (by simp))
  refine ⟨habove, ?_⟩
  rintro init b rfl hstop
  have hend : b.addr + 24 + size s.mem b.addr = u.addr := by
    rw [h.sizes b (by simp)]
    exact hstop
  have hnext := (hjoin b.addr ((h.mem_reachable hold).mpr ⟨b, by simp, rfl⟩)).2 hend
  rw [List.append_assoc, List.singleton_append] at h
  rw [h.next_eq] at hnext
  cases after with
  | nil => exact Or.inl rfl
  | cons c rest =>
      rcases hnext with hnull | hstop'
      · exact absurd hnull (ho.nonnull c (by simp))
      · obtain rfl := habove c rest rfl (Eq.symm hstop')
        exact Or.inr ⟨c, rfl, Eq.symm hstop'⟩

theorem Freeable.backLinked {base : Nat} (h : Freeable s L base u) (ho : Ordered L) (hback : BackLinked s.mem L)
    (hjoin : ∀ before after, L = before ++ after → Ordered (before ++ u :: after) → JoinsLast before u after)
    (hs : s.deallocate base = .ok s') (hc : Chained s'.mem s'.head L') (hco : Ordered L') : BackLinked s'.mem L' := by
  obtain ⟨before, after, rfl, ho'⟩ := h.split ho
  have hlinked := deallocate_backLinked h.base h.magic h.size h.chained ho' hback (hjoin before after rfl ho') hs
  obtain ⟨t, ht, hchained, _⟩ := deallocate_spec h.base h.magic h.size h.chained ho'
  obtain rfl := Except.ok.inj (hs.symm.trans ht)
  rw [hc.unique hchained hco.nonnull ho'.released.nonnull]
  exact hlinked

theorem allocate_backLinked {request p : Nat} (h : Chained s.mem s.head L) (ho : Ordered L)
    (hback : BackLinked s.mem L) (hr : request + 16 < 2 ^ 64)
    (hhead : ∀ b, findFit s.mem request loopFuel s.head = some b → b ≠ 0 → perfectFit s.mem b request = true →
      b ≠ s.head)
    (hs : s.allocate request = .ok (p, s')) (hc : Chained s'.mem s'.head L') (hco : Ordered L') :
    BackLinked s'.mem L' := by
  obtain ⟨before, b, after, rfl, hfind, hcases⟩ := allocate_cases h ho hr hs
  have hnull : b.addr ≠ 0 := ho.nonnull b (by simp)
  have hbsize : size s.mem b.addr = b.size := h.sizes b (by simp)
  rcases hcases with ⟨hlt, rfl, rfl⟩ | ⟨hperfect, rfl, rfl⟩
  · obtain ⟨m', hreserve, hchained, _⟩ := reserveEnd_spec h ho hlt
    have hlinked := reserveEnd_backLinked h ho hback hlt
    rw [hreserve] at hc hlinked ⊢
    rw [hc.unique hchained hco.nonnull ho.shrink.nonnull]
    exact hlinked
  · have hne : b.addr ≠ s.head := hhead b.addr hfind hnull (by
      simp only [perfectFit, UsedBlockHeader.bytes, hbsize, wrap_of_lt hr, decide_eq_true_eq]
      exact hperfect)
    rcases List.eq_nil_or_concat' before with rfl | ⟨init, q, rfl⟩
    · exact absurd h.links.1.symm hne
    · rw [List.append_assoc, List.singleton_append] at h ho hback
      have hprev : prev s.mem b.addr = q.addr := (backLinked_append_cons.mp hback).2.2.1
      obtain ⟨m', hreserve, hchained, _⟩ := reserveEntire_spec h ho hprev (show request < 2 ^ 64 by omega)
      have hlinked : BackLinked (reserveEntire s.mem b.addr request).2 (init ++ q :: after) :=
        reserveEntire_backLinked h ho hback
      rw [if_neg hne] at hc
      rw [hreserve] at hc hlinked ⊢
      rw [hc.unique hchained hco.nonnull (ho.sublist (sublist_skip init q b after)).nonnull]
      exact hlinked

/-- Right previous pointers are never stale. -/
theorem BackLinked.perfectFitLinked {request : Nat} (hback : BackLinked s.mem L) (h : Chained s.mem s.head L)
    (ho : Ordered L)
    (hhead : ∀ b, findFit s.mem request loopFuel s.head = some b → b ≠ 0 → perfectFit s.mem b request = true →
      b ≠ s.head) : PerfectFitLinked s request := by
  intro x hfind hnull hperfect
  have hne := hhead x hfind hnull hperfect
  refine ⟨hne, ?_⟩
  rcases first_fit_cases L (wrap (request + 16)) with ⟨before, b, after, rfl, hbefore, hfit⟩ | hnone
  · obtain rfl : b.addr = x := Option.some.inj ((findFit_first h ho hbefore hfit).symm.trans hfind)
    rcases List.eq_nil_or_concat' before with rfl | ⟨init, q, rfl⟩
    · exact absurd h.links.1.symm hne
    · rw [List.append_assoc, List.singleton_append] at h ho hback
      have hprev : prev s.mem b.addr = q.addr := (backLinked_append_cons.mp hback).2.2.1
      rw [hprev]
      exact ⟨(h.mem_reachable ho).mpr ⟨q, by simp, rfl⟩, h.next_eq⟩
  · exact absurd (Option.some.inj ((findFit_none h ho hnone).symm.trans hfind)).symm hnull

end

/-- The heap invariant together with right previous pointers. -/
structure HeapLinked (s : HeapState) (L : List Block) : Prop where
  sound : HeapSound 8 s L
  back : BackLinked s.alloc.mem L

theorem HeapLinked.step {s s' : HeapState} {L : List Block} {op : HeapOp} (h : HeapLinked s L)
    (hlawful : op.Lawful 8 s) (hlinking : op.Linking s) (hs : heapStep s op = .ok s') : ∃ L', HeapLinked s' L' := by
  obtain ⟨h, hback⟩ := h
  cases op with
  | addMemory base size =>
      obtain ⟨hsize, hend, hgap, hjoin⟩ := hlinking
      have hroomy : Region.Roomy s.regions ⟨base, size⟩ := ⟨hlawful.1, hsize, hend, hgap⟩
      have hfree := h.region_freeable hroomy
      obtain ⟨L', h', _⟩ := h.addMemory hroomy hs
      obtain ⟨a, ha, hs⟩ := bind_ok hs
      cases hs
      refine ⟨L', h', hfree.backLinked h.ordered ?_ ?_ ha h'.chained h'.ordered⟩
      · refine hback.congr fun b hb => prev_used_construct ?_
        have hapart := Block.apart_iff.mp fun x hx => hfree.fresh x hx.2 ⟨b, hb, hx.1⟩
        rw [hroomy.stop] at hapart
        simp only [Region.block, Block.stop] at hapart
        omega
      · rintro before after rfl ho
        exact .of_joinsAtEnd h.chained ho (by rw [hroomy.stop]; exact hjoin)
  | allocate request =>
      have hend : ∀ b ∈ L, b.stop < 2 ^ 64 + request := fun b hb => by
        have := h.ordered.bounded b hb
        have := hlawful.1
        omega
      have hlinked := hback.perfectFitLinked h.chained h.ordered hlinking
      obtain ⟨L', p, h', halloc, _⟩ := h.allocate hlawful.1 hlawful.2 hend hlinked hs
      exact ⟨L', h', allocate_backLinked h.chained h.ordered hback hlawful.2 hlinking halloc h'.chained h'.ordered⟩
  | deallocate block =>
      have hreq := h.large block hlawful
      obtain ⟨L', h', _⟩ := h.deallocate hlawful hreq hs
      obtain ⟨a, ha, hs⟩ := bind_ok hs
      cases hs
      refine ⟨L', h', (h.live_freeable hlawful hreq ha).backLinked h.ordered hback ?_ ha h'.chained h'.ordered⟩
      rintro before after rfl ho
      have hlow := (h.intact block hlawful).low
      have hstop : block.block.stop = block.base + block.request := by
        simp only [LiveBlock.block, Block.stop]
        omega
      exact .of_joinsAtEnd h.chained ho (by rw [hstop]; exact hlinking)
  | store address byte =>
      obtain ⟨h', _⟩ := h.store hlawful hs
      cases hs
      refine ⟨L, h', hback.congr fun b hb => load64_congr fun x hx hx' => ?_⟩
      exact h.store_outside hlawful hb (by omega) (by omega)

/-- In every state of a run whose steps meet `HeapOp.Linking`, the free list is
a well-formed doubly linked list. -/
theorem free_list_well_linked (m : VirtualMemory) (ops : List HeapOp) (s : HeapState)
    (hrun : Run heapStep (fun s op => op.Lawful 8 s ∧ op.Linking s) { alloc := ⟨m, 0⟩ } ops s) :
    s.alloc.WellLinked := by
  obtain ⟨L, h⟩ := hrun.invariant (I := fun s => ∃ L, HeapLinked s L)
    (fun s op t ⟨L, h⟩ hop ht => h.step hop.1 hop.2 ht) ⟨[], heapSound_empty 8 m, trivial⟩
  exact h.sound.chained.wellLinked h.sound.ordered h.back

/-! ### Two runs -/

/-- There is at most one free block. -/
def FreeListAllocator.OneFree (s : FreeListAllocator) : Prop := s.head = 0 ∨ next s.mem s.head = 0

theorem FreeListAllocator.OneFree.joinsAtEnd {s : FreeListAllocator} (h : s.OneFree) (start stop : Nat) :
    s.JoinsAtEnd start stop := by
  have hlast : ∀ b, Reachable (next s.mem) s.head b → next s.mem b = 0 := by
    intro b hb
    induction hb with
    | start hne => exact h.resolve_left hne
    | step _ hne ih => exact absurd ih hne
  exact fun b hb => ⟨fun _ => hlast b hb, fun _ => Or.inl (hlast b hb)⟩

/-- A condition that implies `HeapOp.Linking` and can be tested. -/
def HeapOp.LinkingOne (s : HeapState) : HeapOp → Prop
  | .addMemory base size => 8 ≤ size ∧ base + size + 16 ≤ 2 ^ 64 ∧
      (∀ g ∈ s.regions, base + size + 16 ≤ g.base ∨ g.base + g.size + 16 ≤ base) ∧ s.alloc.OneFree
  | .allocate request => NoPerfectFit s.alloc request
  | .deallocate _ => s.alloc.OneFree
  | .store _ _ => True

instance (s : HeapState) (op : HeapOp) : Decidable (op.LinkingOne s) :=
  match op with
  | .addMemory _ _ => inferInstanceAs (Decidable (_ ∧ _ ∧ _ ∧ (_ ∨ _)))
  | .allocate request => inferInstanceAs (Decidable (NoPerfectFit s.alloc request))
  | .deallocate _ => inferInstanceAs (Decidable (_ ∨ _))
  | .store _ _ => inferInstanceAs (Decidable True)

theorem HeapOp.LinkingOne.linking {s : HeapState} {op : HeapOp} (h : op.LinkingOne s) : op.Linking s := by
  cases op with
  | addMemory base size => exact ⟨h.1, h.2.1, h.2.2.1, h.2.2.2.joinsAtEnd _ _⟩
  | allocate request => exact fun b hb hnull hperfect => (NoPerfectFit.linked h b hb hnull hperfect).1
  | deallocate block => exact FreeListAllocator.OneFree.joinsAtEnd h _ _
  | store address byte => trivial

/-- Two blocks, of which the upper one is given back. -/
def upperFreed : List HeapOp :=
  [.addMemory 0x1000 512, .allocate 16, .allocate 16, .deallocate ⟨0x1200, 16⟩]

theorem free_list_well_linked_upper_freed : ∃ s,
    Run heapStep (fun s op => op.Lawful 8 s ∧ op.Linking s) emptyHeap upperFreed s ∧
    next s.alloc.mem s.alloc.head = 0x11f0 ∧ s.alloc.WellLinked := by
  have hnext : (replay heapStep (fun s op => op.Lawful 8 s ∧ op.LinkingOne s) emptyHeap upperFreed).map
      (fun s => next s.alloc.mem s.alloc.head) = some 0x11f0 := by decide +kernel
  obtain ⟨s, hs, hnext⟩ := Option.map_eq_some_iff.mp hnext
  have hrun : Run heapStep (fun s op => op.Lawful 8 s ∧ op.Linking s) emptyHeap upperFreed s :=
    (replay_run hs).mono (I := fun _ => True) (fun _ _ _ _ _ _ => trivial)
      (fun s op _ h => ⟨h.1, h.2.linking⟩) trivial
  exact ⟨s, hrun, hnext, free_list_well_linked _ _ s hrun⟩

/-- The third of three blocks is given back after the first: it joins the head
block, and the first one's previous pointer still names it. -/
theorem free_list_link_stale : ∃ s,
    Run heapStep (fun s op => op.Lawful 8 s) emptyHeap (threeBlocks ++ [.deallocate ⟨0x10d0, 16⟩]) s ∧
    ¬ s.alloc.WellLinked := by
  have hfinal : (replay heapStep (fun s op => op.Lawful 8 s) emptyHeap
      (threeBlocks ++ [.deallocate ⟨0x10d0, 16⟩])).map
      (fun s => (s.alloc.head, next s.alloc.mem 0x1000, prev s.alloc.mem 0x1100)) =
        some (0x1000, 0x1100, 0x10c0) := by decide +kernel
  obtain ⟨s, hs, hobs⟩ := Option.map_eq_some_iff.mp hfinal
  obtain ⟨hhead, hnext, hprev⟩ : s.alloc.head = 0x1000 ∧ next s.alloc.mem 0x1000 = 0x1100 ∧
      prev s.alloc.mem 0x1100 = 0x10c0 := by
    simpa only [Prod.mk.injEq] using hobs
  refine ⟨s, replay_run hs, ?_⟩
  rintro ⟨xs, hlinks, _, _, hback⟩
  rw [hhead] at hlinks
  cases xs with
  | nil => cases hlinks
  | cons x xs =>
      have hx : 0x1000 = x := hlinks.1
      have hstale := hback 0x1000 (by rw [hx]; exact List.mem_cons_self) (by rw [hnext]; decide)
      rw [hnext, hprev] at hstale
      cases hstale

end DavOS
