import DavOS.FreeListMerge

/-! Why a double free is noticed. The magic word of a used block lies where a
free block has its next pointer. Freeing overwrites it with an address or null,
and what remains of a header that was absorbed is never written again. -/
namespace DavOS
open MachineWord ByteMemory FreeBlockHeader

/-- The next pointer at `x` is null or leads to a block of the list. -/
def NextAmong (m : VirtualMemory) (L : List Block) (x : Nat) : Prop :=
  next m x = 0 ∨ ∃ d ∈ L, next m x = d.addr

section

variable {m m' : VirtualMemory} {head : Nat} {L M before after : List Block} {b u : Block}

theorem Chained.nextAmong (h : Chained m head L) (hb : b ∈ L) : NextAmong m L b.addr := by
  obtain ⟨before, after, rfl⟩ := List.append_of_mem hb
  have hnext := h.next_eq
  cases after with
  | nil => exact Or.inl hnext
  | cons c rest => exact Or.inr ⟨c, by simp, hnext⟩

theorem NextAmong.mono {x : Nat} (h : NextAmong m M x) (hsub : ∀ d ∈ M, ∃ e ∈ L, e.addr = d.addr) :
    NextAmong m L x := by
  rcases h with h0 | ⟨d, hd, hx⟩
  · exact Or.inl h0
  · obtain ⟨e, he, heq⟩ := hsub d hd
    exact Or.inr ⟨e, he, hx.trans heq.symm⟩

theorem next_onlyHeader {v x : Nat} (h : OnlyHeader v m m') (hclear : Clear x v) : next m' x = next m x := by
  refine load64_congr fun y hy hy' => h y ?_
  unfold Clear at hclear
  omega

theorem OnlyHeader.nextAmong (h : OnlyHeader b.addr m m') (hold : ∀ d ∈ L, NextAmong m L d.addr)
    (hclear : ∀ d ∈ L, d.addr = b.addr ∨ Clear d.addr b.addr) (hchain : Chained m' head M)
    (hmem : ∃ c ∈ M, c.addr = b.addr) (hsub : ∀ d ∈ M, ∃ e ∈ L, e.addr = d.addr) :
    ∀ d ∈ L, NextAmong m' L d.addr := by
  intro d hd
  rcases hclear d hd with heq | hclear
  · obtain ⟨c, hc, hcb⟩ := hmem
    rw [heq, ← hcb]
    exact (hchain.nextAmong hc).mono hsub
  · unfold NextAmong
    rw [next_onlyHeader h hclear]
    exact hold d hd

theorem addr_absorbNext (ho : Ordered (before ++ b :: after)) {d : Block} (hd : d ∈ before ++ absorbNext b after) :
    ∃ e ∈ before ++ b :: after, e.addr = d.addr := by
  rcases List.mem_append.mp hd with hd | hd
  · exact ⟨d, List.mem_append_left _ hd, rfl⟩
  · rcases mem_absorbNext ho hd with heq | ⟨hd, _⟩
    · exact ⟨b, by simp, heq.symm⟩
    · exact ⟨d, by simp [hd], rfl⟩

theorem mem_addr_absorbNext (before : List Block) (b : Block) (after : List Block) :
    ∃ c ∈ before ++ absorbNext b after, c.addr = b.addr := by
  obtain ⟨c, rest, hshape, haddr⟩ := absorbNext_shape b after
  exact ⟨c, by simp [hshape], haddr⟩

/-- After `deallocate`, the next pointers of the freed block and of all that were
in the list, absorbed or not, lead to one of these blocks or nowhere. -/
theorem deallocate_nextAmong {s s' : FreeListAllocator} {base : Nat} (h : Freeable s (before ++ after) base u)
    (ho : Ordered (before ++ u :: after)) (hs : s.deallocate base = .ok s') :
    ∀ d ∈ before ++ u :: after, NextAmong s'.mem (before ++ u :: after) d.addr := by
  rw [deallocate_eq h.base h.magic h.size h.chained ho] at hs
  obtain rfl := Except.ok.inj hs
  obtain ⟨hlink, hprev⟩ := linkBetween_chained h.chained ho
  obtain ⟨hnext, hprevNext, hnextOnly⟩ := coalesceNext_spec hlink ho
  have hlinked : ∀ d ∈ before ++ u :: after, NextAmong _ _ d.addr := fun d hd => hlink.nextAmong hd
  have hjoined := hnextOnly.nextAmong hlinked (fun d hd => ho.clear hd (by simp)) hnext
    (mem_addr_absorbNext before u after) fun d hd => addr_absorbNext ho hd
  rw [hprev] at hprevNext
  dsimp only
  generalize coalesceNext (linkBetween s.mem u.addr u.size (lastAddr before) (firstAddr after)) u.addr = m₂
    at hnext hprevNext hjoined ⊢
  rcases lastAddr_cases before with ⟨_, h0⟩ | ⟨init, q, rfl, hq⟩
  · rw [coalescePrev_head (hprevNext.trans h0)]
    exact hjoined
  · obtain ⟨u', after', hshape, haddr⟩ := absorbNext_shape u after
    have hnextOrdered := ho.absorbNext
    rw [hshape, List.append_assoc, List.singleton_append] at hnext hnextOrdered
    obtain ⟨hdone, honly⟩ := coalescePrev_spec hnext hnextOrdered (by rw [haddr]; exact hprevNext.trans hq)
    rw [haddr] at hdone honly
    refine honly.nextAmong hjoined (fun d hd => ho.clear hd (by simp)) hdone (mem_addr_absorbNext init q _) ?_
    -- the second join is of blocks that the first has left
    intro d hd
    obtain ⟨e, he, heq⟩ := addr_absorbNext hnextOrdered hd
    rw [← List.singleton_append, ← List.append_assoc, ← hshape] at he
    obtain ⟨f, hf, hfe⟩ := addr_absorbNext ho he
    exact ⟨f, hf, hfe.trans heq⟩

end

/-! ### Freed blocks -/

/-- A block that was freed: its old header overlaps no header of the list but
its own, and the magic word is gone. -/
structure LiveBlock.Retired (m : VirtualMemory) (L : List Block) (l : LiveBlock) : Prop where
  placed : 16 < l.base ∧ l.base < 2 ^ 64
  stale : UsedBlockHeader.magic m (l.base - 16) ≠ UsedBlockHeader.magicConstant
  header : ∀ d ∈ L, l.base - 16 = d.addr ∨ Clear (l.base - 16) d.addr
  covered : ∀ x, l.block.Has x → Covered L x

/-- No block of the list lies at the address that the magic word spells. -/
def Unmagical (L : List Block) : Prop := ∀ b ∈ L, b.addr ≠ UsedBlockHeader.magicConstant

section

variable {s s' : FreeListAllocator} {L before after : List Block} {m : VirtualMemory} {l k : LiveBlock} {base : Nat}

theorem LiveBlock.Retired.deallocate (h : l.Retired s.mem L) :
    s.deallocate l.base = .error (.panic "invalid memory free\n") := by
  have hbase : wrapSub l.base UsedBlockHeader.bytes = l.base - 16 := wrapSub_of_le h.placed.2 (by
    have := h.placed.1
    simp only [UsedBlockHeader.bytes]
    omega)
  unfold FreeListAllocator.deallocate
  simp only [hbase, ne_eq, h.stale, not_false_iff, if_true]

theorem NextAmong.ne_magic {x : Nat} (h : NextAmong m L x) (hL : Unmagical L) :
    UsedBlockHeader.magic m x ≠ UsedBlockHeader.magicConstant := by
  change next m x ≠ UsedBlockHeader.magicConstant
  rcases h with h0 | ⟨d, hd, hx⟩
  · rw [h0]
    decide
  · rw [hx]
    exact hL d hd

theorem Unmagical.cons (hL : Unmagical (before ++ after)) {u : Block} (hu : u.addr ≠ UsedBlockHeader.magicConstant) :
    Unmagical (before ++ u :: after) := by
  intro b hb
  simp only [List.mem_append, List.mem_cons] at hb
  rcases hb with hb | rfl | hb
  · exact hL b (List.mem_append_left _ hb)
  · exact hu
  · exact hL b (List.mem_append_right _ hb)

theorem clear_of_apart {a b : Block} (h : ∀ x, ¬ (a.Has x ∧ b.Has x)) : Clear a.addr b.addr := by
  have hapart := Block.apart_iff.mp h
  unfold Block.stop at hapart
  unfold Clear
  omega

theorem LiveBlock.Retired.release (h : l.Retired s.mem (before ++ after))
    (hfreeable : Freeable s (before ++ after) base k.block) (ho : Ordered (before ++ k.block :: after))
    (hmagic : Unmagical (before ++ k.block :: after)) (hs : s.deallocate base = .ok s')
    (hreleased : Released (before ++ after) (released before k.block after) s s' k.block) :
    l.Retired s'.mem (released before k.block after) := by
  have hclear : Clear (l.base - 16) k.block.addr := clear_of_apart (a := l.block) fun x hx =>
    hfreeable.fresh x hx.2 (h.covered x hx.1)
  refine ⟨h.placed, ?_, ?_, fun x hx => (hreleased.covered x).mpr (Or.inl (h.covered x hx))⟩
  · by_cases hlisted : ∃ d ∈ before ++ after, l.base - 16 = d.addr
    · -- its header is still one of the list, so its next pointer leads to a block
      obtain ⟨d, hd, heq⟩ := hlisted
      have hd' : d ∈ before ++ k.block :: after :=
        (List.Sublist.append_left (List.sublist_cons_self _ after) before).subset hd
      rw [heq]
      exact (deallocate_nextAmong hfreeable ho hs d hd').ne_magic hmagic
    · -- its header was absorbed, and no write reaches it
      obtain ⟨t, ht, _, hframe⟩ := deallocate_spec hfreeable.base hfreeable.magic hfreeable.size hfreeable.chained ho
      obtain rfl := Except.ok.inj (hs.symm.trans ht)
      have hsame : UsedBlockHeader.magic s'.mem (l.base - 16) = UsedBlockHeader.magic s.mem (l.base - 16) := by
        refine load64_congr fun x hx hx' => hframe x fun d hd => ?_
        have hd' : Clear (l.base - 16) d.addr := by
          simp only [List.mem_append, List.mem_cons] at hd
          rcases hd with hd | rfl | hd
          · exact (h.header d (List.mem_append_left _ hd)).resolve_left
              fun heq => hlisted ⟨d, List.mem_append_left _ hd, heq⟩
          · exact hclear
          · exact (h.header d (List.mem_append_right _ hd)).resolve_left
              fun heq => hlisted ⟨d, List.mem_append_right _ hd, heq⟩
        unfold Clear at hd'
        omega
      rw [hsame]
      exact h.stale
  · intro b hb
    rcases hreleased.headers b hb with ⟨heq, _⟩ | ⟨d, hd, heq, _⟩
    · rw [heq]
      exact Or.inr hclear
    · rw [← heq]
      exact h.header d hd

theorem LiveBlock.Usable.retired (h : k.Usable s.mem)
    (hfreeable : Freeable s (before ++ after) k.base k.block) (ho : Ordered (before ++ k.block :: after))
    (hmagic : Unmagical (before ++ k.block :: after)) (hs : s.deallocate k.base = .ok s')
    (hreleased : Released (before ++ after) (released before k.block after) s s' k.block) :
    k.Retired s'.mem (released before k.block after) := by
  have hlow := h.intact.low
  have hhigh := h.intact.high
  have hlarge := h.large
  refine ⟨⟨hlow, by omega⟩, (deallocate_nextAmong hfreeable ho hs k.block (by simp)).ne_magic hmagic, ?_,
    fun x hx => (hreleased.covered x).mpr (Or.inr hx)⟩
  intro b hb
  rcases hreleased.headers b hb with ⟨heq, _⟩ | ⟨d, hd, heq, _⟩
  · exact Or.inl heq.symm
  · rw [← heq]
    exact Or.inr (ho.clear_of_mem hd).symm

theorem UsedBlocks.retired {blocks old : List LiveBlock} (h : UsedBlocks s.mem L blocks) (hchain : Chained s.mem s.head L)
    (hL : Coalesced L) (hfree : Unmagical L) (hused : Unmagical (blocks.map LiveBlock.block))
    (hold : ∀ l ∈ old, l.Retired s.mem L) :
    ∃ t M, deallocateAll s blocks = .ok t ∧ ∀ l ∈ blocks ++ old, l.Retired t.mem M := by
  induction blocks generalizing s L old with
  | nil => exact ⟨s, L, rfl, hold⟩
  | cons k blocks ih =>
      have hk := h.usable k List.mem_cons_self
      have hfreeable := hk.freeable hchain (h.freeApart k List.mem_cons_self)
      obtain ⟨before, after, rfl, ho⟩ := hfreeable.split hL.ordered
      obtain ⟨s', hs', hreleased⟩ := deallocate_between hfreeable ho
      rw [List.map_cons] at hused
      have hmagic := hfree.cons (hused _ List.mem_cons_self)
      have hmagic' : Unmagical (released before k.block after) := by
        intro b hb
        rcases hreleased.headers b hb with ⟨heq, _⟩ | ⟨d, hd, heq, _⟩
        · rw [heq]
          exact hused _ List.mem_cons_self
        · rw [← heq]
          exact hfree d hd
      have hold' : ∀ l ∈ k :: old, l.Retired s'.mem (released before k.block after) :=
        List.forall_mem_cons.mpr ⟨hk.retired hfreeable ho hmagic hs' hreleased,
          fun l hl => (hold l hl).release hfreeable ho hmagic hs' hreleased⟩
      obtain ⟨t, M, ht, hretired⟩ := ih (h.release hreleased) hreleased.chained (hL.released ho) hmagic'
        (fun b hb => hused b (List.mem_cons_of_mem _ hb)) hold'
      refine ⟨t, M, ?_, fun l hl => hretired l (List.perm_middle.mem_iff.mpr hl)⟩
      rw [deallocateAll, List.foldlM_cons, hs']
      exact ht

theorem UsedBlocks.sublist {blocks blocks' : List LiveBlock} (h : UsedBlocks m L blocks) (hsub : blocks'.Sublist blocks) :
    UsedBlocks m L blocks' :=
  ⟨fun l hl => h.usable l (hsub.subset hl), h.liveApart.sublist hsub, fun l hl => h.freeApart l (hsub.subset hl)⟩

end

/-! ### What a refused call leaves -/

/-- `deallocate` statement by statement: each one works on the state that the
ones before it left, and a stop leaves that state. -/
def FreeListAllocator.deallocateInPlace (s : FreeListAllocator) (base : Nat) :
    FreeListAllocator × Option Stop :=
  let usedBlock := wrapSub base UsedBlockHeader.bytes
  if UsedBlockHeader.magic s.mem usedBlock ≠ UsedBlockHeader.magicConstant then
    (s, some (.panic "invalid memory free\n"))
  else
    match findSpot s.mem usedBlock loopFuel 0 s.head with
    | none => (s, some .hang)
    | some (prev, curr) =>
        let size := wrapSub (wrap (UsedBlockHeader.size s.mem usedBlock + UsedBlockHeader.bytes)) FreeBlockHeader.bytes
        let s := { s with mem := construct s.mem usedBlock size curr prev }
        let s := if prev = 0 then { s with head := usedBlock } else { s with mem := setNext s.mem prev usedBlock }
        let s := if curr ≠ 0 then { s with mem := setPrev s.mem curr usedBlock } else s
        let s := { s with mem := coalesceNext s.mem usedBlock }
        let s := { s with mem := coalescePrev s.mem usedBlock }
        (s, none)

/-- A call that stops has not touched memory or head. -/
theorem FreeListAllocator.deallocateInPlace_eq (s : FreeListAllocator) (base : Nat) :
    s.deallocateInPlace base =
      match s.deallocate base with
      | .ok t => (t, none)
      | .error e => (s, some e) := by
  unfold deallocateInPlace deallocate
  dsimp only
  split
  · rfl
  · cases findSpot s.mem (wrapSub base UsedBlockHeader.bytes) loopFuel 0 s.head with
    | none => rfl
    | some spot =>
        obtain ⟨prev, curr⟩ := spot
        by_cases hprev : prev = 0 <;> by_cases hcurr : curr = 0 <;>
          simp [hprev, hcurr, pure, Except.pure, bind, Except.bind]

/-- Every block that was freed, in whatever order and whatever has been merged
since, is refused when it is freed again, before the first write. -/
theorem double_free_detected (s : FreeListAllocator) (L : List Block) (hchain : Chained s.mem s.head L)
    (hL : Coalesced L) (used : List LiveBlock) (hused : UsedBlocks s.mem L used) (hfree : Unmagical L)
    (hmagic : Unmagical (used.map LiveBlock.block)) (freed : List LiveBlock) (hfreed : freed.Subperm used) :
    ∃ t, deallocateAll s freed = .ok t ∧
      ∀ l ∈ freed, t.deallocate l.base = .error (.panic "invalid memory free\n") ∧
        t.deallocateInPlace l.base = (t, some (.panic "invalid memory free\n")) := by
  obtain ⟨chosen, hperm, hsub⟩ := hfreed
  have hmagic' : Unmagical (freed.map LiveBlock.block) := by
    intro b hb
    obtain ⟨l, hl, rfl⟩ := List.mem_map.mp hb
    exact hmagic _ (List.mem_map_of_mem (hsub.subset (hperm.mem_iff.mpr hl)))
  have hnone : ∀ l ∈ ([] : List LiveBlock), l.Retired s.mem L := fun l hl => absurd hl List.not_mem_nil
  obtain ⟨t, M, ht, hretired⟩ := ((hused.sublist hsub).perm hperm).retired hchain hL hfree hmagic' hnone
  refine ⟨t, ht, fun l hl => ?_⟩
  have hrefused := (hretired l (List.mem_append_left _ hl)).deallocate
  exact ⟨hrefused, by rw [FreeListAllocator.deallocateInPlace_eq, hrefused]⟩

/-- Two neighbours that were freed and merged. -/
theorem double_free_detected_merged : ∃ t, deallocateAll twoUsed [⟨0x1028, 8⟩, ⟨0x1010, 8⟩] = .ok t ∧
    t.deallocate 0x1028 = .error (.panic "invalid memory free\n") ∧ (t.deallocateInPlace 0x1010).1 = t := by
  obtain ⟨t, ht, hrefused⟩ := double_free_detected twoUsed [] ⟨rfl, by simp⟩ ⟨⟨by simp, by simp, .nil⟩, .nil⟩
    [⟨0x1010, 8⟩, ⟨0x1028, 8⟩] twoUsed_usedBlocks (by simp [Unmagical]) (by unfold Unmagical; decide)
    [⟨0x1028, 8⟩, ⟨0x1010, 8⟩] (List.Perm.subperm (.swap _ _ _))
  exact ⟨t, ht, (hrefused ⟨0x1028, 8⟩ (by simp)).1, by rw [(hrefused ⟨0x1010, 8⟩ (by simp)).2]⟩

end DavOS
