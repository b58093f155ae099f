import DavOS.FreeListFirstFit
import DavOS.FreeListMerge

/-! Allocating and freeing again at once. A request that is split off a larger
block comes back to it. One that fits a block perfectly takes 24 bytes more than it
asks for: the block has room for its size and a free header, and only the request
and a used header are ever given back. -/
namespace DavOS
open MachineWord ByteMemory FreeBlockHeader

/-- `allocate` takes exactly the bytes of the request and its header from the
free list, and freeing them right after it makes the list what it was. -/
def RoundTrip (s : FreeListAllocator) (L : List Block) (request : Nat) : Prop :=
  ∃ p s' L' s'', s.allocate request = .ok (p, s') ∧ Chained s'.mem s'.head L' ∧ Ordered L' ∧
    (∀ x, Covered L' x ↔ Covered L x ∧ ¬ LiveBlock.Has ⟨p, request⟩ x) ∧
    s'.deallocate p = .ok s'' ∧ Chained s''.mem s''.head L

/-- The last 24 bytes of the head block `b` lie at the magic word and read as an
empty block before `after`. -/
structure MagicRemainder (m : VirtualMemory) (b : Block) (after : List Block) : Prop where
  stop : b.stop = UsedBlockHeader.magicConstant + 24
  size : size m UsedBlockHeader.magicConstant = 0
  next : next m UsedBlockHeader.magicConstant = firstAddr after

/-- The first block that is large enough is larger than the request and its
header; or it is the head, and what is left over happens to be at the magic word. -/
def RoundTripSafe (s : FreeListAllocator) (L : List Block) (request : Nat) : Prop :=
  ∀ before b after, L = before ++ b :: after → (∀ d ∈ before, d.size < request + 16) → request + 16 ≤ b.size →
    request + 16 < b.size ∨ (before = [] ∧ MagicRemainder s.mem b after)

section

variable {s s' : FreeListAllocator} {L L' before after : List Block} {b q : Block} {request p : Nat}

theorem Coalesced.shrink {k : Nat} (h : Coalesced (before ++ b :: after)) :
    Coalesced (before ++ ⟨b.addr, b.size - k⟩ :: after) := by
  obtain ⟨hbefore, hrest, hcross⟩ := List.pairwise_append.mp h.apart
  obtain ⟨hb, hafter⟩ := List.pairwise_cons.mp hrest
  refine ⟨h.ordered.shrink, List.pairwise_append.mpr ⟨hbefore, List.pairwise_cons.mpr ⟨?_, hafter⟩, ?_⟩⟩
  · intro d hd
    have := hb d hd
    simp only [Block.stop] at this ⊢
    omega
  · intro d hd e he
    rcases List.mem_cons.mp he with rfl | he
    · exact hcross d hd b List.mem_cons_self
    · exact hcross d hd e (List.mem_cons_of_mem b he)

theorem roundTrip_of_exact (hL : Coalesced L) (hok : s.allocate request = .ok (p, s'))
    (hchain : Chained s'.mem s'.head L') (hL' : Coalesced L') (hl : LiveBlock.Usable s'.mem ⟨p, request⟩)
    (hinside : ∀ x, LiveBlock.Has ⟨p, request⟩ x → Covered L x)
    (hcovered : ∀ x, Covered L' x ↔ Covered L x ∧ ¬ LiveBlock.Has ⟨p, request⟩ x) : RoundTrip s L request := by
  obtain ⟨s'', M, hs'', hM, hreleased⟩ := hl.release hchain hL' fun x hx hc => ((hcovered x).mp hc).2 hx
  have hsame : M = L := by
    refine hM.ext hL fun x => ?_
    rw [hreleased.covered x, hcovered x, hl.has_iff x]
    constructor
    · rintro (⟨hx, _⟩ | hx)
      · exact hx
      · exact hinside x hx
    · intro hx
      by_cases hlive : LiveBlock.Has ⟨p, request⟩ x
      · exact Or.inr hlive
      · exact Or.inl ⟨hx, hlive⟩
  exact ⟨p, s', L', s'', hok, hchain, hL'.ordered, hcovered, hs'', hsame ▸ hreleased.chained⟩

theorem roundTrip_larger (h : DoublyLinked s (before ++ b :: after)) (hL : Coalesced (before ++ b :: after))
    (hlarge : 8 ≤ request) (hr : request + 16 < 2 ^ 64) (hbefore : ∀ d ∈ before, d.size < request + 16)
    (hlt : request + 16 < b.size) : RoundTrip s (before ++ b :: after) request := by
  obtain ⟨s', hok, hchain, hsize, hmagic⟩ := allocate_larger h hr hbefore hlt
  obtain ⟨_, _, hstop, _, _⟩ := ordered_append_cons.mp h.ordered
  have hp : wrap (b.stop - (request + 16) + 16) = b.stop - request := by
    rw [wrap_of_lt (by unfold Block.stop at hstop ⊢; omega)]
    unfold Block.stop
    omega
  have hheader : b.stop - request - 16 = b.stop - (request + 16) := by omega
  have hhas : ∀ x, LiveBlock.Has ⟨b.stop - request, request⟩ x ↔ b.stop ≤ x + (request + 16) ∧ x < b.stop := by
    intro x
    simp only [LiveBlock.Has, Block.stop]
    omega
  rw [hp] at hok
  refine roundTrip_of_exact hL hok hchain hL.shrink ⟨⟨?_, ?_, ?_⟩, ?_, hlarge⟩ ?_ ?_
  · simp only [Block.stop]
    omega
  · simp only [Block.stop] at hstop ⊢
    omega
  · exact hheader ▸ hsize
  · exact hheader ▸ hmagic
  · intro x hx
    refine ⟨b, by simp, ?_⟩
    have := (hhas x).mp hx
    unfold Block.Has
    unfold Block.stop at this ⊢
    omega
  · intro x
    rw [hhas x]
    exact covered_shrink h.ordered (Nat.le_of_lt hlt)

theorem coalesced_remainder (hL : Coalesced (b :: after)) (hperfect : b.size = request + 16) :
    Coalesced (⟨b.addr + 16 + request, 0⟩ :: after) := by
  obtain ⟨hb, hafter⟩ := List.pairwise_cons.mp hL.apart
  have ho : Ordered ([] ++ b :: after) := hL.ordered
  obtain ⟨hrest, _, hstop, _, hhigh⟩ := ordered_append_cons.mp ho
  have hstop' : Block.stop ⟨b.addr + 16 + request, 0⟩ = b.stop := by
    simp only [Block.stop]
    omega
  have ho' : Ordered ([] ++ ⟨b.addr + 16 + request, 0⟩ :: after) := by
    refine ordered_append_cons.mpr ⟨hrest, by dsimp only; omega, ?_, by simp, ?_⟩
    · rw [hstop']
      exact hstop
    · rw [hstop']
      exact hhigh
  refine ⟨ho', List.pairwise_cons.mpr ⟨?_, hafter⟩⟩
  rw [hstop']
  exact hb

theorem covered_remainder (hL : Coalesced (b :: after)) (hperfect : b.size = request + 16) (x : Nat) :
    Covered (⟨b.addr + 16 + request, 0⟩ :: after) x ↔
      Covered (b :: after) x ∧ ¬ LiveBlock.Has ⟨b.addr + 16, request⟩ x := by
  have habove : Covered after x → ¬ LiveBlock.Has ⟨b.addr + 16, request⟩ x := by
    rintro ⟨d, hd, hx⟩
    have := (List.pairwise_cons.mp hL.apart).1 d hd
    unfold Block.Has at hx
    simp only [LiveBlock.Has, Block.stop] at this ⊢
    omega
  have hself : Block.Has ⟨b.addr + 16 + request, 0⟩ x ↔ b.Has x ∧ ¬ LiveBlock.Has ⟨b.addr + 16, request⟩ x := by
    simp only [Block.Has, Block.stop, LiveBlock.Has]
    omega
  rw [covered_cons, covered_cons, hself, or_and_right, and_iff_left_of_imp habove]

theorem Ordered.firstAddr_le (ho : Ordered L) {x : Nat} (hx : Covered L x) : firstAddr L ≤ x := by
  obtain ⟨d, hd, hx⟩ := hx
  cases L with
  | nil => cases hd
  | cons b rest =>
      have hb : firstAddr (b :: rest) = b.addr := rfl
      unfold Block.Has at hx
      rcases List.mem_cons.mp hd with rfl | hd
      · omega
      · have := (List.pairwise_cons.mp ho.sorted).1 d hd
        unfold Block.stop at this
        omega

theorem covered_firstAddr (hne : L ≠ []) : Covered L (firstAddr L) := by
  cases L with
  | nil => exact absurd rfl hne
  | cons b rest =>
      refine ⟨b, List.mem_cons_self, ?_⟩
      have hb : firstAddr (b :: rest) = b.addr := rfl
      unfold Block.Has Block.stop
      omega

theorem Ordered.firstAddr_congr (ho : Ordered L) (ho' : Ordered L') (hsame : ∀ x, Covered L x ↔ Covered L' x) :
    firstAddr L = firstAddr L' := by
  by_cases hL : L = []
  · have hL' : L' = [] := by
      by_contra hne
      have := (hsame _).mpr (covered_firstAddr hne)
      rw [hL] at this
      simp [Covered] at this
    rw [hL, hL']
  · have hL' : L' ≠ [] := by
      rintro rfl
      have := (hsame _).mp (covered_firstAddr hL)
      simp [Covered] at this
    exact Nat.le_antisymm (ho.firstAddr_le ((hsame _).mpr (covered_firstAddr hL')))
      (ho'.firstAddr_le ((hsame _).mp (covered_firstAddr hL)))

theorem covered_tail (ho : Ordered (b :: after)) (x : Nat) : Covered after x ↔ Covered (b :: after) x ∧ ¬ b.Has x := by
  constructor
  · have ho' : Ordered ([] ++ b :: after) := ho
    exact fun hx => covered_remove ho' hx
  · rintro ⟨hx, hb⟩
    exact (covered_cons.mp hx).resolve_left hb

theorem Coalesced.first_of_covered {x : Nat} (h : Coalesced (⟨x, 0⟩ :: after)) (ho : Ordered L)
    (hsame : ∀ y, Covered L y ↔ Covered (⟨x, 0⟩ :: after) y) :
    ∃ rest, L = ⟨x, 0⟩ :: rest ∧ firstAddr rest = firstAddr after := by
  have hfirst : firstAddr L = x := ho.firstAddr_congr h.ordered hsame
  cases L with
  | nil => exact absurd hfirst.symm (h.ordered.nonnull _ List.mem_cons_self)
  | cons d rest =>
      have hd : d.addr = x := hfirst
      have hsize : d.size = 0 := by
        by_contra hne
        -- the byte after the empty block would be covered
        have hin : Covered (d :: rest) (x + 24) := by
          refine ⟨d, List.mem_cons_self, ?_⟩
          unfold Block.Has Block.stop
          omega
        obtain ⟨e, he, hx⟩ := (hsame _).mp hin
        unfold Block.Has at hx
        rcases List.mem_cons.mp he with rfl | he
        · simp only [Block.stop] at hx
          omega
        · have := (List.pairwise_cons.mp h.apart).1 e he
          simp only [Block.stop] at this
          omega
      have hblock : d = ⟨x, 0⟩ := by
        rw [← hd, ← hsize]
      subst hblock
      refine ⟨rest, rfl, ?_⟩
      refine (ho.sublist (List.sublist_cons_self _ rest)).firstAddr_congr
        (h.ordered.sublist (List.sublist_cons_self _ after)) fun y => ?_
      rw [covered_tail ho, covered_tail h.ordered, hsame y]

theorem Ordered.wrap_base (ho : Ordered L) (hb : b ∈ L) : wrap (b.addr + 16) = b.addr + 16 := by
  have := ho.bounded b hb
  unfold Block.stop at this
  exact wrap_of_lt (by omega)

/-- A perfect fit behind another block: the 24 bytes after the request are no longer covered. -/
theorem not_roundTrip_perfect (h : DoublyLinked s (before ++ q :: b :: after)) (hr : request + 16 < 2 ^ 64)
    (hbefore : ∀ d ∈ before ++ [q], d.size < request + 16) (hperfect : b.size = request + 16) :
    ¬ RoundTrip s (before ++ q :: b :: after) request := by
  rintro ⟨p, s', L', _, hok, hchain, hL', hcovered, _⟩
  obtain ⟨t, hok', hchain', _⟩ := allocate_perfect h hr hbefore hperfect
  obtain ⟨rfl, rfl⟩ := Prod.mk.inj (Except.ok.inj (hok.symm.trans hok'))
  obtain rfl := hchain.unique hchain' hL'.nonnull (h.ordered.sublist (sublist_skip before q b after)).nonnull
  have hp : wrap (b.addr + 16) = b.addr + 16 := h.ordered.wrap_base (by simp)
  have hlast : b.Has (b.addr + 16 + request) := by
    unfold Block.Has Block.stop
    omega
  have hleft : Covered (before ++ q :: after) (b.addr + 16 + request) := by
    refine (hcovered _).mpr ⟨⟨b, by simp, hlast⟩, ?_⟩
    rw [hp]
    simp only [LiveBlock.Has]
    omega
  have ho := h.ordered
  rw [← List.singleton_append, ← List.append_assoc] at ho
  rw [← List.singleton_append, ← List.append_assoc] at hleft
  exact (covered_remove ho hleft).2 hlast

/-- The remainder is in the body of the head block, so the allocation leaves it as it is. -/
theorem magic_header_kept {m m' : VirtualMemory} (hL : Coalesced (b :: after)) (hlarge : 8 ≤ request)
    (hperfect : b.size = request + 16) (hplace : UsedBlockHeader.magicConstant = b.addr + 16 + request)
    (hframe : ∀ x, (∀ d ∈ b :: after, x < d.addr ∨ d.addr + 24 ≤ x) → m' x = m x) :
    ∀ x, UsedBlockHeader.magicConstant ≤ x → x < UsedBlockHeader.magicConstant + 24 → m' x = m x := by
  intro x hx hx'
  apply hframe
  intro d hd
  rcases List.mem_cons.mp hd with rfl | hd
  · omega
  · have := (List.pairwise_cons.mp hL.apart).1 d hd
    unfold Block.stop at this
    omega

/-- A perfect fit of the head: the list that the magic word begins has to be the remainder and the other blocks. -/
theorem magicRemainder_of_roundTrip (h : DoublyLinked s (b :: after)) (hL : Coalesced (b :: after))
    (hlarge : 8 ≤ request) (hr : request + 16 < 2 ^ 64) (hperfect : b.size = request + 16)
    (hround : RoundTrip s (b :: after) request) : MagicRemainder s.mem b after := by
  obtain ⟨p, s', L', _, hok, hchain, hL', hcovered, _⟩ := hround
  obtain ⟨t, hok', hhead, _, _, _, hframe⟩ := allocate_perfect_head h hr hperfect
  obtain ⟨rfl, rfl⟩ := Prod.mk.inj (Except.ok.inj (hok.symm.trans hok'))
  have hp : wrap (b.addr + 16) = b.addr + 16 := h.ordered.wrap_base (by simp)
  rw [hp] at hcovered
  rw [hhead] at hchain
  have hsame : ∀ x, Covered L' x ↔ Covered (⟨b.addr + 16 + request, 0⟩ :: after) x := fun x =>
    (hcovered x).trans (covered_remainder hL hperfect x).symm
  obtain ⟨rest, rfl, hfirst⟩ := (coalesced_remainder hL hperfect).first_of_covered hL' hsame
  have hmagic : UsedBlockHeader.magicConstant = b.addr + 16 + request := hchain.links.1
  have hkept := magic_header_kept hL hlarge hperfect hmagic hframe
  refine ⟨?_, ?_, ?_⟩
  · unfold Block.stop
    omega
  · have hzero : size s'.mem UsedBlockHeader.magicConstant = 0 := by
      rw [hmagic]
      exact hchain.sizes ⟨b.addr + 16 + request, 0⟩ List.mem_cons_self
    exact (load64_congr fun x hx hx' => (hkept x hx (by omega)).symm).trans hzero
  · have hnext : next s'.mem UsedBlockHeader.magicConstant = firstAddr after := by
      rw [hmagic, ← hfirst]
      exact hchain.tail.head_eq
    exact (load64_congr fun x hx hx' => (hkept x (by omega) (by omega)).symm).trans hnext

theorem roundTrip_magic (h : DoublyLinked s (b :: after)) (hL : Coalesced (b :: after)) (hlarge : 8 ≤ request)
    (hr : request + 16 < 2 ^ 64) (hperfect : b.size = request + 16) (hmagic : MagicRemainder s.mem b after) :
    RoundTrip s (b :: after) request := by
  obtain ⟨s', hok, hhead, hafter, hnext, hsize, hframe⟩ := allocate_perfect_head h hr hperfect
  obtain ⟨hstop, hzero, hlink⟩ := hmagic
  have hbound : b.stop ≤ 2 ^ 64 := h.ordered.bounded b (by simp)
  have hplace : UsedBlockHeader.magicConstant = b.addr + 16 + request := by
    unfold Block.stop at hstop
    omega
  have hp : wrap (b.addr + 16) = b.addr + 16 := h.ordered.wrap_base (by simp)
  rw [hp] at hok
  have hkept := magic_header_kept hL hlarge hperfect hplace hframe
  have hchain : Chained s'.mem s'.head (⟨b.addr + 16 + request, 0⟩ :: after) := by
    have hnext' : next s'.mem UsedBlockHeader.magicConstant = firstAddr after :=
      (load64_congr fun x hx hx' => hkept x (by omega) (by omega)).trans hlink
    have hsize' : size s'.mem UsedBlockHeader.magicConstant = 0 :=
      (load64_congr fun x hx hx' => hkept x hx (by omega)).trans hzero
    rw [hplace] at hnext' hsize'
    refine ⟨⟨hhead.trans hplace, ?_⟩, ?_⟩
    · dsimp only
      rw [hnext']
      exact hafter.links
    · intro d hd
      rcases List.mem_cons.mp hd with rfl | hd
      · exact hsize'
      · exact hafter.sizes d hd
  refine roundTrip_of_exact hL hok hchain (coalesced_remainder hL hperfect) ⟨⟨?_, ?_, ?_⟩, ?_, hlarge⟩ ?_
    (covered_remainder hL hperfect)
  · have := h.ordered.nonnull b (by simp)
    dsimp only
    omega
  · unfold Block.stop at hbound
    dsimp only
    omega
  · dsimp only
    rw [Nat.add_sub_cancel]
    exact hsize
  · dsimp only
    rw [Nat.add_sub_cancel]
    exact hnext
  · intro x hx
    refine ⟨b, by simp, ?_⟩
    simp only [LiveBlock.Has, Block.Has, Block.stop] at hx ⊢
    omega

end

/-- Allocating and freeing at once restores the list exactly when the first block
that is large enough is larger than the request and its header. -/
theorem round_trip_iff (s : FreeListAllocator) (L : List Block) (h : DoublyLinked s L) (hL : Coalesced L)
    (request : Nat) (hlarge : 8 ≤ request) (hr : request + 16 < 2 ^ 64) (hfits : ∃ b ∈ L, request + 16 ≤ b.size) :
    RoundTrip s L request ↔ RoundTripSafe s L request := by
  constructor
  · rintro hround before b after rfl hbefore hfit
    rcases Nat.lt_or_eq_of_le hfit with hlt | hperfect
    · exact Or.inl hlt
    · rcases List.eq_nil_or_concat' before with rfl | ⟨init, q, rfl⟩
      · exact Or.inr ⟨rfl, magicRemainder_of_roundTrip h hL hlarge hr hperfect.symm hround⟩
      · rw [List.append_assoc, List.singleton_append] at h hround
        exact absurd hround (not_roundTrip_perfect h hr hbefore hperfect.symm)
  · intro hsafe
    rcases first_fit_cases L (request + 16) with ⟨before, b, after, rfl, hbefore, hfit⟩ | hnone
    · rcases hsafe before b after rfl hbefore hfit with hlt | ⟨rfl, hmagic⟩
      · exact roundTrip_larger h hL hlarge hr hbefore hlt
      · rcases Nat.lt_or_eq_of_le hfit with hlt | hperfect
        · exact roundTrip_larger h hL hlarge hr hbefore hlt
        · exact roundTrip_magic h hL hlarge hr hperfect.symm hmagic
    · obtain ⟨b, hb, hfit⟩ := hfits
      exact absurd (hnone b hb) (Nat.not_lt.mpr hfit)

theorem twoFree_coalesced : Coalesced [⟨0x1000, 64⟩, ⟨0x2000, 128⟩] :=
  ⟨twoFree_linked.ordered, by decide⟩

/-- A request of 100 bytes from the second of two blocks. -/
theorem round_trip_iff_second : RoundTrip twoFree [⟨0x1000, 64⟩, ⟨0x2000, 128⟩] 100 := by
  refine (round_trip_iff twoFree _ twoFree_linked twoFree_coalesced 100 (by decide) (by decide)
    ⟨⟨0x2000, 128⟩, by simp, by decide⟩).mpr ?_
  rintro before b after hsplit _ hfit
  have hb : b ∈ [(⟨0x1000, 64⟩ : Block), ⟨0x2000, 128⟩] := hsplit ▸ (by simp)
  simp only [List.mem_cons, List.not_mem_nil, or_false] at hb
  rcases hb with rfl | rfl
  · exact absurd hfit (by decide)
  · exact Or.inl (by decide)

/-- A request that fits the second block perfectly, or the first. -/
theorem round_trip_loses_bytes : DoublyLinked twoFree [⟨0x1000, 64⟩, ⟨0x2000, 128⟩] ∧
    Coalesced [⟨0x1000, 64⟩, ⟨0x2000, 128⟩] ∧
    ¬ RoundTrip twoFree [⟨0x1000, 64⟩, ⟨0x2000, 128⟩] 112 ∧ ¬ RoundTrip twoFree [⟨0x1000, 64⟩, ⟨0x2000, 128⟩] 48 := by
  refine ⟨twoFree_linked, twoFree_coalesced, ?_, ?_⟩
  · have hlinked : DoublyLinked twoFree ([] ++ ⟨0x1000, 64⟩ :: ⟨0x2000, 128⟩ :: []) := twoFree_linked
    exact not_roundTrip_perfect hlinked (by decide) (by simp) rfl
  · intro hround
    have hmagic := magicRemainder_of_roundTrip twoFree_linked twoFree_coalesced (by decide) (by decide) rfl hround
    exact absurd hmagic.stop (by decide)

end DavOS
