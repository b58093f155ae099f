import DavOS.FreeListLinks

/-! First fit on a doubly linked free list. The block that it takes is the first
one that is large enough, as long as the size of the request and its header does
not wrap around; and the rest of the list stays, unless the head is a perfect fit,
whose next pointer is read only after the magic word has been written over it. -/
namespace DavOS
open MachineWord ByteMemory LinkedSegment FreeBlockHeader

structure DoublyLinked (s : FreeListAllocator) (L : List Block) : Prop where
  chained : Chained s.mem s.head L
  ordered : Ordered L
  back : BackLinked s.mem L

/-! ### The three ways of taking a block -/

section

variable {s : FreeListAllocator} {L before after : List Block} {b q : Block} {request : Nat}

theorem allocate_larger (h : DoublyLinked s (before ++ b :: after)) (hr : request + 16 < 2 ^ 64)
    (hbefore : ∀ d ∈ before, d.size < request + 16) (hlt : request + 16 < b.size) :
    ∃ s', s.allocate request = .ok (wrap (b.stop - (request + 16) + 16), s') ∧
      Chained s'.mem s'.head (before ++ ⟨b.addr, b.size - (request + 16)⟩ :: after) ∧
      UsedBlockHeader.size s'.mem (b.stop - (request + 16)) = request ∧
      UsedBlockHeader.magic s'.mem (b.stop - (request + 16)) = UsedBlockHeader.magicConstant := by
  obtain ⟨m', hreserve, hchained, hsize, hmagic, _⟩ := reserveEnd_spec h.chained h.ordered hlt
  have hwrap : wrap (request + 16) = request + 16 := wrap_of_lt hr
  rw [← hwrap] at hbefore
  have hok := (allocate_eq h.chained h.ordered hbefore (by omega)).2
  rw [hwrap, if_neg (Nat.ne_of_lt hlt), hreserve] at hok
  exact ⟨_, hok, hchained, hsize, hmagic⟩

theorem allocate_perfect (h : DoublyLinked s (before ++ q :: b :: after)) (hr : request + 16 < 2 ^ 64)
    (hbefore : ∀ d ∈ before ++ [q], d.size < request + 16) (hperfect : b.size = request + 16) :
    ∃ s', s.allocate request = .ok (wrap (b.addr + 16), s') ∧ Chained s'.mem s'.head (before ++ q :: after) ∧
      UsedBlockHeader.size s'.mem b.addr = request := by
  have hprev : prev s.mem b.addr = q.addr := (backLinked_append_cons.mp h.back).2.2.1
  obtain ⟨m', hreserve, hchained, hsize, _, _⟩ :=
    reserveEntire_spec h.chained h.ordered hprev (show request < 2 ^ 64 by omega)
  have hwrap : wrap (request + 16) = request + 16 := wrap_of_lt hr
  obtain ⟨hchain, ho, _⟩ := h
  have hhead : b.addr ≠ s.head := by
    obtain ⟨d, hd, hfirst⟩ : ∃ d ∈ before ++ q :: after, firstAddr (before ++ q :: b :: after) = d.addr := by
      cases before with
      | nil => exact ⟨q, by simp, rfl⟩
      | cons d before => exact ⟨d, by simp, rfl⟩
    have hclear := ho.clear_second hd
    rw [hchain.head_eq, hfirst]
    unfold Clear at hclear
    omega
  rw [← List.singleton_append, ← List.append_assoc] at hchain ho
  rw [← hwrap] at hbefore
  have hok := (allocate_eq hchain ho hbefore (by omega)).2
  rw [hwrap, if_pos hperfect.symm, hreserve, if_neg hhead] at hok
  exact ⟨_, hok, hchained, hsize⟩

/-- The head fits perfectly: the rest of the list is untouched, but the new head is the magic word. -/
theorem allocate_perfect_head (h : DoublyLinked s (b :: after)) (hr : request + 16 < 2 ^ 64)
    (hperfect : b.size = request + 16) :
    ∃ s', s.allocate request = .ok (wrap (b.addr + 16), s') ∧ s'.head = UsedBlockHeader.magicConstant ∧
      Chained s'.mem (firstAddr after) after ∧ next s'.mem b.addr = UsedBlockHeader.magicConstant ∧
      UsedBlockHeader.size s'.mem b.addr = request ∧
      ∀ x, (∀ d ∈ b :: after, x < d.addr ∨ d.addr + 24 ≤ x) → s'.mem x = s.mem x := by
  have hprev : prev s.mem b.addr = 0 := h.back.1
  obtain ⟨m', hreserve, hchained, hnext, hsize, hframe⟩ :=
    reserveEntire_head h.chained h.ordered hprev (show request < 2 ^ 64 by omega)
  have hwrap : wrap (request + 16) = request + 16 := wrap_of_lt hr
  have hhead : b.addr = s.head := h.chained.links.1.symm
  have hnone : ∀ d ∈ ([] : List Block), d.size < wrap (request + 16) := fun d hd => absurd hd List.not_mem_nil
  have hok := (allocate_eq h.chained h.ordered hnone (by omega)).2
  rw [hwrap, if_pos hperfect.symm, hreserve, if_pos hhead] at hok
  exact ⟨_, hok, hnext, hchained, hnext, hsize, hframe⟩

end

/-! ### First fit -/

/-- `allocate` panics when no block is large enough for the request and its
header. Otherwise it takes its bytes from the first such block, and the list
afterwards has the other blocks and perhaps what is left of that one. -/
def FirstFit (s : FreeListAllocator) (L : List Block) (request : Nat) : Prop :=
  (s.allocate request = .error (.panic "ran out of virtual memory!\n") ↔ ∀ b ∈ L, b.size < request + 16) ∧
  ∀ before b after, L = before ++ b :: after → (∀ d ∈ before, d.size < request + 16) → request + 16 ≤ b.size →
    ∃ p s' L', s.allocate request = .ok (p, s') ∧
      b.addr ≤ wrapSub p 16 ∧ wrapSub p 16 + 16 + request ≤ b.stop ∧ s'.getSize p = request ∧
      Chained s'.mem s'.head L' ∧ (∀ d ∈ before ++ after, d ∈ L') ∧
      ∀ d ∈ L', d ∈ before ++ after ∨ d.addr = b.addr

/-- Where first fit does that: the request and its header stay below `2 ^ 64`
and the head is no perfect fit, unless the magic word happens to be the address of
the block after it; or every block is smaller than what the sum wraps around to. -/
def FirstFitSafe (L : List Block) (request : Nat) : Prop :=
  if request + 16 < 2 ^ 64 then
    ∀ b rest, L = b :: rest → b.size = request + 16 → firstAddr rest = UsedBlockHeader.magicConstant
  else ∀ b ∈ L, b.size < request + 16 - 2 ^ 64

section

variable {s : FreeListAllocator} {L before after : List Block} {b q : Block} {request : Nat}

theorem Ordered.size_lt (ho : Ordered L) (hb : b ∈ L) : b.size < 2 ^ 64 := by
  have := ho.bounded b hb
  unfold Block.stop at this
  omega

theorem wrapSub_wrap_header {a : Nat} (ha : a < 2 ^ 64) : wrapSub (wrap (a + 16)) 16 = a := by
  unfold wrapSub wrap
  omega

theorem getSize_wrap_header {a : Nat} (ha : a < 2 ^ 64) :
    s.getSize (wrap (a + 16)) = UsedBlockHeader.size s.mem a := by
  unfold FreeListAllocator.getSize
  rw [UsedBlockHeader.bytes, wrapSub_wrap_header ha]

theorem allocate_panics_iff (h : DoublyLinked s L) :
    s.allocate request = .error (.panic "ran out of virtual memory!\n") ↔ ∀ b ∈ L, b.size < wrap (request + 16) := by
  constructor
  · intro hpanic
    rcases first_fit_cases L (wrap (request + 16)) with ⟨before, b, after, rfl, hbefore, hfit⟩ | hnone
    · rw [(allocate_eq h.chained h.ordered hbefore hfit).2] at hpanic
      cases hpanic
    · exact hnone
  · exact allocate_none h.chained h.ordered

/-- After a perfect fit of the head, the list that begins at the magic word has
all the other blocks only if the first of them is there. -/
theorem magic_first {m : VirtualMemory} {L' : List Block} (ho : Ordered (b :: after))
    (hafter : Chained m (firstAddr after) after) (hnext : next m b.addr = UsedBlockHeader.magicConstant)
    (hchain : Chained m UsedBlockHeader.magicConstant L') (hkept : ∀ d ∈ after, d ∈ L')
    (honly : ∀ d ∈ L', d ∈ after ∨ d.addr = b.addr) : firstAddr after = UsedBlockHeader.magicConstant := by
  have hnull : ∀ d ∈ L', d.addr ≠ 0 := by
    intro d hd
    rcases honly d hd with hd | hd
    · exact ho.nonnull d (List.mem_cons_of_mem b hd)
    · rw [hd]
      exact ho.nonnull b (by simp)
  cases L' with
  | nil =>
      have hzero : UsedBlockHeader.magicConstant = 0 := hchain.links
      exact absurd hzero (by decide)
  | cons d rest =>
      have hd : UsedBlockHeader.magicConstant = d.addr := hchain.links.1
      rcases honly d List.mem_cons_self with hmem | haddr
      · obtain ⟨pre, post, rfl⟩ := List.append_of_mem hmem
        cases pre with
        | nil => exact hd.symm
        | cons c pre =>
            -- the list from `d` on is a tail of the old one, which lacks the block `c`
            have htail : Chained m UsedBlockHeader.magicConstant (d :: post) := hd ▸ hafter.suffix
            have hpost : ∀ e ∈ d :: post, e ∈ pre ++ d :: post := fun e he => List.mem_append_right _ he
            have hsame : d :: rest = d :: post := by
              refine hchain.unique htail hnull fun e he => ho.nonnull e ?_
              exact List.mem_cons_of_mem b (List.mem_cons_of_mem c (hpost e he))
            have hc : c ∈ d :: post := hsame ▸ hkept c List.mem_cons_self
            have hself := (List.pairwise_cons.mp (List.pairwise_cons.mp ho.sorted).2).1 c (hpost c hc)
            unfold Block.stop at hself
            omega
      · rw [hd, haddr] at hchain
        exact absurd hchain.links (not_segment_loop (hnext.trans (hd.trans haddr)) (ho.nonnull b (by simp)) _)

theorem allocate_from_first (h : DoublyLinked s (before ++ b :: after)) (hr : request + 16 < 2 ^ 64)
    (hbefore : ∀ d ∈ before, d.size < request + 16) (hfit : request + 16 ≤ b.size)
    (hhead : before = [] → b.size = request + 16 → firstAddr after = UsedBlockHeader.magicConstant) :
    ∃ p s' L', s.allocate request = .ok (p, s') ∧
      b.addr ≤ wrapSub p 16 ∧ wrapSub p 16 + 16 + request ≤ b.stop ∧ s'.getSize p = request ∧
      Chained s'.mem s'.head L' ∧ (∀ d ∈ before ++ after, d ∈ L') ∧
      ∀ d ∈ L', d ∈ before ++ after ∨ d.addr = b.addr := by
  obtain ⟨_, _, hstop, _, _⟩ := ordered_append_cons.mp h.ordered
  have hbaddr : b.addr < 2 ^ 64 := by
    unfold Block.stop at hstop
    omega
  rcases Nat.lt_or_eq_of_le hfit with hlt | hperfect
  · obtain ⟨s', hok, hchained, hsize, _⟩ := allocate_larger h hr hbefore hlt
    have hstart : b.stop - (request + 16) < 2 ^ 64 := by omega
    refine ⟨_, s', _, hok, ?_, ?_, (getSize_wrap_header hstart).trans hsize, hchained, ?_, ?_⟩
    · rw [wrapSub_wrap_header hstart]
      unfold Block.stop
      omega
    · rw [wrapSub_wrap_header hstart]
      unfold Block.stop
      omega
    · intro d hd
      simp only [List.mem_append, List.mem_cons] at hd ⊢
      exact hd.imp_right Or.inr
    · intro d hd
      simp only [List.mem_append, List.mem_cons] at hd ⊢
      rcases hd with hd | rfl | hd
      · exact Or.inl (Or.inl hd)
      · exact Or.inr rfl
      · exact Or.inl (Or.inr hd)
  · have hinside : b.addr ≤ wrapSub (wrap (b.addr + 16)) 16 ∧
        wrapSub (wrap (b.addr + 16)) 16 + 16 + request ≤ b.stop := by
      rw [wrapSub_wrap_header hbaddr]
      unfold Block.stop
      omega
    rcases List.eq_nil_or_concat' before with rfl | ⟨init, q, rfl⟩
    · obtain ⟨s', hok, hmagic, hchained, _, hsize, _⟩ := allocate_perfect_head h hr hperfect.symm
      rw [hhead rfl hperfect.symm, ← hmagic] at hchained
      exact ⟨_, s', after, hok, hinside.1, hinside.2, (getSize_wrap_header hbaddr).trans hsize, hchained,
        fun d hd => hd, fun d hd => Or.inl hd⟩
    · rw [List.append_assoc, List.singleton_append] at h ⊢
      obtain ⟨s', hok, hchained, hsize⟩ := allocate_perfect h hr hbefore hperfect.symm
      exact ⟨_, s', _, hok, hinside.1, hinside.2, (getSize_wrap_header hbaddr).trans hsize, hchained,
        fun d hd => hd, fun d hd => Or.inl hd⟩

theorem firstFit_iff_of_lt (h : DoublyLinked s L) (hr : request + 16 < 2 ^ 64) :
    FirstFit s L request ↔
      ∀ b rest, L = b :: rest → b.size = request + 16 → firstAddr rest = UsedBlockHeader.magicConstant := by
  constructor
  · rintro ⟨_, htake⟩ b rest rfl hperfect
    obtain ⟨p, s', L', hok, _, _, _, hchain, hkept, honly⟩ := htake [] b rest rfl (by simp) (Nat.le_of_eq hperfect.symm)
    obtain ⟨t, hok', hmagic, hafter, hnext, _, _⟩ := allocate_perfect_head h hr hperfect
    obtain ⟨_, rfl⟩ := Prod.mk.inj (Except.ok.inj (hok.symm.trans hok'))
    rw [hmagic] at hchain
    exact magic_first h.ordered hafter hnext hchain hkept honly
  · intro hhead
    refine ⟨?_, ?_⟩
    · rw [allocate_panics_iff h, wrap_of_lt hr]
    · rintro before b after rfl hbefore hfit
      refine allocate_from_first h hr hbefore hfit ?_
      rintro rfl hperfect
      exact hhead b after rfl hperfect

theorem firstFit_iff_of_wrap (h : DoublyLinked s L) (hr : request < 2 ^ 64) (hwrap : 2 ^ 64 ≤ request + 16) :
    FirstFit s L request ↔ ∀ b ∈ L, b.size < request + 16 - 2 ^ 64 := by
  have hsum : wrap (request + 16) = request + 16 - 2 ^ 64 := by
    unfold wrap
    omega
  have hsmall : ∀ b ∈ L, b.size < request + 16 := fun b hb => Nat.lt_of_lt_of_le (h.ordered.size_lt hb) hwrap
  unfold FirstFit
  rw [allocate_panics_iff h, hsum]
  constructor
  · rintro ⟨hpanic, _⟩
    exact hpanic.mpr hsmall
  · intro hnone
    refine ⟨iff_of_true hnone hsmall, ?_⟩
    rintro before b after rfl _ hfit
    exact absurd (hsmall b (by simp)) (Nat.not_lt.mpr hfit)

end

/-- First fit is right exactly for the requests whose size does not wrap around and that do not fit the head perfectly. -/
theorem first_fit_iff (s : FreeListAllocator) (L : List Block) (h : DoublyLinked s L) (request : Nat)
    (hr : request < 2 ^ 64) : FirstFit s L request ↔ FirstFitSafe L request := by
  unfold FirstFitSafe
  split
  · rename_i hlt
    exact firstFit_iff_of_lt h hlt
  · rename_i hge
    exact firstFit_iff_of_wrap h hr (Nat.not_lt.mp hge)

def twoFree : FreeListAllocator :=
  ⟨construct (construct (fun _ => 0) 0x1000 64 0x2000 0) 0x2000 128 0 0x1000, 0x1000⟩

theorem twoFree_linked : DoublyLinked twoFree [⟨0x1000, 64⟩, ⟨0x2000, 128⟩] := by
  refine ⟨⟨⟨rfl, ?_, ?_⟩, by decide +kernel⟩, ⟨by decide, by decide, by decide⟩, ?_, ?_, trivial⟩
  · exact (by decide +kernel : next twoFree.mem 0x1000 = 0x2000)
  · exact (by decide +kernel : next twoFree.mem 0x2000 = 0)
  · exact (by decide +kernel : prev twoFree.mem 0x1000 = 0)
  · exact (by decide +kernel : prev twoFree.mem 0x2000 = 0x1000)

/-- A request of 100 bytes passes the first block. -/
theorem first_fit_iff_second : FirstFit twoFree [⟨0x1000, 64⟩, ⟨0x2000, 128⟩] 100 := by
  refine (first_fit_iff twoFree _ twoFree_linked 100 (by decide)).mpr ?_
  rw [FirstFitSafe, if_pos (by decide)]
  rintro b rest hL hperfect
  rw [← (List.cons.inj hL).1] at hperfect
  exact absurd hperfect (by decide)

/-- The largest request gets an address instead of a panic, and one for all of
the head leaves the magic word as the head of the list. -/
theorem first_fit_wraps_and_loses_list : DoublyLinked twoFree [⟨0x1000, 64⟩, ⟨0x2000, 128⟩] ∧
    ¬ FirstFit twoFree [⟨0x1000, 64⟩, ⟨0x2000, 128⟩] 0xffffffffffffffff ∧
    ¬ FirstFit twoFree [⟨0x1000, 64⟩, ⟨0x2000, 128⟩] 48 := by
  refine ⟨twoFree_linked, ?_, ?_⟩
  · rw [firstFit_iff_of_wrap twoFree_linked (by decide) (by decide)]
    decide
  · rw [firstFit_iff_of_lt twoFree_linked (by decide)]
    intro hsafe
    exact absurd (hsafe ⟨0x1000, 64⟩ [⟨0x2000, 128⟩] rfl rfl) (by decide)

end DavOS
