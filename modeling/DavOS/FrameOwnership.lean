import DavOS.FrameAllocator
import DavOS.GuardedRun

/-! Who owns a frame over whole runs of the allocator: it is on the stack, or
outstanding, or part of the stack itself, and never two of these at once. The
stack in memory is first related to the bounded list that it stands for. -/
namespace DavOS
open MachineWord kernelConstants GuardedRun

/-! ### The stack in memory and the list of free frames -/

/-- Giving back several frames: those that find room end up on top, the last one first. -/
theorem FreeStack.foldl_deallocateFrame (fs : List Nat) (free : FreeStack) :
    (fs.foldl deallocateFrame free).frames =
        (fs.take (free.capacity - free.frames.length)).reverse ++ free.frames ∧
      (fs.foldl deallocateFrame free).capacity = free.capacity := by
  induction fs generalizing free with
  | nil => simp
  | cons f fs ih =>
      rw [List.foldl_cons]
      by_cases hroom : free.frames.length < free.capacity
      · obtain ⟨n, hn⟩ : ∃ n, free.capacity - free.frames.length = n + 1 :=
          ⟨free.capacity - free.frames.length - 1, by omega⟩
        obtain ⟨hframes, hcapacity⟩ := ih (free.deallocateFrame f)
        rw [hframes, hcapacity]
        simp only [deallocateFrame, dif_pos hroom, List.length_cons, hn, List.take_succ_cons,
          List.reverse_cons, List.append_assoc, List.singleton_append, and_true]
        rw [show free.capacity - (free.frames.length + 1) = n by omega]
      · have hsame : free.deallocateFrame f = free := by simp only [deallocateFrame, dif_neg hroom]
        obtain ⟨hframes, hcapacity⟩ := ih free
        rw [hsame, hframes, hcapacity, Nat.sub_eq_zero_of_le (Nat.le_of_not_lt hroom)]
        simp

/-- The allocator's stack lies at `base`, holds the frames of `free`, and was
only ever written in its own slots. -/
structure Backs (base : Nat) (s : FrameAllocator) (free : FreeStack) : Prop where
  contents : s.freeStack.contents s.mem = free.frames
  capacity : s.freeStack.maxSize = free.capacity
  stack : s.freeStack.stack = base
  writes : ∀ w ∈ s.writes, ∃ i < free.capacity, w = base + 8 * i

section

variable {base : Nat} {s s' : FrameAllocator} {free : FreeStack}

theorem Backs.size (h : Backs base s free) : s.freeStack.size = free.frames.length := by
  rw [← h.contents, NonOwningStack.contents_length]

theorem Backs.push (h : Backs base s free) {frame : Nat} (hf : frame < 2 ^ 64) :
    Backs base (s.push frame) (free.deallocateFrame frame) := by
  by_cases hroom : free.frames.length < free.capacity
  · have hne : s.freeStack.size ≠ s.freeStack.maxSize := by
      rw [h.size, h.capacity]
      omega
    have hcontents := NonOwningStack.contents_push (m := s.mem) hne hf
    have hfull : s.freeStack.full = false := by simpa [NonOwningStack.full] using hne
    simp only [FreeStack.deallocateFrame, dif_pos hroom]
    refine ⟨?_, ?_, ?_, ?_⟩
    · exact hcontents.trans (by rw [h.contents])
    · simp only [FrameAllocator.push, NonOwningStack.push_not_full hne, h.capacity]
    · simp only [FrameAllocator.push, NonOwningStack.push_not_full hne, h.stack]
    · intro w hw
      simp only [FrameAllocator.push, hfull, Bool.false_eq_true, if_false, List.mem_cons] at hw
      rcases hw with rfl | hw
      · exact ⟨free.frames.length, hroom, by rw [NonOwningStack.slot, h.stack, h.size]⟩
      · exact h.writes w hw
  · have heq : s.freeStack.size = s.freeStack.maxSize := by
      have := free.bounded
      rw [h.size, h.capacity]
      omega
    have hfull : s.freeStack.full = true := by simpa [NonOwningStack.full] using heq
    have hsame : s.push frame = s := by
      simp only [FrameAllocator.push, NonOwningStack.push_full heq, hfull, if_true]
    rw [hsame]
    simp only [FreeStack.deallocateFrame, dif_neg hroom]
    exact h

theorem Backs.foldl_push (h : Backs base s free) {fs : List Nat} (hfs : ∀ f ∈ fs, f < 2 ^ 64) :
    Backs base (fs.foldl FrameAllocator.push s) (fs.foldl FreeStack.deallocateFrame free) := by
  induction fs generalizing s free with
  | nil => exact h
  | cons f fs ih =>
      exact ih (h.push (hfs f List.mem_cons_self)) fun g hg => hfs g (List.mem_cons_of_mem f hg)

theorem Backs.allocate (h : Backs base s free) {frame : Nat}
    (hs : s.allocateFrame = .ok (frame, s')) :
    ∃ free', free.allocateFrame = .ok (frame, free') ∧ Backs base s' free' := by
  unfold FrameAllocator.allocateFrame at hs
  by_cases hempty : s.freeStack.size = 0
  · simp [NonOwningStack.empty, hempty] at hs
  · have hpop := NonOwningStack.contents_pop (m := s.mem) hempty
    rw [h.contents] at hpop
    have hsome : free.frames ≠ [] := by
      rw [hpop]
      simp
    obtain ⟨f, free', halloc⟩ := FreeStack.allocateFrame_isOk hsome
    obtain ⟨hframes, hcapacity⟩ := FreeStack.allocateFrame_ok halloc
    have hne : s.freeStack.empty = false := by simpa [NonOwningStack.empty] using hempty
    simp only [hne, Bool.false_eq_true, if_false, Except.ok.injEq, Prod.mk.injEq] at hs
    obtain ⟨rfl, rfl⟩ := hs
    rw [hframes] at hpop
    obtain ⟨rfl, hrest⟩ := List.cons.inj hpop
    refine ⟨free', halloc, hrest.symm, ?_, ?_, ?_⟩
    · simp only [NonOwningStack.pop, hne, Bool.false_eq_true, if_false, h.capacity, hcapacity]
    · simp only [NonOwningStack.pop, hne, Bool.false_eq_true, if_false, h.stack]
    · rw [hcapacity]
      exact h.writes

end

/-- The log of stores is complete: what it does not name is as it was in `m`. -/
def FrameAllocator.Logged (m : Nat → BitVec 64) (s : FrameAllocator) : Prop :=
  ∀ x, x ∉ s.writes → s.mem x = m x

section

variable {m : Nat → BitVec 64} {s : FrameAllocator}

theorem FrameAllocator.Logged.push (h : s.Logged m) (frame : Nat) : (s.push frame).Logged m := by
  intro x hx
  by_cases hfull : s.freeStack.full
  · simp only [FrameAllocator.push, NonOwningStack.push, hfull, if_true] at hx ⊢
    exact h x hx
  · simp only [FrameAllocator.push, NonOwningStack.push, hfull, Bool.false_eq_true, if_false,
      List.mem_cons, not_or] at hx ⊢
    rw [Function.update_of_ne hx.1]
    exact h x hx.2

theorem FrameAllocator.Logged.foldl_push (h : s.Logged m) (fs : List Nat) :
    (fs.foldl FrameAllocator.push s).Logged m := by
  induction fs generalizing s with
  | nil => exact h
  | cons f fs ih => exact ih (h.push f)

theorem FrameAllocator.Logged.allocate (h : s.Logged m) {frame : Nat} {s' : FrameAllocator}
    (hs : s.allocateFrame = .ok (frame, s')) : s'.Logged m := by
  unfold FrameAllocator.allocateFrame at hs
  split at hs
  · cases hs
  · -- the frame is read from the top slot, and only the count changes
    cases hs
    exact h

end

/-! ### The reservation -/

theorem numFreeStackFrames_eq (map : List LimineMemmapEntry) :
    numFreeStackFrames map = (getNumAllocatableFrames map + 511) / 512 := by
  have hper : ceilDiv frameSize 8 = 512 := by decide
  rw [numFreeStackFrames, hper, ceilDiv]
  split <;> omega

namespace LimineMap

variable (map : LimineMap)

/-- Address `x` is in the frames that were set aside for the stack. -/
def Reserved (x : Nat) : Prop :=
  freeStackFramesBegin map.entries ≤ x ∧
    x < freeStackFramesBegin map.entries + 4096 * numFreeStackFrames map.entries

instance (x : Nat) : Decidable (map.Reserved x) := inferInstanceAs (Decidable (_ ∧ _))

/-- The usable frames outside the reservation. -/
def unreservedFrames : List Nat := map.usableFrames.filter fun f => ¬ map.Reserved f

theorem numFreeStackFrames_le : numFreeStackFrames map.entries ≤ 2 ^ 44 := by
  have : (framesOf isAllocatable map.entries).length ≤ 2 ^ 52 := map.framesOf_length_le fun _ h => Or.inl h
  rw [numFreeStackFrames_eq, map.getNumAllocatableFrames_eq, usableFrames]
  omega

theorem reservation_spec (h : freeStackFramesBegin map.entries ≠ 0) :
    ∃ e ∈ map.entries, isAllocatable e ∧ e.Regular ∧ freeStackFramesBegin map.entries = e.base ∧
      4096 * numFreeStackFrames map.entries ≤ e.length := by
  have hk := map.numFreeStackFrames_le
  unfold freeStackFramesBegin manuallyReserveContiguousFrames at h ⊢
  rw [wrap_of_lt (show numFreeStackFrames map.entries * frameSize < 2 ^ 64 by simp only [frameSize]; omega)] at h ⊢
  cases hfind : map.entries.find? fun entry =>
      isAllocatable entry && decide (numFreeStackFrames map.entries * frameSize ≤ entry.length) with
  | none =>
      rw [hfind] at h
      exact absurd rfl h
  | some e =>
      have hmem := List.mem_of_find?_eq_some hfind
      have hfits := List.find?_some hfind
      simp only [Bool.and_eq_true, decide_eq_true_eq, frameSize] at hfits
      obtain ⟨htype, hlength⟩ := hfits
      refine ⟨e, hmem, htype, map.regular e hmem (Or.inl htype), rfl, ?_⟩
      omega

theorem freeStackFramesEnd_eq (h : freeStackFramesBegin map.entries ≠ 0) :
    freeStackFramesEnd map.entries =
      freeStackFramesBegin map.entries + 4096 * numFreeStackFrames map.entries := by
  obtain ⟨e, _, _, hregular, hbase, hlength⟩ := map.reservation_spec h
  have hend := hregular.2.2
  rw [freeStackFramesEnd, wrap_of_lt (n := numFreeStackFrames map.entries * frameSize)
    (by simp only [frameSize]; omega), wrap_of_lt (by simp only [frameSize]; omega)]
  simp only [frameSize]
  omega

theorem mem_usableFrames {f : Nat} :
    f ∈ map.usableFrames ↔ ∃ e ∈ map.entries, isAllocatable e ∧ e.HasFrame f :=
  map.mem_framesOf fun _ h => Or.inl h

theorem mem_reclaimableFrames {f : Nat} :
    f ∈ map.reclaimableFrames ↔ ∃ e ∈ map.entries, isReclaimable e ∧ e.HasFrame f :=
  map.mem_framesOf fun _ h => Or.inr h

theorem unreservedFrames_length (h : freeStackFramesBegin map.entries ≠ 0) :
    map.unreservedFrames.length + numFreeStackFrames map.entries = map.usableFrames.length := by
  obtain ⟨e, he, htype, hregular, hbase, hlength⟩ := map.reservation_spec h
  have hperm : (map.usableFrames.filter fun f => map.Reserved f).Perm
      (stride 4096 (freeStackFramesBegin map.entries) (numFreeStackFrames map.entries)) := by
    rw [List.perm_ext_iff_of_nodup (map.usableFrames_nodup.filter _) (stride_nodup (by decide) _ _)]
    intro f
    obtain ⟨hb, hl, _⟩ := hregular
    simp only [List.mem_filter, decide_eq_true_eq, mem_stride, Reserved, hbase]
    constructor
    · rintro ⟨hf, hlo, hhi⟩
      obtain ⟨_, _, _, hf, _⟩ := map.mem_usableFrames.mp hf
      exact ⟨(f - e.base) / 4096, by omega, by omega⟩
    · rintro ⟨i, hi, rfl⟩
      refine ⟨map.mem_usableFrames.mpr ⟨e, he, htype, by omega, by omega, by omega⟩, by omega, by omega⟩
  have hcount := List.length_eq_length_filter_add (l := map.usableFrames) fun f => decide (map.Reserved f)
  rw [hperm.length_eq, stride_length] at hcount
  simp only [unreservedFrames, decide_not]
  omega

end LimineMap

/-! ### Initialisation -/

theorem foldl_unless (excluded : Nat → Bool) (fs : List Nat) (s : FrameAllocator) :
    fs.foldl (fun s frame => if excluded frame then s else s.push frame) s =
      (fs.filter fun f => !excluded f).foldl FrameAllocator.push s := by
  induction fs generalizing s with
  | nil => rfl
  | cons f fs ih =>
      cases h : excluded f <;> simp [h, ih]

section

variable (map : LimineMap) (m : Nat → BitVec 64)

theorem LimineMap.frame_lt {f : Nat} (h : f ∈ map.usableFrames ∨ f ∈ map.reclaimableFrames) : f < 2 ^ 64 := by
  rcases h with hf | hf
  · obtain ⟨e, he, htype, _, _, hend⟩ := map.mem_usableFrames.mp hf
    have := (map.regular e he (Or.inl htype)).2.2
    omega
  · obtain ⟨e, he, htype, _, _, hend⟩ := map.mem_reclaimableFrames.mp hf
    have := (map.regular e he (Or.inr htype)).2.2
    omega

/-- After initialisation the stack holds the unreserved usable frames, the last one on top. -/
theorem frameAllocatorInit_spec (h : freeStackFramesBegin map.entries ≠ 0) :
    ∃ a free, frameAllocatorInit map.entries m = .ok a ∧
      Backs (freeStackFramesBegin map.entries) a free ∧ free.frames = map.unreservedFrames.reverse ∧
      free.capacity = map.usableFrames.length := by
  have hexclude : ∀ f, inExcludeRange [⟨freeStackFramesBegin map.entries, freeStackFramesEnd map.entries⟩] f =
      decide (map.Reserved f) := by
    intro f
    rw [map.freeStackFramesEnd_eq h, Bool.eq_iff_iff, decide_eq_true_iff]
    simp [inExcludeRange, LimineMap.Reserved]
  have hstart : Backs (freeStackFramesBegin map.entries)
      { mem := m, freeStack := ⟨freeStackFramesBegin map.entries, getNumAllocatableFrames map.entries, 0⟩ }
      ⟨[], map.usableFrames.length, Nat.zero_le _⟩ :=
    ⟨rfl, map.getNumAllocatableFrames_eq, rfl, fun w hw => by cases hw⟩
  have hbelow : ∀ f ∈ map.unreservedFrames, f < 2 ^ 64 :=
    fun f hf => map.frame_lt (Or.inl (List.mem_filter.mp hf).1)
  have hbacks := hstart.foldl_push hbelow
  obtain ⟨hframes, hcapacity⟩ := FreeStack.foldl_deallocateFrame map.unreservedFrames
    ⟨[], map.usableFrames.length, Nat.zero_le _⟩
  refine ⟨_, _, ?_, hbacks, ?_, hcapacity⟩
  · rw [frameAllocatorInit, if_neg h, FrameAllocator.fillFreeStack,
      sweepFrames_eq _ (fun e he hc => map.regular e he (Or.inl hc)), foldl_unless]
    simp only [hexclude, LimineMap.unreservedFrames, LimineMap.usableFrames, decide_not]
  · -- the capacity counts the reserved frames too, so nothing is dropped
    have hroom : map.unreservedFrames.length ≤ map.usableFrames.length := List.length_filter_le _ _
    rw [hframes, List.append_nil, List.take_of_length_le (by simpa using hroom)]

theorem frameAllocatorInit_logged {a : FrameAllocator} (hs : frameAllocatorInit map.entries m = .ok a) :
    a.Logged m := by
  unfold frameAllocatorInit at hs
  split at hs
  · cases hs
  · rw [FrameAllocator.fillFreeStack, sweepFrames_eq _ (fun e he hc => map.regular e he (Or.inl hc)),
      foldl_unless, Except.ok.injEq] at hs
    have hstart : FrameAllocator.Logged m { mem := m, freeStack :=
        ⟨freeStackFramesBegin map.entries, getNumAllocatableFrames map.entries, 0⟩ } := fun x _ => rfl
    exact hs ▸ hstart.foldl_push _

end

/-! ### Runs -/

inductive FrameOp where
  | allocate
  | deallocate (frame : Nat)
  | reclaim

/-- The allocator, the frames its clients hold, and whether the bootloader's
memory has been reclaimed. -/
structure FrameRun where
  allocator : FrameAllocator
  outstanding : List Nat := []
  reclaimed : Bool := false

def frameStep (map : List LimineMemmapEntry) (r : FrameRun) : FrameOp → Except Stop FrameRun
  | .allocate => do
      let (frame, a) ← r.allocator.allocateFrame
      return { r with allocator := a, outstanding := frame :: r.outstanding }
  | .deallocate frame =>
      .ok { r with allocator := r.allocator.deallocateFrame frame, outstanding := r.outstanding.erase frame }
  | .reclaim => do
      let a ← r.allocator.freeLimineBootloaderMemory map
      return { r with allocator := a, reclaimed := true }

/-- Clients give back frames that they hold, and the reclaim happens once. -/
def FrameOp.Allowed (r : FrameRun) : FrameOp → Prop
  | .allocate => True
  | .deallocate frame => frame ∈ r.outstanding
  | .reclaim => r.reclaimed = false

instance FrameOp.decidableAllowed (r : FrameRun) : (op : FrameOp) → Decidable (op.Allowed r)
  | .allocate => isTrue trivial
  | .deallocate frame => inferInstanceAs (Decidable (frame ∈ r.outstanding))
  | .reclaim => inferInstanceAs (Decidable (r.reclaimed = false))

/-- The frames that the allocator can ever have handed out so far. -/
def LimineMap.pool (map : LimineMap) (reclaimed : Bool) : List Nat :=
  map.unreservedFrames ++ if reclaimed then map.reclaimableFrames else []

/-- Frames on the stack and frames outstanding are distinct and from the pool. -/
structure Owns (map : LimineMap) (r : FrameRun) (free : FreeStack) : Prop where
  backs : Backs (freeStackFramesBegin map.entries) r.allocator free
  capacity : free.capacity = map.usableFrames.length
  nodup : (free.frames ++ r.outstanding).Nodup
  owned : ∀ f ∈ free.frames ++ r.outstanding, f ∈ map.pool r.reclaimed

section

variable {map : LimineMap} {r r' : FrameRun} {free : FreeStack}

theorem LimineMap.pool_lt {reclaimed : Bool} {f : Nat} (h : f ∈ map.pool reclaimed) : f < 2 ^ 64 := by
  rcases List.mem_append.mp h with hf | hf
  · exact map.frame_lt (Or.inl (List.mem_filter.mp hf).1)
  · cases reclaimed with
    | false => cases hf
    | true => exact map.frame_lt (Or.inr hf)

theorem frameStep_free (h : Owns map r free) {op : FrameOp} (hop : op.Allowed r)
    (hs : frameStep map.entries r op = .ok r') :
    ∃ free', Backs (freeStackFramesBegin map.entries) r'.allocator free' ∧ free'.capacity = free.capacity ∧
      match op with
      | .allocate => ∃ f, free.frames = f :: free'.frames ∧ r'.outstanding = f :: r.outstanding ∧
          r'.reclaimed = r.reclaimed
      | .deallocate f => free' = free.deallocateFrame f ∧ r'.outstanding = r.outstanding.erase f ∧
          r'.reclaimed = r.reclaimed
      | .reclaim => free'.frames =
            (map.reclaimableFrames.take (free.capacity - free.frames.length)).reverse ++ free.frames ∧
          r'.outstanding = r.outstanding ∧ r'.reclaimed = true := by
  cases op with
  | allocate =>
      obtain ⟨⟨f, a⟩, halloc, hs⟩ := bind_ok hs
      cases hs
      obtain ⟨free', hfree, hbacks⟩ := h.backs.allocate halloc
      obtain ⟨hframes, hcapacity⟩ := FreeStack.allocateFrame_ok hfree
      exact ⟨free', hbacks, hcapacity, f, hframes, rfl, rfl⟩
  | deallocate f =>
      cases hs
      have hf := LimineMap.pool_lt (h.owned f (List.mem_append_right _ hop))
      refine ⟨free.deallocateFrame f, h.backs.push hf, ?_, rfl, rfl, rfl⟩
      exact (FreeStack.foldl_deallocateFrame [f] free).2
  | reclaim =>
      obtain ⟨a, ha, hs⟩ := bind_ok hs
      cases hs
      rw [FrameAllocator.freeLimineBootloaderMemory,
        sweepFrames_eq _ (fun e he hc => map.regular e he (Or.inr hc)), Except.ok.injEq] at ha
      subst ha
      obtain ⟨hframes, hcapacity⟩ := FreeStack.foldl_deallocateFrame map.reclaimableFrames free
      exact ⟨_, h.backs.foldl_push fun f hf => map.frame_lt (Or.inr hf), hcapacity, hframes, rfl, rfl⟩

theorem frameStep_logged {m : Nat → BitVec 64} {op : FrameOp} (h : r.allocator.Logged m)
    (hs : frameStep map.entries r op = .ok r') : r'.allocator.Logged m := by
  cases op with
  | allocate =>
      obtain ⟨⟨f, a⟩, halloc, hs⟩ := bind_ok hs
      cases hs
      exact h.allocate halloc
  | deallocate f =>
      cases hs
      exact h.push f
  | reclaim =>
      obtain ⟨a, ha, hs⟩ := bind_ok hs
      cases hs
      rw [FrameAllocator.freeLimineBootloaderMemory,
        sweepFrames_eq _ (fun e he hc => map.regular e he (Or.inr hc)), Except.ok.injEq] at ha
      exact ha ▸ h.foldl_push map.reclaimableFrames

theorem pool_reclaimable_disjoint : (map.pool false).Disjoint map.reclaimableFrames := by
  intro f hf hr
  simp only [LimineMap.pool, Bool.false_eq_true, if_false, List.append_nil] at hf
  exact map.usable_disjoint_reclaimable (List.mem_filter.mp hf).1 hr

theorem frameStep_owns (h : Owns map r free) {op : FrameOp} (hop : op.Allowed r)
    (hs : frameStep map.entries r op = .ok r') : ∃ free', Owns map r' free' := by
  obtain ⟨free', hbacks, hcapacity, hstep⟩ := frameStep_free h hop hs
  suffices hboth : (free'.frames ++ r'.outstanding).Nodup ∧
      ∀ f ∈ free'.frames ++ r'.outstanding, f ∈ map.pool r'.reclaimed from
    ⟨free', hbacks, hcapacity.trans h.capacity, hboth.1, hboth.2⟩
  cases op with
  | allocate =>
      obtain ⟨f, hframes, hout, hreclaimed⟩ := hstep
      have hperm : (free'.frames ++ r'.outstanding).Perm (free.frames ++ r.outstanding) := by
        rw [hframes, hout]
        exact List.perm_middle
      exact ⟨hperm.nodup_iff.mpr h.nodup, fun g hg => hreclaimed ▸ h.owned g (hperm.mem_iff.mp hg)⟩
  | deallocate f =>
      obtain ⟨rfl, hout, hreclaimed⟩ := hstep
      have hperm : (f :: (free.frames ++ r'.outstanding)).Perm (free.frames ++ r.outstanding) := by
        rw [hout]
        exact List.perm_middle.symm.trans ((List.perm_cons_erase hop).symm.append_left free.frames)
      have hsub : ((free.deallocateFrame f).frames ++ r'.outstanding).Sublist
          (f :: (free.frames ++ r'.outstanding)) := by
        unfold FreeStack.deallocateFrame
        split
        · exact List.Sublist.refl _
        · exact List.sublist_cons_self _ _
      exact ⟨hsub.nodup (hperm.nodup_iff.mpr h.nodup),
        fun g hg => hreclaimed ▸ h.owned g (hperm.mem_iff.mp (hsub.subset hg))⟩
  | reclaim =>
      obtain ⟨hframes, hout, hreclaimed⟩ := hstep
      have hold : ∀ g ∈ free.frames ++ r.outstanding, g ∈ map.pool false := by
        intro g hg
        have hr : r.reclaimed = false := hop
        rw [← hr]
        exact h.owned g hg
      have hnew : ∀ g ∈ (map.reclaimableFrames.take (free.capacity - free.frames.length)).reverse,
          g ∈ map.reclaimableFrames := fun g hg => List.mem_of_mem_take (List.mem_reverse.mp hg)
      rw [hframes, hout, hreclaimed, List.append_assoc]
      refine ⟨List.nodup_append.mpr ⟨?_, h.nodup, ?_⟩, ?_⟩
      · exact List.nodup_reverse.mpr (map.reclaimableFrames_nodup.sublist (List.take_sublist _ _))
      · rintro g hg _ hg' rfl
        exact pool_reclaimable_disjoint (hold g hg') (hnew g hg)
      · intro g hg
        rcases List.mem_append.mp hg with hg | hg
        · exact List.mem_append_right _ (hnew g hg)
        · exact List.mem_append_left _ (by simpa [LimineMap.pool] using hold g hg)

theorem LimineMap.mem_pool (hregion : freeStackFramesBegin map.entries ≠ 0) {reclaimed : Bool} {f : Nat}
    (h : f ∈ map.pool reclaimed) :
    (∃ e ∈ map.entries, (isAllocatable e ∨ (reclaimed ∧ isReclaimable e)) ∧ e.HasFrame f) ∧
      ¬ map.Reserved f := by
  rcases List.mem_append.mp h with hf | hf
  · obtain ⟨hu, hres⟩ := List.mem_filter.mp hf
    obtain ⟨e, he, htype, hframe⟩ := map.mem_usableFrames.mp hu
    exact ⟨⟨e, he, Or.inl htype, hframe⟩, by simpa using hres⟩
  · cases reclaimed with
    | false => cases hf
    | true =>
        obtain ⟨e, he, htype, hframe⟩ := map.mem_reclaimableFrames.mp hf
        refine ⟨⟨e, he, Or.inr ⟨rfl, htype⟩, hframe⟩, ?_⟩
        rintro ⟨hlo, hhi⟩
        -- a reserved frame is usable, and no entry is both
        obtain ⟨e', he', htype', hregular, hbase, hlength⟩ := map.reservation_spec hregion
        have hb := hregular.1
        have hl := hregular.2.1
        have hf₁ := hframe.1
        exact map.usable_disjoint_reclaimable
          (map.mem_usableFrames.mpr ⟨e', he', htype', hf₁, by omega, by omega⟩) hf

theorem run_owns {a : FrameAllocator} {free : FreeStack} {ops : List FrameOp}
    (ha : Backs (freeStackFramesBegin map.entries) a free)
    (hframes : free.frames = map.unreservedFrames.reverse) (hcapacity : free.capacity = map.usableFrames.length)
    (hrun : Run (frameStep map.entries) FrameOp.Allowed { allocator := a } ops r) :
    ∃ free', Owns map r free' := by
  refine hrun.invariant (I := fun r => ∃ free, Owns map r free) ?_ ⟨free, ha, hcapacity, ?_, ?_⟩
  · rintro s op t ⟨free₁, h⟩ hop hs
    exact frameStep_owns h hop hs
  · rw [hframes, List.append_nil, List.nodup_reverse]
    exact map.usableFrames_nodup.filter _
  · rw [hframes, List.append_nil]
    intro f hf
    exact List.mem_append_left _ (List.mem_reverse.mp hf)

theorem Owns.writes_reserved (h : Owns map r free) {w : Nat} (hw : w ∈ r.allocator.writes) :
    map.Reserved w ∧ map.Reserved (w + 7) := by
  obtain ⟨i, hi, rfl⟩ := h.backs.writes w hw
  have hslots := numFreeStackFrames_eq map.entries
  rw [map.getNumAllocatableFrames_eq] at hslots
  rw [h.capacity] at hi
  unfold LimineMap.Reserved
  omega

end

/-- Ownership of frames: initialisation puts exactly the usable frames outside
the reservation on the stack, and over any run no frame is in two hands, none is
from elsewhere, and the stack writes only to the frames reserved for it: every
word outside them is as it was before the initialisation. -/
theorem frame_ownership (map : LimineMap) (m : Nat → BitVec 64)
    (hregion : freeStackFramesBegin map.entries ≠ 0) :
    ∃ a, frameAllocatorInit map.entries m = .ok a ∧
      (∀ f, f ∈ a.freeStack.contents a.mem ↔
        (∃ e ∈ map.entries, isAllocatable e ∧ e.HasFrame f) ∧ ¬ map.Reserved f) ∧
      ∀ ops r, Run (frameStep map.entries) FrameOp.Allowed { allocator := a } ops r →
        (∀ f a', r.allocator.allocateFrame = .ok (f, a') → f ∉ r.outstanding) ∧
        (r.allocator.freeStack.contents r.allocator.mem ++ r.outstanding).Nodup ∧
        (∀ f ∈ r.allocator.freeStack.contents r.allocator.mem ++ r.outstanding,
          (∃ e ∈ map.entries, (isAllocatable e ∨ (r.reclaimed ∧ isReclaimable e)) ∧ e.HasFrame f) ∧
            ¬ map.Reserved f) ∧
        (∀ w ∈ r.allocator.writes, map.Reserved w ∧ map.Reserved (w + 7)) ∧
        ∀ x, ¬ map.Reserved x → r.allocator.mem x = m x := by
  obtain ⟨a, free, hinit, hbacks, hframes, hcapacity⟩ := frameAllocatorInit_spec map m hregion
  refine ⟨a, hinit, ?_, ?_⟩
  · intro f
    rw [hbacks.contents, hframes, List.mem_reverse, LimineMap.unreservedFrames, List.mem_filter,
      map.mem_usableFrames, decide_eq_true_iff]
  · intro ops r hrun
    obtain ⟨free', h⟩ := run_owns hbacks hframes hcapacity hrun
    rw [h.backs.contents]
    refine ⟨?_, h.nodup, fun f hf => LimineMap.mem_pool hregion (h.owned f hf),
      fun w hw => h.writes_reserved hw, ?_⟩
    · intro f a' halloc hout
      obtain ⟨free₂, hfree₂, _⟩ := h.backs.allocate halloc
      have hnodup := h.nodup
      rw [(FreeStack.allocateFrame_ok hfree₂).1, List.cons_append] at hnodup
      exact (List.nodup_cons.mp hnodup).1 (List.mem_append_right _ hout)
    · intro x hx
      have hlogged : r.allocator.Logged m :=
        hrun.invariant (I := fun r => r.allocator.Logged m) (fun _ _ _ h _ hs => frameStep_logged h hs)
          (frameAllocatorInit_logged map m hinit)
      exact hlogged x fun hw => hx (h.writes_reserved hw).1

/-- Two usable entries around the bootloader's one. -/
def smallMap : LimineMap where
  entries := [⟨0x1000, 0x3000, .usable⟩, ⟨0x4000, 0x2000, .bootloaderReclaimable⟩, ⟨0x8000, 0x2000, .usable⟩]
  regular := by
    simp only [List.forall_mem_cons]
    unfold LimineMemmapEntry.Regular
    decide
  apart := by
    have h : [(⟨0x1000, 0x3000, .usable⟩ : LimineMemmapEntry), ⟨0x4000, 0x2000, .bootloaderReclaimable⟩,
        ⟨0x8000, 0x2000, .usable⟩].Pairwise fun a b =>
          a.base + a.length ≤ b.base ∨ b.base + b.length ≤ a.base := by decide
    exact h.imp fun hab _ _ => LimineMemmapEntry.Apart.of_le hab

/-- What the clients hold after some operations on a fresh allocator. -/
def outstandingAfter (map : List LimineMemmapEntry) (m : Nat → BitVec 64) (ops : List FrameOp) :
    Option (List Nat) :=
  match frameAllocatorInit map m with
  | .ok a => (replay (frameStep map) FrameOp.Allowed { allocator := a } ops).map FrameRun.outstanding
  | .error _ => none

/-- Two frames are handed out, one comes back and leaves again, and after the
reclaim the bootloader's last frame is on top. -/
def smallOps : List FrameOp := [.allocate, .allocate, .deallocate 0x9000, .allocate, .reclaim, .allocate]

theorem frame_ownership_small_map : ∃ a r, frameAllocatorInit smallMap.entries (fun _ => 0#64) = .ok a ∧
    0x2000 ∈ a.freeStack.contents a.mem ∧ 0x1000 ∉ a.freeStack.contents a.mem ∧
    Run (frameStep smallMap.entries) FrameOp.Allowed { allocator := a } smallOps r ∧
    r.outstanding = [0x5000, 0x9000, 0x8000] ∧ 0x9000 ∉ r.allocator.freeStack.contents r.allocator.mem ∧
    r.allocator.mem 0x2000 = 0#64 := by
  obtain ⟨a, hinit, hcontents, hruns⟩ := frame_ownership smallMap (fun _ => 0#64) (by decide)
  have hafter : outstandingAfter smallMap.entries (fun _ => 0#64) smallOps = some [0x5000, 0x9000, 0x8000] := by
    decide +kernel
  rw [outstandingAfter, hinit] at hafter
  obtain ⟨r, hr, hout⟩ := Option.map_eq_some_iff.mp hafter
  have hrun := replay_run hr
  obtain ⟨_, hnodup, _, _, hmem⟩ := hruns smallOps r hrun
  refine ⟨a, r, hinit, (hcontents 0x2000).mpr ⟨?_, by decide⟩, fun h => ((hcontents 0x1000).mp h).2 (by decide),
    hrun, hout, fun h => ?_, hmem 0x2000 (by decide)⟩
  · exact ⟨⟨0x1000, 0x3000, .usable⟩, by decide, by decide, by decide, by decide, by decide⟩
  · exact (List.nodup_append.mp hnodup).2.2 _ h _ (by rw [hout]; decide) rfl

end DavOS
