import Mathlib.Data.List.Perm.Subperm
import DavOS.FrameStack

/-! `frame_allocator.cpp`: the stack of free frames is laid out in frames that
are taken from the Limine memory map, filled from the usable entries, and later
extended by the bootloader's own. -/
namespace DavOS
open MachineWord kernelConstants

/-- The entry types of the Limine memory map. -/
inductive MemmapType where
  | usable
  | reserved
  | acpiReclaimable
  | acpiNvs
  | badMemory
  | bootloaderReclaimable
  | kernelAndModules
  | framebuffer
  deriving DecidableEq, Repr

structure LimineMemmapEntry where
  base : Nat
  length : Nat
  type : MemmapType
  deriving DecidableEq, Repr

def isAllocatable (entry : LimineMemmapEntry) : Bool := entry.type == .usable

def isReclaimable (entry : LimineMemmapEntry) : Bool := entry.type == .bootloaderReclaimable

def getNumAllocatableFrames (map : List LimineMemmapEntry) : Nat :=
  map.foldl (fun n entry => if isAllocatable entry then wrap (n + entry.length / frameSize) else n) 0

def ceilDiv (dividend divisor : Nat) : Nat :=
  dividend / divisor + if dividend % divisor ≠ 0 then 1 else 0

/-- The base of the first usable entry that is long enough, or 0. -/
def manuallyReserveContiguousFrames (map : List LimineMemmapEntry) (numFrames : Nat) : Nat :=
  match map.find? fun entry => isAllocatable entry && decide (wrap (numFrames * frameSize) ≤ entry.length) with
  | some entry => entry.base
  | none => 0

structure FrameRange where
  begin_ : Nat
  end_ : Nat

def inExcludeRange (excludeRanges : List FrameRange) (frame : Nat) : Bool :=
  excludeRanges.any fun range => decide (range.begin_ ≤ frame) && decide (frame < range.end_)

/-- The two nested loops over the frames of the chosen entries. -/
def sweepFrames {σ : Type} (chosen : LimineMemmapEntry → Bool) (visit : σ → Nat → σ)
    (map : List LimineMemmapEntry) (s : σ) : Except Stop σ :=
  map.foldlM (fun s entry =>
    if chosen entry then do
      let endOfEntry := wrap (entry.base + entry.length)
      let frames ← orHang (strideWhile (fun frame => decide (frame < endOfEntry)) frameSize loopFuel entry.base)
      return frames.foldl visit s
    else return s) s

/-- The allocator: the stack of free frames and the memory that holds its slots.
`writes` records where `push` has stored; no function of the source reads it. -/
structure FrameAllocator where
  mem : Nat → BitVec 64
  freeStack : NonOwningStack
  writes : List Nat := []

namespace FrameAllocator

def push (s : FrameAllocator) (frame : Nat) : FrameAllocator where
  mem := (s.freeStack.push s.mem frame).1
  freeStack := (s.freeStack.push s.mem frame).2
  writes := if s.freeStack.full then s.writes else s.freeStack.slot s.freeStack.size :: s.writes

def allocateFrame (s : FrameAllocator) : Except Stop (Nat × FrameAllocator) :=
  if s.freeStack.empty then .error (.panic "ran out of physical memory to allocate!")
  else .ok (s.freeStack.top s.mem, { s with freeStack := s.freeStack.pop })

def deallocateFrame (s : FrameAllocator) (frame : Nat) : FrameAllocator := s.push frame

def fillFreeStack (map : List LimineMemmapEntry) (excludeRanges : List FrameRange) :
    FrameAllocator → Except Stop FrameAllocator :=
  sweepFrames isAllocatable (fun s frame => if inExcludeRange excludeRanges frame then s else s.push frame) map

/-- The reclaim leaves the capacity of the stack as `frame_allocator_init` set it. -/
def freeLimineBootloaderMemory (map : List LimineMemmapEntry) : FrameAllocator → Except Stop FrameAllocator :=
  sweepFrames isReclaimable deallocateFrame map

end FrameAllocator

/-- Frames that the stack needs for its own slots, eight bytes each. -/
def numFreeStackFrames (map : List LimineMemmapEntry) : Nat :=
  ceilDiv (getNumAllocatableFrames map) (ceilDiv frameSize 8)

def freeStackFramesBegin (map : List LimineMemmapEntry) : Nat :=
  manuallyReserveContiguousFrames map (numFreeStackFrames map)

/-- One past the end of the frames of the stack. -/
def freeStackFramesEnd (map : List LimineMemmapEntry) : Nat :=
  wrap (freeStackFramesBegin map + wrap (numFreeStackFrames map * frameSize))

def frameAllocatorInit (map : List LimineMemmapEntry) (m : Nat → BitVec 64) : Except Stop FrameAllocator :=
  if freeStackFramesBegin map = 0 then
    .error (.panic "not enough contiguous space for the free stack frame allocator")
  else
    FrameAllocator.fillFreeStack map [⟨freeStackFramesBegin map, freeStackFramesEnd map⟩]
      { mem := m, freeStack := ⟨freeStackFramesBegin map, getNumAllocatableFrames map, 0⟩ }

/-! ### The frames of the map -/

namespace LimineMemmapEntry

/-- The frames of an entry, in the order the loops visit them. -/
def frames (entry : LimineMemmapEntry) : List Nat := stride 4096 entry.base (entry.length / 4096)

/-- `f` is a whole frame of the entry. -/
def HasFrame (entry : LimineMemmapEntry) (f : Nat) : Prop :=
  f % 4096 = 0 ∧ entry.base ≤ f ∧ f + 4096 ≤ entry.base + entry.length

/-- Both ends are on frame boundaries and the end does not wrap. -/
def Regular (entry : LimineMemmapEntry) : Prop :=
  entry.base % 4096 = 0 ∧ entry.length % 4096 = 0 ∧ entry.base + entry.length < 2 ^ 64

/-- No byte is in both entries. -/
def Apart (a b : LimineMemmapEntry) : Prop :=
  ∀ x, ¬ (a.base ≤ x ∧ x < a.base + a.length ∧ b.base ≤ x ∧ x < b.base + b.length)

theorem Apart.symm {a b : LimineMemmapEntry} (h : a.Apart b) : b.Apart a :=
  fun x hx => h x ⟨hx.2.2.1, hx.2.2.2, hx.1, hx.2.1⟩

theorem Apart.of_le {a b : LimineMemmapEntry}
    (h : a.base + a.length ≤ b.base ∨ b.base + b.length ≤ a.base) : a.Apart b := by
  intro x hx
  omega

theorem mem_frames {entry : LimineMemmapEntry} (h : entry.Regular) (f : Nat) :
    f ∈ entry.frames ↔ entry.HasFrame f := by
  obtain ⟨hbase, hlength, _⟩ := h
  rw [frames, mem_stride]
  constructor
  · rintro ⟨i, hi, rfl⟩
    refine ⟨by omega, by omega, by omega⟩
  · rintro ⟨hf, hlo, hhi⟩
    exact ⟨(f - entry.base) / 4096, by omega, by omega⟩

theorem frames_disjoint {a b : LimineMemmapEntry} (ha : a.Regular) (hb : b.Regular) (h : a.Apart b) :
    a.frames.Disjoint b.frames := by
  intro f hfa hfb
  obtain ⟨_, ha₁, ha₂⟩ := (mem_frames ha f).mp hfa
  obtain ⟨_, hb₁, hb₂⟩ := (mem_frames hb f).mp hfb
  exact h f ⟨ha₁, by omega, hb₁, by omega⟩

end LimineMemmapEntry

/-- What the Limine protocol promises about the entries the kernel takes frames from. -/
structure LimineMap where
  entries : List LimineMemmapEntry
  regular : ∀ e ∈ entries, isAllocatable e ∨ isReclaimable e → e.Regular
  apart : entries.Pairwise fun a b =>
    isAllocatable a ∨ isReclaimable a → isAllocatable b ∨ isReclaimable b → a.Apart b

/-- The frames of the chosen entries, in the order of the map. -/
def framesOf (chosen : LimineMemmapEntry → Bool) (map : List LimineMemmapEntry) : List Nat :=
  (map.filter chosen).flatMap LimineMemmapEntry.frames

theorem framesOf_cons (chosen : LimineMemmapEntry → Bool) (e : LimineMemmapEntry)
    (map : List LimineMemmapEntry) :
    framesOf chosen (e :: map) = (if chosen e then e.frames else []) ++ framesOf chosen map := by
  unfold framesOf
  by_cases h : chosen e <;> simp [h]

namespace LimineMap

variable (map : LimineMap)

def usableFrames : List Nat := framesOf isAllocatable map.entries

def reclaimableFrames : List Nat := framesOf isReclaimable map.entries

theorem mem_framesOf {chosen : LimineMemmapEntry → Bool}
    (hchosen : ∀ e, chosen e → isAllocatable e ∨ isReclaimable e) {f : Nat} :
    f ∈ framesOf chosen map.entries ↔ ∃ e ∈ map.entries, chosen e ∧ e.HasFrame f := by
  simp only [framesOf, List.mem_flatMap, List.mem_filter]
  constructor
  · rintro ⟨e, ⟨he, hc⟩, hf⟩
    exact ⟨e, he, hc, (LimineMemmapEntry.mem_frames (map.regular e he (hchosen e hc)) f).mp hf⟩
  · rintro ⟨e, he, hc, hf⟩
    exact ⟨e, ⟨he, hc⟩, (LimineMemmapEntry.mem_frames (map.regular e he (hchosen e hc)) f).mpr hf⟩

theorem framesOf_nodup {chosen : LimineMemmapEntry → Bool}
    (hchosen : ∀ e, chosen e → isAllocatable e ∨ isReclaimable e) :
    (framesOf chosen map.entries).Nodup := by
  rw [framesOf, List.nodup_flatMap]
  refine ⟨fun e _ => stride_nodup (by decide) _ _, ?_⟩
  have hregular := fun e (he : e ∈ map.entries.filter chosen) =>
    map.regular e (List.mem_filter.mp he).1 (hchosen e (List.mem_filter.mp he).2)
  refine (map.apart.filter chosen).imp_of_mem ?_
  intro a b ha hb hab
  exact LimineMemmapEntry.frames_disjoint (hregular a ha) (hregular b hb)
    (hab (hchosen a (List.mem_filter.mp ha).2) (hchosen b (List.mem_filter.mp hb).2))

theorem usableFrames_nodup : map.usableFrames.Nodup := map.framesOf_nodup fun _ h => Or.inl h

theorem reclaimableFrames_nodup : map.reclaimableFrames.Nodup := map.framesOf_nodup fun _ h => Or.inr h

theorem usable_disjoint_reclaimable : map.usableFrames.Disjoint map.reclaimableFrames := by
  intro f hu hr
  obtain ⟨a, ha, hta, hfa⟩ := (map.mem_framesOf fun _ h => Or.inl h).mp hu
  obtain ⟨b, hb, htb, hfb⟩ := (map.mem_framesOf fun _ h => Or.inr h).mp hr
  have hne : a ≠ b := by
    rintro rfl
    simp only [isAllocatable, isReclaimable, beq_iff_eq] at hta htb
    rw [hta] at htb
    cases htb
  have hsymm : Std.Symm fun a b : LimineMemmapEntry =>
      isAllocatable a ∨ isReclaimable a → isAllocatable b ∨ isReclaimable b → a.Apart b :=
    ⟨fun _ _ h h₁ h₂ => (h h₂ h₁).symm⟩
  have hapart := map.apart.forall ha hb hne (Or.inl hta) (Or.inr htb)
  obtain ⟨_, ha₁, ha₂⟩ := hfa
  obtain ⟨_, hb₁, hb₂⟩ := hfb
  exact hapart f ⟨ha₁, by omega, hb₁, by omega⟩

/-- Distinct frame addresses below the end of the address space are fewer than `2 ^ 52`. -/
theorem framesOf_length_le {chosen : LimineMemmapEntry → Bool}
    (hchosen : ∀ e, chosen e → isAllocatable e ∨ isReclaimable e) :
    (framesOf chosen map.entries).length ≤ 2 ^ 52 := by
  have haligned : ∀ f ∈ framesOf chosen map.entries, f % 4096 = 0 ∧ f < 2 ^ 64 := by
    intro f hf
    obtain ⟨e, he, hc, hf₁, hf₂, hf₃⟩ := (map.mem_framesOf hchosen).mp hf
    have := (map.regular e he (hchosen e hc)).2.2
    exact ⟨hf₁, by omega⟩
  have hnodup : ((framesOf chosen map.entries).map (· / 4096)).Nodup := by
    refine (map.framesOf_nodup hchosen).map_on ?_
    intro f hf g hg hfg
    have h₁ := (haligned f hf).1
    have h₂ := (haligned g hg).1
    omega
  have hsubset : (framesOf chosen map.entries).map (· / 4096) ⊆ List.range (2 ^ 52) := by
    intro n hn
    obtain ⟨f, hf, rfl⟩ := List.mem_map.mp hn
    have := (haligned f hf).2
    exact List.mem_range.mpr (by omega)
  have hle := (List.subperm_of_subset hnodup hsubset).length_le
  rwa [List.length_map, List.length_range] at hle

end LimineMap

/-! ### The loops over the map -/

theorem sweepFrames_eq {σ : Type} {chosen : LimineMemmapEntry → Bool} (visit : σ → Nat → σ)
    {map : List LimineMemmapEntry} (hmap : ∀ e ∈ map, chosen e → e.Regular) (s : σ) :
    sweepFrames chosen visit map s = .ok ((framesOf chosen map).foldl visit s) := by
  induction map generalizing s with
  | nil => rfl
  | cons e map ih =>
      have hrest := ih fun e' he' => hmap e' (List.mem_cons_of_mem e he')
      unfold sweepFrames at hrest ⊢
      rw [List.foldlM_cons, framesOf_cons, List.foldl_append]
      by_cases hc : chosen e
      · obtain ⟨_, hlength, hend⟩ := hmap e List.mem_cons_self hc
        have hloop : strideWhile (fun frame => decide (frame < e.base + e.length)) frameSize loopFuel e.base =
            some (stride frameSize e.base (e.length / 4096)) :=
          strideWhile_lt (by decide) (by simp only [frameSize]; omega) hend
        rw [if_pos hc, if_pos hc]
        simp only [wrap_of_lt hend, hloop, orHang_some]
        exact hrest _
      · rw [if_neg hc, if_neg hc]
        exact hrest s

theorem foldl_wrap_add (chosen : LimineMemmapEntry → Bool) (map : List LimineMemmapEntry) (n : Nat)
    (h : n + (framesOf chosen map).length < 2 ^ 64) :
    map.foldl (fun n entry => if chosen entry then wrap (n + entry.length / frameSize) else n) n =
      n + (framesOf chosen map).length := by
  induction map generalizing n with
  | nil => rfl
  | cons e map ih =>
      rw [framesOf_cons, List.length_append] at h ⊢
      rw [List.foldl_cons]
      by_cases hc : chosen e
      · have hlength : e.frames.length = e.length / 4096 := stride_length _ _ _
        simp only [hc, if_true, hlength, frameSize] at h ⊢
        rw [wrap_of_lt (by omega)]
        exact (ih _ (by omega)).trans (Nat.add_assoc _ _ _)
      · simp only [hc, if_false, List.length_nil, Nat.zero_add, Bool.false_eq_true] at h ⊢
        exact ih n h

theorem LimineMap.getNumAllocatableFrames_eq (map : LimineMap) :
    getNumAllocatableFrames map.entries = map.usableFrames.length := by
  have hle : (framesOf isAllocatable map.entries).length ≤ 2 ^ 52 := map.framesOf_length_le fun _ h => Or.inl h
  exact (foldl_wrap_add isAllocatable map.entries 0 (by omega)).trans (Nat.zero_add _)

end DavOS
