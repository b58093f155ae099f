import Mathlib.Data.List.Perm.Subperm
import DavOS.FreeListAllocator
import DavOS.LinkedSegment

/-! The free list as a list of blocks. Only `size` and `next` matter here; the
previous pointers are whatever earlier operations left in them. -/
namespace DavOS
open MachineWord ByteMemory LinkedSegment

/-! ### Header fields -/

namespace FreeBlockHeader

variable {m : VirtualMemory} {x b v : Nat}

/-- Two headers do not overlap. -/
def Clear (x b : Nat) : Prop := x + 24 ≤ b ∨ b + 24 ≤ x

theorem size_setSize (hv : v < 2 ^ 64) : size (setSize m b v) b = v := load64_store64 m hv

theorem next_setNext (hv : v < 2 ^ 64) : next (setNext m b v) b = v := load64_store64 m hv

theorem prev_setPrev (hv : v < 2 ^ 64) : prev (setPrev m b v) b = v := load64_store64 m hv

theorem size_setSize_of_clear (h : Clear x b) : size (setSize m b v) x = size m x :=
  load64_store64_of_disjoint m (by unfold Clear at h; omega)

theorem next_setNext_of_clear (h : Clear x b) : next (setNext m b v) x = next m x :=
  load64_store64_of_disjoint m (by unfold Clear at h; omega)

theorem prev_setPrev_of_clear (h : Clear x b) : prev (setPrev m b v) x = prev m x :=
  load64_store64_of_disjoint m (by unfold Clear at h; omega)

theorem size_setNext (h : x = b ∨ Clear x b) : size (setNext m b v) x = size m x :=
  load64_store64_of_disjoint m (by unfold Clear at h; omega)

theorem size_setPrev (h : x = b ∨ Clear x b) : size (setPrev m b v) x = size m x :=
  load64_store64_of_disjoint m (by unfold Clear at h; omega)

theorem next_setSize (h : x = b ∨ Clear x b) : next (setSize m b v) x = next m x :=
  load64_store64_of_disjoint m (by unfold Clear at h; omega)

theorem next_setPrev (h : x = b ∨ Clear x b) : next (setPrev m b v) x = next m x :=
  load64_store64_of_disjoint m (by unfold Clear at h; omega)

theorem prev_setSize (h : x = b ∨ Clear x b) : prev (setSize m b v) x = prev m x :=
  load64_store64_of_disjoint m (by unfold Clear at h; omega)

theorem prev_setNext (h : x = b ∨ Clear x b) : prev (setNext m b v) x = prev m x :=
  load64_store64_of_disjoint m (by unfold Clear at h; omega)

theorem set_other (h : x < b ∨ b + 24 ≤ x) :
    setSize m b v x = m x ∧ setNext m b v x = m x ∧ setPrev m b v x = m x :=
  ⟨store64_other m (by omega), store64_other m (by omega), store64_other m (by omega)⟩

end FreeBlockHeader

/-! ### Blocks -/

/-- A free block: where its header is, and the size that the header gives. -/
structure Block where
  addr : Nat
  size : Nat
  deriving DecidableEq

/-- One past the last byte of the block. -/
def Block.stop (b : Block) : Nat := b.addr + 24 + b.size

/-- The bytes of the block, header included. -/
def Block.Has (b : Block) (x : Nat) : Prop := b.addr ≤ x ∧ x < b.stop

/-- The bytes of a list of blocks. -/
def Covered (L : List Block) (x : Nat) : Prop := ∃ b ∈ L, b.Has x

/-- Blocks in increasing order that neither overlap nor pass the end of memory. -/
structure Ordered (L : List Block) : Prop where
  nonnull : ∀ b ∈ L, b.addr ≠ 0
  bounded : ∀ b ∈ L, b.stop ≤ 2 ^ 64
  sorted : L.Pairwise fun a b => a.stop ≤ b.addr

/-- The next pointers from `head` on spell the list, and the headers its sizes. -/
structure Chained (m : VirtualMemory) (head : Nat) (L : List Block) : Prop where
  links : Segment (FreeBlockHeader.next m) head (L.map Block.addr) 0
  sizes : ∀ b ∈ L, FreeBlockHeader.size m b.addr = b.size

section

variable {m m' : VirtualMemory} {head : Nat} {L before after : List Block} {a b u : Block}

theorem Ordered.sublist (h : Ordered L) {L' : List Block} (hs : L'.Sublist L) : Ordered L' :=
  ⟨fun b hb => h.nonnull b (hs.subset hb), fun b hb => h.bounded b (hs.subset hb), h.sorted.sublist hs⟩

theorem Ordered.clear (h : Ordered L) (ha : a ∈ L) (hb : b ∈ L) :
    a.addr = b.addr ∨ FreeBlockHeader.Clear a.addr b.addr := by
  by_cases hab : a = b
  · exact Or.inl (congrArg Block.addr hab)
  · have hsymm : Std.Symm fun a b : Block => FreeBlockHeader.Clear a.addr b.addr :=
      ⟨fun _ _ => Or.symm⟩
    have hclear : L.Pairwise fun a b => FreeBlockHeader.Clear a.addr b.addr := by
      refine h.sorted.imp ?_
      intro a b hle
      unfold Block.stop at hle
      exact Or.inl (by omega)
    exact Or.inr (hclear.forall ha hb hab)

theorem ordered_append_cons :
    Ordered (before ++ u :: after) ↔ Ordered (before ++ after) ∧ u.addr ≠ 0 ∧ u.stop ≤ 2 ^ 64 ∧
      (∀ b ∈ before, b.stop ≤ u.addr) ∧ ∀ b ∈ after, u.stop ≤ b.addr := by
  constructor
  · intro h
    have hsorted := List.pairwise_append.mp h.sorted
    refine ⟨h.sublist (List.Sublist.append_left (List.sublist_cons_self u after) before),
      h.nonnull u (by simp), h.bounded u (by simp), ?_, ?_⟩
    · exact fun b hb => hsorted.2.2 b hb u List.mem_cons_self
    · exact fun b hb => (List.pairwise_cons.mp hsorted.2.1).1 b hb
  · rintro ⟨h, hnull, hstop, hbefore, hafter⟩
    have hsorted := List.pairwise_append.mp h.sorted
    have hmem : ∀ b ∈ before ++ u :: after, b = u ∨ b ∈ before ++ after := by
      intro b hb
      simp only [List.mem_append, List.mem_cons] at hb ⊢
      tauto
    refine ⟨?_, ?_, ?_⟩
    · intro b hb
      rcases hmem b hb with rfl | hb
      · exact hnull
      · exact h.nonnull b hb
    · intro b hb
      rcases hmem b hb with rfl | hb
      · exact hstop
      · exact h.bounded b hb
    · refine List.pairwise_append.mpr ⟨hsorted.1, List.pairwise_cons.mpr ⟨hafter, hsorted.2.1⟩, ?_⟩
      intro b hb c hc
      rcases List.mem_cons.mp hc with rfl | hc
      · exact hbefore b hb
      · exact hsorted.2.2 b hb c hc

theorem Ordered.split (h : Ordered L) (hu : ∀ b ∈ L, b.stop ≤ u.addr ∨ u.stop ≤ b.addr) :
    ∃ before after, L = before ++ after ∧ (∀ b ∈ before, b.stop ≤ u.addr) ∧ ∀ b ∈ after, u.stop ≤ b.addr := by
  induction L with
  | nil => exact ⟨[], [], rfl, by simp, by simp⟩
  | cons b L ih =>
      have hrest := List.pairwise_cons.mp h.sorted
      rcases hu b List.mem_cons_self with hlow | hhigh
      · obtain ⟨before, after, rfl, hbefore, hafter⟩ := ih (h.sublist (List.sublist_cons_self b L))
          fun c hc => hu c (List.mem_cons_of_mem b hc)
        refine ⟨b :: before, after, rfl, ?_, hafter⟩
        intro c hc
        rcases List.mem_cons.mp hc with rfl | hc
        · exact hlow
        · exact hbefore c hc
      · refine ⟨[], b :: L, rfl, by simp, ?_⟩
        intro c hc
        rcases List.mem_cons.mp hc with rfl | hc
        · exact hhigh
        · have := hrest.1 c hc
          unfold Block.stop at this hhigh ⊢
          omega

/-- Headers take 24 bytes each, so a list has fewer blocks than loops have rounds. -/
theorem Ordered.length_lt (h : Ordered L) : L.length < loopFuel := by
  have hnodup : (L.map fun b => b.addr / 2).Nodup := by
    rw [List.nodup_map_iff_inj_on]
    · intro a ha b hb hab
      by_contra hne
      have hsymm : Std.Symm fun a b : Block => a.addr / 2 ≠ b.addr / 2 := ⟨fun _ _ => Ne.symm⟩
      have hpair : L.Pairwise fun a b => a.addr / 2 ≠ b.addr / 2 := by
        refine h.sorted.imp ?_
        intro a b hle
        unfold Block.stop at hle
        omega
      exact hpair.forall ha hb hne hab
    · refine h.sorted.imp ?_
      rintro a b hle rfl
      unfold Block.stop at hle
      omega
  have hsubset : (L.map fun b => b.addr / 2) ⊆ List.range (2 ^ 63) := by
    intro n hn
    obtain ⟨b, hb, rfl⟩ := List.mem_map.mp hn
    have := h.bounded b hb
    unfold Block.stop at this
    exact List.mem_range.mpr (by omega)
  have hle := (List.subperm_of_subset hnodup hsubset).length_le
  rw [List.length_map, List.length_range] at hle
  unfold loopFuel
  omega

theorem Chained.congr (h : Chained m head L)
    (hm : ∀ b ∈ L, FreeBlockHeader.size m' b.addr = FreeBlockHeader.size m b.addr ∧
      FreeBlockHeader.next m' b.addr = FreeBlockHeader.next m b.addr) : Chained m' head L := by
  refine ⟨h.links.congr ?_, fun b hb => (hm b hb).1.trans (h.sizes b hb)⟩
  intro x hx
  obtain ⟨b, hb, rfl⟩ := List.mem_map.mp hx
  exact (hm b hb).2

theorem Chained.map_size (h : Chained m head L) :
    (L.map Block.addr).map (fun x => Block.mk x (FreeBlockHeader.size m x)) = L := by
  rw [List.map_map]
  nth_rewrite 2 [← List.map_id L]
  refine List.map_congr_left fun b hb => ?_
  simp only [Function.comp, h.sizes b hb, id]

theorem Chained.unique {L' : List Block} (h : Chained m head L) (h' : Chained m head L')
    (hL : ∀ b ∈ L, b.addr ≠ 0) (hL' : ∀ b ∈ L', b.addr ≠ 0) : L = L' := by
  have haddrs : L.map Block.addr = L'.map Block.addr := by
    refine h.links.unique h'.links ?_ ?_
    · simpa only [List.forall_mem_map] using hL
    · simpa only [List.forall_mem_map] using hL'
  rw [← h.map_size, ← h'.map_size, haddrs]

end

end DavOS
