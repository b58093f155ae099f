import DavOS.HeapRuns
import DavOS.PageFault

/-! `vmm.cpp` over the page tree: `vmalloc` hands out virtual memory, page
faults put frames behind its pages, and `vfree` gives back one frame, the one
behind the page of the pointer. -/
namespace DavOS
open MachineWord PathGraph kernelConstants

/-- The allocator's heap and the paging state behind it. `given` records the freed
pointers whose page has lost its frame and got no other since; no function reads it. -/
structure VmmState where
  heap : HeapState
  paging : PagingState
  given : List Nat := []

/-- The pages of `given` that a fault at `address` does not map anew. -/
def stillGiven (address : Nat) (given : List Nat) : List Nat :=
  given.filter fun p => ∀ page ∈ faultPages address, ¬ SamePage p page

/-- A byte whose page is mapped and gets another frame when `address` faults. -/
def Moved (offset root : Nat) (s : PagingState) (address x : Nat) : Prop :=
  Mapped offset root s x ∧ ∃ page ∈ faultPages address, SamePage x page

instance (offset root : Nat) (s : PagingState) (address x : Nat) : Decidable (Moved offset root s address x) :=
  inferInstanceAs (Decidable (_ ∧ ∃ page ∈ faultPages address, _))

/-- A page fault. What the heap has stored on a page that gets another frame is lost:
there it finds `contents`, whatever the new frames happen to hold. -/
def pageFault (offset root : Nat) (s : VmmState) (address : Nat) (contents : VirtualMemory) :
    Except Stop VmmState := do
  let paging ← isrPageFault (fun _ => offset) (wrap (root + offset)) s.paging address
  let mem := fun x => if Moved offset root s.paging address x then contents x else s.heap.alloc.mem x
  return {
    heap := { s.heap with alloc := { s.heap.alloc with mem := mem } }
    paging := paging
    given := stillGiven address s.given }

/-- An access to memory. It faults if the page is not present, and again and again
if the handler maps nothing. -/
def touch (offset root : Nat) (s : VmmState) (address : Nat) (contents : VirtualMemory) :
    Except Stop VmmState := do
  let translation ← PageTree.getTranslation (fun _ => offset) (wrap (root + offset)) s.paging.mem address
  if translation.flags.getLsbD 0 then
    return s
  let s ← pageFault offset root s address contents
  let translation ← PageTree.getTranslation (fun _ => offset) (wrap (root + offset)) s.paging.mem address
  if translation.flags.getLsbD 0 then return s else throw .hang

def vmalloc (s : VmmState) (size : Nat) : Except Stop VmmState := do
  let heap ← heapStep s.heap (.allocate size)
  return { s with heap := heap }

def vfree (offset root : Nat) (s : VmmState) (block : LiveBlock) (contents : VirtualMemory) :
    Except Stop VmmState := do
  -- `deallocate` first writes a free header, whose last field is at the pointer itself
  let s ← touch offset root s block.base contents
  let heap ← heapStep s.heap (.deallocate block)
  let translation ← PageTree.getTranslation (fun _ => offset) (wrap (root + offset)) s.paging.mem block.base
  return {
    heap := heap
    paging := ⟨s.paging.mem, s.paging.free.deallocateFrame translation.physicalAddress⟩
    given := block.base :: s.given }

/-! ### The frame behind a page -/

/-- The address that `get_translation` reports. -/
def frameOf (offset root : Nat) (m : Memory) (x : Nat) : Nat :=
  (leafEntry offset root m x &&& PageTreeNode.childAddressMask).toNat

/-- A page of `area` whose frame is not free, no table, and behind no other page of `area`. -/
structure Sole (offset root : Nat) (area : Nat → Prop) (s : PagingState) (x : Nat) : Prop where
  inside : area x
  mapped : Mapped offset root s x
  frame : IsFrame (frameOf offset root s.mem x)
  taken : frameOf offset root s.mem x ∉ s.free.frames
  node : ∀ ρ, ρ.length ≤ 3 → follow (edge offset s.mem) root ρ ≠ some (frameOf offset root s.mem x)
  alone : ∀ y, area y → Mapped offset root s y →
    frameOf offset root s.mem y = frameOf offset root s.mem x → SamePage y x

/-- The frames that may go through the stack: the free ones, and those of one page alone. -/
def Pooled (offset root : Nat) (area : Nat → Prop) (s : PagingState) (f : Nat) : Prop :=
  f ∈ s.free.frames ∨ ∃ x, Sole offset root area s x ∧ frameOf offset root s.mem x = f

/-- A page that has a frame of its own: from a fault since `start`, or from `start` on.
No `vfree` has given the frame back. -/
structure Held (offset root : Nat) (area : Nat → Prop) (start s : PagingState) (given : List Nat) (x : Nat) : Prop where
  mapped : Mapped offset root s x
  own : Mapped offset root start x →
    frameOf offset root s.mem x ≠ frameOf offset root start.mem x ∨ Sole offset root area start x
  kept : ∀ p ∈ given, ¬ SamePage x p

/-- A frame that is not on the stack, though it may go there, and has not become a table. -/
structure DataFrame (offset root : Nat) (area : Nat → Prop) (start s : PagingState) (f : Nat) : Prop where
  frame : IsFrame f
  origin : Pooled offset root area start f
  taken : f ∉ s.free.frames
  node : ∀ ρ, ρ.length ≤ 3 → follow (edge offset s.mem) root ρ ≠ some f

/-- Pages that hold a frame hold different ones, which are neither free nor tables. -/
structure Backed (offset root : Nat) (area : Nat → Prop) (start s : PagingState) (given : List Nat) : Prop where
  intact : Intact offset root s
  grown : ∀ x, Mapped offset root start x → Mapped offset root s x
  spare : ∀ f ∈ s.free.frames, Pooled offset root area start f
  owned : ∀ x, Held offset root area start s given x →
    DataFrame offset root area start s (frameOf offset root s.mem x)
  distinct : ∀ x y, Held offset root area start s given x → Held offset root area start s given y →
    ¬ SamePage x y → frameOf offset root s.mem x ≠ frameOf offset root s.mem y

section

variable {offset root : Nat} {area : Nat → Prop} {start s s' : PagingState} {given given' : List Nat} {a f x y : Nat}

theorem SamePage.symm (h : SamePage x y) : SamePage y x := Eq.symm h

theorem SamePage.trans {z : Nat} (h : SamePage x y) (h' : SamePage y z) : SamePage x z := Eq.trans h h'

theorem MapsPage.frameOf_page {page : Nat} {flags : FlagSet} (h : MapsPage offset root s s' page f flags)
    (hf : IsFrame f) (hx : SamePage x page) : frameOf offset root s'.mem x = f := by
  rw [frameOf, h.leaf_page hx, entryWord_childAddress hf.1, Nat.mod_eq_of_lt hf.2.2]

theorem MapsPage.frameOf_other {page : Nat} {flags : FlagSet} (h : MapsPage offset root s s' page f flags)
    (hx : ¬ SamePage x page) : frameOf offset root s'.mem x = frameOf offset root s.mem x := by
  rw [frameOf, frameOf, h.leaf_other hx]

theorem frameOf_unmapped (h : Intact offset root s) (hx : ¬ Mapped offset root s x) :
    frameOf offset root s.mem x = 0 := by
  rw [mapped_iff h] at hx
  unfold frameOf
  cases hf : follow (edge offset s.mem) root (path x) with
  | none =>
      rw [leafEntry_of_missing hf]
      decide
  | some n =>
      rw [leafEntry_of_follow hf] at hx ⊢
      rcases h.entries (path x) n (indexAt x 3) (path_length x).le hf with h0 | ⟨b, flags, _, _, he⟩
      · rw [h0]
        decide
      · rw [he, entryWord_isPresent] at hx
        exact absurd rfl hx

theorem Sole.congr (hy : Sole offset root area s y) (hx : area x) (hmapped : Mapped offset root s x)
    (hxy : SamePage x y) : Sole offset root area s x := by
  have hframe : frameOf offset root s.mem x = frameOf offset root s.mem y := by
    rw [frameOf, frameOf, leafEntry_congr hxy]
  refine ⟨hx, hmapped, ?_, ?_, ?_, ?_⟩
  · rw [hframe]
    exact hy.frame
  · rw [hframe]
    exact hy.taken
  · rw [hframe]
    exact hy.node
  · intro z hz hzmapped heq
    exact (hy.alone z hz hzmapped (heq.trans hframe)).trans hxy.symm

theorem backed_start (h : Intact offset root start) (area : Nat → Prop) (given : List Nat) :
    Backed offset root area start start given := by
  have hsole : ∀ x, Held offset root area start start given x → Sole offset root area start x := fun x hx =>
    (hx.own hx.mapped).resolve_left fun hne => hne rfl
  refine ⟨h, fun x hx => hx, fun f hf => Or.inl hf, fun x hx => ?_, fun x y hx hy hxy heq => ?_⟩
  · have hx := hsole x hx
    exact ⟨hx.frame, Or.inr ⟨x, hx, rfl⟩, hx.taken, hx.node⟩
  · have hx := hsole x hx
    exact hxy ((hsole y hy).alone x hx.inside hx.mapped heq)

theorem DataFrame.after (h : DataFrame offset root area start s f) (hfree : s'.free.frames ⊆ s.free.frames)
    (hnode : ∀ ρ, ρ.length ≤ 3 → follow (edge offset s'.mem) root ρ ≠ some f) :
    DataFrame offset root area start s' f :=
  ⟨h.frame, h.origin, fun hc => h.taken (hfree hc), hnode⟩

/-- One page gets a frame, and other frames may become tables. -/
theorem Backed.mapPage (h : Backed offset root area start s given) {page : Nat} (hpage : page % 4096 = 0)
    (hlast : page + 4096 ≤ 0xfffffffffffff000)
    (hs : allocateAndMapStep (fun _ => offset) (wrap (root + offset)) FlagSet.write.bits s page = .ok s')
    (hgiven : ∀ p ∈ given, ¬ SamePage p page → p ∈ given') :
    Backed offset root area start s' given' ∧ Mapped offset root s' page := by
  obtain ⟨f, free, halloc, hintact, hmap⟩ := allocateAndMapStep_spec h.intact hpage hlast hs
  have hf : IsFrame f := (h.intact.allocate halloc).1
  have hframes : s.free.frames = f :: free.frames := (FreeStack.allocateFrame_ok halloc).1
  have hfin : f ∈ s.free.frames := by
    rw [hframes]
    exact List.mem_cons_self
  obtain ⟨nodes, hnodes, _⟩ := hmap.taken
  have hnodup := h.intact.nodup
  rw [hframes] at hnodup
  obtain ⟨hffree, _⟩ := List.nodup_cons.mp hnodup
  have hsuffix : ∀ g ∈ s'.free.frames, g ∈ free.frames := fun g hg => by
    rw [show free.frames = nodes ++ s'.free.frames from hnodes]
    exact List.mem_append_right _ hg
  have hfree : s'.free.frames ⊆ s.free.frames := fun g hg => by
    rw [hframes]
    exact List.mem_cons_of_mem f (hsuffix g hg)
  have hnew : ∀ x, SamePage x page → frameOf offset root s'.mem x = f := fun x hx => hmap.frameOf_page hf hx
  have hkeep : ∀ x, ¬ SamePage x page → frameOf offset root s'.mem x = frameOf offset root s.mem x :=
    fun x hx => hmap.frameOf_other hx
  have hmapped : ∀ x, ¬ SamePage x page → (Mapped offset root s' x ↔ Mapped offset root s x) :=
    fun x hx => hmap.mapped_other hintact hx
  have hheld : ∀ x, ¬ SamePage x page → Held offset root area start s' given' x → Held offset root area start s given x := by
    intro x hx hh
    refine ⟨(hmapped x hx).mp hh.mapped, fun hm => hkeep x hx ▸ hh.own hm, fun p hp hxp => ?_⟩
    exact hh.kept p (hgiven p hp fun hc => hx (hxp.trans hc)) hxp
  refine ⟨⟨hmap.intact, fun x hx => ?_, fun g hg => h.spare g (hfree hg), ?_, ?_⟩, hmap.mapped_page rfl⟩
  · by_cases hsame : SamePage x page
    · exact hmap.mapped_page hsame
    · exact (hmapped x hsame).mpr (h.grown x hx)
  · intro x hh
    by_cases hx : SamePage x page
    · rw [hnew x hx]
      refine ⟨hf, h.spare f hfin, fun hc => hffree (hsuffix f hc), fun ρ hρ hc => ?_⟩
      rcases hmap.grown ρ f hρ hc with hc | ⟨hc, _⟩
      · exact (h.intact.nodes ρ f hρ hc).2 hfin
      · exact hffree hc
    · have hown := h.owned x (hheld x hx hh)
      rw [hkeep x hx]
      refine hown.after hfree fun ρ hρ hc => ?_
      rcases hmap.grown ρ _ hρ hc with hc | ⟨hc, _⟩
      · exact hown.node ρ hρ hc
      · exact hown.taken (by rw [hframes]; exact List.mem_cons_of_mem f hc)
  · intro x y hhx hhy hxy
    by_cases hx : SamePage x page
    · by_cases hy : SamePage y page
      · exact absurd (hx.trans hy.symm) hxy
      · rw [hnew x hx, hkeep y hy]
        exact fun heq => (h.owned y (hheld y hy hhy)).taken (heq ▸ hfin)
    · by_cases hy : SamePage y page
      · rw [hkeep x hx, hnew y hy]
        exact fun heq => (h.owned x (hheld x hx hhx)).taken (heq.symm ▸ hfin)
      · rw [hkeep x hx, hkeep y hy]
        exact h.distinct x y (hheld x hx hhx) (hheld y hy hhy) hxy

theorem Backed.mapPages {pages : List Nat} (h : Backed offset root area start s given)
    (hpages : ∀ page ∈ pages, page % 4096 = 0 ∧ page + 4096 ≤ 0xfffffffffffff000)
    (hs : pages.foldlM (allocateAndMapStep (fun _ => offset) (wrap (root + offset)) FlagSet.write.bits) s = .ok s')
    (hgiven : ∀ p ∈ given, (∀ page ∈ pages, ¬ SamePage p page) → p ∈ given') :
    Backed offset root area start s' given' := by
  induction pages generalizing s given with
  | nil =>
      cases hs
      have hsub : ∀ p ∈ given, p ∈ given' := fun p hp => hgiven p hp fun page hpage => absurd hpage List.not_mem_nil
      have hheld : ∀ x, Held offset root area start s' given' x → Held offset root area start s' given x := fun x hx =>
        ⟨hx.mapped, hx.own, fun p hp => hx.kept p (hsub p hp)⟩
      exact ⟨h.intact, h.grown, h.spare, fun x hx => h.owned x (hheld x hx),
        fun x y hx hy => h.distinct x y (hheld x hx) (hheld y hy)⟩
  | cons page pages ih =>
      rw [List.foldlM_cons] at hs
      obtain ⟨t, hfirst, hrest⟩ := bind_ok hs
      obtain ⟨hpage, hlast⟩ := hpages page List.mem_cons_self
      have hnext : Backed offset root area start t (given.filter fun p => ¬ SamePage p page) :=
        (h.mapPage hpage hlast hfirst fun p hp hne => List.mem_filter.mpr ⟨hp, decide_eq_true hne⟩).1
      refine ih hnext (fun q hq => hpages q (List.mem_cons_of_mem page hq)) hrest fun p hp hother => ?_
      obtain ⟨hp, hne⟩ := List.mem_filter.mp hp
      refine hgiven p hp fun q hq => ?_
      rcases List.mem_cons.mp hq with rfl | hq
      · exact of_decide_eq_true hne
      · exact hother q hq

theorem Backed.give (h : Backed offset root area start s given) (ha : Held offset root area start s given a) :
    Backed offset root area start ⟨s.mem, s.free.deallocateFrame (frameOf offset root s.mem a)⟩ (a :: given) := by
  have hown := h.owned a ha
  have hintact := h.intact.deallocate hown.frame hown.taken hown.node
  have hsub : ∀ g ∈ (s.free.deallocateFrame (frameOf offset root s.mem a)).frames,
      g = frameOf offset root s.mem a ∨ g ∈ s.free.frames := by
    intro g hg
    unfold FreeStack.deallocateFrame at hg
    split at hg
    · exact List.mem_cons.mp hg
    · exact Or.inr hg
  have hheld : ∀ x, Held offset root area start ⟨s.mem, s.free.deallocateFrame (frameOf offset root s.mem a)⟩
      (a :: given) x → Held offset root area start s given x ∧ ¬ SamePage x a := by
    intro x hx
    exact ⟨⟨hx.mapped, hx.own, fun p hp => hx.kept p (List.mem_cons_of_mem a hp)⟩,
      hx.kept a List.mem_cons_self⟩
  refine ⟨hintact, h.grown, fun g hg => ?_, ?_, ?_⟩
  · rcases hsub g hg with rfl | hg
    · exact hown.origin
    · exact h.spare g hg
  · intro x hx
    obtain ⟨hx, hxa⟩ := hheld x hx
    have hownx := h.owned x hx
    refine ⟨hownx.frame, hownx.origin, fun hc => ?_, hownx.node⟩
    rcases hsub _ hc with heq | hc
    · exact h.distinct x a hx ha hxa heq
    · exact hownx.taken hc
  · intro x y hx hy hxy
    exact h.distinct x y (hheld x hx).1 (hheld y hy).1 hxy

end

/-! ### Faults -/

section

variable {offset root : Nat} {area : Nat → Prop} {start s s' : PagingState} {given : List Nat} {a : Nat}

theorem stillGiven_subset (a : Nat) (given : List Nat) : stillGiven a given ⊆ given :=
  fun _ hp => (List.mem_filter.mp hp).1

theorem Backed.fault (h : Backed offset root area start s given) (ha : a < 2 ^ 64)
    (hs : isrPageFault (fun _ => offset) (wrap (root + offset)) s a = .ok s') :
    Backed offset root area start s' (stillGiven a given) := by
  rw [isrPageFault_eq _ _ _ ha] at hs
  refine h.mapPages (fun page hp => ⟨(mem_faultPages hp).1, (mem_faultPages hp).2.1⟩) hs ?_
  exact fun p hp hne => List.mem_filter.mpr ⟨hp, decide_eq_true hne⟩

end

end DavOS
