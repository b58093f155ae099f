import DavOS.GuardedRun
import DavOS.Paging
import DavOS.SoftwareWalk
import DavOS.TreeStates

/-! Page faults over whole runs. The handler asks for a full page from the
faulting address on, so a fault inside a page maps that page and the next one. -/
namespace DavOS
open MachineWord PathGraph kernelConstants GuardedRun

/-! ### The pages of a fault -/

/-- The pages that the handler maps for a fault at `a`. -/
def faultPages (a : Nat) : List Nat :=
  if 0xffffffffffffe000 < a then
    if a < 0xfffffffffffff000 then [0xffffffffffffe000] else []
  else if a % 4096 = 0 then [a] else [pageFloor a, pageFloor a + 4096]

theorem mem_faultPages {a page : Nat} (h : page ∈ faultPages a) :
    page % 4096 = 0 ∧ page + 4096 ≤ 0xfffffffffffff000 ∧
      (page = pageFloor a ∨
        (page = pageFloor a + 4096 ∧ a % 4096 ≠ 0 ∧ a ≤ 0xffffffffffffe000)) := by
  simp only [faultPages, pageFloor, pageSize] at h ⊢
  split at h
  · split at h
    · obtain rfl := List.mem_singleton.mp h
      omega
    · cases h
  · split at h
    · obtain rfl := List.mem_singleton.mp h
      omega
    · rcases List.mem_cons.mp h with rfl | h
      · omega
      · obtain rfl := List.mem_singleton.mp h
        omega

theorem isrPageFault_eq (hhdm : HhdmOffset) (root : Nat) (s : PagingState) {a : Nat} (ha : a < 2 ^ 64) :
    isrPageFault hhdm root s a =
      (faultPages a).foldlM (allocateAndMapStep hhdm root PageFlags.write) s := by
  have hpages : strideWhile (fun page => decide (page ≠ (getPageRange a pageSize).lastPage)) pageSize
      loopFuel (getPageRange a pageSize).firstPage = some (faultPages a) := by
    by_cases htop : 0xffffffffffffe000 < a
    · rw [getPageRange_saturates (by decide) (by simp only [pageSize]; omega), faultPages, if_pos htop]
      simp only [pageFloor, pageSize]
      by_cases hlast : a < 0xfffffffffffff000
      · rw [if_pos hlast, strideWhile_ne (n := 1) (by decide) (by omega) (by decide)]
        simp only [stride, Option.some.injEq, List.cons.injEq, and_true]
        omega
      · rw [if_neg hlast, strideWhile_ne (n := 0) (by decide) (by omega) (by decide)]
        rfl
    · rw [getPageRange_of_le (by simp only [pageSize]; omega), faultPages, if_neg htop]
      simp only [pageFloor, pageSize]
      by_cases halign : a % 4096 = 0
      · rw [if_pos halign, strideWhile_ne (n := 1) (by decide) (by omega) (by omega)]
        simp only [stride, Option.some.injEq, List.cons.injEq, and_true]
        omega
      · rw [if_neg halign, strideWhile_ne (n := 2) (by decide) (by omega) (by omega)]
        simp only [stride, Option.some.injEq, List.cons.injEq, and_true]
        omega
  unfold isrPageFault pagingAllocateAndMap
  simp only [hpages, orHang_some]
  rfl

/-! ### What a fault leaves alone -/

section

variable {offset root : Nat} {s s' : PagingState}

theorem Intact.deallocate (h : Intact offset root s) {frame : Nat} (hframe : IsFrame frame)
    (hfree : frame ∉ s.free.frames)
    (hnode : ∀ ρ, ρ.length ≤ 3 → follow (edge offset s.mem) root ρ ≠ some frame) :
    Intact offset root ⟨s.mem, s.free.deallocateFrame frame⟩ := by
  by_cases hroom : s.free.frames.length < s.free.capacity
  · have hframes : (s.free.deallocateFrame frame).frames = frame :: s.free.frames := by
      simp only [FreeStack.deallocateFrame, dif_pos hroom]
    refine ⟨h.rootTable, h.unshared, fun ρ n hρ hn => ⟨(h.nodes ρ n hρ hn).1, ?_⟩, h.entries, ?_, ?_⟩
    · rw [hframes, List.mem_cons, not_or]
      refine ⟨?_, (h.nodes ρ n hρ hn).2⟩
      rintro rfl
      exact hnode ρ hρ hn
    · rw [hframes]
      exact List.nodup_cons.mpr ⟨hfree, h.nodup⟩
    · rw [hframes]
      intro f hf
      rcases List.mem_cons.mp hf with rfl | hf
      · exact hframe
      · exact h.frames f hf
  · have hsame : s.free.deallocateFrame frame = s.free := by
      simp only [FreeStack.deallocateFrame, dif_neg hroom]
    rw [hsame]
    exact h

theorem allocateAndMapStep_ok (h : Intact offset root s) {page : Nat} {flags : FlagSet}
    (hpage : page % 4096 = 0) (hlast : page + 4096 ≤ 0xfffffffffffff000) :
    allocateAndMapStep (fun _ => offset) (wrap (root + offset)) flags.bits s page = .ok s' ↔
      ∃ frame free, s.free.allocateFrame = .ok (frame, free) ∧
        PageTree.mapPageToFrame (fun _ => offset) (wrap (root + offset)) ⟨s.mem, free⟩ page frame flags.bits = .ok s' := by
  have hmap : ∀ {frame : Nat} {free : FreeStack}, s.free.allocateFrame = .ok (frame, free) →
      pagingAddMapping (fun _ => offset) (wrap (root + offset)) ⟨s.mem, free⟩ page frame pageSize flags.bits =
        PageTree.mapPageToFrame (fun _ => offset) (wrap (root + offset)) ⟨s.mem, free⟩ page frame flags.bits := by
    intro frame free halloc
    obtain ⟨hframes, _⟩ := FreeStack.allocateFrame_ok halloc
    exact pagingAddMapping_page _ _ _ hpage hlast (h.frames frame (by rw [hframes]; exact List.mem_cons_self)).1 _
  constructor
  · intro hs
    obtain ⟨⟨frame, free⟩, halloc, hs⟩ := bind_ok hs
    exact ⟨frame, free, halloc, (hmap halloc).symm.trans hs⟩
  · rintro ⟨frame, free, halloc, hs⟩
    unfold allocateAndMapStep
    rw [halloc]
    exact (hmap halloc).trans hs

theorem Intact.allocate (h : Intact offset root s) {frame : Nat} {free : FreeStack}
    (halloc : s.free.allocateFrame = .ok (frame, free)) : IsFrame frame ∧ Intact offset root ⟨s.mem, free⟩ := by
  obtain ⟨hframes, _⟩ := FreeStack.allocateFrame_ok halloc
  exact ⟨h.frames frame (by rw [hframes]; exact List.mem_cons_self),
    h.shrink (by rw [hframes]; exact List.sublist_cons_self frame _)⟩

/-- A page takes one data frame and the tables its path lacks. -/
theorem allocateAndMapStep_spec (h : Intact offset root s) {page : Nat} {flags : FlagSet}
    (hpage : page % 4096 = 0) (hlast : page + 4096 ≤ 0xfffffffffffff000)
    (hs : allocateAndMapStep (fun _ => offset) (wrap (root + offset)) flags.bits s page = .ok s') :
    ∃ frame free, s.free.allocateFrame = .ok (frame, free) ∧ Intact offset root ⟨s.mem, free⟩ ∧
      MapsPage offset root ⟨s.mem, free⟩ s' page frame flags := by
  obtain ⟨frame, free, halloc, hs⟩ := (allocateAndMapStep_ok h hpage hlast).mp hs
  obtain ⟨hframe, hshrink⟩ := h.allocate halloc
  exact ⟨frame, free, halloc, hshrink, mapPageToFrame_spec hshrink hframe.isTable hs⟩

theorem allocateAndMap_leaves {pages : List Nat} (flags : FlagSet) (h : Intact offset root s)
    (hpages : ∀ page ∈ pages, page % 4096 = 0 ∧ page + 4096 ≤ 0xfffffffffffff000)
    (hs : pages.foldlM (allocateAndMapStep (fun _ => offset) (wrap (root + offset)) flags.bits) s = .ok s') :
    Intact offset root s' ∧ ∀ v, (∀ page ∈ pages, ¬ SamePage v page) →
      leafEntry offset root s'.mem v = leafEntry offset root s.mem v := by
  induction pages generalizing s with
  | nil =>
      cases hs
      exact ⟨h, fun v _ => rfl⟩
  | cons page pages ih =>
      rw [List.foldlM_cons] at hs
      obtain ⟨t, hfirst, hrest⟩ := bind_ok hs
      obtain ⟨hpage, hlast⟩ := hpages page List.mem_cons_self
      obtain ⟨frame, free, _, _, hmap⟩ := allocateAndMapStep_spec h hpage hlast hfirst
      obtain ⟨hintact, hleaves⟩ := ih hmap.intact (fun p hp => hpages p (List.mem_cons_of_mem page hp)) hrest
      refine ⟨hintact, fun v hv => ?_⟩
      rw [hleaves v fun p hp => hv p (List.mem_cons_of_mem page hp), hmap.leaves,
        if_neg (hv page List.mem_cons_self)]

theorem isrPageFault_leaves (h : Intact offset root s) {a : Nat} (ha : a < 2 ^ 64)
    (hs : isrPageFault (fun _ => offset) (wrap (root + offset)) s a = .ok s') :
    Intact offset root s' ∧ ∀ v, (∀ page ∈ faultPages a, ¬ SamePage v page) →
      leafEntry offset root s'.mem v = leafEntry offset root s.mem v := by
  rw [isrPageFault_eq _ _ _ ha] at hs
  exact allocateAndMap_leaves FlagSet.write h
    (fun page hp => ⟨(mem_faultPages hp).1, (mem_faultPages hp).2.1⟩) hs

/-- The page of an address is mapped, as `get_translation` reports it. -/
def Mapped (offset root : Nat) (s : PagingState) (v : Nat) : Prop :=
  ∃ t, PageTree.getTranslation (fun _ => offset) (wrap (root + offset)) s.mem v = .ok t ∧
    t.flags.getLsbD 0 = true

theorem mapped_iff (h : Intact offset root s) (v : Nat) :
    Mapped offset root s v ↔ Ia32e.isPresent (leafEntry offset root s.mem v) = true := by
  unfold Mapped
  rw [getTranslation_eq h]
  constructor
  · rintro ⟨t, ht, hflags⟩
    cases ht
    rw [BitVec.getLsbD_and] at hflags
    exact (Bool.and_eq_true_iff.mp hflags).1
  · intro hp
    refine ⟨_, rfl, ?_⟩
    rw [BitVec.getLsbD_and, lowByte_bit]
    exact Bool.and_eq_true_iff.mpr ⟨hp, rfl⟩

theorem MapsPage.mapped_page {page frame v : Nat} {flags : FlagSet} (h : MapsPage offset root s s' page frame flags)
    (hv : SamePage v page) : Mapped offset root s' v := by
  rw [mapped_iff h.intact, h.leaf_page hv, entryWord_isPresent]

theorem MapsPage.mapped_other {page frame v : Nat} {flags : FlagSet} (h : MapsPage offset root s s' page frame flags)
    (hintact : Intact offset root s) (hv : ¬ SamePage v page) : Mapped offset root s' v ↔ Mapped offset root s v := by
  rw [mapped_iff h.intact, mapped_iff hintact, h.leaf_other hv]

theorem leafEntry_congr {m : Memory} {v w : Nat} (h : SamePage v w) :
    leafEntry offset root m v = leafEntry offset root m w := by
  obtain ⟨hpath, hindex⟩ := samePage_iff.mp h
  simp only [leafEntry, hpath, hindex]

theorem Mapped.congr (h : Intact offset root s) {v w : Nat} (hsame : SamePage v w)
    (hv : Mapped offset root s v) : Mapped offset root s w := by
  rw [mapped_iff h] at hv ⊢
  rwa [← leafEntry_congr hsame]

theorem samePage_pageFloor (v : Nat) : SamePage (pageFloor v) v := by
  simp only [SamePage, pageFloor, pageSize]
  omega

end

/-! ### Runs -/

/-- Everything that changes the page tree or the stack of free frames. -/
inductive PagingOp where
  | map (call : MapCall)
  | allocate
  | deallocate (frame : Nat)
  | fault (address : Nat)

def pagingStep (offset root : Nat) (s : PagingState) : PagingOp → Except Stop PagingState
  | .map c => PageTree.mapPageToFrame (fun _ => offset) (wrap (root + offset)) s c.page c.frame c.flags.bits
  | .allocate => do
      let (_, free) ← s.free.allocateFrame
      return ⟨s.mem, free⟩
  | .deallocate frame => .ok ⟨s.mem, s.free.deallocateFrame frame⟩
  | .fault address => isrPageFault (fun _ => offset) (wrap (root + offset)) s address

/-- A frame that is given back is neither free already nor a table of the tree. -/
def PagingOp.Allowed (offset root : Nat) (s : PagingState) : PagingOp → Prop
  | .deallocate frame => IsFrame frame ∧ frame ∉ s.free.frames ∧
      ∀ ρ, ρ.length ≤ 3 → follow (edge offset s.mem) root ρ ≠ some frame
  | .fault address => address < 2 ^ 64
  | _ => True

theorem pagingStep_intact {offset root : Nat} (s : PagingState) (op : PagingOp) (s' : PagingState)
    (h : Intact offset root s) (hop : op.Allowed offset root s)
    (hs : pagingStep offset root s op = .ok s') : Intact offset root s' := by
  cases op with
  | map c => exact (mapPageToFrame_spec h c.aligned hs).intact
  | allocate =>
      obtain ⟨⟨frame, free⟩, halloc, hs⟩ := bind_ok hs
      cases hs
      exact h.shrink (by rw [(FreeStack.allocateFrame_ok halloc).1]; exact List.sublist_cons_self frame _)
  | deallocate frame =>
      cases hs
      exact h.deallocate hop.1 hop.2.1 hop.2.2
  | fault address => exact (isrPageFault_leaves h hop hs).1

/-- The handler is not led to a page that is in use: the fault is at the start
of its page, or the next page is not mapped, or there is no next page. -/
def FaultSafe (offset root : Nat) (s : PagingState) (a : Nat) : Prop :=
  a % 4096 = 0 ∨ 0xffffffffffffe000 < a ∨ ¬ Mapped offset root s (pageFloor a + 4096)

/-- A fault is at an address whose own page is not mapped. -/
def FaultAllowed (offset root : Nat) (s : PagingState) (a : Nat) : Prop :=
  a < 2 ^ 64 ∧ ¬ Mapped offset root s a

theorem FaultSafe.other_page {offset root : Nat} {s : PagingState} {a b page : Nat}
    (hsafe : FaultSafe offset root s a) (h : Intact offset root s) (ha : ¬ Mapped offset root s a)
    (hb : Mapped offset root s b) (hp : page ∈ faultPages a) : ¬ SamePage b page := by
  intro hsame
  rcases (mem_faultPages hp).2.2 with rfl | ⟨rfl, hunaligned, hle⟩
  · exact ha ((hb.congr h hsame).congr h (samePage_pageFloor a))
  · rcases hsafe with haligned | htop | hnext
    · exact hunaligned haligned
    · omega
    · exact hnext (hb.congr h hsame)

theorem fault_keeps_leaf {offset root : Nat} {s s' : PagingState} {a b : Nat} (h : Intact offset root s)
    (ha : FaultAllowed offset root s a) (hsafe : FaultSafe offset root s a)
    (hs : isrPageFault (fun _ => offset) (wrap (root + offset)) s a = .ok s')
    (hb : Mapped offset root s b) :
    leafEntry offset root s'.mem b = leafEntry offset root s.mem b :=
  (isrPageFault_leaves h ha.1 hs).2 b fun _ hp => hsafe.other_page h ha.2 hb hp

/-- Over any sequence of faults that meet `FaultSafe`, from any reachable state
of the page tree and the frame allocator, every mapped page keeps its translation. -/
theorem faults_keep_mappings (offset root : Nat) (m : Memory) (free : FreeStack)
    (hroot : IsTable root) (hdistinct : (root :: free.frames).Nodup)
    (hframes : ∀ f ∈ free.frames, IsFrame f) (ops : List PagingOp) (s : PagingState)
    (hreach : Run (pagingStep offset root) (PagingOp.Allowed offset root)
      ⟨PageTreeNode.construct m (wrap (root + offset)), free⟩ ops s)
    (faults : List Nat) (s' : PagingState)
    (hfaults : Run (fun s a => pagingStep offset root s (.fault a))
      (fun s a => FaultAllowed offset root s a ∧ FaultSafe offset root s a) s faults s')
    (b : Nat) (hb : Mapped offset root s b) :
    PageTree.getTranslation (fun _ => offset) (wrap (root + offset)) s'.mem b =
      PageTree.getTranslation (fun _ => offset) (wrap (root + offset)) s.mem b := by
  have hs : Intact offset root s :=
    hreach.invariant pagingStep_intact (fresh_tree offset m hroot hdistinct hframes).1
  -- the leaf entry is what a run of faults preserves, together with the tree
  have hkeep : Intact offset root s' ∧ leafEntry offset root s'.mem b = leafEntry offset root s.mem b := by
    refine hfaults.invariant (I := fun t => Intact offset root t ∧
      leafEntry offset root t.mem b = leafEntry offset root s.mem b) ?_ ⟨hs, rfl⟩
    rintro t a u ⟨ht, hleaf⟩ ⟨hallowed, hsafe⟩ hu
    have hbt : Mapped offset root t b := by
      rw [mapped_iff ht, hleaf]
      exact (mapped_iff hs b).mp hb
    exact ⟨(isrPageFault_leaves ht hallowed.1 hu).1, (fault_keeps_leaf ht hallowed hsafe hu hbt).trans hleaf⟩
  rw [getTranslation_eq hkeep.1, getTranslation_eq hs, hkeep.2]

/-! ### Faults on a fresh tree -/

/-- What `get_translation` reports after some faults. -/
def translationAfter (offset root : Nat) (s : PagingState) (faults : List Nat) (v : Nat) :
    Option PageTranslation :=
  match faults.foldlM (isrPageFault (fun _ => offset) (wrap (root + offset))) s with
  | .ok s => (PageTree.getTranslation (fun _ => offset) (wrap (root + offset)) s.mem v).toOption
  | .error _ => none

theorem translationAfter_cons {offset root : Nat} {s t : PagingState} {a : Nat} (faults : List Nat) (v : Nat)
    (hs : isrPageFault (fun _ => offset) (wrap (root + offset)) s a = .ok t) :
    translationAfter offset root s (a :: faults) v = translationAfter offset root t faults v := by
  unfold translationAfter
  rw [List.foldlM_cons, hs]
  rfl

theorem translationAfter_nil {offset root : Nat} {s : PagingState} {v : Nat} {t : PageTranslation}
    (h : translationAfter offset root s [] v = some t) :
    PageTree.getTranslation (fun _ => offset) (wrap (root + offset)) s.mem v = .ok t := by
  change (PageTree.getTranslation (fun _ => offset) (wrap (root + offset)) s.mem v).toOption = some t at h
  cases ht : PageTree.getTranslation (fun _ => offset) (wrap (root + offset)) s.mem v with
  | error e =>
      rw [ht] at h
      cases h
  | ok u =>
      rw [ht] at h
      exact congrArg Except.ok (Option.some.inj h)

theorem translationAfter_singleton {offset root : Nat} {s : PagingState} {a v : Nat} {t : PageTranslation}
    (h : translationAfter offset root s [a] v = some t) :
    ∃ s', isrPageFault (fun _ => offset) (wrap (root + offset)) s a = .ok s' ∧
      PageTree.getTranslation (fun _ => offset) (wrap (root + offset)) s'.mem v = .ok t := by
  cases hs : isrPageFault (fun _ => offset) (wrap (root + offset)) s a with
  | error e =>
      unfold translationAfter at h
      rw [List.foldlM_cons, hs] at h
      cases h
  | ok s' =>
      rw [translationAfter_cons [] v hs] at h
      exact ⟨s', rfl, translationAfter_nil h⟩

theorem Mapped.of_translation {offset root : Nat} {s : PagingState} {v : Nat} {t : PageTranslation}
    (h : PageTree.getTranslation (fun _ => offset) (wrap (root + offset)) s.mem v = .ok t) :
    Mapped offset root s v ↔ t.flags.getLsbD 0 = true := by
  constructor
  · rintro ⟨u, hu, hflags⟩
    obtain rfl : t = u := Except.ok.inj (h.symm.trans hu)
    exact hflags
  · intro hflags
    exact ⟨t, h, hflags⟩

instance (offset root : Nat) (s : PagingState) (v : Nat) : Decidable (Mapped offset root s v) :=
  match h : PageTree.getTranslation (fun _ => offset) (wrap (root + offset)) s.mem v with
  | .ok t => decidable_of_iff (t.flags.getLsbD 0 = true) (Mapped.of_translation h).symm
  | .error _ => isFalse fun ⟨_, ht, _⟩ => by cases h.symm.trans ht

theorem sixFrames_first_fault : ∃ s, isrPageFault (fun _ => 0) (wrap (0x1000 + 0)) sixFrames 0x401000 = .ok s ∧
    PageTree.getTranslation (fun _ => 0) (wrap (0x1000 + 0)) s.mem 0x401000 = .ok ⟨0x2000, 3#64⟩ ∧
    ¬ Mapped 0 0x1000 s 0x400abc ∧ ¬ Mapped 0 0x1000 s 0x402abc ∧ ¬ Mapped 0 0x1000 s 0x403000 := by
  obtain ⟨s, hs, ht⟩ := translationAfter_singleton
    (show translationAfter 0 0x1000 sixFrames [0x401000] 0x401000 = some ⟨0x2000, 3#64⟩ by decide +kernel)
  have hunmapped : ∀ v, translationAfter 0 0x1000 sixFrames [0x401000] v = some ⟨0, 0#64⟩ →
      ¬ Mapped 0 0x1000 s v := by
    intro v hv
    obtain ⟨s₁, hs₁, hv⟩ := translationAfter_singleton hv
    obtain rfl : s = s₁ := Except.ok.inj (hs.symm.trans hs₁)
    rw [Mapped.of_translation hv]
    decide
  exact ⟨s, hs, ht, hunmapped _ (by decide +kernel), hunmapped _ (by decide +kernel), hunmapped _ (by decide +kernel)⟩

/-- A fault inside a page whose successor is free. -/
theorem faults_keep_mappings_next_free : ∃ s s',
    isrPageFault (fun _ => 0) (wrap (0x1000 + 0)) sixFrames 0x401000 = .ok s ∧
    isrPageFault (fun _ => 0) (wrap (0x1000 + 0)) s 0x402abc = .ok s' ∧
    PageTree.getTranslation (fun _ => 0) (wrap (0x1000 + 0)) s'.mem 0x401000 = .ok ⟨0x2000, 3#64⟩ := by
  obtain ⟨s, hs, ht, _, hown, hnext⟩ := sixFrames_first_fault
  have hafter : translationAfter 0 0x1000 sixFrames [0x401000, 0x402abc] 0x402abc = some ⟨0x6000, 3#64⟩ := by
    decide +kernel
  rw [translationAfter_cons _ _ hs] at hafter
  obtain ⟨s₁, hsecond, _⟩ := translationAfter_singleton hafter
  refine ⟨s, s₁, hs, hsecond, (faults_keep_mappings 0 0x1000 (fun _ => 0#64) sixFrames.free (by decide)
    (by decide) (by decide) [.fault 0x401000] s ?_ [0x402abc] s₁ ?_ 0x401000 ?_).trans ht⟩
  · exact .cons (by decide : 0x401000 < 2 ^ 64) hs (.nil s)
  · exact .cons ⟨⟨by decide, hown⟩, Or.inr (Or.inr hnext)⟩ hsecond (.nil s₁)
  · exact (Mapped.of_translation ht).mpr (by decide)

/-- A fault inside the page below a mapped one gives the mapped page a new frame. -/
theorem fault_moves_next_page : ∃ s s',
    Run (pagingStep 0 0x1000) (PagingOp.Allowed 0 0x1000) sixFrames [.fault 0x401000] s ∧
    FaultAllowed 0 0x1000 s 0x400abc ∧ Mapped 0 0x1000 s 0x401000 ∧
    isrPageFault (fun _ => 0) (wrap (0x1000 + 0)) s 0x400abc = .ok s' ∧
    PageTree.getTranslation (fun _ => 0) (wrap (0x1000 + 0)) s.mem 0x401000 = .ok ⟨0x2000, 3#64⟩ ∧
    PageTree.getTranslation (fun _ => 0) (wrap (0x1000 + 0)) s'.mem 0x401000 = .ok ⟨0x7000, 3#64⟩ := by
  obtain ⟨s, hs, ht, hown, _⟩ := sixFrames_first_fault
  have hafter : translationAfter 0 0x1000 sixFrames [0x401000, 0x400abc] 0x401000 = some ⟨0x7000, 3#64⟩ := by
    decide +kernel
  rw [translationAfter_cons _ _ hs] at hafter
  obtain ⟨s₁, hsecond, ht'⟩ := translationAfter_singleton hafter
  exact ⟨s, s₁, .cons (by decide : 0x401000 < 2 ^ 64) hs (.nil s), ⟨by decide, hown⟩,
    (Mapped.of_translation ht).mpr (by decide), hsecond, ht, ht'⟩

end DavOS
