import DavOS.InitialMappings
import DavOS.PageFault

/-! Whether the kernel still converts physical addresses with the offset given
at boot once the bootloader's memory has been reclaimed. It does until
`map_page_to_frame` makes a table in the frame of the HHDM response. -/
namespace DavOS
open MachineWord PathGraph PageTreeNode kernelConstants GuardedRun

/-! ### Initialisation -/

/-- The rounds of the initial mappings are safe, from the fresh root on. -/
def InitSafe (r : HhdmResponse) (image : KernelImage) (s : PagingState) : Prop :=
  ∀ root free, s.free.allocateFrame = .ok (root, free) → IsTable root ∧
    Guarded (pagingCall r.hhdm (wrap (root + r.offset)))
      (PagingCall.Rounds r.hhdm (wrap (root + r.offset)) (RoundSafe r root))
      ⟨construct s.mem (wrap (root + r.offset)), free⟩ ((initialMappings r.offset image).map Mapping.call)

theorem standing_fresh {offset root f : Nat} {m : Memory} {free : FreeStack} (hroot : IsTable root)
    (hzero : ∀ i, entryAt offset m root i = 0#64) (hdistinct : (root :: free.frames).Nodup) (hf : root ≠ f) :
    Standing offset root f ⟨m, free⟩ := by
  obtain ⟨hfresh, hnodup⟩ := List.nodup_cons.mp hdistinct
  refine ⟨intact_fresh hroot hzero (List.not_mem_nil) List.nodup_nil (fun g hg => by cases hg), hnodup, ?_⟩
  intro ρ n _ hn
  obtain ⟨_, rfl⟩ := follow_fresh hzero hn
  exact ⟨hfresh, hf⟩

theorem Standing.reclaim {offset root f : Nat} {s : PagingState} {free : FreeStack} {map : LimineMap}
    (h : Standing offset root f s) (hfree : ∀ g ∈ s.free.frames, g ∈ map.usableFrames)
    (hnodes : ∀ ρ n, ρ.length ≤ 3 → follow (edge offset s.mem) root ρ = some n → n ∈ map.usableFrames)
    (hs : s.free.freeLimineBootloaderMemory map.entries = .ok free) :
    Standing offset root f ⟨s.mem, free⟩ := by
  obtain ⟨hframes, _⟩ := FreeStack.freeLimineBootloaderMemory_ok hs
  have hnew : ∀ g ∈ (map.reclaimableFrames.take (s.free.capacity - s.free.frames.length)).reverse,
      g ∈ map.reclaimableFrames := fun g hg => List.mem_of_mem_take (List.mem_reverse.mp hg)
  refine ⟨h.intact, ?_, ?_⟩
  · rw [hframes]
    refine List.nodup_append.mpr ⟨?_, h.nodup, ?_⟩
    · exact List.nodup_reverse.mpr (map.reclaimableFrames_nodup.sublist (List.take_sublist _ _))
    · rintro g hg _ hg' rfl
      exact map.usable_disjoint_reclaimable (hfree g hg') (hnew g hg)
  · intro ρ n hρ hn
    refine ⟨fun hc => ?_, (h.nodes ρ n hρ hn).2⟩
    rw [hframes] at hc
    rcases List.mem_append.mp hc with hc | hc
    · exact map.usable_disjoint_reclaimable (hnodes ρ n hρ hn) (hnew n hc)
    · exact (h.nodes ρ n hρ hn).1 hc

theorem pagingInit_ok {hhdm : HhdmOffset} {map : List LimineMemmapEntry} {mappings : List Mapping}
    {s t : PagingState} {root : Nat} {free free' : FreeStack} (halloc : s.free.allocateFrame = .ok (root, free))
    (hmappings : addInitialMappings hhdm (kernelPhysicalToVirtual hhdm s.mem root) mappings
      ⟨construct s.mem (kernelPhysicalToVirtual hhdm s.mem root), free⟩ = .ok t)
    (hreclaim : t.free.freeLimineBootloaderMemory map = .ok free') :
    pagingInit hhdm map mappings s = .ok (root, ⟨t.mem, free'⟩) := by
  simp only [pagingInit, halloc, hmappings, hreclaim, bind, Except.bind]
  rfl

/-- What `paging_init` leaves behind: a tree that stands, and the response as it was. -/
theorem pagingInit_standing {map : LimineMap} {r : HhdmResponse} {image : KernelImage} {m : Memory}
    {free : FreeStack} (hframes : free.frames.Nodup) (husable : ∀ f ∈ free.frames, f ∈ map.usableFrames)
    (hresponse : r.frame ∈ map.reclaimableFrames) (hf : IsTable r.frame) (hread : r.hhdm m = r.offset)
    (hsafe : InitSafe r image ⟨m, free⟩) {root : Nat} {s : PagingState}
    (hs : pagingInit r.hhdm map.entries (initialMappings r.offset image) ⟨m, free⟩ = .ok (root, s)) :
    Standing r.offset root r.frame s ∧ r.hhdm s.mem = r.offset ∧
      (∀ n, IsNode r.offset root s.mem n → n ∈ map.usableFrames) ∧
      ∀ f ∈ s.free.frames, f ∈ map.usableFrames ∨ f ∈ map.reclaimableFrames := by
  unfold pagingInit at hs
  obtain ⟨⟨pml4, free₁⟩, halloc, hs⟩ := bind_ok hs
  obtain ⟨t, hmappings, hs⟩ := bind_ok hs
  obtain ⟨free₂, hreclaim, hs⟩ := bind_ok hs
  cases hs
  obtain ⟨hroot, hrounds⟩ := hsafe root free₁ halloc
  have hpop : free.frames = root :: free₁.frames := (FreeStack.allocateFrame_ok halloc).1
  have hne : root ≠ r.frame := by
    rintro rfl
    exact map.usable_disjoint_reclaimable (husable _ (by rw [hpop]; exact List.mem_cons_self)) hresponse
  have hvirtual : kernelPhysicalToVirtual r.hhdm m root = wrap (root + r.offset) := by
    rw [kernelPhysicalToVirtual, hread]
  simp only [hvirtual] at hmappings
  have hread₁ : r.hhdm (construct m (wrap (root + r.offset))) = r.offset := by
    rw [HhdmResponse.hhdm, offsetIn, entryAt_construct_of_ne hroot hf hne.symm]
    exact hread
  have hzero : ∀ i, entryAt r.offset (construct m (wrap (root + r.offset))) root i = 0#64 :=
    fun i => entryAt_construct_self
  dsimp only at hrounds
  generalize construct m (wrap (root + r.offset)) = fresh at hmappings hrounds hread₁ hzero
  have hstart : Standing r.offset root r.frame ⟨fresh, free₁⟩ := standing_fresh hroot hzero (hpop ▸ hframes) hne
  have hkept := hstart.calls hf hread₁ (hrounds.run hmappings)
  have hnodes : ∀ ρ n, ρ.length ≤ 3 → follow (edge r.offset t.mem) root ρ = some n → n ∈ map.usableFrames := by
    intro ρ n hρ hn
    refine husable n ?_
    rw [hpop]
    rcases hkept.grown ρ n hρ hn with hold | hnew
    · rw [(follow_fresh hzero hold).2]
      exact List.mem_cons_self
    · exact List.mem_cons_of_mem root hnew
  have hfree : ∀ g ∈ t.free.frames, g ∈ map.usableFrames := fun g hg =>
    husable g (by rw [hpop]; exact List.mem_cons_of_mem root (hkept.free.subset hg))
  refine ⟨hkept.standing.reclaim hfree hnodes hreclaim, hkept.reads hread₁, ?_, ?_⟩
  · rintro n ⟨ρ, hρ, hn⟩
    exact hnodes ρ n hρ hn
  · intro g hg
    rw [(FreeStack.freeLimineBootloaderMemory_ok hreclaim).1] at hg
    rcases List.mem_append.mp hg with hg | hg
    · exact Or.inr (List.mem_of_mem_take (List.mem_reverse.mp hg))
    · exact Or.inl (hfree g hg)

/-! ### How the offset is lost -/

theorem mapSteps_present {offset root f n : Nat} {j : Index} {s : PagingState} (flags : FlagSet) (page : Nat)
    (depths : List Nat) (h : Intact offset root s) (hf : f ∈ s.free.frames)
    (hread : offsetIn offset f j s.mem = offset) (hlen : depths.length ≤ 3) (hdepths : ∀ d ∈ depths, d < 4)
    (hn : follow (edge offset s.mem) root (depths.map (indexAt page)) = some n) :
    ∃ m free, depths.foldlM (PageTree.mapStep (offsetIn offset f j) page flags.bits) (wrap (root + offset), s) =
        .ok (wrap (n + offset), ⟨m, free⟩) ∧
      free.frames = s.free.frames ∧ Intact offset root ⟨m, free⟩ ∧ offsetIn offset f j m = offset ∧
      ∀ ρ, ρ.length ≤ 3 → follow (edge offset m) root ρ = follow (edge offset s.mem) root ρ := by
  have hempty : Intact offset root ⟨s.mem, noFrames⟩ := h.shrink (List.nil_sublist _)
  have haside : Aside offset root ⟨s.mem, noFrames⟩ f :=
    ⟨(h.frames f hf).isTable, List.not_mem_nil, fun ρ hρ hk => (h.nodes ρ f hρ hk).2 hf⟩
  have hlen' : ([] : List Index).length + depths.length ≤ 3 := by simpa using hlen
  have hlen'' : ([] : List Index).length + (depths.map (indexAt page)).length ≤ 3 := by simpa using hlen
  obtain ⟨curr, ⟨m, none⟩, hloop⟩ := mapStep_run_isOk flags page depths hempty
    (follow_nil _ _) hlen' hdepths (missing_eq_zero hn).le
  obtain ⟨c, rfl, hd⟩ := mapStep_descent hempty (follow_nil _ _) hlen' hdepths hloop
  have ha := hd.arrived hempty (follow_nil _ _) hlen''
  obtain ⟨_, hwords⟩ := hd.aside hempty (follow_nil _ _) hlen'' haside
  obtain rfl : c = n := by
    have hc := ha.follow_mono _ n (by simpa using hlen) hn
    exact Option.some.inj (ha.follow_end.symm.trans hc)
  have hnil : none.frames = [] := by
    obtain ⟨nodes, hnodes, _⟩ := ha.taken
    exact (List.append_eq_nil_iff.mp hnodes.symm).2
  -- the same rounds on the whole stack
  rw [← mapSteps_congr hempty (follow_nil _ _) hlen' hdepths haside hread] at hloop
  have hall : s.free.Over noFrames s.free.frames := rfl
  obtain ⟨free, hfree, hover⟩ := mapSteps_over hall hloop
  have hframes : free.frames = s.free.frames := by rw [hover, hnil, List.nil_append]
  have hfollow : ∀ ρ, ρ.length ≤ 3 → follow (edge offset m) root ρ = follow (edge offset s.mem) root ρ := by
    intro ρ hρ
    cases hk : follow (edge offset m) root ρ with
    | some k =>
        rcases ha.grown ρ k hρ hk with hold | ⟨hnew, _⟩
        · exact hold.symm
        · cases hnew
    | none =>
        cases hk' : follow (edge offset s.mem) root ρ with
        | none => rfl
        | some k => exact absurd (ha.follow_mono ρ k hρ hk') (by rw [hk]; exact Option.some_ne_none k |>.symm)
  refine ⟨m, free, hfree, hframes, ⟨h.rootTable, ha.intact.unshared, ?_, ha.intact.entries, ?_, ?_⟩, ?_, hfollow⟩
  · intro ρ k hρ hk
    refine ⟨(ha.intact.nodes ρ k hρ hk).1, ?_⟩
    rw [hframes]
    exact (h.nodes ρ k hρ ((hfollow ρ hρ).symm.trans hk)).2
  · rw [hframes]
    exact h.nodup
  · rw [hframes]
    exact h.frames
  · rw [offsetIn, hwords]
    exact hread

/-- A page whose last table alone is missing, with the frame of the offset on
top of the stack: the new table is made over the offset. -/
theorem mapPageToFrame_loses_offset {offset root f n : Nat} {j : Index} {s : PagingState} {rest : List Nat}
    {page : Nat} (frame : Nat) (flags : FlagSet) (h : Intact offset root s)
    (hread : offsetIn offset f j s.mem = offset)
    (hn : follow (edge offset s.mem) root [indexAt page 0, indexAt page 1] = some n)
    (hnone : follow (edge offset s.mem) root (path page) = none) (hfree : s.free.frames = f :: rest)
    (hframe : frame % 4096 = 0) (hj : j ≠ indexAt page 3) :
    ∃ s', PageTree.mapPageToFrame (offsetIn offset f j) (wrap (root + offset)) s page frame flags.bits = .ok s' ∧
      offsetIn offset f j s'.mem = 0 := by
  have hf : f ∈ s.free.frames := by
    rw [hfree]
    exact List.mem_cons_self
  have hft := (h.frames f hf).isTable
  obtain ⟨m, free, htwo, hframes, hintact, hread₂, hfollow⟩ :=
    mapSteps_present flags page [0, 1] h hf hread (by decide) (by decide) hn
  rw [hfree] at hframes
  have hn₂ : follow (edge offset m) root [indexAt page 0, indexAt page 1] = some n := (hfollow _ (by simp)).trans hn
  -- the third round takes the frame of the offset for the missing table
  have hroom : missing (edge offset m) n [indexAt page 2] ≤ free.frames.length := by
    rw [hframes]
    exact (missing_le _ _ _).trans (Nat.succ_le_succ (Nat.zero_le _))
  obtain ⟨curr, t, ht⟩ := mapStep_isOk flags hintact hn₂ (by simp) (by decide) hroom
  obtain ⟨g, rfl, hl⟩ := mapStep_level hintact hn₂ (by simp) (by decide) ht
  rw [← mapStep_congr hread₂] at ht
  cases hl with
  | kept old gframe entry mem kept =>
      have hpath := (follow_snoc hn₂ (indexAt page 2)).trans (edge_of_entryWord gframe.isTable entry)
      rw [hfollow _ (by simp)] at hpath
      cases hnone.symm.trans hpath
  | fresh entry taken mem capacity =>
      obtain ⟨rfl, -⟩ := List.cons.inj (hframes.symm.trans taken)
      have hzero := Level.entry_fresh hintact hn₂ (by simp) taken mem j
      refine ⟨⟨Function.update t.mem (entryAddress (wrap (f + offset)) (indexAt page 3))
        (entryWord frame flags.bits), t.free⟩, ?_, ?_⟩
      · unfold PageTree.mapPageToFrame
        rw [show List.range PageTree.maxDepth = [0, 1] ++ [2] from rfl, List.foldlM_append, htwo]
        change (List.foldlM _ (wrap (n + offset), (⟨m, free⟩ : PagingState)) [2] >>= _) = _
        rw [List.foldlM_cons, ht]
        simp only [getTableIndex_eq page (show PageTree.maxDepth < 4 by decide)]
        change Except.ok (⟨setChildFlags (setChildAddress t.mem (wrap (f + offset)) (indexAt page 3) frame)
          (wrap (f + offset)) (indexAt page 3) flags.bits, t.free⟩ : PagingState) = _
        rw [setChild_eq _ _ _ hframe]
      · rw [offsetIn, entryAt_update hft hft, if_neg fun hc => hj hc.2, hzero]
        rfl

/-! ### A machine with 64 MiB -/

/-- 64 MiB of usable memory, and one frame of the bootloader that holds the response. -/
def bootMap : LimineMap where
  entries := [⟨0x100000, 0x4000000, .usable⟩, ⟨0x4100000, 0x1000, .bootloaderReclaimable⟩]
  regular := by
    simp only [List.forall_mem_cons]
    unfold LimineMemmapEntry.Regular
    decide
  apart := by
    have h : [(⟨0x100000, 0x4000000, .usable⟩ : LimineMemmapEntry),
        ⟨0x4100000, 0x1000, .bootloaderReclaimable⟩].Pairwise fun a b =>
          a.base + a.length ≤ b.base ∨ b.base + b.length ≤ a.base := by decide
    exact h.imp fun hab _ _ => LimineMemmapEntry.Apart.of_le hab

def bootResponse : HhdmResponse := ⟨0xffff800000000000, 0x4100000, 1⟩

/-- One read-only page and one writable page. -/
def bootImage : KernelImage :=
  ⟨0xffffffff80000000, 0xffffffff80001000, 0xffffffff80001000, 0xffffffff80002000, 0x4200000⟩

def bootMemory : Memory := Function.update (fun _ => 0#64) 0xffff800004100008 0xffff800000000000#64

theorem bootMap_usableFrames : bootMap.usableFrames = stride 4096 0x100000 16384 := by
  have hfilter : bootMap.entries.filter isAllocatable = [⟨0x100000, 0x4000000, .usable⟩] := by decide
  simp only [LimineMap.usableFrames, framesOf, hfilter, List.flatMap_singleton, LimineMemmapEntry.frames]

theorem bootMap_reclaimableFrames : bootMap.reclaimableFrames = [0x4100000] := by
  decide

theorem bootMap_isFrame {f : Nat} (h : f ∈ bootMap.usableFrames) : IsFrame f ∧ f < 0x4100000 := by
  rw [bootMap_usableFrames, mem_stride] at h
  obtain ⟨i, hi, rfl⟩ := h
  unfold IsFrame
  omega

theorem bootMappings_fit : ∀ mapping ∈ initialMappings bootResponse.offset bootImage, mapping.Fits := by
  intro mapping h
  simp only [initialMappings, bootImage, List.mem_cons, List.not_mem_nil, or_false] at h
  rcases h with rfl | rfl | rfl | rfl <;> constructor <;> decide

theorem bootMappings_tables :
    ((initialMappings bootResponse.offset bootImage).map Mapping.tables).sum = 12297 := by decide

/-- The state in which `paging_init` returns: the response's frame is on top of
the stack, and only the last table of `0x100200000` is missing. -/
structure Booted (root : Nat) (free : FreeStack) (s : PagingState) : Prop where
  init : ∃ a, frameAllocatorInit bootMap.entries bootMemory = .ok a ∧
    Backs (freeStackFramesBegin bootMap.entries) a free
  safe : InitSafe bootResponse bootImage ⟨bootMemory, free⟩
  paging : pagingInit bootResponse.hhdm bootMap.entries (initialMappings bootResponse.offset bootImage)
    ⟨bootMemory, free⟩ = .ok (root, s)
  intact : Intact bootResponse.offset root s
  reads : bootResponse.hhdm s.mem = bootResponse.offset
  top : ∃ rest, s.free.frames = bootResponse.frame :: rest
  reached : ∀ page, (∃ mapping ∈ initialMappings bootResponse.offset bootImage, mapping.Has page) →
    ∃ n, follow (edge bootResponse.offset s.mem) root (path page) = some n
  none : follow (edge bootResponse.offset s.mem) root (path 0x100200000) = none

theorem bootMappings_path {page : Nat}
    (h : ∃ mapping ∈ initialMappings bootResponse.offset bootImage, mapping.Has page) :
    path 0x100200000 ≠ path page := by
  obtain ⟨mapping, hmem, hpage⟩ := h
  intro hpath
  simp only [initialMappings, bootImage, bootResponse, List.mem_cons, List.not_mem_nil, or_false] at hmem
  simp only [path, indexAt, List.cons.injEq, Fin.mk.injEq, and_true] at hpath
  norm_num at hpath
  unfold Mapping.Has at hpage
  rw [mem_stride] at hpage
  obtain ⟨i, hi, rfl⟩ := hpage
  rcases hmem with rfl | rfl | rfl | rfl <;> simp only [wrapSub] at hi hpath <;> omega

theorem bootMemory_reads : bootResponse.hhdm bootMemory = bootResponse.offset := by decide

theorem booted : ∃ root free s, Booted root free s := by
  obtain ⟨a, free, hinit, hbacks, hframes, hcapacity⟩ := frameAllocatorInit_spec bootMap bootMemory (by decide)
  have hlength := bootMap.unreservedFrames_length (by decide)
  have hreserved : numFreeStackFrames bootMap.entries = 32 := by decide
  rw [bootMap_usableFrames, stride_length] at hlength hcapacity
  have husable : ∀ f ∈ free.frames, f ∈ bootMap.usableFrames := by
    intro f hf
    rw [hframes, List.mem_reverse] at hf
    exact (List.mem_filter.mp hf).1
  have hnodup : free.frames.Nodup := by
    rw [hframes, List.nodup_reverse]
    exact bootMap.usableFrames_nodup.filter _
  have hcount : free.frames.length = 16352 := by
    rw [hframes, List.length_reverse]
    omega
  have hsome : free.frames ≠ [] := by
    intro hnil
    rw [hnil] at hcount
    cases hcount
  obtain ⟨root, free₁, halloc⟩ := FreeStack.allocateFrame_isOk hsome
  obtain ⟨hpop, hcapacity₁⟩ := FreeStack.allocateFrame_ok halloc
  rw [hpop] at hnodup hcount
  obtain ⟨hroot, hbelow⟩ := bootMap_isFrame (husable root (by rw [hpop]; exact List.mem_cons_self))
  have hlater : ∀ f ∈ free₁.frames, IsFrame f ∧ f < 0x4100000 := fun f hf =>
    bootMap_isFrame (husable f (by rw [hpop]; exact List.mem_cons_of_mem root hf))
  have hne : root ≠ bootResponse.frame := Nat.ne_of_lt hbelow
  have htable : IsTable bootResponse.frame := by decide
  have hvirtual : kernelPhysicalToVirtual bootResponse.hhdm bootMemory root =
      wrap (root + bootResponse.offset) := by
    rw [kernelPhysicalToVirtual, bootMemory_reads]
  have hread : bootResponse.hhdm (construct bootMemory (wrap (root + bootResponse.offset))) =
      bootResponse.offset := by
    rw [HhdmResponse.hhdm, offsetIn, entryAt_construct_of_ne hroot.isTable htable hne.symm]
    exact bootMemory_reads
  have hzero : ∀ i, entryAt bootResponse.offset
      (construct bootMemory (wrap (root + bootResponse.offset))) root i = 0#64 := fun i => entryAt_construct_self
  obtain ⟨fresh, hfresh⟩ : ∃ fresh, construct bootMemory (wrap (root + bootResponse.offset)) = fresh := ⟨_, rfl⟩
  rw [hfresh] at hread hzero
  obtain ⟨hrootFree, hnodup₁⟩ := List.nodup_cons.mp hnodup
  have hintact : Intact bootResponse.offset root ⟨fresh, free₁⟩ :=
    intact_fresh hroot.isTable hzero hrootFree hnodup₁ fun f hf => (hlater f hf).1
  have haside : Aside bootResponse.offset root ⟨fresh, free₁⟩ bootResponse.frame := by
    refine ⟨htable, fun hmem => ?_, fun ρ _ hk => hne (follow_fresh hzero hk).2.symm⟩
    exact absurd (hlater _ hmem).2 (by decide)
  rw [List.length_cons] at hcount
  obtain ⟨t, ht, hlaid, hused, hguard⟩ := addInitialMappings_laid (r := bootResponse) bootMappings_fit hintact haside
    hread (by
      rw [bootMappings_tables]
      dsimp only
      omega)
  have hreclaim : t.free.freeLimineBootloaderMemory bootMap.entries =
      .ok (t.free.deallocateFrame bootResponse.frame) := by
    rw [FreeStack.freeLimineBootloaderMemory,
      sweepFrames_eq _ fun e he hc => bootMap.regular e he (Or.inr hc)]
    exact congrArg (fun fs => Except.ok (List.foldl FreeStack.deallocateFrame t.free fs)) bootMap_reclaimableFrames
  have hroom : t.free.frames.length < t.free.capacity := by
    have hle := hlaid.free.length_le
    rw [hlaid.capacity]
    dsimp only at hle ⊢
    omega
  refine ⟨root, free, ⟨t.mem, t.free.deallocateFrame bootResponse.frame⟩, ⟨a, hinit, hbacks⟩, ?_, ?_, ?_,
    hlaid.reads hread, ⟨t.free.frames, ?_⟩, hlaid.reached, ?_⟩
  · intro root' free' halloc'
    cases halloc.symm.trans halloc'
    dsimp only
    rw [hfresh]
    exact ⟨hroot.isTable, hguard⟩
  · refine pagingInit_ok halloc ?_ hreclaim
    dsimp only
    rw [hvirtual, hfresh]
    exact ht
  · exact hlaid.intact.deallocate (by decide) hlaid.aside.free hlaid.aside.node
  · simp only [FreeStack.deallocateFrame, dif_pos hroom]
  · cases hk : follow (edge bootResponse.offset t.mem) root (path 0x100200000) with
    | none => rfl
    | some k =>
        rcases hlaid.grown _ k (path_length _).le hk with hold | ⟨page, hpage, hprefix⟩
        · cases (follow_fresh hzero hold).1
        · exact absurd (List.IsPrefix.eq_of_length hprefix rfl) (bootMappings_path hpage)

theorem Booted.frames {root : Nat} {free : FreeStack} {s : PagingState} (h : Booted root free s) :
    free.frames.Nodup ∧ ∀ f ∈ free.frames, f ∈ bootMap.usableFrames := by
  obtain ⟨a, hinit, hfree⟩ := h.init
  obtain ⟨a', free', hinit', hbacks, hframes, _⟩ := frameAllocatorInit_spec bootMap bootMemory (by decide)
  obtain rfl : a' = a := Except.ok.inj (hinit'.symm.trans hinit)
  have hsame : free.frames = bootMap.unreservedFrames.reverse := by
    rw [← hframes, ← hfree.contents, ← hbacks.contents]
  refine ⟨?_, fun f hf => ?_⟩
  · rw [hsame, List.nodup_reverse]
    exact bootMap.usableFrames_nodup.filter _
  · rw [hsame, List.mem_reverse] at hf
    exact (List.mem_filter.mp hf).1

/-- The kernel on its own tables: what it works on is in the 64 MiB and the frame after them. -/
structure Running (root : Nat) (s : PagingState) : Prop where
  standing : Standing bootResponse.offset root bootResponse.frame s
  reads : bootResponse.hhdm s.mem = bootResponse.offset
  low : ∀ f, WorkFrame bootResponse root s f → f < 0x4101000

theorem Booted.running {root : Nat} {free : FreeStack} {s : PagingState} (h : Booted root free s) :
    Running root s ∧ ∀ f ∈ s.free.frames, f ≠ 0 ∧ f < 0x4101000 := by
  obtain ⟨hnodup, husable⟩ := h.frames
  have hresponse : bootResponse.frame ∈ bootMap.reclaimableFrames := by
    rw [bootMap_reclaimableFrames]
    decide
  obtain ⟨hstanding, hread, hnodes, hfree⟩ := pagingInit_standing hnodup husable hresponse (by decide)
    bootMemory_reads h.safe h.paging
  refine ⟨⟨hstanding, hread, fun f hf => ?_⟩, fun f hf => ?_⟩
  · rcases hf with rfl | hnode
    · decide
    · have := (bootMap_isFrame (hnodes f hnode)).2
      omega
  · rcases hfree f hf with hf | hf
    · obtain ⟨hframe, hlow⟩ := bootMap_isFrame hf
      exact ⟨hframe.2.1, by omega⟩
    · rw [bootMap_reclaimableFrames, List.mem_singleton] at hf
      omega

theorem Running.addPage {root : Nat} {s : PagingState} (h : Running root s) {page frame : Nat} (flags : FlagSet)
    (hpage : page % 4096 = 0) (hlast : page + 4096 ≤ 0xfffffffffffff000) (hframe : IsTable frame)
    (hreached : ∃ n, follow (edge bootResponse.offset s.mem) root (path page) = some n)
    (hapart : ∀ f, f < 0x4101000 → ¬ SamePage (wrap (f + bootResponse.offset)) page) :
    ∃ t, (PagingCall.addMapping page frame pageSize flags).Rounds bootResponse.hhdm (wrap (root + bootResponse.offset))
        (fun s page frame => RoundSafe bootResponse root s page frame ∧ RoundSeen bootResponse root s page frame) s ∧
      pagingCall bootResponse.hhdm (wrap (root + bootResponse.offset)) s (.addMapping page frame pageSize flags) = .ok t ∧
      Running root t ∧ ∀ ρ n, ρ.length ≤ 3 → follow (edge bootResponse.offset s.mem) root ρ = some n →
        follow (edge bootResponse.offset t.mem) root ρ = some n := by
  obtain ⟨n, hn⟩ := hreached
  have hmissing := missing_eq_zero hn
  have hnone : tablesTaken bootResponse.offset root s page = [] := by rw [tablesTaken, hmissing, List.take_zero]
  have hresponse : IsTable bootResponse.frame := by decide
  have haside : Aside bootResponse.offset root ⟨s.mem, noFrames⟩ bootResponse.frame :=
    ⟨hresponse, List.not_mem_nil, fun ρ hρ hk => (h.standing.nodes ρ _ hρ hk).2 rfl⟩
  obtain ⟨⟨m, none⟩, hempty, hlaid, -⟩ := mapPageToFrame_laid h.standing.intact haside h.reads hframe flags hmissing.le
  have hall : s.free.Over noFrames s.free.frames := rfl
  obtain ⟨free, hs, -⟩ := mapPageToFrame_over hall hempty
  have hsafe : RoundSafe bootResponse root s page frame := by
    refine ⟨hframe, fun g hg => ?_⟩
    rw [hnone] at hg
    cases hg
  have hseen : RoundSeen bootResponse root s page frame := by
    refine ⟨fun g hg => ?_, fun f hf hsame => ?_⟩
    · rw [hnone] at hg
      cases hg
    · rw [hnone] at hf
      exact absurd hsame (hapart f (h.low f (hf.resolve_right List.not_mem_nil)))
  obtain ⟨hkept, -, hnodes⟩ := h.standing.map hresponse h.reads hframe hsafe.2 hs
  refine ⟨⟨m, free⟩, ?_, ?_, ⟨hkept.standing, hkept.reads h.reads, fun f hf => h.low f ?_⟩, hlaid.follow_mono⟩
  · unfold PagingCall.Rounds
    refine AddMappingRounds.page hpage hlast hframe.1 ?_
    exact ⟨hsafe, hseen⟩
  · change pagingAddMapping bootResponse.hhdm _ s page frame pageSize flags.bits = _
    rw [pagingAddMapping_page _ _ _ hpage hlast hframe.1]
    exact hs
  · refine hf.imp_right fun hnode => (hnodes f hnode).resolve_right ?_
    rw [hnone]
    exact List.not_mem_nil

theorem uncached_combination : (PageFlags.write ||| PageFlags.cacheDisable) &&& ~~~PageFlags.all = 0#64 := by decide

/-- The registers of the local APIC, which the kernel maps where they are in the direct
map already, and a page behind the kernel image. -/
def kernelCalls : List PagingCall :=
  [.addMapping 0xffff8000fee00000 0xfee00000 pageSize ⟨PageFlags.write ||| PageFlags.cacheDisable, uncached_combination⟩,
    .addMapping 0xffffffff80002000 0x300000 pageSize FlagSet.write]

theorem booted_kernel_calls {root : Nat} {free : FreeStack} {s : PagingState} (h : Booted root free s) :
    ∃ s', Run (pagingCall bootResponse.hhdm (wrap (root + bootResponse.offset)))
      (PagingCall.Rounds bootResponse.hhdm (wrap (root + bootResponse.offset))
        fun s page frame => RoundSafe bootResponse root s page frame ∧ RoundSeen bootResponse root s page frame) s
      kernelCalls s' := by
  have hreached := h.reached 0xffff8000fee00000
    ⟨(initialMappings bootResponse.offset bootImage)[1], by simp [initialMappings],
      mem_stride.mpr ⟨0xfee00, by decide, by decide⟩⟩
  obtain ⟨t, hrounds, ht, hrunning, hmono⟩ := h.running.1.addPage
    (⟨PageFlags.write ||| PageFlags.cacheDisable, uncached_combination⟩ : FlagSet) (by decide) (by decide)
    (show IsTable 0xfee00000 by decide) hreached fun f hf => by
      simp only [SamePage, wrap, bootResponse]
      omega
  obtain ⟨n, hn⟩ := h.reached 0xffffffff80000000
    ⟨(initialMappings bootResponse.offset bootImage)[2], by simp [initialMappings],
      mem_stride.mpr ⟨0, by decide, by decide⟩⟩
  rw [path_congr (show 0xffffffff80000000 / 2 ^ 21 = 0xffffffff80002000 / 2 ^ 21 by decide)] at hn
  obtain ⟨s', hrounds', hs', -, -⟩ := hrunning.addPage FlagSet.write (by decide) (by decide)
    (show IsTable 0x300000 by decide) ⟨n, hmono _ n (path_length _).le hn⟩ fun f hf => by
      simp only [SamePage, wrap, bootResponse]
      omega
  exact ⟨s', .cons hrounds ht (.cons hrounds' hs' (.nil _))⟩

/-! ### Whole runs -/

end DavOS
