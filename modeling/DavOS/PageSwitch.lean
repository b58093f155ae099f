import DavOS.AddMapping
import DavOS.Reclaim
import DavOS.VmmInit

/-! The switch of page tables in `paging_init`. The bootloader has mapped the first 4 GiB
twice and the kernel once; the kernel runs on in its own tree, which has to give the
same addresses, and its code is not to be writable in it. -/
namespace DavOS
open MachineWord PathGraph PageTreeNode kernelConstants

/-- A mapping inside one canonical half, below the last page, of frames that exist. -/
structure Mapping.Regular (mapping : Mapping) : Prop where
  size : 0 < mapping.fromVirtual.size
  half : InOneHalf mapping.fromVirtual.base mapping.fromVirtual.size
  high : mapping.fromVirtual.base + mapping.fromVirtual.size ≤ 0xfffffffffffff000
  physical : mapping.toPhysical / 4096 * 4096 +
    4096 * pageCount mapping.fromVirtual.base mapping.fromVirtual.size ≤ 2 ^ 52

/-- The page of `v` has a byte of the mapping. -/
def Mapping.Meets (mapping : Mapping) (v : Nat) : Prop :=
  PageMeets mapping.fromVirtual.base mapping.fromVirtual.size (v / 4096 * 4096)

/-- The frame that the page of `v` is mapped to. -/
def Mapping.frame (mapping : Mapping) (v : Nat) : Nat :=
  mapping.toPhysical / 4096 * 4096 + 4096 * (v / 4096 - mapping.fromVirtual.base / 4096)

/-- The tree before the reclaim: the frame with the offset is neither free nor a table. -/
structure Settled (r : HhdmResponse) (root : Nat) (s : PagingState) : Prop where
  intact : Intact r.offset root s
  aside : Aside r.offset root s r.frame
  reads : r.hhdm s.mem = r.offset

section

variable {r : HhdmResponse} {root : Nat} {s t : PagingState}

theorem Settled.map (h : Settled r root s) {page frame : Nat} {flags : FlagSet} (hframe : IsTable frame)
    (hs : PageTree.mapPageToFrame r.hhdm (wrap (root + r.offset)) s page frame flags.bits = .ok t) :
    Settled r root t ∧
      PageTree.mapPageToFrame (fun _ => r.offset) (wrap (root + r.offset)) s page frame flags.bits = .ok t := by
  rw [HhdmResponse.hhdm, mapPageToFrame_congr h.intact h.aside h.reads] at hs
  obtain ⟨haside, hwords⟩ := mapPageToFrame_aside h.intact hframe.1 h.aside hs
  refine ⟨⟨(mapPageToFrame_spec h.intact hframe hs).intact, haside, ?_⟩, hs⟩
  rw [HhdmResponse.hhdm, offsetIn, hwords]
  exact h.reads

theorem Settled.addMappingSteps (flags : FlagSet) (n : Nat) {x y : Nat} (h : Settled r root s) (hy : y % 4096 = 0)
    (hend : y + 4096 * n ≤ 2 ^ 52) {at_ : PagingState × Nat}
    (hs : (stride 4096 x n).foldlM (addMappingStep r.hhdm (wrap (root + r.offset)) flags.bits) (s, y) = .ok at_) :
    Settled r root at_.1 ∧
      (stride 4096 x n).foldlM (addMappingStep (fun _ => r.offset) (wrap (root + r.offset)) flags.bits) (s, y) =
        .ok at_ := by
  induction n generalizing x y s with
  | zero =>
      cases hs
      exact ⟨h, rfl⟩
  | succ n ih =>
      rw [stride, List.foldlM_cons] at hs
      obtain ⟨_, hfirst, hrest⟩ := bind_ok hs
      obtain ⟨t, ht, rfl⟩ := (addMappingStep_ok (by omega)).mp hfirst
      obtain ⟨hsettled, hconst⟩ := h.map ⟨hy, by omega⟩ ht
      obtain ⟨hlast, hloop⟩ := ih hsettled (by omega) (by omega) hrest
      refine ⟨hlast, ?_⟩
      rw [stride, List.foldlM_cons, (addMappingStep_ok (by omega)).mpr ⟨t, hconst, rfl⟩]
      exact hloop

theorem Settled.call (h : Settled r root s) {mapping : Mapping} (hregular : mapping.Regular)
    (hs : pagingCall r.hhdm (wrap (root + r.offset)) s mapping.call = .ok t) :
    Settled r root t ∧ ∀ v, Canonical v →
      (mapping.Meets v → leafEntry r.offset root t.mem v = entryWord (mapping.frame v) mapping.flags.bits) ∧
      (¬ mapping.Meets v → leafEntry r.offset root t.mem v = leafEntry r.offset root s.mem v) := by
  obtain ⟨⟨base, size⟩, physical, flags⟩ := mapping
  obtain ⟨hsize, hhalf, hhigh, hphysical⟩ := hregular
  dsimp only at hsize hhalf hhigh hphysical
  have hfloor : pageFloor physical = physical / 4096 * 4096 := by
    simp only [pageFloor, pageSize]
    omega
  change pagingAddMapping _ _ _ base physical size flags.bits = _ at hs
  rw [pagingAddMapping_eq, (pages_eq_stride hhigh).1, hfloor, orHang_some] at hs
  obtain ⟨pages, hpages, hs⟩ := bind_ok hs
  cases hpages
  obtain ⟨at_, hloop, hs⟩ := bind_ok hs
  obtain rfl : at_.1 = t := Except.ok.inj hs
  obtain ⟨hsettled, hconst⟩ := h.addMappingSteps flags _ (Nat.mul_mod_left _ _) hphysical hloop
  have hcount : pageCount base size ≤ 2 ^ 36 := by
    unfold pageCount
    unfold InOneHalf at hhalf
    omega
  obtain ⟨hmapped, hother⟩ := addMappingSteps_leaves flags _ h.intact (Nat.mul_mod_left _ _) (Nat.mul_mod_left _ _)
    hphysical hcount hconst
  refine ⟨hsettled, fun v hv => ⟨fun hmeets => ?_, fun hmeets => ?_⟩⟩
  · obtain ⟨haligned, hbelow, habove⟩ := (pageMeets_iff hsize _).mp hmeets
    have hi : v / 4096 - base / 4096 < pageCount base size := by
      unfold pageCount
      dsimp only at hbelow habove
      omega
    have hsame : SamePage v (base / 4096 * 4096 + 4096 * (v / 4096 - base / 4096)) := by
      unfold SamePage
      dsimp only at habove
      omega
    exact hmapped _ hi v hsame
  · exact hother v fun i hi hsame => hmeets (pageMeets_of_samePage hsize hhalf hv hi hsame)

/-- Mappings that have no page in common all stand at the end. -/
theorem Settled.calls {mappings : List Mapping} (h : Settled r root s)
    (hregular : ∀ mapping ∈ mappings, mapping.Regular)
    (hapart : mappings.Pairwise fun mapping later => ∀ v, Canonical v → mapping.Meets v → ¬ later.Meets v)
    (hs : addInitialMappings r.hhdm (wrap (root + r.offset)) mappings s = .ok t) :
    Settled r root t ∧ ∀ v, Canonical v →
      (∀ mapping ∈ mappings, mapping.Meets v →
        leafEntry r.offset root t.mem v = entryWord (mapping.frame v) mapping.flags.bits) ∧
      ((∀ mapping ∈ mappings, ¬ mapping.Meets v) →
        leafEntry r.offset root t.mem v = leafEntry r.offset root s.mem v) := by
  unfold addInitialMappings at hs
  induction mappings generalizing s with
  | nil =>
      cases hs
      exact ⟨h, fun v _ => ⟨fun mapping hmem => absurd hmem List.not_mem_nil, fun _ => rfl⟩⟩
  | cons first mappings ih =>
      rw [List.map_cons, List.foldlM_cons] at hs
      obtain ⟨next, hnext, hs⟩ := bind_ok hs
      obtain ⟨hfirst, hrest⟩ := List.pairwise_cons.mp hapart
      obtain ⟨hsettled, hleaf⟩ := h.call (hregular first List.mem_cons_self) hnext
      obtain ⟨hlast, hleaves⟩ := ih hsettled (fun q hq => hregular q (List.mem_cons_of_mem first hq)) hrest hs
      refine ⟨hlast, fun v hv => ⟨?_, fun hnone => ?_⟩⟩
      · intro mapping hmem hmeets
        rcases List.mem_cons.mp hmem with rfl | hmem
        · rw [(hleaves v hv).2 fun later hlater => hfirst later hlater v hv hmeets]
          exact (hleaf v hv).1 hmeets
        · exact (hleaves v hv).1 mapping hmem hmeets
      · rw [(hleaves v hv).2 fun later hlater => hnone later (List.mem_cons_of_mem first hlater)]
        exact (hleaf v hv).2 (hnone first List.mem_cons_self)

end

/-! ### The kernel's own ranges -/

section

variable {offset : Nat} {image : KernelImage} {v : Nat}

theorem KernelImage.Placed.mappings_eq (h : image.Placed offset) :
    initialMappings offset image =
      [⟨⟨0x1000, 0x100000000⟩, 0x1000, FlagSet.write⟩, ⟨⟨offset, 0x100000000⟩, 0, FlagSet.write⟩,
        ⟨⟨image.readonlyStart, image.readonlyEnd - image.readonlyStart⟩, image.physicalBase, FlagSet.none⟩,
        ⟨⟨image.rwStart, image.rwEnd - image.rwStart⟩,
          wrap (image.physicalBase + (image.readonlyEnd - image.readonlyStart)), FlagSet.write⟩] := by
  obtain ⟨_, _, _, _, hguard, _, ⟨hstart, hstack⟩, hbounded⟩ := h
  have hreadonly : wrapSub image.readonlyEnd image.readonlyStart = image.readonlyEnd - image.readonlyStart :=
    wrapSub_of_le (by omega) (by omega)
  have hrw : wrapSub image.rwEnd image.rwStart = image.rwEnd - image.rwStart := wrapSub_of_le (by omega) (by omega)
  rw [initialMappings, hreadonly, hrw]

/-- A range touches at most one page more than its bytes fill. -/
theorem mapping_regular {base size : Nat} (physical : Nat) (flags : FlagSet) (hsize : 0 < size)
    (hhalf : InOneHalf base size) (hhigh : base + size ≤ 0xfffffffffffff000)
    (hphysical : physical + size < 2 ^ 51) : Mapping.Regular ⟨⟨base, size⟩, physical, flags⟩ := by
  refine ⟨hsize, hhalf, hhigh, ?_⟩
  simp only [pageCount]
  omega

theorem KernelImage.Placed.mappings_regular (h : image.Placed offset)
    (hphysical : image.physicalBase + (image.rwEnd - image.readonlyStart) < 2 ^ 51) :
    ∀ mapping ∈ initialMappings offset image, mapping.Regular := by
  rw [h.mappings_eq]
  obtain ⟨hcanonical, _, habove, _, hguard, _, ⟨hrw, hstack⟩, hbounded⟩ := h
  have hwrap : wrap (image.physicalBase + (image.readonlyEnd - image.readonlyStart)) =
      image.physicalBase + (image.readonlyEnd - image.readonlyStart) := wrap_of_lt (by omega)
  rw [hwrap]
  intro mapping hmapping
  simp only [List.mem_cons, List.not_mem_nil, or_false] at hmapping
  rcases hmapping with rfl | rfl | rfl | rfl
  · exact mapping_regular _ _ (by omega) (Or.inl (by omega)) (by omega) (by omega)
  · exact mapping_regular _ _ (by omega) (Or.inr ⟨by omega, by omega⟩) (by omega) (by omega)
  · exact mapping_regular _ _ (by omega) (Or.inr ⟨by omega, by omega⟩) (by omega) (by omega)
  · exact mapping_regular _ _ (by omega) (Or.inr ⟨by omega, by omega⟩) (by omega) (by omega)

theorem meets_aligned {base size physical : Nat} {flags : FlagSet} (hbase : base % 4096 = 0) (hsize : 0 < size) :
    Mapping.Meets ⟨⟨base, size⟩, physical, flags⟩ v ↔ base ≤ v ∧ v / 4096 * 4096 < base + size := by
  unfold Mapping.Meets
  rw [pageMeets_iff hsize]
  dsimp only
  omega

theorem meets_pages {base size physical : Nat} {flags : FlagSet} (hbase : base % 4096 = 0) (hsize : 0 < size)
    (hpages : size % 4096 = 0) : Mapping.Meets ⟨⟨base, size⟩, physical, flags⟩ v ↔ base ≤ v ∧ v < base + size := by
  rw [meets_aligned hbase hsize]
  omega

theorem KernelImage.Placed.meets (h : image.Placed offset) (v physical : Nat) :
    (Mapping.Meets ⟨⟨0x1000, 0x100000000⟩, 0x1000, FlagSet.write⟩ v ↔ 0x1000 ≤ v ∧ v < 0x100001000) ∧
    (Mapping.Meets ⟨⟨offset, 0x100000000⟩, 0, FlagSet.write⟩ v ↔ offset ≤ v ∧ v < offset + 0x100000000) ∧
    (Mapping.Meets ⟨⟨image.readonlyStart, image.readonlyEnd - image.readonlyStart⟩, image.physicalBase, FlagSet.none⟩
        v ↔ image.readonlyStart ≤ v ∧ v < image.readonlyEnd) ∧
    (Mapping.Meets ⟨⟨image.rwStart, image.rwEnd - image.rwStart⟩, physical, FlagSet.write⟩ v ↔
      image.rwStart ≤ v ∧ v / 4096 * 4096 < image.rwEnd) := by
  obtain ⟨_, haligned, _, hstart, hguard, hend, ⟨hrw, hstack⟩, _⟩ := h
  have hreadonly : image.readonlyStart + (image.readonlyEnd - image.readonlyStart) = image.readonlyEnd := by omega
  have hwritable : image.rwStart + (image.rwEnd - image.rwStart) = image.rwEnd := by omega
  refine ⟨meets_pages rfl (by decide) rfl, meets_pages haligned (by decide) rfl, ?_, ?_⟩
  · rw [meets_pages hstart (by omega) (by omega), hreadonly]
  · rw [meets_aligned (hrw ▸ hend) (by omega), hwritable]

theorem KernelImage.Placed.writable_part (h : image.Placed offset) (hbase : image.physicalBase % 0x1000 = 0) :
    (image.physicalBase + (image.readonlyEnd - image.readonlyStart)) % 4096 = 0 ∧ ∀ v, image.rwStart ≤ v →
      image.physicalBase + (image.readonlyEnd - image.readonlyStart) + (v - image.rwStart) =
        image.physicalBase + (v - image.readonlyStart) := by
  obtain ⟨_, _, _, hstart, hguard, hend, ⟨hrw, _⟩, _⟩ := h
  refine ⟨by omega, fun v hv => ?_⟩
  omega

theorem KernelImage.Placed.mappings_apart (h : image.Placed offset) :
    (initialMappings offset image).Pairwise fun mapping later =>
      ∀ v, Canonical v → mapping.Meets v → ¬ later.Meets v := by
  rw [h.mappings_eq]
  have hmeets := fun v => h.meets v (wrap (image.physicalBase + (image.readonlyEnd - image.readonlyStart)))
  obtain ⟨hcanonical, haligned, habove, _, _, _, ⟨hrw, _⟩, _⟩ := h
  simp only [List.pairwise_cons, List.forall_mem_cons, List.not_mem_nil, false_imp_iff, implies_true, and_true,
    List.Pairwise.nil]
  refine ⟨⟨?_, ?_, ?_⟩, ⟨?_, ?_⟩, ?_⟩ <;> intro v _ <;>
    simp only [(hmeets v).1, (hmeets v).2.1, (hmeets v).2.2.1, (hmeets v).2.2.2] <;>
    rintro ⟨hlow, hhigh⟩ ⟨hlow', _⟩ <;> omega

end

theorem pagingInit_leaves {r : HhdmResponse} {mappings : List Mapping} {map : List LimineMemmapEntry} {m : Memory}
    {free : FreeStack} (hnodup : free.frames.Nodup) (hframes : ∀ f ∈ free.frames, IsFrame f)
    (hresponse : r.frame ∉ free.frames) (htable : IsTable r.frame) (hread : r.hhdm m = r.offset)
    (hregular : ∀ mapping ∈ mappings, mapping.Regular)
    (hapart : mappings.Pairwise fun mapping later => ∀ v, Canonical v → mapping.Meets v → ¬ later.Meets v)
    {root : Nat} {s : PagingState} (hs : pagingInit r.hhdm map mappings ⟨m, free⟩ = .ok (root, s)) :
    (∃ spare, Intact r.offset root ⟨s.mem, spare⟩) ∧ ∀ v, Canonical v →
      (∀ mapping ∈ mappings, mapping.Meets v →
        leafEntry r.offset root s.mem v = entryWord (mapping.frame v) mapping.flags.bits) ∧
      ((∀ mapping ∈ mappings, ¬ mapping.Meets v) → leafEntry r.offset root s.mem v = 0#64) := by
  unfold pagingInit at hs
  obtain ⟨⟨pml4, free₁⟩, halloc, hs⟩ := bind_ok hs
  obtain ⟨t, hmappings, hs⟩ := bind_ok hs
  obtain ⟨free₂, _, hs⟩ := bind_ok hs
  cases hs
  have hpop : free.frames = root :: free₁.frames := (FreeStack.allocateFrame_ok halloc).1
  rw [hpop] at hnodup hframes hresponse
  have hroot : IsFrame root := hframes root List.mem_cons_self
  have hne : root ≠ r.frame := fun hc => hresponse (hc ▸ List.mem_cons_self)
  have hvirtual : kernelPhysicalToVirtual r.hhdm m root = wrap (root + r.offset) := by
    rw [kernelPhysicalToVirtual, hread]
  simp only [hvirtual] at hmappings
  obtain ⟨hintact, hclear⟩ := fresh_tree r.offset m hroot.isTable hnodup fun f hf =>
    hframes f (List.mem_cons_of_mem root hf)
  have hzero : ∀ i, entryAt r.offset (construct m (wrap (root + r.offset))) root i = 0#64 :=
    fun i => entryAt_construct_self
  have hread₁ : r.hhdm (construct m (wrap (root + r.offset))) = r.offset := by
    rw [HhdmResponse.hhdm, offsetIn, entryAt_construct_of_ne hroot.isTable htable hne.symm]
    exact hread
  generalize construct m (wrap (root + r.offset)) = fresh at hmappings hintact hclear hzero hread₁
  have haside : Aside r.offset root ⟨fresh, free₁⟩ r.frame :=
    ⟨htable, fun hc => hresponse (List.mem_cons_of_mem root hc), fun ρ _ hk => hne (follow_fresh hzero hk).2.symm⟩
  have hsettled : Settled r root ⟨fresh, free₁⟩ := ⟨hintact, haside, hread₁⟩
  obtain ⟨hlast, hleaves⟩ := hsettled.calls hregular hapart hmappings
  refine ⟨⟨t.free, hlast.intact⟩, fun v hv => ⟨(hleaves v hv).1, fun hnone => ?_⟩⟩
  exact ((hleaves v hv).2 hnone).trans (hclear v)

/-- The frames below 4 GiB are in the direct map of the new tree, those that the kernel works on among them. -/
theorem pagingInit_inDirectMap {r : HhdmResponse} {image : KernelImage} {map : List LimineMemmapEntry} {m : Memory}
    {free : FreeStack} (hplaced : image.Placed r.offset)
    (hphysical : image.physicalBase + (image.rwEnd - image.readonlyStart) < 2 ^ 51)
    (hnodup : free.frames.Nodup) (hframes : ∀ f ∈ free.frames, IsFrame f) (hresponse : r.frame ∉ free.frames)
    (htable : IsTable r.frame) (hread : r.hhdm m = r.offset) {root : Nat} {s : PagingState}
    (hs : pagingInit r.hhdm map (initialMappings r.offset image) ⟨m, free⟩ = .ok (root, s)) {f : Nat}
    (hf : f % 4096 = 0) (hlow : f < 2 ^ 32) : InDirectMap r root s f := by
  have hcanonical := hplaced.canonical
  have haligned := hplaced.aligned
  have habove := hplaced.above
  have hbounded := hplaced.bounded
  have hguard := hplaced.guard
  have hstack := hplaced.stack
  have hwrap : wrap (f + r.offset) = f + r.offset := wrap_of_lt (by omega)
  have hv : Canonical (f + r.offset) := Or.inr ⟨by omega, by omega⟩
  have hmem : (⟨⟨r.offset, 0x100000000⟩, 0, FlagSet.write⟩ : Mapping) ∈ initialMappings r.offset image := by
    simp [initialMappings]
  have hmeets : Mapping.Meets ⟨⟨r.offset, 0x100000000⟩, 0, FlagSet.write⟩ (f + r.offset) :=
    (hplaced.meets (f + r.offset) 0).2.1.mpr ⟨by omega, by omega⟩
  have hleaf := ((pagingInit_leaves hnodup hframes hresponse htable hread (hplaced.mappings_regular hphysical)
    hplaced.mappings_apart hs).2 _ hv).1 _ hmem hmeets
  have hframe : Mapping.frame ⟨⟨r.offset, 0x100000000⟩, 0, FlagSet.write⟩ (f + r.offset) = f := by
    simp only [Mapping.frame]
    omega
  have htable : IsTable f := ⟨hf, by omega⟩
  rw [hframe] at hleaf
  exact inDirectMap_of_entryWord htable (by rw [hwrap]; exact hleaf)

theorem Mapping.Regular.isTable {mapping : Mapping} (h : mapping.Regular) {v : Nat} (hmeets : mapping.Meets v) :
    IsTable (mapping.frame v) := by
  obtain ⟨⟨base, size⟩, frames, flags⟩ := mapping
  obtain ⟨hsize, -, -, hphysical⟩ := h
  obtain ⟨_, hbelow, habove⟩ := (pageMeets_iff hsize _).mp hmeets
  dsimp only [pageCount] at hsize hphysical hbelow habove
  have hcount : v / 4096 - base / 4096 < (base + size + 4095) / 4096 - base / 4096 := by omega
  refine ⟨?_, Nat.lt_of_lt_of_le ?_ hphysical⟩
  · rw [Mapping.frame, Nat.add_mul_mod_self_left]
    exact Nat.mul_mod_left _ _
  · exact Nat.add_lt_add_left ((Nat.mul_lt_mul_left (by decide)).mpr hcount) _

theorem translate_of_meets {mapping : Mapping} (h : mapping.Regular) {offset root v : Nat} {m : Memory}
    (hmeets : mapping.Meets v)
    (hleaf : leafEntry offset root m v = entryWord (mapping.frame v) mapping.flags.bits) :
    Ia32e.translate (physical offset m) root v =
      some (mapping.frame v + v % 4096, mapping.flags.bits ||| PageFlags.present) := by
  exact translate_of_entryWord (h.isTable hmeets) hleaf

theorem frame_byte {base size physical v : Nat} {flags : FlagSet} (hbase : base % 4096 = 0)
    (hphysical : physical % 4096 = 0) (hv : base ≤ v) :
    Mapping.frame ⟨⟨base, size⟩, physical, flags⟩ v + v % 4096 = physical + (v - base) := by
  dsimp only [Mapping.frame]
  omega

/-- What the boot protocol maps, as far as the kernel relies on it: the first 4 GiB from the second page
on and once more from `offset` on, and the kernel where it is loaded. The kernel's code is not writable. -/
def bootTranslation (offset : Nat) (image : KernelImage) (v : Nat) : Option (Nat × PageFlags) :=
  if 0x1000 ≤ v ∧ v < 0x100001000 then some (v, PageFlags.write ||| PageFlags.present)
  else if offset ≤ v ∧ v < offset + 0x100000000 then some (v - offset, PageFlags.write ||| PageFlags.present)
  else if image.readonlyStart ≤ v ∧ v < image.readonlyEnd then
    some (image.physicalBase + (v - image.readonlyStart), PageFlags.present)
  else if image.rwStart ≤ v ∧ v / 4096 * 4096 < image.rwEnd then
    some (image.physicalBase + (v - image.readonlyStart), PageFlags.write ||| PageFlags.present)
  else none

theorem bootImage_placed : bootImage.Placed bootResponse.offset :=
  ⟨by decide, by decide, by decide, by decide, by decide, by decide, by decide, by decide⟩

theorem Booted.stack {root : Nat} {free : FreeStack} {s : PagingState} (h : Booted root free s) :
    free.frames.Nodup ∧ (∀ f ∈ free.frames, IsFrame f) ∧ bootResponse.frame ∉ free.frames := by
  obtain ⟨hnodup, husable⟩ := h.frames
  refine ⟨hnodup, fun f hf => (bootMap_isFrame (husable f hf)).1, fun hc => ?_⟩
  exact absurd (bootMap_isFrame (husable _ hc)).2 (by decide)

end DavOS
