import DavOS.PageRanges
import DavOS.TreeStates

/-! `paging_add_mapping` as a translation: after it the processor finds each byte
of the region as far into the physical range as it is into the virtual one. -/
namespace DavOS
open MachineWord PathGraph kernelConstants

/-- The physical address and the flags that the walk gives for one byte. -/
def Ia32e.translate (phys : Nat → BitVec 64) (cr3 virtualAddress : Nat) : Option (Nat × PageFlags) :=
  (Ia32e.leaf phys cr3 virtualAddress).map fun entry =>
    (Ia32e.addressField entry + virtualAddress % 4096, Ia32e.flagField entry)

section

variable {offset root : Nat} {s s' : PagingState}

theorem translate_of_entryWord {m : Memory} {v frame : Nat} {flags : FlagSet} (hframe : IsTable frame)
    (h : leafEntry offset root m v = entryWord frame flags.bits) :
    Ia32e.translate (physical offset m) root v = some (frame + v % 4096, flags.bits ||| PageFlags.present) := by
  rw [Ia32e.translate, leaf_eq_leafEntry, h, if_pos (entryWord_isPresent _ _), Option.map_some,
    entryWord_addressField hframe.1 hframe.2, entryWord_flagField hframe.1 hframe.2]

theorem addMappingSteps_succ {flags : PageFlags} {n x y : Nat} (hy : y + 4096 < 2 ^ 64) {at_ : PagingState × Nat}
    (hs : (stride 4096 x (n + 1)).foldlM (addMappingStep (fun _ => offset) (wrap (root + offset)) flags) (s, y) =
      .ok at_) :
    ∃ t, PageTree.mapPageToFrame (fun _ => offset) (wrap (root + offset)) s x y flags = .ok t ∧
      (stride 4096 (x + 4096) n).foldlM (addMappingStep (fun _ => offset) (wrap (root + offset)) flags) (t, y + 4096) =
        .ok at_ := by
  rw [stride, List.foldlM_cons] at hs
  obtain ⟨_, hfirst, hrest⟩ := bind_ok hs
  obtain ⟨t, ht, rfl⟩ := (addMappingStep_ok hy).mp hfirst
  exact ⟨t, ht, hrest⟩

theorem addMappingSteps_leaves (flags : FlagSet) (n : Nat) {x y : Nat} (h : Intact offset root s)
    (hx : x % 4096 = 0) (hy : y % 4096 = 0) (hend : y + 4096 * n ≤ 2 ^ 52) (hn : n ≤ 2 ^ 36) {at_ : PagingState × Nat}
    (hs : (stride 4096 x n).foldlM (addMappingStep (fun _ => offset) (wrap (root + offset)) flags.bits) (s, y) =
      .ok at_) :
    (∀ i < n, ∀ v, SamePage v (x + 4096 * i) →
      leafEntry offset root at_.1.mem v = entryWord (y + 4096 * i) flags.bits) ∧
    ∀ v, (∀ i < n, ¬ SamePage v (x + 4096 * i)) →
      leafEntry offset root at_.1.mem v = leafEntry offset root s.mem v := by
  induction n generalizing x y s with
  | zero =>
      cases hs
      exact ⟨fun i hi => absurd hi (Nat.not_lt_zero i), fun v _ => rfl⟩
  | succ n ih =>
      obtain ⟨t, ht, hrest⟩ := addMappingSteps_succ (by omega) hs
      have hmap := mapPageToFrame_spec h (show IsTable y from ⟨hy, by omega⟩) ht
      obtain ⟨hmapped, hother⟩ := ih (x := x + 4096) (y := y + 4096) hmap.intact (by omega) (by omega) (by omega)
        (by omega) hrest
      have hshift : ∀ z i, z + 4096 * (i + 1) = z + 4096 + 4096 * i := by
        intro z i
        rw [Nat.mul_add]
        omega
      refine ⟨?_, ?_⟩
      · intro i hi v hv
        cases i with
        | zero =>
            -- none of the later pages is this one, since fewer than `2 ^ 36` follow it
            have hlater : ∀ i < n, ¬ SamePage v (x + 4096 + 4096 * i) := by
              intro i hi hv'
              unfold SamePage at hv hv'
              omega
            rw [Nat.mul_zero, Nat.add_zero] at hv
            rw [hother v hlater, hmap.leaf_page hv, Nat.mul_zero, Nat.add_zero]
        | succ i =>
            rw [hshift] at hv ⊢
            exact hmapped i (Nat.lt_of_succ_lt_succ hi) v hv
      · intro v hv
        have hfirst := hv 0 (Nat.succ_pos n)
        rw [Nat.mul_zero, Nat.add_zero] at hfirst
        rw [hother v fun i hi => hshift x i ▸ hv (i + 1) (Nat.succ_lt_succ hi), hmap.leaf_other hfirst]

theorem addMappingSteps_isOk (flags : FlagSet) (n : Nat) {x y : Nat} (h : Intact offset root s)
    (hy : y % 4096 = 0) (hend : y + 4096 * n ≤ 2 ^ 52) (hroom : 3 * n ≤ s.free.frames.length) :
    ∃ at_, (stride 4096 x n).foldlM (addMappingStep (fun _ => offset) (wrap (root + offset)) flags.bits) (s, y) =
      .ok at_ := by
  induction n generalizing x y s with
  | zero => exact ⟨_, rfl⟩
  | succ n ih =>
      have hlack : missing (edge offset s.mem) root (path x) ≤ 3 := missing_path_le s.mem x
      obtain ⟨t, ht⟩ := mapPageToFrame_isOk h x y flags (by omega)
      have hmap := mapPageToFrame_spec h (show IsTable y from ⟨hy, by omega⟩) ht
      have htaken := hmap.frames_le
      obtain ⟨at_, hrest⟩ := ih (x := x + 4096) (y := y + 4096) hmap.intact (by omega) (by omega) (by omega)
      have hfirst : addMappingStep (fun _ => offset) (wrap (root + offset)) flags.bits (s, y) x = .ok (t, y + 4096) :=
        (addMappingStep_ok (by omega)).mpr ⟨t, ht, rfl⟩
      refine ⟨at_, ?_⟩
      rw [stride, List.foldlM_cons, hfirst]
      exact hrest

theorem addMappingSteps_intact (flags : FlagSet) (n : Nat) {x y : Nat} (h : Intact offset root s)
    (hy : y % 4096 = 0) (hend : y + 4096 * n ≤ 2 ^ 52) {at_ : PagingState × Nat}
    (hs : (stride 4096 x n).foldlM (addMappingStep (fun _ => offset) (wrap (root + offset)) flags.bits) (s, y) =
      .ok at_) :
    Intact offset root at_.1 ∧ s.free.frames.length ≤ at_.1.free.frames.length + 3 * n := by
  induction n generalizing x y s with
  | zero =>
      cases hs
      exact ⟨h, Nat.le_refl _⟩
  | succ n ih =>
      obtain ⟨t, ht, hrest⟩ := addMappingSteps_succ (by omega) hs
      have hmap := mapPageToFrame_spec h (show IsTable y from ⟨hy, by omega⟩) ht
      have htaken := hmap.frames_le
      obtain ⟨hintact, hleft⟩ := ih hmap.intact (by omega) (by omega) hrest
      exact ⟨hintact, by omega⟩

/-- A byte of the region lies in the page with its own number, as far in as the
byte of the physical range that it stands for. -/
theorem region_byte {virtualBase physicalBase length a : Nat} (hcong : virtualBase % 4096 = physicalBase % 4096)
    (hlow : virtualBase ≤ a) (hhigh : a < virtualBase + length) :
    ∃ i < pageCount virtualBase length, SamePage a (virtualBase / 4096 * 4096 + 4096 * i) ∧
      physicalBase / 4096 * 4096 + 4096 * i + a % 4096 = physicalBase + (a - virtualBase) := by
  refine ⟨a / 4096 - virtualBase / 4096, ?_, ?_, ?_⟩
  · unfold pageCount
    omega
  · unfold SamePage
    omega
  · omega

theorem canonical_page {virtualBase length i : Nat} (hhalf : InOneHalf virtualBase length)
    (hi : i < pageCount virtualBase length) : Canonical (virtualBase / 4096 * 4096 + 4096 * i) := by
  unfold pageCount at hi
  unfold InOneHalf at hhalf
  unfold Canonical
  omega

theorem pageMeets_of_samePage {virtualBase length v i : Nat} (hlength : 0 < length)
    (hhalf : InOneHalf virtualBase length) (hv : Canonical v) (hi : i < pageCount virtualBase length)
    (hsame : SamePage v (virtualBase / 4096 * 4096 + 4096 * i)) :
    PageMeets virtualBase length (v / 4096 * 4096) := by
  rw [samePage_canonical hv (canonical_page hhalf hi)] at hsame
  rw [pageMeets_iff hlength]
  unfold pageCount at hi
  omega

end

/-- `paging_add_mapping` translates the region to the physical range, byte by
byte and with the flags given, and changes the leaf entry of no other page. Three
free frames for each page are always enough. -/
theorem add_mapping_contiguous (offset root : Nat) (s : PagingState) (htree : ReachableTree offset root s.mem)
    (hspare : Spare offset root s.mem s.free) (virtualBase physicalBase length : Nat) (flags : FlagSet)
    (hcong : virtualBase % 4096 = physicalBase % 4096) (hlength : 0 < length)
    (hhalf : InOneHalf virtualBase length) (hend : virtualBase + length ≤ 0xfffffffffffff000)
    (hphysical : physicalBase + length ≤ 2 ^ 52) :
    (∀ s', pagingAddMapping (fun _ => offset) (wrap (root + offset)) s virtualBase physicalBase length flags.bits =
        .ok s' →
      (∀ a, virtualBase ≤ a → a < virtualBase + length → Ia32e.translate (physical offset s'.mem) root a =
        some (physicalBase + (a - virtualBase), flags.bits ||| PageFlags.present)) ∧
      ∀ v, Canonical v → ¬ PageMeets virtualBase length (v / 4096 * 4096) →
        leafEntry offset root s'.mem v = leafEntry offset root s.mem v) ∧
    (3 * pageCount virtualBase length ≤ s.free.frames.length →
      ∃ s', pagingAddMapping (fun _ => offset) (wrap (root + offset)) s virtualBase physicalBase length flags.bits =
        .ok s') := by
  have h := htree.intact hspare
  have hpages := (pages_eq_stride hend).1
  have hfloor : pageFloor physicalBase = physicalBase / 4096 * 4096 := by
    simp only [pageFloor, pageSize]
    omega
  have hframes : physicalBase / 4096 * 4096 + 4096 * pageCount virtualBase length ≤ 2 ^ 52 := by
    unfold pageCount
    omega
  have hcount : pageCount virtualBase length ≤ 2 ^ 36 := by
    unfold pageCount
    unfold InOneHalf at hhalf
    omega
  have hcall : pagingAddMapping (fun _ => offset) (wrap (root + offset)) s virtualBase physicalBase length flags.bits =
      ((stride 4096 (virtualBase / 4096 * 4096) (pageCount virtualBase length)).foldlM
        (addMappingStep (fun _ => offset) (wrap (root + offset)) flags.bits) (s, physicalBase / 4096 * 4096) >>=
        fun at_ => pure at_.1) := by
    rw [pagingAddMapping_eq, hpages, hfloor]
    rfl
  rw [hcall]
  constructor
  · intro s' hs
    obtain ⟨at_, hloop, hs⟩ := bind_ok hs
    obtain rfl : at_.1 = s' := Except.ok.inj hs
    obtain ⟨hmapped, hother⟩ := addMappingSteps_leaves flags _ h (Nat.mul_mod_left _ _) (Nat.mul_mod_left _ _)
      hframes hcount hloop
    refine ⟨fun a hlow hhigh => ?_, fun v hv hmeets => ?_⟩
    · obtain ⟨i, hi, hsame, hbyte⟩ := region_byte hcong hlow hhigh
      have hframe : IsTable (physicalBase / 4096 * 4096 + 4096 * i) := ⟨by omega, by omega⟩
      rw [translate_of_entryWord hframe (hmapped i hi a hsame), hbyte]
    · exact hother v fun i hi hsame => hmeets (pageMeets_of_samePage hlength hhalf hv hi hsame)
  · intro hroom
    obtain ⟨at_, hloop⟩ := addMappingSteps_isOk flags _ (x := virtualBase / 4096 * 4096) h (Nat.mul_mod_left _ _)
      hframes hroom
    exact ⟨at_.1, by rw [hloop]; rfl⟩

/-- Four bytes across a page boundary, mapped from the end of one frame on. -/
theorem add_mapping_contiguous_across_pages :
    ∃ s', pagingAddMapping (fun _ => 0) (wrap (0x1000 + 0)) sixFrames 0x400ffe 0x8ffe 4 PageFlags.write = .ok s' ∧
      Ia32e.translate (physical 0 s'.mem) 0x1000 0x401001 = some (0x9001, 3#64) := by
  obtain ⟨hmapped, hok⟩ := add_mapping_contiguous 0 0x1000 sixFrames sixFrames_reachable sixFrames_spare
    0x400ffe 0x8ffe 4 FlagSet.write (by decide) (by decide) (by unfold InOneHalf; omega) (by decide) (by decide)
  obtain ⟨s', hs'⟩ := hok (by decide)
  exact ⟨s', hs', (hmapped s' hs').1 0x401001 (by decide) (by decide)⟩

end DavOS
