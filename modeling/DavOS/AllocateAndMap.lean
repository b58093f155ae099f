import DavOS.AddMapping
import DavOS.PageFault
import DavOS.PathCount

/-! `paging_allocate_and_map`. The data frames and the tables for them come off one
stack, in an order that depends on which tables are there already; each frame that
is taken has one use, and the stack shrinks by the pages and the new tables. -/
namespace DavOS
open MachineWord PathGraph kernelConstants

/-! ### Where the frames of one mapping go -/

section

variable {offset root : Nat} {s s' : PagingState} {π τ : List Index} {n c : Nat} {flags : FlagSet}

theorem Descent.isNode (hd : Descent offset flags π n s τ c s') (h : Intact offset root s)
    (hn : follow (edge offset s.mem) root π = some n) (hlen : π.length + τ.length ≤ 3) {f : Nat}
    (hf : f ∈ s.free.frames) : f ∈ s'.free.frames ∨ IsNode offset root s'.mem f := by
  induction hd with
  | here π n s => exact Or.inl hf
  | @down π τ n c c' i s t s' hl hd ih =>
      obtain ⟨hlt, hlen'⟩ := path_room hlen
      have hintact := hl.intact h hn hlt
      have hchild := hl.child h hn hlt
      by_cases hft : f ∈ t.free.frames
      · exact ih hintact hchild hlen' hft
      · have hfc : f = c := by
          cases hl with
          | kept old frame entry mem free => exact absurd (free ▸ hf) hft
          | fresh entry free mem capacity =>
              rw [free] at hf
              exact (List.mem_cons.mp hf).resolve_right hft
        subst hfc
        have hlen'' : (π ++ [i]).length ≤ 3 := by omega
        exact Or.inr ⟨π ++ [i], hlen'', (hd.arrived hintact hchild hlen').follow_mono _ _ hlen'' hchild⟩

theorem mapPageToFrame_nodes (h : Intact offset root s) {page frame : Nat} (hframe : IsTable frame)
    (hs : PageTree.mapPageToFrame (fun _ => offset) (wrap (root + offset)) s page frame flags.bits = .ok s') :
    ∃ tables, s.free.frames = tables ++ s'.free.frames ∧
      tables.length = missing (edge offset s.mem) root (path page) ∧
      ∀ n, IsNode offset root s'.mem n ↔ IsNode offset root s.mem n ∨ n ∈ tables := by
  have hmap := mapPageToFrame_spec h hframe hs
  obtain ⟨tables, htaken, hcount⟩ := hmap.taken
  refine ⟨tables, htaken, hcount, fun n => ⟨?_, ?_⟩⟩
  · rintro ⟨ρ, hρ, hn⟩
    rcases hmap.grown ρ n hρ hn with hold | ⟨hfree, _⟩
    · exact Or.inl ⟨ρ, hρ, hold⟩
    · rw [htaken] at hfree
      exact Or.inr ((List.mem_append.mp hfree).resolve_right (hmap.intact.nodes ρ n hρ hn).2)
  · rintro (⟨ρ, hρ, hn⟩ | hn)
    · exact ⟨ρ, hρ, hmap.follow_mono ρ n hρ hn⟩
    · have hfree : n ∈ s.free.frames := htaken ▸ List.mem_append_left _ hn
      have hgone : n ∉ s'.free.frames := by
        have hnodup := h.nodup
        rw [htaken] at hnodup
        exact (List.nodup_append'.mp hnodup).2.2 hn
      obtain ⟨c, t, hd, rfl⟩ := mapPageToFrame_descent h hframe.1 hs
      have harrived := hd.arrived h (follow_nil _ _) (by simp [path_length])
      obtain ⟨ρ, hρ, hnode⟩ := (hd.isNode h (follow_nil _ _) (by simp [path_length]) hfree).resolve_left hgone
      exact ⟨ρ, hρ, (follow_leafStore harrived.intact harrived.follow_end _ hρ).trans hnode⟩

end

/-! ### The loop -/

def PageRange.pages (range : PageRange) : List Nat :=
  stride 4096 range.firstPage ((range.lastPage - range.firstPage) / 4096)

/-- The tables that the walks of some pages lack, each named by the indices on the way to it. -/
def tablesLacking (offset root : Nat) (m : Memory) (pages : List Nat) : Finset (List Index) :=
  unreached (edge offset m) root (pages.map path)

/-- Each page has a frame of its own from the stack. The frames that were taken
besides are the tables that the tree has gained. -/
structure FreshlyMapped (offset root : Nat) (flags : FlagSet) (pages : List Nat) (s s' : PagingState)
    (frames tables : List Nat) : Prop where
  mapped : List.Forall₂ (fun page frame => leafEntry offset root s'.mem page = entryWord frame flags.bits) pages frames
  taken : s.free.frames.Perm (frames ++ tables ++ s'.free.frames)
  nodes : ∀ n, IsNode offset root s'.mem n ↔ IsNode offset root s.mem n ∨ n ∈ tables
  lacking : tables.length = (tablesLacking offset root s.mem pages).card
  others : ∀ v, (∀ page ∈ pages, ¬ SamePage v page) →
    leafEntry offset root s'.mem v = leafEntry offset root s.mem v

section

variable {offset root : Nat} {s s' t : PagingState} {page frame : Nat} {pages : List Nat} {flags : FlagSet}

theorem MapsPage.lacking (h : MapsPage offset root s t page frame flags) (pages : List Nat) :
    (tablesLacking offset root s.mem (page :: pages)).card =
      missing (edge offset s.mem) root (path page) + (tablesLacking offset root t.mem pages).card := by
  refine card_unreached_cons fun ρ hρ => ?_
  have hlen : ρ.length ≤ 3 := by
    obtain ⟨τ, hτ, hpart⟩ := hρ
    obtain ⟨v, _, rfl⟩ := List.mem_map.mp hτ
    exact hpart.length_le
  constructor
  · intro hnone
    refine ⟨?_, ?_⟩
    · cases hs : follow (edge offset s.mem) root ρ with
      | none => rfl
      | some k =>
          rw [h.follow_mono ρ k hlen hs] at hnone
          cases hnone
    · rintro ⟨τ, hτ⟩
      obtain ⟨k, hk⟩ := h.reached
      rw [← hτ] at hk
      obtain ⟨k', hk'⟩ := follow_of_append hk
      rw [hk'] at hnone
      cases hnone
  · rintro ⟨hnone, hpart⟩
    cases ht : follow (edge offset t.mem) root ρ with
    | none => rfl
    | some k =>
        rcases h.grown ρ k hlen ht with hold | ⟨_, hon⟩
        · rw [hnone] at hold
          cases hold
        · exact absurd hon hpart

theorem freshlyMapped_cons {frames tables tables' : List Nat} {free : FreeStack}
    (halloc : s.free.allocateFrame = .ok (frame, free)) (hmap : MapsPage offset root ⟨s.mem, free⟩ t page frame flags)
    (htables : free.frames = tables ++ t.free.frames)
    (hcount : tables.length = missing (edge offset s.mem) root (path page))
    (hnodes : ∀ n, IsNode offset root t.mem n ↔ IsNode offset root s.mem n ∨ n ∈ tables)
    (hpage : ∀ q ∈ pages, ¬ SamePage page q)
    (hrest : FreshlyMapped offset root flags pages t s' frames tables') :
    FreshlyMapped offset root flags (page :: pages) s s' (frame :: frames) (tables ++ tables') := by
  refine ⟨.cons ?_ hrest.mapped, ?_, fun n => ?_, ?_, fun v hv => ?_⟩
  · rw [hrest.others page hpage, hmap.leaf_page rfl]
  · rw [(FreeStack.allocateFrame_ok halloc).1, htables]
    refine List.Perm.cons frame ?_
    calc tables ++ t.free.frames
      _ |>.Perm (tables ++ (frames ++ tables' ++ s'.free.frames)) := hrest.taken.append_left tables
      _ |>.Perm (frames ++ (tables ++ tables') ++ s'.free.frames) := by
          simp only [List.append_assoc]
          exact List.perm_append_comm_assoc _ _ _
  · rw [hrest.nodes n, hnodes n, List.mem_append, or_assoc]
  · rw [List.length_append, hcount, hrest.lacking]
    exact (hmap.lacking pages).symm
  · rw [hrest.others v fun q hq => hv q (List.mem_cons_of_mem page hq), hmap.leaves,
      if_neg (hv page List.mem_cons_self)]

theorem allocateAndMapSteps_fresh (flags : FlagSet) (h : Intact offset root s)
    (hpages : ∀ page ∈ pages, page % 4096 = 0 ∧ page + 4096 ≤ 0xfffffffffffff000)
    (hapart : pages.Pairwise fun p q => ¬ SamePage p q)
    (hs : pages.foldlM (allocateAndMapStep (fun _ => offset) (wrap (root + offset)) flags.bits) s = .ok s') :
    ∃ frames tables, FreshlyMapped offset root flags pages s s' frames tables := by
  induction pages generalizing s with
  | nil =>
      cases hs
      exact ⟨[], [], .nil, List.Perm.refl _, fun n => by simp, rfl, fun v _ => rfl⟩
  | cons page pages ih =>
      rw [List.foldlM_cons] at hs
      obtain ⟨t, hfirst, hrest⟩ := bind_ok hs
      obtain ⟨hpage, hlast⟩ := hpages page List.mem_cons_self
      obtain ⟨hdistinct, hapart⟩ := List.pairwise_cons.mp hapart
      obtain ⟨frame, free, halloc, hmap⟩ := (allocateAndMapStep_ok h hpage hlast).mp hfirst
      obtain ⟨hframe, hshrink⟩ := h.allocate halloc
      have hspec := mapPageToFrame_spec hshrink hframe.isTable hmap
      obtain ⟨tables, htables, hcount, hnodes⟩ := mapPageToFrame_nodes hshrink hframe.isTable hmap
      obtain ⟨frames, tables', hrest⟩ := ih hspec.intact (fun p hp => hpages p (List.mem_cons_of_mem page hp)) hapart hrest
      exact ⟨_, _, freshlyMapped_cons halloc hspec htables hcount hnodes hdistinct hrest⟩

/-- The loop returns when the stack has a frame for each page and each table that is lacking. -/
theorem allocateAndMapSteps_isOk (flags : FlagSet) (h : Intact offset root s)
    (hpages : ∀ page ∈ pages, page % 4096 = 0 ∧ page + 4096 ≤ 0xfffffffffffff000)
    (hroom : pages.length + (tablesLacking offset root s.mem pages).card ≤ s.free.frames.length) :
    ∃ s', pages.foldlM (allocateAndMapStep (fun _ => offset) (wrap (root + offset)) flags.bits) s = .ok s' := by
  induction pages generalizing s with
  | nil => exact ⟨s, rfl⟩
  | cons page pages ih =>
      obtain ⟨hpage, hlast⟩ := hpages page List.mem_cons_self
      rw [List.length_cons] at hroom
      have hne : s.free.frames ≠ [] := by
        intro hnil
        rw [hnil, List.length_nil] at hroom
        omega
      obtain ⟨frame, free, halloc⟩ := FreeStack.allocateFrame_isOk hne
      obtain ⟨hframe, hshrink⟩ := h.allocate halloc
      have hlength := congrArg List.length (FreeStack.allocateFrame_ok halloc).1
      rw [List.length_cons] at hlength
      have hfirst : missing (edge offset s.mem) root (path page) ≤
          (tablesLacking offset root s.mem (page :: pages)).card := missing_le_card_unreached List.mem_cons_self
      obtain ⟨t, ht⟩ := mapPageToFrame_isOk hshrink page frame flags (by dsimp only; omega)
      have hspec := mapPageToFrame_spec hshrink hframe.isTable ht
      obtain ⟨tables, htables, hcount⟩ := hspec.taken
      have hlacking : (tablesLacking offset root s.mem (page :: pages)).card =
          missing (edge offset s.mem) root (path page) + (tablesLacking offset root t.mem pages).card :=
        hspec.lacking pages
      have hlength' := congrArg List.length htables
      rw [List.length_append] at hlength'
      dsimp only at hcount hlength'
      obtain ⟨s', hs'⟩ := ih hspec.intact (fun p hp => hpages p (List.mem_cons_of_mem page hp)) (by omega)
      refine ⟨s', ?_⟩
      rw [List.foldlM_cons, (allocateAndMapStep_ok h hpage hlast).mpr ⟨frame, free, halloc, ht⟩]
      exact hs'

theorem FreshlyMapped.available {frames tables : List Nat}
    (h : FreshlyMapped offset root flags pages s s' frames tables) :
    s.free.availableFrames = s'.free.availableFrames + (pages.length + tables.length) := by
  unfold FreeStack.availableFrames
  rw [h.taken.length_eq, List.length_append, List.length_append, h.mapped.length_eq]
  omega

theorem FreshlyMapped.distinct {frames tables : List Nat} (h : FreshlyMapped offset root flags pages s s' frames tables)
    (hspare : Spare offset root s.mem s.free) :
    frames.Nodup ∧ tables.Nodup ∧ (∀ f ∈ frames, f ∈ s.free.frames ∧ ¬ IsNode offset root s'.mem f) ∧
      ∀ n, n ∈ tables ↔ IsNode offset root s'.mem n ∧ ¬ IsNode offset root s.mem n := by
  have hnodup := (List.nodup_append'.mp (h.taken.nodup_iff.mp hspare.nodup)).1
  obtain ⟨hframes, htables, hdisjoint⟩ := List.nodup_append'.mp hnodup
  have hfree : ∀ f ∈ frames ++ tables, f ∈ s.free.frames := fun f hf =>
    h.taken.mem_iff.mpr (List.mem_append_left _ hf)
  refine ⟨hframes, htables, fun f hf => ?_, fun n => ?_⟩
  · have hmem := hfree f (List.mem_append_left _ hf)
    refine ⟨hmem, fun hnode => ?_⟩
    rcases (h.nodes f).mp hnode with hold | htable
    · exact hspare.unused f hmem hold
    · exact hdisjoint hf htable
  · rw [h.nodes n]
    constructor
    · intro hn
      exact ⟨Or.inr hn, hspare.unused n (hfree n (List.mem_append_right _ hn))⟩
    · rintro ⟨hn, hnew⟩
      exact hn.resolve_left hnew

end

/-! ### The pages of a region -/

section

variable {virtualBase length : Nat}

theorem getPageRange_pages (hend : virtualBase + length ≤ 0xfffffffffffff000) :
    (getPageRange virtualBase length).pages =
      stride 4096 (virtualBase / 4096 * 4096) (pageCount virtualBase length) := by
  rw [getPageRange_of_le hend]
  unfold PageRange.pages pageCount
  congr 1
  dsimp only
  omega

theorem pages_apart (hhalf : InOneHalf virtualBase length) (hend : virtualBase + length ≤ 0xfffffffffffff000) :
    (∀ page ∈ (getPageRange virtualBase length).pages,
      page % 4096 = 0 ∧ page + 4096 ≤ 0xfffffffffffff000 ∧ Canonical page) ∧
    (getPageRange virtualBase length).pages.Pairwise fun p q => ¬ SamePage p q := by
  rw [getPageRange_pages hend]
  have hpage : ∀ page ∈ stride 4096 (virtualBase / 4096 * 4096) (pageCount virtualBase length),
      page % 4096 = 0 ∧ page + 4096 ≤ 0xfffffffffffff000 ∧ Canonical page := by
    intro page hmem
    obtain ⟨i, hi, rfl⟩ := mem_stride.mp hmem
    refine ⟨by omega, ?_, canonical_page hhalf hi⟩
    unfold pageCount at hi
    omega
  refine ⟨hpage, (stride_sorted (by decide) _ _).imp_of_mem ?_⟩
  intro p q hp hq hlt hsame
  obtain ⟨hp0, _, hpc⟩ := hpage p hp
  obtain ⟨hq0, _, hqc⟩ := hpage q hq
  rw [samePage_canonical hpc hqc] at hsame
  omega

end

/-- `paging_allocate_and_map` returns exactly when the stack has a frame for each
page of the region and for each table that their walks lack. Then each page is
mapped, with the flags given, to a frame of its own that came off the stack and is
no table; no other page changes; and the stack has lost one frame for each page and
one for each table that the tree has gained. -/
theorem allocate_and_map_fresh (offset root : Nat) (s : PagingState) (htree : ReachableTree offset root s.mem)
    (hspare : Spare offset root s.mem s.free) (virtualBase length : Nat) (flags : FlagSet)
    (hhalf : InOneHalf virtualBase length) (hend : virtualBase + length ≤ 0xfffffffffffff000) :
    ((∃ s', pagingAllocateAndMap (fun _ => offset) (wrap (root + offset)) s virtualBase length flags.bits = .ok s') ↔
      (getPageRange virtualBase length).pages.length +
        (tablesLacking offset root s.mem (getPageRange virtualBase length).pages).card ≤ s.free.availableFrames) ∧
    ∀ s', pagingAllocateAndMap (fun _ => offset) (wrap (root + offset)) s virtualBase length flags.bits = .ok s' →
      ∃ frames tables : List Nat,
        List.Forall₂ (fun page frame => Ia32e.translate (physical offset s'.mem) root page =
          some (frame, flags.bits ||| PageFlags.present)) (getPageRange virtualBase length).pages frames ∧
        frames.Nodup ∧ (∀ f ∈ frames, f ∈ s.free.frames ∧ ¬ IsNode offset root s'.mem f) ∧
        tables.Nodup ∧ (∀ n, n ∈ tables ↔ IsNode offset root s'.mem n ∧ ¬ IsNode offset root s.mem n) ∧
        s.free.availableFrames =
          s'.free.availableFrames + ((getPageRange virtualBase length).pages.length + tables.length) ∧
        ∀ v, Canonical v → v / 4096 * 4096 ∉ (getPageRange virtualBase length).pages →
          leafEntry offset root s'.mem v = leafEntry offset root s.mem v := by
  have h := htree.intact hspare
  obtain ⟨hpages, hapart⟩ := pages_apart hhalf hend
  have hcall : pagingAllocateAndMap (fun _ => offset) (wrap (root + offset)) s virtualBase length flags.bits =
      (getPageRange virtualBase length).pages.foldlM
        (allocateAndMapStep (fun _ => offset) (wrap (root + offset)) flags.bits) s := by
    rw [pagingAllocateAndMap_eq, (pages_eq_stride hend).2, getPageRange_pages hend]
    rfl
  rw [hcall]
  generalize (getPageRange virtualBase length).pages = pages at hpages hapart ⊢
  have hround : ∀ page ∈ pages, page % 4096 = 0 ∧ page + 4096 ≤ 0xfffffffffffff000 := fun page hp =>
    ⟨(hpages page hp).1, (hpages page hp).2.1⟩
  refine ⟨⟨?_, allocateAndMapSteps_isOk flags h hround⟩, ?_⟩
  · rintro ⟨s', hs'⟩
    obtain ⟨frames, tables, hfresh⟩ := allocateAndMapSteps_fresh flags h hround hapart hs'
    rw [← hfresh.lacking, hfresh.available]
    omega
  · intro s' hs'
    obtain ⟨frames, tables, hfresh⟩ := allocateAndMapSteps_fresh flags h hround hapart hs'
    obtain ⟨hframes, htables, hfree, hnodes⟩ := hfresh.distinct hspare
    refine ⟨frames, tables, ?_, hframes, hfree, htables, hnodes, hfresh.available, fun v hv hout => ?_⟩
    · refine List.forall₂_iff_zip.mpr ⟨hfresh.mapped.length_eq, fun {page frame} hmem => ?_⟩
      obtain ⟨hpage, hframe⟩ := List.of_mem_zip hmem
      have hleaf := (List.forall₂_iff_zip.mp hfresh.mapped).2 hmem
      rw [translate_of_entryWord (hspare.frames frame (hfree frame hframe).1).isTable hleaf, (hpages page hpage).1,
        Nat.add_zero]
    · refine hfresh.others v fun page hp hsame => hout ?_
      obtain ⟨haligned, _, hcanonical⟩ := hpages page hp
      rw [samePage_canonical hv hcanonical] at hsame
      rw [show v / 4096 * 4096 = page by omega]
      exact hp

/-- Four bytes across a page boundary take five frames: two for the pages, three for the tables they share. -/
theorem allocate_and_map_fresh_across_pages :
    ∃ s' first second, pagingAllocateAndMap (fun _ => 0) (wrap (0x1000 + 0)) sixFrames 0x400ffe 4 PageFlags.write = .ok s' ∧
      first ≠ second ∧ Ia32e.translate (physical 0 s'.mem) 0x1000 0x400000 = some (first, 3#64) ∧
      Ia32e.translate (physical 0 s'.mem) 0x1000 0x401000 = some (second, 3#64) := by
  obtain ⟨hok, hfresh⟩ := allocate_and_map_fresh 0 0x1000 sixFrames sixFrames_reachable sixFrames_spare 0x400ffe 4
    FlagSet.write (by unfold InOneHalf; omega) (by decide)
  obtain ⟨s', hs'⟩ := hok.mpr (by decide +kernel)
  obtain ⟨frames, tables, hmapped, hnodup, _⟩ := hfresh s' hs'
  rw [show (getPageRange 0x400ffe 4).pages = [0x400000, 0x401000] by decide] at hmapped
  obtain ⟨first, rest, hfirst, hrest, rfl⟩ := List.forall₂_cons_left_iff.mp hmapped
  obtain ⟨second, rest', hsecond, _, rfl⟩ := List.forall₂_cons_left_iff.mp hrest
  refine ⟨s', first, second, hs', ?_, hfirst, hsecond⟩
  rintro rfl
  exact (List.nodup_cons.mp hnodup).1 List.mem_cons_self

end DavOS
