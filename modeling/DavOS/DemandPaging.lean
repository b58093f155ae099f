import DavOS.FlatMemory
import DavOS.OffsetReads
import DavOS.PageRights
import DavOS.TreeStates
import DavOS.Vmm

/-! Memory behind page faults. An access to a page that is not there runs the page
fault handler and is restarted; over a whole run of accesses, and as long as no
fault takes a page away from its neighbour, the memory cannot be told apart from
a flat array of words. The heap is written for such memory. -/
namespace DavOS
open MachineWord PathGraph PageTreeNode kernelConstants FlatMemory GuardedRun

/-! ### The processor -/

/-- Where the walk finds a byte, for an access that reads or writes; `none` is a page fault. -/
def Ia32e.locate (phys : Nat → BitVec 64) (cr3 virtualAddress : Nat) (write : Bool) : Option Nat :=
  (Ia32e.walk phys cr3 virtualAddress).bind fun entries =>
    if write && !(Rights.of entries).write then none
    else entries.getLast?.map fun entry => Ia32e.addressField entry + virtualAddress % 4096

abbrev WordAccess := Access Nat (BitVec 64)

def isWrite : WordAccess → Bool
  | .load _ => false
  | .store _ _ => true

/-- The access, once its physical address is known. -/
def perform (offset : Nat) (s : PagingState) (address : Nat) : WordAccess → PagingState × BitVec 64
  | .load _ => (s, physical offset s.mem address)
  | .store _ word => (⟨Function.update s.mem (wrap (address + offset)) word, s.free⟩, word)

/-- The instruction with its fault. An instruction that still faults when the
handler has returned does so again and again: the handler has mapped nothing then. -/
def access (offset root : Nat) (s : PagingState) (a : WordAccess) : Except Stop (PagingState × BitVec 64) :=
  match Ia32e.locate (physical offset s.mem) root a.address (isWrite a) with
  | some address => .ok (perform offset s address a)
  | none => do
      let s ← isrPageFault (fun _ => offset) (wrap (root + offset)) s a.address
      match Ia32e.locate (physical offset s.mem) root a.address (isWrite a) with
      | some address => .ok (perform offset s address a)
      | none => .error .hang

/-! ### Pages that can be written -/

/-- Every entry on the way to the page is there and allows writing. -/
def Writable (offset root : Nat) (m : Memory) (v : Nat) : Prop :=
  ∃ entries, Ia32e.walk (physical offset m) root v = some entries ∧ (Rights.of entries).write = true

section

variable {offset root : Nat} {s s' t : PagingState} {m m' : Memory} {π τ σ : List Index} {n c k v w : Nat}
  {i j : Index} {flags : FlagSet}

theorem walk_isSome_iff : (∃ entries, Ia32e.walk (physical offset m) root v = some entries) ↔
    Ia32e.isPresent (leafEntry offset root m v) = true := by
  have hleaf := leaf_eq_leafEntry offset root m v
  rw [Ia32e.leaf] at hleaf
  constructor
  · rintro ⟨entries, hwalk⟩
    by_contra hnot
    rw [if_neg hnot, hwalk] at hleaf
    rw [walk_eq_entriesOn, entriesOn_snoc] at hwalk
    obtain ⟨upper, _, hwalk⟩ := Option.bind_eq_some_iff.mp hwalk
    obtain ⟨k, _, hwalk⟩ := Option.bind_eq_some_iff.mp hwalk
    split at hwalk
    · cases hwalk
      simp at hleaf
    · cases hwalk
  · intro hpresent
    rw [if_pos hpresent] at hleaf
    obtain ⟨entries, hwalk, _⟩ := Option.bind_eq_some_iff.mp hleaf
    exact ⟨entries, hwalk⟩

theorem writable_iff : Writable offset root m v ↔ Ia32e.isPresent (leafEntry offset root m v) = true ∧
    ∀ σ j, σ ++ [j] <+: fullPath v → ∀ k, follow (edge offset m) root σ = some k →
      (entryAt offset m k j).getLsbD 1 = true := by
  rw [← walk_isSome_iff]
  constructor
  · rintro ⟨entries, hwalk, hwrite⟩
    rw [walk_eq_entriesOn] at hwalk
    exact ⟨⟨entries, by rw [walk_eq_entriesOn]; exact hwalk⟩, (entriesOn_all hwalk (·.getLsbD 1)).mp hwrite⟩
  · rintro ⟨⟨entries, hwalk⟩, hall⟩
    refine ⟨entries, hwalk, ?_⟩
    rw [walk_eq_entriesOn] at hwalk
    exact (entriesOn_all hwalk (·.getLsbD 1)).mpr hall

theorem Writable.congr (hsame : SamePage v w) (h : Writable offset root m v) : Writable offset root m w := by
  have hpath : fullPath w = fullPath v := by
    obtain ⟨hpath, hindex⟩ := samePage_iff.mp hsame
    rw [fullPath, fullPath, hpath, hindex]
  rw [writable_iff] at h ⊢
  rw [hpath, ← leafEntry_congr hsame]
  exact h

theorem entryWord_write (a : Nat) {flags : PageFlags} (hflags : flags.getLsbD 1 = true) :
    (entryWord a flags).getLsbD 1 = true := by
  rw [entryWord_bit a flags (by decide), hflags, Bool.true_or, Bool.or_true]

theorem Level.writes (h : Intact offset root s) (hn : follow (edge offset s.mem) root π = some n)
    (hlen : π.length < 3) (hl : Level offset flags n i s t c) (hflags : flags.bits.getLsbD 1 = true) :
    (entryAt offset t.mem n i).getLsbD 1 = true := by
  have hnt := (h.nodes π n hlen.le hn).1
  cases hl with
  | kept old frame entry mem free =>
      rw [mem, entryAt_update hnt hnt, if_pos ⟨rfl, rfl⟩]
      refine entryWord_write c ?_
      rw [FlagSet.rewrite, BitVec.getLsbD_or, hflags, Bool.true_or]
  | fresh entry free mem capacity =>
      rw [mem, entryAt_update hnt hnt, if_pos ⟨rfl, rfl⟩]
      exact entryWord_write c hflags

theorem Descent.writes (hd : Descent offset flags π n s τ c s') (h : Intact offset root s)
    (hn : follow (edge offset s.mem) root π = some n) (hlen : π.length + τ.length ≤ 3)
    (hflags : flags.bits.getLsbD 1 = true) (hσ : σ ++ [j] <+: π ++ τ) (hle : π.length ≤ σ.length)
    (hk : follow (edge offset s'.mem) root σ = some k) : (entryAt offset s'.mem k j).getLsbD 1 = true := by
  induction hd with
  | here π n s =>
      have := hσ.length_le
      simp only [List.length_append, List.length_singleton, List.append_nil] at this
      omega
  | @down π τ n c c' i s t s' hl hd ih =>
      obtain ⟨hlt, hlen'⟩ := path_room hlen
      have hnext := hl.intact h hn hlt
      have hchild := hl.child h hn hlt
      have happ : π ++ [i] ++ τ = π ++ i :: τ := by simp
      by_cases hlonger : (π ++ [i]).length ≤ σ.length
      · exact ih hnext hchild hlen' (happ ▸ hσ) hlonger hk
      · -- the entry that the first round writes, which no later round touches
        simp only [List.length_append, List.length_singleton] at hlonger
        have hown : π ++ [i] <+: π ++ i :: τ := happ ▸ List.prefix_append _ _
        have heq := List.IsPrefix.eq_of_length (List.prefix_of_prefix_length_le hσ hown (by simp; omega))
          (by simp; omega)
        obtain ⟨rfl, hj⟩ := List.append_inj' heq rfl
        obtain rfl : j = i := by simpa using hj
        have hnt := hl.follow_mono h hn hlt hlt.le hn
        have hn' := (hd.arrived hnext hchild hlen').follow_mono σ n hlt.le hnt
        obtain rfl : k = n := Option.some.inj (hk.symm.trans hn')
        have hwrites := hl.writes h hn hlt hflags
        have hne : entryAt offset t.mem k j ≠ 0#64 := by
          intro h0
          rw [h0] at hwrites
          exact absurd hwrites (by decide)
        rw [(hd.entry hnext hchild hlen' hlt.le hnt hne).2 fun hboth => absurd hboth.2 (by simp)]
        exact hwrites

theorem mapPageToFrame_writable (h : Intact offset root s) {page frame : Nat} (hframe : IsTable frame)
    (hs : PageTree.mapPageToFrame (fun _ => offset) (wrap (root + offset)) s page frame flags.bits = .ok s')
    (hflags : flags.bits.getLsbD 1 = true) : Writable offset root s'.mem page := by
  have hmap := mapPageToFrame_spec h hframe hs
  have hleaf : leafEntry offset root s'.mem page = entryWord frame flags.bits := by
    exact hmap.leaf_page rfl
  refine writable_iff.mpr ⟨by rw [hleaf, entryWord_isPresent], fun σ j hσ k hk => ?_⟩
  rcases List.prefix_concat_iff.mp hσ with heq | hσ'
  · obtain ⟨rfl, hj⟩ := List.append_inj' heq rfl
    obtain rfl : j = indexAt page 3 := by simpa using hj
    rw [← leafEntry_of_follow hk, hleaf]
    exact entryWord_write frame hflags
  · obtain ⟨c, t, hd, rfl⟩ := mapPageToFrame_descent h hframe.1 hs
    have ha := hd.arrived h (follow_nil _ _) (by simp [path_length])
    have hc : follow (edge offset t.mem) root (path page) = some c := ha.follow_end
    have hlen : σ.length < 3 := by
      have := hσ'.length_le
      simp only [List.length_append, List.length_singleton, path_length] at this
      omega
    rw [follow_leafStore ha.intact hc _ hlen.le] at hk
    dsimp only
    rw [entryAt_update (ha.intact.nodes _ c (path_length page).le hc).1 (ha.intact.nodes σ k hlen.le hk).1, if_neg]
    · exact hd.writes h (follow_nil _ _) (by simp [path_length]) hflags hσ' (Nat.zero_le _) hk
    · rintro ⟨rfl, _⟩
      have := congrArg List.length (ha.intact.unshared σ (path page) k hlen.le (path_length page).le hk hc)
      rw [path_length] at this
      omega

theorem Writable.after (h : Intact offset root s) {page frame : Nat} (hframe : IsTable frame)
    (hs : PageTree.mapPageToFrame (fun _ => offset) (wrap (root + offset)) s page frame flags.bits = .ok s')
    (hflags : flags.bits.getLsbD 1 = true) (hv : Writable offset root s.mem v) : Writable offset root s'.mem v := by
  by_cases hsame : SamePage page v
  · exact (mapPageToFrame_writable h hframe hs hflags).congr hsame
  · have hne : ¬ SamePage v page := fun hc => hsame hc.symm
    obtain ⟨entries, hwalk, hwrite⟩ := hv
    obtain ⟨entries', hwalk'⟩ := walk_isSome_after h hframe hs hwalk hne
    refine ⟨entries', hwalk', ?_⟩
    have hkeep : ∀ e : BitVec 64, e.getLsbD 1 = true → (rewriteFlags flags.bits e).getLsbD 1 = true := fun e _ =>
      (rewriteFlags_low flags.bits e (by decide) (by decide)).trans hflags
    exact (walk_all_after h hframe hs hwalk hwalk' hne hkeep hwrite).mpr (Or.inr rfl)

end

/-! ### Pages that faults have mapped -/

/-- A page that is mapped now and was not at the start. -/
def Faulted (offset root : Nat) (start s : PagingState) (v : Nat) : Prop :=
  ¬ Mapped offset root start v ∧ Mapped offset root s v

/-- No page may give back a frame that it had at the start. -/
def Nowhere (_ : Nat) : Prop := False

/-- The pages that faults have mapped have frames of their own and can be written. -/
structure Paged (offset root : Nat) (start s : PagingState) : Prop where
  backed : Backed offset root Nowhere start s []
  entry : ∀ v, Faulted offset root start s v →
    leafEntry offset root s.mem v = entryWord (frameOf offset root s.mem v) FlagSet.write.bits
  writable : ∀ v, Faulted offset root start s v → Writable offset root s.mem v

/-- The page of `v` keeps its frame, and the frame its words. -/
structure SameWords (offset root : Nat) (s t : PagingState) (v : Nat) : Prop where
  leaf : leafEntry offset root t.mem v = leafEntry offset root s.mem v
  words : ∀ j, entryAt offset t.mem (frameOf offset root s.mem v) j =
    entryAt offset s.mem (frameOf offset root s.mem v) j

section

variable {offset root : Nat} {start s t u : PagingState} {a v : Nat}

theorem Faulted.held (h : Faulted offset root start s v) : Held offset root Nowhere start s [] v :=
  ⟨h.2, fun hm => absurd hm h.1, by simp⟩

theorem SameWords.frame (h : SameWords offset root s t v) :
    frameOf offset root t.mem v = frameOf offset root s.mem v := by
  rw [frameOf, frameOf, h.leaf]

theorem SameWords.trans (h : SameWords offset root s t v) (h' : SameWords offset root t u v) :
    SameWords offset root s u v := by
  refine ⟨h'.leaf.trans h.leaf, fun j => ?_⟩
  rw [← h.words j, ← h.frame]
  exact h'.words j

theorem paged_start (h : Intact offset root start) : Paged offset root start start := by
  have hnone : ∀ v, ¬ Faulted offset root start start v := fun v hv => hv.1 hv.2
  exact ⟨backed_start h Nowhere [], fun v hv => absurd hv (hnone v), fun v hv => absurd hv (hnone v)⟩

theorem Paged.aside (h : Paged offset root start s) (hv : Faulted offset root start s v) :
    Aside offset root s (frameOf offset root s.mem v) := by
  have hown := h.backed.owned v hv.held
  exact ⟨hown.frame.isTable, hown.taken, hown.node⟩

theorem Paged.mapPage (h : Paged offset root start s) {page : Nat} (hpage : page % 4096 = 0)
    (hlast : page + 4096 ≤ 0xfffffffffffff000)
    (hs : allocateAndMapStep (fun _ => offset) (wrap (root + offset)) FlagSet.write.bits s page = .ok t) :
    Paged offset root start t ∧ (∀ v, SamePage v page ∨ Mapped offset root s v → Mapped offset root t v) ∧
      ∀ v, Faulted offset root start s v → ¬ SamePage v page → SameWords offset root s t v := by
  have hbacked : Backed offset root Nowhere start t [] :=
    (h.backed.mapPage hpage hlast hs fun p hp => absurd hp List.not_mem_nil).1
  obtain ⟨f, free, halloc, hs⟩ := (allocateAndMapStep_ok h.backed.intact hpage hlast).mp hs
  obtain ⟨hf, hintact⟩ := h.backed.intact.allocate halloc
  obtain ⟨hframes, _⟩ := FreeStack.allocateFrame_ok halloc
  have hflags : FlagSet.write.bits.getLsbD 1 = true := by decide
  have hmap := mapPageToFrame_spec hintact hf.isTable hs
  have hold : ∀ v, ¬ SamePage v page → leafEntry offset root t.mem v = leafEntry offset root s.mem v :=
    fun v hv => hmap.leaf_other hv
  have hwas : ∀ v, ¬ SamePage v page → Faulted offset root start t v → Faulted offset root start s v :=
    fun v hv hf => ⟨hf.1, (hmap.mapped_other hintact hv).mp hf.2⟩
  refine ⟨⟨hbacked, fun v hv => ?_, fun v hv => ?_⟩, fun v hv => ?_, fun v hv hne => ⟨hold v hne, ?_⟩⟩
  · by_cases hsame : SamePage v page
    · rw [hmap.frameOf_page hf hsame]
      exact hmap.leaf_page hsame
    · rw [hmap.frameOf_other hsame, hold v hsame]
      exact h.entry v (hwas v hsame hv)
  · by_cases hsame : SamePage v page
    · exact (mapPageToFrame_writable hintact hf.isTable hs hflags).congr hsame.symm
    · exact (h.writable v (hwas v hsame hv)).after hintact hf.isTable hs hflags
  · by_cases hsame : SamePage v page
    · exact hmap.mapped_page hsame
    · exact (hmap.mapped_other hintact hsame).mpr (hv.resolve_left hsame)
  · have haside := h.aside hv
    have hfree : frameOf offset root s.mem v ∉ free.frames := fun hc =>
      haside.free (by rw [hframes]; exact List.mem_cons_of_mem f hc)
    have haside' : Aside offset root ⟨s.mem, free⟩ (frameOf offset root s.mem v) :=
      ⟨haside.table, hfree, haside.node⟩
    exact (mapPageToFrame_aside hintact hf.1 haside' hs).2

theorem Paged.mapPages {pages : List Nat} (h : Paged offset root start s)
    (hpages : ∀ page ∈ pages, page % 4096 = 0 ∧ page + 4096 ≤ 0xfffffffffffff000)
    (hs : pages.foldlM (allocateAndMapStep (fun _ => offset) (wrap (root + offset)) FlagSet.write.bits) s = .ok t) :
    Paged offset root start t ∧
      (∀ v, (∃ page ∈ pages, SamePage v page) ∨ Mapped offset root s v → Mapped offset root t v) ∧
      ∀ v, Faulted offset root start s v → (∀ page ∈ pages, ¬ SamePage v page) → SameWords offset root s t v := by
  induction pages generalizing s with
  | nil =>
      cases hs
      exact ⟨h, fun v hv => hv.resolve_left (by simp), fun v _ _ => ⟨rfl, fun _ => rfl⟩⟩
  | cons page pages ih =>
      obtain ⟨hpage, hlast⟩ := hpages page List.mem_cons_self
      rw [List.foldlM_cons] at hs
      obtain ⟨next, hnext, hs⟩ := bind_ok hs
      obtain ⟨hpaged, hmapped, hwords⟩ := h.mapPage hpage hlast hnext
      obtain ⟨hpaged', hmapped', hwords'⟩ := ih hpaged (fun q hq => hpages q (List.mem_cons_of_mem page hq)) hs
      refine ⟨hpaged', fun v hv => hmapped' v ?_, fun v hv hne => ?_⟩
      · rcases hv with ⟨q, hq, hsame⟩ | hv
        · rcases List.mem_cons.mp hq with rfl | hq
          · exact Or.inr (hmapped v (Or.inl hsame))
          · exact Or.inl ⟨q, hq, hsame⟩
        · exact Or.inr (hmapped v (Or.inr hv))
      · refine (hwords v hv (hne page List.mem_cons_self)).trans (hwords' v ⟨hv.1, hmapped v (Or.inr hv.2)⟩ ?_)
        exact fun q hq => hne q (List.mem_cons_of_mem page hq)

/-- The handler maps the page of the fault, unless it is the last one, and keeps
the words of all pages but those that it maps. -/
theorem Paged.fault (h : Paged offset root start s) (ha : a < 2 ^ 64)
    (hs : isrPageFault (fun _ => offset) (wrap (root + offset)) s a = .ok t) :
    Paged offset root start t ∧ (a < 0xfffffffffffff000 → Mapped offset root t a) ∧
      (∀ v, Mapped offset root s v → Mapped offset root t v) ∧
      ∀ v, Faulted offset root start s v → (∀ page ∈ faultPages a, ¬ SamePage v page) →
        SameWords offset root s t v := by
  rw [isrPageFault_eq _ _ _ ha] at hs
  obtain ⟨hpaged, hmapped, hwords⟩ := h.mapPages (fun page hp => ⟨(mem_faultPages hp).1, (mem_faultPages hp).2.1⟩) hs
  refine ⟨hpaged, fun hlast => hmapped a (Or.inl ⟨pageFloor a, ?_, ?_⟩), fun v hv => hmapped v (Or.inr hv), hwords⟩
  · simp only [faultPages, pageFloor, pageSize]
    split
    · rw [List.mem_singleton]
      omega
    · split
      · rw [List.mem_singleton]
        omega
      · exact List.mem_cons_self
  · exact (samePage_pageFloor a).symm

end

/-! ### Words behind addresses -/

def wordIndex (v : Nat) : Index := ⟨v / 8 % 512, Nat.mod_lt _ (by decide)⟩

def wordAt (offset root : Nat) (m : Memory) (v : Nat) : BitVec 64 :=
  entryAt offset m (frameOf offset root m v) (wordIndex v)

section

variable {offset root : Nat} {start s t : PagingState} {m m' : Memory} {v x : Nat} {word : BitVec 64}

theorem wordIndex_cell (frame : Nat) (hv : v % 8 = 0) :
    wrap (frame + v % 4096 + offset) = entryAddress (wrap (frame + offset)) (wordIndex v) := by
  simp only [entryAddress, wordIndex, wrap]
  omega

theorem Paged.locate (h : Paged offset root start s) (hv : Faulted offset root start s v) (write : Bool) :
    Ia32e.locate (physical offset s.mem) root v write = some (frameOf offset root s.mem v + v % 4096) := by
  obtain ⟨entries, hwalk, hwrite⟩ := h.writable v hv
  have hleaf := leaf_eq_leafEntry offset root s.mem v
  have htable := (h.aside hv).table
  rw [h.entry v hv, if_pos (entryWord_isPresent _ _), Ia32e.leaf, hwalk, Option.bind_some] at hleaf
  rw [Ia32e.locate, hwalk, Option.bind_some, hwrite, hleaf, Option.map_some,
    entryWord_addressField htable.1 htable.2]
  simp

theorem locate_unmapped (h : Intact offset root s) (hv : ¬ Mapped offset root s v) (write : Bool) :
    Ia32e.locate (physical offset s.mem) root v write = none := by
  rw [mapped_iff h, ← walk_isSome_iff] at hv
  rw [Ia32e.locate, Option.eq_none_iff_forall_ne_some.mpr fun entries hwalk => hv ⟨entries, hwalk⟩]
  rfl

theorem follow_write (hsame : ∀ n i, IsNode offset root m n → entryAt offset m' n i = entryAt offset m n i)
    {ρ : List Index} (hρ : ρ.length ≤ 4) : follow (edge offset m') root ρ = follow (edge offset m) root ρ := by
  apply follow_congr
  intro τ n i hτ hn
  have hlength := hτ.length_le
  rw [List.length_append, List.length_singleton] at hlength
  exact edge_congr (hsame n i ⟨τ, by omega, hn⟩)

theorem leafEntry_write (hsame : ∀ n i, IsNode offset root m n → entryAt offset m' n i = entryAt offset m n i)
    (v : Nat) : leafEntry offset root m' v = leafEntry offset root m v := by
  have hfollow := follow_write hsame (ρ := path v) (by simp [path_length])
  cases hf : follow (edge offset m) root (path v) with
  | none => rw [leafEntry_of_missing hf, leafEntry_of_missing (hfollow.trans hf)]
  | some n =>
      rw [leafEntry_of_follow hf, leafEntry_of_follow (hfollow.trans hf)]
      exact hsame n _ ⟨path v, (path_length v).le, hf⟩

theorem Writable.write (hsame : ∀ n i, IsNode offset root m n → entryAt offset m' n i = entryAt offset m n i)
    (h : Writable offset root m v) : Writable offset root m' v := by
  rw [writable_iff] at h ⊢
  rw [leafEntry_write hsame]
  refine ⟨h.1, fun σ j hσ k hk => ?_⟩
  have hlen := fullPath_prefix_length hσ
  rw [follow_write hsame (by omega)] at hk
  rw [hsame k j ⟨σ, hlen, hk⟩]
  exact h.2 σ j hσ k hk

theorem Paged.write (h : Paged offset root start s)
    (hsame : ∀ n i, IsNode offset root s.mem n → entryAt offset m' n i = entryAt offset s.mem n i) :
    Paged offset root start ⟨m', s.free⟩ := by
  have hleaf := leafEntry_write hsame
  have hintact : Intact offset root ⟨m', s.free⟩ := by
    have hnone : Intact offset root ⟨m', noFrames⟩ := (h.backed.intact.shrink (List.nil_sublist _)).write hsame
    have hspare := h.backed.intact.spare
    refine hnone.restock ⟨hspare.nodup, hspare.frames, fun f hf hnode => hspare.unused f hf ?_⟩
    obtain ⟨ρ, hρ, hn⟩ := hnode
    exact ⟨ρ, hρ, (follow_write hsame (by omega)).symm.trans hn⟩
  have hframe : ∀ v, frameOf offset root m' v = frameOf offset root s.mem v := fun v => by
    rw [frameOf, frameOf, hleaf]
  have hmapped : ∀ v, Mapped offset root ⟨m', s.free⟩ v ↔ Mapped offset root s v := fun v => by
    rw [mapped_iff hintact, mapped_iff h.backed.intact, ← hleaf v]
  have hheld : ∀ v, Held offset root Nowhere start ⟨m', s.free⟩ [] v → Held offset root Nowhere start s [] v := fun v hv =>
    ⟨(hmapped v).mp hv.mapped, fun hm => hframe v ▸ hv.own hm, hv.kept⟩
  have hfaulted : ∀ v, Faulted offset root start ⟨m', s.free⟩ v → Faulted offset root start s v := fun v hv =>
    ⟨hv.1, (hmapped v).mp hv.2⟩
  refine ⟨⟨hintact, fun v hv => (hmapped v).mpr (h.backed.grown v hv), h.backed.spare, fun v hv => ?_,
    fun v w hv hw hne => ?_⟩, fun v hv => ?_, fun v hv => ?_⟩
  · have hown := h.backed.owned v (hheld v hv)
    dsimp only
    rw [hframe v]
    refine hown.after (List.Subset.refl _) fun ρ hρ hn => hown.node ρ hρ ?_
    exact (follow_write hsame (by omega)).symm.trans hn
  · dsimp only
    rw [hframe v, hframe w]
    exact h.backed.distinct v w (hheld v hv) (hheld w hw) hne
  · dsimp only
    rw [hleaf, hframe]
    exact h.entry v (hfaulted v hv)
  · exact (h.writable v (hfaulted v hv)).write hsame

theorem Paged.store (h : Paged offset root start s) (hv : Faulted offset root start s v) (halign : v % 8 = 0)
    (word : BitVec 64) :
    let t : PagingState := (perform offset s (frameOf offset root s.mem v + v % 4096) (.store v word)).1
    Paged offset root start t ∧ (∀ x, Mapped offset root t x ↔ Mapped offset root s x) ∧
      wordAt offset root t.mem v = word ∧
      ∀ x, Faulted offset root start s x → ¬ (SamePage x v ∧ wordIndex x = wordIndex v) →
        wordAt offset root t.mem x = wordAt offset root s.mem x := by
  intro t
  have haside := h.aside hv
  have hmem : t.mem = Function.update s.mem
      (entryAddress (wrap (frameOf offset root s.mem v + offset)) (wordIndex v)) word := by
    rw [← wordIndex_cell _ halign]
    rfl
  have hcell : ∀ n i, IsTable n → entryAt offset t.mem n i =
      if n = frameOf offset root s.mem v ∧ i = wordIndex v then word else entryAt offset s.mem n i := by
    intro n i hn
    rw [hmem, entryAt_update haside.table hn]
  have hsame : ∀ n i, IsNode offset root s.mem n → entryAt offset t.mem n i = entryAt offset s.mem n i := by
    rintro n i ⟨ρ, hρ, hn⟩
    rw [hcell n i (h.backed.intact.nodes ρ n hρ hn).1, if_neg]
    rintro ⟨rfl, _⟩
    exact haside.node ρ hρ hn
  have hpaged : Paged offset root start t := h.write hsame
  have hframe : ∀ x, frameOf offset root t.mem x = frameOf offset root s.mem x := fun x => by
    rw [frameOf, frameOf, leafEntry_write hsame]
  refine ⟨hpaged, fun x => ?_, ?_, fun x hx hne => ?_⟩
  · rw [mapped_iff hpaged.backed.intact, mapped_iff h.backed.intact, leafEntry_write hsame]
  · rw [wordAt, hframe, hcell _ _ haside.table, if_pos ⟨rfl, rfl⟩]
  · rw [wordAt, hframe, hcell _ _ (h.aside hx).table, if_neg]
    · rfl
    · rintro ⟨hsameFrame, hindex⟩
      refine hne ⟨?_, hindex⟩
      by_contra hpage
      exact h.backed.distinct x v hx.held hv.held hpage hsameFrame

end

/-! ### Accesses -/

/-- An aligned word of a canonical page that was not mapped at the start. -/
structure HeapWord (offset root : Nat) (start : PagingState) (v : Nat) : Prop where
  canonical : Canonical v
  aligned : v % 8 = 0
  new : ¬ Mapped offset root start v

/-- The accesses that are looked at: to words of new pages below the last one, where
a fault does not find the next page mapped. -/
def AccessAllowed (offset root : Nat) (start s : PagingState) (a : WordAccess) : Prop :=
  HeapWord offset root start a.address ∧ a.address < 0xfffffffffffff000 ∧
    (¬ Mapped offset root s a.address → FaultSafe offset root s a.address)

open Classical in
/-- The words behind the pages that faults have mapped. -/
noncomputable def known (offset root : Nat) (start s : PagingState) (v : Nat) : Option (BitVec 64) :=
  if HeapWord offset root start v ∧ Mapped offset root s v then some (wordAt offset root s.mem v) else none

section

variable {offset root : Nat} {start s t : PagingState} {v x : Nat} {word w : BitVec 64} {a : WordAccess}

theorem known_eq_some : known offset root start s v = some w ↔
    HeapWord offset root start v ∧ Mapped offset root s v ∧ wordAt offset root s.mem v = w := by
  unfold known
  split
  · rename_i hv
    rw [Option.some.injEq]
    exact ⟨fun h => ⟨hv.1, hv.2, h⟩, fun h => h.2.2⟩
  · rename_i hv
    exact ⟨fun h => absurd h.symm (Option.some_ne_none w), fun h => absurd ⟨h.1, h.2.1⟩ hv⟩

theorem HeapWord.eq_of_place (hv : HeapWord offset root start v) (hx : HeapWord offset root start x)
    (hsame : SamePage x v ∧ wordIndex x = wordIndex v) : x = v := by
  obtain ⟨hpage, hindex⟩ := hsame
  rw [samePage_canonical hx.canonical hv.canonical] at hpage
  simp only [wordIndex, Fin.mk.injEq] at hindex
  have halign := hv.aligned
  have halign' := hx.aligned
  omega

theorem physical_wordAt (halign : v % 8 = 0) :
    physical offset s.mem (frameOf offset root s.mem v + v % 4096) = wordAt offset root s.mem v := by
  rw [physical, wordIndex_cell _ halign]
  rfl

theorem perform_remembers (h : Paged offset root start s) (hv : HeapWord offset root start a.address)
    (hmapped : Mapped offset root s a.address)
    (hs : perform offset s (frameOf offset root s.mem a.address + a.address % 4096) a = (t, w)) :
    Paged offset root start t ∧ Remembers (known offset root start) s t a w := by
  cases a with
  | load address =>
      obtain ⟨rfl, hreply⟩ := Prod.mk.inj hs
      have hw : wordAt offset root s.mem address = w := (physical_wordAt hv.aligned).symm.trans hreply
      refine ⟨h, known_eq_some.mpr ⟨hv, hmapped, hw⟩, ?_, ?_, fun _ _ _ hk => hk⟩
      · intro _ heq x hx
        cases heq
        exact hw.symm.trans (known_eq_some.mp hx).2.2
      · intro _ _ heq
        cases heq
  | store address word =>
      obtain ⟨hpaged, hmap, hnew, hold⟩ := h.store ⟨hv.new, hmapped⟩ hv.aligned word
      obtain ⟨rfl, rfl⟩ := Prod.mk.inj hs
      refine ⟨hpaged, known_eq_some.mpr ⟨hv, (hmap address).mpr hmapped, hnew⟩, ?_, ?_, ?_⟩
      · intro _ heq
        cases heq
      · intro _ _ heq
        cases heq
        rfl
      · intro x y hne hx
        obtain ⟨hx, hxm, hxw⟩ := known_eq_some.mp hx
        refine known_eq_some.mpr ⟨hx, (hmap x).mpr hxm, (hold x ⟨hx.new, hxm⟩ fun hplace => ?_).trans hxw⟩
        exact hne (hv.eq_of_place hx hplace)

theorem Paged.fault_known (h : Paged offset root start s) (ha : AccessAllowed offset root start s a)
    (hunmapped : ¬ Mapped offset root s a.address)
    (hs : isrPageFault (fun _ => offset) (wrap (root + offset)) s a.address = .ok t) :
    Paged offset root start t ∧ Mapped offset root t a.address ∧
      ∀ v w, known offset root start s v = some w → known offset root start t v = some w := by
  obtain ⟨_, hlast, hsafe⟩ := ha
  have hlt : a.address < 2 ^ 64 := by omega
  obtain ⟨hpaged, hmapped, hmono, hwords⟩ := h.fault hlt hs
  refine ⟨hpaged, hmapped hlast, fun v w hv => ?_⟩
  obtain ⟨hv, hvm, hvw⟩ := known_eq_some.mp hv
  have hother : ∀ page ∈ faultPages a.address, ¬ SamePage v page := fun _ hp =>
    (hsafe hunmapped).other_page h.backed.intact hunmapped hvm hp
  have hkeep := hwords v ⟨hv.new, hvm⟩ hother
  refine known_eq_some.mpr ⟨hv, hmono v hvm, ?_⟩
  rw [← hvw, wordAt, hkeep.frame]
  exact hkeep.words _

theorem access_remembers (h : Paged offset root start s) (ha : AccessAllowed offset root start s a)
    (hs : access offset root s a = .ok (t, w)) :
    Paged offset root start t ∧ Remembers (known offset root start) s t a w := by
  unfold access at hs
  by_cases hmapped : Mapped offset root s a.address
  · rw [h.locate ⟨ha.1.new, hmapped⟩] at hs
    exact perform_remembers h ha.1 hmapped (Except.ok.inj hs)
  · rw [locate_unmapped h.backed.intact hmapped] at hs
    obtain ⟨next, hfault, hs⟩ := bind_ok hs
    obtain ⟨hnext, hnow, hkeep⟩ := h.fault_known ha hmapped hfault
    rw [hnext.locate ⟨ha.1.new, hnow⟩] at hs
    obtain ⟨hpaged, hremembers⟩ := perform_remembers hnext ha.1 hnow (Except.ok.inj hs)
    exact ⟨hpaged, hremembers.after hkeep⟩

theorem allocateAndMapSteps_return {pages : List Nat} (h : Intact offset root s)
    (hpages : ∀ page ∈ pages, page % 4096 = 0 ∧ page + 4096 ≤ 0xfffffffffffff000)
    (hroom : 4 * pages.length ≤ s.free.frames.length) :
    ∃ t, pages.foldlM (allocateAndMapStep (fun _ => offset) (wrap (root + offset)) FlagSet.write.bits) s = .ok t := by
  induction pages generalizing s with
  | nil => exact ⟨s, rfl⟩
  | cons page pages ih =>
      rw [List.length_cons] at hroom
      obtain ⟨hpage, hlast⟩ := hpages page List.mem_cons_self
      have hsome : 0 < s.free.frames.length := by omega
      obtain ⟨frame, free, halloc⟩ := FreeStack.allocateFrame_isOk (List.ne_nil_of_length_pos hsome)
      obtain ⟨hframe, hintact⟩ := h.allocate halloc
      have hlength := congrArg List.length (FreeStack.allocateFrame_ok halloc).1
      rw [List.length_cons] at hlength
      have hlacking : missing (edge offset s.mem) root (path page) ≤ 3 := missing_le _ _ _
      obtain ⟨next, hnext⟩ := mapPageToFrame_isOk hintact page frame FlagSet.write (by dsimp only; omega)
      have hmap := mapPageToFrame_spec hintact hframe.isTable hnext
      obtain ⟨tables, htaken, hcount⟩ := hmap.taken
      have htables := congrArg List.length htaken
      rw [List.length_append] at htables
      dsimp only at htables hcount
      obtain ⟨t, ht⟩ := ih hmap.intact (fun q hq => hpages q (List.mem_cons_of_mem page hq)) (by omega)
      refine ⟨t, ?_⟩
      rw [List.foldlM_cons, (allocateAndMapStep_ok h hpage hlast).mpr ⟨frame, free, halloc, hnext⟩]
      exact ht

theorem faultPages_length (v : Nat) : (faultPages v).length ≤ 2 := by
  unfold faultPages
  split
  · split <;> simp
  · split <;> simp

theorem access_returns (h : Paged offset root start s) (ha : AccessAllowed offset root start s a)
    (hroom : 8 ≤ s.free.frames.length) : ∃ next, access offset root s a = .ok next := by
  unfold access
  by_cases hmapped : Mapped offset root s a.address
  · rw [h.locate ⟨ha.1.new, hmapped⟩]
    exact ⟨_, rfl⟩
  · rw [locate_unmapped h.backed.intact hmapped]
    have hlt : a.address < 2 ^ 64 := Nat.lt_of_lt_of_le ha.2.1 (by decide)
    have hlength := faultPages_length a.address
    obtain ⟨t, ht⟩ := allocateAndMapSteps_return h.backed.intact
      (fun page hp => ⟨(mem_faultPages hp).1, (mem_faultPages hp).2.1⟩)
      (show 4 * (faultPages a.address).length ≤ _ by omega)
    have hfault : isrPageFault (fun _ => offset) (wrap (root + offset)) s a.address = .ok t := by
      rw [isrPageFault_eq _ _ _ hlt]
      exact ht
    obtain ⟨hnext, hnow, _⟩ := h.fault_known ha hmapped hfault
    refine ⟨perform offset t (frameOf offset root t.mem a.address + a.address % 4096) a, ?_⟩
    simp only [hfault, bind, Except.bind, hnext.locate ⟨ha.1.new, hnow⟩]

end

instance (v : Nat) : Decidable (Canonical v) := inferInstanceAs (Decidable (_ ∨ _))

instance (offset root : Nat) (s : PagingState) (a : Nat) : Decidable (FaultSafe offset root s a) :=
  inferInstanceAs (Decidable (_ ∨ _ ∨ _))

instance (offset root : Nat) (start : PagingState) (v : Nat) : Decidable (HeapWord offset root start v) :=
  decidable_of_iff (Canonical v ∧ v % 8 = 0 ∧ ¬ Mapped offset root start v)
    ⟨fun h => ⟨h.1, h.2.1, h.2.2⟩, fun h => ⟨h.canonical, h.aligned, h.new⟩⟩

instance (offset root : Nat) (start s : PagingState) (a : WordAccess) :
    Decidable (AccessAllowed offset root start s a) := inferInstanceAs (Decidable (_ ∧ _ ∧ _))

end DavOS
