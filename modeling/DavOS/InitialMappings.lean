import DavOS.PagingInit

/-! How many tables a list of mappings needs. The pages of one aligned 2 MiB
share their tables, so a range takes at most three tables for each of those
that it touches, and a stack with that many frames is enough. -/
namespace DavOS
open MachineWord PathGraph PageTreeNode kernelConstants GuardedRun

/-- What mapping some pages does to a tree whose free frames can all become tables. -/
structure Laid (offset root f : Nat) (pages : Nat → Prop) (s s' : PagingState) : Prop where
  intact : Intact offset root s'
  aside : Aside offset root s' f
  words : ∀ j, entryAt offset s'.mem f j = entryAt offset s.mem f j
  free : s'.free.frames <:+ s.free.frames
  capacity : s'.free.capacity = s.free.capacity
  follow_mono : ∀ ρ n, ρ.length ≤ 3 → follow (edge offset s.mem) root ρ = some n →
    follow (edge offset s'.mem) root ρ = some n
  reached : ∀ page, pages page → ∃ n, follow (edge offset s'.mem) root (path page) = some n
  grown : ∀ ρ n, ρ.length ≤ 3 → follow (edge offset s'.mem) root ρ = some n →
    follow (edge offset s.mem) root ρ = some n ∨ ∃ page, pages page ∧ ρ <+: path page

section

variable {offset root f : Nat} {j : Index} {s s' t : PagingState} {P Q : Nat → Prop}

theorem Laid.refl (h : Intact offset root s) (hf : Aside offset root s f) :
    Laid offset root f (fun _ => False) s s :=
  ⟨h, hf, fun _ => rfl, List.suffix_refl _, rfl, fun _ _ _ hn => hn, fun _ hp => hp.elim,
    fun _ _ _ hn => Or.inl hn⟩

theorem Laid.trans (h : Laid offset root f P s t) (h' : Laid offset root f Q t s') {R : Nat → Prop}
    (hR : ∀ page, R page ↔ P page ∨ Q page) : Laid offset root f R s s' := by
  refine ⟨h'.intact, h'.aside, fun j => (h'.words j).trans (h.words j), h'.free.trans h.free,
    h'.capacity.trans h.capacity, fun ρ n hρ hn => h'.follow_mono ρ n hρ (h.follow_mono ρ n hρ hn), ?_, ?_⟩
  · intro page hpage
    rcases (hR page).mp hpage with hp | hq
    · obtain ⟨n, hn⟩ := h.reached page hp
      exact ⟨n, h'.follow_mono _ n (path_length page).le hn⟩
    · exact h'.reached page hq
  · intro ρ n hρ hn
    rcases h'.grown ρ n hρ hn with hn | ⟨page, hq, hprefix⟩
    · rcases h.grown ρ n hρ hn with hn | ⟨page, hp, hprefix⟩
      · exact Or.inl hn
      · exact Or.inr ⟨page, (hR page).mpr (Or.inl hp), hprefix⟩
    · exact Or.inr ⟨page, (hR page).mpr (Or.inr hq), hprefix⟩

theorem Laid.reads (h : Laid offset root f P s s') (hread : offsetIn offset f j s.mem = offset) :
    offsetIn offset f j s'.mem = offset := by
  rw [offsetIn, h.words]
  exact hread

theorem mapPageToFrame_laid (h : Intact offset root s) (hf : Aside offset root s f)
    (hread : offsetIn offset f j s.mem = offset) {page frame : Nat} (hframe : IsTable frame) (flags : FlagSet)
    (hroom : missing (edge offset s.mem) root (path page) ≤ s.free.frames.length) :
    ∃ s', PageTree.mapPageToFrame (offsetIn offset f j) (wrap (root + offset)) s page frame flags.bits = .ok s' ∧
      Laid offset root f (· = page) s s' ∧
      s.free.frames.length = s'.free.frames.length + missing (edge offset s.mem) root (path page) := by
  obtain ⟨s', hs⟩ := mapPageToFrame_isOk h page frame flags hroom
  have hmap := mapPageToFrame_spec h hframe hs
  obtain ⟨haside, hwords⟩ := mapPageToFrame_aside h hframe.1 hf hs
  obtain ⟨nodes, hnodes, hcount⟩ := hmap.taken
  refine ⟨s', (mapPageToFrame_congr h hf hread page frame).trans hs, ⟨hmap.intact, haside, hwords,
    ⟨nodes, hnodes.symm⟩, hmap.capacity, hmap.follow_mono, ?_, ?_⟩, ?_⟩
  · rintro _ rfl
    exact hmap.reached
  · intro ρ n hρ hn
    rcases hmap.grown ρ n hρ hn with hold | ⟨_, hprefix⟩
    · exact Or.inl hold
    · exact Or.inr ⟨page, rfl, hprefix⟩
  · rw [hnodes, List.length_append, hcount, Nat.add_comm]

theorem Intact.tablesTaken (h : Intact offset root s) (hf : Aside offset root s f) {page : Nat} :
    ∀ g ∈ tablesTaken offset root s page, IsFrame g ∧ g ≠ f := by
  intro g hg
  have hmem := List.mem_of_mem_take hg
  exact ⟨h.frames g hmem, fun hc => hf.free (hc ▸ hmem)⟩

end

theorem path_congr {x y : Nat} (h : x / 2 ^ 21 = y / 2 ^ 21) : path x = path y := by
  simp only [path, indexAt, List.cons.injEq, Fin.mk.injEq, and_true]
  norm_num at h ⊢
  omega

/-! ### Ranges -/

section

variable {r : HhdmResponse} {root : Nat} {s : PagingState}

/-- The loop of `paging_add_mapping` over `n` consecutive pages. `lack` bounds
what the first page needs; a later page needs tables only where it starts a new 2 MiB. -/
theorem addMappingSteps_laid (flags : FlagSet) (n : Nat) {x y lack : Nat} (h : Intact r.offset root s)
    (hf : Aside r.offset root s r.frame) (hread : r.hhdm s.mem = r.offset) (hx : x % 4096 = 0)
    (hy : y % 4096 = 0) (hend : y + 4096 * n ≤ 2 ^ 52)
    (hlack : 0 < n → missing (edge r.offset s.mem) root (path x) ≤ lack)
    (hroom : lack + 3 * ((x + 4096 * (n - 1)) / 2 ^ 21 - x / 2 ^ 21) ≤ s.free.frames.length) :
    ∃ s', (stride 4096 x n).foldlM (addMappingStep r.hhdm (wrap (root + r.offset)) flags.bits) (s, y) =
        .ok (s', y + 4096 * n) ∧
      Laid r.offset root r.frame (· ∈ stride 4096 x n) s s' ∧
      s.free.frames.length ≤ s'.free.frames.length +
        (lack + 3 * ((x + 4096 * (n - 1)) / 2 ^ 21 - x / 2 ^ 21)) ∧
      Guarded (addMappingStep r.hhdm (wrap (root + r.offset)) flags.bits)
        (fun at_ page => RoundSafe r root at_.1 page at_.2) (s, y) (stride 4096 x n) := by
  induction n generalizing x y lack s with
  | zero =>
      refine ⟨s, rfl, (Laid.refl h hf).trans (.refl h hf) (fun page => ?_), by omega, trivial⟩
      simp [stride]
  | succ n ih =>
      have hframe : IsTable y := ⟨hy, by omega⟩
      have hlack := hlack (Nat.succ_pos n)
      have hfirst : missing (edge r.offset s.mem) root (path x) ≤ s.free.frames.length := by omega
      obtain ⟨t, ht, hlaid, hcount⟩ := mapPageToFrame_laid h hf hread hframe flags hfirst
      have hround : addMappingStep r.hhdm (wrap (root + r.offset)) flags.bits (s, y) x = .ok (t, y + 4096) :=
        (addMappingStep_ok (by omega)).mpr ⟨t, ht, rfl⟩
      -- the next page lacks nothing unless it starts a new 2 MiB
      obtain ⟨lack', hlack', hbudget⟩ : ∃ lack',
          (0 < n → missing (edge r.offset t.mem) root (path (x + 4096)) ≤ lack') ∧
          lack' + 3 * ((x + 4096 + 4096 * (n - 1)) / 2 ^ 21 - (x + 4096) / 2 ^ 21) =
            3 * ((x + 4096 * (n + 1 - 1)) / 2 ^ 21 - x / 2 ^ 21) := by
        by_cases hn : n = 0
        · exact ⟨0, fun hpos => absurd hpos (by omega), by subst hn; simp⟩
        · by_cases hsame : (x + 4096) / 2 ^ 21 = x / 2 ^ 21
          · obtain ⟨c, hc⟩ := hlaid.reached x rfl
            refine ⟨0, fun _ => ?_, by omega⟩
            rw [path_congr hsame, missing_eq_zero hc]
          · exact ⟨3, fun _ => missing_le _ _ _, by omega⟩
      obtain ⟨s', hs', hrest, hcount', hguard⟩ := ih (x := x + 4096) (y := y + 4096) hlaid.intact hlaid.aside
        (hlaid.reads hread) (by omega) (by omega) (by omega) hlack' (by omega)
      refine ⟨s', ?_, hlaid.trans hrest (fun page => ?_), by omega, ?_⟩
      · rw [stride, List.foldlM_cons, hround]
        change List.foldlM _ (t, y + 4096) (stride 4096 (x + 4096) n) = _
        rw [hs', Nat.mul_add, Nat.add_assoc, Nat.add_comm 4096]
      · simp [stride]
      · refine ⟨⟨hframe, h.tablesTaken hf⟩, fun u hu => ?_⟩
        rw [hround] at hu
        cases hu
        exact hguard

end

/-- A mapping of whole pages that stays inside the address spaces. -/
structure Mapping.Fits (mapping : Mapping) : Prop where
  base : mapping.fromVirtual.base % 4096 = 0
  size : mapping.fromVirtual.size % 4096 = 0
  high : mapping.fromVirtual.base + mapping.fromVirtual.size ≤ 0xfffffffffffff000
  frame : mapping.toPhysical % 4096 = 0
  physical : mapping.toPhysical + mapping.fromVirtual.size ≤ 2 ^ 52

/-- Enough tables for the mapping, whatever the tree holds already. -/
def Mapping.tables (mapping : Mapping) : Nat :=
  3 + 3 * ((mapping.fromVirtual.base + (mapping.fromVirtual.size - 4096)) / 2 ^ 21 -
    mapping.fromVirtual.base / 2 ^ 21)

def Mapping.Has (mapping : Mapping) (page : Nat) : Prop :=
  page ∈ stride 4096 mapping.fromVirtual.base (mapping.fromVirtual.size / 4096)

section

variable {r : HhdmResponse} {root : Nat} {s : PagingState}

theorem Mapping.Fits.laid {mapping : Mapping} (hfits : mapping.Fits) (h : Intact r.offset root s)
    (hf : Aside r.offset root s r.frame) (hread : r.hhdm s.mem = r.offset)
    (hroom : mapping.tables ≤ s.free.frames.length) :
    ∃ s', pagingCall r.hhdm (wrap (root + r.offset)) s mapping.call = .ok s' ∧
      Laid r.offset root r.frame mapping.Has s s' ∧
      s.free.frames.length ≤ s'.free.frames.length + mapping.tables ∧
      mapping.call.Rounds r.hhdm (wrap (root + r.offset)) (RoundSafe r root) s := by
  obtain ⟨⟨base, size⟩, physical, flags⟩ := mapping
  obtain ⟨hbase, hsize, hhigh, hframe, hphysical⟩ := hfits
  dsimp only at hbase hsize hhigh hframe hphysical
  have hrange : getPageRange base size = ⟨base, base + size⟩ := by
    rw [getPageRange_of_le hhigh, PageRange.mk.injEq]
    omega
  have hpages : strideWhile (fun page => decide (page < base + size)) pageSize loopFuel base =
      some (stride 4096 base (size / 4096)) :=
    strideWhile_lt (by decide) (by simp only [pageSize]; omega) (by omega)
  have hfloor : pageFloor physical = physical := by
    simp only [pageFloor, pageSize]
    omega
  have htables : Mapping.tables ⟨⟨base, size⟩, physical, flags⟩ =
      3 + 3 * ((base + 4096 * (size / 4096 - 1)) / 2 ^ 21 - base / 2 ^ 21) := by
    simp only [Mapping.tables]
    rw [show size - 4096 = 4096 * (size / 4096 - 1) by omega]
  rw [htables] at hroom ⊢
  obtain ⟨s', hs', hlaid, hcount, hguard⟩ := addMappingSteps_laid flags (size / 4096) (y := physical)
    h hf hread hbase hframe (by omega) (fun _ => missing_le _ _ _) hroom
  refine ⟨s', ?_, hlaid, hcount, ?_⟩
  · simp only [pagingCall, Mapping.call, pagingAddMapping, hrange, hpages, orHang_some, hfloor]
    change (List.foldlM _ (s, physical) (stride 4096 base (size / 4096)) >>=
      fun at_ : PagingState × Nat => Except.ok at_.1) = _
    rw [hs']
    rfl
  · intro pages hstride
    rw [hrange] at hstride
    obtain rfl : stride 4096 base (size / 4096) = pages := Option.some.inj (hpages.symm.trans hstride)
    rw [hfloor]
    exact hguard

/-- A list of mappings returns, with every round safe, when the stack has the tables for all of them. -/
theorem addInitialMappings_laid {mappings : List Mapping} (hfits : ∀ mapping ∈ mappings, mapping.Fits)
    (h : Intact r.offset root s) (hf : Aside r.offset root s r.frame) (hread : r.hhdm s.mem = r.offset)
    (hroom : (mappings.map Mapping.tables).sum ≤ s.free.frames.length) :
    ∃ s', addInitialMappings r.hhdm (wrap (root + r.offset)) mappings s = .ok s' ∧
      Laid r.offset root r.frame (fun page => ∃ mapping ∈ mappings, mapping.Has page) s s' ∧
      s.free.frames.length ≤ s'.free.frames.length + (mappings.map Mapping.tables).sum ∧
      Guarded (pagingCall r.hhdm (wrap (root + r.offset)))
        (PagingCall.Rounds r.hhdm (wrap (root + r.offset)) (RoundSafe r root)) s (mappings.map Mapping.call) := by
  induction mappings generalizing s with
  | nil =>
      refine ⟨s, rfl, (Laid.refl h hf).trans (.refl h hf) (fun page => ?_), Nat.le_add_right _ _, trivial⟩
      simp
  | cons mapping mappings ih =>
      rw [List.map_cons, List.sum_cons] at hroom ⊢
      obtain ⟨t, ht, hlaid, hcount, hsafe⟩ := (hfits mapping List.mem_cons_self).laid h hf hread (by omega)
      obtain ⟨s', hs', hrest, hcount', hguard⟩ := ih
        (fun later hlater => hfits later (List.mem_cons_of_mem mapping hlater)) hlaid.intact hlaid.aside
        (hlaid.reads hread) (by omega)
      refine ⟨s', ?_, hlaid.trans hrest (fun page => by simp), by omega, hsafe, fun u hu => ?_⟩
      · rw [addInitialMappings, List.map_cons, List.foldlM_cons, ht]
        exact hs'
      · obtain rfl : t = u := Except.ok.inj (ht.symm.trans hu)
        exact hguard

end

end DavOS
