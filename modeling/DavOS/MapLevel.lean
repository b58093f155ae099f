import DavOS.PageTable

/-! One round of the loop in `map_page_to_frame`: either the child exists and
only its flags are rewritten, or a free frame becomes an empty table below an
entry that was clear. -/
namespace DavOS
open MachineWord PathGraph PageTreeNode

theorem setChildFlags_eq (m : Memory) (node index : Nat) (flags : PageFlags) :
    setChildFlags m node index flags = Function.update m (entryAddress node index)
      ((m (entryAddress node index) &&& clearFlagsMask) ||| (flags ||| PageFlags.present)) := by
  simp only [setChildFlags, addChildFlags, Function.update_idem, Function.update_self]

theorem FlagSet.rewrite_self (flags : FlagSet) : (flags.rewrite flags).bits = flags.bits := by
  apply BitVec.eq_of_getLsbD_eq
  intro i _
  simp only [FlagSet.rewrite, BitVec.getLsbD_or, BitVec.getLsbD_and]
  cases flags.bits.getLsbD i <;> rfl

/-- The address setter followed by the flag setter stores one whole entry. -/
theorem setChild_eq (m : Memory) (node index : Nat) {a : Nat} (ha : a % 4096 = 0) (flags : FlagSet) :
    setChildFlags (setChildAddress m node index a) node index flags.bits =
      Function.update m (entryAddress node index) (entryWord a flags.bits) := by
  rw [setChildFlags_eq, setChildAddress]
  simp only [Function.update_self, Function.update_idem, entryWord_of_setters _ ha flags]

/-- What one round does to table `n`, entry `i`, on the way to table `c`. -/
inductive Level (offset : Nat) (flags : FlagSet) (n : Nat) (i : Index) (s s' : PagingState) (c : Nat) : Prop
  | kept (old : FlagSet) (frame : IsFrame c)
      (entry : entryAt offset s.mem n i = entryWord c old.bits)
      (mem : s'.mem = Function.update s.mem (entryAddress (wrap (n + offset)) i)
        (entryWord c (old.rewrite flags).bits))
      (free : s'.free = s.free)
  | fresh (entry : entryAt offset s.mem n i = 0#64) (free : s.free.frames = c :: s'.free.frames)
      (mem : s'.mem = Function.update (construct s.mem (wrap (c + offset)))
        (entryAddress (wrap (n + offset)) i) (entryWord c flags.bits))
      (capacity : s'.free.capacity = s.free.capacity)

section

variable {offset root : Nat} {s s' : PagingState} {π : List Index} {n c : Nat} {i : Index} {flags : FlagSet}

theorem mapStep_level (h : Intact offset root s) (hn : follow (edge offset s.mem) root π = some n)
    (hlen : π.length < 3) {page depth curr : Nat} (hdepth : depth < 4)
    (hs : PageTree.mapStep (fun _ => offset) page flags.bits (wrap (n + offset), s) depth = .ok (curr, s')) :
    ∃ c, curr = wrap (c + offset) ∧ Level offset flags n (indexAt page depth) s s' c := by
  unfold PageTree.mapStep at hs
  simp only [getTableIndex_eq page hdepth] at hs
  change (if (entryAt offset s.mem n (indexAt page depth) &&& childAddressMask).toNat = 0 then _ else _) = _ at hs
  rcases h.entries π n (indexAt page depth) hlen.le hn with h0 | ⟨a, old, ha, hframe, he⟩
  · -- the entry is clear, so a frame is taken for the new table
    have hclear : (entryAt offset s.mem n (indexAt page depth) &&& childAddressMask).toNat = 0 := by
      rw [h0]
      decide
    rw [if_pos hclear] at hs
    obtain ⟨⟨f, free⟩, halloc, hs⟩ := bind_ok hs
    obtain ⟨hfree, hcap⟩ := FreeStack.allocateFrame_ok halloc
    have hf : IsFrame f := h.frames f (by rw [hfree]; exact List.mem_cons_self)
    simp only [pure, Except.pure, Except.ok.injEq, Prod.mk.injEq, kernelPhysicalToVirtual] at hs
    obtain ⟨rfl, rfl⟩ := hs
    refine ⟨f, rfl, .fresh h0 hfree ?_ hcap⟩
    rw [setChild_eq _ _ _ hf.1, setChildFlags_eq, Function.update_self, Function.update_idem,
      entryWord_setFlags hf.1, FlagSet.rewrite_self]
  · have hf : IsFrame a := hframe hlen
    have hchild : (entryAt offset s.mem n (indexAt page depth) &&& childAddressMask).toNat = a := by
      rw [he, entryWord_childAddress ha.1, Nat.mod_eq_of_lt hf.2.2]
    rw [hchild, if_neg hf.2.1] at hs
    simp only [pure, Except.pure, Except.ok.injEq, Prod.mk.injEq] at hs
    obtain ⟨hcurr, rfl⟩ := hs
    refine ⟨a, ?_, .kept old hf he ?_ rfl⟩
    · rw [← hcurr]
      exact congrArg (fun x => wrap (x + offset)) hchild
    · change setChildFlags s.mem (wrap (n + offset)) (indexAt page depth) flags.bits = _
      rw [setChildFlags_eq]
      change Function.update s.mem _ ((entryAt offset s.mem n (indexAt page depth) &&& _) ||| _) = _
      rw [he, entryWord_setFlags ha.1]

theorem Level.isFrame (h : Intact offset root s) (hl : Level offset flags n i s s' c) : IsFrame c := by
  cases hl with
  | kept old frame entry mem free => exact frame
  | fresh entry free mem capacity => exact h.frames c (by rw [free]; exact List.mem_cons_self)

theorem Level.entry_other (h : Intact offset root s) (hn : follow (edge offset s.mem) root π = some n)
    (hlen : π.length < 3) (hl : Level offset flags n i s s' c) {ρ : List Index} {k : Nat} {j : Index}
    (hρ : ρ.length ≤ 3) (hk : follow (edge offset s.mem) root ρ = some k) (hne : (k, j) ≠ (n, i)) :
    entryAt offset s'.mem k j = entryAt offset s.mem k j := by
  have hnt := (h.nodes π n hlen.le hn).1
  obtain ⟨hkt, hkfree⟩ := h.nodes ρ k hρ hk
  have hne' : ¬ (k = n ∧ j = i) := fun hc => hne (Prod.ext hc.1 hc.2)
  have hc := (hl.isFrame h).isTable
  cases hl with
  | kept old frame entry mem free => rw [mem, entryAt_update hnt hkt, if_neg hne']
  | fresh entry free mem capacity =>
      have hkc : k ≠ c := fun hkc => hkfree (by rw [free, hkc]; exact List.mem_cons_self)
      rw [mem, entryAt_update hnt hkt, if_neg hne', entryAt_construct_of_ne hc hkt hkc]

theorem Level.entry_slot (h : Intact offset root s) (hn : follow (edge offset s.mem) root π = some n)
    (hlen : π.length < 3) (hl : Level offset flags n i s s' c) :
    ∃ new : FlagSet, entryAt offset s'.mem n i = entryWord c new.bits := by
  have hnt := (h.nodes π n hlen.le hn).1
  cases hl with
  | kept old frame entry mem free =>
      exact ⟨old.rewrite flags, by rw [mem, entryAt_update hnt hnt, if_pos ⟨rfl, rfl⟩]⟩
  | fresh entry free mem capacity => exact ⟨flags, by rw [mem, entryAt_update hnt hnt, if_pos ⟨rfl, rfl⟩]⟩

theorem Level.entry_fresh (h : Intact offset root s) (hn : follow (edge offset s.mem) root π = some n)
    (hlen : π.length < 3) (hfree : s.free.frames = c :: s'.free.frames)
    (hmem : s'.mem = Function.update (construct s.mem (wrap (c + offset)))
      (entryAddress (wrap (n + offset)) i) (entryWord c flags.bits)) (j : Index) :
    entryAt offset s'.mem c j = 0#64 := by
  obtain ⟨hnt, hnfree⟩ := h.nodes π n hlen.le hn
  have hc : IsFrame c := h.frames c (by rw [hfree]; exact List.mem_cons_self)
  have hcn : ¬ (c = n ∧ j = i) := by
    rintro ⟨rfl, _⟩
    exact hnfree (by rw [hfree]; exact List.mem_cons_self)
  rw [hmem, entryAt_update hnt hc.isTable, if_neg hcn, entryAt_construct_self]

theorem Level.links (h : Intact offset root s) (hn : follow (edge offset s.mem) root π = some n)
    (hlen : π.length < 3) (hl : Level offset flags n i s s' c)
    (hentry : entryAt offset s.mem n i = 0#64) :
    Links (edge offset s.mem) (edge offset s'.mem) root n c i 3 := by
  obtain ⟨new, hnew⟩ := hl.entry_slot h hn hlen
  have hother := fun ρ k j hρ hk hne => edge_congr (hl.entry_other h hn hlen (ρ := ρ) (k := k) (j := j) hρ hk hne)
  have hslot := edge_of_entryWord (hl.isFrame h).isTable hnew
  cases hl with
  | kept old frame entry mem free => exact absurd (entry.symm.trans hentry) (entryWord_ne_zero _ _)
  | fresh entry free mem capacity =>
      refine ⟨hslot, edge_of_zero hentry, ?_, ?_, hother⟩
      · intro j
        exact edge_of_zero (Level.entry_fresh h hn hlen free mem j)
      · intro ρ hρ hc
        exact (h.nodes ρ c hρ hc).2 (by rw [free]; exact List.mem_cons_self)

theorem Level.follow_kept (h : Intact offset root s) (hn : follow (edge offset s.mem) root π = some n)
    (hlen : π.length < 3) (hl : Level offset flags n i s s' c)
    (hentry : entryAt offset s.mem n i ≠ 0#64) {ρ : List Index} (hρ : ρ.length ≤ 3) :
    follow (edge offset s'.mem) root ρ = follow (edge offset s.mem) root ρ := by
  apply follow_congr
  intro τ k j hτ hk
  have hτlen : τ.length ≤ 3 := by
    have := hτ.length_le
    simp only [List.length_append, List.length_singleton] at this
    omega
  by_cases hslot : (k, j) = (n, i)
  · obtain ⟨rfl, rfl⟩ := Prod.mk.inj hslot
    obtain ⟨new, hnew⟩ := hl.entry_slot h hn hlen
    have hc := (hl.isFrame h).isTable
    rw [edge_of_entryWord hc hnew]
    cases hl with
    | kept old frame entry mem free => exact (edge_of_entryWord hc entry).symm
    | fresh entry free mem capacity => exact absurd entry hentry
  · exact edge_congr (hl.entry_other h hn hlen hτlen hk hslot)

theorem Level.child (h : Intact offset root s) (hn : follow (edge offset s.mem) root π = some n)
    (hlen : π.length < 3) (hl : Level offset flags n i s s' c) :
    follow (edge offset s'.mem) root (π ++ [i]) = some c := by
  by_cases hentry : entryAt offset s.mem n i = 0#64
  · exact (hl.links h hn hlen hentry).follow_slot h.unshared hn hlen
  · have hπ : follow (edge offset s'.mem) root π = some n :=
      (hl.follow_kept h hn hlen hentry hlen.le).trans hn
    obtain ⟨new, hnew⟩ := hl.entry_slot h hn hlen
    rw [follow_snoc hπ, edge_of_entryWord (hl.isFrame h).isTable hnew]

theorem Level.follow_mono (h : Intact offset root s) (hn : follow (edge offset s.mem) root π = some n)
    (hlen : π.length < 3) (hl : Level offset flags n i s s' c) {ρ : List Index} {k : Nat}
    (hρ : ρ.length ≤ 3) (hk : follow (edge offset s.mem) root ρ = some k) :
    follow (edge offset s'.mem) root ρ = some k := by
  by_cases hentry : entryAt offset s.mem n i = 0#64
  · exact (hl.links h hn hlen hentry).follow_mono h.unshared hn hlen hρ hk
  · exact (hl.follow_kept h hn hlen hentry hρ).trans hk

/-- A table reached afterwards was reached before, or is the new and empty one. -/
theorem Level.follow_cases (h : Intact offset root s) (hn : follow (edge offset s.mem) root π = some n)
    (hlen : π.length < 3) (hl : Level offset flags n i s s' c) {ρ : List Index} {k : Nat}
    (hρ : ρ.length ≤ 3) (hk : follow (edge offset s'.mem) root ρ = some k) :
    follow (edge offset s.mem) root ρ = some k ∨
      (ρ = π ++ [i] ∧ k = c ∧ s.free.frames = c :: s'.free.frames ∧
        follow (edge offset s.mem) root ρ = none ∧ ∀ j, entryAt offset s'.mem c j = 0#64) := by
  by_cases hentry : entryAt offset s.mem n i = 0#64
  · have hlinks := hl.links h hn hlen hentry
    rcases hlinks.follow_cases h.unshared hn hlen hρ hk with hold | ⟨rfl, rfl⟩
    · exact Or.inl hold
    · cases hl with
      | kept old frame entry mem free => exact absurd (entry.symm.trans hentry) (entryWord_ne_zero _ _)
      | fresh entry free mem capacity =>
          exact Or.inr ⟨rfl, rfl, free, hlinks.follow_off_none hn (List.prefix_refl _),
            Level.entry_fresh h hn hlen free mem⟩
  · exact Or.inl ((hl.follow_kept h hn hlen hentry hρ) ▸ hk)

theorem Level.free_subset (hl : Level offset flags n i s s' c) : s'.free.frames.Sublist s.free.frames := by
  cases hl with
  | kept old frame entry mem free => rw [free]
  | fresh entry free mem capacity =>
      rw [free]
      exact List.sublist_cons_self c _

theorem Level.intact (h : Intact offset root s) (hn : follow (edge offset s.mem) root π = some n)
    (hlen : π.length < 3) (hl : Level offset flags n i s s' c) : Intact offset root s' := by
  refine ⟨h.rootTable, ?_, ?_, ?_, hl.free_subset.nodup h.nodup,
    fun f hf => h.frames f (hl.free_subset.subset hf)⟩
  · by_cases hentry : entryAt offset s.mem n i = 0#64
    · exact (hl.links h hn hlen hentry).unshared h.unshared hn hlen
    · intro ρ τ k hρ hτ hk hk'
      rw [hl.follow_kept h hn hlen hentry hρ] at hk
      rw [hl.follow_kept h hn hlen hentry hτ] at hk'
      exact h.unshared ρ τ k hρ hτ hk hk'
  · intro ρ k hρ hk
    rcases hl.follow_cases h hn hlen hρ hk with hold | ⟨_, rfl, hfree, _, _⟩
    · obtain ⟨hkt, hkfree⟩ := h.nodes ρ k hρ hold
      exact ⟨hkt, fun hmem => hkfree (hl.free_subset.subset hmem)⟩
    · refine ⟨(hl.isFrame h).isTable, fun hmem => ?_⟩
      have hnd := h.nodup
      rw [hfree] at hnd
      exact (List.nodup_cons.mp hnd).1 hmem
  · intro ρ k j hρ hk
    rcases hl.follow_cases h hn hlen hρ hk with hold | ⟨_, rfl, _, _, hzero⟩
    · by_cases hslot : (k, j) = (n, i)
      · obtain ⟨rfl, rfl⟩ := Prod.mk.inj hslot
        obtain ⟨new, hnew⟩ := hl.entry_slot h hn hlen
        exact Or.inr ⟨c, new, (hl.isFrame h).isTable, fun _ => hl.isFrame h, hnew⟩
      · rw [hl.entry_other h hn hlen hρ hold hslot]
        exact h.entries ρ k j hρ hold
    · exact Or.inl (hzero j)

end

end DavOS
