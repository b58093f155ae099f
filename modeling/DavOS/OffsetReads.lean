import DavOS.PageMapping

/-! `map_page_to_frame` when the direct-map offset is itself a word of memory.
As long as the frame of that word is no table and is not taken for one, the call
reads the same offset throughout. Only the frames that a call takes matter: the
rest of the free stack is carried along. -/
namespace DavOS
open MachineWord PathGraph PageTreeNode

/-- The offset as it is read from word `j` of frame `f`, through the direct map. -/
def offsetIn (offset f : Nat) (j : Index) : HhdmOffset := fun m => (entryAt offset m f j).toNat

/-- Frame `f` is neither a table of the tree nor free. -/
structure Aside (offset root : Nat) (s : PagingState) (f : Nat) : Prop where
  table : IsTable f
  free : f ∉ s.free.frames
  node : ∀ ρ, ρ.length ≤ 3 → follow (edge offset s.mem) root ρ ≠ some f

section

variable {offset root : Nat} {s s' : PagingState} {π τ : List Index} {n c f : Nat} {i j : Index}
  {flags : FlagSet}

/-! ### Words of a frame that is set aside -/

theorem Level.aside (h : Intact offset root s) (hn : follow (edge offset s.mem) root π = some n)
    (hlen : π.length < 3) (hl : Level offset flags n i s s' c) (hf : Aside offset root s f) :
    Aside offset root s' f ∧ ∀ j, entryAt offset s'.mem f j = entryAt offset s.mem f j := by
  have hnt := (h.nodes π n hlen.le hn).1
  have hne : ∀ j, ¬ (f = n ∧ j = i) := fun j hc => hf.node π hlen.le (hc.1 ▸ hn)
  refine ⟨⟨hf.table, fun hmem => hf.free (hl.free_subset.subset hmem), ?_⟩, fun j => ?_⟩
  · intro ρ hρ hk
    rcases hl.follow_cases h hn hlen hρ hk with hold | ⟨_, rfl, hfree, _⟩
    · exact hf.node ρ hρ hold
    · exact hf.free (by rw [hfree]; exact List.mem_cons_self)
  · have hct := (hl.isFrame h).isTable
    cases hl with
    | kept old frame entry mem free => rw [mem, entryAt_update hnt hf.table, if_neg (hne j)]
    | fresh entry free mem capacity =>
        have hfc : f ≠ c := fun hc => hf.free (by rw [free, hc]; exact List.mem_cons_self)
        rw [mem, entryAt_update hnt hf.table, if_neg (hne j), entryAt_construct_of_ne hct hf.table hfc]

theorem Descent.aside (hd : Descent offset flags π n s τ c s') (h : Intact offset root s)
    (hn : follow (edge offset s.mem) root π = some n) (hlen : π.length + τ.length ≤ 3)
    (hf : Aside offset root s f) :
    Aside offset root s' f ∧ ∀ j, entryAt offset s'.mem f j = entryAt offset s.mem f j := by
  induction hd with
  | here π n s => exact ⟨hf, fun _ => rfl⟩
  | @down π τ n c c' i s t s' hl hd ih =>
      obtain ⟨hlt, hlen'⟩ := path_room hlen
      obtain ⟨hft, hwords⟩ := hl.aside h hn hlt hf
      obtain ⟨hfs', hwords'⟩ := ih (hl.intact h hn hlt) (hl.child h hn hlt) hlen' hft
      exact ⟨hfs', fun j => (hwords' j).trans (hwords j)⟩

theorem mapPageToFrame_aside (h : Intact offset root s) {page frame : Nat} (hframe : frame % 4096 = 0)
    (hf : Aside offset root s f)
    (hs : PageTree.mapPageToFrame (fun _ => offset) (wrap (root + offset)) s page frame flags.bits = .ok s') :
    Aside offset root s' f ∧ ∀ j, entryAt offset s'.mem f j = entryAt offset s.mem f j := by
  obtain ⟨c, t, hd, rfl⟩ := mapPageToFrame_descent h hframe hs
  have hlen : ([] : List Index).length + (path page).length ≤ 3 := by simp [path_length]
  have ha := hd.arrived h (follow_nil _ _) hlen
  have hc : follow (edge offset t.mem) root (path page) = some c := ha.follow_end
  have hct := (ha.intact.nodes _ c (path_length page).le hc).1
  obtain ⟨hft, hwords⟩ := hd.aside h (follow_nil _ _) hlen hf
  refine ⟨⟨hft.table, hft.free, ?_⟩, fun j => ?_⟩
  · intro ρ hρ hk
    rw [follow_leafStore ha.intact hc _ hρ] at hk
    exact hft.node ρ hρ hk
  · rw [entryAt_update hct hft.table, if_neg, hwords]
    rintro ⟨rfl, _⟩
    exact hft.node _ (path_length page).le hc

/-! ### The offset that a call reads -/

/-- A round reads the offset before it writes. -/
theorem mapStep_congr {hhdm : HhdmOffset} (hread : hhdm s.mem = offset) (page curr depth : Nat)
    (flags : PageFlags) :
    PageTree.mapStep hhdm page flags (curr, s) depth =
      PageTree.mapStep (fun _ => offset) page flags (curr, s) depth := by
  unfold PageTree.mapStep kernelPhysicalToVirtual
  simp only [hread]

theorem mapSteps_congr {page : Nat} {depths : List Nat} (h : Intact offset root s)
    (hn : follow (edge offset s.mem) root π = some n) (hlen : π.length + depths.length ≤ 3)
    (hdepths : ∀ d ∈ depths, d < 4) (hf : Aside offset root s f)
    (hread : offsetIn offset f j s.mem = offset) :
    depths.foldlM (PageTree.mapStep (offsetIn offset f j) page flags.bits) (wrap (n + offset), s) =
      depths.foldlM (PageTree.mapStep (fun _ => offset) page flags.bits) (wrap (n + offset), s) := by
  induction depths generalizing π n s with
  | nil => rfl
  | cons d depths ih =>
      simp only [List.length_cons] at hlen
      have hlt : π.length < 3 := by omega
      rw [List.foldlM_cons, List.foldlM_cons, mapStep_congr hread]
      cases hfirst : PageTree.mapStep (fun _ => offset) page flags.bits (wrap (n + offset), s) d with
      | error e => rfl
      | ok at_ =>
          obtain ⟨curr, t⟩ := at_
          obtain ⟨c, rfl, hl⟩ := mapStep_level h hn hlt (hdepths d List.mem_cons_self) hfirst
          obtain ⟨hft, hwords⟩ := hl.aside h hn hlt hf
          refine ih (hl.intact h hn hlt) (hl.child h hn hlt) ?_
            (fun e he => hdepths e (List.mem_cons_of_mem d he)) hft ?_
          · simp only [List.length_append, List.length_singleton]
            omega
          · rw [offsetIn, hwords]
            exact hread

theorem mapPageToFrame_congr (h : Intact offset root s) (hf : Aside offset root s f)
    (hread : offsetIn offset f j s.mem = offset) (page frame : Nat) :
    PageTree.mapPageToFrame (offsetIn offset f j) (wrap (root + offset)) s page frame flags.bits =
      PageTree.mapPageToFrame (fun _ => offset) (wrap (root + offset)) s page frame flags.bits := by
  unfold PageTree.mapPageToFrame
  rw [mapSteps_congr h (follow_nil _ _) (by decide) (by decide) hf hread]

/-! ### The part of the free stack that a call takes -/

/-- The stack `big` is the stack `small` with `rest` below it. -/
def FreeStack.Over (big small : FreeStack) (rest : List Nat) : Prop := big.frames = small.frames ++ rest

theorem allocateFrame_over {big small small' : FreeStack} {rest : List Nat} {frame : Nat}
    (h : big.Over small rest) (hs : small.allocateFrame = .ok (frame, small')) :
    ∃ big', big.allocateFrame = .ok (frame, big') ∧ big'.Over small' rest := by
  obtain ⟨hframes, _⟩ := FreeStack.allocateFrame_ok hs
  have hbig : big.frames = frame :: (small'.frames ++ rest) := by
    rw [h, hframes]
    rfl
  have hsome : big.frames ≠ [] := by simp [hbig]
  obtain ⟨frame', big', halloc⟩ := FreeStack.allocateFrame_isOk hsome
  obtain ⟨hframes', _⟩ := FreeStack.allocateFrame_ok halloc
  obtain ⟨rfl, hrest⟩ := List.cons.inj (hframes'.symm.trans hbig)
  exact ⟨big', halloc, hrest⟩

theorem mapStep_over {hhdm : HhdmOffset} {m m' : Memory} {big small small' : FreeStack} {rest : List Nat}
    {page curr curr' depth : Nat} {bits : PageFlags} (h : big.Over small rest)
    (hs : PageTree.mapStep hhdm page bits (curr, ⟨m, small⟩) depth = .ok (curr', ⟨m', small'⟩)) :
    ∃ big', PageTree.mapStep hhdm page bits (curr, ⟨m, big⟩) depth = .ok (curr', ⟨m', big'⟩) ∧
      big'.Over small' rest := by
  unfold PageTree.mapStep at hs ⊢
  obtain ⟨index, hindex, hs⟩ := bind_ok hs
  rw [hindex]
  by_cases hchild : getChildAddress m curr index = 0
  · simp only [hchild, if_true] at hs
    obtain ⟨⟨frame, free⟩, halloc, hs⟩ := bind_ok hs
    obtain ⟨big', hbig, hover⟩ := allocateFrame_over h halloc
    cases hs
    refine ⟨big', ?_, hover⟩
    change (if getChildAddress m curr index = 0 then _ else _) = _
    rw [if_pos hchild]
    change (big.allocateFrame >>= _) = _
    rw [hbig]
    rfl
  · simp only [hchild, if_false] at hs
    cases hs
    refine ⟨big, ?_, h⟩
    change (if getChildAddress m curr index = 0 then _ else _) = _
    rw [if_neg hchild]
    rfl

theorem mapSteps_over {hhdm : HhdmOffset} {m m' : Memory} {big small small' : FreeStack} {rest : List Nat}
    {page curr curr' : Nat} {bits : PageFlags} {depths : List Nat} (h : big.Over small rest)
    (hs : depths.foldlM (PageTree.mapStep hhdm page bits) (curr, ⟨m, small⟩) = .ok (curr', ⟨m', small'⟩)) :
    ∃ big', depths.foldlM (PageTree.mapStep hhdm page bits) (curr, ⟨m, big⟩) = .ok (curr', ⟨m', big'⟩) ∧
      big'.Over small' rest := by
  induction depths generalizing curr m big small with
  | nil =>
      cases hs
      exact ⟨big, rfl, h⟩
  | cons d depths ih =>
      rw [List.foldlM_cons] at hs ⊢
      obtain ⟨⟨curr₁, ⟨m₁, small₁⟩⟩, hfirst, hrest⟩ := bind_ok hs
      obtain ⟨big₁, hbig₁, hover⟩ := mapStep_over h hfirst
      rw [hbig₁]
      exact ih hover hrest

theorem mapPageToFrame_over {hhdm : HhdmOffset} {m m' : Memory} {big small small' : FreeStack}
    {rest : List Nat} {page frame node : Nat} {bits : PageFlags} (h : big.Over small rest)
    (hs : PageTree.mapPageToFrame hhdm node ⟨m, small⟩ page frame bits = .ok ⟨m', small'⟩) :
    ∃ big', PageTree.mapPageToFrame hhdm node ⟨m, big⟩ page frame bits = .ok ⟨m', big'⟩ ∧
      big'.Over small' rest := by
  unfold PageTree.mapPageToFrame at hs ⊢
  obtain ⟨⟨curr, ⟨m₁, small₁⟩⟩, hloop, hs⟩ := bind_ok hs
  obtain ⟨index, hindex, hs⟩ := bind_ok hs
  obtain ⟨big₁, hbig₁, hover⟩ := mapSteps_over h hloop
  cases hs
  refine ⟨big₁, ?_, hover⟩
  simp only [hbig₁, hindex, bind, Except.bind]
  rfl

/-! ### A call on the frames that it takes -/

theorem mapStep_free {hhdm : HhdmOffset} {s s' : PagingState} {page curr curr' depth : Nat} {bits : PageFlags}
    (hs : PageTree.mapStep hhdm page bits (curr, s) depth = .ok (curr', s')) : s'.free.frames <:+ s.free.frames := by
  unfold PageTree.mapStep at hs
  obtain ⟨index, _, hs⟩ := bind_ok hs
  by_cases hchild : getChildAddress s.mem curr index = 0
  · simp only [hchild, if_true] at hs
    obtain ⟨⟨frame, free⟩, halloc, hs⟩ := bind_ok hs
    cases hs
    rw [(FreeStack.allocateFrame_ok halloc).1]
    exact List.suffix_cons frame _
  · simp only [hchild, if_false] at hs
    cases hs
    exact List.suffix_refl _

theorem mapSteps_free {hhdm : HhdmOffset} {s s' : PagingState} {page curr curr' : Nat} {bits : PageFlags}
    {depths : List Nat} (hs : depths.foldlM (PageTree.mapStep hhdm page bits) (curr, s) = .ok (curr', s')) :
    s'.free.frames <:+ s.free.frames := by
  induction depths generalizing curr s with
  | nil =>
      cases hs
      exact List.suffix_refl _
  | cons d depths ih =>
      rw [List.foldlM_cons] at hs
      obtain ⟨⟨curr₁, t⟩, hfirst, hrest⟩ := bind_ok hs
      exact (ih hrest).trans (mapStep_free hfirst)

theorem mapPageToFrame_free {hhdm : HhdmOffset} {s s' : PagingState} {page frame node : Nat} {bits : PageFlags}
    (hs : PageTree.mapPageToFrame hhdm node s page frame bits = .ok s') : s'.free.frames <:+ s.free.frames := by
  unfold PageTree.mapPageToFrame at hs
  obtain ⟨⟨curr, t⟩, hloop, hs⟩ := bind_ok hs
  obtain ⟨index, _, hs⟩ := bind_ok hs
  cases hs
  change t.free.frames <:+ s.free.frames
  exact mapSteps_free hloop

/-- A round that returns on the whole stack returns on the frames it takes. -/
theorem mapStep_cut {hhdm : HhdmOffset} {m : Memory} {big small : FreeStack} {rest : List Nat} {t : PagingState}
    {page curr curr' depth : Nat} {bits : PageFlags} (h : big.Over small rest)
    (hs : PageTree.mapStep hhdm page bits (curr, ⟨m, big⟩) depth = .ok (curr', t))
    (hroom : rest.length ≤ t.free.frames.length) :
    ∃ small', PageTree.mapStep hhdm page bits (curr, ⟨m, small⟩) depth = .ok (curr', ⟨t.mem, small'⟩) ∧
      t.free.Over small' rest := by
  unfold PageTree.mapStep at hs ⊢
  obtain ⟨index, hindex, hs⟩ := bind_ok hs
  rw [hindex]
  by_cases hchild : getChildAddress m curr index = 0
  · simp only [hchild, if_true] at hs
    obtain ⟨⟨frame, free⟩, halloc, hs⟩ := bind_ok hs
    cases hs
    have hframes := (FreeStack.allocateFrame_ok halloc).1
    have hlength := congrArg List.length (h.symm.trans hframes)
    rw [List.length_append, List.length_cons] at hlength
    have hsome : small.frames ≠ [] := List.ne_nil_of_length_pos (by dsimp only at hroom; omega)
    obtain ⟨frame', small', hsmall⟩ := FreeStack.allocateFrame_isOk hsome
    obtain ⟨free', hfree, hover⟩ := allocateFrame_over h hsmall
    obtain ⟨rfl, rfl⟩ := Prod.mk.inj (Except.ok.inj (hfree.symm.trans halloc))
    refine ⟨small', ?_, hover⟩
    change (if getChildAddress m curr index = 0 then _ else _) = _
    rw [if_pos hchild]
    change (small.allocateFrame >>= _) = _
    rw [hsmall]
    rfl
  · simp only [hchild, if_false] at hs
    cases hs
    refine ⟨small, ?_, h⟩
    change (if getChildAddress m curr index = 0 then _ else _) = _
    rw [if_neg hchild]
    rfl

theorem mapSteps_cut {hhdm : HhdmOffset} {m : Memory} {big small : FreeStack} {rest : List Nat} {t : PagingState}
    {page curr curr' : Nat} {bits : PageFlags} {depths : List Nat} (h : big.Over small rest)
    (hs : depths.foldlM (PageTree.mapStep hhdm page bits) (curr, ⟨m, big⟩) = .ok (curr', t))
    (hroom : rest.length ≤ t.free.frames.length) :
    ∃ small', depths.foldlM (PageTree.mapStep hhdm page bits) (curr, ⟨m, small⟩) = .ok (curr', ⟨t.mem, small'⟩) ∧
      t.free.Over small' rest := by
  induction depths generalizing curr m big small with
  | nil =>
      cases hs
      exact ⟨small, rfl, h⟩
  | cons d depths ih =>
      rw [List.foldlM_cons] at hs ⊢
      obtain ⟨⟨curr₁, ⟨m₁, big₁⟩⟩, hfirst, hrest⟩ := bind_ok hs
      have hle := (mapSteps_free hrest).length_le
      obtain ⟨small₁, hsmall₁, hover⟩ := mapStep_cut h hfirst (hroom.trans hle)
      rw [hsmall₁]
      exact ih hover hrest

theorem mapPageToFrame_cut {hhdm : HhdmOffset} {m : Memory} {big small : FreeStack} {rest : List Nat}
    {t : PagingState} {page frame node : Nat} {bits : PageFlags} (h : big.Over small rest)
    (hs : PageTree.mapPageToFrame hhdm node ⟨m, big⟩ page frame bits = .ok t)
    (hroom : rest.length ≤ t.free.frames.length) :
    ∃ small', PageTree.mapPageToFrame hhdm node ⟨m, small⟩ page frame bits = .ok ⟨t.mem, small'⟩ ∧
      t.free.Over small' rest := by
  unfold PageTree.mapPageToFrame at hs ⊢
  obtain ⟨⟨curr, u⟩, hloop, hs⟩ := bind_ok hs
  obtain ⟨index, hindex, hs⟩ := bind_ok hs
  cases hs
  obtain ⟨small₁, hsmall₁, hover⟩ := mapSteps_cut h hloop hroom
  refine ⟨small₁, ?_, hover⟩
  simp only [hsmall₁, hindex, bind, Except.bind]
  rfl

/-- The frames that `map_page_to_frame` would take for the tables that the walk
of the page lacks. -/
def tablesTaken (offset root : Nat) (s : PagingState) (page : Nat) : List Nat :=
  s.free.frames.take (missing (edge offset s.mem) root (path page))

/-- A call that returns does the same on the frames that it takes for tables. -/
theorem mapPageToFrame_taken {hhdm : HhdmOffset} {page frame : Nat}
    (h : Intact offset root ⟨s.mem, ⟨tablesTaken offset root s page, _, Nat.le_refl _⟩⟩)
    (hcongr : PageTree.mapPageToFrame hhdm (wrap (root + offset))
        ⟨s.mem, ⟨tablesTaken offset root s page, _, Nat.le_refl _⟩⟩ page frame flags.bits =
      PageTree.mapPageToFrame (fun _ => offset) (wrap (root + offset))
        ⟨s.mem, ⟨tablesTaken offset root s page, _, Nat.le_refl _⟩⟩ page frame flags.bits)
    (hs : PageTree.mapPageToFrame hhdm (wrap (root + offset)) s page frame flags.bits = .ok s') :
    ∃ small', PageTree.mapPageToFrame (fun _ => offset) (wrap (root + offset))
        ⟨s.mem, ⟨tablesTaken offset root s page, _, Nat.le_refl _⟩⟩ page frame flags.bits =
          .ok ⟨s'.mem, small'⟩ ∧
      s'.free.Over small' (s.free.frames.drop (missing (edge offset s.mem) root (path page))) := by
  have hsplit : s.free.Over ⟨tablesTaken offset root s page, _, Nat.le_refl _⟩
      (s.free.frames.drop (missing (edge offset s.mem) root (path page))) :=
    (List.take_append_drop _ _).symm
  by_cases henough : missing (edge offset s.mem) root (path page) ≤ s.free.frames.length
  · obtain ⟨⟨m', small'⟩, hsmall⟩ := mapPageToFrame_isOk h page frame flags
      (by simp only [tablesTaken, List.length_take]; omega)
    obtain ⟨big', hbig, hover⟩ := mapPageToFrame_over hsplit (hcongr.trans hsmall)
    obtain rfl := Except.ok.inj (hs.symm.trans hbig)
    exact ⟨small', hsmall, hover⟩
  · -- nothing is left of the stack
    have hnone : s.free.frames.drop (missing (edge offset s.mem) root (path page)) = [] :=
      List.drop_of_length_le (by omega)
    obtain ⟨small', hsmall, hover⟩ := mapPageToFrame_cut hsplit hs (by rw [hnone]; exact Nat.zero_le _)
    exact ⟨small', hcongr.symm.trans hsmall, hover⟩

end

end DavOS
