import DavOS.MapLevel

/-! `PageTree::map_page_to_frame` as a whole: the rounds of its loop, the leaf
entry it stores, and the map from pages to leaf entries that it updates. -/
namespace DavOS
open MachineWord PathGraph PageTreeNode

/-- The rounds of the loop along the labels of a path. -/
inductive Descent (offset : Nat) (flags : FlagSet) :
    List Index → Nat → PagingState → List Index → Nat → PagingState → Prop
  | here (π : List Index) (n : Nat) (s : PagingState) : Descent offset flags π n s [] n s
  | down {π τ : List Index} {n c c' : Nat} {i : Index} {s t s' : PagingState} :
      Level offset flags n i s t c → Descent offset flags (π ++ [i]) c t τ c' s' →
      Descent offset flags π n s (i :: τ) c' s'

/-- The leaf entry that the tree holds for the page of an address, clear when a
table above it is missing. -/
def leafEntry (offset root : Nat) (m : Memory) (v : Nat) : BitVec 64 :=
  match follow (edge offset m) root (path v) with
  | some n => entryAt offset m n (indexAt v 3)
  | none => 0#64

theorem leafEntry_of_follow {offset root : Nat} {m : Memory} {v n : Nat}
    (h : follow (edge offset m) root (path v) = some n) :
    leafEntry offset root m v = entryAt offset m n (indexAt v 3) := by
  simp only [leafEntry, h]

theorem leafEntry_of_missing {offset root : Nat} {m : Memory} {v : Nat}
    (h : follow (edge offset m) root (path v) = none) : leafEntry offset root m v = 0#64 := by
  simp only [leafEntry, h]

theorem path_length (v : Nat) : (path v).length = 3 := rfl

section

variable {offset root : Nat} {s s' t : PagingState} {π τ : List Index} {n c : Nat} {i : Index} {flags : FlagSet}

theorem Level.leafEntry (h : Intact offset root s) (hn : follow (edge offset s.mem) root π = some n)
    (hlen : π.length < 3) (hl : Level offset flags n i s s' c) (v : Nat) :
    leafEntry offset root s'.mem v = leafEntry offset root s.mem v := by
  cases hv : follow (edge offset s.mem) root (path v) with
  | some k =>
      have hv' := hl.follow_mono h hn hlen (path_length v).le hv
      rw [leafEntry_of_follow hv, leafEntry_of_follow hv']
      apply hl.entry_other h hn hlen (path_length v).le hv
      intro hslot
      obtain ⟨rfl, _⟩ := Prod.mk.inj hslot
      -- the slot belongs to an upper table, which no full path ends in
      have := congrArg List.length (h.unshared _ _ _ (path_length v).le hlen.le hv hn)
      rw [path_length] at this
      omega
  | none =>
      rw [leafEntry_of_missing hv]
      cases hv' : follow (edge offset s'.mem) root (path v) with
      | none => exact leafEntry_of_missing hv'
      | some k =>
          rcases hl.follow_cases h hn hlen (path_length v).le hv' with hold | ⟨_, rfl, _, _, hzero⟩
          · rw [hv] at hold
            cases hold
          · rw [leafEntry_of_follow hv', hzero]

/-- What the rounds along `τ` from table `n` at path `π` have done on arrival. -/
structure Arrived (offset root : Nat) (s s' : PagingState) (ρ : List Index) (c lacking : Nat) : Prop where
  intact : Intact offset root s'
  follow_end : follow (edge offset s'.mem) root ρ = some c
  follow_mono : ∀ ρ k, ρ.length ≤ 3 → follow (edge offset s.mem) root ρ = some k →
    follow (edge offset s'.mem) root ρ = some k
  leaves : ∀ v, leafEntry offset root s'.mem v = leafEntry offset root s.mem v
  taken : ∃ nodes, s.free.frames = nodes ++ s'.free.frames ∧ nodes.length = lacking
  grown : ∀ σ k, σ.length ≤ 3 → follow (edge offset s'.mem) root σ = some k →
    follow (edge offset s.mem) root σ = some k ∨ (k ∈ s.free.frames ∧ σ <+: ρ)
  capacity : s'.free.capacity = s.free.capacity

theorem Level.taken (h : Intact offset root s) (hn : follow (edge offset s.mem) root π = some n)
    (hlen : π.length < 3) (hl : Level offset flags n i s s' c) (τ : List Index)
    (hτ : π.length + 1 + τ.length ≤ 3) :
    ∃ nodes, s.free.frames = nodes ++ s'.free.frames ∧
      nodes.length + missing (edge offset s'.mem) c τ = missing (edge offset s.mem) n (i :: τ) := by
  by_cases hentry : entryAt offset s.mem n i = 0#64
  · rw [missing_cons_none (edge_of_zero hentry)]
    cases hl with
    | kept old frame entry mem free => exact absurd (entry.symm.trans hentry) (entryWord_ne_zero _ _)
    | fresh entry free mem capacity =>
        refine ⟨[c], free, ?_⟩
        cases τ with
        | nil => simp [missing]
        | cons j τ =>
            rw [missing_cons_none (edge_of_zero (Level.entry_fresh h hn hlen free mem j))]
            simp only [List.length_cons, List.length_nil]
            omega
  · have hkept := fun ρ hρ => hl.follow_kept h hn hlen hentry (ρ := ρ) hρ
    have hchild' := hl.child h hn hlen
    have hchild : follow (edge offset s.mem) root (π ++ [i]) = some c := by
      rw [← hkept (π ++ [i]) (by simp; omega)]
      exact hchild'
    have hedge : edge offset s.mem n i = some c := (follow_snoc hn i).symm.trans hchild
    cases hl with
    | fresh entry free mem capacity => exact absurd entry hentry
    | kept old frame entry mem free =>
        refine ⟨[], by rw [free]; rfl, ?_⟩
        rw [missing_cons_some hedge, List.length_nil, Nat.zero_add]
        apply missing_congr
        intro ρ hρ
        have hρlen := hρ.length_le
        have hfollow := hkept (π ++ [i] ++ ρ) (by simp; omega)
        rw [follow_append _ _ (π ++ [i]), follow_append _ _ (π ++ [i]), hchild, hchild'] at hfollow
        exact congrArg Option.isSome hfollow

theorem Level.capacity (hl : Level offset flags n i s s' c) : s'.free.capacity = s.free.capacity := by
  cases hl with
  | kept old frame entry mem free => rw [free]
  | fresh entry free mem capacity => exact capacity

theorem path_room (h : π.length + (i :: τ).length ≤ 3) : π.length < 3 ∧ (π ++ [i]).length + τ.length ≤ 3 := by
  simp only [List.length_cons, List.length_append, List.length_nil] at h ⊢
  omega

theorem Descent.arrived (hd : Descent offset flags π n s τ c s') (h : Intact offset root s)
    (hn : follow (edge offset s.mem) root π = some n) (hlen : π.length + τ.length ≤ 3) :
    Arrived offset root s s' (π ++ τ) c (missing (edge offset s.mem) n τ) := by
  induction hd with
  | here π n s =>
      rw [List.append_nil]
      exact ⟨h, hn, fun _ _ _ hk => hk, fun _ => rfl, ⟨[], rfl, rfl⟩, fun _ _ _ hk => Or.inl hk, rfl⟩
  | @down π τ n c c' i s t s' hl hd ih =>
      obtain ⟨hlt, hlen'⟩ := path_room hlen
      have ha := ih (hl.intact h hn hlt) (hl.child h hn hlt) hlen'
      have hbelow : π.length + 1 + τ.length ≤ 3 := by simpa using hlen'
      obtain ⟨first, hfirst, hfirstLen⟩ := hl.taken h hn hlt τ (by omega)
      obtain ⟨rest, hrest, hrestLen⟩ := ha.taken
      refine ⟨ha.intact, ?_, ?_, ?_, ?_, ?_, ha.capacity.trans hl.capacity⟩
      · simpa only [List.append_assoc, List.singleton_append] using ha.follow_end
      · intro ρ k hρ hk
        exact ha.follow_mono ρ k hρ (hl.follow_mono h hn hlt hρ hk)
      · intro v
        exact (ha.leaves v).trans (hl.leafEntry h hn hlt v)
      · refine ⟨first ++ rest, by rw [hfirst, hrest, List.append_assoc], ?_⟩
        rw [List.length_append, hrestLen, hfirstLen]
      · have happend : π ++ i :: τ = π ++ [i] ++ τ := by simp
        rw [happend]
        intro ρ k hρ hk
        rcases ha.grown ρ k hρ hk with hk | ⟨hk, hprefix⟩
        · rcases hl.follow_cases h hn hlt hρ hk with hold | ⟨rfl, rfl, hfree, _⟩
          · exact Or.inl hold
          · exact Or.inr ⟨by rw [hfree]; exact List.mem_cons_self, List.prefix_append _ _⟩
        · exact Or.inr ⟨hl.free_subset.subset hk, hprefix⟩

theorem mapStep_descent {page curr : Nat} {depths : List Nat} (h : Intact offset root s)
    (hn : follow (edge offset s.mem) root π = some n) (hlen : π.length + depths.length ≤ 3)
    (hdepths : ∀ d ∈ depths, d < 4)
    (hs : depths.foldlM (PageTree.mapStep (fun _ => offset) page flags.bits) (wrap (n + offset), s) =
      .ok (curr, s')) :
    ∃ c, curr = wrap (c + offset) ∧ Descent offset flags π n s (depths.map (indexAt page)) c s' := by
  induction depths generalizing π n s with
  | nil =>
      cases hs
      exact ⟨n, rfl, .here _ _ _⟩
  | cons d depths ih =>
      simp only [List.length_cons] at hlen
      have hlt : π.length < 3 := by omega
      rw [List.foldlM_cons] at hs
      obtain ⟨⟨curr₁, s₁⟩, hfirst, hrest⟩ := bind_ok hs
      obtain ⟨c₁, rfl, hl⟩ := mapStep_level h hn hlt (hdepths d List.mem_cons_self) hfirst
      obtain ⟨c, hcurr, hd⟩ := ih (hl.intact h hn hlt) (hl.child h hn hlt)
        (by simp only [List.length_append, List.length_singleton]; omega)
        (fun e he => hdepths e (List.mem_cons_of_mem d he)) hrest
      exact ⟨c, hcurr, .down hl hd⟩

theorem mapPageToFrame_descent (h : Intact offset root s) {page frame : Nat} (hframe : frame % 4096 = 0)
    (hs : PageTree.mapPageToFrame (fun _ => offset) (wrap (root + offset)) s page frame flags.bits = .ok s') :
    ∃ c t, Descent offset flags [] root s (path page) c t ∧ s' = ⟨Function.update t.mem
      (entryAddress (wrap (c + offset)) (indexAt page 3)) (entryWord frame flags.bits), t.free⟩ := by
  unfold PageTree.mapPageToFrame at hs
  obtain ⟨⟨curr, t⟩, hloop, hs⟩ := bind_ok hs
  obtain ⟨c, rfl, hd⟩ := mapStep_descent h (follow_nil _ _) (by decide) (by decide) hloop
  refine ⟨c, t, hd, ?_⟩
  simp only [getTableIndex_eq page (show PageTree.maxDepth < 4 by decide)] at hs
  change Except.ok _ = Except.ok s' at hs
  rw [setChild_eq _ _ _ hframe, Except.ok.injEq] at hs
  exact hs.symm

theorem mapStep_isOk (flags : FlagSet) (h : Intact offset root s) (hn : follow (edge offset s.mem) root π = some n)
    (hlen : π.length < 3) {page depth : Nat} (hdepth : depth < 4) {τ : List Index}
    (hfree : missing (edge offset s.mem) n (indexAt page depth :: τ) ≤ s.free.frames.length) :
    ∃ curr s', PageTree.mapStep (fun _ => offset) page flags.bits (wrap (n + offset), s) depth =
      .ok (curr, s') := by
  unfold PageTree.mapStep
  simp only [getTableIndex_eq page hdepth]
  by_cases hchild : getChildAddress s.mem (wrap (n + offset)) (indexAt page depth) = 0
  · have hne : s.free.frames ≠ [] := by
      intro hnil
      rcases h.entries π n (indexAt page depth) hlen.le hn with h0 | ⟨a, old, ha, hframe, he⟩
      · rw [missing_cons_none (edge_of_zero h0), hnil] at hfree
        exact absurd hfree (by simp)
      · change (entryAt offset s.mem n (indexAt page depth) &&& childAddressMask).toNat = 0 at hchild
        rw [he, entryWord_childAddress ha.1, Nat.mod_eq_of_lt (hframe hlen).2.2] at hchild
        exact (hframe hlen).2.1 hchild
    obtain ⟨f, free, halloc⟩ := FreeStack.allocateFrame_isOk hne
    exact ⟨_, _, by
      change (if getChildAddress s.mem (wrap (n + offset)) (indexAt page depth) = 0 then _ else _) = _
      rw [if_pos hchild, halloc]
      rfl⟩
  · exact ⟨_, _, by
      change (if getChildAddress s.mem (wrap (n + offset)) (indexAt page depth) = 0 then _ else _) = _
      rw [if_neg hchild]
      rfl⟩

theorem mapStep_run_isOk (flags : FlagSet) (page : Nat) (depths : List Nat) (h : Intact offset root s)
    (hn : follow (edge offset s.mem) root π = some n) (hlen : π.length + depths.length ≤ 3)
    (hdepths : ∀ d ∈ depths, d < 4)
    (hfree : missing (edge offset s.mem) n (depths.map (indexAt page)) ≤ s.free.frames.length) :
    ∃ curr s', depths.foldlM (PageTree.mapStep (fun _ => offset) page flags.bits) (wrap (n + offset), s) =
      .ok (curr, s') := by
  induction depths generalizing π n s with
  | nil => exact ⟨_, _, rfl⟩
  | cons d depths ih =>
      simp only [List.length_cons] at hlen
      have hlt : π.length < 3 := by omega
      have hd := hdepths d List.mem_cons_self
      obtain ⟨curr₁, s₁, hfirst⟩ := mapStep_isOk flags h hn hlt hd hfree
      obtain ⟨c₁, rfl, hl⟩ := mapStep_level h hn hlt hd hfirst
      obtain ⟨nodes, hnodes, hcount⟩ := hl.taken h hn hlt (depths.map (indexAt page)) (by simp; omega)
      have hfree₁ : missing (edge offset s₁.mem) c₁ (depths.map (indexAt page)) ≤ s₁.free.frames.length := by
        have hlength := congrArg List.length hnodes
        rw [List.length_append] at hlength
        rw [List.map_cons, ← hcount] at hfree
        omega
      rw [List.foldlM_cons, hfirst]
      exact ih (hl.intact h hn hlt) (hl.child h hn hlt)
        (by simp only [List.length_append, List.length_singleton]; omega)
        (fun e he => hdepths e (List.mem_cons_of_mem d he)) hfree₁

/-- `map_page_to_frame` returns when the free stack can supply the missing tables. -/
theorem mapPageToFrame_isOk (h : Intact offset root s) (page frame : Nat) (flags : FlagSet)
    (hfree : missing (edge offset s.mem) root (path page) ≤ s.free.frames.length) :
    ∃ s', PageTree.mapPageToFrame (fun _ => offset) (wrap (root + offset)) s page frame flags.bits =
      .ok s' := by
  obtain ⟨curr, t, hloop⟩ := mapStep_run_isOk flags page [0, 1, 2] h
    (follow_nil _ _) (by decide) (by decide) hfree
  unfold PageTree.mapPageToFrame
  rw [show List.range PageTree.maxDepth = [0, 1, 2] from rfl, hloop]
  exact ⟨_, rfl⟩

/-- Storing a leaf entry moves no table: no path of upper indices leaves a page table. -/
theorem follow_leafStore (h : Intact offset root t) {page : Nat}
    (hc : follow (edge offset t.mem) root (path page) = some c) (w : BitVec 64) {ρ : List Index}
    (hρ : ρ.length ≤ 3) :
    follow (edge offset (Function.update t.mem
      (entryAddress (wrap (c + offset)) (indexAt page 3)) w)) root ρ =
      follow (edge offset t.mem) root ρ := by
  apply follow_congr
  intro τ k j hτ hk
  have hτlen : τ.length < 3 := by
    have := hτ.length_le
    simp only [List.length_append, List.length_singleton] at this
    omega
  have hkt := (h.nodes τ k hτlen.le hk).1
  have hct := (h.nodes _ c (path_length page).le hc).1
  apply edge_congr
  rw [entryAt_update hct hkt, if_neg]
  rintro ⟨rfl, _⟩
  have := congrArg List.length (h.unshared _ _ _ hτlen.le (path_length page).le hk hc)
  rw [path_length] at this
  omega

theorem intact_leafStore (h : Intact offset root t) {page frame : Nat} (hframe : IsTable frame)
    (hc : follow (edge offset t.mem) root (path page) = some c) (flags : FlagSet) :
    Intact offset root ⟨Function.update t.mem
      (entryAddress (wrap (c + offset)) (indexAt page 3)) (entryWord frame flags.bits), t.free⟩ := by
  have hfollow := fun ρ hρ => follow_leafStore h hc (entryWord frame flags.bits) (ρ := ρ) hρ
  refine ⟨h.rootTable, ?_, ?_, ?_, h.nodup, h.frames⟩
  · intro ρ τ k hρ hτ hk hk'
    rw [hfollow ρ hρ] at hk
    rw [hfollow τ hτ] at hk'
    exact h.unshared ρ τ k hρ hτ hk hk'
  · intro ρ k hρ hk
    rw [hfollow ρ hρ] at hk
    exact h.nodes ρ k hρ hk
  · intro ρ k j hρ hk
    rw [hfollow ρ hρ] at hk
    have hkt := (h.nodes ρ k hρ hk).1
    have hct := (h.nodes _ c (path_length page).le hc).1
    rw [entryAt_update hct hkt]
    split
    · rename_i hslot
      obtain ⟨rfl, rfl⟩ := hslot
      refine Or.inr ⟨frame, flags, hframe, ?_, rfl⟩
      intro hlt
      have := congrArg List.length (h.unshared _ _ _ hρ (path_length page).le hk hc)
      rw [path_length] at this
      omega
    · exact h.entries ρ k j hρ hk

theorem leafEntry_leafStore (h : Intact offset root t) {page : Nat}
    (hc : follow (edge offset t.mem) root (path page) = some c) (w : BitVec 64) (v : Nat) :
    leafEntry offset root (Function.update t.mem
      (entryAddress (wrap (c + offset)) (indexAt page 3)) w) v =
      if SamePage v page then w else leafEntry offset root t.mem v := by
  have hct := (h.nodes _ c (path_length page).le hc).1
  have hfollow := follow_leafStore h hc w (path_length v).le
  cases hv : follow (edge offset t.mem) root (path v) with
  | none =>
      have hne : ¬ SamePage v page := by
        intro hsame
        rw [(samePage_iff.mp hsame).1, hc] at hv
        cases hv
      rw [if_neg hne, leafEntry_of_missing hv, leafEntry_of_missing (hfollow.trans hv)]
  | some k =>
      have hkt := (h.nodes _ k (path_length v).le hv).1
      rw [leafEntry_of_follow hv, leafEntry_of_follow (hfollow.trans hv), entryAt_update hct hkt]
      by_cases hsame : SamePage v page
      · obtain ⟨hpath, hidx⟩ := samePage_iff.mp hsame
        have hkc : k = c := Option.some.inj (hv.symm.trans (hpath ▸ hc))
        rw [if_pos hsame, if_pos ⟨hkc, hidx⟩]
      · rw [if_neg hsame, if_neg]
        rintro ⟨rfl, hidx⟩
        have hpath := h.unshared _ _ _ (path_length v).le (path_length page).le hv hc
        exact hsame (samePage_iff.mpr ⟨hpath, hidx⟩)

/-- What a call of `map_page_to_frame` that returns has done. -/
structure MapsPage (offset root : Nat) (s s' : PagingState) (page frame : Nat) (flags : FlagSet) : Prop where
  intact : Intact offset root s'
  leaves : ∀ v, leafEntry offset root s'.mem v =
    if SamePage v page then entryWord frame flags.bits else leafEntry offset root s.mem v
  taken : ∃ nodes, s.free.frames = nodes ++ s'.free.frames ∧
    nodes.length = missing (edge offset s.mem) root (path page)
  follow_mono : ∀ ρ k, ρ.length ≤ 3 → follow (edge offset s.mem) root ρ = some k →
    follow (edge offset s'.mem) root ρ = some k
  reached : ∃ n, follow (edge offset s'.mem) root (path page) = some n
  grown : ∀ ρ k, ρ.length ≤ 3 → follow (edge offset s'.mem) root ρ = some k →
    follow (edge offset s.mem) root ρ = some k ∨ (k ∈ s.free.frames ∧ ρ <+: path page)
  capacity : s'.free.capacity = s.free.capacity

theorem mapPageToFrame_spec (h : Intact offset root s) {page frame : Nat} (hframe : IsTable frame)
    (hs : PageTree.mapPageToFrame (fun _ => offset) (wrap (root + offset)) s page frame flags.bits = .ok s') :
    MapsPage offset root s s' page frame flags := by
  obtain ⟨c, t, hd, rfl⟩ := mapPageToFrame_descent h hframe.1 hs
  have ha := hd.arrived h (follow_nil _ _) (by simp [path_length])
  have hc : follow (edge offset t.mem) root (path page) = some c := ha.follow_end
  refine ⟨intact_leafStore ha.intact hframe hc flags, ?_, ha.taken, ?_, ⟨c, ?_⟩, ?_, ha.capacity⟩
  · intro v
    rw [leafEntry_leafStore ha.intact hc, ha.leaves]
  · intro ρ k hρ hk
    rw [follow_leafStore ha.intact hc _ hρ]
    exact ha.follow_mono ρ k hρ hk
  · rw [follow_leafStore ha.intact hc _ (path_length page).le]
    exact hc
  · intro ρ k hρ hk
    rw [follow_leafStore ha.intact hc _ hρ] at hk
    exact ha.grown ρ k hρ hk

theorem MapsPage.leaf_page {page frame v : Nat} (h : MapsPage offset root s s' page frame flags)
    (hv : SamePage v page) : leafEntry offset root s'.mem v = entryWord frame flags.bits := by
  rw [h.leaves, if_pos hv]

theorem MapsPage.leaf_other {page frame v : Nat} (h : MapsPage offset root s s' page frame flags)
    (hv : ¬ SamePage v page) : leafEntry offset root s'.mem v = leafEntry offset root s.mem v := by
  rw [h.leaves, if_neg hv]

theorem missing_path_le (m : Memory) (page : Nat) : missing (edge offset m) root (path page) ≤ 3 := by
  have hle := missing_le (edge offset m) root (path page)
  rwa [path_length] at hle

theorem MapsPage.frames_le {page frame : Nat} (h : MapsPage offset root s s' page frame flags) :
    s.free.frames.length ≤ s'.free.frames.length + 3 := by
  obtain ⟨nodes, hnodes, hcount⟩ := h.taken
  have hlack : missing (edge offset s.mem) root (path page) ≤ 3 := missing_path_le s.mem page
  rw [hnodes, List.length_append]
  omega

end

end DavOS
