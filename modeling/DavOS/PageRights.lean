import DavOS.OffsetReads
import DavOS.PageWalk

/-! Effective rights: the combination of the four entries on a walk, and how a
mapping of another page changes them through the upper-level entries that the
two pages share. -/
namespace DavOS
open MachineWord PathGraph PageTreeNode

/-- What a walk allows: a right that some level withholds is not there. -/
structure Rights where
  write : Bool
  user : Bool
  execute : Bool
  deriving DecidableEq

namespace Rights

def of (entries : List (BitVec 64)) : Rights where
  write := entries.all (·.getLsbD 1)
  user := entries.all (·.getLsbD 2)
  execute := entries.all (!·.getLsbD 63)

/-- Every right of `r` is one of `r'`. -/
def Kept (r r' : Rights) : Prop :=
  (r.write → r'.write) ∧ (r.user → r'.user) ∧ (r.execute → r'.execute)

/-- An entry with these flags withholds no right of `r`. -/
def Granted (r : Rights) (flags : PageFlags) : Prop :=
  (r.write → flags.getLsbD 1) ∧ (r.user → flags.getLsbD 2) ∧ (r.execute → flags.getLsbD 63 = false)

end Rights

/-- `set_child_flags` as it acts on the entry. -/
def rewriteFlags (flags : PageFlags) (entry : BitVec 64) : BitVec 64 :=
  (entry &&& clearFlagsMask) ||| (flags ||| PageFlags.present)

theorem rewriteFlags_low (flags : PageFlags) (entry : BitVec 64) {i : Nat} (h0 : i ≠ 0) (h8 : i < 8) :
    (rewriteFlags flags entry).getLsbD i = flags.getLsbD i := by
  have h : ¬ (8 ≤ i ∧ i < 64) := by omega
  simp [rewriteFlags, BitVec.getLsbD_or, BitVec.getLsbD_and, clearFlagsMask_bit, present_bit, h, h0]

theorem rewriteFlags_executeDisable (flags : PageFlags) (entry : BitVec 64) :
    (rewriteFlags flags entry).getLsbD 63 = (entry.getLsbD 63 || flags.getLsbD 63) := by
  simp only [rewriteFlags, BitVec.getLsbD_or, BitVec.getLsbD_and, clearFlagsMask_bit, present_bit]
  simp

section

variable {offset root : Nat} {s s' : PagingState} {π τ : List Index} {n c : Nat} {flags : FlagSet}

/-- The rounds of the loop rewrite the flags of the entries on their own path
and of no others. -/
theorem Descent.entry (hd : Descent offset flags π n s τ c s') (h : Intact offset root s)
    (hn : follow (edge offset s.mem) root π = some n) (hlen : π.length + τ.length ≤ 3)
    {σ : List Index} {k : Nat} {j : Index} (hσ : σ.length ≤ 3)
    (hk : follow (edge offset s.mem) root σ = some k) (hne : entryAt offset s.mem k j ≠ 0#64) :
    (σ ++ [j] <+: π ++ τ → π.length ≤ σ.length →
      entryAt offset s'.mem k j = rewriteFlags flags.bits (entryAt offset s.mem k j)) ∧
    (¬ (σ ++ [j] <+: π ++ τ ∧ π.length ≤ σ.length) →
      entryAt offset s'.mem k j = entryAt offset s.mem k j) := by
  induction hd with
  | here π n s =>
      refine ⟨fun hp hle => ?_, fun _ => rfl⟩
      have := hp.length_le
      simp only [List.length_append, List.length_singleton, List.append_nil] at this
      omega
  | @down π τ n c c' i s t s' hl hd ih =>
      obtain ⟨hlt, hlen'⟩ := path_room hlen
      have hnext := hl.intact h hn hlt
      have hchild := hl.child h hn hlt
      have hkt := hl.follow_mono h hn hlt hσ hk
      have happ : π ++ [i] ++ τ = π ++ i :: τ := by simp
      by_cases hslot : σ = π ∧ j = i
      · -- the round itself rewrites this entry, the later ones are below it
        obtain ⟨rfl, rfl⟩ := hslot
        obtain rfl : k = n := Option.some.inj (hk.symm.trans hn)
        have hkept : entryAt offset t.mem k j = rewriteFlags flags.bits (entryAt offset s.mem k j) := by
          have hkt' := (h.nodes σ k hσ hk).1
          cases hl with
          | fresh entry free mem capacity => exact absurd entry hne
          | kept old frame entry mem free =>
              rw [mem, entryAt_update hkt' hkt', if_pos ⟨rfl, rfl⟩, entry, rewriteFlags,
                entryWord_setFlags frame.1]
        have hne' : entryAt offset t.mem k j ≠ 0#64 := by
          obtain ⟨new, hnew⟩ := hl.entry_slot h hn hlt
          rw [hnew]
          exact entryWord_ne_zero _ _
        have hlater := (ih hnext hchild hlen' hkt hne').2 (by
          rintro ⟨_, hle⟩
          simp only [List.length_append, List.length_singleton] at hle
          omega)
        refine ⟨fun _ _ => hlater.trans hkept, fun hnot => ?_⟩
        exact absurd ⟨by rw [← happ]; exact List.prefix_append _ _, le_refl _⟩ hnot
      · have hsame : entryAt offset t.mem k j = entryAt offset s.mem k j := by
          apply hl.entry_other h hn hlt hσ hk
          intro hkn
          obtain ⟨rfl, rfl⟩ := Prod.mk.inj hkn
          exact hslot ⟨h.unshared σ π k hσ hlt.le hk hn, rfl⟩
        obtain ⟨hin, hout⟩ := ih hnext hchild hlen' hkt (hsame ▸ hne)
        rw [happ] at hin hout
        rw [hsame] at hin hout
        have hlonger : σ ++ [j] <+: π ++ i :: τ → π.length ≤ σ.length → (π ++ [i]).length ≤ σ.length := by
          intro hp hle
          by_contra hgt
          simp only [List.length_append, List.length_singleton] at hgt
          have hp' : π ++ [i] <+: π ++ i :: τ := happ ▸ List.prefix_append _ _
          have heq := List.IsPrefix.eq_of_length (List.prefix_of_prefix_length_le hp hp' (by simp; omega))
            (by simp; omega)
          exact hslot ⟨(List.append_inj' heq rfl).1, by simpa using (List.append_inj' heq rfl).2⟩
        refine ⟨fun hp hle => hin hp (hlonger hp hle), fun hnot => hout ?_⟩
        rintro ⟨hp, hle⟩
        simp only [List.length_append, List.length_singleton] at hle
        exact hnot ⟨hp, by omega⟩

theorem mapPageToFrame_entry (h : Intact offset root s) {q frame : Nat} (hframe : IsTable frame)
    (hs : PageTree.mapPageToFrame (fun _ => offset) (wrap (root + offset)) s q frame flags.bits = .ok s')
    {σ : List Index} {k : Nat} {j : Index} (hσ : σ.length ≤ 3)
    (hk : follow (edge offset s.mem) root σ = some k) (hne : entryAt offset s.mem k j ≠ 0#64)
    (hother : σ ++ [j] ≠ path q ++ [indexAt q 3]) :
    (σ ++ [j] <+: path q →
      entryAt offset s'.mem k j = rewriteFlags flags.bits (entryAt offset s.mem k j)) ∧
    (¬ σ ++ [j] <+: path q → entryAt offset s'.mem k j = entryAt offset s.mem k j) := by
  obtain ⟨c, t, hd, rfl⟩ := mapPageToFrame_descent h hframe.1 hs
  have ha := hd.arrived h (follow_nil _ _) (by simp [path_length])
  have hc : follow (edge offset t.mem) root (path q) = some c := ha.follow_end
  have hkt := ha.follow_mono σ k hσ hk
  have hleaf : ∀ w, entryAt offset (Function.update t.mem
      (entryAddress (wrap (c + offset)) (indexAt q 3)) w) k j = entryAt offset t.mem k j := by
    intro w
    rw [entryAt_update (ha.intact.nodes _ c (path_length q).le hc).1 (ha.intact.nodes σ k hσ hkt).1, if_neg]
    rintro ⟨rfl, rfl⟩
    exact hother (by rw [ha.intact.unshared σ (path q) k hσ (path_length q).le hkt hc])
  obtain ⟨hin, hout⟩ := hd.entry h (follow_nil _ _) (by simp [path_length]) hσ hk hne
  rw [hleaf]
  exact ⟨fun hp => hin hp (Nat.zero_le _), fun hnp => hout fun hboth => hnp hboth.1⟩

end

theorem entriesOn_all {offset root : Nat} {m : Memory} {ρ : List Index} {es : List (BitVec 64)}
    (h : entriesOn offset m root ρ = some es) (b : BitVec 64 → Bool) :
    es.all b = true ↔ ∀ σ j, σ ++ [j] <+: ρ → ∀ k, follow (edge offset m) root σ = some k →
      b (entryAt offset m k j) = true := by
  induction ρ using List.reverseRecOn generalizing es with
  | nil =>
      cases h
      refine iff_of_true rfl fun σ j hp => ?_
      have := hp.length_le
      simp at this
  | append_singleton ρ i ih =>
      rw [entriesOn_snoc] at h
      obtain ⟨es₀, hes₀, h⟩ := Option.bind_eq_some_iff.mp h
      obtain ⟨k₀, hk₀, h⟩ := Option.bind_eq_some_iff.mp h
      split at h
      · cases h
        rw [List.all_append, Bool.and_eq_true, ih hes₀]
        constructor
        · rintro ⟨hall, hlast⟩ σ j hp k hk
          rcases List.prefix_concat_iff.mp hp with heq | hp
          · obtain ⟨rfl, hj⟩ := List.append_inj' heq rfl
            obtain rfl : j = i := by simpa using hj
            obtain rfl : k = k₀ := Option.some.inj (hk.symm.trans hk₀)
            simpa using hlast
          · exact hall σ j hp k hk
        · intro hall
          refine ⟨fun σ j hp => hall σ j (hp.trans (List.prefix_append _ _)), ?_⟩
          simpa using hall ρ i (List.prefix_refl _) k₀ hk₀
      · cases h

theorem entriesOn_present {offset root : Nat} {m : Memory} {ρ : List Index} {es : List (BitVec 64)}
    (h : entriesOn offset m root ρ = some es) : es.all Ia32e.isPresent = true := by
  induction ρ generalizing root es with
  | nil =>
      cases h
      rfl
  | cons i ρ ih =>
      unfold entriesOn at h
      split at h
      · rename_i hp
        obtain ⟨rest, hrest, rfl⟩ := Option.map_eq_some_iff.mp h
        rw [List.all_cons, hp, ih hrest]
        rfl
      · cases h

section

variable {offset root : Nat} {s s' : PagingState} {flags : FlagSet}

def fullPath (v : Nat) : List Index := path v ++ [indexAt v 3]

theorem fullPath_prefix_length {v : Nat} {σ : List Index} {j : Index} (h : σ ++ [j] <+: fullPath v) :
    σ.length ≤ 3 := by
  have := h.length_le
  simp only [fullPath, List.length_append, List.length_singleton, path_length] at this
  omega

theorem walk_entry_after (h : Intact offset root s) {p q frame : Nat} (hframe : IsTable frame)
    (hs : PageTree.mapPageToFrame (fun _ => offset) (wrap (root + offset)) s q frame flags.bits = .ok s')
    {es : List (BitVec 64)} (hp : Ia32e.walk (physical offset s.mem) root p = some es)
    (hne : ¬ SamePage p q) {σ : List Index} {j : Index} (hσ : σ ++ [j] <+: fullPath p) :
    ∃ k, follow (edge offset s.mem) root σ = some k ∧ follow (edge offset s'.mem) root σ = some k ∧
      (σ ++ [j] <+: path q →
        entryAt offset s'.mem k j = rewriteFlags flags.bits (entryAt offset s.mem k j)) ∧
      (¬ σ ++ [j] <+: path q → entryAt offset s'.mem k j = entryAt offset s.mem k j) := by
  rw [walk_eq_entriesOn] at hp
  have hlen := fullPath_prefix_length hσ
  obtain ⟨τ, hτ⟩ := hσ
  have hfollow : (follow (edge offset s.mem) root (fullPath p)).isSome := by
    rw [← entriesOn_isSome]
    exact Option.isSome_iff_exists.mpr ⟨es, hp⟩
  obtain ⟨n, hn⟩ := Option.isSome_iff_exists.mp hfollow
  rw [← hτ, List.append_assoc] at hn
  obtain ⟨k, hk⟩ := follow_of_append hn
  have hpresent := (entriesOn_all hp Ia32e.isPresent).mp (entriesOn_present hp) σ j ⟨τ, hτ⟩ k hk
  have hnz : entryAt offset s.mem k j ≠ 0#64 := by
    intro h0
    rw [h0] at hpresent
    exact absurd hpresent (by decide)
  have hother : σ ++ [j] ≠ path q ++ [indexAt q 3] := by
    intro heq
    have hτnil : τ = [] := by
      have hlengths := congrArg List.length hτ
      rw [heq] at hlengths
      simp only [fullPath, List.length_append, List.length_singleton, path_length] at hlengths
      exact List.eq_nil_of_length_eq_zero (by omega)
    rw [hτnil, List.append_nil, heq] at hτ
    obtain ⟨hpath, hidx⟩ := List.append_inj' hτ rfl
    exact hne (samePage_iff.mpr ⟨hpath.symm, by simpa using hidx.symm⟩)
  exact ⟨k, hk, (mapPageToFrame_spec h hframe hs).follow_mono σ k hlen hk,
    mapPageToFrame_entry h hframe hs hlen hk hnz hother⟩

theorem walk_isSome_after (h : Intact offset root s) {p q frame : Nat} (hframe : IsTable frame)
    (hs : PageTree.mapPageToFrame (fun _ => offset) (wrap (root + offset)) s q frame flags.bits = .ok s')
    {es : List (BitVec 64)} (hp : Ia32e.walk (physical offset s.mem) root p = some es)
    (hne : ¬ SamePage p q) : ∃ es', Ia32e.walk (physical offset s'.mem) root p = some es' := by
  have hmap := mapPageToFrame_spec h hframe hs
  have hleaf : Ia32e.isPresent (leafEntry offset root s.mem p) = true := by
    by_contra hnot
    have hnone := leaf_eq_leafEntry offset root s.mem p
    rw [if_neg hnot, Ia32e.leaf, hp] at hnone
    rw [walk_eq_entriesOn, entriesOn_snoc] at hp
    obtain ⟨es₀, _, hp⟩ := Option.bind_eq_some_iff.mp hp
    obtain ⟨k, _, hp⟩ := Option.bind_eq_some_iff.mp hp
    split at hp
    · cases hp
      simp at hnone
    · cases hp
  have hsome := leaf_eq_leafEntry offset root s'.mem p
  rw [hmap.leaf_other hne, if_pos hleaf, Ia32e.leaf] at hsome
  obtain ⟨es', hes', _⟩ := Option.bind_eq_some_iff.mp hsome
  exact ⟨es', hes'⟩

/-- A property that all entries on the walk had survives a mapping of another
page exactly when the two share no entry or the new flags give it as well. -/
theorem walk_all_after (h : Intact offset root s) {p q frame : Nat} (hframe : IsTable frame)
    (hs : PageTree.mapPageToFrame (fun _ => offset) (wrap (root + offset)) s q frame flags.bits = .ok s')
    {es es' : List (BitVec 64)} (hp : Ia32e.walk (physical offset s.mem) root p = some es)
    (hp' : Ia32e.walk (physical offset s'.mem) root p = some es') (hne : ¬ SamePage p q)
    {b : BitVec 64 → Bool} {g : Bool} (hb : ∀ e, b e = true → b (rewriteFlags flags.bits e) = g)
    (hall : es.all b = true) : es'.all b = true ↔ (indexAt p 0 ≠ indexAt q 0 ∨ g = true) := by
  have hentry := fun σ j hσ => walk_entry_after (σ := σ) (j := j) h hframe hs hp hne hσ
  rw [walk_eq_entriesOn] at hp hp'
  rw [entriesOn_all hp] at hall
  rw [entriesOn_all hp']
  constructor
  · intro hall'
    by_cases hshare : indexAt p 0 = indexAt q 0
    · -- the root entry is shared, so its flags are the new ones
      refine Or.inr ?_
      have hfirst : ([] : List Index) ++ [indexAt p 0] <+: fullPath p := ⟨_, rfl⟩
      obtain ⟨k, hk, hk', hin, _⟩ := hentry [] (indexAt p 0) hfirst
      have hq : ([] : List Index) ++ [indexAt p 0] <+: path q := ⟨_, by rw [hshare]; rfl⟩
      have := hall' [] (indexAt p 0) hfirst k hk'
      rwa [hin hq, hb _ (hall [] (indexAt p 0) hfirst k hk)] at this
    · exact Or.inl hshare
  · intro hcond σ j hσ k hk'
    obtain ⟨k₀, hk, hk₀', hin, hout⟩ := hentry σ j hσ
    obtain rfl : k = k₀ := Option.some.inj (hk'.symm.trans hk₀')
    by_cases hq : σ ++ [j] <+: path q
    · rw [hin hq, hb _ (hall σ j hσ k hk)]
      refine hcond.resolve_left fun hdiff => hdiff ?_
      -- a shared entry at any level means a shared root entry
      obtain ⟨x, ρ, hx⟩ : ∃ x ρ, σ ++ [j] = x :: ρ := by cases σ <;> simp
      rw [hx] at hσ hq
      exact (List.cons_prefix_cons.mp hσ).1.symm.trans (List.cons_prefix_cons.mp hq).1
    · rw [hout hq]
      exact hall σ j hσ k hk

end

def rightsAfter (offset root : Nat) (m : Memory) (free : FreeStack) (calls : List MapCall) (v : Nat) :
    Option Rights :=
  match runCalls offset root ⟨construct m (wrap (root + offset)), free⟩ calls with
  | .ok s => (Ia32e.walk (physical offset s.mem) root v).map Rights.of
  | .error _ => none

theorem rightsAfter_eq_some {offset root : Nat} {m : Memory} {free : FreeStack} {calls : List MapCall}
    {v : Nat} {r : Rights} (h : rightsAfter offset root m free calls v = some r) :
    ∃ s es, runCalls offset root ⟨construct m (wrap (root + offset)), free⟩ calls = .ok s ∧
      Ia32e.walk (physical offset s.mem) root v = some es ∧ Rights.of es = r := by
  unfold rightsAfter at h
  split at h
  · rename_i s hs
    obtain ⟨es, hes, hr⟩ := Option.map_eq_some_iff.mp h
    exact ⟨s, es, hs, hes, hr⟩
  · cases h

section

variable {offset root : Nat} {s s' : PagingState} {p : Nat} {es : List (BitVec 64)}

theorem runCalls_free {calls : List MapCall} (hs : runCalls offset root s calls = .ok s') :
    s'.free.frames <:+ s.free.frames := by
  induction calls using List.reverseRecOn generalizing s' with
  | nil =>
      cases hs
      exact List.suffix_refl _
  | append_singleton calls c ih =>
      rw [runCalls_append] at hs
      obtain ⟨t, hcalls, hlast⟩ := bind_ok hs
      rw [runCalls_singleton] at hlast
      exact (mapPageToFrame_free hlast).trans (ih hcalls)

theorem runCalls_cut {m : Memory} {big small : FreeStack} {rest : List Nat} {calls : List MapCall}
    (h : big.Over small rest) (hs : runCalls offset root ⟨m, big⟩ calls = .ok s')
    (hroom : rest.length ≤ s'.free.frames.length) :
    ∃ small', runCalls offset root ⟨m, small⟩ calls = .ok ⟨s'.mem, small'⟩ ∧ s'.free.Over small' rest := by
  induction calls using List.reverseRecOn generalizing s' with
  | nil =>
      cases hs
      exact ⟨small, rfl, h⟩
  | append_singleton calls c ih =>
      rw [runCalls_append] at hs
      obtain ⟨⟨m₁, big₁⟩, hcalls, hlast⟩ := bind_ok hs
      rw [runCalls_singleton] at hlast
      have hle := (mapPageToFrame_free hlast).length_le
      obtain ⟨small₁, hsmall₁, hover⟩ := ih hcalls (hroom.trans hle)
      obtain ⟨small', hsmall', hover'⟩ := mapPageToFrame_cut hover hlast hroom
      refine ⟨small', ?_, hover'⟩
      rw [runCalls_append, hsmall₁]
      exact (runCalls_singleton c).trans hsmall'

theorem rights_kept_iff (h : Intact offset root s) (hp : Ia32e.walk (physical offset s.mem) root p = some es)
    (call : MapCall) (hne : ¬ SamePage p call.page) (hs : runCalls offset root s [call] = .ok s') :
    ∃ es', Ia32e.walk (physical offset s'.mem) root p = some es' ∧
      ((Rights.of es).Kept (Rights.of es') ↔
        (p / 2 ^ 39 % 512 ≠ call.page / 2 ^ 39 % 512 ∨ (Rights.of es).Granted call.flags.bits)) := by
  have hmap : PageTree.mapPageToFrame (fun _ => offset) (wrap (root + offset)) s call.page call.frame
      call.flags.bits = .ok s' := (runCalls_singleton call).symm.trans hs
  obtain ⟨es', hp'⟩ := walk_isSome_after h call.aligned hmap hp hne
  refine ⟨es', hp', ?_⟩
  have hall := fun b g hb => walk_all_after (b := b) (g := g) h call.aligned hmap hp hp' hne hb
  have hwrite := hall (·.getLsbD 1) _ fun e _ => rewriteFlags_low _ e (by decide) (by decide)
  have huser := hall (·.getLsbD 2) _ fun e _ => rewriteFlags_low _ e (by decide) (by decide)
  have hexec := hall (!·.getLsbD 63) (!call.flags.bits.getLsbD 63) fun e he => by
    rw [rewriteFlags_executeDisable]
    simp only [Bool.not_eq_true'] at he
    simp only [he, Bool.false_or]
  have hindex : indexAt p 0 ≠ indexAt call.page 0 ↔ p / 2 ^ 39 % 512 ≠ call.page / 2 ^ 39 % 512 := by
    simp only [indexAt, ne_eq, Fin.mk.injEq]
  rw [← hindex]
  simp only [Rights.Kept, Rights.Granted, Rights.of]
  by_cases hroots : indexAt p 0 = indexAt call.page 0
  · simp only [hroots, ne_eq, not_true, false_or, Bool.not_eq_true'] at hwrite huser hexec ⊢
    constructor
    · rintro ⟨hw, hu, hx⟩
      exact ⟨fun hr => (hwrite hr).mp (hw hr), fun hr => (huser hr).mp (hu hr), fun hr => (hexec hr).mp (hx hr)⟩
    · rintro ⟨hw, hu, hx⟩
      exact ⟨fun hr => (hwrite hr).mpr (hw hr), fun hr => (huser hr).mpr (hu hr), fun hr => (hexec hr).mpr (hx hr)⟩
  · simp only [ne_eq, hroots, not_false_iff, true_or, iff_true] at hwrite huser hexec ⊢
    exact ⟨hwrite, huser, hexec⟩

end

/-- Mapping a page leaves another page every right it had exactly when the two
pages have different root entries or the new flags grant those rights too: the
flags of the upper-level entries that both share are replaced, not extended. The
frames of the tables, and those that become tables now, can be tables; the
frames that are left may be any. -/
theorem mapping_keeps_rights_iff (offset root : Nat) (m : Memory) (free : FreeStack)
    (hroot : IsTable root) (hdistinct : (root :: free.frames).Nodup) (calls : List MapCall) (s s' : PagingState)
    (hs : runCalls offset root ⟨construct m (wrap (root + offset)), free⟩ calls = .ok s)
    (htables : ∀ f ∈ free.frames, f ∉ s.free.frames → IsFrame f)
    (p : Nat) (es : List (BitVec 64)) (hp : Ia32e.walk (physical offset s.mem) root p = some es)
    (call : MapCall) (hne : ¬ SamePage p call.page)
    (htaken : ∀ f ∈ tablesTaken offset root s call.page, IsFrame f)
    (hs' : runCalls offset root s [call] = .ok s') :
    ∃ es', Ia32e.walk (physical offset s'.mem) root p = some es' ∧
      ((Rights.of es).Kept (Rights.of es') ↔
        (p / 2 ^ 39 % 512 ≠ call.page / 2 ^ 39 % 512 ∨ (Rights.of es).Granted call.flags.bits)) := by
  obtain ⟨taken, htk⟩ := runCalls_free hs
  have hsplit := List.take_append_drop (missing (edge offset s.mem) root (path call.page)) s.free.frames
  -- the calls before on the frames that they and this one take
  have hover : free.Over ⟨taken ++ tablesTaken offset root s call.page, _, Nat.le_refl _⟩
      (s.free.frames.drop (missing (edge offset s.mem) root (path call.page))) := by
    rw [FreeStack.Over, List.append_assoc, ← htk]
    exact congrArg (taken ++ ·) hsplit.symm
  have hleft : (s.free.frames.drop (missing (edge offset s.mem) root (path call.page))).length ≤
      s.free.frames.length := by
    rw [List.length_drop]
    exact Nat.sub_le _ _
  obtain ⟨small, hsmall, hrest⟩ := runCalls_cut hover hs hleft
  have hsmallFrames : tablesTaken offset root s call.page = small.frames :=
    List.append_cancel_right (hsplit.trans hrest)
  have happ : (taken ++ s.free.frames).Nodup := htk ▸ (List.nodup_cons.mp hdistinct).2
  have hframes : ∀ f ∈ taken ++ tablesTaken offset root s call.page, IsFrame f := by
    intro f hf
    rcases List.mem_append.mp hf with hf | hf
    · exact htables f (htk ▸ List.mem_append_left _ hf) (List.disjoint_of_nodup_append happ hf)
    · exact htaken f hf
  have hfew : (root :: (taken ++ tablesTaken offset root s call.page)).Nodup := by
    refine hdistinct.sublist (List.Sublist.cons_cons root ?_)
    rw [hover]
    exact List.sublist_append_left _ _
  have hintact := (runCalls_spec (fresh_tree offset m hroot hfew hframes).1 calls hsmall).1
  have hcut : Intact offset root ⟨s.mem, ⟨tablesTaken offset root s call.page, _, Nat.le_refl _⟩⟩ :=
    hintact.shrink (hsmallFrames ▸ List.Sublist.refl _)
  have hmap := (runCalls_singleton call).symm.trans hs'
  obtain ⟨small', hlast, _⟩ := mapPageToFrame_taken hcut rfl hmap
  obtain ⟨es', hp', hiff⟩ := rights_kept_iff hcut hp call hne ((runCalls_singleton call).trans hlast)
  exact ⟨es', hp', hiff⟩

def threeFrames : FreeStack := ⟨[0x2000, 0x3000, 0x4000], 3, by decide⟩

def writablePage : MapCall := ⟨0x400000, 0x20000, FlagSet.write, by decide⟩

def readOnlyNeighbour : MapCall := ⟨0x401000, 0x21000, FlagSet.none, by decide⟩

def writableNeighbour : MapCall := ⟨0x401000, 0x21000, FlagSet.write, by decide⟩

theorem mapping_keeps_rights_writable_neighbour :
    ∃ s s' es es', runCalls 0 0x1000 ⟨construct (fun _ => 0#64) (wrap (0x1000 + 0)), threeFrames⟩
        [writablePage] = .ok s ∧ runCalls 0 0x1000 s [writableNeighbour] = .ok s' ∧
      Ia32e.walk (physical 0 s.mem) 0x1000 0x400000 = some es ∧
      Ia32e.walk (physical 0 s'.mem) 0x1000 0x400000 = some es' ∧
      (Rights.of es).write = true ∧ (Rights.of es).Kept (Rights.of es') := by
  obtain ⟨s, es, hs, hp, hr⟩ := rightsAfter_eq_some
    (show rightsAfter 0 0x1000 (fun _ => 0#64) threeFrames [writablePage] 0x400000 =
      some ⟨true, false, true⟩ by decide +kernel)
  obtain ⟨s₂, _, hs₂, _⟩ := rightsAfter_eq_some
    (show rightsAfter 0 0x1000 (fun _ => 0#64) threeFrames ([writablePage] ++ [writableNeighbour]) 0x400000 =
      some ⟨true, false, true⟩ by decide +kernel)
  rw [runCalls_append] at hs₂
  obtain ⟨t, ht, hs'⟩ := bind_ok hs₂
  obtain rfl : s = t := Except.ok.inj (hs.symm.trans ht)
  have hthree : ∀ f ∈ threeFrames.frames, IsFrame f := by decide
  have hleft := runCalls_free hs
  obtain ⟨es', hp', hiff⟩ := mapping_keeps_rights_iff 0 0x1000 (fun _ => 0#64) threeFrames (by decide)
    (by decide) [writablePage] s s₂ hs (fun f hf _ => hthree f hf) 0x400000 es hp writableNeighbour (by decide)
    (fun f hf => hthree f (hleft.subset (List.mem_of_mem_take hf))) hs'
  refine ⟨s, s₂, es, es', hs, hs', hp, hp', by rw [hr], hiff.mpr (Or.inr ?_)⟩
  rw [hr]
  unfold Rights.Granted
  decide

/-- A read-only neighbour takes the write right away from a writable page. -/
theorem mapping_takes_write_away :
    ∃ s s' es es', runCalls 0 0x1000 ⟨construct (fun _ => 0#64) (wrap (0x1000 + 0)), threeFrames⟩
        [writablePage] = .ok s ∧ runCalls 0 0x1000 s [readOnlyNeighbour] = .ok s' ∧
      ¬ SamePage 0x400000 readOnlyNeighbour.page ∧
      Ia32e.walk (physical 0 s.mem) 0x1000 0x400000 = some es ∧
      Ia32e.walk (physical 0 s'.mem) 0x1000 0x400000 = some es' ∧
      (Rights.of es).write = true ∧ (Rights.of es').write = false := by
  obtain ⟨s, es, hs, hp, hr⟩ := rightsAfter_eq_some
    (show rightsAfter 0 0x1000 (fun _ => 0#64) threeFrames [writablePage] 0x400000 =
      some ⟨true, false, true⟩ by decide +kernel)
  obtain ⟨s₂, es₂, hs₂, hp₂, hr₂⟩ := rightsAfter_eq_some
    (show rightsAfter 0 0x1000 (fun _ => 0#64) threeFrames ([writablePage] ++ [readOnlyNeighbour]) 0x400000 =
      some ⟨false, false, true⟩ by decide +kernel)
  rw [runCalls_append] at hs₂
  obtain ⟨t, ht, hs'⟩ := bind_ok hs₂
  obtain rfl : s = t := Except.ok.inj (hs.symm.trans ht)
  exact ⟨s, s₂, es, es₂, hs, hs', by decide, hp, hp₂, by rw [hr], by rw [hr₂]⟩

end DavOS
