import DavOS.PageWalk

/-! `PageTree::get_translation` beside the processor's walk. The software walk
reads entries through the 32-bit address mask and the 8-bit flag mask, so the
two agree only on what those masks keep. -/
namespace DavOS
open MachineWord PathGraph PageTreeNode

/-- The accessors read back what was stored, and touch one entry only. -/
def AccessorsAgree (m : Memory) (node index a : Nat) (flags : PageFlags) : Prop :=
  let m' := setChildFlags (setChildAddress m node index a) node index flags
  getChildAddress m' node index = a ∧
  getChildFlags m' node index = flags ||| PageFlags.present ∧
  ∀ j < 512, j ≠ index → m' (entryAddress node j) = m (entryAddress node j)

/-- The frame and flags that the processor's walk of an address finds. -/
def Ia32e.translation (phys : Nat → BitVec 64) (cr3 virtualAddress : Nat) : PageTranslation :=
  match Ia32e.leaf phys cr3 virtualAddress with
  | some entry => ⟨Ia32e.addressField entry, Ia32e.flagField entry⟩
  | none => ⟨0, PageFlags.none⟩

/-- What the masks of the getters keep of an address and its flags. -/
def Representable (a : Nat) (flags : FlagSet) : Prop :=
  a < 2 ^ 32 ∧ flags.bits &&& PageFlags.executeDisable = 0#64

instance (a : Nat) (flags : FlagSet) : Decidable (Representable a flags) :=
  inferInstanceAs (Decidable (_ ∧ _))

theorem mod_eq_self_iff {a : Nat} : a % 2 ^ 32 = a ↔ a < 2 ^ 32 := by omega

theorem executeDisable_clear_iff (flags : PageFlags) :
    flags &&& PageFlags.executeDisable = 0#64 ↔ flags.getLsbD 63 = false := by
  constructor
  · intro h
    have h63 := congrArg (fun b => BitVec.getLsbD b 63) h
    simpa only [BitVec.getLsbD_and, executeDisable_bit, decide_true, Bool.and_true, BitVec.getLsbD_zero]
      using h63
  · intro h
    apply BitVec.eq_of_getLsbD_eq
    intro i _
    rw [BitVec.getLsbD_and, executeDisable_bit, BitVec.getLsbD_zero]
    by_cases hi : i = 63
    · rw [hi, h]
      rfl
    · simp [hi]

theorem lowByte_eq_iff (flags : PageFlags) :
    (flags &&& ~~~PageFlags.executeDisable) ||| PageFlags.present = flags ||| PageFlags.present ↔
      flags &&& PageFlags.executeDisable = 0#64 := by
  rw [executeDisable_clear_iff]
  constructor
  · intro h
    have h63 := congrArg (fun b => BitVec.getLsbD b 63) h
    simp only [BitVec.getLsbD_or, BitVec.getLsbD_and, BitVec.getLsbD_not, executeDisable_bit, present_bit] at h63
    simpa using h63.symm
  · intro h
    apply BitVec.eq_of_getLsbD_eq
    intro i hi
    simp only [BitVec.getLsbD_or, BitVec.getLsbD_and, BitVec.getLsbD_not, executeDisable_bit, hi,
      decide_true, Bool.true_and]
    by_cases h63 : i = 63
    · rw [h63, h]
      rfl
    · simp [h63]

theorem entryAddress_ne {node i j : Nat} (hi : i < 512) (hj : j < 512) (h : i ≠ j) :
    entryAddress node i ≠ entryAddress node j := by
  simp only [entryAddress, wrap]
  omega

theorem accessorsAgree_iff (m : Memory) (node : Nat) {index a : Nat} (hindex : index < 512)
    (ha : IsTable a) (flags : FlagSet) :
    AccessorsAgree m node index a flags.bits ↔ Representable a flags := by
  unfold AccessorsAgree Representable
  simp only [setChild_eq m node index ha.1 flags, getChildAddress, getChildFlags, Function.update_self,
    entryWord_childAddress ha.1, entryWord_lowByte ha.1, mod_eq_self_iff, lowByte_eq_iff]
  constructor
  · rintro ⟨hlt, hxd, _⟩
    exact ⟨hlt, hxd⟩
  · rintro ⟨hlt, hxd⟩
    exact ⟨hlt, hxd, fun j hj hne => Function.update_of_ne (entryAddress_ne hj hindex hne) _ _⟩

section

variable {offset root : Nat} {s : PagingState}

theorem translateFrom_eq (h : Intact offset root s) (v : Nat) {π : List Index} {n : Nat}
    (hn : follow (edge offset s.mem) root π = some n) {depths : List Nat}
    (hlen : π.length + depths.length ≤ 3) (hdepths : ∀ d ∈ depths, d < 4) :
    PageTree.translateFrom (fun _ => offset) s.mem v depths (wrap (n + offset)) =
      .ok (match follow (edge offset s.mem) n (depths.map (indexAt v)) with
        | some k => ⟨(entryAt offset s.mem k (indexAt v 3) &&& childAddressMask).toNat,
            entryAt offset s.mem k (indexAt v 3) &&& 0xff#64⟩
        | none => ⟨0, PageFlags.none⟩) := by
  induction depths generalizing π n with
  | nil =>
      unfold PageTree.translateFrom
      rw [getTableIndex_eq v (show PageTree.maxDepth < 4 by decide)]
      rfl
  | cons d depths ih =>
      simp only [List.length_cons] at hlen
      have hlt : π.length < 3 := by omega
      unfold PageTree.translateFrom
      rw [getTableIndex_eq v (hdepths d List.mem_cons_self)]
      change (if (entryAt offset s.mem n (indexAt v d) &&& childAddressMask).toNat = 0 then _ else _) = _
      rcases h.entries π n (indexAt v d) hlt.le hn with h0 | ⟨a, old, ha, hframe, he⟩
      · have hclear : (entryAt offset s.mem n (indexAt v d) &&& childAddressMask).toNat = 0 := by
          rw [h0]
          decide
        rw [if_pos hclear]
        simp only [List.map_cons, follow, edge_of_zero h0, Option.bind_none]
        rfl
      · have hchild : (entryAt offset s.mem n (indexAt v d) &&& childAddressMask).toNat = a := by
          rw [he, entryWord_childAddress ha.1, Nat.mod_eq_of_lt (hframe hlt).2.2]
        have hedge : edge offset s.mem n (indexAt v d) = some a := edge_of_entryWord ha he
        have hnext : follow (edge offset s.mem) root (π ++ [indexAt v d]) = some a := by
          rw [follow_snoc hn, hedge]
        have hstep := ih hnext (by simp only [List.length_append, List.length_singleton]; omega)
          (fun e he => hdepths e (List.mem_cons_of_mem d he))
        rw [hchild, if_neg (hframe hlt).2.1]
        simp only [List.map_cons, follow, hedge, Option.bind_some, ← hstep]
        exact congrArg (fun x => PageTree.translateFrom (fun _ => offset) s.mem v depths (wrap (x + offset))) hchild

theorem getTranslation_eq (h : Intact offset root s) (v : Nat) :
    PageTree.getTranslation (fun _ => offset) (wrap (root + offset)) s.mem v =
      .ok ⟨(leafEntry offset root s.mem v &&& childAddressMask).toNat,
        leafEntry offset root s.mem v &&& 0xff#64⟩ := by
  rw [PageTree.getTranslation, show List.range PageTree.maxDepth = [0, 1, 2] from rfl,
    translateFrom_eq h v (follow_nil _ _) (by decide) (by decide)]
  change Except.ok (match follow (edge offset s.mem) root (path v) with
    | some k => _
    | none => _) = _
  cases hf : follow (edge offset s.mem) root (path v) with
  | none =>
      rw [leafEntry_of_missing hf]
      rfl
  | some k => rw [leafEntry_of_follow hf]

end

/-- The software walk agrees with the processor's over exactly the addresses
and flags that its getters can represent: per entry, and for every address in a
tree whose tables lie below 4 GiB. -/
theorem software_walk_agrees_iff (m : Memory) :
    (∀ (node index a : Nat) (flags : FlagSet), index < 512 → IsTable a →
      (AccessorsAgree m node index a flags.bits ↔ Representable a flags)) ∧
    (∀ (offset root : Nat) (free : FreeStack), IsTable root →
      (root :: free.frames).Nodup → (∀ f ∈ free.frames, IsFrame f) →
      ∀ (calls : List MapCall) (s' : PagingState),
        runCalls offset root ⟨construct m (wrap (root + offset)), free⟩ calls = .ok s' → ∀ v,
          (PageTree.getTranslation (fun _ => offset) (wrap (root + offset)) s'.mem v =
              .ok (Ia32e.translation (physical offset s'.mem) root v) ↔
            ∀ c, lastCall calls v = some c → Representable c.frame c.flags)) := by
  refine ⟨fun node index a flags hindex ha => accessorsAgree_iff m node hindex ha flags, ?_⟩
  intro offset root free hroot hdistinct hframes calls s' hs v
  obtain ⟨hintact, hnone⟩ := fresh_tree offset m hroot hdistinct hframes
  generalize construct m (wrap (root + offset)) = fresh at hintact hnone hs
  obtain ⟨hs', hleaves⟩ := runCalls_spec hintact calls hs
  have hv := hleaves v
  rw [getTranslation_eq hs', Ia32e.translation, leaf_eq_leafEntry, Except.ok.injEq]
  cases hlast : lastCall calls v with
  | none =>
      rw [hlast] at hv
      change leafEntry offset root s'.mem v = leafEntry offset root fresh v at hv
      rw [hv, hnone]
      exact iff_of_true (by decide) (fun c hc => by cases hc)
  | some c =>
      rw [hlast] at hv
      change leafEntry offset root s'.mem v = entryWord c.frame c.flags.bits at hv
      rw [hv, entryWord_isPresent, if_pos rfl]
      simp only [entryWord_childAddress c.aligned.1, entryWord_lowByte c.aligned.1,
        entryWord_addressField c.aligned.1 c.aligned.2, entryWord_flagField c.aligned.1 c.aligned.2,
        PageTranslation.mk.injEq, mod_eq_self_iff, lowByte_eq_iff, Option.some.injEq, forall_eq',
        Representable]

/-- A page with a frame below 4 GiB, and its neighbour with one above. -/
def lowAndHigh : List MapCall :=
  [⟨0x400000, 0x50000, FlagSet.write, by decide⟩, ⟨0x401000, 0x8000051000, FlagSet.none, by decide⟩]

def sevenTables : FreeStack := ⟨[0x2000, 0x3000, 0x4000, 0x5000, 0x6000, 0x7000, 0x8000], 7, by decide⟩

/-- A frame and flags within the masks; in a tree of two pages, only the first is within them. -/
theorem software_walk_agrees_low : AccessorsAgree (fun _ => 0#64) 0x1000 511 0xfffff000
      (PageFlags.write ||| PageFlags.user) ∧
    ∃ s', runCalls 0 0x1000 ⟨construct (fun _ => 0#64) (wrap (0x1000 + 0)), sevenTables⟩ lowAndHigh = .ok s' ∧
      PageTree.getTranslation (fun _ => 0) (wrap (0x1000 + 0)) s'.mem 0x400abc =
        .ok (Ia32e.translation (physical 0 s'.mem) 0x1000 0x400abc) ∧
      PageTree.getTranslation (fun _ => 0) (wrap (0x1000 + 0)) s'.mem 0x401abc ≠
        .ok (Ia32e.translation (physical 0 s'.mem) 0x1000 0x401abc) := by
  obtain ⟨haccess, htree⟩ := software_walk_agrees_iff fun _ => 0#64
  have hdistinct : (0x1000 :: sevenTables.frames).Nodup := by decide
  have hframes : ∀ f ∈ sevenTables.frames, IsFrame f := by decide
  obtain ⟨s', hs, _⟩ := runCalls_isOk (fresh_tree 0 (fun _ => 0#64) (by decide) hdistinct hframes).1
    lowAndHigh (by decide)
  have hagree := htree 0 0x1000 sevenTables (by decide) hdistinct hframes lowAndHigh s' hs
  refine ⟨?_, s', hs, (hagree 0x400abc).mpr (by decide), fun h => absurd ((hagree 0x401abc).mp h) (by decide)⟩
  exact (haccess 0x1000 511 0xfffff000 ⟨PageFlags.write ||| PageFlags.user, by decide⟩ (by decide) (by decide)).mpr
    (by decide)

/-- The first frame above 4 GiB reads back as 0, which the tree code takes for
a missing child; an execute-disable flag reads back as clear. -/
theorem software_walk_truncates :
    ¬ AccessorsAgree (fun _ => 0#64) 0x1000 0 0x100000000 PageFlags.write ∧
      ¬ AccessorsAgree (fun _ => 0#64) 0x1000 0 0x2000 PageFlags.executeDisable := by
  constructor
  · rintro ⟨haddress, _⟩
    revert haddress
    decide
  · rintro ⟨_, hflags, _⟩
    revert hflags
    decide

end DavOS
