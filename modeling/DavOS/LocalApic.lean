import DavOS.EventHistory
import DavOS.IdtInit

/-! The local APIC and the service routines. A request waits in the APIC until the
processor accepts it; it is then in service until an end of interrupt is written. The
routines run with interrupts off and write it as their last statement, the one for page
faults too, which the APIC knows nothing about. -/
namespace DavOS
open EventHistory

/-- The request and in-service registers and the task priority of a local APIC. -/
structure LocalApic where
  irr : Nat → Bool
  isr : Nat → Bool
  taskPriority : Nat

namespace LocalApic

/-- The highest vector of a register. -/
def highest (register : Nat → Bool) : Option Nat := (List.range 256).reverse.find? register

def priority (vector : Nat) : Nat := vector / 16

/-- What an interrupt has to be above. -/
def processorPriority (a : LocalApic) : Nat :=
  max (priority a.taskPriority) (((highest a.isr).map priority).getD 0)

/-- The interrupt that the processor is offered. -/
def offers (a : LocalApic) : Option Nat := (highest a.irr).filter fun vector => a.processorPriority < priority vector

def request (a : LocalApic) (vector : Nat) : LocalApic := { a with irr := Function.update a.irr vector true }

def accept (a : LocalApic) (vector : Nat) : LocalApic :=
  { a with irr := Function.update a.irr vector false, isr := Function.update a.isr vector true }

/-- A write to the end-of-interrupt register ends the highest interrupt in service. -/
def endOfInterrupt (a : LocalApic) : LocalApic :=
  match highest a.isr with
  | some vector => { a with isr := Function.update a.isr vector false }
  | none => a

end LocalApic

/-- A service routine that is under way: for an accepted interrupt, for a spurious one
or for a page fault. -/
inductive Service where
  | interrupt (vector : Nat)
  | spurious
  | pageFault
  deriving DecidableEq

def Service.isr : Service → Isr
  | .interrupt vector => servingIsr vector
  | .spurious => servingIsr 0xff
  | .pageFault => servingIsr 14

/-- The APIC, and the routines that have not returned, the innermost first and each with
whether it has written its end of interrupt; next to it the requests that were not
already waiting, and the interrupts that were accepted. -/
structure ServiceState where
  apic : LocalApic
  nested : List (Service × Bool) := []
  requested : List Nat := []
  accepted : List Nat := []

inductive ServiceEvent where
  | request (vector : Byte)
  | accept
  | spurious
  | pageFault
  | endOfInterrupt
  | iret
  deriving DecidableEq

/-- One event. Interrupts are accepted outside of routines only, whose gates clear the
interrupt flag; a page fault can happen anywhere. An event that cannot happen is `none`. -/
def serviceEvent (s : ServiceState) : ServiceEvent → Option ServiceState
  | .request vector =>
      some
        { s with
          apic := s.apic.request vector.toNat
          requested := if s.apic.irr vector.toNat then s.requested else s.requested ++ [vector.toNat] }
  | .accept =>
      if s.nested = [] then
        s.apic.offers.map fun vector =>
          { s with
            apic := s.apic.accept vector
            nested := [(.interrupt vector, false)]
            accepted := s.accepted ++ [vector] }
      else none
  | .spurious => if s.nested = [] then some { s with nested := [(.spurious, false)] } else none
  | .pageFault => some { s with nested := (.pageFault, false) :: s.nested }
  | .endOfInterrupt =>
      match s.nested with
      | (service, false) :: outer =>
          -- `kernel_panic` does not return
          if service.isr.panic = none then
            some { s with apic := s.apic.endOfInterrupt, nested := (service, true) :: outer }
          else none
      | _ => none
  | .iret =>
      match s.nested with
      | (_, true) :: outer => some { s with nested := outer }
      | _ => none

def serviceRun (s : ServiceState) (events : List ServiceEvent) : Option ServiceState := events.foldlM serviceEvent s

/-- The APIC as `enableAPIC` leaves it: nothing is in service, and the task priority is 0. -/
def ServiceState.start (irr : Nat → Bool) : ServiceState := ⟨⟨irr, fun _ => false, 0⟩, [], [], []⟩

section

variable {register : Nat → Bool} {s t : ServiceState} {vector : Nat}

namespace LocalApic

theorem highest_some (h : highest register = some vector) :
    register vector = true ∧ vector < 256 ∧ ∀ v < 256, register v = true → v ≤ vector := by
  obtain ⟨hset, before, after, hsplit, hbefore⟩ := List.find?_eq_some_iff_append.mp h
  have hmem : ∀ v, v ∈ before ++ vector :: after ↔ v < 256 := fun v => by simp [← hsplit]
  refine ⟨hset, (hmem vector).mp List.mem_append_cons_self, fun v hv hbit => ?_⟩
  rcases List.mem_append.mp ((hmem v).mpr hv) with hin | hin
  · have hclear := hbefore v hin
    rw [hbit] at hclear
    cases hclear
  · rcases List.mem_cons.mp hin with rfl | hlower
    · exact Nat.le_refl _
    · -- the vectors are tried from above
      have hsorted : (before ++ vector :: after).Pairwise (· > ·) := by
        rw [← hsplit, List.pairwise_reverse]
        exact List.pairwise_lt_range
      have htail := (List.pairwise_append.mp hsorted).2.1
      exact Nat.le_of_lt (List.rel_of_pairwise_cons htail hlower)

theorem highest_none (h : highest register = none) : ∀ v < 256, register v = false := by
  intro v hv
  have hall := List.find?_eq_none.mp h v (by simpa using hv)
  simpa using hall

theorem offers_some {a : LocalApic} (h : a.offers = some vector) : a.irr vector = true ∧ vector < 256 := by
  obtain ⟨hhighest, -⟩ := Option.filter_eq_some_iff.mp h
  exact ⟨(highest_some hhighest).1, (highest_some hhighest).2.1⟩

/-- With nothing in service and task priority 0, what waits above the sixteen lowest vectors is offered. -/
theorem offers_of_idle {a : LocalApic} (hisr : ∀ v, a.isr v = false) (hpriority : a.taskPriority = 0)
    (hlow : 16 ≤ vector) (hhigh : vector < 256) (hirr : a.irr vector = true) : ∃ w, vector ≤ w ∧ a.offers = some w := by
  have hnone : highest a.isr = none := List.find?_eq_none.mpr fun v _ => by simp [hisr v]
  have hprocessor : a.processorPriority = 0 := by simp [processorPriority, hnone, hpriority, priority]
  cases hhighest : highest a.irr with
  | none =>
      have hclear := highest_none hhighest vector hhigh
      rw [hirr] at hclear
      cases hclear
  | some w =>
      have hle := (highest_some hhighest).2.2 vector hhigh hirr
      refine ⟨w, hle, ?_⟩
      rw [offers, hhighest, hprocessor, Option.filter_some, if_pos]
      rw [decide_eq_true_eq, priority]
      omega

end LocalApic

/-- The vector in service is that of the outermost routine, and no routine inside of it
has written its end of interrupt. -/
structure ServiceState.Orderly (irr : Nat → Bool) (s : ServiceState) : Prop where
  priority_eq : s.apic.taskPriority = 0
  in_service : ∀ vector, s.apic.isr vector = true →
    vector < 256 ∧ s.nested.getLast? = some (.interrupt vector, false) ∧ ∀ entry ∈ s.nested, entry.2 = false
  balance : ∀ vector, (irr vector).toNat + s.requested.count vector =
    s.accepted.count vector + (s.apic.irr vector).toNat

variable {irr : Nat → Bool}

theorem ServiceState.Orderly.isr_idle (h : s.Orderly irr) (hidle : s.nested = []) (vector : Nat) :
    s.apic.isr vector = false := by
  cases hset : s.apic.isr vector with
  | false => rfl
  | true =>
      have hlast := (h.in_service vector hset).2.1
      rw [hidle] at hlast
      cases hlast

theorem ServiceState.Orderly.request (h : s.Orderly irr) {code : Byte} (hs : serviceEvent s (.request code) = some t) :
    t.Orderly irr := by
  cases hs
  refine ⟨h.priority_eq, h.in_service, fun vector => ?_⟩
  have hbalance := h.balance vector
  dsimp only [LocalApic.request]
  by_cases hv : vector = code.toNat
  · subst hv
    rw [Function.update_self]
    cases hwaiting : s.apic.irr code.toNat with
    | true =>
        rw [hwaiting] at hbalance
        exact hbalance
    | false =>
        rw [hwaiting] at hbalance
        simp only [Bool.false_eq_true, if_false, List.count_append, List.count_singleton_self, Bool.toNat_true]
        simp only [Bool.toNat_false] at hbalance
        omega
  · rw [Function.update_of_ne hv]
    split
    · exact hbalance
    · rw [List.count_append, List.count_singleton, if_neg (by simpa using Ne.symm hv)]
      exact hbalance

theorem ServiceState.Orderly.accept (h : s.Orderly irr) (hs : serviceEvent s .accept = some t) : t.Orderly irr := by
  rw [serviceEvent] at hs
  split at hs
  · rename_i hidle
    obtain ⟨vector, hoffers, rfl⟩ := Option.map_eq_some_iff.mp hs
    obtain ⟨hwaiting, hlt⟩ := LocalApic.offers_some hoffers
    refine ⟨h.priority_eq, fun v hv => ?_, fun v => ?_⟩
    · dsimp only [LocalApic.accept] at hv
      by_cases hsame : v = vector
      · subst hsame
        exact ⟨hlt, rfl, fun entry hentry => by rw [List.mem_singleton.mp hentry]⟩
      · rw [Function.update_of_ne hsame, h.isr_idle hidle] at hv
        cases hv
    · have hbalance := h.balance v
      dsimp only [LocalApic.accept]
      by_cases hsame : v = vector
      · subst hsame
        rw [hwaiting, Bool.toNat_true] at hbalance
        rw [Function.update_self, List.count_append, List.count_singleton_self, hbalance, Bool.toNat_false]
      · rw [Function.update_of_ne hsame, List.count_append, List.count_singleton, if_neg (by simpa using Ne.symm hsame)]
        exact hbalance
  · cases hs

theorem ServiceState.Orderly.spurious (h : s.Orderly irr) (hs : serviceEvent s .spurious = some t) : t.Orderly irr := by
  rw [serviceEvent] at hs
  split at hs
  · rename_i hidle
    cases hs
    refine ⟨h.priority_eq, fun v hv => ?_, h.balance⟩
    rw [h.isr_idle hidle] at hv
    cases hv
  · cases hs

theorem ServiceState.Orderly.pageFault (h : s.Orderly irr) (hs : serviceEvent s .pageFault = some t) : t.Orderly irr := by
  cases hs
  refine ⟨h.priority_eq, fun v hv => ?_, h.balance⟩
  obtain ⟨hlt, hlast, hunsent⟩ := h.in_service v hv
  refine ⟨hlt, ?_, ?_⟩
  · rw [List.getLast?_cons, hlast]
    rfl
  · intro entry hentry
    rcases List.mem_cons.mp hentry with rfl | hinner
    · rfl
    · exact hunsent entry hinner

/-- Whichever routine writes it, the first end of interrupt ends the only interrupt in service. -/
theorem ServiceState.Orderly.endOfInterrupt (h : s.Orderly irr) (hs : serviceEvent s .endOfInterrupt = some t) :
    t.Orderly irr ∧ ∀ vector, t.apic.isr vector = false := by
  have hcleared : ∀ vector, s.apic.endOfInterrupt.isr vector = false := by
    intro vector
    rw [LocalApic.endOfInterrupt]
    cases hhighest : LocalApic.highest s.apic.isr with
    | none =>
        cases hset : s.apic.isr vector with
        | false => rfl
        | true =>
            have hclear := LocalApic.highest_none hhighest vector (h.in_service vector hset).1
            rw [hset] at hclear
            cases hclear
    | some w =>
        have hw := (h.in_service w (LocalApic.highest_some hhighest).1).2.1
        dsimp only
        by_cases hsame : vector = w
        · rw [hsame, Function.update_self]
        · rw [Function.update_of_ne hsame]
          cases hset : s.apic.isr vector with
          | false => rfl
          | true =>
              rw [(h.in_service vector hset).2.1] at hw
              cases hw
              exact absurd rfl hsame
  have happly : s.apic.endOfInterrupt.taskPriority = s.apic.taskPriority ∧ s.apic.endOfInterrupt.irr = s.apic.irr := by
    unfold LocalApic.endOfInterrupt
    split
    · exact ⟨rfl, rfl⟩
    · exact ⟨rfl, rfl⟩
  rw [serviceEvent] at hs
  split at hs
  · split at hs
    · cases hs
      refine ⟨⟨happly.1.trans h.priority_eq, fun v hv => ?_, ?_⟩, hcleared⟩
      · dsimp only at hv
        rw [hcleared v] at hv
        cases hv
      · dsimp only
        rw [happly.2]
        exact h.balance
    · cases hs
  · cases hs

theorem ServiceState.Orderly.iret (h : s.Orderly irr) (hs : serviceEvent s .iret = some t) : t.Orderly irr := by
  rw [serviceEvent] at hs
  split at hs
  · rename_i service outer hnested
    cases hs
    refine ⟨h.priority_eq, fun v hv => ?_, h.balance⟩
    have hunsent := (h.in_service v hv).2.2 (service, true) (by rw [hnested]; exact List.mem_cons_self)
    cases hunsent
  · cases hs

theorem ServiceState.Orderly.step (h : s.Orderly irr) {event : ServiceEvent} (hs : serviceEvent s event = some t) :
    t.Orderly irr := by
  cases event with
  | request code => exact h.request hs
  | accept => exact h.accept hs
  | spurious => exact h.spurious hs
  | pageFault => exact h.pageFault hs
  | endOfInterrupt => exact (h.endOfInterrupt hs).1
  | iret => exact h.iret hs

theorem serviceRun_orderly {events : List ServiceEvent} (hrun : serviceRun (.start irr) events = some s) :
    s.Orderly irr := by
  have hstart : (ServiceState.start irr).Orderly irr :=
    ⟨rfl, fun vector hset => Bool.noConfusion hset, fun vector => by simp [ServiceState.start]⟩
  exact EventHistory.invariant_of_some (I := ServiceState.Orderly irr) (fun _ _ _ h hs => h.step hs) hstart hrun

end

/-- A page fault in the routine of the keyboard ends its interrupt early; a second press waits for the routine. -/
def faultInRoutine : List ServiceEvent :=
  [.request 0x30, .accept, .request 0x30, .pageFault, .endOfInterrupt, .iret, .endOfInterrupt, .iret]

end DavOS
