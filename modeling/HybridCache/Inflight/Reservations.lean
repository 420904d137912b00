/-
The ledger of in-flight buffered bytes (`inflight_ledger.rs`), at the grain of its atomic
operations.

Reserving and growing are compare-and-swap loops with a weak swap, which may fail for no reason;
releasing is a plain subtraction. There is at most one operation under way for a reservation, and
its place in the code is kept with it (`Slot`). Between the swap and the assignment to the
reservation's own `bytes`, the granted bytes count as held.
-/
import HybridCache.Lib.Directory
import HybridCache.Lib.Transition
import Mathlib.Data.UInt

namespace HybridCache.Inflight

open Lib

/-! ## The counters -/

/-- `InflightLedger`, without the count of aborted accumulations and the time of the last log
line. -/
structure InflightLedger where
  ceiling : UInt64
  reserved : UInt64
  peak : UInt64
  rejected_total : UInt64
deriving DecidableEq, Repr

def InflightLedger.new (ceiling_bytes : UInt64) : InflightLedger :=
  ⟨ceiling_bytes, 0, 0, 0⟩

def checked_add (a b : UInt64) : Option UInt64 :=
  if a.toNat + b.toNat < 2 ^ 64 then some (a + b) else none

/-- How one round of a compare-and-swap loop ends. -/
inductive Round where
  | rejected
  | granted (new_total : UInt64)
  | again (actual : UInt64)

/-- One round of the loops of `try_reserve` and `try_grow`, with the value of the counter that the
loop goes by. A `spurious` failure is one of the weak swap. -/
def InflightLedger.round (ledger : InflightLedger) (current bytes : UInt64) (spurious : Bool) :
    Round :=
  match checked_add current bytes with
  | none => .rejected
  | some new_total =>
    if new_total > ledger.ceiling then .rejected
    else if ledger.reserved = current ∧ spurious = false then .granted new_total
    else .again ledger.reserved

/-- The counters after the round. -/
def InflightLedger.after (ledger : InflightLedger) : Round → InflightLedger
  | .rejected => { ledger with rejected_total := ledger.rejected_total + 1 }
  | .granted new_total => { ledger with reserved := new_total }
  | .again _ => ledger

def InflightLedger.release (ledger : InflightLedger) (bytes : UInt64) : InflightLedger :=
  if bytes = 0 then ledger else { ledger with reserved := ledger.reserved - bytes }

/-! ## Reservations -/

/-- `Reservation`; it is enabled if it holds the ledger. -/
structure Reservation where
  enabled : Bool
  bytes : UInt64
deriving DecidableEq, Repr

/-- A reservation and how far the operation on it has got. -/
inductive Slot where
  | reserving (bytes current : UInt64)
  | granted (bytes new_total : UInt64)
  | live (reservation : Reservation)
  | growing (bytes additional current : UInt64)
  | grown (bytes additional new_total : UInt64)
deriving DecidableEq, Repr

def Slot.live_bytes : Slot → ℕ
  | .reserving _ _ | .granted _ _ => 0
  | .live reservation => if reservation.enabled then reservation.bytes.toNat else 0
  | .growing bytes _ _ | .grown bytes _ _ => bytes.toNat

def Slot.pending : Slot → ℕ
  | .granted bytes _ => bytes.toNat
  | .grown _ additional _ => additional.toNat
  | .reserving _ _ | .live _ | .growing _ _ _ => 0

def Slot.held (slot : Slot) : ℕ :=
  slot.live_bytes + slot.pending

structure LedgerState (ρ : Type) where
  ledger : InflightLedger
  slots : Directory ρ Slot

variable {ρ : Type}

def LedgerState.init (ceiling_bytes : UInt64) : LedgerState ρ :=
  ⟨.new ceiling_bytes, .empty⟩

inductive LedgerEvent (ρ : Type) where
  | try_reserve (id : ρ) (bytes : UInt64)
  | none (id : ρ)
  | try_grow (id : ρ) (additional : UInt64)
  /-- `claim_overlapping`, with or without a reservation of the caller. -/
  | claim_overlapping (id : ρ) (bytes : UInt64) (caller_reservation : Option ρ)
  | attempt (id : ρ) (spurious : Bool)
  | finish (id : ρ)
  | drop (id : ρ)
deriving DecidableEq, Repr

def LedgerEvent.begins : LedgerEvent ρ → Bool
  | .try_reserve _ _ | .none _ | .try_grow _ _ | .claim_overlapping _ _ _ => true
  | .attempt _ _ | .finish _ | .drop _ => false

variable [DecidableEq ρ]

open Slot

namespace LedgerState

def held (s : LedgerState ρ) (id : ρ) : ℕ :=
  s.slots.measure Slot.held id

def try_reserve (s : LedgerState ρ) (id : ρ) (bytes : UInt64) : Option (LedgerState ρ) :=
  match s.slots.get? id with
  | some _ => none
  | none =>
    if s.ledger.ceiling = 0 then
      some { s with slots := s.slots.put id (.live ⟨false, 0⟩) }
    else some { s with slots := s.slots.put id (.reserving bytes s.ledger.reserved) }

def try_grow (s : LedgerState ρ) (id : ρ) (additional : UInt64) : Option (LedgerState ρ) :=
  match s.slots.get? id with
  | some (.live reservation) =>
    if reservation.enabled then
      if additional = 0 then some s
      -- the guard for a ledger that was disabled later
      else if s.ledger.ceiling = 0 then
        some { s with slots := s.slots.put id (.live ⟨true, reservation.bytes + additional⟩) }
      else
        some { s with
          slots := s.slots.put id (.growing reservation.bytes additional s.ledger.reserved) }
    else some { s with slots := s.slots.put id (.live ⟨false, reservation.bytes + additional⟩) }
  | _ => none

/-- `claim_overlapping`: what the caller's reservation lacks is added to it. -/
def claim_overlapping (s : LedgerState ρ) (id : ρ) (bytes : UInt64) :
    Option ρ → Option (LedgerState ρ)
  | none => s.try_reserve id bytes
  | some caller =>
    match s.slots.get? caller with
    | some (.live existing) =>
      if bytes ≤ existing.bytes then some s else s.try_grow caller (bytes - existing.bytes)
    | _ => none

def attempt (s : LedgerState ρ) (id : ρ) (spurious : Bool) : Option (LedgerState ρ) :=
  match s.slots.get? id with
  | some (.reserving bytes current) =>
    let round := s.ledger.round current bytes spurious
    some
      { ledger := s.ledger.after round
        slots := match round with
          | .rejected => s.slots.erase id
          | .granted new_total => s.slots.put id (.granted bytes new_total)
          | .again actual => s.slots.put id (.reserving bytes actual) }
  | some (.growing bytes additional current) =>
    let round := s.ledger.round current additional spurious
    some
      { ledger := s.ledger.after round
        slots := match round with
          | .rejected => s.slots.put id (.live ⟨true, bytes⟩)
          | .granted new_total => s.slots.put id (.grown bytes additional new_total)
          | .again actual => s.slots.put id (.growing bytes additional actual) }
  | _ => none

def finish (s : LedgerState ρ) (id : ρ) : Option (LedgerState ρ) :=
  match s.slots.get? id with
  | some (.granted bytes new_total) =>
    some
      { ledger := { s.ledger with peak := max s.ledger.peak new_total }
        slots := s.slots.put id (.live ⟨true, bytes⟩) }
  | some (.grown bytes additional new_total) =>
    some
      { ledger := { s.ledger with peak := max s.ledger.peak new_total }
        slots := s.slots.put id (.live ⟨true, bytes + additional⟩) }
  | _ => none

def drop (s : LedgerState ρ) (id : ρ) : Option (LedgerState ρ) :=
  match s.slots.get? id with
  | some (.live reservation) =>
    some
      { ledger := if reservation.enabled then s.ledger.release reservation.bytes else s.ledger
        slots := s.slots.erase id }
  | _ => none

def step (s : LedgerState ρ) : LedgerEvent ρ → Option (LedgerState ρ)
  | .try_reserve id bytes => s.try_reserve id bytes
  | .none id =>
    match s.slots.get? id with
    | some _ => none
    | none => some { s with slots := s.slots.put id (.live ⟨false, 0⟩) }
  | .try_grow id additional => s.try_grow id additional
  | .claim_overlapping id bytes caller_reservation =>
    s.claim_overlapping id bytes caller_reservation
  | .attempt id spurious => s.attempt id spurious
  | .finish id => s.finish id
  | .drop id => s.drop id

end LedgerState

theorem Slot.held_live (reservation : Reservation) :
    (live reservation).held = if reservation.enabled then reservation.bytes.toNat else 0 :=
  rfl

open Directory

omit [DecidableEq ρ] in
theorem total_held (slots : Directory ρ Slot) :
    slots.total held = slots.total live_bytes + slots.total pending := by
  rw [total, total, total, ← List.sum_map_add]
  rfl

/-! ## Rounds and releases -/

theorem toNat_of_checked_add {a b c : UInt64} (h : checked_add a b = some c) :
    c.toNat = a.toNat + b.toNat := by
  unfold checked_add at h
  split at h
  case isTrue hlt =>
    rw [← Option.some.inj h, UInt64.toNat_add, Nat.mod_eq_of_lt hlt]
  case isFalse => cases h

open InflightLedger

variable {bytes : UInt64} {ledger : InflightLedger}

theorem InflightLedger.round_granted {current new_total : UInt64} {spurious : Bool}
    (h : ledger.round current bytes spurious = .granted new_total) :
    new_total.toNat = ledger.reserved.toNat + bytes.toNat ∧ new_total ≤ ledger.ceiling := by
  unfold round at h
  split at h
  case h_1 => cases h
  case h_2 sum hsum =>
    split at h
    case isTrue => cases h
    case isFalse hfits =>
      split at h
      case isTrue hswap =>
        obtain rfl : sum = new_total := by injection h
        rw [hswap.1]
        exact ⟨toNat_of_checked_add hsum, UInt64.not_lt.mp hfits⟩
      case isFalse => cases h

@[simp] theorem InflightLedger.release_ceiling (ledger : InflightLedger) (bytes : UInt64) :
    (ledger.release bytes).ceiling = ledger.ceiling := by
  unfold release
  split <;> rfl

@[simp] theorem InflightLedger.release_rejected_total (ledger : InflightLedger) (bytes : UInt64) :
    (ledger.release bytes).rejected_total = ledger.rejected_total := by
  unfold release
  split <;> rfl

theorem InflightLedger.toNat_release (h : bytes ≤ ledger.reserved) :
    (ledger.release bytes).reserved.toNat + bytes.toNat = ledger.reserved.toNat := by
  have hle : bytes.toNat ≤ ledger.reserved.toNat := UInt64.le_iff_toNat_le.mp h
  unfold release
  split
  case isTrue hzero =>
    rw [hzero]
    rfl
  case isFalse =>
    rw [show ({ ledger with reserved := ledger.reserved - bytes } : InflightLedger).reserved =
      ledger.reserved - bytes from rfl, UInt64.toNat_sub_of_le _ _ h]
    omega

/-! ## What an operation does -/

namespace LedgerState

variable {ceiling_bytes : UInt64} {s s' : LedgerState ρ} {id : ρ} {slot : Slot} {bytes : UInt64}
  {event : LedgerEvent ρ}

theorem held_of_get? (h : s.slots.get? id = some slot) : s.held id = slot.held :=
  measure_of_get? Slot.held h

theorem held_of_none (h : s.slots.get? id = none) : s.held id = 0 := measure_of_none Slot.held h

/-- The counter is the sum of what is held, and within the ceiling. A ledger without a ceiling
has handed out disabled reservations only. -/
structure Conserved (ceiling_bytes : UInt64) (s : LedgerState ρ) : Prop where
  ceiling : s.ledger.ceiling = ceiling_bytes
  balance : s.ledger.reserved.toNat = s.slots.total Slot.held
  below : s.ledger.reserved ≤ ceiling_bytes
  disabled : ceiling_bytes = 0 → ∀ id slot, s.slots.get? id = some slot →
    ∃ bytes, slot = .live ⟨false, bytes⟩

theorem Conserved.held_le (h : Conserved ceiling_bytes s) (id : ρ) :
    s.held id ≤ s.ledger.reserved.toNat := by
  rw [h.balance, ← s.slots.total_erase Slot.held id]
  exact Nat.le_add_left _ _

theorem Conserved.ceiling_ne_zero (h : Conserved ceiling_bytes s)
    (hget : s.slots.get? id = some slot) (hslot : ∀ bytes, slot ≠ .live ⟨false, bytes⟩) :
    s.ledger.ceiling ≠ 0 := by
  intro hzero
  obtain ⟨bytes, hlive⟩ := h.disabled (h.ceiling ▸ hzero) id slot hget
  exact hslot bytes hlive

/-- One operation touches one slot, and moves the counter by as much as the bytes that are held
there. A rejection is counted by an operation that leaves the counter alone. -/
inductive Effect (s : LedgerState ρ) : LedgerState ρ → Prop
  | idle : Effect s s
  | put (ledger : InflightLedger) (id : ρ) (slot : Slot)
      (hceiling : ledger.ceiling = s.ledger.ceiling)
      (hbelow : ledger.reserved ≤ ledger.ceiling)
      (hmove : ledger.reserved.toNat + s.held id = s.ledger.reserved.toNat + slot.held)
      (hrejected : ledger.reserved ≠ s.ledger.reserved →
        ledger.rejected_total = s.ledger.rejected_total)
      (hdisabled : ledger.ceiling = 0 → ∃ bytes, slot = .live ⟨false, bytes⟩) :
      Effect s ⟨ledger, s.slots.put id slot⟩
  | erase (ledger : InflightLedger) (id : ρ)
      (hceiling : ledger.ceiling = s.ledger.ceiling)
      (hmove : ledger.reserved.toNat + s.held id = s.ledger.reserved.toNat)
      (hrejected : ledger.reserved ≠ s.ledger.reserved →
        ledger.rejected_total = s.ledger.rejected_total) :
      Effect s ⟨ledger, s.slots.erase id⟩

theorem Effect.put_same (h : Conserved ceiling_bytes s) (hsame : s.held id = slot.held)
    (hdisabled : s.ledger.ceiling = 0 → ∃ bytes, slot = .live ⟨false, bytes⟩) :
    Effect s { s with slots := s.slots.put id slot } := by
  apply Effect.put s.ledger id slot rfl _ _ _ hdisabled
  · rw [h.ceiling]
    exact h.below
  · rw [hsame]
  · exact fun _ => rfl

theorem Effect.conserved (heffect : Effect s s') (h : Conserved ceiling_bytes s) :
    Conserved ceiling_bytes s' := by
  have hbalance := h.balance
  cases heffect with
  | idle => exact h
  | put ledger id slot hceiling hbelow hmove _ hdisabled =>
    rw [h.ceiling] at hceiling
    refine ⟨hceiling, ?_, hceiling ▸ hbelow, ?_⟩
    · have hput := s.slots.total_put Slot.held id slot
      unfold held at hmove
      show ledger.reserved.toNat = (s.slots.put id slot).total Slot.held
      omega
    · intro hzero id' slot' hget
      by_cases hid : id' = id
      · rw [hid, get?_put_self] at hget
        rw [← Option.some.inj hget]
        exact hdisabled (hceiling.trans hzero)
      · rw [get?_put_ne _ hid] at hget
        exact h.disabled hzero id' slot' hget
  | erase ledger id hceiling hmove _ =>
    rw [h.ceiling] at hceiling
    refine ⟨hceiling, ?_, ?_, ?_⟩
    · have herase := s.slots.total_erase Slot.held id
      unfold held at hmove
      show ledger.reserved.toNat = (s.slots.erase id).total Slot.held
      omega
    · have hbelow := UInt64.le_iff_toNat_le.mp h.below
      show ledger.reserved ≤ ceiling_bytes
      rw [UInt64.le_iff_toNat_le]
      omega
    · intro hzero id' slot' hget
      by_cases hid : id' = id
      · rw [hid, get?_erase_self] at hget
        cases hget
      · rw [get?_erase_ne _ hid] at hget
        exact h.disabled hzero id' slot' hget

theorem Effect.held_eq (heffect : Effect s s')
    (hsame : s'.ledger.reserved = s.ledger.reserved) (id' : ρ) : s'.held id' = s.held id' := by
  cases heffect with
  | idle => rfl
  | put ledger id slot _ _ hmove =>
    rw [show ledger.reserved = s.ledger.reserved from hsame] at hmove
    by_cases hid : id' = id
    · rw [hid, held_of_get? Directory.get?_put_self]
      omega
    · unfold held Directory.measure
      rw [Directory.get?_put_ne _ hid]
  | erase ledger id _ hmove =>
    rw [show ledger.reserved = s.ledger.reserved from hsame] at hmove
    by_cases hid : id' = id
    · rw [hid, held_of_none Directory.get?_erase_self]
      omega
    · unfold held Directory.measure
      rw [Directory.get?_erase_ne _ hid]

theorem Effect.reserved_of_rejected (heffect : Effect s s')
    (hrejected : s'.ledger.rejected_total ≠ s.ledger.rejected_total) :
    s'.ledger.reserved = s.ledger.reserved := by
  cases heffect with
  | idle => rfl
  | put ledger id slot _ _ _ hcount | erase ledger id _ _ hcount =>
    by_contra hmoved
    exact hrejected (hcount hmoved)

/-! ## Each operation -/

section

variable (h : Conserved ceiling_bytes s)

include h

theorem try_reserve_effect (hstep : s.try_reserve id bytes = some s') : Effect s s' := by
  unfold try_reserve at hstep
  split at hstep
  case h_1 => cases hstep
  case h_2 hnone =>
    have hheld := held_of_none hnone
    split at hstep
    case isTrue =>
      cases hstep
      exact Effect.put_same h hheld fun _ => ⟨0, rfl⟩
    case isFalse henabled =>
      cases hstep
      exact Effect.put_same h hheld fun hzero => absurd hzero henabled

theorem try_grow_effect {additional : UInt64} (hstep : s.try_grow id additional = some s') :
    Effect s s' := by
  unfold try_grow at hstep
  split at hstep
  case h_2 => cases hstep
  case h_1 reservation hget =>
    have hheld := (held_of_get? hget).trans (held_live reservation)
    by_cases henabled : reservation.enabled
    · rw [if_pos henabled] at hstep hheld
      by_cases hzero : additional = 0
      · rw [if_pos hzero] at hstep
        cases hstep
        exact .idle
      · rw [if_neg hzero] at hstep
        by_cases hoff : s.ledger.ceiling = 0
        · -- a disabled ledger has given out no enabled reservation
          refine absurd hoff (h.ceiling_ne_zero hget ?_)
          intro bytes hlive
          injection hlive with hlive
          rw [hlive] at henabled
          cases henabled
        · rw [if_neg hoff] at hstep
          cases hstep
          exact Effect.put_same h hheld fun hzero => absurd hzero hoff
    · rw [if_neg henabled] at hstep hheld
      cases hstep
      exact Effect.put_same h hheld fun _ => ⟨_, rfl⟩

omit h in
/-- A claim changes nothing, reserves on its own, or grows what its caller holds. -/
theorem claim_overlapping_cases {caller_reservation : Option ρ}
    (hstep : s.claim_overlapping id bytes caller_reservation = some s') :
    s' = s ∨ s.try_reserve id bytes = some s' ∨
      ∃ caller shortfall, s.try_grow caller shortfall = some s' := by
  unfold claim_overlapping at hstep
  split at hstep
  case h_1 => exact .inr (.inl hstep)
  case h_2 caller =>
    split at hstep
    case h_2 => cases hstep
    case h_1 existing hget =>
      split at hstep
      case isTrue => exact .inl (Option.some.inj hstep).symm
      case isFalse => exact .inr (.inr ⟨caller, _, hstep⟩)

theorem attempt_effect {spurious : Bool} (hstep : s.attempt id spurious = some s') :
    Effect s s' := by
  have hbelow : s.ledger.reserved ≤ s.ledger.ceiling := h.ceiling ▸ h.below
  unfold attempt at hstep
  split at hstep
  case h_3 => cases hstep
  case h_1 bytes current hget =>
    have hheld := held_of_get? hget
    have hon := h.ceiling_ne_zero hget nofun
    cases hstep
    rcases hround : s.ledger.round current bytes spurious with _ | new_total | actual
    · -- a rejected reservation is gone, and it held nothing
      refine Effect.erase _ id rfl ?_ (fun hmoved => absurd rfl hmoved)
      rw [hheld]
      rfl
    · obtain ⟨hsum, hfits⟩ := round_granted hround
      refine Effect.put _ id _ rfl hfits ?_ (fun _ => rfl) (fun hzero => absurd hzero hon)
      rw [hheld]
      show new_total.toNat + 0 = s.ledger.reserved.toNat + (0 + bytes.toNat)
      omega
    · refine Effect.put _ id _ rfl hbelow ?_ (fun _ => rfl) (fun hzero => absurd hzero hon)
      rw [hheld]
      rfl
  case h_2 bytes additional current hget =>
    have hheld := held_of_get? hget
    have hon := h.ceiling_ne_zero hget nofun
    cases hstep
    rcases hround : s.ledger.round current additional spurious with _ | new_total | actual
    · -- a rejected growth leaves the reservation with what it had
      refine Effect.put _ id _ rfl hbelow ?_ (fun hmoved => absurd rfl hmoved)
        (fun hzero => absurd hzero hon)
      rw [hheld]
      rfl
    · obtain ⟨hsum, hfits⟩ := round_granted hround
      refine Effect.put _ id _ rfl hfits ?_ (fun _ => rfl) (fun hzero => absurd hzero hon)
      rw [hheld]
      show new_total.toNat + bytes.toNat =
        s.ledger.reserved.toNat + (bytes.toNat + additional.toNat)
      omega
    · refine Effect.put _ id _ rfl hbelow ?_ (fun _ => rfl) (fun hzero => absurd hzero hon)
      rw [hheld]
      rfl

theorem finish_effect (hstep : s.finish id = some s') : Effect s s' := by
  have hbelow : s.ledger.reserved ≤ s.ledger.ceiling := h.ceiling ▸ h.below
  unfold finish at hstep
  split at hstep
  case h_3 => cases hstep
  case h_1 bytes new_total hget =>
    cases hstep
    refine Effect.put _ id _ rfl hbelow ?_ (fun _ => rfl) ?_
    · rw [held_of_get? hget]
      show s.ledger.reserved.toNat + (0 + bytes.toNat) = s.ledger.reserved.toNat + bytes.toNat
      omega
    · exact (absurd · (h.ceiling_ne_zero hget nofun))
  case h_2 bytes additional new_total hget =>
    cases hstep
    have hheld := held_of_get? hget
    -- the sum is part of the counter, so the reservation's own addition does not wrap
    have hfits : bytes.toNat + additional.toNat < 2 ^ 64 := by
      have hle := h.held_le id
      rw [hheld] at hle
      exact lt_of_le_of_lt hle (UInt64.toNat_lt _)
    refine Effect.put _ id _ rfl hbelow ?_ (fun _ => rfl) ?_
    · rw [hheld]
      rw [held_live, if_pos rfl, UInt64.toNat_add, Nat.mod_eq_of_lt hfits]
      rfl
    · exact (absurd · (h.ceiling_ne_zero hget nofun))

theorem Conserved.bytes_le {reservation : Reservation}
    (hget : s.slots.get? id = some (.live reservation)) (henabled : reservation.enabled = true) :
    reservation.bytes ≤ s.ledger.reserved := by
  have hle := h.held_le id
  rw [held_of_get? hget, Slot.held_live, if_pos henabled] at hle
  exact UInt64.le_iff_toNat_le.mpr hle

theorem drop_effect (hstep : s.drop id = some s') : Effect s s' := by
  unfold drop at hstep
  split at hstep
  case h_2 => cases hstep
  case h_1 reservation hget =>
    have hheld := (held_of_get? hget).trans (held_live reservation)
    cases hstep
    split_ifs at hheld ⊢ with henabled
    · apply Effect.erase
      · exact release_ceiling _ _
      · rw [hheld]
        exact toNat_release (h.bytes_le hget henabled)
      · exact fun _ => release_rejected_total _ _
    · apply Effect.erase _ _ rfl
      · rw [hheld]
        rfl
      · exact fun _ => rfl

/-! ## Whole runs -/

/-- Every event of the ledger is such an operation. -/
theorem step_effect (hstep : s.step event = some s') : Effect s s' := by
  cases event with
  | try_reserve id bytes => exact try_reserve_effect h hstep
  | none id =>
    simp only [step] at hstep
    split at hstep
    case h_1 => cases hstep
    case h_2 hnone =>
      cases hstep
      exact Effect.put_same h (held_of_none hnone) fun _ => ⟨0, rfl⟩
  | try_grow id additional => exact try_grow_effect h hstep
  | claim_overlapping id bytes caller_reservation =>
    rcases claim_overlapping_cases hstep with rfl | hreserve | ⟨caller, shortfall, hgrow⟩
    · exact .idle
    · exact try_reserve_effect h hreserve
    · exact try_grow_effect h hgrow
  | attempt id spurious => exact attempt_effect h hstep
  | finish id => exact finish_effect h hstep
  | drop id => exact drop_effect h hstep

end

theorem init_conserved :
    Conserved ceiling_bytes (LedgerState.init ceiling_bytes : LedgerState ρ) := by
  refine ⟨rfl, rfl, UInt64.zero_le, ?_⟩
  intro _ id slot hget
  cases hget

theorem run_conserved {events : List (LedgerEvent ρ)}
    (hrun : run step (.init ceiling_bytes) events = some s) : Conserved ceiling_bytes s := by
  have hfree : Guarded step (fun _ _ => True) (.init ceiling_bytes : LedgerState ρ) events :=
    guarded_of_forall fun _ _ => trivial
  refine run_invariant (Conserved ceiling_bytes) ?_ init_conserved hfree hrun
  intro s₁ event s₂ h _ hstep
  exact (step_effect h hstep).conserved h

theorem reserved_of_begins (hbegins : event.begins = true) (hstep : s.step event = some s') :
    s'.ledger = s.ledger := by
  have hreserve : ∀ id bytes s', s.try_reserve id bytes = some s' → s'.ledger = s.ledger := by
    intro id bytes s' hstep
    unfold try_reserve at hstep
    repeat' split at hstep
    all_goals first | cases hstep; rfl | cases hstep
  have hgrow : ∀ id additional s', s.try_grow id additional = some s' → s'.ledger = s.ledger := by
    intro id additional s' hstep
    unfold try_grow at hstep
    repeat' split at hstep
    all_goals first | cases hstep; rfl | cases hstep
  cases event with
  | try_reserve id bytes => exact hreserve id bytes s' hstep
  | none id =>
    simp only [step] at hstep
    split at hstep
    case h_1 => cases hstep
    case h_2 =>
      cases hstep
      rfl
  | try_grow id additional => exact hgrow id additional s' hstep
  | claim_overlapping id bytes caller_reservation =>
    rcases claim_overlapping_cases hstep with rfl | hown | ⟨caller, shortfall, hmore⟩
    · rfl
    · exact hreserve id bytes s' hown
    · exact hgrow caller shortfall s' hmore
  | attempt id spurious | finish id | drop id => cases hbegins

theorem total_held_eq_zero (h : ∀ id slot, s.slots.get? id = some slot →
      ∃ bytes current, slot = .reserving bytes current) :
    s.slots.total Slot.held = 0 := by
  rw [total, List.sum_eq_zero_iff_forall_eq_nat]
  intro held hmem
  obtain ⟨⟨id, slot⟩, hentry, rfl⟩ := List.mem_map.mp hmem
  obtain ⟨bytes, current, hslot⟩ := h id slot (get?_of_mem hentry)
  rw [hslot]
  rfl

/-- **Conservation of reserved bytes.** After any interleaving of the atomic operations of any
number of tasks, the counter is the sum of the bytes of the enabled reservations and of those
granted to an operation that is about to store them, and it is within the ceiling; a live
reservation is covered by the counter, so that its release subtracts without wrapping; a rejected
or merely begun operation moves neither the counter nor what anyone holds, nor does any other that
leaves the counter alone; and with nothing held the counter is zero. -/
theorem reserved_conservation (ceiling_bytes : UInt64) (events : List (LedgerEvent ρ))
    (s : LedgerState ρ) (hrun : run step (.init ceiling_bytes) events = some s) :
    s.ledger.reserved.toNat = s.slots.total live_bytes + s.slots.total pending ∧
    s.ledger.reserved ≤ ceiling_bytes ∧
    (∀ id reservation s', s.slots.get? id = some (.live reservation) →
      reservation.enabled = true → s.step (.drop id) = some s' →
      reservation.bytes ≤ s.ledger.reserved ∧
        s'.ledger.reserved.toNat = s.ledger.reserved.toNat - reservation.bytes.toNat) ∧
    (∀ event s', s.step event = some s' →
      (s'.ledger.rejected_total ≠ s.ledger.rejected_total ∨ event.begins = true ∨
        s'.ledger.reserved = s.ledger.reserved) →
      s'.ledger.reserved = s.ledger.reserved ∧ ∀ id, s'.held id = s.held id) ∧
    ((∀ id slot, s.slots.get? id = some slot → ∃ bytes current, slot = .reserving bytes current) →
      s.ledger.reserved = 0) := by
  have hinv := run_conserved hrun
  refine ⟨hinv.balance.trans (total_held s.slots), hinv.below, ?_, ?_, ?_⟩
  · intro id reservation s' hget henabled hstep
    have hle := hinv.bytes_le hget henabled
    have hrelease := toNat_release hle
    refine ⟨hle, ?_⟩
    simp only [step, drop, hget, if_pos henabled, Option.some.injEq] at hstep
    rw [← hstep]
    show (s.ledger.release reservation.bytes).reserved.toNat = _
    omega
  · intro event s' hstep hcase
    have heffect := step_effect hinv hstep
    have hsame : s'.ledger.reserved = s.ledger.reserved := by
      rcases hcase with hrejected | hbegins | hsame
      · exact heffect.reserved_of_rejected hrejected
      · rw [reserved_of_begins hbegins hstep]
      · exact hsame
    exact ⟨hsame, heffect.held_eq hsame⟩
  · intro hidle
    rw [← UInt64.toNat_inj, hinv.balance, total_held_eq_zero hidle]
    rfl

/-- Two tasks race for a ceiling of 100: both load the counter at zero, the second swap finds 60
there, and its next round is rejected. The first task then grows, with one failure of the weak
swap. -/
def race : List (LedgerEvent ℕ) :=
  [.try_reserve 0 60, .try_reserve 1 50, .attempt 0 false, .attempt 1 false, .attempt 1 false,
    .finish 0, .claim_overlapping 2 80 (some 0), .attempt 0 true, .attempt 0 false, .finish 0]

theorem reserved_conservation_race :
    ∃ s : LedgerState ℕ, run step (.init 100) race = some s ∧
      s.ledger = ⟨100, 80, 80, 1⟩ ∧ s.slots.get? 0 = some (.live ⟨true, 80⟩) ∧
      s.ledger.reserved.toNat = s.slots.total live_bytes + s.slots.total pending ∧
      ∀ s', s.step (.drop 0) = some s' → s'.ledger.reserved.toNat = 80 - 80 := by
  refine ⟨_, rfl, by decide, by decide, (reserved_conservation 100 race _ rfl).1, ?_⟩
  intro s' hstep
  exact ((reserved_conservation 100 race _ rfl).2.2.1 0 _ s' rfl rfl hstep).2

end LedgerState

end HybridCache.Inflight
