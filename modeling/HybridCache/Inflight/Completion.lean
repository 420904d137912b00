/-
The end of a flight (`FetchGuard` in `inflight_tracker.rs`).

A guard that completes sends its result, then removes its entry, and is dropped after that; one
that is dropped early removes its entry first. Each is a step of its own, and requests may come in
between. The map has a sender too, so the channel is closed once the entry and the guard are gone.
A waiter that subscribes between the sending and the removal finds the channel closed.
-/
import HybridCache.Inflight.Flights

namespace HybridCache.Inflight

open Lib

abbrev FetchResult := Except String Unit

/-! ## The model -/

/-- Where the fetcher is: it fetches, has sent its result, has removed its entry, is dropped. -/
inductive GuardPhase where
  | fetching
  | completed (result : FetchResult)
  | removed (result : Option FetchResult)
  | gone (result : Option FetchResult)

def GuardPhase.result : GuardPhase → Option FetchResult
  | .fetching => none
  | .completed result => some result
  | .removed result => result
  | .gone result => result

def GuardPhase.live : GuardPhase → Bool
  | .fetching => true
  | .completed _ => true
  | _ => false

structure FetchGuard where
  flight_key : List Char
  phase : GuardPhase

structure Receiver where
  channel : ℕ
  received : Option FetchResult

/-- The map, the guards by channel, and the waiters. -/
structure FlightState where
  tracker : TrackerState
  guards : ℕ → Option FetchGuard
  waiters : List Receiver

inductive FlightEvent where
  | register (flight_key : List Char)
  | resubscribe (flight_key : List Char)
  | send (channel : ℕ) (result : FetchResult)
  | remove (channel : ℕ)
  | drop_guard (channel : ℕ)
  | leave (i : ℕ)

namespace FlightState

def init : FlightState :=
  ⟨.init, fun _ => none, []⟩

def subscribe (s : FlightState) (channel : ℕ) : FlightState :=
  { s with waiters := ⟨channel, none⟩ :: s.waiters }

def set_guard (s : FlightState) (channel : ℕ) (guard : FetchGuard) : FlightState :=
  { s with guards := Function.update s.guards channel (some guard) }

def deliver (channel : ℕ) (result : FetchResult) (waiter : Receiver) : Receiver :=
  if waiter.channel = channel then { waiter with received := some result } else waiter

def step (s : FlightState) : FlightEvent → Option FlightState
  | .register flight_key =>
    match s.tracker.try_register flight_key with
    | (.Fetcher channel, tracker) =>
      some ({ s with tracker := tracker }.set_guard channel ⟨flight_key, .fetching⟩)
    | (.Waiter channel, tracker) => some ({ s with tracker := tracker }.subscribe channel)
  | .resubscribe flight_key => (s.tracker.try_resubscribe flight_key).map s.subscribe
  | .send channel result =>
    match s.guards channel with
    | some ⟨flight_key, .fetching⟩ =>
      some { s.set_guard channel ⟨flight_key, .completed result⟩ with
        waiters := s.waiters.map (deliver channel result) }
    | _ => none
  | .remove channel =>
    (s.guards channel).bind fun guard =>
      if guard.phase.live then
        some { s.set_guard channel { guard with phase := .removed guard.phase.result } with
          tracker := { s.tracker with pending := s.tracker.pending.erase guard.flight_key } }
      else none
  | .drop_guard channel =>
    match s.guards channel with
    | some ⟨flight_key, .removed result⟩ => some (s.set_guard channel ⟨flight_key, .gone result⟩)
    | _ => none
  | .leave i => some { s with waiters := s.waiters.eraseIdx i }

/-! ## What holds in every state -/

def Closed (s : FlightState) (channel : ℕ) : Prop :=
  (∀ guard, s.guards channel = some guard → ∃ result, guard.phase = .gone result) ∧
    ∀ flight_key, s.tracker.pending.get? flight_key ≠ some channel

/-- The map has the entries of the guards that are live, and what a waiter has got was sent on its
channel. -/
structure Sound (s : FlightState) : Prop where
  fresh : ∀ channel, s.tracker.channels ≤ channel → s.guards channel = none
  pending_iff : ∀ flight_key channel, s.tracker.pending.get? flight_key = some channel ↔
    ∃ guard, s.guards channel = some guard ∧ guard.flight_key = flight_key ∧ guard.phase.live = true
  waiters : ∀ waiter ∈ s.waiters, ∃ guard, s.guards waiter.channel = some guard ∧
    ∀ result, waiter.received = some result → guard.phase.result = some result

section Steps

variable {s s' : FlightState} {channel : ℕ} {flight_key : List Char} {guard guard' : FetchGuard}

section

variable (hs : s.Sound)

include hs

theorem Sound.subscribe (h : s.tracker.pending.get? flight_key = some channel) :
    (s.subscribe channel).Sound := by
  refine ⟨hs.fresh, hs.pending_iff, ?_⟩
  intro waiter hwaiter
  rcases List.mem_cons.mp hwaiter with rfl | hwaiter
  · obtain ⟨guard, hguard, -⟩ := (hs.pending_iff flight_key channel).mp h
    exact ⟨guard, hguard, nofun⟩
  · exact hs.waiters waiter hwaiter

/-- One guard begins or moves on: the map has its entry as long as it is live, and other entries as
before; it keeps what it has sent, and what a waiter gets is sent by it. -/
theorem Sound.change (hguards : s'.guards = Function.update s.guards channel (some guard'))
    (hchannels : s.tracker.channels ≤ s'.tracker.channels) (hlt : channel < s'.tracker.channels)
    (hpending : ∀ flight_key d, s'.tracker.pending.get? flight_key = some d ↔
      if d = channel then guard'.flight_key = flight_key ∧ guard'.phase.live = true
      else s.tracker.pending.get? flight_key = some d)
    (hresult : ∀ guard, s.guards channel = some guard → ∀ result, guard.phase.result = some result →
      guard'.phase.result = some result)
    (hwaiters : ∀ waiter' ∈ s'.waiters, ∃ waiter ∈ s.waiters, waiter'.channel = waiter.channel ∧
      ∀ result, waiter'.received = some result →
        waiter.received = some result ∨
          waiter.channel = channel ∧ guard'.phase.result = some result) :
    s'.Sound := by
  refine ⟨fun d hle => ?_, fun flight_key d => ?_, fun waiter' hwaiter' => ?_⟩
  · rw [hguards, Function.update_of_ne (hlt.trans_le hle).ne']
    exact hs.fresh d (hchannels.trans hle)
  · rw [hpending, hguards, Function.update_apply]
    split_ifs with hd
    · simp
    · exact hs.pending_iff flight_key d
  · obtain ⟨waiter, hwaiter, hchannel, hreceived⟩ := hwaiters waiter' hwaiter'
    obtain ⟨guard, hguard, hsent⟩ := hs.waiters waiter hwaiter
    rw [hguards, hchannel, Function.update_apply]
    split_ifs with hd
    · refine ⟨guard', rfl, fun result hgot => ?_⟩
      rcases hreceived result hgot with hold | ⟨-, hnew⟩
      · exact hresult guard (hd ▸ hguard) result (hsent result hold)
      · exact hnew
    · refine ⟨guard, hguard, fun result hgot => ?_⟩
      exact hsent result ((hreceived result hgot).resolve_right fun hnew => hd hnew.1)

theorem Sound.lt_channels (h : s.guards channel = some guard) : channel < s.tracker.channels := by
  by_contra hle
  rw [hs.fresh channel (Nat.le_of_not_lt hle)] at h
  cases h

theorem Sound.pending_of_same (h : s.guards channel = some guard)
    (hkey : guard'.flight_key = guard.flight_key) (hlive : guard'.phase.live = guard.phase.live)
    (flight_key : List Char) (d : ℕ) :
    s.tracker.pending.get? flight_key = some d ↔
      if d = channel then guard'.flight_key = flight_key ∧ guard'.phase.live = true
      else s.tracker.pending.get? flight_key = some d := by
  split_ifs with hd
  · rw [hs.pending_iff, hd, h, hkey, hlive]
    simp
  · exact Iff.rfl

theorem Sound.register (h : s.step (.register flight_key) = some s') : s'.Sound := by
  cases hget : s.tracker.pending.get? flight_key with
  | some channel =>
    simp only [step, TrackerState.try_register, hget] at h
    cases h
    exact hs.subscribe hget
  | none =>
    simp only [step, TrackerState.try_register, hget] at h
    cases h
    have hnew : s.guards s.tracker.channels = none := hs.fresh _ le_rfl
    refine hs.change rfl (Nat.le_succ _) (Nat.lt_succ_self _) ?_ ?_
      fun waiter hwaiter => ⟨waiter, hwaiter, rfl, fun _ hold => .inl hold⟩
    · intro key d
      have hfresh := (hs.pending_iff key s.tracker.channels).not.mpr (by simp [hnew])
      by_cases hkey : key = flight_key
      · subst hkey
        simp [set_guard, hget, GuardPhase.live, eq_comm]
      · simp only [set_guard, Directory.get?_put_ne _ hkey]
        split_ifs with hd
        · simp [hd, hfresh, Ne.symm hkey]
        · exact Iff.rfl
    · rw [hnew]
      intro _ hnone
      cases hnone

/-- The entry that a guard removes is its own. -/
theorem Sound.get?_erase (h : s.guards channel = some guard) (hlive : guard.phase.live = true)
    (flight_key : List Char) (d : ℕ) :
    (s.tracker.pending.erase guard.flight_key).get? flight_key = some d ↔
      d ≠ channel ∧ s.tracker.pending.get? flight_key = some d := by
  by_cases hkey : flight_key = guard.flight_key
  · rw [hkey, Directory.get?_erase_self,
      (hs.pending_iff guard.flight_key channel).mpr ⟨guard, h, rfl, hlive⟩]
    simp [eq_comm]
  · rw [Directory.get?_erase_ne _ hkey]
    refine ⟨fun hpending => ⟨?_, hpending⟩, And.right⟩
    rintro rfl
    obtain ⟨_, hguard, hkey', -⟩ := (hs.pending_iff flight_key d).mp hpending
    cases h.symm.trans hguard
    exact hkey hkey'.symm

theorem Sound.remove (h : s.guards channel = some guard) (hlive : guard.phase.live = true) :
    Sound { s.set_guard channel { guard with phase := .removed guard.phase.result } with
      tracker := { s.tracker with pending := s.tracker.pending.erase guard.flight_key } } := by
  refine hs.change rfl le_rfl (hs.lt_channels h) ?_ ?_
    fun waiter hwaiter => ⟨waiter, hwaiter, rfl, fun _ hold => .inl hold⟩
  · intro flight_key d
    rw [hs.get?_erase h hlive]
    split_ifs with hd <;> simp [hd, GuardPhase.live]
  · rw [h]
    rintro _ ⟨⟩ result hold
    exact hold

theorem Sound.step {event : FlightEvent} (h : s.step event = some s') : s'.Sound := by
  cases event with
  | register flight_key => exact hs.register h
  | resubscribe flight_key =>
    obtain ⟨channel, hchannel, rfl⟩ := Option.map_eq_some_iff.mp h
    exact hs.subscribe hchannel
  | send channel result =>
    simp only [FlightState.step] at h
    split at h <;> cases h
    rename_i flight_key hguard
    refine hs.change rfl le_rfl (hs.lt_channels hguard) (hs.pending_of_same hguard rfl rfl) ?_ ?_
    · rw [hguard]
      rintro _ ⟨⟩ result' hsent
      cases hsent
    · intro waiter' hwaiter'
      obtain ⟨waiter, hwaiter, rfl⟩ := List.mem_map.mp hwaiter'
      refine ⟨waiter, hwaiter, ?_, ?_⟩
      · unfold deliver
        split_ifs <;> rfl
      · intro result' hgot
        unfold deliver at hgot
        split_ifs at hgot with hchannel
        · exact .inr ⟨hchannel, hgot⟩
        · exact .inl hgot
  | remove channel =>
    obtain ⟨guard, hguard, h⟩ := Option.bind_eq_some_iff.mp h
    split_ifs at h with hlive
    cases h
    exact hs.remove hguard hlive
  | drop_guard channel =>
    simp only [FlightState.step] at h
    split at h <;> cases h
    rename_i flight_key result hguard
    refine hs.change rfl le_rfl (hs.lt_channels hguard) (hs.pending_of_same hguard rfl rfl) ?_
      fun waiter hwaiter => ⟨waiter, hwaiter, rfl, fun _ hold => .inl hold⟩
    rw [hguard]
    rintro _ ⟨⟩ result hold
    exact hold
  | leave i =>
    cases h
    exact ⟨hs.fresh, hs.pending_iff, fun w hw => hs.waiters w (List.mem_of_mem_eraseIdx hw)⟩

end

end Steps

theorem sound_init : init.Sound := ⟨fun _ _ => rfl, by simp [init, TrackerState.init], nofun⟩

theorem Sound.closed {s : FlightState} (hs : s.Sound) {channel : ℕ} {flight_key : List Char}
    {result : Option FetchResult} (h : s.guards channel = some ⟨flight_key, .gone result⟩) :
    s.Closed channel := by
  refine ⟨fun guard hguard => ?_, fun key hpending => ?_⟩
  · cases h.symm.trans hguard
    exact ⟨result, rfl⟩
  · obtain ⟨guard, hguard, -, hlive⟩ := (hs.pending_iff key channel).mp hpending
    cases h.symm.trans hguard
    cases hlive

end FlightState

open FlightState

/-! ## All runs -/

/-- **A flight has one fetcher, a guard removes no entry but its own, and at the end every waiter
has the result or a closed channel.** -/
theorem flights_settle (events : List FlightEvent) (s : FlightState)
    (hrun : run FlightState.step FlightState.init events = some s) :
    (∀ c c' guard guard', s.guards c = some guard → s.guards c' = some guard' →
      guard.phase.live = true → guard'.phase.live = true →
        guard.flight_key = guard'.flight_key → c = c') ∧
    (∀ c s', s.step (.remove c) = some s' → ∀ flight_key d, d ≠ c →
      (s'.tracker.pending.get? flight_key = some d ↔
        s.tracker.pending.get? flight_key = some d)) ∧
    ∀ waiter ∈ s.waiters, ∀ flight_key result,
      s.guards waiter.channel = some ⟨flight_key, .gone result⟩ →
        waiter.received = none ∧ s.Closed waiter.channel ∨
          ∃ sent, waiter.received = some sent ∧ result = some sent := by
  have hs : s.Sound :=
    @run_invariant _ _ FlightState.step (fun _ _ => True) Sound (fun _ _ _ hs _ h => hs.step h)
      _ _ _ sound_init (guarded_of_forall fun _ _ => trivial) hrun
  refine ⟨?_, ?_, ?_⟩
  · intro c c' guard guard' hguard hguard' hlive hlive' hkey
    have hc := (hs.pending_iff guard.flight_key c).mpr ⟨guard, hguard, rfl, hlive⟩
    have hc' := (hs.pending_iff guard.flight_key c').mpr ⟨guard', hguard', hkey.symm, hlive'⟩
    exact Option.some.inj (hc.symm.trans hc')
  · intro c s' hstep flight_key d hne
    obtain ⟨guard, hguard, h⟩ := Option.bind_eq_some_iff.mp hstep
    split_ifs at h with hlive
    cases h
    rw [hs.get?_erase hguard hlive, and_iff_right hne]
  · intro waiter hwaiter flight_key result hgone
    obtain ⟨guard, hguard, hsent⟩ := hs.waiters waiter hwaiter
    cases hgone.symm.trans hguard
    cases hreceived : waiter.received with
    | none => exact .inl ⟨rfl, hs.closed hgone⟩
    | some sent => exact .inr ⟨sent, rfl, hsent sent hreceived⟩

/-- One waiter before the result is sent, one after it, and a new fetcher before the old guard is
dropped. -/
theorem late_waiter_finds_closed :
    ∃ s, run FlightState.step FlightState.init [.register ['k'], .register ['k'], .send 0 (.ok ()),
        .resubscribe ['k'], .remove 0, .register ['k'], .drop_guard 0] = some s ∧
      s.waiters = [⟨0, none⟩, ⟨0, some (.ok ())⟩] ∧ s.Closed 0 := by
  refine ⟨_, rfl, rfl, ?_⟩
  obtain ⟨-, -, h⟩ := flights_settle [.register ['k'], .register ['k'], .send 0 (.ok ()),
    .resubscribe ['k'], .remove 0, .register ['k'], .drop_guard 0] _ rfl
  rcases h ⟨0, none⟩ List.mem_cons_self ['k'] _ rfl with ⟨-, hclosed⟩ | ⟨sent, hsent, -⟩
  · exact hclosed
  · cases hsent

end HybridCache.Inflight
