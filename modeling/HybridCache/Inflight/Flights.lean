/-
Flights: fetches that other requests wait for (`inflight_tracker.rs`).

The first request under a flight key becomes the fetcher and the later ones wait for it. The key of
a full-object request is the cache key itself; the others append a colon and the range or the part,
and an object key can end like that. Two requests of different kinds then have one flight key
(`Clash`).
-/
import HybridCache.Lib.Directory
import HybridCache.Lib.Path
import HybridCache.Lib.Text
import HybridCache.Lib.Transition

namespace HybridCache.Inflight

open Lib

/-! ## The model -/

def make_full_key (cache_key : List Char) : List Char :=
  cache_key

def make_range_key (cache_key : List Char) (start end_ : ℕ) : List Char :=
  cache_key ++ ':' :: (Nat.toDigits 10 start ++ '-' :: Nat.toDigits 10 end_)

def make_part_key (cache_key : List Char) (part_number : ℕ) : List Char :=
  cache_key ++ ':' :: ("part".toList ++ Nat.toDigits 10 part_number)

/-- What is asked for: an object, a range of it, or a part of it. -/
inductive FlightRequest where
  | full (cache_key : List Char)
  | range (cache_key : List Char) (start end_ : ℕ)
  | part (cache_key : List Char) (part_number : ℕ)
deriving DecidableEq, Repr

def FlightRequest.flight_key : FlightRequest → List Char
  | .full cache_key => make_full_key cache_key
  | .range cache_key start end_ => make_range_key cache_key start end_
  | .part cache_key part_number => make_part_key cache_key part_number

/-- `FetchRole`, with the channel that the fetcher sends on and a waiter listens to. -/
inductive FetchRole where
  | Fetcher (channel : ℕ)
  | Waiter (channel : ℕ)
deriving DecidableEq, Repr

def FetchRole.channel : FetchRole → ℕ
  | .Fetcher channel => channel
  | .Waiter channel => channel

/-- The pending fetches by flight key, the number of channels that were made, and which request
is on which channel. -/
structure TrackerState where
  pending : Directory (List Char) ℕ
  channels : ℕ
  joined : List (FlightRequest × ℕ)

inductive TrackerEvent where
  | register (request : FlightRequest)
  | resubscribe (request : FlightRequest)
  | complete (flight_key : List Char)

open TrackerState

namespace TrackerState

def init : TrackerState :=
  ⟨.empty, 0, []⟩

def try_register (s : TrackerState) (flight_key : List Char) : FetchRole × TrackerState :=
  match s.pending.get? flight_key with
  | some channel => (.Waiter channel, s)
  | none =>
    (.Fetcher s.channels,
      { s with pending := s.pending.put flight_key s.channels, channels := s.channels + 1 })

def try_resubscribe (s : TrackerState) (flight_key : List Char) : Option ℕ :=
  s.pending.get? flight_key

def join (s : TrackerState) (request : FlightRequest) (channel : ℕ) : TrackerState :=
  { s with joined := (request, channel) :: s.joined }

def step (s : TrackerState) : TrackerEvent → Option TrackerState
  | .register request =>
    let (role, s') := s.try_register request.flight_key
    some (s'.join request role.channel)
  | .resubscribe request => (s.try_resubscribe request.flight_key).map (s.join request)
  | .complete flight_key =>
    (s.pending.get? flight_key).map fun _ => { s with pending := s.pending.erase flight_key }

def Coalesced (s : TrackerState) (a b : FlightRequest) : Prop :=
  ∃ channel, (a, channel) ∈ s.joined ∧ (b, channel) ∈ s.joined

/-! ## Requests on one channel -/

/-- Every channel that was made is for one flight key. -/
structure KeyedBy (s : TrackerState) (key_of : ℕ → List Char) : Prop where
  pending : ∀ flight_key channel, s.pending.get? flight_key = some channel →
    channel < s.channels ∧ key_of channel = flight_key
  joined : ∀ request channel, (request, channel) ∈ s.joined →
    channel < s.channels ∧ key_of channel = request.flight_key

section Steps

variable {s s' : TrackerState} {key_of : ℕ → List Char} {request : FlightRequest} {channel : ℕ}

section

variable (h : s.KeyedBy key_of)

include h

theorem KeyedBy.join (hpending : s.pending.get? request.flight_key = some channel) :
    (s.join request channel).KeyedBy key_of where
  pending := h.pending
  joined := by
    intro request' channel' hmem
    rcases List.mem_cons.mp hmem with heq | hmem
    · obtain ⟨rfl, rfl⟩ := Prod.mk.inj heq
      exact h.pending _ _ hpending
    · exact h.joined request' channel' hmem

theorem KeyedBy.try_register (flight_key : List Char) :
    ∃ key_of', (s.try_register flight_key).2.KeyedBy key_of' ∧
      (s.try_register flight_key).2.pending.get? flight_key =
        some (s.try_register flight_key).1.channel := by
  unfold TrackerState.try_register
  cases hfound : s.pending.get? flight_key with
  | some channel => exact ⟨key_of, h, hfound⟩
  | none =>
    refine ⟨Function.update key_of s.channels flight_key, ⟨?_, ?_⟩, Directory.get?_put_self ..⟩
    · intro flight_key' channel hpending
      by_cases hkey : flight_key' = flight_key
      · rw [hkey, Directory.get?_put_self] at hpending
        rw [← Option.some.inj hpending, Function.update_self]
        exact ⟨Nat.lt_succ_self _, hkey.symm⟩
      · rw [Directory.get?_put_ne _ hkey] at hpending
        obtain ⟨hlt, heq⟩ := h.pending _ _ hpending
        rw [Function.update_of_ne hlt.ne]
        exact ⟨Nat.lt_succ_of_lt hlt, heq⟩
    · intro request channel hmem
      obtain ⟨hlt, heq⟩ := h.joined _ _ hmem
      rw [Function.update_of_ne hlt.ne]
      exact ⟨Nat.lt_succ_of_lt hlt, heq⟩

theorem KeyedBy.complete (flight_key : List Char) :
    KeyedBy { s with pending := s.pending.erase flight_key } key_of where
  pending := by
    intro flight_key' channel hpending
    by_cases hkey : flight_key' = flight_key
    · rw [hkey, Directory.get?_erase_self] at hpending
      cases hpending
    · rw [Directory.get?_erase_ne _ hkey] at hpending
      exact h.pending _ _ hpending
  joined := h.joined

theorem KeyedBy.step {event : TrackerEvent} (hstep : s.step event = some s') :
    ∃ key_of', s'.KeyedBy key_of' := by
  cases event with
  | register request =>
    cases hstep
    obtain ⟨key_of', hkeyed, hpending⟩ := h.try_register request.flight_key
    exact ⟨key_of', hkeyed.join hpending⟩
  | resubscribe request =>
    obtain ⟨channel, hchannel, rfl⟩ := Option.map_eq_some_iff.mp hstep
    exact ⟨key_of, h.join hchannel⟩
  | complete flight_key =>
    obtain ⟨channel, -, rfl⟩ := Option.map_eq_some_iff.mp hstep
    exact ⟨key_of, h.complete flight_key⟩

end

theorem flight_key_eq_of_coalesced {events : List TrackerEvent} {a b : FlightRequest}
    (hrun : run step init events = some s) (h : s.Coalesced a b) : a.flight_key = b.flight_key := by
  have hinit : init.KeyedBy fun _ => [] := ⟨by simp [init], by simp [init]⟩
  have hkeyed : ∃ key_of, s.KeyedBy key_of := by
    refine @run_invariant _ _ step (fun _ _ => True) (fun s => ∃ key_of, s.KeyedBy key_of) ?_ _ _ _
      ⟨_, hinit⟩ (guarded_of_forall fun _ _ => trivial) hrun
    rintro s event s' ⟨key_of, hs⟩ - hstep
    exact hs.step hstep
  obtain ⟨key_of, hkeyed⟩ := hkeyed
  obtain ⟨channel, ha, hb⟩ := h
  rw [← (hkeyed.joined a channel ha).2, ← (hkeyed.joined b channel hb).2]

theorem step_register_of_pending (h : s.pending.get? request.flight_key = some channel) :
    s.step (.register request) = some (s.join request channel) := by
  simp only [step, try_register, h]
  rfl

theorem coalesced_of_flight_key_eq {a b : FlightRequest} (h : a.flight_key = b.flight_key) :
    ∃ s, run step init [.register a, .register b] = some s ∧ s.Coalesced a b := by
  let first : TrackerState := ⟨Directory.empty.put a.flight_key 0, 1, [(a, 0)]⟩
  have hfirst : init.step (.register a) = some first := rfl
  have hpending : first.pending.get? b.flight_key = some 0 := by
    rw [← h]
    exact Directory.get?_put_self ..
  refine ⟨first.join b 0, ?_, 0, List.mem_cons_of_mem _ List.mem_cons_self, List.mem_cons_self⟩
  exact run_cons.mpr ⟨first, hfirst, run_cons.mpr ⟨_, step_register_of_pending hpending, rfl⟩⟩

end Steps

end TrackerState

/-! ## Flight keys -/

section Keys

variable {key key' : List Char} {start end_ start' end_' n n' : ℕ}

theorem not_mem_range_text {c : Char} (hc : c.isDigit = false) (hdash : c ≠ '-') :
    c ∉ Nat.toDigits 10 start ++ '-' :: Nat.toDigits 10 end_ := by
  rw [List.mem_append, List.mem_cons]
  rintro (hmem | heq | hmem)
  · exact not_mem_toDigits hc hmem
  · exact hdash heq
  · exact not_mem_toDigits hc hmem

theorem colon_not_mem_part_text : ':' ∉ "part".toList ++ Nat.toDigits 10 n := by
  rw [List.mem_append]
  rintro (hmem | hmem)
  · exact absurd hmem (by decide)
  · exact not_mem_toDigits (by decide) hmem

theorem make_range_key_inj (h : make_range_key key start end_ = make_range_key key' start' end_') :
    key = key' ∧ start = start' ∧ end_ = end_' := by
  obtain ⟨hkey, htext⟩ := append_last_cancel (not_mem_range_text (by decide) (by decide))
    (not_mem_range_text (by decide) (by decide)) h
  obtain ⟨hstart, hend⟩ :=
    append_last_cancel (not_mem_toDigits (by decide)) (not_mem_toDigits (by decide)) htext
  exact ⟨hkey, toDigits_injective hstart, toDigits_injective hend⟩

theorem make_part_key_inj (h : make_part_key key n = make_part_key key' n') :
    key = key' ∧ n = n' := by
  obtain ⟨hkey, htext⟩ := append_last_cancel colon_not_mem_part_text colon_not_mem_part_text h
  exact ⟨hkey, toDigits_injective (List.append_cancel_left htext)⟩

theorem make_range_key_ne_make_part_key : make_range_key key start end_ ≠ make_part_key key' n := by
  intro h
  obtain ⟨-, htext⟩ := append_last_cancel (not_mem_range_text (by decide) (by decide))
    colon_not_mem_part_text h
  have hp : 'p' ∉ Nat.toDigits 10 start ++ '-' :: Nat.toDigits 10 end_ :=
    not_mem_range_text (by decide) (by decide)
  rw [htext] at hp
  exact hp (List.mem_append_left _ (by decide))

end Keys

/-- A full-object request whose object ends like the range or the part that the other request is
for, behind the other's object. -/
def FlightRequest.EndsLike : FlightRequest → FlightRequest → Prop
  | .full path, .range cache_key start end_ => path = make_range_key cache_key start end_
  | .full path, .part cache_key part_number => path = make_part_key cache_key part_number
  | _, _ => False

def Clash (a b : FlightRequest) : Prop :=
  a.EndsLike b ∨ b.EndsLike a

open FlightRequest

/-- **Which requests share a flight key.** -/
theorem flight_key_eq_iff (a b : FlightRequest) :
    a.flight_key = b.flight_key ↔ a = b ∨ Clash a b := by
  constructor
  · intro h
    cases a with
    | full path =>
      cases b with
      | full path' => exact Or.inl (congrArg full h)
      | range key start end_ | part key n => exact Or.inr (Or.inl h)
    | range key start end_ =>
      cases b with
      | full path => exact Or.inr (Or.inr h.symm)
      | range key' start' end_' =>
        obtain ⟨rfl, rfl, rfl⟩ := make_range_key_inj h
        exact Or.inl rfl
      | part key' n => exact absurd h make_range_key_ne_make_part_key
    | part key n =>
      cases b with
      | full path => exact Or.inr (Or.inr h.symm)
      | range key' start end_ =>
        exact absurd h.symm make_range_key_ne_make_part_key
      | part key' n' =>
        obtain ⟨rfl, rfl⟩ := make_part_key_inj h
        exact Or.inl rfl
  · rintro (rfl | hclash | hclash)
    · rfl
    · unfold FlightRequest.EndsLike at hclash
      split at hclash
      · exact hclash
      · exact hclash
      · exact hclash.elim
    · unfold FlightRequest.EndsLike at hclash
      split at hclash
      · exact hclash.symm
      · exact hclash.symm
      · exact hclash.elim

theorem Clash.ne {a b : FlightRequest} (h : Clash a b) : a ≠ b := by
  rintro rfl
  rcases h with h | h <;> cases a <;> exact h

/-- **Requests on one flight are for the same thing**, exactly if none of the two is for an object
that ends like the other's range or part. -/
theorem coalesced_same_iff_not_clash (a b : FlightRequest) :
    ((a.flight_key = b.flight_key → a = b) ∧
      ∀ events s, run step .init events = some s → s.Coalesced a b → a = b) ↔
      ¬ Clash a b := by
  constructor
  · rintro ⟨hkey, -⟩ hclash
    exact hclash.ne (hkey ((flight_key_eq_iff a b).mpr (Or.inr hclash)))
  · intro hclash
    have hkey : a.flight_key = b.flight_key → a = b := by
      intro heq
      exact ((flight_key_eq_iff a b).mp heq).resolve_right hclash
    refine ⟨hkey, ?_⟩
    intro events s hrun hcoalesced
    exact hkey (flight_key_eq_of_coalesced hrun hcoalesced)

/-- A request for an object that ends in a range waits for that range of another object. -/
theorem object_waits_for_range :
    (full "b/a:0-5".toList).flight_key =
        (range "b/a".toList 0 5).flight_key ∧
      (full "b/a:0-5".toList) ≠ .range "b/a".toList 0 5 ∧
      ∃ s, run step .init [.register (.range "b/a".toList 0 5),
          .register (.full "b/a:0-5".toList)] = some s ∧
        s.Coalesced (.range "b/a".toList 0 5) (.full "b/a:0-5".toList) := by
  have hkey : (full "b/a:0-5".toList).flight_key =
      (range "b/a".toList 0 5).flight_key := by
    decide +kernel
  exact ⟨hkey, by simp, coalesced_of_flight_key_eq hkey.symm⟩

end HybridCache.Inflight
