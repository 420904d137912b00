/-
The throttled stream and the tokens granted to it (`throttle_stream.rs`).

A frame is paid from the balance of the last lease or from a new one. If the bucket has too few
tokens it waits until its request is served, and goes through unpaid when that takes too long. The
balance is not added to a new lease but replaced by it, and nobody takes back what is granted to a
frame that went through unpaid or to a dropped stream.

`granted`, `charged` and `refunded` count bytes of tokens beside the stream.
-/
import HybridCache.Bandwidth.RoundRobin

namespace HybridCache.Bandwidth

open Lib Option

/-- A frame that waits, with its request for tokens. -/
structure PendingGrant where
  frame : ℕ
  lease : ℕ
  /-- The grant is in the channel. -/
  sent : Bool
  pos : 0 < lease
  covers : frame ≤ lease

structure ThrottleStream where
  local_balance : ℕ
  known_len : Option ℕ
  bytes_consumed : ℕ
  pending : Option PendingGrant
  dropped : Bool
  abandoned : List ℕ
  granted : ℕ
  charged : ℕ
  refunded : ℕ

/-- What the inner stream yields, a data frame by its length. -/
inductive InnerPoll where
  | data (n : ℕ)
  | other
  | error
  | done
  | pending

/-- What a poll finds: whether the timeout has fired and the channel was closed, the inner stream,
the limiter. -/
structure PollView where
  timed_out : Bool
  closed : Bool
  inner : InnerPoll
  disabled : Bool
  available_tokens : ℕ

inductive ThrottleEvent where
  | poll (view : PollView)
  /-- The task takes tokens for the frame that waits. -/
  | serve
  /-- The task takes tokens for a request that was given up. -/
  | serve_abandoned (bytes : ℕ)
  | drop

def desired_lease (n : ℕ) (known_len : Option ℕ) (bytes_consumed : ℕ) : ℕ :=
  max (match known_len with
    | some total => min LEASE_QUANTUM (total - bytes_consumed)
    | none => if bytes_consumed < LEASE_QUANTUM then n else LEASE_QUANTUM) n

namespace ThrottleStream

def new (known_len : Option ℕ) : ThrottleStream :=
  ⟨0, known_len, 0, none, false, [], 0, 0, 0⟩

def deliver (s : ThrottleStream) (n : ℕ) : ThrottleStream :=
  { s with bytes_consumed := s.bytes_consumed + n }

def charge (s : ThrottleStream) (n : ℕ) : ThrottleStream :=
  { s.deliver n with charged := s.charged + n }

def refund (s : ThrottleStream) : ThrottleStream :=
  { s with local_balance := 0, refunded := s.refunded + s.local_balance }

/-- The receiver is dropped. The request stays in the queue unless it was served. -/
def abandon (s : ThrottleStream) : ThrottleStream :=
  { s with
    pending := none
    abandoned := s.pending.elim s.abandoned fun p =>
      if p.sent then s.abandoned else p.lease :: s.abandoned }

def poll_grant (s : ThrottleStream) (p : PendingGrant) (view : PollView) : ThrottleStream :=
  if view.timed_out then s.abandon.deliver p.frame
  else if p.sent then
    { s with pending := none, local_balance := p.lease - p.frame }.charge p.frame
  else if view.closed then { s with pending := none }.deliver p.frame
  else s

def pay (s : ThrottleStream) (n : ℕ) (view : PollView) : ThrottleStream :=
  if hn : n = 0 then s
  else if view.disabled then s.deliver n
  else if n ≤ s.local_balance then { s with local_balance := s.local_balance - n }.charge n
  else if view.available_tokens < n then
    { s with pending := some ⟨n, n, false, Nat.pos_of_ne_zero hn, le_rfl⟩ }
  else
    -- `try_acquire` grants at least the frame, and at most the desired lease
    let granted := min view.available_tokens (desired_lease n s.known_len s.bytes_consumed)
    { s with local_balance := granted - n, granted := s.granted + granted }.charge n

def poll_next (s : ThrottleStream) (view : PollView) : ThrottleStream :=
  match s.pending with
  | some p => s.poll_grant p view
  | none =>
    match view.inner with
    | .data n => s.pay n view
    | .error | .done => s.refund
    | .other | .pending => s

def step (s : ThrottleStream) : ThrottleEvent → Option ThrottleStream
  | .poll view => if s.dropped then none else some (s.poll_next view)
  | .serve => s.pending.bind fun p =>
    if p.sent then none
    else some { s with pending := some { p with sent := true }, granted := s.granted + p.lease }
  | .serve_abandoned bytes =>
    if bytes ∈ s.abandoned then
      some { s with abandoned := s.abandoned.erase bytes, granted := s.granted + bytes }
    else none
  | .drop => if s.dropped then none else some { s.refund.abandon with dropped := true }

def sent_lease (s : ThrottleStream) : ℕ :=
  s.pending.elim 0 fun p => if p.sent then p.lease else 0

/-- Every token granted was charged, is held or was refunded. -/
def Accounted (s : ThrottleStream) : Prop :=
  s.granted = s.charged + (s.local_balance + s.sent_lease) + s.refunded

/-- The balance is used up when a new lease arrives, and no grant goes to a frame or a stream that
does not wait for it. -/
def Awaited (s : ThrottleStream) : ThrottleEvent → Prop
  | .poll view =>
    match s.pending with
    | some p => p.sent → view.timed_out = false ∧ s.local_balance = 0
    | none => ∀ n, view.inner = .data n → view.disabled = false → s.local_balance < n →
        n ≤ view.available_tokens → s.local_balance = 0
  | .serve => True
  | .serve_abandoned bytes => bytes = 0
  | .drop => ∀ p ∈ s.pending, p.sent = false

variable {s s' : ThrottleStream} {event : ThrottleEvent}

theorem le_desired_lease (n : ℕ) (known_len : Option ℕ) (bytes_consumed : ℕ) :
    n ≤ desired_lease n known_len bytes_consumed :=
  le_max_right _ _

/-- A poll with a frame that waits loses what was granted on a timeout, and the old balance with a
grant. -/
theorem Accounted.poll_grant_iff (h : s.Accounted) {p : PendingGrant} (hp : s.pending = some p)
    (view : PollView) :
    (s.poll_grant p view).Accounted ↔ (p.sent → view.timed_out = false ∧ s.local_balance = 0) := by
  have hpos := p.pos
  have hcovers := p.covers
  simp only [Accounted, sent_lease, hp, elim_some] at h
  rw [poll_grant]
  split
  case isTrue htimeout =>
    simp only [Accounted, sent_lease, deliver, abandon, elim_none, htimeout]
    cases hsent : p.sent with
    | false => simp_all
    | true =>
      simp only [hsent, if_true] at h
      simp only [Bool.true_eq_false, false_and, imp_false, not_true_eq_false, iff_false]
      omega
  case isFalse htimeout =>
    cases hsent : p.sent with
    | true =>
      simp only [hsent, if_true] at h
      simp only [Accounted, sent_lease, charge, deliver, if_true, elim_none, htimeout,
        forall_const, true_and]
      omega
    | false =>
      simp only [hsent, Bool.false_eq_true, if_false, false_implies, iff_true] at h ⊢
      split
      · exact h
      · simpa only [Accounted, sent_lease, hp, elim_some, hsent, Bool.false_eq_true,
          if_false] using h

/-- A new frame loses the balance only if it takes a new lease at once. -/
theorem Accounted.pay_iff (h : s.Accounted) (hp : s.pending = none) (n : ℕ) (view : PollView) :
    (s.pay n view).Accounted ↔
      (view.disabled = false → s.local_balance < n → n ≤ view.available_tokens →
        s.local_balance = 0) := by
  have hlease := le_desired_lease n s.known_len s.bytes_consumed
  have hcount := h
  simp only [Accounted, sent_lease, hp, elim_none] at hcount
  rw [pay]
  split_ifs with hzero hdisabled hbalance hfew
  · exact iff_of_true h (by omega)
  · exact iff_of_true h (by simp [hdisabled])
  · refine iff_of_true ?_ (by omega)
    simp only [Accounted, sent_lease, charge, deliver, hp, elim_none]
    omega
  · exact iff_of_true hcount (by omega)
  · simp only [Accounted, sent_lease, charge, deliver, hp, elim_none]
    generalize desired_lease n s.known_len s.bytes_consumed = desired at hlease
    have hdisabled : view.disabled = false := by simpa using hdisabled
    simp only [hdisabled, true_implies]
    omega

theorem Accounted.refund (h : s.Accounted) : s.refund.Accounted := by
  simp only [Accounted, ThrottleStream.refund, sent_lease] at h ⊢
  omega

/-- A step keeps the account exactly if no tokens are lost in it. -/
theorem Accounted.step_iff (h : s.Accounted) (hstep : s.step event = some s') :
    s'.Accounted ↔ s.Awaited event := by
  cases event with
  | poll view =>
    obtain ⟨_, ⟨⟩⟩ := ite_none_left_eq_some.mp hstep
    rw [poll_next, Awaited]
    split
    · exact h.poll_grant_iff ‹_› view
    · split
      case h_1 n hinner => simpa [hinner] using h.pay_iff ‹_› n view
      all_goals simp_all [h.refund]
  | serve =>
    obtain ⟨p, hp, hserve⟩ := bind_eq_some_iff.mp hstep
    obtain ⟨hsent, ⟨⟩⟩ := ite_none_left_eq_some.mp hserve
    simp only [Accounted, sent_lease, hp, elim_some, hsent, if_true, Bool.false_eq_true,
      if_false, Awaited, iff_true] at h ⊢
    omega
  | serve_abandoned bytes =>
    obtain ⟨_, ⟨⟩⟩ := ite_none_right_eq_some.mp hstep
    simp only [Accounted, sent_lease, Awaited] at h ⊢
    omega
  | drop =>
    obtain ⟨_, ⟨⟩⟩ := ite_none_left_eq_some.mp hstep
    simp only [Accounted, sent_lease, Awaited, ThrottleStream.refund, abandon, elim_none]
      at h ⊢
    cases hp : s.pending with
    | none =>
      simp only [hp, elim_none] at h
      simp only [reduceCtorEq, mem_def, false_implies, implies_true, iff_true]
      omega
    | some p =>
      have hpos := p.pos
      simp only [hp, elim_some] at h
      cases hsent : p.sent <;> simp_all <;> omega

/-- **Along a run every token granted to the stream is accounted for exactly if the balance is
used up whenever a new lease arrives, and every grant finds its frame waiting.** -/
theorem tokens_accounted_iff {known_len : Option ℕ} {events : List ThrottleEvent}
    (hrun : run step (new known_len) events = some s) :
    (∀ n s₁, run step (new known_len) (events.take n) = some s₁ → s₁.Accounted) ↔
      Guarded step Awaited (new known_len) events :=
  run_forall_iff_guarded Accounted Accounted (fun _ h => h)
    (fun _ _ _ h hguard hstep => (h.step_iff hstep).mpr hguard)
    (fun _ _ _ h hstep h' => (h.step_iff hstep).mp h') rfl hrun

end ThrottleStream

def poll_frame (available_tokens : ℕ) : ThrottleEvent :=
  .poll ⟨false, false, .data 10, false, available_tokens⟩

/-- A frame leaves 5 bytes of its lease, and the lease of the next one replaces them. -/
theorem balance_replaced :
    ∃ s, run ThrottleStream.step (ThrottleStream.new (some 100))
        [poll_frame 15, poll_frame 50] = some s ∧
      s.granted = 65 ∧ s.charged = 20 ∧ s.local_balance = 40 ∧ s.sent_lease = 0 ∧
      s.refunded = 0 :=
  ⟨_, rfl, rfl, rfl, rfl, rfl, rfl⟩

/-- The lease is used up by the second frame. -/
theorem two_frames_accounted :
    ∃ s, run ThrottleStream.step (ThrottleStream.new (some 100))
        [poll_frame 25, poll_frame 0, .drop] = some s ∧ s.Accounted := by
  have hguard : Guarded ThrottleStream.step ThrottleStream.Awaited (ThrottleStream.new (some 100))
      [poll_frame 25, poll_frame 0, .drop] := by
    refine ⟨fun _ _ _ _ _ => rfl, ?_⟩
    rintro _ ⟨⟩
    refine ⟨?_, ?_⟩
    · rintro _ ⟨⟩ _ hbalance
      exact absurd hbalance (by decide)
    · rintro _ ⟨⟩
      exact ⟨by rintro _ ⟨⟩, fun _ _ => trivial⟩
  exact ⟨_, rfl, (ThrottleStream.tokens_accounted_iff rfl).mpr hguard 3 _ rfl⟩

end HybridCache.Bandwidth
