/-
The tee stream and its idle watchdog (`tee_stream.rs`).

The watchdog is a deadline: the time of the last frame, or of the end of the last wait for the
cache channel, plus the timeout. It passes just as well while nobody polls, and it is looked at
before the upstream is polled, so a client that is slow to come back aborts a stream whose next
frame is there (`slow_client_aborts`). And an abort ends the stream without an error.

A poll has one time. What the channel, the upstream and the timer answer is an input of each poll.
-/
import HybridCache.Lib.Transition

namespace HybridCache.Tee

open Lib

/-! ## The model -/

inductive Frame (τ : Type) where
  | data (bytes : List UInt8)
  | other (frame : τ)
deriving DecidableEq, Repr

inductive Polled (τ ε : Type) where
  | frame (frame : Frame τ)
  | error (e : ε)
  | done
  | pending
deriving DecidableEq, Repr

inductive SendPolled where
  | sent
  | closed
  | pending
deriving DecidableEq, Repr

inductive TrySend where
  | ok
  | full
  | closed
deriving DecidableEq, Repr

/-- One poll: its time and what it finds. `pending_send` is what a send of an earlier poll gives,
and `first_send` what the send of this one does. -/
structure PollEnv (τ ε : Type) where
  now : ℕ
  pending_send : SendPolled
  inner : Polled τ ε
  try_send : TrySend
  first_send : SendPolled

/-- `TeeStream`. A pending send is there exactly if its frame is; `sender` has the chunks that the
channel has taken. -/
structure TeeStream where
  sender : List (List UInt8)
  bytes_sent : ℕ
  pending_frame : Option (List UInt8)
  backpressure_wait : ℕ
  backpressure_start : Option ℕ
  backpressure_events : ℕ
  channel_closed : Bool
  idle_timeout : Option ℕ
  idle_sleep : Option ℕ
  idle_aborted : Bool
deriving DecidableEq, Repr

namespace TeeStream

def new : TeeStream :=
  ⟨[], 0, none, 0, none, 0, false, none, none, false⟩

def with_idle_timeout (now idle_timeout : ℕ) : TeeStream :=
  { new with idle_timeout := some idle_timeout, idle_sleep := some (now + idle_timeout) }

def was_idle_aborted (s : TeeStream) : Bool :=
  s.idle_aborted

def send (s : TeeStream) (bytes : List UInt8) : TeeStream :=
  { s with sender := s.sender ++ [bytes] }

def reset_idle (s : TeeStream) (now : ℕ) : TeeStream :=
  match s.idle_timeout with
  | some timeout => { s with idle_sleep := some (now + timeout) }
  | none => s

def end_backpressure (s : TeeStream) (now : ℕ) : TeeStream :=
  { s with
    backpressure_wait := s.backpressure_wait + (s.backpressure_start.elim 0 (now - ·))
    backpressure_start := none
    pending_frame := none }

section Poll

variable {τ ε : Type}

def poll_pending (s : TeeStream) (env : PollEnv τ ε) (bytes : List UInt8) :
    Polled τ ε × TeeStream :=
  match env.pending_send with
  | .sent => (.frame (.data bytes), ((s.end_backpressure env.now).send bytes).reset_idle env.now)
  | .closed =>
    (.frame (.data bytes),
      ({ s.end_backpressure env.now with channel_closed := true }).reset_idle env.now)
  | .pending => (.pending, s)

/-- A data frame goes to the channel: at once, later, or not at all if that is closed. -/
def tee (s : TeeStream) (env : PollEnv τ ε) (bytes : List UInt8) : Polled τ ε × TeeStream :=
  let s := { s with bytes_sent := s.bytes_sent + bytes.length }
  if s.channel_closed then (.frame (.data bytes), s)
  else
    match env.try_send with
    | .ok => (.frame (.data bytes), s.send bytes)
    | .full =>
      let s := { s with
        backpressure_events := s.backpressure_events + 1
        backpressure_start := some env.now
        pending_frame := some bytes }
      match env.first_send with
      | .sent => (.frame (.data bytes), (s.end_backpressure env.now).send bytes)
      | .closed =>
        (.frame (.data bytes), { s.end_backpressure env.now with channel_closed := true })
      | .pending => (.pending, s)
    | .closed => (.frame (.data bytes), { s with channel_closed := true })

def poll_inner (s : TeeStream) (env : PollEnv τ ε) : Polled τ ε × TeeStream :=
  match env.inner with
  | .frame (.data bytes) => (s.reset_idle env.now).tee env bytes
  | .frame (.other frame) => (.frame (.other frame), s.reset_idle env.now)
  | .error e => (.error e, s)
  | .done => (.done, s)
  | .pending => (.pending, s)

def Fired (s : TeeStream) (now : ℕ) : Prop :=
  ∃ deadline ∈ s.idle_sleep, deadline ≤ now

instance (s : TeeStream) (now : ℕ) : Decidable (s.Fired now) :=
  inferInstanceAs (Decidable (∃ deadline ∈ s.idle_sleep, deadline ≤ now))

def poll_next (s : TeeStream) (env : PollEnv τ ε) : Polled τ ε × TeeStream :=
  match s.pending_frame with
  | some bytes => s.poll_pending env bytes
  | none =>
    if s.Fired env.now then (.done, { s with idle_aborted := true })
    else s.poll_inner env

/-- The poll finds no send pending and the watchdog fired. -/
def Due (s : TeeStream) (env : PollEnv τ ε) : Prop :=
  s.pending_frame = none ∧ s.Fired env.now

instance (s : TeeStream) (env : PollEnv τ ε) : Decidable (s.Due env) :=
  inferInstanceAs (Decidable (_ ∧ _))

/-! ## One poll -/

variable {s : TeeStream} {env : PollEnv τ ε}

theorem poll_next_of_due (h : s.Due env) :
    s.poll_next env = (.done, { s with idle_aborted := true }) := by
  rw [poll_next, h.1]
  exact if_pos h.2

variable {bytes : List UInt8}

theorem poll_next_of_pending (h : s.pending_frame = some bytes) :
    s.poll_next env = s.poll_pending env bytes := by
  rw [poll_next, h]

theorem poll_next_of_not_fired (hframe : s.pending_frame = none) (hfired : ¬ s.Fired env.now) :
    s.poll_next env = s.poll_inner env := by
  rw [poll_next, hframe]
  exact if_neg hfired

@[simp] theorem idle_aborted_reset_idle (now : ℕ) :
    (s.reset_idle now).idle_aborted = s.idle_aborted := by
  unfold reset_idle
  split
  case h_1 => rfl
  case h_2 => rfl

theorem idle_aborted_poll_pending : (s.poll_pending env bytes).2.idle_aborted = s.idle_aborted := by
  unfold poll_pending
  split
  case h_1 => exact idle_aborted_reset_idle _
  case h_2 => exact idle_aborted_reset_idle _
  case h_3 => rfl

theorem idle_aborted_tee : (s.tee env bytes).2.idle_aborted = s.idle_aborted := by
  unfold tee
  dsimp only
  split
  case isTrue => rfl
  case isFalse =>
    split
    case h_1 => rfl
    case h_2 => split <;> rfl
    case h_3 => rfl

theorem idle_aborted_poll_inner : (s.poll_inner env).2.idle_aborted = s.idle_aborted := by
  unfold poll_inner
  split
  case h_1 bytes => rw [idle_aborted_tee, idle_aborted_reset_idle]
  case h_2 => exact idle_aborted_reset_idle _
  all_goals rfl

theorem idle_aborted_poll_next (h : ¬ s.Due env) :
    (s.poll_next env).2.idle_aborted = s.idle_aborted := by
  cases hframe : s.pending_frame with
  | some bytes =>
    rw [poll_next_of_pending hframe]
    exact idle_aborted_poll_pending
  | none =>
    rw [poll_next_of_not_fired hframe fun hfired => h ⟨hframe, hfired⟩]
    exact idle_aborted_poll_inner

end Poll

end TeeStream

/-! ## Runs -/

/-- A stream that is polled, with what was seen of it: since when the upstream has been pending
whenever it was polled, when the last frame or the last end of a wait for the channel was, and the
last poll. -/
structure Watched (τ ε : Type) where
  stream : TeeStream
  waiting_since : Option ℕ
  last_activity : ℕ
  last_poll : ℕ
  last_result : Option (Polled τ ε)

open TeeStream

namespace Watched

variable {τ ε : Type}

def start (now idle_timeout : ℕ) : Watched τ ε :=
  ⟨.with_idle_timeout now idle_timeout, none, now, now, none⟩

/-- The poll comes to the upstream. -/
def PollsInner (s : Watched τ ε) (env : PollEnv τ ε) : Prop :=
  s.stream.pending_frame = none ∧ ¬ s.stream.Fired env.now

instance (s : Watched τ ε) (env : PollEnv τ ε) : Decidable (s.PollsInner env) :=
  inferInstanceAs (Decidable (_ ∧ _))

/-- Since when the upstream has been pending, after a poll. -/
def waiting_after (s : Watched τ ε) (env : PollEnv τ ε) : Option ℕ :=
  if s.PollsInner env then
    match env.inner with
    | .pending => some (s.waiting_since.getD env.now)
    | _ => none
  else s.waiting_since

/-- When the last frame came or the last wait ended, after a poll. -/
def activity_after (s : Watched τ ε) (env : PollEnv τ ε) : ℕ :=
  if s.PollsInner env then
    match env.inner with
    | .frame _ => env.now
    | _ => s.last_activity
  else if s.stream.pending_frame ≠ none ∧ env.pending_send ≠ .pending then env.now
  else s.last_activity

def step (s : Watched τ ε) (env : PollEnv τ ε) : Option (Watched τ ε) :=
  let polled := s.stream.poll_next env
  some ⟨polled.2, s.waiting_after env, s.activity_after env, env.now, some polled.1⟩

/-- If the stream was aborted, the upstream had been pending for the whole timeout, and the
consumer got an error. -/
def AbortsOnlyStalled (idle_timeout : ℕ) (s : Watched τ ε) : Prop :=
  s.stream.was_idle_aborted = true →
    (∃ since, s.waiting_since = some since ∧ since + idle_timeout ≤ s.last_poll) ∧
      ∃ e, s.last_result = some (.error e)

variable {polls : List (PollEnv τ ε)} {s : Watched τ ε} {env : PollEnv τ ε} {idle_timeout now : ℕ}

theorem run_step_isSome (s : Watched τ ε) (polls : List (PollEnv τ ε)) :
    ∃ s', run step s polls = some s' := by
  induction polls generalizing s with
  | nil => exact ⟨s, rfl⟩
  | cons env polls ih =>
    obtain ⟨s', hs'⟩ := ih _
    exact ⟨s', run_cons.mpr ⟨_, rfl, hs'⟩⟩

/-! ### When the watchdog fires -/

/-- The watchdog of a stream runs from a time. -/
structure Armed (idle_timeout : ℕ) (stream : TeeStream) (since : ℕ) : Prop where
  timeout : stream.idle_timeout = some idle_timeout
  deadline : stream.idle_sleep = some (since + idle_timeout)

section Armed

variable {idle_timeout since : ℕ} {stream : TeeStream} {env : PollEnv τ ε}

theorem armed_reset_idle (stream : TeeStream) (h : stream.idle_timeout = some idle_timeout)
    (now : ℕ) : Armed idle_timeout (stream.reset_idle now) now := by
  have hreset : stream.reset_idle now =
      { stream with idle_sleep := some (now + idle_timeout) } := by
    rw [reset_idle, h]
  rw [hreset]
  exact ⟨h, rfl⟩

section

variable (h : Armed idle_timeout stream since)

include h

theorem Armed.tee (bytes : List UInt8) : Armed idle_timeout (stream.tee env bytes).2 since := by
  unfold TeeStream.tee
  dsimp only
  split
  case isTrue => exact ⟨h.timeout, h.deadline⟩
  case isFalse =>
    split
    case h_1 => exact ⟨h.timeout, h.deadline⟩
    case h_2 => split <;> exact ⟨h.timeout, h.deadline⟩
    case h_3 => exact ⟨h.timeout, h.deadline⟩

theorem Armed.poll_pending (bytes : List UInt8) :
    Armed idle_timeout (stream.poll_pending env bytes).2
      (if env.pending_send = .pending then since else env.now) := by
  unfold TeeStream.poll_pending
  split
  case h_1 hsend =>
    rw [hsend, if_neg nofun]
    exact armed_reset_idle ((stream.end_backpressure env.now).send bytes) h.timeout env.now
  case h_2 hsend =>
    rw [hsend, if_neg nofun]
    exact armed_reset_idle { stream.end_backpressure env.now with channel_closed := true }
      h.timeout env.now
  case h_3 hsend =>
    rw [hsend, if_pos rfl]
    exact h

theorem Armed.poll_inner :
    Armed idle_timeout (stream.poll_inner env).2
      (match env.inner with
        | .frame _ => env.now
        | _ => since) := by
  unfold TeeStream.poll_inner
  split
  case h_1 bytes hinner =>
    rw [hinner]
    exact (armed_reset_idle _ h.timeout env.now).tee bytes
  case h_2 frame hinner =>
    rw [hinner]
    exact armed_reset_idle _ h.timeout env.now
  case h_3 e hinner =>
    rw [hinner]
    exact h
  case h_4 hinner =>
    rw [hinner]
    exact h
  case h_5 hinner =>
    rw [hinner]
    exact h

end

end Armed

theorem armed_step {s' : Watched τ ε} (h : Armed idle_timeout s.stream s.last_activity)
    (hstep : s.step env = some s') : Armed idle_timeout s'.stream s'.last_activity := by
  cases hstep
  unfold activity_after
  cases hframe : s.stream.pending_frame with
  | some bytes =>
    have hnot : ¬ s.PollsInner env := by
      rintro ⟨hnone, -⟩
      rw [hframe] at hnone
      cases hnone
    have hpending := @Armed.poll_pending τ ε _ _ _ env h bytes
    rw [poll_next_of_pending hframe, if_neg hnot]
    split_ifs at hpending with hsend
    · rw [if_neg fun hand => hand.2 hsend]
      exact hpending
    · rw [if_pos ⟨Option.some_ne_none bytes, hsend⟩]
      exact hpending
  | none =>
    by_cases hfired : s.stream.Fired env.now
    · rw [poll_next_of_due ⟨hframe, hfired⟩, if_neg fun hpolls => hpolls.2 hfired,
        if_neg fun hand => hand.1 rfl]
      exact ⟨h.timeout, h.deadline⟩
    · rw [poll_next_of_not_fired hframe hfired, if_pos ⟨hframe, hfired⟩]
      exact h.poll_inner

theorem armed_start :
    Armed idle_timeout (start now idle_timeout : Watched τ ε).stream
      (start now idle_timeout : Watched τ ε).last_activity :=
  ⟨rfl, rfl⟩

/-- **The watchdog.** A poll finds it fired exactly if no send is pending and a whole timeout has
passed since the last frame came or the last wait for the channel ended. -/
theorem due_iff_silent (hrun : run step (start now idle_timeout) polls = some s) :
    s.stream.Due env ↔
      s.stream.pending_frame = none ∧ s.last_activity + idle_timeout ≤ env.now := by
  have harmed : Armed idle_timeout s.stream s.last_activity :=
    @run_invariant _ _ step (fun _ _ => True)
      (fun s => Armed idle_timeout s.stream s.last_activity)
      (fun _ _ _ h _ hstep => armed_step h hstep) _ _ polls armed_start
      (guarded_of_forall fun _ _ => trivial) hrun
  rw [Due, Fired, harmed.deadline]
  simp only [Option.mem_some_iff, exists_eq_left']

/-! ### What an abort is -/

/-- **In every run the stream is aborted only when the upstream had been pending for the whole
timeout, and with an error, exactly if no poll finds the watchdog fired.** Every abort ends the
stream without an error. -/
theorem aborts_only_stalled_iff (now idle_timeout : ℕ) (polls : List (PollEnv τ ε)) :
    (∀ n s, run step (start now idle_timeout) (polls.take n) = some s →
      s.stream.was_idle_aborted = true →
        (∃ since, s.waiting_since = some since ∧ since + idle_timeout ≤ s.last_poll) ∧
          ∃ e, s.last_result = some (.error e)) ↔
    Guarded step (fun s env => ¬ s.stream.Due env) (start now idle_timeout) polls := by
  obtain ⟨last, hlast⟩ := run_step_isSome (start now idle_timeout) polls
  refine run_forall_iff_guarded (fun s => s.stream.idle_aborted = false)
    (AbortsOnlyStalled idle_timeout) ?_ ?_ ?_ rfl hlast
  · intro s hs haborted
    rw [was_idle_aborted, hs] at haborted
    cases haborted
  · intro s env s' hs hguard hstep
    cases hstep
    exact (idle_aborted_poll_next hguard).trans hs
  · intro s env s' hs hstep hstalled hdue
    cases hstep
    have haborted : (s.stream.poll_next env).2.was_idle_aborted = true := by
      rw [poll_next_of_due hdue]
      rfl
    obtain ⟨-, e, herror⟩ := hstalled haborted
    rw [poll_next_of_due hdue] at herror
    cases herror

/-- The upstream has a frame whenever it is polled, and the client is late to come back. -/
def slow_client_polls : List (PollEnv Unit Unit) :=
  [⟨1, .pending, .frame (.data [1]), .ok, .pending⟩,
    ⟨20, .pending, .frame (.data [2]), .ok, .pending⟩]

/-- The stream ends without an error, and the upstream was never pending. -/
theorem slow_client_aborts :
    ∃ s, run step (start 0 5) slow_client_polls = some s ∧ s.stream.was_idle_aborted = true ∧
      s.waiting_since = none ∧ s.last_result = some .done :=
  ⟨_, rfl, by decide, by decide, by decide⟩

/-- One frame at time 1, with a timeout of 5. -/
theorem slow_client_due :
    ∃ s, run step (start 0 5) (slow_client_polls.take 1) = some s ∧
      ∀ env : PollEnv Unit Unit, s.stream.Due env ↔ 6 ≤ env.now := by
  refine ⟨_, rfl, fun env => ?_⟩
  exact (@due_iff_silent _ _ (slow_client_polls.take 1) _ env 5 0 rfl).trans
    ⟨And.right, fun h => ⟨rfl, h⟩⟩

end Watched

/-! ## What goes through -/

/-- A stream, with what came from upstream and what the client got. -/
structure Teed (τ ε : Type) where
  stream : TeeStream
  upstream : List (Polled τ ε)
  client : List (Polled τ ε)

/-- The poll does not find the channel closed. -/
def PollEnv.Open {τ ε : Type} (env : PollEnv τ ε) : Prop :=
  env.pending_send ≠ .closed ∧ env.try_send ≠ .closed ∧ env.first_send ≠ .closed

namespace Teed

variable {τ ε : Type}

def item : Polled τ ε → List (Polled τ ε)
  | .pending => []
  | polled => [polled]

def chunk : Polled τ ε → Option (List UInt8)
  | .frame (.data bytes) => some bytes
  | _ => none

/-- What comes from upstream in a poll. -/
def came (s : TeeStream) (env : PollEnv τ ε) : List (Polled τ ε) :=
  if s.pending_frame = none ∧ ¬ s.Fired env.now then item env.inner else []

def poll (t : Teed τ ε) (env : PollEnv τ ε) : Teed τ ε :=
  let polled := t.stream.poll_next env
  ⟨polled.2, t.upstream ++ came t.stream env, t.client ++ item polled.1⟩

/-- A frame is held only while the channel is open, and is the last that came. Nothing else is
missing in the channel until a poll finds that closed. -/
structure Through (closed : Prop) (t : Teed τ ε) : Prop where
  unwatched : t.stream.idle_timeout = none ∧ t.stream.idle_sleep = none
  held : t.stream.channel_closed = true → t.stream.pending_frame = none ∧ closed
  client : t.upstream =
    t.client ++ t.stream.pending_frame.toList.map fun bytes => .frame (.data bytes)
  channel : ∃ lost,
    t.upstream.filterMap chunk = t.stream.sender ++ t.stream.pending_frame.toList ++ lost ∧
      (t.stream.channel_closed = false → lost = [])

variable {s : TeeStream} {upstream client : List (Polled τ ε)} {closed : Prop} {bytes : List UInt8}
  {env : PollEnv τ ε}

theorem reset_idle_of_none (h : s.idle_timeout = none) (now : ℕ) : s.reset_idle now = s := by
  rw [reset_idle, h]

/-- The end of a wait: the frame goes to the client, and to the channel unless that is closed. -/
theorem Through.poll_pending (h : Through closed ⟨s, upstream, client⟩)
    (hframe : s.pending_frame = some bytes) (hclosed : ¬ env.Open → closed) :
    Through closed ⟨(s.poll_pending env bytes).2, upstream,
      client ++ item (s.poll_pending env bytes).1⟩ := by
  obtain ⟨hidle, hheld, hclient, lost, hlost, hopen⟩ := h
  have hfalse : s.channel_closed = false := by
    refine Bool.eq_false_iff.mpr fun htrue => ?_
    have hnone := (hheld htrue).1
    rw [hframe] at hnone
    cases hnone
  obtain rfl := hopen hfalse
  simp only [hframe] at hclient hlost
  unfold TeeStream.poll_pending
  split
  case h_1 hsend =>
    rw [reset_idle_of_none]
    · exact ⟨hidle, fun htrue => absurd (hfalse.symm.trans htrue) Bool.false_ne_true,
        by simpa [send, end_backpressure, item] using hclient, [],
        by simpa [send, end_backpressure] using hlost, fun _ => rfl⟩
    · exact hidle.1
  case h_2 hsend =>
    rw [reset_idle_of_none]
    · exact ⟨hidle, fun _ => ⟨rfl, hclosed fun hopen => hopen.1 hsend⟩,
        by simpa [end_backpressure, item] using hclient, [bytes],
        by simpa [end_backpressure] using hlost, nofun⟩
    · exact hidle.1
  case h_3 hsend =>
    refine ⟨hidle, hheld, ?_, [], ?_, fun _ => rfl⟩
    · simpa [hframe, item] using hclient
    · simpa [hframe] using hlost

/-- A chunk goes to the client and to the channel, waits for the channel, or is lost to it. -/
theorem Through.tee (h : Through closed ⟨s, upstream, client⟩) (hframe : s.pending_frame = none)
    (hclosed : ¬ env.Open → closed) :
    Through closed ⟨(s.tee env bytes).2, upstream ++ [.frame (.data bytes)],
      client ++ item (s.tee env bytes).1⟩ := by
  obtain ⟨hidle, hheld, hclient, lost, hlost, hopen⟩ := h
  simp only [hframe, Option.toList_none, List.map_nil, List.append_nil] at hclient hlost
  subst hclient
  unfold TeeStream.tee
  dsimp only
  split
  case isTrue htrue =>
    refine ⟨hidle, hheld, by simp [hframe, item], lost ++ [bytes], ?_, ?_⟩
    · simp [hframe, hlost, chunk]
    · exact fun hfalse => absurd (hfalse.symm.trans htrue) Bool.false_ne_true
  case isFalse hfalse =>
    obtain rfl := hopen (Bool.eq_false_iff.mpr hfalse)
    split
    case h_1 =>
      exact ⟨hidle, hheld, by simp [hframe, send, item], [], by simp [hframe, send, hlost, chunk],
        fun _ => rfl⟩
    case h_2 =>
      split
      case h_1 =>
        exact ⟨hidle, fun htrue => absurd htrue hfalse, by simp [end_backpressure, send, item], [],
          by simp [end_backpressure, send, hlost, chunk], fun _ => rfl⟩
      case h_2 hsend =>
        exact ⟨hidle, fun _ => ⟨rfl, hclosed fun hopen => hopen.2.2 hsend⟩,
          by simp [end_backpressure, item], [bytes],
            by simp [end_backpressure, hlost, chunk], nofun⟩
      case h_3 =>
        exact ⟨hidle, fun htrue => absurd htrue hfalse, by simp [item], [], by simp [hlost, chunk],
          fun _ => rfl⟩
    case h_3 hsend =>
      exact ⟨hidle, fun _ => ⟨hframe, hclosed fun hopen => hopen.2.1 hsend⟩,
        by simp [hframe, item], [bytes], by simp [hframe, hlost, chunk], nofun⟩

/-- Anything else goes to the client alone. -/
theorem Through.pass (h : Through closed ⟨s, upstream, client⟩) (hframe : s.pending_frame = none)
    {polled : Polled τ ε} (hchunk : chunk polled = none) :
    Through closed ⟨s, upstream ++ item polled, client ++ item polled⟩ := by
  obtain ⟨hidle, hheld, hclient, hchannel⟩ := h
  have hitem : (item polled).filterMap chunk = [] := by
    cases polled <;> simp [item, hchunk]
  refine ⟨hidle, hheld, ?_, by simpa [hitem] using hchannel⟩
  simp only [hframe] at hclient ⊢
  simp [hclient]

theorem Through.poll {t : Teed τ ε} (h : t.Through closed) (hclosed : ¬ env.Open → closed) :
    (t.poll env).Through closed := by
  unfold Teed.poll came
  cases hframe : t.stream.pending_frame with
  | some bytes =>
    rw [poll_next_of_pending hframe, if_neg nofun, List.append_nil]
    exact h.poll_pending hframe hclosed
  | none =>
    have hfired : ¬ t.stream.Fired env.now := by simp [Fired, h.unwatched.2]
    rw [poll_next_of_not_fired hframe hfired, if_pos ⟨rfl, hfired⟩]
    unfold poll_inner
    split
    case h_1 bytes hinner =>
      rw [hinner, reset_idle_of_none h.unwatched.1]
      exact h.tee hframe hclosed
    case h_2 frame hinner =>
      rw [hinner, reset_idle_of_none h.unwatched.1]
      exact h.pass hframe rfl
    case h_3 e hinner =>
      rw [hinner]
      exact h.pass hframe rfl
    case h_4 hinner =>
      rw [hinner]
      exact h.pass hframe rfl
    case h_5 hinner =>
      rw [hinner]
      exact h.pass hframe rfl

end Teed

end HybridCache.Tee
