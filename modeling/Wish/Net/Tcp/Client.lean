import Wish.Net.Tcp.Session
import Wish.Net.Http.Parser

/-!
# `wish::tcp::client` and the requests of `wish::http::client`

`net/transport/tcp/client.h`, `session_pool.h` and the calls of `net/app/http/client.h`: one thread
calls `request` and `connect` and in the end destroys the object; the io thread runs the handlers of
`async_connect`; `shutdown` comes from any thread. `m_session_ref` is weak: a session lives as long as
`m_objects` has it or a handler of `async_connect` holds it.

`guarded_ownSession`: the bytes of a request go to a session for its own host and port in every run
in which a request that finds a connected session is for the host and port of that session.
`unaborted_iff`: the runs in which the client does not end the process.
-/

namespace Wish.Tcp

open Machine
open Http (Text)

/-- A host and a port. -/
abbrev Target := Text × UInt16

/-- The handler of `async_connect` of a session. -/
inductive ConnPc where
  /-- `async_connect` has not been called -/
  | idle
  | pending
  /-- called with an error, before `connect_fail` -/
  | failing
  /-- before `del_object` -/
  | erasing
  /-- before it is destroyed, with the session it holds -/
  | leaving
  | gone
  /-- it has called `connect` -/
  | up
  deriving DecidableEq, Repr

structure ClientSession where
  target : Target
  link : Link
  /-- the session is in `m_objects` -/
  pooled : Bool
  conn : ConnPc

namespace ClientSession

def new (target : Target) : ClientSession := ⟨target, .new, true, .idle⟩

/-- A handler of `async_connect` holds it. -/
def held (ss : ClientSession) : Bool :=
  match ss.conn with
  | .pending | .failing | .erasing | .leaving => true
  | .idle | .gone | .up => false

def alive (ss : ClientSession) : Bool := ss.pooled || ss.held

/-- `connect` of the session, and the end of the handler. -/
def connected (ss : ClientSession) : ClientSession := { ss with link := ss.link.connect, conn := .up }

/-- One step of a handler that has been called with an error. -/
def failNext (ss : ClientSession) : Option ClientSession :=
  match ss.conn with
  | .failing => some { ss with link := ss.link.connectFail, conn := .erasing }
  | .erasing => some { ss with pooled := false, conn := .leaving }
  | .leaving => some { ss with conn := .gone }
  | .idle | .pending | .gone | .up => none

/-- The session is in the pool until its handler has taken it out. -/
def Pooled (ss : ClientSession) : Prop :=
  ss.pooled = true ↔ ss.conn ≠ .leaving ∧ ss.conn ≠ .gone

variable {ss ss' : ClientSession}

theorem Pooled.alive_iff (h : ss.Pooled) : ss.alive = true ↔ ss.conn ≠ .gone := by
  unfold Pooled at h
  unfold alive held
  cases hconn : ss.conn <;> simp_all

theorem Pooled.failNext (h : ss.Pooled) (hs : ss.failNext = some ss') : ss'.Pooled := by
  unfold Pooled at h
  unfold ClientSession.failNext at hs
  cases hconn : ss.conn <;> rw [hconn] at hs <;> cases hs
  all_goals simp_all [Pooled]

theorem failNext_target (hs : ss.failNext = some ss') : ss'.target = ss.target := by
  unfold failNext at hs
  split at hs
  all_goals cases hs <;> rfl

end ClientSession

/-- Where the calling thread is; a `connect` is part of a `request` if `req` is true. -/
inductive CallPc where
  | idle
  /-- `if (ss == nullptr || !ss->is_connected())` -/
  | check (target : Target)
  /-- `add_object` -/
  | add (target : Target) (req : Bool)
  /-- `resolve` and `async_connect` -/
  | resolve (target : Target) (req : Bool)
  /-- `run` -/
  | run (target : Target) (req : Bool)
  /-- `m_cv.wait_for` in `sync_connect` -/
  | wait (target : Target)
  | send (target : Target)
  /-- in the destructors -/
  | shutdown
  | join
  | destroyed
  deriving DecidableEq, Repr

/-- The target of the session that the calling thread is to use. -/
def CallPc.target? : CallPc → Option Target
  | .resolve t _ | .run t _ | .wait t | .send t => some t
  | _ => none

/-- Why the process ends. -/
inductive Abort where
  /-- `m_context` is assigned while it holds a thread -/
  | terminate
  /-- `assert(false)`, or a null session where assertions are off -/
  | assertion
  /-- `m_context.join()` without a thread -/
  | join
  deriving DecidableEq, Repr

structure ClientState where
  /-- every session there has been, by its id -/
  sessions : List ClientSession
  /-- `m_session_ref` -/
  ref : Option Nat
  /-- `m_context` holds a thread -/
  thread : Bool
  pc : CallPc
  aborted : Option Abort
  /-- how many calls of `connect` have come to `run` -/
  attempts : Nat
  /-- the requests whose bytes have been handed to a session: their targets, and the session's id -/
  handed : List (Target × Nat)

inductive ClientAct where
  | request (target : Target)
  | connect (target : Target)
  | destroy
  /-- the calling thread goes on -/
  | next
  /-- `resolve` throws -/
  | throws
  /-- `shutdown`, on any thread -/
  | shutdown
  /-- the handler of `async_connect` is called -/
  | connected (i : Nat)
  | failed (i : Nat)
  | failNext (i : Nat)

namespace ClientState

def init : ClientState := ⟨[], none, false, .idle, none, 0, []⟩

/-- `m_session_ref.lock()` -/
def lock (s : ClientState) : Option (Nat × ClientSession) :=
  s.ref.bind fun i => (s.sessions[i]?.filter ClientSession.alive).map fun ss => (i, ss)

/-- The session that a request finds and takes. -/
def usable (s : ClientState) : Option (Nat × ClientSession) :=
  s.lock.filter fun r => r.2.link.isConnected

def setSession (s : ClientState) (i : Nat) (ss : ClientSession) : ClientState :=
  { s with sessions := s.sessions.set i ss }

def doShutdown (s : ClientState) : ClientState :=
  match s.lock with
  | none => { s with aborted := some .assertion }
  | some (i, ss) =>
    if ss.link.isConnected then s.setSession i { ss with link := ss.link.disconnect } else s

/-- One step of the calling thread. -/
def next (s : ClientState) : Option ClientState :=
  match s.pc with
  | .idle | .destroyed => none
  | .check target =>
    match s.usable with
    | none => some { s with pc := .add target true }
    | some _ => some { s with pc := .send target }
  | .add target req => some
    { s with
      sessions := s.sessions ++ [.new target]
      ref := some s.sessions.length
      pc := .resolve target req }
  | .resolve target req => do
    let (i, ss) ← s.lock
    some { s.setSession i { ss with conn := .pending } with pc := .run target req }
  | .run target req =>
    if s.thread then some { s with aborted := some .terminate, attempts := s.attempts + 1 }
    else some
      { s with
        thread := true
        attempts := s.attempts + 1
        pc := if req then .wait target else .idle }
  | .wait target =>
    -- `sync_connect` has returned `false` where `request` throws
    match s.usable with
    | none => some { s with pc := .idle }
    | some _ => some { s with pc := .send target }
  | .send target =>
    match s.usable with
    | none => some { s with pc := .idle }
    | some (i, _) => some { s with handed := s.handed ++ [(target, i)], pc := .idle }
  | .shutdown => some { s.doShutdown with pc := .join }
  | .join =>
    if s.thread then some { s with thread := false, pc := .destroyed }
    else some { s with aborted := some .join }

def step (s : ClientState) (a : ClientAct) : Option ClientState :=
  if s.aborted.isSome ∨ s.pc = .destroyed then none
  else match a with
    | .request target => if s.pc = .idle then some { s with pc := .check target } else none
    | .connect target => if s.pc = .idle then some { s with pc := .add target false } else none
    | .destroy => if s.pc = .idle then some { s with pc := .shutdown } else none
    | .next => s.next
    | .throws =>
      match s.pc with
      | .resolve _ _ => some { s with pc := .idle }
      | _ => none
    | .shutdown => if s.pc = .join then none else some s.doShutdown
    | .connected i => do
      let ss ← s.sessions[i]?
      if s.thread ∧ ss.conn = .pending then some (s.setSession i ss.connected) else none
    | .failed i => do
      let ss ← s.sessions[i]?
      if s.thread ∧ ss.conn = .pending then some (s.setSession i { ss with conn := .failing })
      else none
    | .failNext i => do
      let ss ← s.sessions[i]?
      let ss ← ss.failNext
      some (s.setSession i ss)

/-! ## Requests and their sessions -/

/-- The bytes of every request have been handed to a session for its own host and port. -/
def OwnSession (s : ClientState) : Prop :=
  ∀ e ∈ s.handed, ∃ ss, s.sessions[e.2]? = some ss ∧ ss.target = e.1

/-- A request that finds a connected session is for the host and port of that session. -/
def SameTarget (s : ClientState) (a : ClientAct) : Prop :=
  a = .next → ∀ t, s.pc = .check t → ∀ r, s.usable = some r → r.2.target = t

/-- The session of `m_session_ref` has the property. -/
def RefHas (s : ClientState) (p : ClientSession → Prop) : Prop :=
  ∃ i ss, s.ref = some i ∧ s.sessions[i]? = some ss ∧ p ss

structure Targeted (s : ClientState) : Prop where
  own : OwnSession s
  ref : ∀ t, s.pc.target? = some t → s.RefHas (·.target = t)

variable {s s' : ClientState} {a : ClientAct} {t : Target}

theorem lock_eq_some {r : Nat × ClientSession} :
    s.lock = some r ↔ s.ref = some r.1 ∧ s.sessions[r.1]? = some r.2 ∧ r.2.alive = true := by
  obtain ⟨i, ss⟩ := r
  simp only [lock, Option.bind_eq_some_iff, Option.map_eq_some_iff, Option.filter_eq_some_iff,
    Prod.mk.injEq]
  constructor
  · rintro ⟨j, hj, ss', ⟨hget, halive⟩, rfl, rfl⟩
    exact ⟨hj, hget, halive⟩
  · rintro ⟨hi, hget, halive⟩
    exact ⟨i, hi, ss, ⟨hget, halive⟩, rfl, rfl⟩

theorem usable_eq_some {r : Nat × ClientSession} :
    s.usable = some r ↔ s.lock = some r ∧ r.2.link.isConnected = true :=
  Option.filter_eq_some_iff

/-- The sessions stay, with their targets. -/
def Keeps (s s' : ClientState) : Prop :=
  ∀ (i : Nat) (ss : ClientSession), s.sessions[i]? = some ss →
    ∃ ss' : ClientSession, s'.sessions[i]? = some ss' ∧ ss'.target = ss.target

theorem keeps_of_eq (h : s'.sessions = s.sessions) : Keeps s s' :=
  fun i ss hi => ⟨ss, by rw [h, hi], rfl⟩

theorem keeps_set {i : Nat} {ss ss' : ClientSession} (h : s'.sessions = s.sessions.set i ss')
    (hi : s.sessions[i]? = some ss) (ht : ss'.target = ss.target) : Keeps s s' := by
  intro j sj hj
  rw [h, List.getElem?_set]
  by_cases hij : i = j
  · subst hij
    obtain ⟨hlt, -⟩ := List.getElem?_eq_some_iff.mp hj
    cases hi.symm.trans hj
    exact ⟨ss', by rw [if_pos rfl, if_pos hlt], ht⟩
  · exact ⟨sj, by rw [if_neg hij, hj], rfl⟩

theorem keeps_append {ss : ClientSession} (h : s'.sessions = s.sessions ++ [ss]) : Keeps s s' := by
  intro i si hi
  obtain ⟨hlt, -⟩ := List.getElem?_eq_some_iff.mp hi
  exact ⟨si, by rw [h, List.getElem?_append_left hlt, hi], rfl⟩

theorem Keeps.target (h : s.RefHas (·.target = t)) (hk : Keeps s s') (href : s'.ref = s.ref) :
    s'.RefHas (·.target = t) := by
  obtain ⟨i, ss, hi, hget, ht⟩ := h
  obtain ⟨ss', hget', ht'⟩ := hk i ss hget
  exact ⟨i, ss', href.trans hi, hget', ht'.trans ht⟩

theorem OwnSession.keeps (h : OwnSession s) (hk : Keeps s s') (hh : s'.handed = s.handed) :
    OwnSession s' := by
  intro e he
  rw [hh] at he
  obtain ⟨ss, hget, ht⟩ := h e he
  obtain ⟨ss', hget', ht'⟩ := hk e.2 ss hget
  exact ⟨ss', hget', ht'.trans ht⟩

theorem targeted_init : Targeted init := ⟨by simp [OwnSession, init], nofun⟩

/-- The calling thread goes on to `pc`, and the sessions keep their targets. -/
theorem Targeted.keeps (h : Targeted s) (hk : Keeps s s') (href : s'.ref = s.ref)
    (hh : s'.handed = s.handed) (hpc : ∀ t, s'.pc.target? = some t → s.pc.target? = some t) :
    Targeted s' :=
  ⟨h.own.keeps hk hh, fun t ht => hk.target (h.ref t (hpc t ht)) href⟩

theorem Targeted.doShutdown (h : Targeted s) : Targeted s.doShutdown := by
  unfold ClientState.doShutdown
  split
  · exact h.keeps (keeps_of_eq rfl) rfl rfl fun _ ht => ht
  · next i ss hlock =>
    split
    · obtain ⟨-, hget, -⟩ := lock_eq_some.mp hlock
      exact h.keeps (keeps_set rfl hget rfl) rfl rfl fun _ ht => ht
    · exact h

theorem Targeted.next (h : Targeted s) (hc : SameTarget s .next) (hs : s.next = some s') :
    Targeted s' := by
  have hsame := hc rfl
  have href := h.ref
  unfold ClientState.next at hs
  cases hpc : s.pc with
  | idle =>
    rw [hpc] at hs
    cases hs
  | destroyed =>
    rw [hpc] at hs
    cases hs
  | check t =>
    simp only [hpc] at hs
    split at hs
    · cases hs
      exact h.keeps (keeps_of_eq rfl) rfl rfl nofun
    · next r husable =>
      cases hs
      refine ⟨h.own, fun u hu => ?_⟩
      cases hu
      obtain ⟨hlock, -⟩ := usable_eq_some.mp husable
      obtain ⟨hr, hget, -⟩ := lock_eq_some.mp hlock
      exact ⟨r.1, r.2, hr, hget, hsame t hpc r husable⟩
  | add t req =>
    simp only [hpc] at hs
    cases hs
    refine ⟨h.own.keeps (keeps_append rfl) rfl, fun u hu => ?_⟩
    cases hu
    exact ⟨_, .new t, rfl, List.getElem?_concat_length, rfl⟩
  | resolve t req =>
    simp only [hpc, Option.bind_eq_bind, Option.bind_eq_some_iff] at hs
    obtain ⟨⟨i, ss⟩, hlock, hs⟩ := hs
    cases hs
    obtain ⟨-, hget, -⟩ := lock_eq_some.mp hlock
    exact h.keeps (keeps_set rfl hget rfl) rfl rfl fun u hu => by rw [hpc]; exact hu
  | run t req =>
    simp only [hpc] at hs
    split at hs
    · cases hs
      exact h.keeps (keeps_of_eq rfl) rfl rfl fun u hu => by rw [hpc]; exact hu
    · cases hs
      refine h.keeps (keeps_of_eq rfl) rfl rfl fun u hu => ?_
      rw [hpc]
      cases req with
      | true => exact hu
      | false => cases hu
  | wait t =>
    simp only [hpc] at hs
    split at hs
    · cases hs
      exact h.keeps (keeps_of_eq rfl) rfl rfl nofun
    · cases hs
      exact h.keeps (keeps_of_eq rfl) rfl rfl fun u hu => by rw [hpc]; exact hu
  | send t =>
    simp only [hpc] at hs
    split at hs
    · cases hs
      exact h.keeps (keeps_of_eq rfl) rfl rfl nofun
    · next i ss husable =>
      cases hs
      refine ⟨fun e he => ?_, nofun⟩
      rcases List.mem_append.mp he with he | he
      · exact h.own e he
      · rw [List.mem_singleton.mp he]
        obtain ⟨j, sj, hj, hget, ht⟩ := href t (by rw [hpc]; rfl)
        obtain ⟨hlock, -⟩ := usable_eq_some.mp husable
        obtain ⟨hi, -, -⟩ := lock_eq_some.mp hlock
        cases hi.symm.trans hj
        exact ⟨sj, hget, ht⟩
  | shutdown =>
    simp only [hpc] at hs
    cases hs
    exact ⟨h.doShutdown.own, nofun⟩
  | join =>
    simp only [hpc] at hs
    split at hs
    · cases hs
      exact h.keeps (keeps_of_eq rfl) rfl rfl nofun
    · cases hs
      exact h.keeps (keeps_of_eq rfl) rfl rfl fun u hu => by rw [hpc]; exact hu

theorem Targeted.step (h : Targeted s) (hc : SameTarget s a) (hs : step s a = some s') :
    Targeted s' := by
  unfold ClientState.step at hs
  split at hs
  · cases hs
  · cases a with
    | request t | connect t | destroy =>
      simp only [Option.ite_none_right_eq_some, Option.some.injEq] at hs
      obtain ⟨-, rfl⟩ := hs
      exact h.keeps (keeps_of_eq rfl) rfl rfl nofun
    | next => exact h.next hc hs
    | throws =>
      simp only at hs
      split at hs
      · cases hs
        exact h.keeps (keeps_of_eq rfl) rfl rfl nofun
      · cases hs
    | shutdown =>
      simp only [Option.ite_none_left_eq_some, Option.some.injEq] at hs
      obtain ⟨-, rfl⟩ := hs
      exact h.doShutdown
    | connected i | failed i =>
      simp only [Option.bind_eq_bind, Option.bind_eq_some_iff, Option.ite_none_right_eq_some,
        Option.some.injEq] at hs
      obtain ⟨ss, hget, -, rfl⟩ := hs
      exact h.keeps (keeps_set rfl hget rfl) rfl rfl fun _ ht => ht
    | failNext i =>
      simp only [Option.bind_eq_bind, Option.bind_eq_some_iff, Option.some.injEq] at hs
      obtain ⟨ss, hget, ss', hfail, rfl⟩ := hs
      have ht := ClientSession.failNext_target hfail
      exact h.keeps (keeps_set rfl hget ht) rfl rfl fun _ hu => hu

/-- **In every run** in which a request that finds a connected session is for its host and port,
the bytes of each request go to a session for its own. -/
theorem guarded_ownSession {as : List ClientAct} {s : ClientState}
    (h : Guarded step SameTarget init as s) : OwnSession s :=
  (guarded_invariant targeted_init (fun _ _ _ hi hc hs => hi.step hc hs) h).own

/-- A request that connects, and whose bytes are handed to the new session. -/
def oneRequest (target : Target) : List ClientAct :=
  .request target :: .replicate 4 .next ++ .connected 0 :: .replicate 2 .next

/-- One that finds it connected. -/
def reuse (target : Target) : List ClientAct := .request target :: .replicate 2 .next

/-- The second request for the host goes to the session of the first one. -/
theorem guarded_ownSession_reuse :
    ∃ s, run step init (oneRequest (['h'], 80) ++ reuse (['h'], 80)) = some s ∧
      s.handed = [((['h'], 80), 0), ((['h'], 80), 0)] ∧ OwnSession s := by
  have hguarded : Guarded step SameTarget init (oneRequest (['h'], 80) ++ reuse (['h'], 80)) _ :=
    .cons ?_ rfl <| .cons ?_ rfl <| .cons ?_ rfl <| .cons ?_ rfl <| .cons ?_ rfl <| .cons ?_ rfl <|
      .cons ?_ rfl <| .cons ?_ rfl <| .cons ?_ rfl <| .cons ?same rfl <| .cons ?_ rfl .nil
  · exact ⟨_, hguarded.run_eq, rfl, guarded_ownSession hguarded⟩
  case same =>
    -- the check of the second request, which finds session 0
    intro _ t ht r hr
    cases ht
    cases hr
    rfl
  all_goals
    intro _ t ht r hr
    simp [lock, usable, init, setSession] at ht hr

/-- The second request is for another host; its bytes go to the first one. -/
theorem not_ownSession :
    ∃ as s, run step init as = some s ∧ ¬ OwnSession s := by
  refine ⟨oneRequest (['h'], 80) ++ reuse (['k'], 80), _, rfl, fun h => ?_⟩
  obtain ⟨ss, hget, ht⟩ := h ((['k'], 80), 0) (List.mem_append_right _ (List.mem_singleton_self _))
  cases hget
  exact absurd ht (by decide)

/-! ## The end of the process -/

/-- `m_session_ref` is not expired: there was a `connect`, and the handler of the last one's
`async_connect` has not come to its end with an error. -/
def RefAlive (s : ClientState) : Prop := s.RefHas (·.conn ≠ .gone)

/-- One `connect` comes to `run`, before the destructor does, and `shutdown` finds the session. -/
structure Sound (s : ClientState) (a : ClientAct) : Prop where
  run : a = .next → ∀ t req, s.pc = .run t req → s.attempts = 0
  shutdown : a = .shutdown ∨ a = .next ∧ s.pc = .shutdown → s.RefAlive
  join : a = .next → s.pc = .join → 0 < s.attempts

structure Live (s : ClientState) : Prop where
  thread : s.pc ≠ .destroyed → (s.thread = true ↔ 0 < s.attempts)
  pooled : ∀ ss ∈ s.sessions, ss.Pooled
  fresh : ∀ t req, s.pc = .resolve t req → s.RefHas (·.conn = .idle)
  aborted : s.aborted = none

theorem live_init : Live init := ⟨fun _ => by simp [init], nofun, nofun, rfl⟩

/-- A session that waits for its `async_connect` goes on waiting. -/
theorem Live.set {i : Nat} {ss ss' : ClientSession} (h : Live s) (hi : s.sessions[i]? = some ss)
    (hp : ss'.Pooled) (hidle : ss.conn = .idle → ss'.conn = .idle) : Live (s.setSession i ss') := by
  refine ⟨h.thread, fun u hu => ?_, fun t req hpc => ?_, h.aborted⟩
  · rcases List.mem_or_eq_of_mem_set hu with hu | rfl
    · exact h.pooled u hu
    · exact hp
  · obtain ⟨j, sj, hj, hget, hconn⟩ := h.fresh t req hpc
    by_cases hij : i = j
    · subst hij
      cases hi.symm.trans hget
      obtain ⟨hlt, -⟩ := List.getElem?_eq_some_iff.mp hi
      exact ⟨i, ss', hj, List.getElem?_set_self hlt, hidle hconn⟩
    · exact ⟨j, sj, hj, (List.getElem?_set_ne hij).trans hget, hconn⟩

theorem Live.at {pc : CallPc} (h : Live s) (hs : s.pc ≠ .destroyed)
    (hpc : ∀ t req, pc ≠ .resolve t req) : Live { s with pc := pc } :=
  ⟨fun _ => h.thread hs, h.pooled, fun t req he => absurd he (hpc t req), h.aborted⟩

theorem Live.lock_ne_none_iff (h : Live s) : s.lock ≠ none ↔ s.RefAlive := by
  rw [Option.ne_none_iff_exists']
  constructor
  · rintro ⟨⟨i, ss⟩, hlock⟩
    obtain ⟨hi, hget, halive⟩ := lock_eq_some.mp hlock
    exact ⟨i, ss, hi, hget, (h.pooled ss (List.mem_of_getElem? hget)).alive_iff.mp halive⟩
  · rintro ⟨i, ss, hi, hget, hconn⟩
    have halive := (h.pooled ss (List.mem_of_getElem? hget)).alive_iff.mpr hconn
    exact ⟨(i, ss), lock_eq_some.mpr ⟨hi, hget, halive⟩⟩

theorem Live.doShutdown (h : Live s) (href : s.RefAlive) : Live s.doShutdown := by
  unfold ClientState.doShutdown
  split
  · next hlock => exact absurd hlock (h.lock_ne_none_iff.mpr href)
  · next i ss hlock =>
    split
    · obtain ⟨-, hget, -⟩ := lock_eq_some.mp hlock
      exact h.set hget (h.pooled ss (List.mem_of_getElem? hget)) id
    · exact h

theorem Live.doShutdown_aborted (h : Live s) (href : ¬ s.RefAlive) :
    s.doShutdown.aborted = some .assertion := by
  have hlock : s.lock = none := by_contra fun hne => href (h.lock_ne_none_iff.mp hne)
  simp only [ClientState.doShutdown, hlock]

@[simp] theorem doShutdown_pc : s.doShutdown.pc = s.pc := by
  unfold ClientState.doShutdown
  split
  · rfl
  · split <;> rfl

@[simp] theorem doShutdown_attempts : s.doShutdown.attempts = s.attempts := by
  unfold ClientState.doShutdown
  split
  · rfl
  · split <;> rfl

theorem Live.next (h : Live s) (hc : Sound s .next) (hs : s.next = some s') : Live s' := by
  unfold ClientState.next at hs
  cases hpc : s.pc with
  | idle =>
    rw [hpc] at hs
    cases hs
  | destroyed =>
    rw [hpc] at hs
    cases hs
  | check t | wait t =>
    simp only [hpc] at hs
    split at hs
    all_goals
      cases hs
      exact h.at (by simp [hpc]) nofun
  | add t req =>
    simp only [hpc] at hs
    cases hs
    refine ⟨fun _ => h.thread (by simp [hpc]), fun u hu => ?_, fun _ _ _ => ?_, h.aborted⟩
    · rcases List.mem_append.mp hu with hu | hu
      · exact h.pooled u hu
      · rw [List.mem_singleton.mp hu]
        simp [ClientSession.Pooled, ClientSession.new]
    · exact ⟨_, .new t, rfl, List.getElem?_concat_length, rfl⟩
  | resolve t req =>
    simp only [hpc, Option.bind_eq_bind, Option.bind_eq_some_iff] at hs
    obtain ⟨⟨i, ss⟩, hlock, hs⟩ := hs
    cases hs
    obtain ⟨hi, hget, -⟩ := lock_eq_some.mp hlock
    obtain ⟨j, sj, hj, hgetj, hconn⟩ := h.fresh t req hpc
    cases hi.symm.trans hj
    cases hget.symm.trans hgetj
    have hpooled := h.pooled ss (List.mem_of_getElem? hget)
    refine ⟨fun _ => h.thread (by simp [hpc]), fun u hu => ?_, nofun, h.aborted⟩
    rcases List.mem_or_eq_of_mem_set hu with hu | rfl
    · exact h.pooled u hu
    · have hidle : ss.conn = .idle := hconn
      simpa [ClientSession.Pooled, hidle] using hpooled
  | run t req =>
    have hzero : s.attempts = 0 := hc.run rfl t req hpc
    have hthread : ¬ s.thread = true := by
      rw [h.thread (by simp [hpc]), hzero]
      exact lt_irrefl 0
    simp only [hpc, if_neg hthread] at hs
    cases hs
    refine ⟨fun _ => by simp, h.pooled, fun _ _ he => ?_, h.aborted⟩
    cases req <;> cases he
  | send t =>
    simp only [hpc] at hs
    split at hs
    all_goals
      cases hs
      exact ⟨fun _ => h.thread (by simp [hpc]), h.pooled, nofun, h.aborted⟩
  | shutdown =>
    simp only [hpc] at hs
    cases hs
    exact (h.doShutdown (hc.shutdown (Or.inr ⟨rfl, hpc⟩))).at (by simp [hpc]) nofun
  | join =>
    have hthread : s.thread = true := (h.thread (by simp [hpc])).mpr (hc.join rfl hpc)
    simp only [hpc, if_pos hthread] at hs
    cases hs
    exact ⟨nofun, h.pooled, nofun, h.aborted⟩

theorem Live.step (h : Live s) (hc : Sound s a) (hs : step s a = some s') : Live s' := by
  unfold ClientState.step at hs
  split at hs
  · cases hs
  · next hrest =>
    have hd : s.pc ≠ .destroyed := fun hd => hrest (Or.inr hd)
    cases a with
    | request t | connect t | destroy =>
      simp only [Option.ite_none_right_eq_some, Option.some.injEq] at hs
      obtain ⟨-, rfl⟩ := hs
      exact h.at hd nofun
    | next => exact h.next hc hs
    | throws =>
      simp only at hs
      split at hs
      · cases hs
        exact h.at hd nofun
      · cases hs
    | shutdown =>
      simp only [Option.ite_none_left_eq_some, Option.some.injEq] at hs
      obtain ⟨-, rfl⟩ := hs
      exact h.doShutdown (hc.shutdown (Or.inl rfl))
    | connected i | failed i =>
      simp only [Option.bind_eq_bind, Option.bind_eq_some_iff, Option.ite_none_right_eq_some,
        Option.some.injEq] at hs
      obtain ⟨ss, hget, ⟨-, hconn⟩, rfl⟩ := hs
      have hpooled := h.pooled ss (List.mem_of_getElem? hget)
      refine h.set hget ?_ fun he => ?_
      · simpa [ClientSession.Pooled, ClientSession.connected, hconn] using hpooled
      · rw [hconn] at he
        cases he
    | failNext i =>
      simp only [Option.bind_eq_bind, Option.bind_eq_some_iff, Option.some.injEq] at hs
      obtain ⟨ss, hget, ss', hfail, rfl⟩ := hs
      have hpooled := h.pooled ss (List.mem_of_getElem? hget)
      refine h.set hget (hpooled.failNext hfail) fun he => ?_
      rw [ClientSession.failNext, he] at hfail
      cases hfail

/-- A step that is not sound ends the process. -/
theorem Live.aborts (h : Live s) (hc : ¬ Sound s a) (hs : ClientState.step s a = some s') :
    s'.aborted ≠ none := by
  unfold ClientState.step at hs
  split at hs
  · cases hs
  · cases a with
    | shutdown =>
      simp only [Option.ite_none_left_eq_some, Option.some.injEq] at hs
      obtain ⟨-, rfl⟩ := hs
      rw [h.doShutdown_aborted fun href => hc ⟨nofun, fun _ => href, nofun⟩]
      exact nofun
    | next =>
      simp only [ClientState.next] at hs
      cases hpc : s.pc with
      | run t req =>
        have hpos : s.attempts ≠ 0 := fun hz => hc ⟨fun _ _ _ _ => hz, by simp [hpc], by simp [hpc]⟩
        have hthread : s.thread = true := (h.thread (by simp [hpc])).mpr (Nat.pos_of_ne_zero hpos)
        simp only [hpc, if_pos hthread] at hs
        cases hs
        exact nofun
      | shutdown =>
        simp only [hpc] at hs
        cases hs
        simp only [ne_eq]
        rw [h.doShutdown_aborted fun href => hc ⟨by simp [hpc], fun _ => href, by simp [hpc]⟩]
        exact nofun
      | join =>
        have hzero : ¬ 0 < s.attempts := fun hp => hc ⟨by simp [hpc], by simp [hpc], fun _ _ => hp⟩
        have hthread : ¬ s.thread = true := (h.thread (by simp [hpc])).not.mpr hzero
        simp only [hpc, if_neg hthread] at hs
        cases hs
        exact nofun
      | _ => exact absurd ⟨by simp [hpc], by simp [hpc], by simp [hpc]⟩ hc
    | _ => exact absurd ⟨nofun, by simp, nofun⟩ hc

/-- **The process goes on** exactly when one `connect` comes to `run`, before the destructor does,
and every `shutdown` finds the session of the last `connect` not expired. -/
theorem unaborted_iff {as : List ClientAct} {s : ClientState} (h : run step init as = some s) :
    (∀ bs s', bs <+: as → run step init bs = some s' → s'.aborted = none) ↔
      Guarded step Sound init as s :=
  forall_prefix_iff_guarded (I := Live) (P := fun s => s.aborted = none) live_init
    (fun _ hi => hi.aborted) (fun _ _ _ hi hc hs => hi.step hc hs)
    (fun _ _ _ hi hc hs => hi.aborts hc hs) h

def connectOnce : List ClientAct := .connect (['h'], 80) :: .replicate 3 .next

theorem unaborted_connectOnce :
    ∃ s, run step init (connectOnce ++ [.connected 0, .destroy, .next, .next]) = some s ∧
      s.aborted = none := by
  have hrun : run step init (connectOnce ++ [.connected 0, .destroy, .next, .next]) = some _ := rfl
  refine ⟨_, hrun, (unaborted_iff hrun).mpr (.cons ?_ rfl <| .cons ?_ rfl <| .cons ?_ rfl <|
    .cons ?_ rfl <| .cons ?_ rfl <| .cons ?_ rfl <| .cons ?_ rfl <| .cons ?_ rfl .nil) _ _
    List.prefix_rfl hrun⟩
  all_goals
    refine ⟨?_, ?_, ?_⟩ <;>
      simp [init, setSession, RefAlive, RefHas, ClientSession.connected]

/-- A second attempt after a failed one assigns `m_context` again. -/
theorem not_unaborted_retry :
    ∃ s, run step init (connectOnce ++ .failed 0 :: connectOnce) = some s ∧
      s.aborted = some .terminate :=
  ⟨_, rfl, rfl⟩

end ClientState

end Wish.Tcp
