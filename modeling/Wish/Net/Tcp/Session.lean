import Wish.Machine

/-!
# The read loop of a `wish::tcp::session`

`net/transport/session.h` and `net/transport/tcp/session.h`: the handler of `async_read_some`
tests `m_stopped`, calls `on_recv_error` or `on_recv_msg`, tests `m_stopped` again and starts the
next read. What an error does is up to the pool of the session: `tcp::server` overrides
`on_receive_error` with `disconnect(sid)`, and `tcp::client` leaves it to `i_matrix`, where it does
nothing.

The handler has a plain `this`. The session is there as long as there is a `shared_ptr` to it: in
`m_objects`, in the handler's own call of `disconnect(sid)`, or on another thread. A handler that
reads a member of a session that is gone is `undefined`.

`settled_iff`: once a read has completed with an error, the session is neither connected nor read
from, exactly when every handler finds its session there, and the handler of an error on a client
finds `m_stopped` set at its second test; on a server it always does (`Inv.server`).
-/

namespace Wish.Tcp

open Machine

inductive LinkStatus where
  | invalid
  | connecting
  | connected
  | shuttingDown
  | broken
  | connectfail
  deriving DecidableEq, Repr

/-- The members of a session that tell whether it is alive. -/
structure Link where
  mStatus : LinkStatus
  mStopped : Bool
  deriving DecidableEq, Repr

namespace Link

def new : Link := ⟨.invalid, false⟩

def isConnected (l : Link) : Bool := l.mStatus = .connected

def connect (l : Link) : Link := { l with mStatus := .connected }

def disconnect (_l : Link) : Link := ⟨.broken, true⟩

def connectFail (l : Link) : Link := { l with mStatus := .connectfail }

end Link

/-- The pools. -/
inductive Pool where
  | client
  | server
  deriving DecidableEq, Repr

/-- Where the handler of a read is; the `Bool` is whether it was called with an error. -/
inductive ReadPc where
  | rest
  /-- before the first test of `m_stopped` -/
  | first (ec : Bool)
  /-- before `on_recv_error` -/
  | error
  /-- in `server::disconnect` -/
  | find
  | test
  | disconnect
  | erase
  /-- before `ss` goes -/
  | leave
  /-- before `on_recv_msg` -/
  | message
  /-- before the second test -/
  | second (ec : Bool)
  deriving DecidableEq, Repr

/-- The handler of an error. -/
def ReadPc.OfError : ReadPc → Prop
  | .first ec | .second ec => ec = true
  | .error | .find | .test | .disconnect | .erase | .leave => True
  | .rest | .message => False

/-- The handler's own `ss`. -/
def ReadPc.holds : ReadPc → Bool
  | .test | .disconnect | .erase | .leave => true
  | .rest | .first _ | .error | .find | .message | .second _ => false

/-- The next step of the handler reads a member of its session. -/
def ReadPc.uses : ReadPc → Bool
  | .first _ | .error | .message | .second _ => true
  | .rest | .find | .test | .disconnect | .erase | .leave => false

structure ReadState where
  link : Link
  /-- the session is in `m_objects` -/
  pooled : Bool
  /-- the `shared_ptr`s to it that other threads have -/
  others : Nat
  /-- a read is outstanding -/
  reading : Bool
  pc : ReadPc
  /-- a read has completed with an error -/
  failed : Bool
  /-- an exception has left the handler, and `run` does not catch it -/
  thrown : Bool
  undefined : Bool
  deriving Repr

def ReadState.init : ReadState := ⟨.new, false, 0, false, .rest, false, false, false⟩

inductive ReadAct where
  /-- the connection is there: `connect`, which starts the first read -/
  | connect
  /-- the read completes -/
  | complete (ec : Bool)
  /-- the handler goes on -/
  | next
  /-- another thread gets a `shared_ptr` to the session: `find`, `weak_ptr::lock` -/
  | hold
  /-- and lets it go -/
  | drop
  /-- another thread calls `disconnect` of the session -/
  | disconnect
  /-- another thread takes it out of the pool -/
  | erase
  deriving DecidableEq, Repr

namespace ReadState

/-- There is a `shared_ptr` to the session. -/
def isThere (s : ReadState) : Bool := s.pooled || s.others ≠ 0 || s.pc.holds

/-- The handler goes on, at `pc`. -/
def goTo (s : ReadState) (pc : ReadPc) : ReadState := { s with pc := pc }

/-- One step of the handler, while the session is there. -/
def handle (pool : Pool) (s : ReadState) : Option ReadState :=
  match s.pc with
  | .rest => none
  | .first ec =>
    if s.link.mStopped then some (s.goTo .rest)
    else some (s.goTo (if ec then .error else .message))
  | .error =>
    match pool with
    | .client => some (s.goTo (.second true))
    | .server => some (s.goTo .find)
  | .find => if s.pooled then some (s.goTo .test) else some { s with thrown := true }
  | .test => if s.link.isConnected then some (s.goTo .disconnect) else some { s with thrown := true }
  | .disconnect => some ({ s with link := s.link.disconnect }.goTo .erase)
  | .erase => some ({ s with pooled := false }.goTo .leave)
  | .leave => some (s.goTo (.second true))
  | .message => some (s.goTo (.second false))
  | .second _ =>
    if s.link.mStopped then some (s.goTo .rest)
    else some ({ s with reading := true }.goTo .rest)

/-- One step of the handler. -/
def next (pool : Pool) (s : ReadState) : Option ReadState :=
  if s.pc.uses && !s.isThere then some { s with undefined := true } else s.handle pool

def step (pool : Pool) (s : ReadState) (a : ReadAct) : Option ReadState :=
  if s.thrown ∨ s.undefined then none
  else match a with
    | .connect =>
      if s.link.mStatus = .invalid ∧ s.pc = .rest then
        some { s with link := s.link.connect, pooled := true, reading := true }
      else none
    | .complete ec =>
      if s.reading ∧ s.pc = .rest then
        some { s with reading := false, pc := .first ec, failed := s.failed || ec }
      else none
    | .next => s.next pool
    | .hold => if s.isThere then some { s with others := s.others + 1 } else none
    | .drop => if s.others ≠ 0 then some { s with others := s.others - 1 } else none
    | .disconnect =>
      if s.others = 0 ∨ s.link.mStatus = .invalid then none
      else some { s with link := s.link.disconnect }
    | .erase => some { s with pooled := false }

/-- Once a read has completed with an error, and its handler has returned, the session is not
reported connected and no read has been started on it. -/
structure Settled (s : ReadState) : Prop where
  handled : s.failed = true → s.pc = .rest → s.thrown = false →
    s.link.isConnected = false ∧ s.reading = false
  defined : s.undefined = false

/-- A handler finds its session there, and on a client a handler that was called with an error
finds `m_stopped` set at its second test. -/
def Sound (pool : Pool) (s : ReadState) (a : ReadAct) : Prop :=
  a = .next → (s.pc.uses = true → s.isThere = true) ∧
    (pool = .client → s.pc = .second true → s.link.mStopped = true)

structure Inv (pool : Pool) (s : ReadState) : Prop where
  stopped : s.link.mStopped = true → s.link.mStatus = .broken
  started : s.reading = true ∨ s.pc ≠ .rest ∨ s.failed = true → s.link.mStatus ≠ .invalid
  failed : s.failed = true →
    s.reading = false ∧ (s.pc.OfError ∨ s.pc = .rest ∧ s.link.mStopped = true)
  ofError : s.pc.OfError → s.failed = true
  server : pool = .server → s.pc = .erase ∨ s.pc = .leave ∨ s.pc = .second true →
    s.link.mStopped = true
  defined : s.undefined = false

variable {pool : Pool} {s s' : ReadState} {a : ReadAct}

theorem inv_init : Inv pool init where
  stopped := nofun
  started := by simp [init]
  failed := nofun
  ofError := nofun
  server := by simp [init]
  defined := rfl

theorem Inv.settled (h : Inv pool s) : Settled s := by
  refine ⟨fun hfailed hrest _ => ?_, h.defined⟩
  obtain ⟨hreading, herror | ⟨-, hstopped⟩⟩ := h.failed hfailed
  · rw [hrest] at herror
    cases herror
  · refine ⟨?_, hreading⟩
    rw [Link.isConnected, h.stopped hstopped]
    rfl

theorem Inv.disconnect (h : Inv pool s) : Inv pool { s with link := s.link.disconnect } where
  stopped _ := rfl
  started _ := nofun
  failed hf := ⟨(h.failed hf).1, (h.failed hf).2.imp_right fun hr => ⟨hr.1, rfl⟩⟩
  ofError := h.ofError
  server _ _ := rfl
  defined := h.defined

/-- The `shared_ptr`s of other threads, and that of the pool, come and go. -/
theorem Inv.owned {pooled : Bool} {others : Nat} (h : Inv pool s) :
    Inv pool { s with pooled := pooled, others := others } :=
  ⟨h.stopped, h.started, h.failed, h.ofError, h.server, h.defined⟩

/-- The handler goes on. -/
theorem Inv.goes {pc : ReadPc} (h : Inv pool s) (hs : s.pc ≠ .rest)
    (he : pc.OfError ↔ s.pc.OfError)
    (hv : pool = .server → pc = .erase ∨ pc = .leave ∨ pc = .second true → s.link.mStopped = true) :
    Inv pool (s.goTo pc) where
  stopped := h.stopped
  started _ := h.started (Or.inr (Or.inl hs))
  failed hf := ⟨(h.failed hf).1, Or.inl (he.mpr ((h.failed hf).2.resolve_right fun hr => hs hr.1))⟩
  ofError hof := h.ofError (he.mp hof)
  server := hv
  defined := h.defined

/-- The handler returns, because the session is stopped. -/
theorem Inv.returns (h : Inv pool s) (hs : s.pc ≠ .rest) (hstop : s.link.mStopped = true) :
    Inv pool (s.goTo .rest) where
  stopped := h.stopped
  started _ := h.started (Or.inr (Or.inl hs))
  failed hf := ⟨(h.failed hf).1, Or.inr ⟨rfl, hstop⟩⟩
  ofError := nofun
  server _ := by rintro (he | he | he) <;> cases he
  defined := h.defined

theorem Inv.throws (h : Inv pool s) : Inv pool { s with thrown := true } :=
  ⟨h.stopped, h.started, h.failed, h.ofError, h.server, h.defined⟩

theorem Inv.handle (h : Inv pool s)
    (hc : pool = .client → s.pc = .second true → s.link.mStopped = true)
    (hs : s.handle pool = some s') : Inv pool s' := by
  unfold ReadState.handle at hs
  cases hpc : s.pc with
  | rest =>
    rw [hpc] at hs
    cases hs
  | first ec =>
    simp only [hpc] at hs
    split at hs
    · next hstop =>
      cases hs
      exact h.returns (by simp [hpc]) hstop
    · cases hs
      cases ec
      all_goals exact h.goes (by simp [hpc]) (by simp [hpc, ReadPc.OfError]) (by simp)
  | error =>
    cases pool <;> simp only [hpc] at hs <;> cases hs
    · exact h.goes (by simp [hpc]) (by simp [hpc, ReadPc.OfError]) nofun
    · exact h.goes (by simp [hpc]) (by simp [hpc, ReadPc.OfError]) (by simp)
  | find | test =>
    simp only [hpc] at hs
    split at hs
    · cases hs
      exact h.goes (by simp [hpc]) (by simp [hpc, ReadPc.OfError]) (by simp)
    · cases hs
      rw [← hpc]
      exact h.throws
  | disconnect =>
    simp only [hpc] at hs
    cases hs
    exact h.disconnect.goes (by simp [hpc]) (by simp [hpc, ReadPc.OfError]) fun _ _ => rfl
  | erase =>
    simp only [hpc] at hs
    cases hs
    exact h.owned.goes (by simp [hpc]) (by simp [hpc, ReadPc.OfError])
      fun hv _ => h.server hv (Or.inl hpc)
  | leave =>
    simp only [hpc] at hs
    cases hs
    exact h.goes (by simp [hpc]) (by simp [hpc, ReadPc.OfError])
      fun hv _ => h.server hv (Or.inr (Or.inl hpc))
  | message =>
    simp only [hpc] at hs
    cases hs
    exact h.goes (by simp [hpc]) (by simp [hpc, ReadPc.OfError]) (by simp)
  | second ec =>
    simp only [hpc] at hs
    split at hs
    · next hstop =>
      cases hs
      exact h.returns (by simp [hpc]) hstop
    · next hgoes =>
      cases hs
      -- the handler of an error would have found `m_stopped` set
      have hec : ec = false := by
        cases ec with
        | false => rfl
        | true =>
          cases pool with
          | client => exact absurd (hc rfl hpc) hgoes
          | server => exact absurd (h.server rfl (Or.inr (Or.inr hpc))) hgoes
      have hfailed : ¬ s.failed = true := by
        intro hf
        rcases (h.failed hf).2 with he | ⟨hr, -⟩
        · rw [hpc, hec] at he
          cases he
        · rw [hpc] at hr
          cases hr
      refine ⟨h.stopped, fun _ => h.started ?_, fun hf => absurd hf hfailed, nofun, ?_, h.defined⟩
      · exact Or.inr (Or.inl (by simp [hpc]))
      · rintro - (he | he | he) <;> cases he

theorem Inv.next (h : Inv pool s) (hc : Sound pool s .next) (hs : s.next pool = some s') :
    Inv pool s' := by
  unfold ReadState.next at hs
  split at hs
  · next hgone =>
    rw [Bool.and_eq_true, Bool.not_eq_true'] at hgone
    cases hgone.2.symm.trans ((hc rfl).1 hgone.1)
  · exact h.handle (hc rfl).2 hs

theorem Inv.step (h : Inv pool s) (hc : Sound pool s a) (hs : step pool s a = some s') :
    Inv pool s' := by
  unfold ReadState.step at hs
  split at hs
  · cases hs
  · cases a with
    | next => exact h.next hc hs
    | connect =>
      simp only [Option.ite_none_right_eq_some, Option.some.injEq] at hs
      obtain ⟨⟨hinvalid, hrest⟩, rfl⟩ := hs
      have hfailed : ¬ s.failed = true := fun hf => h.started (Or.inr (Or.inr hf)) hinvalid
      refine ⟨fun hstop => ?_, fun _ => nofun, fun hf => absurd hf hfailed, ?_, ?_, h.defined⟩
      · cases hinvalid.symm.trans (h.stopped hstop)
      · simp [hrest, ReadPc.OfError]
      · simp [hrest]
    | complete ec =>
      simp only [Option.ite_none_right_eq_some, Option.some.injEq] at hs
      obtain ⟨⟨hreading, hrest⟩, rfl⟩ := hs
      have hfailed : s.failed = false := by
        cases hf : s.failed with
        | false => rfl
        | true => cases (h.failed hf).1.symm.trans hreading
      refine ⟨h.stopped, fun _ => h.started (Or.inl hreading), fun hf => ⟨rfl, Or.inl ?_⟩, ?_, ?_,
        h.defined⟩
      · simpa [hfailed, ReadPc.OfError] using hf
      · intro hof
        simpa [hfailed, ReadPc.OfError] using hof
      · simp
    | hold | drop =>
      simp only [Option.ite_none_right_eq_some, Option.some.injEq] at hs
      obtain ⟨-, rfl⟩ := hs
      exact h.owned
    | disconnect =>
      simp only [Option.ite_none_left_eq_some, Option.some.injEq] at hs
      obtain ⟨-, rfl⟩ := hs
      exact h.disconnect
    | erase =>
      cases hs
      exact h.owned

/-- A handler whose session is gone, or a handler of an error that starts another read. -/
theorem Inv.not_settled (h : Inv pool s) (hc : ¬ Sound pool s a)
    (hs : ReadState.step pool s a = some s') : ¬ Settled s' := by
  simp only [Sound, Classical.not_imp, not_and_or] at hc
  obtain ⟨rfl, hc⟩ := hc
  unfold ReadState.step at hs
  split at hs
  · cases hs
  · next hgoing =>
    simp only [ReadState.next] at hs
    split at hs
    · cases hs
      exact fun hsettled => nomatch hsettled.defined
    · next hthere =>
      rcases hc with ⟨huses, hgone⟩ | ⟨-, hpc, hgoes⟩
      · rw [huses, Bool.true_and, Bool.not_eq_true', Bool.not_eq_false] at hthere
        exact absurd hthere hgone
      · have hfailed : s.failed = true := h.ofError (by rw [hpc]; rfl)
        simp only [ReadState.handle, hpc, if_neg hgoes] at hs
        cases hs
        intro hsettled
        have hthrown : s.thrown = false := by
          rw [not_or, Bool.not_eq_true] at hgoing
          exact hgoing.1
        exact absurd (hsettled.handled hfailed rfl hthrown).2 nofun

/-- **After an error** the session is neither connected nor read from, exactly when the handlers
find their session there, and on a client those of errors find `m_stopped` set. -/
theorem settled_iff {pool : Pool} {as : List ReadAct} {s : ReadState}
    (h : run (ReadState.step pool) init as = some s) :
    (∀ bs s', bs <+: as → run (ReadState.step pool) init bs = some s' → Settled s') ↔
      Guarded (ReadState.step pool) (Sound pool) init as s :=
  forall_prefix_iff_guarded (I := Inv pool) (P := Settled) (C := Sound pool) inv_init
    (fun _ hi => hi.settled) (fun _ _ _ hi hc hs => hi.step hc hs)
    (fun _ _ _ hi hc hs => hi.not_settled hc hs) h

instance (pool : Pool) (s : ReadState) (a : ReadAct) : Decidable (Sound pool s a) := by
  unfold Sound
  infer_instance

/-- The peer closes the connection. -/
def closed : List ReadAct := [.connect, .complete true]

/-- On a server, where another thread has found the session by then. -/
def heldByCaller : List ReadAct :=
  [.connect, .hold, .complete true] ++ .replicate 8 .next ++ [.drop]

theorem settled_heldByCaller :
    ∃ s, run (ReadState.step .server) init heldByCaller = some s ∧ s.isThere = false ∧
      Settled s := by
  have hguarded : Guarded (ReadState.step .server) (Sound .server) init heldByCaller _ :=
    guarded_iff_run.mpr rfl
  have hrun := hguarded.run_eq
  exact ⟨_, hrun, rfl, (settled_iff hrun).mpr hguarded _ _ List.prefix_rfl hrun⟩

/-- The client goes on reading; the handler of a server that is left alone loses its session. -/
theorem not_settled_closed :
    (∃ s, run (ReadState.step .client) init (closed ++ .replicate 3 .next) = some s ∧
      s.link.isConnected = true ∧ s.reading = true ∧ ¬ Settled s) ∧
    ∃ s, run (ReadState.step .server) init (closed ++ .replicate 8 .next) = some s ∧
      s.undefined = true ∧ ¬ Settled s := by
  constructor
  · refine ⟨_, rfl, rfl, rfl, fun h => ?_⟩
    exact absurd (h.handled rfl rfl rfl).2 (by decide)
  · exact ⟨_, rfl, rfl, fun h => nomatch h.defined⟩

end ReadState

end Wish.Tcp
