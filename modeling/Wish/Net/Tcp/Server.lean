import Wish.Net.Tcp.Session
import Wish.Util.SpinLock
import Mathlib.Logic.Function.Basic

/-!
# `wish::tcp::server`

`net/transport/tcp/server.h` and `session_pool.h`: the io thread runs the handlers of
`async_accept` and of the reads, one at a time, and other threads call `disconnect` and `shutdown`.

A session is there as long as there is a `shared_ptr` to it: in `m_objects`, in the handler of
`async_accept`, in a call. The handler of a read has none, it goes by a plain `this`. `m_lock` is the
spin lock as it is (`SpinLock.round`): it keeps nobody out. A `test_and_set` is a step, and what is
done inside is a step together with the clear of the flag. Two threads that are inside at once race
for `m_objects` unless both only read it. After a race, or the use of a session that is not there,
nothing is said of the program any more (`undefined`). `m_status` is read and written in one step
each.

* `Clean`: a session that leaves the pool has had its `on_disconnect`, once, with nothing received
  after it, and no exception has left a handler.
* `Current`: what a step was told by the test before it is still so, the session of a handler is
  still there, and the lock lets nobody into a race.
* `clean_iff`: the runs that are clean all along are those whose steps are all current.
-/

namespace Wish.Tcp

open Machine

structure ServerSession where
  link : Link
  /-- the session is in `m_objects` -/
  pooled : Bool
  /-- it has been put there -/
  joined : Bool
  /-- a read is outstanding -/
  reading : Bool
  /-- the `shared_ptr`s to it, besides that in `m_objects` -/
  owners : Nat

/-- The handler of `async_accept` has it. -/
def ServerSession.new : ServerSession := ⟨.new, false, false, false, 1⟩

/-- Where a call of `disconnect(sid)` is. -/
inductive TearPc where
  | lockFind
  | find
  | test
  | disconnect
  | lockErase
  | erase
  /-- before `ss` goes -/
  | leave
  | done
  /-- it throws `std::logic_error` -/
  | threw
  deriving DecidableEq, Repr

/-- Where the io thread is. -/
inductive IoPc where
  | rest
  /-- in the handler of `async_accept`, before the test of `m_stopped` -/
  | accepted (ec : Bool)
  /-- before `on_accept` -/
  | connect
  /-- in `add_object` -/
  | lockAdd
  | add
  /-- in `do_accept` -/
  | lockCreate
  | create
  /-- before the handler goes, and its session with it -/
  | leave (sid : Nat)
  /-- in the handler of a read, before the first test of the session's `m_stopped` -/
  | first (sid : Nat) (ec : Bool)
  /-- before `on_recv_error` -/
  | error (sid : Nat)
  /-- in `on_receive_error` -/
  | tear (sid : Nat) (pc : TearPc)
  /-- before `on_recv_msg` -/
  | message (sid : Nat)
  /-- before the second test -/
  | second (sid : Nat)
  deriving DecidableEq, Repr

/-- Where another thread is. -/
inductive CallerPc where
  | idle
  | tear (sid : Nat) (pc : TearPc)
  /-- in `shutdown`, before `m_stopped = true` -/
  | stop
  /-- in `for_each`, and there before the test of the first of these sessions -/
  | lockEach
  | visit (sids : List Nat)
  /-- before `disconnect` of the session -/
  | disconnect (sid : Nat) (sids : List Nat)
  | lockClear
  | clear
  deriving DecidableEq, Repr

/-- The callbacks. -/
inductive Event where
  | onConnect (sid : Nat)
  | onReceive (sid : Nat)
  | onReceiveError (sid : Nat)
  | onDisconnect (sid : Nat)
  deriving DecidableEq, Repr

/-- What a thread does inside `m_lock`. -/
inductive Access where
  | reads
  | writes
  /-- `create_object`: `m_sequence_id` is atomic -/
  | nothing
  deriving DecidableEq, Repr

/-- One of two writes what the other one reads or writes. -/
def Access.races : Access → Access → Bool
  | .writes, b => b ≠ .nothing
  | a, .writes => a ≠ .nothing
  | _, _ => false

structure ServerState (ι : Type) where
  /-- every session there has been or will be, by its id -/
  sessions : Nat → ServerSession
  /-- the id of the session that `async_accept` was given last -/
  accepting : Nat
  /-- `async_accept` is outstanding -/
  armed : Bool
  mStopped : Bool
  /-- the flag of `m_lock` -/
  mFlag : Bool
  /-- what the threads inside it do -/
  inside : List Access
  io : IoPc
  callers : ι → CallerPc
  log : List Event
  /-- an exception has left a handler, and `run` does not catch it -/
  escaped : Bool
  undefined : Bool

inductive ServerAct (ι : Type) where
  | accept (ec : Bool)
  /-- the read completes -/
  | complete (sid : Nat) (ec : Bool)
  /-- the io thread goes on -/
  | io
  | disconnect (t : ι) (sid : Nat)
  | shutdown (t : ι)
  /-- the thread goes on -/
  | next (t : ι)

namespace ServerState

variable {ι : Type}

/-- After `start`. -/
def init : ServerState ι :=
  ⟨fun _ => .new, 0, true, false, false, [], .rest, fun _ => .idle, [], false, false⟩

def setSession (s : ServerState ι) (sid : Nat) (ss : ServerSession) : ServerState ι :=
  { s with sessions := Function.update s.sessions sid ss }

def emit (s : ServerState ι) (e : Event) : ServerState ι := { s with log := s.log ++ [e] }

def isConnected (s : ServerState ι) (sid : Nat) : Bool := (s.sessions sid).link.isConnected

/-! ### Who has a session -/

/-- There is a `shared_ptr` to it. -/
def isThere (s : ServerState ι) (sid : Nat) : Bool :=
  (s.sessions sid).pooled || (s.sessions sid).owners ≠ 0

def setOwners (s : ServerState ι) (sid : Nat) (owners : Nat) : ServerState ι :=
  s.setSession sid { s.sessions sid with owners := owners }

/-- The `shared_ptr` is copied. -/
def hold (s : ServerState ι) (sid : Nat) : ServerState ι :=
  s.setOwners sid ((s.sessions sid).owners + 1)

/-- A copy goes. -/
def release (s : ServerState ι) (sid : Nat) : ServerState ι :=
  s.setOwners sid ((s.sessions sid).owners - 1)

/-- The handler of a read goes on with its session, to `s'`. -/
def through (s : ServerState ι) (sid : Nat) (s' : ServerState ι) : ServerState ι :=
  if s.isThere sid then s' else { s with undefined := true }

/-! ### `m_lock` -/

def races (s : ServerState ι) (a : Access) : Bool := s.inside.any a.races

/-- One round of `lock`, to stay at `stay` or go on to `go`. -/
def lock {α : Type} (s : ServerState ι) (a : Access) (stay go : α) : ServerState ι × α :=
  let (flag, returns) := SpinLock.round s.mFlag
  ({ s with
      mFlag := flag
      inside := if returns then a :: s.inside else s.inside
      undefined := s.undefined || returns && s.races a },
    if returns then go else stay)

def unlock (s : ServerState ι) (a : Access) : ServerState ι :=
  { s with mFlag := false, inside := s.inside.erase a }

/-! ### The calls -/

/-- `connect` of the session. -/
def connect (s : ServerState ι) (sid : Nat) : ServerState ι :=
  let ss := s.sessions sid
  (s.setSession sid { ss with link := ss.link.connect, reading := true }).emit (.onConnect sid)

/-- `disconnect` of the session. -/
def hangUp (s : ServerState ι) (sid : Nat) : ServerState ι :=
  let ss := s.sessions sid
  (s.setSession sid { ss with link := ss.link.disconnect }).emit (.onDisconnect sid)

/-- `m_objects`, in its order -/
def objects (s : ServerState ι) : List Nat :=
  (List.range (s.accepting + 1)).filter fun sid => (s.sessions sid).pooled

def addObject (s : ServerState ι) (sid : Nat) : ServerState ι :=
  if (s.sessions sid).pooled then s
  else s.setSession sid { s.sessions sid with pooled := true, joined := true }

def delObject (s : ServerState ι) (sid : Nat) : ServerState ι :=
  s.setSession sid { s.sessions sid with pooled := false }

def clear (s : ServerState ι) : ServerState ι :=
  { s with sessions := fun sid => { s.sessions sid with pooled := false } }

/-- One step of `disconnect(sid)`. -/
def tearNext (s : ServerState ι) (sid : Nat) (pc : TearPc) : Option (ServerState ι × TearPc) :=
  match pc with
  | .lockFind => some (s.lock .reads .lockFind .find)
  | .find =>
    if (s.sessions sid).pooled then some ((s.unlock .reads).hold sid, .test)
    else some (s.unlock .reads, .threw)
  | .test => if s.isConnected sid then some (s, .disconnect) else some (s.release sid, .threw)
  | .disconnect => some (s.hangUp sid, .lockErase)
  | .lockErase => some (s.lock .writes .lockErase .erase)
  | .erase => some ((s.delObject sid).unlock .writes, .leave)
  | .leave => some (s.release sid, .done)
  | .done | .threw => none

def ioNext (s : ServerState ι) : Option (ServerState ι) :=
  match s.io with
  | .rest => none
  | .accepted ec =>
    if s.mStopped then some { s with io := .leave s.accepting }
    else some { s with io := if ec then .lockCreate else .connect }
  | .connect => some { s.connect s.accepting with io := .lockAdd }
  | .lockAdd =>
    let (s', pc) := s.lock .writes IoPc.lockAdd IoPc.add
    some { s' with io := pc }
  | .add => some { (s.addObject s.accepting).unlock .writes with io := .lockCreate }
  | .lockCreate =>
    let (s', pc) := s.lock .nothing IoPc.lockCreate IoPc.create
    some { s' with io := pc }
  | .create =>
    some { s.unlock .nothing with
      accepting := s.accepting + 1, armed := true, io := .leave s.accepting }
  | .leave sid => some { s.release sid with io := .rest }
  | .first sid ec =>
    some (s.through sid
      (if (s.sessions sid).link.mStopped then { s with io := .rest }
      else { s with io := if ec then .error sid else .message sid }))
  | .error sid =>
    some (s.through sid { s.emit (.onReceiveError sid) with io := .tear sid .lockFind })
  | .tear sid pc => (s.tearNext sid pc).map fun (s', pc') =>
    match pc' with
    | .done => { s' with io := .second sid }
    | .threw => { s' with escaped := true }
    | pc' => { s' with io := .tear sid pc' }
  | .message sid => some (s.through sid { s.emit (.onReceive sid) with io := .second sid })
  | .second sid =>
    some (s.through sid
      (if (s.sessions sid).link.mStopped then { s with io := .rest }
      else { s.setSession sid { s.sessions sid with reading := true } with io := .rest }))

variable [DecidableEq ι]

def setCaller (s : ServerState ι) (t : ι) (pc : CallerPc) : ServerState ι :=
  { s with callers := Function.update s.callers t pc }

/-- An exception of `disconnect` is for its caller. -/
def callerNext (s : ServerState ι) (t : ι) : Option (ServerState ι) :=
  match s.callers t with
  | .idle => none
  | .tear sid pc => (s.tearNext sid pc).map fun (s', pc') =>
    match pc' with
    | .done | .threw => s'.setCaller t .idle
    | pc' => s'.setCaller t (.tear sid pc')
  | .stop => some ({ s with mStopped := true }.setCaller t .lockEach)
  | .lockEach =>
    let (s', pc) := s.lock .reads CallerPc.lockEach (CallerPc.visit s.objects)
    some (s'.setCaller t pc)
  | .visit [] => some ((s.unlock .reads).setCaller t .lockClear)
  | .visit (sid :: sids) =>
    if s.isConnected sid then some ((s.hold sid).setCaller t (.disconnect sid sids))
    else some (s.setCaller t (.visit sids))
  | .disconnect sid sids => some (((s.hangUp sid).release sid).setCaller t (.visit sids))
  | .lockClear =>
    let (s', pc) := s.lock .writes CallerPc.lockClear CallerPc.clear
    some (s'.setCaller t pc)
  | .clear => some ((s.clear.unlock .writes).setCaller t .idle)

def step (s : ServerState ι) (a : ServerAct ι) : Option (ServerState ι) :=
  if s.escaped ∨ s.undefined then none
  else match a with
    | .accept ec =>
      if s.armed ∧ s.io = .rest then some { s with armed := false, io := .accepted ec } else none
    | .complete sid ec =>
      if (s.sessions sid).reading ∧ s.io = .rest then
        some { s.setSession sid { s.sessions sid with reading := false } with io := .first sid ec }
      else none
    | .io => s.ioNext
    | .disconnect t sid =>
      if s.callers t = .idle then some (s.setCaller t (.tear sid .lockFind)) else none
    | .shutdown t => if s.callers t = .idle then some (s.setCaller t .stop) else none
    | .next t => s.callerNext t

/-- Nothing is received on a session after its `on_disconnect`. -/
def Last (log : List Event) : Prop :=
  log.Pairwise fun a b =>
    ∀ sid, a = .onDisconnect sid → b ≠ .onReceive sid ∧ b ≠ .onReceiveError sid

/-- What holds of the callbacks, whatever has run. -/
structure Clean (s : ServerState ι) : Prop where
  once : ∀ sid, s.log.count (.onDisconnect sid) ≤ 1
  left : ∀ sid, (s.sessions sid).joined = true → (s.sessions sid).pooled = false →
    s.log.count (.onDisconnect sid) = 1
  last : Last s.log
  contained : s.escaped = false
  defined : s.undefined = false

/-- The lock does not return into a race. -/
def Free (s : ServerState ι) (a : Access) : Prop := s.mFlag = true → s.races a = false

/-- What a step of `disconnect(sid)` was told is still so. -/
def TearCurrent (s : ServerState ι) (sid : Nat) : TearPc → Prop
  | .lockFind => s.Free .reads
  | .lockErase => s.Free .writes
  | .disconnect => s.isConnected sid = true
  | _ => True

/-- It does not throw. -/
def Contained (s : ServerState ι) (sid : Nat) : TearPc → Prop
  | .find => (s.sessions sid).pooled = true
  | .test => s.isConnected sid = true
  | _ => True

def IoCurrent (s : ServerState ι) : IoPc → Prop
  | .lockAdd => s.Free .writes
  | .first sid _ | .second sid => s.isThere sid = true
  | .error sid | .message sid => s.isThere sid = true ∧ s.isConnected sid = true
  | .tear sid pc => s.TearCurrent sid pc ∧ s.Contained sid pc
  | _ => True

def CallerCurrent (s : ServerState ι) : CallerPc → Prop
  | .tear sid pc => s.TearCurrent sid pc
  | .lockEach => s.Free .reads
  | .disconnect sid _ => s.isConnected sid = true
  | .lockClear => s.Free .writes
  | .clear => ∀ sid ∈ s.objects, s.isConnected sid = false
  | _ => True

/-- What the step was told by a test before it is still so. -/
def Current (s : ServerState ι) : ServerAct ι → Prop
  | .io => s.IoCurrent s.io
  | .next t => s.CallerCurrent (s.callers t)
  | _ => True

end ServerState

/-! ## The life of a session -/

namespace Link

def up : Link := ⟨.connected, false⟩

def down : Link := ⟨.broken, true⟩

end Link

/-- A session, and how often its `on_disconnect` has been called. -/
structure SessionInv (ss : ServerSession) (n : Nat) : Prop where
  link : ss.link = .new ∨ ss.link = .up ∨ ss.link = .down
  reading : ss.reading = true → ss.link ≠ .new
  joined : ss.joined = true → ss.link ≠ .new
  pooled : ss.pooled = true → ss.joined = true
  left : ss.joined = true → ss.pooled = false → ss.link = .down
  count : n = if ss.link = .down then 1 else 0

namespace SessionInv

variable {ss : ServerSession} {n : Nat}

theorem new : SessionInv .new 0 where
  link := Or.inl rfl
  reading := nofun
  joined := nofun
  pooled := nofun
  left := nofun
  count := rfl

theorem isConnected_iff (h : SessionInv ss n) : ss.link.isConnected = true ↔ ss.link = .up := by
  rcases h.link with hl | hl | hl <;> rw [hl] <;> decide

/-- A session that has been connected and is not is disconnected. -/
theorem down_of_not_connected (h : SessionInv ss n) (hnew : ss.link ≠ .new)
    (hc : ¬ ss.link.isConnected = true) : ss.link = .down := by
  rcases h.link with hl | hl | hl
  · exact absurd hl hnew
  · exact absurd (h.isConnected_iff.mpr hl) hc
  · exact hl

theorem connect (h : SessionInv ss n) (hnew : ss.link = .new) :
    SessionInv { ss with link := ss.link.connect, reading := true } n where
  link := by
    rw [hnew]
    exact Or.inr (Or.inl rfl)
  reading _ := by
    rw [hnew]
    nofun
  joined hj := absurd hnew (h.joined hj)
  pooled := h.pooled
  left hj _ := absurd hnew (h.joined hj)
  count := by
    rw [h.count, hnew]
    rfl

theorem add (h : SessionInv ss n) (hnew : ss.link ≠ .new) :
    SessionInv { ss with pooled := true, joined := true } n :=
  ⟨h.link, h.reading, fun _ => hnew, fun _ => rfl, nofun, h.count⟩

/-- A `shared_ptr` to it comes or goes. -/
theorem own (h : SessionInv ss n) {owners : Nat} : SessionInv { ss with owners := owners } n :=
  ⟨h.link, h.reading, h.joined, h.pooled, h.left, h.count⟩

theorem hangUp (h : SessionInv ss n) (hup : ss.link = .up) :
    SessionInv { ss with link := ss.link.disconnect } (n + 1) where
  link := Or.inr (Or.inr rfl)
  reading _ := nofun
  joined _ := nofun
  pooled := h.pooled
  left _ _ := rfl
  count := by
    rw [h.count, hup]
    rfl

/-- It is taken out of the pool. -/
theorem erase (h : SessionInv ss n) (hdown : ss.joined = true → ss.link = .down) :
    SessionInv { ss with pooled := false } n :=
  ⟨h.link, h.reading, h.joined, nofun, fun hj _ => hdown hj, h.count⟩

theorem read (h : SessionInv ss n) {b : Bool} (hnew : b = true → ss.link ≠ .new) :
    SessionInv { ss with reading := b } n :=
  ⟨h.link, hnew, h.joined, h.pooled, h.left, h.count⟩

end SessionInv

/-! ## The invariant -/

/-- No session goes back. -/
def Onward (f g : Nat → ServerSession) : Prop :=
  ∀ sid, ((f sid).link ≠ .new → (g sid).link ≠ .new) ∧
    ((f sid).link = .down → (g sid).link = .down)

/-- A session stays as it is, or goes from connected to disconnected. -/
def Steady (f g : Nat → ServerSession) : Prop :=
  ∀ sid, (g sid).link = (f sid).link ∨ (f sid).link = .up ∧ (g sid).link = .down

/-- What is known at a point of the code; `l` is the link of the session. -/
def TearPc.Ok (l : Link) : TearPc → Prop
  | .disconnect => l ≠ .new
  | .lockErase | .erase => l = .down
  | .lockFind | .find | .test | .leave | .done | .threw => True

def CallerPc.Ok (f : Nat → ServerSession) : CallerPc → Prop
  | .tear sid pc => pc.Ok (f sid).link
  | .disconnect sid _ => (f sid).link ≠ .new
  | .idle | .stop | .lockEach | .visit _ | .lockClear | .clear => True

def IoPc.Ok (f : Nat → ServerSession) (accepting : Nat) (armed : Bool) : IoPc → Prop
  | .rest | .leave _ => True
  | .accepted _ | .connect => armed = false ∧ (f accepting).link = .new
  | .lockAdd | .add => armed = false ∧ (f accepting).link ≠ .new
  | .lockCreate | .create => armed = false
  | .first sid _ | .error sid | .message sid | .second sid => (f sid).link ≠ .new
  | .tear sid pc => (f sid).link ≠ .new ∧ pc.Ok (f sid).link

section

variable {f g : Nat → ServerSession} {sid : Nat}

theorem Steady.refl (f : Nat → ServerSession) : Steady f f := fun _ => Or.inl rfl

theorem Steady.new_iff (h : Steady f g) : (g sid).link = .new ↔ (f sid).link = .new := by
  rcases h sid with he | ⟨hf, hg⟩
  · rw [he]
  · rw [hf, hg]
    exact ⟨nofun, nofun⟩

theorem Steady.onward (h : Steady f g) : Onward f g := by
  refine fun sid => ⟨h.new_iff.not.mpr, fun hdown => ?_⟩
  rcases h sid with he | ⟨hup, -⟩
  · rw [he, hdown]
  · cases hup.symm.trans hdown

theorem TearPc.Ok.onward {pc : TearPc} (h : pc.Ok (f sid).link) (hfg : Onward f g) :
    pc.Ok (g sid).link := by
  cases pc with
  | disconnect => exact (hfg sid).1 h
  | lockErase | erase => exact (hfg sid).2 h
  | lockFind | find | test | leave | done | threw => trivial

theorem CallerPc.Ok.onward {pc : CallerPc} (h : pc.Ok f) (hfg : Onward f g) : pc.Ok g := by
  cases pc with
  | tear sid pc => exact TearPc.Ok.onward h hfg
  | disconnect sid sids => exact (hfg sid).1 h
  | idle | stop | lockEach | visit | lockClear | clear => trivial

theorem IoPc.Ok.steady {pc : IoPc} {accepting : Nat} {armed : Bool} (h : pc.Ok f accepting armed)
    (hfg : Steady f g) : pc.Ok g accepting armed := by
  cases pc with
  | accepted | connect => exact ⟨h.1, hfg.new_iff.mpr h.2⟩
  | lockAdd | add => exact ⟨h.1, hfg.new_iff.not.mpr h.2⟩
  | first | error | message | second => exact hfg.new_iff.not.mpr h
  | tear => exact ⟨hfg.new_iff.not.mpr h.1, h.2.onward hfg.onward⟩
  | lockCreate | create => exact h
  | rest | leave => trivial

end

namespace ServerState

variable {ι : Type}

structure Inv (s : ServerState ι) : Prop where
  session : ∀ sid, SessionInv (s.sessions sid) (s.log.count (.onDisconnect sid))
  last : Last s.log
  contained : s.escaped = false
  defined : s.undefined = false
  fresh : ∀ sid, s.accepting < sid → (s.sessions sid).link = .new
  armed : s.armed = true → (s.sessions s.accepting).link = .new
  io : s.io.Ok s.sessions s.accepting s.armed
  callers : ∀ t, (s.callers t).Ok s.sessions

variable {s s' : ServerState ι} {sid u : Nat} {pc pc' : TearPc} {a : Access}

theorem setSession_self {ss : ServerSession} : (s.setSession sid ss).sessions sid = ss :=
  Function.update_self _ _ _

theorem setSession_of_ne {ss : ServerSession} (h : u ≠ sid) :
    (s.setSession sid ss).sessions u = s.sessions u :=
  Function.update_of_ne h _ _

theorem inv_init : Inv (init : ServerState ι) where
  session _ := .new
  last := .nil
  contained := rfl
  defined := rfl
  fresh _ _ := rfl
  armed _ := rfl
  io := trivial
  callers _ := trivial

theorem Inv.clean (h : Inv s) : Clean s where
  once sid := by
    rw [(h.session sid).count]
    split
    · exact Nat.le_refl 1
    · exact Nat.zero_le 1
  left sid hj hp := by rw [(h.session sid).count, if_pos ((h.session sid).left hj hp)]
  last := h.last
  contained := h.contained
  defined := h.defined

/-- The sessions and the callbacks go on. -/
theorem Inv.steady {f : Nat → ServerSession} {log : List Event} (h : Inv s)
    (hsession : ∀ sid, SessionInv (f sid) (log.count (.onDisconnect sid))) (hlast : Last log)
    (hf : Steady s.sessions f) : Inv { s with sessions := f, log := log } where
  session := hsession
  last := hlast
  contained := h.contained
  defined := h.defined
  fresh sid hlt := hf.new_iff.mpr (h.fresh sid hlt)
  armed ha := hf.new_iff.mpr (h.armed ha)
  io := h.io.steady hf
  callers t := (h.callers t).onward hf.onward

theorem Inv.goes {pc : IoPc} (h : Inv s) (hpc : pc.Ok s.sessions s.accepting s.armed) :
    Inv { s with io := pc } :=
  ⟨h.session, h.last, h.contained, h.defined, h.fresh, h.armed, hpc, h.callers⟩

/-- A round of `lock`, the flag once read. -/
theorem lock_eq {α : Type} {stay go : α} : s.lock a stay go =
    ({ s with
        mFlag := true
        inside := if s.mFlag then a :: s.inside else s.inside
        undefined := s.undefined || s.mFlag && s.races a },
      if s.mFlag then go else stay) := by
  cases hf : s.mFlag <;> simp [lock, SpinLock.round, SpinLock.testAndSet, hf]

theorem Inv.lock (h : Inv s) (hfree : s.Free a) :
    Inv { s with
      mFlag := true
      inside := if s.mFlag then a :: s.inside else s.inside
      undefined := s.undefined || s.mFlag && s.races a } := by
  have hdefined : (s.undefined || s.mFlag && s.races a) = false := by
    rw [h.defined, Bool.false_or]
    cases hf : s.mFlag with
    | false => rfl
    | true => exact hfree hf
  exact ⟨h.session, h.last, h.contained, hdefined, h.fresh, h.armed, h.io, h.callers⟩

theorem Inv.unlock (h : Inv s) : Inv (s.unlock a) :=
  ⟨h.session, h.last, h.contained, h.defined, h.fresh, h.armed, h.io, h.callers⟩

theorem races_nothing : s.races .nothing = false := by
  refine List.any_eq_false.mpr fun a _ => ?_
  cases a <;> nofun

/-- The lock returns into a race. -/
theorem undefined_of_not_free (hfree : ¬ s.Free a) :
    (s.undefined || s.mFlag && s.races a) = true := by
  obtain ⟨hf, hraces⟩ := Classical.not_imp.mp hfree
  rw [hf, Bool.eq_true_of_not_eq_false hraces, Bool.and_self, Bool.or_true]

theorem Inv.setSession {ss : ServerSession} (h : Inv s)
    (hss : SessionInv ss (s.log.count (.onDisconnect sid)))
    (hlink : ss.link = (s.sessions sid).link) : Inv (s.setSession sid ss) := by
  refine h.steady ?_ h.last fun u => Or.inl ?_
  · exact (Function.forall_update_iff s.sessions fun u ss =>
      SessionInv ss (s.log.count (.onDisconnect u))).mpr ⟨hss, fun u _ => h.session u⟩
  · by_cases hu : u = sid
    · rw [hu, Function.update_self, hlink]
    · rw [Function.update_of_ne hu]

theorem through_of_isThere (h : s.isThere sid = true) : s.through sid s' = s' := if_pos h

theorem Inv.setOwners {owners : Nat} (h : Inv s) : Inv (s.setOwners sid owners) :=
  h.setSession (h.session sid).own rfl

theorem setOwners_link {owners : Nat} :
    ((s.setOwners sid owners).sessions u).link = (s.sessions u).link := by
  by_cases hu : u = sid
  · have hself : (s.setOwners sid owners).sessions sid =
        { s.sessions sid with owners := owners } := setSession_self
    rw [hu, hself]
  · exact congrArg ServerSession.link (setSession_of_ne hu)

theorem last_append {log : List Event} {e : Event} (h : Last log)
    (he : ∀ sid, e = .onReceive sid ∨ e = .onReceiveError sid → .onDisconnect sid ∉ log) :
    Last (log ++ [e]) := by
  refine List.pairwise_append.mpr ⟨h, List.pairwise_singleton _ _, ?_⟩
  intro a ha b hb sid hsid
  rw [List.mem_singleton.mp hb]
  rw [hsid] at ha
  exact ⟨fun hr => he sid (Or.inl hr) ha, fun hr => he sid (Or.inr hr) ha⟩

theorem count_append_of_ne {log : List Event} {e : Event} (hne : e ≠ .onDisconnect sid) :
    (log ++ [e]).count (.onDisconnect sid) = log.count (.onDisconnect sid) := by
  rw [List.count_append, List.count_singleton, beq_eq_false_iff_ne.mpr hne]
  rfl

/-- A callback that is not `on_disconnect`. -/
theorem Inv.emit {e : Event} (h : Inv s) (hne : ∀ sid, e ≠ .onDisconnect sid)
    (he : ∀ sid, e = .onReceive sid ∨ e = .onReceiveError sid → s.isConnected sid = true) :
    Inv (s.emit e) := by
  refine h.steady (fun sid => ?_) (last_append h.last fun sid hr => ?_) (.refl _)
  · rw [count_append_of_ne (hne sid)]
    exact h.session sid
  · have hsession := h.session sid
    have hup := hsession.isConnected_iff.mp (he sid hr)
    rw [← List.count_eq_zero, hsession.count, hup]
    rfl

theorem Inv.hangUp (h : Inv s) (hc : s.isConnected sid = true) : Inv (s.hangUp sid) := by
  have hup := (h.session sid).isConnected_iff.mp hc
  refine h.steady (fun u => ?_) (last_append h.last nofun) fun u => ?_
  · by_cases hu : u = sid
    · rw [hu, setSession_self, List.count_append, List.count_singleton_self]
      exact (h.session sid).hangUp hup
    · rw [setSession_of_ne hu, count_append_of_ne (by simpa using Ne.symm hu)]
      exact h.session u
  · by_cases hu : u = sid
    · rw [hu, setSession_self]
      exact Or.inr ⟨hup, rfl⟩
    · rw [setSession_of_ne hu]
      exact Or.inl rfl

theorem Inv.addObject (h : Inv s) (hnew : (s.sessions sid).link ≠ .new) :
    Inv (s.addObject sid) := by
  unfold ServerState.addObject
  split
  · exact h
  · exact h.setSession ((h.session sid).add hnew) rfl

theorem addObject_armed : (s.addObject sid).armed = s.armed := by
  unfold ServerState.addObject
  split <;> rfl

theorem Inv.delObject (h : Inv s) (hdown : (s.sessions sid).link = .down) :
    Inv (s.delObject sid) :=
  h.setSession ((h.session sid).erase fun _ => hdown) rfl

theorem Inv.read {b : Bool} (h : Inv s) (hnew : (s.sessions sid).link ≠ .new) :
    Inv (s.setSession sid { s.sessions sid with reading := b }) :=
  h.setSession ((h.session sid).read fun _ => hnew) rfl

/-- What is in the pool has been accepted. -/
theorem Inv.mem_objects (h : Inv s) (hp : (s.sessions sid).pooled = true) : sid ∈ s.objects := by
  have hsession := h.session sid
  have hle : sid ≤ s.accepting := by
    by_contra hlt
    exact hsession.joined (hsession.pooled hp) (h.fresh sid (Nat.lt_of_not_le hlt))
  exact List.mem_filter.mpr ⟨List.mem_range.mpr (Nat.lt_succ_of_le hle), hp⟩

theorem Inv.clear (h : Inv s) (hc : ∀ sid ∈ s.objects, s.isConnected sid = false) :
    Inv s.clear := by
  refine h.steady (fun sid => (h.session sid).erase fun hj => ?_) h.last (.refl _)
  have hsession := h.session sid
  cases hp : (s.sessions sid).pooled with
  | false => exact hsession.left hj hp
  | true =>
    refine hsession.down_of_not_connected (hsession.joined hj) ?_
    rw [Bool.not_eq_true]
    exact hc sid (h.mem_objects hp)

/-- A step of `disconnect(sid)`. -/
theorem Inv.tear (h : Inv s) (hpc : pc.Ok (s.sessions sid).link) (hc : s.TearCurrent sid pc)
    (hs : s.tearNext sid pc = some (s', pc')) : Inv s' ∧ pc'.Ok (s'.sessions sid).link := by
  cases pc with
  | lockFind =>
    simp only [tearNext, lock_eq, Option.some.injEq, Prod.mk.injEq] at hs
    obtain ⟨rfl, rfl⟩ := hs
    refine ⟨h.lock hc, ?_⟩
    split <;> trivial
  | find =>
    simp only [tearNext] at hs
    split at hs
    · cases hs
      exact ⟨h.unlock.setOwners, trivial⟩
    · cases hs
      exact ⟨h.unlock, trivial⟩
  | test =>
    simp only [tearNext] at hs
    split at hs
    · next hconn =>
      cases hs
      have hup := (h.session sid).isConnected_iff.mp hconn
      exact ⟨h, fun hl => nomatch hup.symm.trans hl⟩
    · cases hs
      exact ⟨h.setOwners, trivial⟩
  | disconnect =>
    simp only [tearNext, Option.some.injEq, Prod.mk.injEq] at hs
    obtain ⟨rfl, rfl⟩ := hs
    exact ⟨h.hangUp hc, congrArg ServerSession.link setSession_self⟩
  | lockErase =>
    simp only [tearNext, lock_eq, Option.some.injEq, Prod.mk.injEq] at hs
    obtain ⟨rfl, rfl⟩ := hs
    refine ⟨h.lock hc, ?_⟩
    split <;> exact hpc
  | erase =>
    simp only [tearNext, Option.some.injEq, Prod.mk.injEq] at hs
    obtain ⟨rfl, rfl⟩ := hs
    exact ⟨(h.delObject hpc).unlock, trivial⟩
  | leave =>
    simp only [tearNext, Option.some.injEq, Prod.mk.injEq] at hs
    obtain ⟨rfl, rfl⟩ := hs
    exact ⟨h.setOwners, trivial⟩
  | done | threw => cases hs

theorem tearNext_io (hs : s.tearNext sid pc = some (s', pc')) : s'.io = s.io := by
  cases pc with
  | find | test =>
    simp only [tearNext] at hs
    split at hs <;> cases hs <;> rfl
  | lockFind | lockErase =>
    simp only [tearNext, lock_eq, Option.some.injEq, Prod.mk.injEq] at hs
    obtain ⟨rfl, -⟩ := hs
    rfl
  | disconnect | erase | leave =>
    simp only [tearNext, Option.some.injEq, Prod.mk.injEq] at hs
    obtain ⟨rfl, -⟩ := hs
    rfl
  | done | threw => cases hs

/-- Where `disconnect(sid)` may throw it does not. -/
theorem tearNext_ne_threw (hc : s.Contained sid pc) (hs : s.tearNext sid pc = some (s', pc')) :
    pc' ≠ .threw := by
  cases pc with
  | find =>
    have hp : (s.sessions sid).pooled = true := hc
    simp only [tearNext, if_pos hp, Option.some.injEq, Prod.mk.injEq] at hs
    obtain ⟨-, rfl⟩ := hs
    nofun
  | test =>
    have hconn : s.isConnected sid = true := hc
    simp only [tearNext, if_pos hconn, Option.some.injEq, Prod.mk.injEq] at hs
    obtain ⟨-, rfl⟩ := hs
    nofun
  | lockFind | lockErase =>
    simp only [tearNext, lock_eq, Option.some.injEq, Prod.mk.injEq] at hs
    obtain ⟨-, rfl⟩ := hs
    split <;> nofun
  | disconnect | erase | leave =>
    simp only [tearNext, Option.some.injEq, Prod.mk.injEq] at hs
    obtain ⟨-, rfl⟩ := hs
    nofun
  | done | threw => cases hs

theorem connect_up (hnew : (s.sessions sid).link = .new) :
    ((s.connect sid).sessions sid).link = .up := by
  refine (congrArg ServerSession.link setSession_self).trans ?_
  rw [hnew]
  rfl

theorem connect_of_ne (h : u ≠ sid) : (s.connect sid).sessions u = s.sessions u :=
  setSession_of_ne h

theorem connect_onward (hnew : (s.sessions sid).link = .new) :
    Onward s.sessions (s.connect sid).sessions := by
  intro u
  by_cases hu : u = sid
  · rw [hu, hnew]
    exact ⟨absurd rfl, nofun⟩
  · rw [connect_of_ne hu]
    exact ⟨id, id⟩

/-- The new session has its connection, and goes into the pool next. -/
theorem Inv.connect (h : Inv s) (hpc : s.io = .connect) :
    Inv { s.connect s.accepting with io := .lockAdd } := by
  have hio := h.io
  rw [hpc] at hio
  obtain ⟨hunarmed, hnew⟩ := hio
  have hother : ∀ u, u ≠ s.accepting → (s.connect s.accepting).sessions u = s.sessions u :=
    fun _ => connect_of_ne
  refine ⟨fun u => ?_, last_append h.last nofun, h.contained, h.defined, fun u hlt => ?_, fun ha => ?_,
    ⟨hunarmed, ?_⟩, fun t => (h.callers t).onward (connect_onward hnew)⟩
  · show SessionInv ((s.connect s.accepting).sessions u) ((s.log ++ [_]).count _)
    rw [count_append_of_ne (e := .onConnect s.accepting) nofun]
    by_cases hu : u = s.accepting
    · rw [hu]
      exact setSession_self ▸ (h.session s.accepting).connect hnew
    · exact hother u hu ▸ h.session u
  · rw [hother u (Nat.ne_of_gt hlt)]
    exact h.fresh u hlt
  · cases hunarmed.symm.trans ha
  · exact fun hl => nomatch (connect_up hnew).symm.trans hl

theorem Inv.ioNext (h : Inv s) (hc : s.IoCurrent s.io) (hs : s.ioNext = some s') : Inv s' := by
  unfold ServerState.ioNext at hs
  have hio := h.io
  cases hpc : s.io with
  | rest =>
    rw [hpc] at hs
    cases hs
  | accepted ec =>
    rw [hpc] at hio
    simp only [hpc] at hs
    split at hs
    · cases hs
      exact h.goes trivial
    · cases hs
      cases ec with
      | false => exact h.goes hio
      | true => exact h.goes hio.1
  | connect =>
    simp only [hpc] at hs
    cases hs
    exact h.connect hpc
  | lockAdd =>
    rw [hpc] at hio hc
    simp only [hpc, lock_eq, Option.some.injEq] at hs
    subst hs
    refine (h.lock hc).goes ?_
    split <;> exact hio
  | add =>
    rw [hpc] at hio
    simp only [hpc] at hs
    cases hs
    exact (h.addObject hio.2).unlock.goes (addObject_armed.trans hio.1)
  | lockCreate =>
    rw [hpc] at hio
    simp only [hpc, lock_eq, Option.some.injEq] at hs
    subst hs
    have hfree : s.Free .nothing := fun _ => races_nothing
    refine (h.lock hfree).goes ?_
    split <;> exact hio
  | create =>
    simp only [hpc] at hs
    cases hs
    exact ⟨h.session, h.last, h.contained, h.defined, fun u hlt => h.fresh u (Nat.lt_of_succ_lt hlt),
      fun _ => h.fresh _ (Nat.lt_succ_self _), trivial, h.callers⟩
  | leave sid =>
    simp only [hpc] at hs
    cases hs
    exact h.setOwners.goes trivial
  | first sid ec =>
    rw [hpc] at hio hc
    simp only [hpc, through_of_isThere hc] at hs
    split at hs
    · cases hs
      exact h.goes trivial
    · cases hs
      cases ec with
      | false => exact h.goes hio
      | true => exact h.goes hio
  | error sid =>
    rw [hpc] at hio hc
    simp only [hpc, through_of_isThere hc.1] at hs
    cases hs
    refine (h.emit (e := .onReceiveError sid) nofun ?_).goes ⟨hio, trivial⟩
    rintro u (he | he) <;> cases he
    exact hc.2
  | tear sid pc =>
    rw [hpc] at hio hc
    simp only [hpc, Option.map_eq_some_iff, Prod.exists] at hs
    obtain ⟨m, pc', htear, rfl⟩ := hs
    obtain ⟨hm, hok⟩ := h.tear hio.2 hc.1 htear
    have hmio := hm.io
    rw [tearNext_io htear, hpc] at hmio
    cases pc' with
    | done => exact hm.goes hmio.1
    | threw => exact absurd rfl (tearNext_ne_threw hc.2 htear)
    | lockFind | find | test | disconnect | lockErase | erase | leave =>
      exact hm.goes ⟨hmio.1, hok⟩
  | message sid =>
    rw [hpc] at hio hc
    simp only [hpc, through_of_isThere hc.1] at hs
    cases hs
    refine (h.emit (e := .onReceive sid) nofun ?_).goes hio
    rintro u (he | he) <;> cases he
    exact hc.2
  | second sid =>
    rw [hpc] at hio hc
    simp only [hpc, through_of_isThere hc] at hs
    split at hs
    · cases hs
      exact h.goes trivial
    · cases hs
      exact (h.read hio).goes trivial

variable [DecidableEq ι] {t : ι}

theorem Inv.setCaller {pc : CallerPc} (h : Inv s) (hpc : pc.Ok s.sessions) :
    Inv (s.setCaller t pc) where
  session := h.session
  last := h.last
  contained := h.contained
  defined := h.defined
  fresh := h.fresh
  armed := h.armed
  io := h.io
  callers := (Function.forall_update_iff s.callers fun _ pc => pc.Ok s.sessions).mpr
    ⟨hpc, fun u _ => h.callers u⟩

theorem Inv.callerNext (h : Inv s) (hc : s.CallerCurrent (s.callers t))
    (hs : s.callerNext t = some s') : Inv s' := by
  unfold ServerState.callerNext at hs
  have hcaller := h.callers t
  cases hpc : s.callers t with
  | idle =>
    rw [hpc] at hs
    cases hs
  | tear sid pc =>
    rw [hpc] at hcaller hc
    simp only [hpc, Option.map_eq_some_iff, Prod.exists] at hs
    obtain ⟨m, pc', htear, rfl⟩ := hs
    obtain ⟨hm, hok⟩ := h.tear hcaller hc htear
    cases pc' with
    | done | threw => exact hm.setCaller trivial
    | lockFind | find | test | disconnect | lockErase | erase | leave => exact hm.setCaller hok
  | stop =>
    simp only [hpc] at hs
    cases hs
    have hm : Inv { s with mStopped := true } :=
      ⟨h.session, h.last, h.contained, h.defined, h.fresh, h.armed, h.io, h.callers⟩
    exact hm.setCaller trivial
  | lockEach | lockClear =>
    rw [hpc] at hc
    simp only [hpc, lock_eq, Option.some.injEq] at hs
    subst hs
    refine (h.lock hc).setCaller ?_
    split <;> trivial
  | visit sids =>
    cases sids with
    | nil =>
      simp only [hpc] at hs
      cases hs
      exact h.unlock.setCaller trivial
    | cons sid sids =>
      simp only [hpc] at hs
      split at hs
      · next hconn =>
        cases hs
        refine h.setOwners.setCaller ?_
        have hup := (h.session sid).isConnected_iff.mp hconn
        exact fun hl => nomatch hup.symm.trans (setOwners_link.symm.trans hl)
      · cases hs
        exact h.setCaller trivial
  | disconnect sid sids =>
    rw [hpc] at hc
    simp only [hpc] at hs
    cases hs
    exact (h.hangUp hc).setOwners.setCaller trivial
  | clear =>
    rw [hpc] at hc
    simp only [hpc] at hs
    cases hs
    exact (h.clear hc).unlock.setCaller trivial

theorem Inv.step {a : ServerAct ι} (h : Inv s) (hc : Current s a) (hs : step s a = some s') :
    Inv s' := by
  unfold ServerState.step at hs
  split at hs
  · cases hs
  · cases a with
    | io => exact h.ioNext hc hs
    | next t => exact h.callerNext hc hs
    | accept ec =>
      simp only [Option.ite_none_right_eq_some, Option.some.injEq] at hs
      obtain ⟨⟨harmed, -⟩, rfl⟩ := hs
      exact ⟨h.session, h.last, h.contained, h.defined, h.fresh, nofun, ⟨rfl, h.armed harmed⟩,
        h.callers⟩
    | complete sid ec =>
      simp only [Option.ite_none_right_eq_some, Option.some.injEq] at hs
      obtain ⟨⟨hreading, -⟩, rfl⟩ := hs
      have hnew := (h.session sid).reading hreading
      refine (h.read hnew).goes ?_
      show ((s.setSession sid _).sessions sid).link ≠ .new
      rw [setSession_self]
      exact hnew
    | disconnect t sid | shutdown t =>
      simp only [Option.ite_none_right_eq_some, Option.some.injEq] at hs
      obtain ⟨-, rfl⟩ := hs
      exact h.setCaller trivial

/-! A step on what is no longer so is seen. -/

section

omit [DecidableEq ι]

theorem Inv.count_of_not_connected (h : Inv s) (hnew : (s.sessions sid).link ≠ .new)
    (hc : ¬ s.isConnected sid = true) : s.log.count (.onDisconnect sid) = 1 := by
  have hsession := h.session sid
  rw [hsession.count, if_pos (hsession.down_of_not_connected hnew hc)]

/-- It is disconnected again. -/
theorem not_clean_again (hcount : s.log.count (.onDisconnect sid) = 1)
    (hlog : s'.log = s.log ++ [.onDisconnect sid]) : ¬ Clean s' := by
  intro hclean
  have honce := hclean.once sid
  rw [hlog, List.count_append, List.count_singleton_self, hcount] at honce
  omega

/-- Something is received on it after all. -/
theorem Inv.not_clean_receive {e : Event} (h : Inv s) (hnew : (s.sessions sid).link ≠ .new)
    (hc : ¬ s.isConnected sid = true) (hlog : s'.log = s.log ++ [e])
    (he : e = .onReceive sid ∨ e = .onReceiveError sid) : ¬ Clean s' := by
  intro hclean
  have hcount := h.count_of_not_connected hnew hc
  have hmem : .onDisconnect sid ∈ s.log := List.count_pos_iff.mp (by omega)
  have hlast := hclean.last
  rw [hlog] at hlast
  have hafter := (List.pairwise_append.mp hlast).2.2 _ hmem e (List.mem_singleton_self e) sid rfl
  exact he.elim hafter.1 hafter.2

theorem not_clean_of_undefined (hs : s.undefined = true) : ¬ Clean s :=
  fun hclean => nomatch hclean.defined.symm.trans hs

/-- The session of the handler is gone. -/
theorem not_clean_through (hc : ¬ s.isThere sid = true) : ¬ Clean (s.through sid s') := by
  rw [through, if_neg hc]
  exact not_clean_of_undefined rfl

/-- A step of `disconnect(sid)` that races, or disconnects the session again. -/
theorem Inv.not_clean_tear (h : Inv s) (hpc : pc.Ok (s.sessions sid).link)
    (hc : ¬ s.TearCurrent sid pc) (hs : s.tearNext sid pc = some (s', pc')) :
    s'.undefined = true ∨
      pc' = .lockErase ∧ s.log.count (.onDisconnect sid) = 1 ∧
        s'.log = s.log ++ [.onDisconnect sid] := by
  cases pc with
  | lockFind | lockErase =>
    simp only [tearNext, lock_eq, Option.some.injEq, Prod.mk.injEq] at hs
    obtain ⟨rfl, -⟩ := hs
    exact Or.inl (undefined_of_not_free hc)
  | disconnect =>
    simp only [tearNext, Option.some.injEq, Prod.mk.injEq] at hs
    obtain ⟨rfl, rfl⟩ := hs
    exact Or.inr ⟨rfl, h.count_of_not_connected hpc hc, rfl⟩
  | find | test | erase | leave | done | threw => exact absurd trivial hc

/-- `disconnect(sid)` throws. -/
theorem tearNext_threw (hc : ¬ s.Contained sid pc) (hs : s.tearNext sid pc = some (s', pc')) :
    pc' = .threw := by
  cases pc with
  | find =>
    have hp : ¬ (s.sessions sid).pooled = true := hc
    simp only [tearNext, if_neg hp, Option.some.injEq, Prod.mk.injEq] at hs
    exact hs.2.symm
  | test =>
    have hconn : ¬ s.isConnected sid = true := hc
    simp only [tearNext, if_neg hconn, Option.some.injEq, Prod.mk.injEq] at hs
    exact hs.2.symm
  | lockFind | disconnect | lockErase | erase | leave | done | threw => exact absurd trivial hc

theorem Inv.not_clean_io (h : Inv s) (hc : ¬ s.IoCurrent s.io) (hs : s.ioNext = some s') :
    ¬ Clean s' := by
  unfold ServerState.ioNext at hs
  have hio := h.io
  cases hpc : s.io with
  | lockAdd =>
    rw [hpc] at hc
    simp only [hpc, lock_eq, Option.some.injEq] at hs
    subst hs
    exact not_clean_of_undefined (undefined_of_not_free hc)
  | first sid ec | second sid =>
    rw [hpc] at hc
    simp only [hpc] at hs
    cases hs
    exact not_clean_through hc
  | error sid | message sid =>
    rw [hpc] at hio hc
    simp only [hpc] at hs
    by_cases hthere : s.isThere sid = true
    · rw [through_of_isThere hthere] at hs
      cases hs
      exact h.not_clean_receive hio (fun hconn => hc ⟨hthere, hconn⟩) rfl (by simp)
    · cases hs
      exact not_clean_through hthere
  | tear sid pc =>
    rw [hpc] at hio hc
    simp only [hpc, Option.map_eq_some_iff, Prod.exists] at hs
    obtain ⟨m, pc', htear, rfl⟩ := hs
    by_cases hcontained : s.Contained sid pc
    · rcases h.not_clean_tear hio.2 (fun hcur => hc ⟨hcur, hcontained⟩) htear with
        hm | ⟨rfl, hcount, hlog⟩
      · cases pc' <;> exact not_clean_of_undefined hm
      · exact not_clean_again hcount hlog
    · obtain rfl := tearNext_threw hcontained htear
      exact fun hclean => nomatch hclean.contained
  | rest | accepted | connect | add | lockCreate | create | leave =>
    rw [hpc] at hc
    exact absurd trivial hc

end

theorem Inv.not_clean_caller (h : Inv s) (hc : ¬ s.CallerCurrent (s.callers t))
    (hs : s.callerNext t = some s') : ¬ Clean s' := by
  unfold ServerState.callerNext at hs
  have hcaller := h.callers t
  cases hpc : s.callers t with
  | tear sid pc =>
    rw [hpc] at hcaller hc
    simp only [hpc, Option.map_eq_some_iff, Prod.exists] at hs
    obtain ⟨m, pc', htear, rfl⟩ := hs
    rcases h.not_clean_tear hcaller hc htear with hm | ⟨rfl, hcount, hlog⟩
    · cases pc' <;> exact not_clean_of_undefined hm
    · exact not_clean_again hcount hlog
  | lockEach | lockClear =>
    rw [hpc] at hc
    simp only [hpc, lock_eq, Option.some.injEq] at hs
    subst hs
    exact not_clean_of_undefined (undefined_of_not_free hc)
  | disconnect sid sids =>
    rw [hpc] at hcaller hc
    simp only [hpc] at hs
    cases hs
    exact not_clean_again (h.count_of_not_connected hcaller hc) rfl
  | clear =>
    rw [hpc] at hc
    simp only [hpc] at hs
    cases hs
    simp only [CallerCurrent, not_forall] at hc
    obtain ⟨sid, hmem, hconn⟩ := hc
    rw [Bool.not_eq_false] at hconn
    have hp := (List.mem_filter.mp hmem).2
    have hsession := h.session sid
    intro hclean
    have hcount := hsession.count
    rw [hsession.isConnected_iff.mp hconn] at hcount
    cases (hclean.left sid (hsession.pooled hp) rfl).symm.trans hcount
  | idle | stop | visit =>
    rw [hpc] at hc
    exact absurd trivial hc

theorem Inv.not_clean {a : ServerAct ι} (h : Inv s) (hc : ¬ Current s a)
    (hs : ServerState.step s a = some s') : ¬ Clean s' := by
  unfold ServerState.step at hs
  split at hs
  · cases hs
  · cases a with
    | io => exact h.not_clean_io hc hs
    | next t => exact h.not_clean_caller hc hs
    | accept | complete | disconnect | shutdown => exact absurd trivial hc

/-- **The callbacks are clean** all along exactly when every step finds what the test before it
found, every handler its session, and the lock nobody to race with. -/
theorem clean_iff {as : List (ServerAct ι)} {s : ServerState ι} (h : run step init as = some s) :
    (∀ bs s', bs <+: as → run step init bs = some s' → Clean s') ↔
      Guarded step Current init as s :=
  forall_prefix_iff_guarded (I := Inv) (P := Clean) (C := Current) inv_init (fun _ hi => hi.clean)
    (fun _ _ _ hi hc hs => hi.step hc hs) (fun _ _ _ hi hc hs => hi.not_clean hc hs) h

/-! Runs of a server with one session. -/

omit [DecidableEq ι] in
instance (s : ServerState ι) (a : Access) : Decidable (s.Free a) := by
  unfold Free
  infer_instance

omit [DecidableEq ι] in
instance (s : ServerState ι) (sid : Nat) (pc : TearPc) : Decidable (s.TearCurrent sid pc) := by
  cases pc <;> unfold TearCurrent <;> infer_instance

omit [DecidableEq ι] in
instance (s : ServerState ι) (sid : Nat) (pc : TearPc) : Decidable (s.Contained sid pc) := by
  cases pc <;> unfold Contained <;> infer_instance

omit [DecidableEq ι] in
instance (s : ServerState ι) (pc : IoPc) : Decidable (s.IoCurrent pc) := by
  cases pc <;> unfold IoCurrent <;> infer_instance

omit [DecidableEq ι] in
instance (s : ServerState ι) (pc : CallerPc) : Decidable (s.CallerCurrent pc) := by
  cases pc <;> unfold CallerCurrent <;> infer_instance

omit [DecidableEq ι] in
instance (s : ServerState ι) (a : ServerAct ι) : Decidable (Current s a) := by
  cases a <;> unfold Current <;> infer_instance

/-- The first session is accepted. -/
def accepted : List (ServerAct Bool) := .accept false :: .replicate 9 .io

/-- The peer sends something, and closes the connection. A thread that has called `disconnect(0)`
has found the session by then, and comes to the test when the handler has returned. -/
def heldByCaller : List (ServerAct Bool) :=
  accepted ++ [.complete 0 false, .io, .io, .io, .disconnect true 0, .next true, .next true,
    .next true, .complete 0 true] ++ .replicate 12 .io ++ [.next true]

theorem clean_heldByCaller :
    ∃ s : ServerState Bool, run step init heldByCaller = some s ∧
      s.log = [.onConnect 0, .onReceive 0, .onReceiveError 0, .onDisconnect 0] ∧
      s.isThere 0 = false ∧ Clean s := by
  have hguarded : Guarded step Current init heldByCaller _ := guarded_iff_run.mpr rfl
  have hrun := hguarded.run_eq
  exact ⟨_, hrun, rfl, rfl, (clean_iff hrun).mpr hguarded _ _ List.prefix_rfl hrun⟩

/-- Two threads call `disconnect(0)`, and both come to the test before either goes on. -/
def disconnectTwice : List (ServerAct Bool) :=
  accepted ++ [.disconnect true 0, .disconnect false 0] ++ .replicate 4 (.next true) ++
    .replicate 4 (.next false) ++ [.next true, .next false]

/-- The peer closes the connection; the io thread alone. -/
def closedAlone : List (ServerAct Bool) := accepted ++ .complete 0 true :: .replicate 12 .io

/-- The second `on_disconnect`, and a handler whose session is gone when it comes to its second
test. -/
theorem not_clean_disconnectTwice :
    (∃ s : ServerState Bool, run step init disconnectTwice = some s ∧
      s.log = [.onConnect 0, .onDisconnect 0, .onDisconnect 0] ∧ ¬ Clean s) ∧
    ∃ s : ServerState Bool, run step init closedAlone = some s ∧ s.undefined = true ∧ ¬ Clean s := by
  constructor
  · refine ⟨_, rfl, rfl, fun h => ?_⟩
    exact absurd (h.once 0) (by decide)
  · exact ⟨_, rfl, rfl, not_clean_of_undefined rfl⟩

end ServerState

end Wish.Tcp
