import Wish.Machine
import Wish.Net.Http.Message

/-!
# `wish::http::client`

`net/app/http/client.h`: one thread calls `request`, which may have to connect first, sends
the text of the request and waits on `m_cv`; the io thread runs `on_receive`. It writes
`m_rsp` without holding `m_mtx`, so each member written and each member copied by
`return m_rsp` is a step. `on_connect`, `on_disconnect` (which `shutdown` calls on any thread)
and `on_connect_fail` do nothing but notify with `m_mtx` held, which is one step.

The wait has no predicate, so any notification ends it; `m_frame` is never reset, so what it
kept of one response is there for the next. `request_answered` says when a response returned
is nevertheless one that was received whole after the request was sent.
-/

namespace Wish.Http

/-- `struct response`. -/
@[ext] structure Response where
  version : Text
  status : Nat
  headers : OrdMap Text Text
  body : Text

/-- The members of `struct request` that the client reads. -/
structure Request where
  version : Text
  url : Text
  method : Text
  headers : OrdMap Text Text
  body : Text

namespace Request

def contentLength : Text :=
  ['C', 'o', 'n', 't', 'e', 'n', 't', '-', 'L', 'e', 'n', 'g', 't', 'h']

def crlf : Text := ['\r', '\n']

/-- What the client fills in. -/
def complete (req : Request) : Request :=
  { req with
    version := if req.version = [] then ['1', '.', '1'] else req.version
    headers :=
      if req.headers.get? contentLength = none then
        req.headers.set contentLength (Nat.toDigits 10 req.body.length)
      else req.headers }

/-- The text sent. -/
def text (req : Request) : Text :=
  req.method ++ [' '] ++ req.url ++ [' ', 'H', 'T', 'T', 'P', '/'] ++ req.version ++ crlf ++
    (req.headers.entries.flatMap fun head => head.1 ++ [':', ' '] ++ head.2 ++ crlf) ++
    crlf ++ req.body

end Request

/-- What `on_receive` copies out of `m_frame`. -/
def Message.response {hp : HttpParser} (m : Message hp) : Response :=
  ⟨m.version, m.status, m.headers, m.body⟩

namespace Client

open Machine

/-- Where the calling thread is. -/
inductive CallerPc where
  | idle
  /-- `if (ss == nullptr || !ss->is_connected())` -/
  | checkSession (req : Request)
  /-- `sync_connect` takes `m_mtx` -/
  | connectLock (req : Request)
  /-- `if (!this->connect(ip, port))` -/
  | connect (req : Request)
  | connectWaiting (req : Request)
  | connectWoken (req : Request)
  /-- `return (ss != nullptr && ss->is_connected())` -/
  | connectCheck (req : Request)
  | build (req : Request)
  | lockSend (text : Text)
  | send (text : Text)
  /-- `m_cv.wait_for(lck, ...)`, before it gives `m_mtx` back -/
  | wait
  | waiting
  | woken (timedOut : Bool)
  /-- `return m_rsp`, member by member -/
  | copyVersion
  | copyStatus (version : Text)
  | copyHeaders (version : Text) (status : Nat)
  | copyBody (version : Text) (status : Nat) (headers : OrdMap Text Text)

/-- Where the io thread is in `on_receive`. -/
inductive IoPc where
  | idle
  | assignVersion
  | assignStatus
  | assignHeaders
  | assignBody
  | lockNotify
  /-- `m_cv.notify_all()`, with `m_mtx` held -/
  | notify
  deriving DecidableEq, Repr

inductive Party where
  | caller
  | io
  deriving DecidableEq, Repr

/-- What a call that leaves the client comes back with. -/
inductive Answer where
  | yes
  | no
  | throws
  deriving DecidableEq, Repr

/-- The members, the places of the two threads and, below them, what has happened so far. -/
structure State (hp : HttpParser) where
  mMtx : Option Party
  mRsp : Response
  mFrame : Message hp
  caller : CallerPc
  io : IoPc
  /-- the texts given to `send_msg` -/
  sent : List Text
  /-- everything `m_frame` has been given to parse -/
  fed : List Text
  /-- the callbacks made since the last `send_msg` -/
  since : List Event
  /-- `m_frame` had been given nothing when the last `send_msg` was called -/
  fresh : Bool
  /-- `on_receive` has stored a response since the last `send_msg` -/
  stored : Bool
  /-- the responses returned, each with the callbacks since its `send_msg` -/
  returned : List (Response × List Event)

variable {hp : HttpParser}

/-- `m_rsp.status`, `m_frame.m_status` and `m_frame.m_method` start with what is in memory. -/
def init (rspStatus status method : Nat) : State hp where
  mMtx := none
  mRsp := ⟨[], rspStatus, .empty, []⟩
  mFrame := .new .response status method
  caller := .idle
  io := .idle
  sent := []
  fed := []
  since := []
  fresh := false
  stored := false
  returned := []

inductive Act where
  | request (req : Request)
  | caller (answer : Answer)
  | timeout
  | spurious
  /-- `stray` is what `is_completed` reads behind the end of the headers -/
  | onReceive (frag : Text) (stray : Bool)
  /-- `on_connect`, `on_disconnect` or `on_connect_fail` -/
  | onEvent
  | io

/-- One step of the calling thread outside its waits. -/
def callerStep (s : State hp) (answer : Answer) : Option (State hp) :=
  match s.caller with
  | .idle | .connectWaiting _ | .waiting => none
  | .checkSession req =>
    some { s with caller := if answer = .yes then .build req else .connectLock req }
  | .connectLock req =>
    if s.mMtx = none then some { s with mMtx := some .caller, caller := .connect req } else none
  | .connect req =>
    match answer with
    | .yes => some { s with mMtx := none, caller := .connectWaiting req }
    -- `resolve` throws, or `request` throws "cannot connect to host"
    | .no | .throws => some { s with mMtx := none, caller := .idle }
  | .connectWoken req =>
    if s.mMtx = none then some { s with mMtx := some .caller, caller := .connectCheck req }
    else none
  | .connectCheck req =>
    some { s with mMtx := none, caller := if answer = .yes then .build req else .idle }
  | .build req => some { s with caller := .lockSend req.complete.text }
  | .lockSend text =>
    if s.mMtx = none then some { s with mMtx := some .caller, caller := .send text } else none
  | .send text =>
    some { s with
      caller := .wait, sent := s.sent ++ [text], since := [], fresh := s.fed.isEmpty
      stored := false }
  | .wait => some { s with mMtx := none, caller := .waiting }
  | .woken timedOut =>
    if s.mMtx = none then
      -- a notification after the deadline is a timeout as well
      if timedOut || answer ≠ .yes then some { s with caller := .idle }
      else some { s with mMtx := some .caller, caller := .copyVersion }
    else none
  | .copyVersion => some { s with caller := .copyStatus s.mRsp.version }
  | .copyStatus version => some { s with caller := .copyHeaders version s.mRsp.status }
  | .copyHeaders version status =>
    some { s with caller := .copyBody version status s.mRsp.headers }
  | .copyBody version status headers =>
    some { s with
      mMtx := none, caller := .idle
      returned := s.returned ++ [(⟨version, status, headers, s.mRsp.body⟩, s.since)] }

/-- The end of a wait. -/
def wake (s : State hp) (timedOut : Bool) : State hp :=
  match s.caller with
  | .connectWaiting req => { s with caller := .connectWoken req }
  | .waiting => { s with caller := .woken timedOut }
  | _ => s

def onReceive (s : State hp) (frag : Text) (stray : Bool) : Option (State hp) :=
  (s.mFrame.parseFromArray frag).map fun r =>
    { s with
      mFrame := r.1
      -- a parse error returns, and so does a message that is not complete
      io := if r.2 && r.1.isCompleted.getD stray then .assignVersion else .idle
      fed := s.fed ++ [frag]
      since := s.since ++ s.mFrame.parseEvents frag }

/-- One step of the io thread inside `on_receive`. -/
def ioStep (s : State hp) : Option (State hp) :=
  match s.io with
  | .idle => none
  | .assignVersion =>
    some { s with io := .assignStatus, mRsp := { s.mRsp with version := s.mFrame.version } }
  | .assignStatus =>
    some { s with io := .assignHeaders, mRsp := { s.mRsp with status := s.mFrame.status } }
  | .assignHeaders =>
    some { s with io := .assignBody, mRsp := { s.mRsp with headers := s.mFrame.headers } }
  | .assignBody =>
    some { s with
      io := .lockNotify, mRsp := { s.mRsp with body := s.mFrame.body }, stored := true }
  | .lockNotify =>
    if s.mMtx = none then some { s with mMtx := some .io, io := .notify } else none
  | .notify => some (wake { s with mMtx := none, io := .idle } false)

def step (s : State hp) : Act → Option (State hp)
  | .request req =>
    match s.caller with
    | .idle => some { s with caller := .checkSession req }
    | _ => none
  | .caller answer => callerStep s answer
  | .timeout => some (wake s true)
  | .spurious => some (wake s false)
  | .onReceive frag stray => if s.io = .idle then onReceive s frag stray else none
  | .onEvent => if s.mMtx = none then some (wake s false) else none
  | .io => ioStep s

end Client

end Wish.Http
