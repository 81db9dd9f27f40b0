import Mathlib.Data.Int.Notation
import Mathlib.Data.List.Basic

/-!
# `wish::nn::socket`: `send` and `recv`

`core/mq/nn_socket.cpp`. What `nn_send` and `nn_recv` do is given by their outcome: a successful
call leaves `errno` as it is, a failing one returns -1 and sets it; `nn_recv` copies what the
buffer takes and returns the size of the whole message.

`recv_right_iff`: when `recv` stays inside `m_buf` and `last_message()` is what came.
`send_right_iff`: when `send` returns the count of a successful `nn_send`. Both functions ask for
`errno` where it does not belong to the call, or do not ask for the size where they have to.
-/

namespace Wish.Nn

/-- The values of `errno` that the class knows. -/
inductive Errno where
  | EINTR
  | EAGAIN
  | ETIMEDOUT
  | other (no : ℕ)
  deriving DecidableEq, Repr

/-- The outcome of `nn_send`. -/
inductive Sent where
  | count (n : ℕ)
  | error (no : Errno)
  deriving DecidableEq, Repr

/-- The outcome of `nn_recv`. -/
inductive Received where
  | message (bytes : List UInt8)
  | error (no : Errno)
  deriving DecidableEq, Repr

/-- How a member function ends; `overread` is a copy from behind the end of `m_buf`. -/
inductive Ending where
  | returns (rc : ℤ)
  | throws (what : String)
  | overread
  deriving DecidableEq, Repr

/-- The members that the two functions use, and `errno`. -/
structure Socket where
  mBuf : List UInt8
  mMessage : List UInt8
  errno : Errno
  deriving DecidableEq, Repr

namespace Socket

/-- `on_error`: what is thrown, if anything is. -/
def onError (s : Socket) (msg : String) : Option String :=
  match s.errno with
  | .EINTR | .EAGAIN => none
  | .ETIMEDOUT | .other _ => some msg

def nnSend (s : Socket) : Sent → Socket × ℤ
  | .count n => (s, n)
  | .error no => ({ s with errno := no }, -1)

def nnRecv (s : Socket) : Received → Socket × ℤ
  | .message bytes =>
    ({ s with mBuf := bytes.take s.mBuf.length ++ s.mBuf.drop bytes.length }, bytes.length)
  | .error no => ({ s with errno := no }, -1)

def send (s : Socket) (r : Sent) : Socket × Ending :=
  let (s, rc) := s.nnSend r
  if rc < 0 ∨ s.errno ≠ .EAGAIN then
    match s.onError "send" with
    | some what => (s, .throws what)
    | none => (s, .returns rc)
  else (s, .returns rc)

/-- `m_message.clear(); return rc;` -/
def clearMessage (s : Socket) (rc : ℤ) : Socket × Ending := ({ s with mMessage := [] }, .returns rc)

def recv (s : Socket) (r : Received) : Socket × Ending :=
  let (s, rc) := s.nnRecv r
  if rc < 0 then
    match s.errno with
    | .ETIMEDOUT | .EAGAIN | .EINTR => s.clearMessage rc
    | .other _ =>
      match s.onError "nn_recv" with
      | some what => (s, .throws what)
      | none => s.clearMessage rc
  else if rc.toNat ≤ s.mBuf.length then
    ({ s with mMessage := s.mBuf.take rc.toNat }, .returns rc)
  else (s, .overread)

/-! ## `recv` -/

/-- `recv` stays inside the buffer, and leaves the message cut to the buffer, or none. -/
structure RecvRight (s : Socket) (r : Received) : Prop where
  inside : (s.recv r).2 ≠ .overread
  message : ∀ bytes, r = .message bytes → (s.recv r).1.mMessage = bytes.take s.mBuf.length
  failure : ∀ no, r = .error no → (s.recv r).1.mMessage = []

/-- The message fits into the buffer; or `recv` does not throw, or there is no message to leave. -/
def Fits (s : Socket) : Received → Prop
  | .message bytes => bytes.length ≤ s.mBuf.length
  | .error no => no = .ETIMEDOUT ∨ no = .EAGAIN ∨ no = .EINTR ∨ s.mMessage = []

variable {s : Socket}

theorem length_nnRecv (s : Socket) (r : Received) : (s.nnRecv r).1.mBuf.length = s.mBuf.length := by
  cases r with
  | message bytes =>
    simp only [nnRecv, List.length_append, List.length_take, List.length_drop]
    omega
  | error no => rfl

theorem recv_message {bytes : List UInt8} (h : bytes.length ≤ s.mBuf.length) :
    (s.recv (.message bytes)).1.mMessage = bytes ∧
      (s.recv (.message bytes)).2 = .returns bytes.length := by
  have hlength := length_nnRecv s (.message bytes)
  simp only [nnRecv] at hlength
  have hnot : ¬ (bytes.length : ℤ) < 0 := by omega
  simp only [recv, nnRecv, if_neg hnot, Int.toNat_natCast, hlength, if_pos h]
  refine ⟨?_, trivial⟩
  rw [List.take_of_length_le h, List.take_left]

theorem recv_message_long {bytes : List UInt8} (h : s.mBuf.length < bytes.length) :
    (s.recv (.message bytes)).2 = .overread := by
  have hlength := length_nnRecv s (.message bytes)
  simp only [nnRecv] at hlength
  have hnot : ¬ (bytes.length : ℤ) < 0 := by omega
  simp only [recv, nnRecv, if_neg hnot, Int.toNat_natCast, hlength, if_neg (Nat.not_le.mpr h)]

/-- **`recv` does its work** on a message exactly if it fits, and after an error exactly if it does
not throw or no message was there. -/
theorem recv_right_iff (s : Socket) (r : Received) : RecvRight s r ↔ Fits s r := by
  cases r with
  | message bytes =>
    constructor
    · intro h
      by_contra hlong
      exact h.inside (recv_message_long (Nat.not_le.mp hlong))
    · intro h
      obtain ⟨hmessage, hending⟩ := recv_message h
      refine ⟨?_, fun bytes' he => ?_, nofun⟩
      · rw [hending]
        nofun
      · cases he
        rw [hmessage, List.take_of_length_le h]
  | error no =>
    constructor
    · intro h
      have hempty := h.failure no rfl
      cases no with
      | ETIMEDOUT => exact Or.inl rfl
      | EAGAIN => exact Or.inr (Or.inl rfl)
      | EINTR => exact Or.inr (Or.inr (Or.inl rfl))
      -- `on_error` throws before the message is cleared
      | other no => exact Or.inr (Or.inr (Or.inr hempty))
    · intro h
      rcases h with rfl | rfl | rfl | hempty
      · exact ⟨nofun, nofun, fun _ _ => rfl⟩
      · exact ⟨nofun, nofun, fun _ _ => rfl⟩
      · exact ⟨nofun, nofun, fun _ _ => rfl⟩
      · cases no with
        | other no => exact ⟨nofun, nofun, fun _ _ => hempty⟩
        | ETIMEDOUT | EAGAIN | EINTR => exact ⟨nofun, nofun, fun _ _ => rfl⟩

/-- A socket with a buffer of this size. -/
def new (bufferSize : ℕ) : Socket := ⟨List.replicate bufferSize 0, [], .other 0⟩

/-- A message of two bytes for a buffer of one; and a message that is still there after an error. -/
theorem not_recv_right :
    ¬ RecvRight (new 1) (.message [1, 2]) ∧
      ¬ RecvRight ((new 1).recv (.message [1])).1 (.error (.other 9)) := by
  rw [recv_right_iff, recv_right_iff]
  unfold Fits
  decide

/-! ## `send` -/

/-- A call of the one or the other function. -/
inductive Op where
  | send (r : Sent)
  | recv (r : Received)

/-- The socket after a history of calls. -/
def after (s : Socket) : List Op → Socket
  | [] => s
  | .send r :: ops => (s.send r).1.after ops
  | .recv r :: ops => (s.recv r).1.after ops

/-- `send` returns the count if `nn_send` has, and throws exactly if its error is neither `EAGAIN`
nor `EINTR`. -/
structure SendRight (s : Socket) (r : Sent) : Prop where
  count : ∀ n, r = .count n → (s.send r).2 = .returns n
  error : ∀ no, r = .error no →
    ((∃ what, (s.send r).2 = .throws what) ↔ no ≠ .EAGAIN ∧ no ≠ .EINTR)

/-- `nn_send` fails, or what was left in `errno` does not throw. -/
def Harmless (s : Socket) (r : Sent) : Prop :=
  (∃ no, r = .error no) ∨ s.errno = .EAGAIN ∨ s.errno = .EINTR

theorem send_count (s : Socket) (n : ℕ) :
    (s.send (.count n)).2 =
      if s.errno = .EAGAIN ∨ s.errno = .EINTR then .returns n else .throws "send" := by
  have hnot : ¬ (n : ℤ) < 0 := by omega
  cases herrno : s.errno <;> simp [send, nnSend, onError, herrno, hnot]

theorem send_error (s : Socket) (no : Errno) :
    (s.send (.error no)).2 =
      if no = .EAGAIN ∨ no = .EINTR then .returns (-1) else .throws "send" := by
  cases no <;> simp [send, nnSend, onError]

theorem sendRight_iff (s : Socket) (r : Sent) : SendRight s r ↔ Harmless s r := by
  cases r with
  | count n =>
    constructor
    · intro h
      have hcount := h.count n rfl
      rw [send_count] at hcount
      split at hcount
      · next herrno => exact Or.inr herrno
      · cases hcount
    · rintro (⟨no, hno⟩ | herrno)
      · cases hno
      · refine ⟨fun m hm => ?_, nofun⟩
        cases hm
        rw [send_count, if_pos herrno]
  | error no =>
    refine ⟨fun _ => Or.inl ⟨no, rfl⟩, fun _ => ⟨nofun, fun no' he => ?_⟩⟩
    cases he
    rw [send_error, ← not_or]
    split
    · next hno => simp [hno]
    · next hno => simp [hno]

/-- **`send` does its work** after a history of calls exactly if `nn_send` fails or the history has
left `EAGAIN` or `EINTR` in `errno`; and then it ends as after any other such history. -/
theorem send_right_iff (s : Socket) (ops ops' : List Op) (r : Sent) :
    (SendRight (s.after ops) r ↔ Harmless (s.after ops) r) ∧
      (Harmless (s.after ops) r → Harmless (s.after ops') r →
        ((s.after ops).send r).2 = ((s.after ops').send r).2) := by
  refine ⟨sendRight_iff _ r, fun h h' => ?_⟩
  have hright := (sendRight_iff _ r).mpr h
  have hright' := (sendRight_iff _ r).mpr h'
  cases r with
  | count n => rw [hright.count n rfl, hright'.count n rfl]
  | error no => rw [send_error, send_error]

/-- After a timeout of `recv` the bytes are sent, and `send` throws. -/
theorem not_send_right :
    ((new 1).after [.recv (.error .ETIMEDOUT)]).send (.count 5) =
        ((new 1).after [.recv (.error .ETIMEDOUT)], .throws "send") ∧
      ¬ SendRight ((new 1).after [.recv (.error .ETIMEDOUT)]) (.count 5) := by
  refine ⟨rfl, fun h => ?_⟩
  have hcount := h.count 5 rfl
  rw [send_count] at hcount
  cases hcount

end Socket

end Wish.Nn
