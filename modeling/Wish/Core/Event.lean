import Wish.Machine
import Mathlib.Data.List.Basic

/-!
# `wish::event`

`core/threadpool/event.h`: a flag under a mutex with a condition variable. The section of `set`,
and the two sections of `wait`, before and after `wait_for`, are one step each; in `wait_for` a
thread may be notified, time out or wake up for no reason.

After a wake-up that is no timeout `wait` does not look at the flag, and returns `true` though
somebody else has had the signal. `released_le_sets` is about the runs in which each such
wake-up finds the flag set.
-/

namespace Wish.Event

open Machine

/-- `std::cv_status`. -/
inductive CvStatus where
  | noTimeout
  | timeout
  deriving DecidableEq, Repr

inductive Pc where
  | idle
  /-- in `wait_for` -/
  | waiting
  /-- in `wait_for`, after a `notify_one` for this thread -/
  | notified
  deriving DecidableEq, Repr

structure State (ι : Type) where
  mSetted : Bool
  /-- the threads that `notify_one` may choose from -/
  mCond : List ι
  pc : ι → Pc
  /-- the calls of `set` made -/
  sets : Nat
  /-- the calls of `wait` that have returned `true` -/
  released : Nat

variable {ι : Type}

def init : State ι := ⟨false, [], fun _ => .idle, 0, 0⟩

inductive Act (ι : Type) where
  /-- `set`; its `notify_one` goes to the thread `u`, or to none if there is none -/
  | set (t : ι) (u : Option ι)
  /-- `wait`, up to its return or into `wait_for` -/
  | wait (t : ι)
  /-- `wait_for` returns the status, and `wait` goes on -/
  | resume (t : ι) (status : CvStatus)

variable [DecidableEq ι]

/-- `m_setted = false; return true;` -/
def State.take (s : State ι) : State ι := { s with mSetted := false, released := s.released + 1 }

def State.setPc (s : State ι) (t : ι) (p : Pc) : State ι :=
  { s with pc := Function.update s.pc t p }

def step (s : State ι) : Act ι → Option (State ι)
  | .set t none =>
    if s.pc t = .idle ∧ s.mCond = [] then some { s with mSetted := true, sets := s.sets + 1 }
    else none
  | .set t (some u) =>
    if s.pc t = .idle ∧ u ∈ s.mCond then
      some { (s.setPc u .notified) with
        mSetted := true, mCond := s.mCond.erase u, sets := s.sets + 1 }
    else none
  | .wait t =>
    if s.pc t = .idle then
      if s.mSetted then some s.take
      else some { (s.setPc t .waiting) with mCond := t :: s.mCond }
    else none
  | .resume t status =>
    if s.pc t = .idle then none
    else
      let s := { (s.setPc t .idle) with mCond := s.mCond.erase t }
      if status = .noTimeout then some s.take
      else if s.mSetted then some s.take
      else some s

/-! ## One set, one waiter -/

/-- A wake-up that is no timeout finds the flag set. -/
def Signalled (s : State ι) : Act ι → Prop
  | .resume _ .noTimeout => s.mSetted = true
  | _ => True

/-- The signals that nobody has had yet; the flag has room for one. -/
def Inv (s : State ι) : Prop := s.released + s.mSetted.toNat ≤ s.sets

omit [DecidableEq ι] in
theorem Inv.take {s : State ι} (h : Inv s) (hset : s.mSetted = true) : Inv s.take := by
  unfold Inv at h ⊢
  rw [hset] at h
  exact h

theorem Inv.step {s s' : State ι} {a : Act ι} (h : Inv s) (hc : Signalled s a)
    (hs : step s a = some s') : Inv s' := by
  have hle : s.released ≤ s.sets := Nat.le_of_add_right_le h
  cases a with
  | set t u =>
    cases u with
    | none =>
      obtain ⟨-, hs⟩ := Option.ite_none_right_eq_some.mp hs
      cases hs
      exact Nat.succ_le_succ hle
    | some u =>
      obtain ⟨-, hs⟩ := Option.ite_none_right_eq_some.mp hs
      cases hs
      exact Nat.succ_le_succ hle
  | wait t =>
    obtain ⟨-, hs⟩ := Option.ite_none_right_eq_some.mp hs
    split at hs
    · next hset =>
      cases hs
      exact h.take hset
    · cases hs
      exact h
  | resume t status =>
    obtain ⟨-, hs⟩ := Option.ite_none_left_eq_some.mp hs
    have hwoken : Inv { (s.setPc t .idle) with mCond := s.mCond.erase t } := h
    cases status with
    | noTimeout =>
      cases hs
      exact hwoken.take hc
    | timeout =>
      rw [if_neg (by simp)] at hs
      split at hs
      · next hset =>
        cases hs
        exact hwoken.take hset
      · cases hs
        exact hwoken

/-- In every state of a run in which each wake-up that is no timeout finds the flag set, no more
calls of `wait` have returned `true` than calls of `set` have been made. -/
theorem released_le_sets {as : List (Act ι)} {s : State ι} (h : Guarded step Signalled init as s) :
    ∀ bs s', bs <+: as → run step init bs = some s' → s'.released ≤ s'.sets := by
  intro bs s' hp hb
  have hinv : Inv s' := guarded_invariant (I := Inv) (Nat.le_refl _)
    (fun _ _ _ hi hc hs => hi.step hc hs) (h.of_prefix hp hb)
  exact Nat.le_of_add_right_le hinv

/-- The thread 0 is notified and the thread 1 does not get the signal. -/
theorem released_le_sets_one : ∃ s, run step init [.wait 0, .set 2 (some 0), .resume 0 .noTimeout,
      .wait 1, .resume 1 .timeout] = some s ∧
    ∀ bs s', bs <+: [.wait 0, .set 2 (some 0), .resume 0 .noTimeout, .wait 1,
      .resume 1 .timeout] → run step init bs = some s' → s'.released ≤ s'.sets := by
  have hG : ∃ s, Guarded step Signalled (init : State Nat) [.wait 0, .set 2 (some 0),
      .resume 0 .noTimeout, .wait 1, .resume 1 .timeout] s :=
    ⟨_, .cons trivial rfl <| .cons trivial rfl <| .cons rfl rfl <| .cons trivial rfl <|
      .cons trivial rfl .nil⟩
  obtain ⟨s, hs⟩ := hG
  exact ⟨s, hs.run_eq, released_le_sets hs⟩

/-- The thread 1 enters `wait` after the thread 0 has been notified, and takes the signal. -/
def overtaken : List (Act Nat) := [.wait 0, .set 2 (some 0), .wait 1, .resume 0 .noTimeout]

theorem not_released_le_sets : ∃ s, run step init overtaken = some s ∧ ¬ s.released ≤ s.sets :=
  ⟨_, rfl, by decide⟩

end Wish.Event
