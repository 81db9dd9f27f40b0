import Wish.Machine

/-!
# `wish::spin_lock`

`net/util/spin_lock.h`: a lock over one `std::atomic_flag`. Every `test_and_set` and every
`clear` is one step; a thread may be stopped between any two of its steps.

`lock` leaves its loop `while (!m_flag.test_and_set())` when `testAndSet` answers `true`,
that is when the flag was already set: a thread that calls `lock` is let in by its second
`testAndSet` at the latest, whoever is inside (`enters`). `mutex_iff` says what is left of mutual
exclusion: it holds as long as nobody calls `lock` while another thread is in `lock` or inside.
-/

namespace Wish.SpinLock

open Machine

abbrev Tid := Nat

/-- Where a thread is: outside, in the loop of `lock`, between the return of its `lock`
and the start of its `unlock`, or about to clear the flag in `unlock`. -/
inductive Pc where
  | outside
  | locking
  | inside
  | unlocking
  deriving DecidableEq, Repr

structure State where
  mFlag : Bool
  pc : Tid → Pc

/-- The flag starts clear and nobody has called the lock. -/
def init : State := ⟨false, fun _ => .outside⟩

/-- `std::atomic_flag::test_and_set`: the value before, and the flag afterwards. -/
def testAndSet (flag : Bool) : Bool × Bool := (flag, true)

/-- One round of `while (!m_flag.test_and_set())`: the flag afterwards, and whether `lock`
returns. -/
def round (flag : Bool) : Bool × Bool :=
  let (old, flag) := testAndSet flag
  (flag, !(!old))

inductive Act where
  | callLock (t : Tid)
  | testAndSet (t : Tid)
  | callUnlock (t : Tid)
  | clear (t : Tid)
  deriving DecidableEq, Repr

def State.setPc (s : State) (t : Tid) (p : Pc) : State :=
  { s with pc := Function.update s.pc t p }

def step (s : State) : Act → Option State
  | .callLock t => if s.pc t = .outside then some (s.setPc t .locking) else none
  | .testAndSet t =>
    if s.pc t = .locking then
      let (flag, returns) := round s.mFlag
      some ({ s with mFlag := flag }.setPc t (if returns then .inside else .locking))
    else none
  | .callUnlock t => if s.pc t = .inside then some (s.setPc t .unlocking) else none
  | .clear t =>
    if s.pc t = .unlocking then some ({ s with mFlag := false }.setPc t .outside) else none

/-! ## Mutual exclusion -/

/-- At most one thread is between the return of its `lock` and the start of its `unlock`. -/
def Mutex (s : State) : Prop := ∀ t u, s.pc t = .inside → s.pc u = .inside → t = u

/-- The thread has called `lock`, and not yet `unlock`. -/
def Pc.Busy (p : Pc) : Prop := p = .locking ∨ p = .inside

/-- Nobody calls `lock` while another thread is in `lock` or inside. -/
def CallsAlone (s : State) : Act → Prop
  | .callLock t => ∀ u, u ≠ t → ¬ (s.pc u).Busy
  | _ => True

/-- At most one thread is in `lock` or inside. -/
def Alone (s : State) : Prop := ∀ t u, (s.pc t).Busy → (s.pc u).Busy → t = u

theorem Alone.mutex {s : State} (h : Alone s) : Mutex s :=
  fun t u ht hu => h t u (Or.inr ht) (Or.inr hu)

@[simp] theorem setPc_pc (s : State) (t : Tid) (p : Pc) (u : Tid) :
    (s.setPc t p).pc u = if u = t then p else s.pc u := by
  simp [State.setPc, Function.update_apply]

/-- Only a call of `lock` makes a thread busy. -/
theorem step_busy {s s' : State} {a : Act} (h : step s a = some s') {u : Tid}
    (hu : (s'.pc u).Busy) : (s.pc u).Busy ∨ a = .callLock u := by
  cases a with
  | callLock t =>
    simp only [step, Option.ite_none_right_eq_some, Option.some.injEq] at h
    obtain ⟨-, rfl⟩ := h
    by_cases hut : u = t
    · exact Or.inr (by rw [hut])
    · exact Or.inl (by simpa [hut] using hu)
  | testAndSet t =>
    simp only [step, Option.ite_none_right_eq_some, Option.some.injEq] at h
    obtain ⟨hpc, rfl⟩ := h
    by_cases hut : u = t
    · exact Or.inl (Or.inl (by rw [hut, hpc]))
    · exact Or.inl (by simpa [hut] using hu)
  | callUnlock t | clear t =>
    simp only [step, Option.ite_none_right_eq_some, Option.some.injEq] at h
    obtain ⟨-, rfl⟩ := h
    by_cases hut : u = t
    · simp [hut, Pc.Busy] at hu
    · exact Or.inl (by simpa [hut] using hu)

theorem alone_step {s s' : State} {a : Act} (hs : Alone s) (hc : CallsAlone s a)
    (h : step s a = some s') : Alone s' := by
  intro t u ht hu
  rcases step_busy h ht with ht | rfl
  · rcases step_busy h hu with hu | rfl
    · exact hs t u ht hu
    · by_contra hne
      exact hc t hne ht
  · rcases step_busy h hu with hu | he
    · by_contra hne
      exact hc u (Ne.symm hne) hu
    · exact Act.callLock.inj he

/-- While the calls of `lock` go on, nobody else becomes busy. -/
theorem Alone.lock {ts : List Tid} {s s' : State} (hs : Alone s)
    (h : run step s (ts.map .testAndSet) = some s') : Alone s' := by
  refine guarded_invariant hs (fun _ _ _ => alone_step) (guarded_of_mem ?_ h)
  intro a ha m
  obtain ⟨t, -, rfl⟩ := List.mem_map.mp ha
  trivial

/-- One `testAndSet`: the flag is set, and the thread goes in if it was. -/
theorem step_testAndSet {s : State} {t : Tid} (hpc : s.pc t = .locking) :
    ∃ s', step s (.testAndSet t) = some s' ∧ s'.mFlag = true ∧
      s'.pc t = (if s.mFlag then .inside else .locking) ∧ ∀ u, u ≠ t → s'.pc u = s.pc u := by
  refine ⟨_, if_pos hpc, rfl, ?_, fun u hu => by simp [hu]⟩
  cases s.mFlag <;> simp

/-- Two rounds of the loop let the thread in, whoever is inside. -/
theorem enters {s : State} {t : Tid} (ht : (s.pc t).Busy) :
    ∃ ts s', run step s (List.map Act.testAndSet ts) = some s' ∧ s'.pc t = .inside ∧
      ∀ u, u ≠ t → s'.pc u = s.pc u := by
  rcases ht with ht | ht
  · obtain ⟨m, hm, hflag, hpc, hm'⟩ := step_testAndSet ht
    cases hf : s.mFlag with
    | true =>
      rw [hf] at hpc
      refine ⟨[t], m, ?_, hpc, hm'⟩
      rw [List.map_singleton, run_cons, hm]
      rfl
    | false =>
      rw [hf] at hpc
      obtain ⟨s', hs, -, hin, hs'⟩ := step_testAndSet hpc
      rw [hflag] at hin
      refine ⟨[t, t], s', ?_, hin, fun u hu => (hs' u hu).trans (hm' u hu)⟩
      rw [List.map_cons, List.map_singleton, run_cons, hm, Option.bind_some, run_cons, hs]
      rfl
  · exact ⟨[], s, rfl, ht, fun _ _ => rfl⟩

/-- Two threads that are busy get in, both of them. -/
theorem enters_both {s : State} {t u : Tid} (hne : t ≠ u) (ht : (s.pc t).Busy)
    (hu : (s.pc u).Busy) :
    ∃ ts s', run step s (List.map Act.testAndSet ts) = some s' ∧ ¬ Mutex s' := by
  obtain ⟨ts, m, hm, hin, hm'⟩ := enters ht
  have hbusy : (m.pc u).Busy := by rwa [hm' u hne.symm]
  obtain ⟨us, s', hs, hin', hs'⟩ := enters hbusy
  refine ⟨ts ++ us, s', ?_, fun hmutex => hne (hmutex t u ?_ hin')⟩
  · rw [List.map_append, run_append, hm]
    exact hs
  · rw [hs' t hne, hin]

/-- **Mutual exclusion** holds all along a run, however the calls of `lock` that are under way at
some moment go on, exactly when no `lock` of the run is called while another thread is in `lock`
or inside. -/
theorem mutex_iff {as : List Act} {s : State} (h : run step init as = some s) :
    (∀ bs ts s', bs <+: as → run step init (bs ++ List.map .testAndSet ts) = some s' →
        Mutex s') ↔ Guarded step CallsAlone init as s := by
  have hiff := forall_prefix_iff_guarded (I := Alone) (C := CallsAlone)
    (P := fun m => ∀ ts s', run step m (List.map Act.testAndSet ts) = some s' → Mutex s')
    (fun t u ht => by simp [init, Pc.Busy] at ht) (fun _ hi _ _ hs => (hi.lock hs).mutex)
    (fun _ _ _ => alone_step) ?_ h
  · rw [← hiff]
    constructor
    · intro hall bs m hp hb ts s' hs
      refine hall bs ts s' hp ?_
      rw [run_append, hb]
      exact hs
    · intro hall bs ts s' hp hs
      rw [run_append] at hs
      obtain ⟨m, hb, hs⟩ := Option.bind_eq_some_iff.mp hs
      exact hall bs m hp hb ts s' hs
  · intro m a m' _ hc hs hall
    cases a with
    | callLock t =>
      simp only [CallsAlone, not_forall, not_not] at hc
      obtain ⟨u, hut, hu⟩ := hc
      simp only [step, Option.ite_none_right_eq_some, Option.some.injEq] at hs
      obtain ⟨-, rfl⟩ := hs
      obtain ⟨ts, s', hs, hmutex⟩ := enters_both (s := m.setPc t .locking) hut
        (by simpa [hut] using hu) (Or.inl (by simp))
      exact hmutex (hall ts s' hs)
    | testAndSet | callUnlock | clear => exact hc trivial

/-- Two threads that take turns. -/
def turns : List Act :=
  [.callLock 0, .testAndSet 0, .testAndSet 0, .callUnlock 0, .clear 0,
    .callLock 1, .testAndSet 1, .testAndSet 1, .callUnlock 1, .clear 1]

theorem mutex_iff_turns : ∃ s, run step init turns = some s ∧
    ∀ bs ts s', bs <+: turns → run step init (bs ++ List.map .testAndSet ts) = some s' →
      Mutex s' := by
  have hrun : run step init turns = some _ := rfl
  have hfirst : CallsAlone init (.callLock 0) := by
    intro u _ hu
    simp [init, Pc.Busy] at hu
  have hguarded : Guarded step CallsAlone init turns _ :=
    .cons hfirst rfl <| .cons trivial rfl <| .cons trivial rfl <| .cons trivial rfl <|
    .cons trivial rfl <| .cons (fun u _ hu => by
      -- thread 0 is outside again
      by_cases h0 : u = 0
      all_goals simp [State.setPc, init, h0, Pc.Busy] at hu) rfl <|
    .cons trivial rfl <| .cons trivial rfl <| .cons trivial rfl <| .cons trivial rfl .nil
  exact ⟨_, hrun, (mutex_iff hrun).mpr hguarded⟩

/-- Two threads call `lock`; both return while neither has called `unlock`. -/
def contended : List Act :=
  [.callLock 0, .callLock 1, .testAndSet 0, .testAndSet 0, .testAndSet 1]

theorem not_mutex_contended : ∃ s, run step init contended = some s ∧ ¬ Mutex s := by
  refine ⟨_, rfl, fun h => ?_⟩
  have h01 := h 0 1 (by decide) (by decide)
  cases h01

end Wish.SpinLock
