import Wish.Util.SpinLock

/-!
# `create_object` and `add_object` of `wish::session_pool`

`net/transport/session_pool.h`: any number of threads create sessions and add them. A
`test_and_set`, a `clear`, the load of `m_sequence_id` and its increment are one step each, and
`add_object` looks into `m_objects` in one step and inserts into it in another.

`m_objects` is a `std::map`: two threads that are in it at once, with nothing but `m_lock` between
them, race for it, and it has no value any more. What the lock is for is that this does not happen,
and that nobody comes between the load and the increment of somebody else (`Alone`).
`guarded_unique` says that this is enough; the lock as it is does not see to it (`not_unique`).
-/

namespace Wish.SessionPool

open Machine

/-- A session; `serial` tells the objects apart, whatever their ids. -/
structure Session where
  serial : Nat
  id : Nat
  deriving DecidableEq, Repr

/-- Where a thread is. -/
inductive Pc where
  | idle
  /-- in `create_object`: in `lock`, before the load, before the increment, before `unlock` and
  before `make_shared`; `add` if `add_object()` has called it -/
  | lockId (add : Bool)
  | load (add : Bool)
  | increment (add : Bool) (id : Nat)
  | unlockId (add : Bool) (id : Nat)
  | make (add : Bool) (id : Nat)
  /-- in `add_object(ss)`: in `lock`, before `count`, before `insert` and before `unlock` -/
  | lockObjects (ss : Session)
  | count (ss : Session)
  | insert (ss : Session)
  | unlockObjects (ss : Session) (ret : Bool)
  deriving DecidableEq, Repr

structure State (ι : Type) where
  /-- the flag of `m_lock` -/
  mFlag : Bool
  /-- there are fewer than `2 ^ 64` sessions, so it does not wrap -/
  mSequenceId : Nat
  /-- `none` once two threads have been in it at once -/
  mObjects : Option (List Session)
  /-- the threads in `add_object` that are between the return of `lock` and the clear of the
  flag -/
  inside : Nat
  pc : ι → Pc
  /-- the sessions that `create_object` has made -/
  created : List Session
  /-- those that `add_object` has been called with -/
  offered : List Session
  /-- those for which it has returned `true`, and `false` -/
  added : List Session
  refused : List Session

variable {ι : Type}

def init : State ι := ⟨false, 0, some [], 0, fun _ => .idle, [], [], [], []⟩

inductive Act (ι : Type) where
  /-- the thread calls `create_object()` -/
  | create (t : ι)
  /-- the thread calls `add_object()` -/
  | addNew (t : ι)
  /-- the thread calls `add_object(ss)` -/
  | add (t : ι) (ss : Session)
  | next (t : ι)

variable [DecidableEq ι]

def State.setPc (s : State ι) (t : ι) (p : Pc) : State ι :=
  { s with pc := Function.update s.pc t p }

def State.unlock (s : State ι) : State ι := { s with mFlag := false }

/-- One round of `lock`: to stay at `stay` or go on to `go`. -/
def State.lock (s : State ι) (t : ι) (stay go : Pc) : State ι :=
  let (flag, returns) := SpinLock.round s.mFlag
  { s with mFlag := flag }.setPc t (if returns then go else stay)

/-- `lock` of `add_object` returns. -/
def State.enter (s : State ι) : State ι :=
  { s with inside := s.inside + 1, mObjects := if s.inside = 0 then s.mObjects else none }

/-- `std::map::insert`, which leaves a key that is taken as it is. -/
def insertObject (objects : List Session) (ss : Session) : List Session :=
  if objects.any fun o => o.id = ss.id then objects else ss :: objects

/-- `add_object(ss)` is called. -/
def State.offer (s : State ι) (t : ι) (ss : Session) : State ι :=
  { s with offered := ss :: s.offered }.setPc t (.lockObjects ss)

/-- `make_shared`. -/
def State.make (s : State ι) (t : ι) (add : Bool) (id : Nat) : State ι :=
  let ss : Session := ⟨s.created.length, id⟩
  let s := { s with created := ss :: s.created }
  if add then s.offer t ss else s.setPc t .idle

/-- One step of the thread `t` in its call. What a map without a value answers is not said. -/
def next (s : State ι) (t : ι) : Option (State ι) :=
  match s.pc t with
  | .idle => none
  | .lockId add => some (s.lock t (.lockId add) (.load add))
  | .load add => some (s.setPc t (.increment add s.mSequenceId))
  | .increment add id =>
    some ({ s with mSequenceId := s.mSequenceId + 1 }.setPc t (.unlockId add id))
  | .unlockId add id => some (s.unlock.setPc t (.make add id))
  | .make add id => some (s.make t add id)
  | .lockObjects ss =>
    let s' := s.lock t (.lockObjects ss) (.count ss)
    some (if s.mFlag then s'.enter else s')
  | .count ss => s.mObjects.map fun objects =>
    if objects.any fun o => o.id = ss.id then
      { s with refused := ss :: s.refused }.setPc t (.unlockObjects ss false)
    else s.setPc t (.insert ss)
  | .insert ss => s.mObjects.map fun objects =>
    { s with mObjects := some (insertObject objects ss), added := ss :: s.added }.setPc t
      (.unlockObjects ss true)
  | .unlockObjects _ _ => some ({ s.unlock with inside := s.inside - 1 }.setPc t .idle)

def step (s : State ι) : Act ι → Option (State ι)
  | .create t => if s.pc t = .idle then some (s.setPc t (.lockId false)) else none
  | .addNew t => if s.pc t = .idle then some (s.setPc t (.lockId true)) else none
  | .add t ss =>
    if s.pc t = .idle ∧ ss ∈ s.created ∧ ss ∉ s.offered then some (s.offer t ss) else none
  | .next t => next s t

/-! ## What holds when each is alone -/

structure Unique (s : State ι) : Prop where
  ids : (s.created.map Session.id).Nodup
  /-- `add_object` of a new session never finds its id taken -/
  taken : s.refused = []
  /-- and what it has added is in the pool -/
  kept : ∃ objects, s.mObjects = some objects ∧ ∀ ss ∈ s.added, ss ∈ objects

/-- The id that a thread has drawn, for which there is no session yet. -/
def Pc.drawn : Pc → Option Nat
  | .increment _ id | .unlockId _ id | .make _ id => some id
  | _ => none

/-- The session that a thread is about to add. -/
def Pc.pending : Pc → Option Session
  | .lockObjects ss | .count ss | .insert ss => some ss
  | _ => none

def Pc.isIncrement : Pc → Prop
  | .increment _ _ => True
  | _ => False

/-- What the next step of the thread needs. -/
def AloneAt (s : State ι) (t : ι) : Pc → Prop
  | .load _ => ∀ u, u ≠ t → ¬ (s.pc u).isIncrement
  | .lockObjects _ => s.mFlag = true → s.inside = 0
  | _ => True

/-- Nobody loads `m_sequence_id` while another thread is between its load and its increment, and
the `lock` of an `add_object` does not return while another `add_object` is inside. -/
def Alone (s : State ι) : Act ι → Prop
  | .next t => AloneAt s t (s.pc t)
  | _ => True

/-- Of the ids. -/
structure Ids (s : State ι) : Prop where
  nodup : (s.created.map Session.id).Nodup
  below : ∀ ss ∈ s.created, ss.id < s.mSequenceId
  /-- the ids drawn are new -/
  drawn : ∀ t i, (s.pc t).drawn = some i → i ≤ s.mSequenceId ∧ ∀ ss ∈ s.created, ss.id ≠ i
  /-- only between the load and the increment it is the id to come -/
  next : ∀ t i, (s.pc t).drawn = some i → (i = s.mSequenceId ↔ (s.pc t).isIncrement)
  once : ∀ t u i, (s.pc t).drawn = some i → (s.pc u).drawn = some i → t = u

/-- Of the pool, in which there are `objects`. -/
structure Adds (s : State ι) (objects : List Session) : Prop where
  mObjects : s.mObjects = some objects
  /-- a session to be added is not in the pool -/
  pending : ∀ t ss, (s.pc t).pending = some ss → ss ∈ s.offered ∧ ss ∉ objects
  once : ∀ t u ss, (s.pc t).pending = some ss → (s.pc u).pending = some ss → t = u
  found : ∀ ss ∈ objects, ss ∈ s.offered
  offered : ∀ ss ∈ s.offered, ss ∈ s.created
  taken : s.refused = []
  kept : ∀ ss ∈ s.added, ss ∈ objects

structure Inv (s : State ι) : Prop where
  ids : Ids s
  adds : ∃ objects, Adds s objects

omit [DecidableEq ι] in
theorem Inv.unique {s : State ι} (h : Inv s) : Unique s := by
  obtain ⟨objects, hadds⟩ := h.adds
  exact ⟨h.ids.nodup, hadds.taken, objects, hadds.mObjects, hadds.kept⟩

variable {s s' : State ι} {t : ι} {p : Pc}

/-- The thread `t` draws no id. -/
theorem Ids.quiet (h : Ids s) (hpc : s'.pc = Function.update s.pc t p)
    (hp : p.drawn = none ∨ p.drawn = (s.pc t).drawn ∧ (p.isIncrement ↔ (s.pc t).isIncrement))
    (hseq : s'.mSequenceId = s.mSequenceId) (hcreated : s'.created = s.created) : Ids s' := by
  have hold : ∀ u i, (s'.pc u).drawn = some i →
      (s.pc u).drawn = some i ∧ ((s'.pc u).isIncrement ↔ (s.pc u).isIncrement) := by
    intro u i hu
    rw [hpc] at hu ⊢
    by_cases hut : u = t
    · subst hut
      rw [Function.update_self] at hu ⊢
      rcases hp with hp | ⟨hp, hinc⟩
      · rw [hp] at hu
        cases hu
      · exact ⟨hp ▸ hu, hinc⟩
    · rw [Function.update_of_ne hut] at hu ⊢
      exact ⟨hu, Iff.rfl⟩
  refine ⟨?_, ?_, fun u i hu => ?_, fun u i hu => ?_, fun u v i hu hv => ?_⟩
  · rw [hcreated]
    exact h.nodup
  · rw [hcreated, hseq]
    exact h.below
  · rw [hcreated, hseq]
    exact h.drawn u i (hold u i hu).1
  · rw [hseq, (hold u i hu).2]
    exact h.next u i (hold u i hu).1
  · exact h.once u v i (hold u i hu).1 (hold v i hv).1

/-- The thread `t` loads `m_sequence_id`. -/
theorem Ids.load {add : Bool} (h : Ids s) (hpc : s.pc t = .load add)
    (halone : ∀ u, u ≠ t → ¬ (s.pc u).isIncrement) :
    Ids (s.setPc t (.increment add s.mSequenceId)) := by
  have hother : ∀ u, u ≠ t → (s.pc u).drawn ≠ some s.mSequenceId := by
    intro u hu hdrawn
    exact halone u hu ((h.next u _ hdrawn).mp rfl)
  refine ⟨h.nodup, h.below, fun u i hu => ?_, fun u i hu => ?_, fun u v i hu hv => ?_⟩
  · by_cases hut : u = t
    · subst hut
      obtain rfl : s.mSequenceId = i := by simpa [State.setPc, Pc.drawn] using hu
      exact ⟨Nat.le_refl _, fun ss hss => (h.below ss hss).ne⟩
    · exact h.drawn u i (by simpa [State.setPc, hut] using hu)
  · by_cases hut : u = t
    · subst hut
      obtain rfl : s.mSequenceId = i := by simpa [State.setPc, Pc.drawn] using hu
      simp [State.setPc, Pc.isIncrement]
    · have hu' : (s.pc u).drawn = some i := by simpa [State.setPc, hut] using hu
      simpa [State.setPc, hut] using h.next u i hu'
  · by_cases hut : u = t
    · subst hut
      by_cases hvt : v = u
      · exact hvt.symm
      · obtain rfl : s.mSequenceId = i := by simpa [State.setPc, Pc.drawn] using hu
        exact absurd (by simpa [State.setPc, hvt] using hv) (hother v hvt)
    · have hu' : (s.pc u).drawn = some i := by simpa [State.setPc, hut] using hu
      by_cases hvt : v = t
      · subst hvt
        obtain rfl : s.mSequenceId = i := by simpa [State.setPc, Pc.drawn] using hv
        exact absurd hu' (hother u hut)
      · exact h.once u v i hu' (by simpa [State.setPc, hvt] using hv)

/-- The thread `t` increments `m_sequence_id`. -/
theorem Ids.increment {add : Bool} {id : Nat} (h : Ids s) (hpc : s.pc t = .increment add id) :
    Ids ({ s with mSequenceId := s.mSequenceId + 1 }.setPc t (.unlockId add id)) := by
  have hdrawn : (s.pc t).drawn = some id := by rw [hpc]; rfl
  have hid : id = s.mSequenceId := (h.next t id hdrawn).mpr (by rw [hpc]; trivial)
  have hold : ∀ u i, (Function.update s.pc t (.unlockId add id) u).drawn = some i →
      (s.pc u).drawn = some i := by
    intro u i hu
    by_cases hut : u = t
    · subst hut
      rw [hdrawn]
      simpa [Pc.drawn] using hu
    · simpa [hut] using hu
  refine ⟨h.nodup, fun ss hss => Nat.lt_succ_of_lt (h.below ss hss), fun u i hu => ?_,
    fun u i hu => ?_, fun u v i hu hv => h.once u v i (hold u i hu) (hold v i hv)⟩
  · obtain ⟨hle, hnew⟩ := h.drawn u i (hold u i hu)
    exact ⟨Nat.le_succ_of_le hle, hnew⟩
  · have hle := (h.drawn u i (hold u i hu)).1
    have hne : i ≠ s.mSequenceId + 1 := by omega
    refine ⟨fun heq => absurd heq hne, fun hinc => ?_⟩
    by_cases hut : u = t
    · subst hut
      simp [State.setPc, Pc.isIncrement] at hinc
    · have hinc' : (s.pc u).isIncrement := by simpa [State.setPc, hut] using hinc
      have hi := (h.next u i (hold u i hu)).mpr hinc'
      subst hi hid
      exact absurd (h.once u t _ (hold u _ hu) hdrawn) hut

/-- The thread `t` makes the session of the id that it has drawn. -/
theorem Ids.make {id k : Nat} (h : Ids s) (hdrawn : (s.pc t).drawn = some id)
    (hinc : ¬ (s.pc t).isIncrement) (hp : p.drawn = none)
    (hpc : s'.pc = Function.update s.pc t p) (hseq : s'.mSequenceId = s.mSequenceId)
    (hcreated : s'.created = ⟨k, id⟩ :: s.created) : Ids s' := by
  obtain ⟨hle, hnew⟩ := h.drawn t id hdrawn
  have hne : id ≠ s.mSequenceId := fun heq => hinc ((h.next t id hdrawn).mp heq)
  have hold : ∀ u i, (s'.pc u).drawn = some i → u ≠ t ∧ s'.pc u = s.pc u := by
    intro u i hu
    rw [hpc] at hu ⊢
    by_cases hut : u = t
    · subst hut
      rw [Function.update_self, hp] at hu
      cases hu
    · exact ⟨hut, Function.update_of_ne hut _ _⟩
  refine ⟨?_, ?_, fun u i hu => ?_, fun u i hu => ?_, fun u v i hu hv => ?_⟩
  · rw [hcreated, List.map_cons, List.nodup_cons]
    refine ⟨fun hmem => ?_, h.nodup⟩
    obtain ⟨ss, hss, heq⟩ := List.mem_map.mp hmem
    exact hnew ss hss heq
  · rw [hcreated, hseq]
    intro ss hss
    rcases List.mem_cons.mp hss with rfl | hss
    · exact Nat.lt_of_le_of_ne hle hne
    · exact h.below ss hss
  · obtain ⟨hut, heq⟩ := hold u i hu
    rw [heq] at hu
    obtain ⟨hle', hnew'⟩ := h.drawn u i hu
    rw [hcreated, hseq]
    refine ⟨hle', fun ss hss => ?_⟩
    rcases List.mem_cons.mp hss with rfl | hss
    · intro hi
      subst hi
      exact hut (h.once u t _ hu hdrawn)
    · exact hnew' ss hss
  · obtain ⟨-, heq⟩ := hold u i hu
    rw [heq] at hu ⊢
    rw [hseq]
    exact h.next u i hu
  · obtain ⟨-, hequ⟩ := hold u i hu
    obtain ⟨-, heqv⟩ := hold v i hv
    rw [hequ] at hu
    rw [heqv] at hv
    exact h.once u v i hu hv

section

variable {objects : List Session}

/-- The thread `t` does not come to write `m_objects`. -/
theorem Adds.quiet (h : Adds s objects) (hpc : s'.pc = Function.update s.pc t p)
    (hp : p.pending = none ∨ p.pending = (s.pc t).pending) (hobjects : s'.mObjects = s.mObjects)
    (hoffered : s'.offered = s.offered) (hcreated : ∀ ss ∈ s.created, ss ∈ s'.created)
    (hrefused : s'.refused = s.refused) (hadded : s'.added = s.added) : Adds s' objects := by
  have hold : ∀ u ss, (s'.pc u).pending = some ss → (s.pc u).pending = some ss := by
    intro u ss hu
    rw [hpc] at hu
    by_cases hut : u = t
    · subst hut
      rw [Function.update_self] at hu
      rcases hp with hp | hp
      · rw [hp] at hu
        cases hu
      · exact hp ▸ hu
    · rwa [Function.update_of_ne hut] at hu
  refine ⟨hobjects.trans h.mObjects, fun u ss hu => ?_, fun u v ss hu hv => ?_, ?_, ?_, ?_, ?_⟩
  · rw [hoffered]
    exact h.pending u ss (hold u ss hu)
  · exact h.once u v ss (hold u ss hu) (hold v ss hv)
  · rw [hoffered]
    exact h.found
  · rw [hoffered]
    exact fun ss hss => hcreated ss (h.offered ss hss)
  · rw [hrefused]
    exact h.taken
  · rw [hadded]
    exact h.kept

/-- The thread `t` calls `add_object` with a session that nobody has added. -/
theorem Adds.offer {ss : Session} (h : Adds s objects) (hss : ss ∉ s.offered)
    (hmem : ss ∈ s'.created) (hcreated : ∀ ss ∈ s.created, ss ∈ s'.created)
    (hobjects : s'.mObjects = s.mObjects) (hoffered : s'.offered = ss :: s.offered)
    (hrefused : s'.refused = s.refused) (hadded : s'.added = s.added)
    (hpc : s'.pc = Function.update s.pc t (.lockObjects ss)) : Adds s' objects := by
  have hself : (s'.pc t).pending = some ss := by
    rw [hpc, Function.update_self]
    rfl
  have hother : ∀ u, u ≠ t → s'.pc u = s.pc u := by
    intro u hu
    rw [hpc]
    exact Function.update_of_ne hu _ _
  have hno : ∀ u, (s.pc u).pending ≠ some ss := fun u hu => hss (h.pending u ss hu).1
  refine ⟨hobjects.trans h.mObjects, fun u x hu => ?_, fun u v x hu hv => ?_, fun x hx => ?_,
    fun x hx => ?_, ?_, ?_⟩
  · rw [hoffered]
    by_cases hut : u = t
    · subst hut
      cases hself.symm.trans hu
      exact ⟨List.mem_cons_self, fun hmem => hss (h.found ss hmem)⟩
    · rw [hother u hut] at hu
      obtain ⟨hoff, hout⟩ := h.pending u x hu
      exact ⟨List.mem_cons_of_mem ss hoff, hout⟩
  · by_cases hut : u = t
    · subst hut
      cases hself.symm.trans hu
      by_cases hvt : v = u
      · exact hvt.symm
      · rw [hother v hvt] at hv
        exact absurd hv (hno v)
    · rw [hother u hut] at hu
      by_cases hvt : v = t
      · subst hvt
        cases hself.symm.trans hv
        exact absurd hu (hno u)
      · rw [hother v hvt] at hv
        exact h.once u v x hu hv
  · rw [hoffered]
    exact List.mem_cons_of_mem ss (h.found x hx)
  · rw [hoffered] at hx
    rcases List.mem_cons.mp hx with rfl | hx
    · exact hmem
    · exact hcreated x (h.offered x hx)
  · rw [hrefused]
    exact h.taken
  · rw [hadded]
    exact h.kept

omit [DecidableEq ι] in
/-- Nobody in the pool has the id of a session that is to be added. -/
theorem Ids.not_any {ss : Session} (hi : Ids s) (h : Adds s objects)
    (hpend : (s.pc t).pending = some ss) : ¬ (objects.any fun o => o.id = ss.id) = true := by
  intro hany
  obtain ⟨o, ho, hid⟩ := List.any_eq_true.mp hany
  obtain ⟨hoff, hout⟩ := h.pending t ss hpend
  have heq : o = ss := List.inj_on_of_nodup_map hi.nodup (h.offered o (h.found o ho))
    (h.offered ss hoff) (of_decide_eq_true hid)
  exact hout (heq ▸ ho)

/-- The thread `t` inserts its session. -/
theorem Adds.insert {ss : Session} (h : Adds s objects) (hpc : s.pc t = .insert ss) :
    Adds ({ s with mObjects := some (ss :: objects), added := ss :: s.added }.setPc t
      (.unlockObjects ss true)) (ss :: objects) := by
  have hpend : (s.pc t).pending = some ss := by rw [hpc]; rfl
  obtain ⟨hoff, -⟩ := h.pending t ss hpend
  have hold : ∀ u x, (Function.update s.pc t (.unlockObjects ss true) u).pending = some x →
      u ≠ t ∧ (s.pc u).pending = some x := by
    intro u x hu
    by_cases hut : u = t
    · subst hut
      simp [Pc.pending] at hu
    · exact ⟨hut, by simpa [hut] using hu⟩
  refine ⟨rfl, fun u x hu => ?_, fun u v x hu hv => h.once u v x (hold u x hu).2 (hold v x hv).2,
    fun x hx => ?_, h.offered, h.taken, fun x hx => ?_⟩
  · obtain ⟨hut, hu'⟩ := hold u x hu
    obtain ⟨hoff', hout⟩ := h.pending u x hu'
    refine ⟨hoff', fun hmem => ?_⟩
    rcases List.mem_cons.mp hmem with rfl | hmem
    · exact hut (h.once u t x hu' hpend)
    · exact hout hmem
  · rcases List.mem_cons.mp hx with rfl | hx
    · exact hoff
    · exact h.found x hx
  · rcases List.mem_cons.mp hx with rfl | hx
    · exact List.mem_cons_self
    · exact List.mem_cons_of_mem ss (h.kept x hx)

end

theorem Inv.next (h : Inv s) (hc : Alone s (.next t)) (hs : next s t = some s') : Inv s' := by
  unfold SessionPool.next at hs
  obtain ⟨hids, objects, hadds⟩ := h
  cases hpc : s.pc t with
  | idle =>
    rw [hpc] at hs
    cases hs
  | lockId add =>
    rw [hpc] at hs
    cases hs
    refine ⟨hids.quiet rfl (Or.inl ?_) rfl rfl, objects,
      hadds.quiet rfl (Or.inl ?_) rfl rfl (fun _ => id) rfl rfl⟩
    all_goals cases s.mFlag <;> simp [Pc.drawn, Pc.pending]
  | load add =>
    rw [hpc] at hs
    cases hs
    rw [Alone, hpc] at hc
    exact ⟨hids.load hpc hc, objects,
      hadds.quiet rfl (Or.inl rfl) rfl rfl (fun _ => id) rfl rfl⟩
  | increment add i =>
    rw [hpc] at hs
    cases hs
    exact ⟨hids.increment hpc, objects,
      hadds.quiet rfl (Or.inl rfl) rfl rfl (fun _ => id) rfl rfl⟩
  | unlockId add i =>
    rw [hpc] at hs
    cases hs
    refine ⟨hids.quiet rfl (Or.inr ?_) rfl rfl, objects,
      hadds.quiet rfl (Or.inl rfl) rfl rfl (fun _ => id) rfl rfl⟩
    rw [hpc]
    exact ⟨rfl, Iff.rfl⟩
  | make add i =>
    rw [hpc] at hs
    cases hs
    have hdrawn : (s.pc t).drawn = some i := by rw [hpc]; rfl
    have hinc : ¬ (s.pc t).isIncrement := by rw [hpc]; exact fun hi => hi
    have hnew : (⟨s.created.length, i⟩ : Session) ∉ s.offered := fun hmem =>
      (hids.drawn t i hdrawn).2 _ (hadds.offered _ hmem) rfl
    cases add with
    | false =>
      exact ⟨hids.make hdrawn hinc rfl rfl rfl rfl, objects,
        hadds.quiet rfl (Or.inl rfl) rfl rfl (fun _ => List.mem_cons_of_mem _) rfl rfl⟩
    | true =>
      exact ⟨hids.make hdrawn hinc rfl rfl rfl rfl, objects,
        hadds.offer hnew List.mem_cons_self (fun _ => List.mem_cons_of_mem _) rfl rfl rfl rfl rfl⟩
  | lockObjects ss =>
    rw [Alone, hpc] at hc
    have hpend : (s.pc t).pending = some ss := by rw [hpc]; rfl
    cases hf : s.mFlag with
    | false =>
      simp only [hpc, State.lock, hf] at hs
      cases hs
      exact ⟨hids.quiet rfl (Or.inl rfl) rfl rfl, objects,
        hadds.quiet rfl (Or.inr hpend.symm) rfl rfl (fun _ => id) rfl rfl⟩
    | true =>
      simp only [hpc, State.lock, hf] at hs
      cases hs
      exact ⟨hids.quiet rfl (Or.inl rfl) rfl rfl, objects,
        hadds.quiet rfl (Or.inr hpend.symm) (if_pos (hc hf)) rfl (fun _ => id) rfl rfl⟩
  | count ss =>
    have hpend : (s.pc t).pending = some ss := by rw [hpc]; rfl
    simp only [hpc, hadds.mObjects, Option.map_some, if_neg (hids.not_any hadds hpend)] at hs
    cases hs
    exact ⟨hids.quiet rfl (Or.inl rfl) rfl rfl, objects,
      hadds.quiet rfl (Or.inr hpend.symm) rfl rfl (fun _ => id) rfl rfl⟩
  | insert ss =>
    have hpend : (s.pc t).pending = some ss := by rw [hpc]; rfl
    have hinsert : insertObject objects ss = ss :: objects := if_neg (hids.not_any hadds hpend)
    simp only [hpc, hadds.mObjects, Option.map_some, hinsert] at hs
    cases hs
    exact ⟨hids.quiet rfl (Or.inl rfl) rfl rfl, ss :: objects, hadds.insert hpc⟩
  | unlockObjects ss ret =>
    rw [hpc] at hs
    cases hs
    exact ⟨hids.quiet rfl (Or.inl rfl) rfl rfl, objects,
      hadds.quiet rfl (Or.inl rfl) rfl rfl (fun _ => id) rfl rfl⟩

theorem Inv.step {a : Act ι} (h : Inv s) (hc : Alone s a) (hs : step s a = some s') : Inv s' := by
  cases a with
  | next t => exact h.next hc hs
  | create t | addNew t =>
    obtain ⟨-, hs⟩ := Option.ite_none_right_eq_some.mp hs
    cases hs
    obtain ⟨hids, objects, hadds⟩ := h
    exact ⟨hids.quiet rfl (Or.inl rfl) rfl rfl, objects,
      hadds.quiet rfl (Or.inl rfl) rfl rfl (fun _ => id) rfl rfl⟩
  | add t ss =>
    obtain ⟨⟨-, hcreated, hoff⟩, hs⟩ := Option.ite_none_right_eq_some.mp hs
    cases hs
    obtain ⟨hids, objects, hadds⟩ := h
    exact ⟨hids.quiet rfl (Or.inl rfl) rfl rfl, objects,
      hadds.offer hoff hcreated (fun _ => id) rfl rfl rfl rfl rfl⟩

omit [DecidableEq ι] in
theorem inv_init : Inv (init : State ι) where
  ids := ⟨List.nodup_nil, nofun, nofun, nofun, nofun⟩
  adds := ⟨[], rfl, nofun, nofun, nofun, nofun, rfl, nofun⟩

/-- In every state of a run in which each thread is alone where it has to be, the ids are all
different and `add_object` has dropped nothing. -/
theorem guarded_unique {as : List (Act ι)} (h : Guarded step Alone init as s) :
    ∀ bs s', bs <+: as → run step init bs = some s' → Unique s' := by
  intro bs s' hp hb
  have hinv : Inv s' :=
    guarded_invariant (I := Inv) inv_init (fun _ _ _ hi hc hs => hi.step hc hs) (h.of_prefix hp hb)
  exact hinv.unique

instance (p : Pc) : Decidable p.isIncrement := by
  cases p <;> unfold Pc.isIncrement <;> infer_instance

instance (s : State Bool) (t : Bool) (p : Pc) : Decidable (AloneAt s t p) := by
  cases p <;> unfold AloneAt <;> infer_instance

instance (s : State Bool) (a : Act Bool) : Decidable (Alone s a) := by
  cases a with
  | next t => exact inferInstanceAs (Decidable (AloneAt s t (s.pc t)))
  | create | addNew | add => exact instDecidableTrue

/-- Two threads in `add_object()`: the second one is in `create_object` while the first one is
still inside the lock, but loads when the first one has incremented. -/
def adding : List (Act Bool) :=
  .addNew true :: .replicate 4 (.next true) ++ .addNew false :: .replicate 3 (.next false) ++
    .replicate 2 (.next true) ++ .replicate 2 (.next false) ++ .replicate 5 (.next true) ++
    .replicate 5 (.next false)

theorem guarded_unique_adding : ∃ s, run step init adding = some s ∧
    s.mObjects = some [⟨1, 1⟩, ⟨0, 0⟩] ∧
    ∀ bs s', bs <+: adding → run step init bs = some s' → Unique s' := by
  have hguarded : Guarded step Alone init adding _ := guarded_iff_run.mpr rfl
  exact ⟨_, hguarded.run_eq, rfl, guarded_unique hguarded⟩

/-- Two threads in `add_object()`: the second one finds the flag set, and is let in before the
first one has incremented `m_sequence_id`; their sessions are added one after the other. -/
def colliding : List (Act Bool) :=
  [.addNew true, .addNew false] ++ .replicate 2 (.next true) ++ .replicate 1 (.next false) ++
    [.next true, .next false, .next true, .next false] ++ .replicate 7 (.next true) ++
    .replicate 6 (.next false)

theorem not_unique : ∃ s, run step init colliding = some s ∧
    s.created.map Session.id = [0, 0] ∧ s.refused = [⟨1, 0⟩] ∧ ¬ Unique s := by
  refine ⟨_, rfl, rfl, rfl, fun h => ?_⟩
  have htaken := h.taken
  cases htaken

end Wish.SessionPool
