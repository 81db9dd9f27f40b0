import Wish.Net.Tcp.Server

/-!
# The sessions that `wish::tcp::server` can be asked for

Between its `on_connect` and its `on_disconnect` a session is to be found in the pool, and messages
for it are to be accepted. The handler of `async_accept` calls `connect` first, and `on_connect`
with it, and `add_object` afterwards; `tcp::client` does it the other way round.

* `Served`: what `find` and `send_msg` say of a session.
* `served_iff`: it is so all along exactly when the session is never connected.
* `served_of_added`: what is left when the session has been added.
-/

namespace Wish.Tcp

open Machine

namespace ServerState

variable {ι : Type}

/-- What `find(sid)` returns once it is inside `m_lock`; a session is named by its id. -/
def find (s : ServerState ι) (sid : Nat) : Option Nat :=
  if (s.sessions sid).pooled then some sid else none

/-- What `send_msg(sid, data)` returns. -/
def sendMsg (s : ServerState ι) (sid : Nat) : Bool :=
  match s.find sid with
  | none => false
  | some ss => s.isConnected ss

/-- Between its callbacks the session is there. -/
def Served (s : ServerState ι) (sid : Nat) : Prop :=
  .onConnect sid ∈ s.log → .onDisconnect sid ∉ s.log →
    s.find sid = some sid ∧ s.sendMsg sid = true

/-- The step is not `connect` of this session. -/
def Unconnected (sid : Nat) (s : ServerState ι) (a : ServerAct ι) : Prop :=
  a = .io → s.io = .connect → s.accepting ≠ sid

/-- `shutdown` clears the pool of sessions that are disconnected. -/
def Emptied (s : ServerState ι) : ServerAct ι → Prop
  | .next t => s.callers t = .clear →
      ∀ sid, (s.sessions sid).pooled = true → s.isConnected sid = false
  | _ => True

/-- The session has its connection, and is still to be added. -/
def Adding (s : ServerState ι) (sid : Nat) : Prop :=
  (s.io = .lockAdd ∨ s.io = .add) ∧ s.accepting = sid

end ServerState

/-! ## What holds of a session in every run -/

/-- A session and its callbacks, whoever disconnects it and how often. -/
structure Life (sid : Nat) (ss : ServerSession) (log : List Event) : Prop where
  link : ss.link = .new ∨ ss.link = .up ∨ ss.link = .down
  reading : ss.reading = true → ss.link ≠ .new
  pooled : ss.pooled = true → ss.link ≠ .new
  connected : .onConnect sid ∈ log ↔ ss.link ≠ .new
  disconnected : .onDisconnect sid ∈ log ↔ ss.link = .down

/-- A session stays in the pool until it is disconnected. -/
def Kept (f g : Nat → ServerSession) : Prop :=
  ∀ sid, (g sid).link = (f sid).link ∧ ((f sid).pooled = true → (g sid).pooled = true) ∨
    (f sid).link ≠ .new ∧ (g sid).link = .down

namespace Life

variable {sid : Nat} {ss : ServerSession} {log : List Event}

theorem new : Life sid .new [] where
  link := Or.inl rfl
  reading := nofun
  pooled := nofun
  connected := ⟨nofun, absurd rfl⟩
  disconnected := ⟨nofun, nofun⟩

theorem isConnected_iff (h : Life sid ss log) : ss.link.isConnected = true ↔ ss.link = .up := by
  rcases h.link with hl | hl | hl <;> rw [hl] <;> decide

/-- It is connected between its callbacks. -/
theorem up_iff (h : Life sid ss log) :
    ss.link = .up ↔ .onConnect sid ∈ log ∧ .onDisconnect sid ∉ log := by
  rw [h.connected, h.disconnected]
  rcases h.link with hl | hl | hl <;> rw [hl] <;> decide

/-- The callback is another one. -/
theorem emit {e : Event} (h : Life sid ss log) (hc : e ≠ .onConnect sid)
    (hd : e ≠ .onDisconnect sid) : Life sid ss (log ++ [e]) where
  link := h.link
  reading := h.reading
  pooled := h.pooled
  connected := by
    rw [← h.connected, List.mem_append, List.mem_singleton]
    exact or_iff_left hc.symm
  disconnected := by
    rw [← h.disconnected, List.mem_append, List.mem_singleton]
    exact or_iff_left hd.symm

theorem connect (h : Life sid ss log) (hnew : ss.link = .new) :
    Life sid { ss with link := ss.link.connect, reading := true } (log ++ [.onConnect sid]) := by
  have hnot : .onDisconnect sid ∉ log := by
    rw [h.disconnected, hnew]
    nofun
  rw [hnew]
  exact ⟨Or.inr (Or.inl rfl), fun _ => nofun, fun _ => nofun,
    ⟨fun _ => nofun, fun _ => by simp⟩, ⟨fun hm => by simp [hnot] at hm, nofun⟩⟩

theorem hangUp (h : Life sid ss log) (hnew : ss.link ≠ .new) :
    Life sid { ss with link := ss.link.disconnect } (log ++ [.onDisconnect sid]) where
  link := Or.inr (Or.inr rfl)
  reading _ := nofun
  pooled _ := nofun
  connected := ⟨fun _ => nofun, fun _ => List.mem_append_left _ (h.connected.mpr hnew)⟩
  disconnected := ⟨fun _ => rfl, fun _ => List.mem_append_right _ (List.mem_singleton_self _)⟩

theorem pool {b c : Bool} (h : Life sid ss log) (hnew : b = true → ss.link ≠ .new) :
    Life sid { ss with pooled := b, joined := c } log :=
  ⟨h.link, h.reading, hnew, h.connected, h.disconnected⟩

theorem own {owners : Nat} (h : Life sid ss log) : Life sid { ss with owners := owners } log :=
  ⟨h.link, h.reading, h.pooled, h.connected, h.disconnected⟩

theorem read {b : Bool} (h : Life sid ss log) (hnew : b = true → ss.link ≠ .new) :
    Life sid { ss with reading := b } log :=
  ⟨h.link, hnew, h.pooled, h.connected, h.disconnected⟩

end Life

theorem Kept.refl (f : Nat → ServerSession) : Kept f f := fun _ => Or.inl ⟨rfl, id⟩

theorem Kept.trans {f g k : Nat → ServerSession} (hfg : Kept f g) (hgk : Kept g k) : Kept f k := by
  intro sid
  rcases hfg sid with ⟨hl, hp⟩ | ⟨hnew, hdown⟩
  · rcases hgk sid with ⟨hl', hp'⟩ | ⟨hnew', hdown'⟩
    · exact Or.inl ⟨hl'.trans hl, fun hpooled => hp' (hp hpooled)⟩
    · exact Or.inr ⟨hl ▸ hnew', hdown'⟩
  · rcases hgk sid with ⟨hl', -⟩ | ⟨-, hdown'⟩
    · exact Or.inr ⟨hnew, hl'.trans hdown⟩
    · exact Or.inr ⟨hnew, hdown'⟩

namespace ServerState

variable {ι : Type} {s s' : ServerState ι} {sid : Nat} {pc pc' : TearPc}

/-- What holds in every run. -/
structure Lives (s : ServerState ι) : Prop where
  session : ∀ sid, Life sid (s.sessions sid) s.log
  fresh : ∀ sid, s.accepting < sid → (s.sessions sid).link = .new
  armed : s.armed = true → (s.sessions s.accepting).link = .new
  io : s.io.Ok s.sessions s.accepting s.armed
  callers : ∀ t, (s.callers t).Ok s.sessions

theorem lives_init : Lives (init : ServerState ι) where
  session _ := .new
  fresh _ _ := rfl
  armed _ := rfl
  io := trivial
  callers _ := trivial

theorem Lives.served_iff_pooled (h : Lives s) :
    Served s sid ↔ ((s.sessions sid).link = .up → (s.sessions sid).pooled = true) := by
  have hsession := h.session sid
  constructor
  · intro hserved hup
    obtain ⟨hc, hd⟩ := hsession.up_iff.mp hup
    have hfind := (hserved hc hd).1
    by_contra hp
    rw [find, if_neg hp] at hfind
    cases hfind
  · intro hpooled hc hd
    have hup := hsession.up_iff.mpr ⟨hc, hd⟩
    have hfind : s.find sid = some sid := if_pos (hpooled hup)
    refine ⟨hfind, ?_⟩
    rw [sendMsg, hfind]
    exact hsession.isConnected_iff.mpr hup

theorem Lives.steady {f : Nat → ServerSession} (h : Lives s) (hf : Kept s.sessions f) :
    Steady s.sessions f := by
  intro sid
  rcases hf sid with ⟨he, -⟩ | ⟨hnew, hdown⟩
  · exact Or.inl he
  · rcases (h.session sid).link with hl | hl | hl
    · exact absurd hl hnew
    · exact Or.inr ⟨hl, hdown⟩
    · exact Or.inl (hdown.trans hl.symm)

theorem Lives.goes {pc : IoPc} (h : Lives s) (hpc : pc.Ok s.sessions s.accepting s.armed) :
    Lives { s with io := pc } :=
  ⟨h.session, h.fresh, h.armed, hpc, h.callers⟩

/-- The sessions and the callbacks go on. -/
theorem Lives.go_on {f : Nat → ServerSession} {log : List Event} (h : Lives s)
    (hsession : ∀ sid, Life sid (f sid) log) (hf : Steady s.sessions f) :
    Lives { s with sessions := f, log := log } where
  session := hsession
  fresh sid hlt := hf.new_iff.mpr (h.fresh sid hlt)
  armed ha := hf.new_iff.mpr (h.armed ha)
  io := h.io.steady hf
  callers t := (h.callers t).onward hf.onward

theorem kept_setSession {ss : ServerSession}
    (hss : ss.link = (s.sessions sid).link ∧
      ((s.sessions sid).pooled = true → ss.pooled = true) ∨
      (s.sessions sid).link ≠ .new ∧ ss.link = .down) :
    Kept s.sessions (s.setSession sid ss).sessions := by
  intro u
  by_cases hu : u = sid
  · rw [hu, setSession_self]
    exact hss
  · rw [setSession_of_ne hu]
    exact Or.inl ⟨rfl, id⟩

theorem Lives.setSession {ss : ServerSession} (h : Lives s) (hss : Life sid ss s.log)
    (hkept : Kept s.sessions (s.setSession sid ss).sessions) : Lives (s.setSession sid ss) := by
  refine h.go_on ?_ (h.steady hkept)
  exact (Function.forall_update_iff s.sessions fun u ss => Life u ss s.log).mpr
    ⟨hss, fun u _ => h.session u⟩

/-- The callbacks of receiving. -/
theorem Lives.emit {e : Event} (h : Lives s) (hc : ∀ sid, e ≠ .onConnect sid)
    (hd : ∀ sid, e ≠ .onDisconnect sid) : Lives (s.emit e) :=
  h.go_on (fun sid => (h.session sid).emit (hc sid) (hd sid)) (.refl _)

theorem kept_hangUp (hnew : (s.sessions sid).link ≠ .new) :
    Kept s.sessions (s.hangUp sid).sessions :=
  kept_setSession (Or.inr ⟨hnew, rfl⟩)

theorem Lives.hangUp (h : Lives s) (hnew : (s.sessions sid).link ≠ .new) :
    Lives (s.hangUp sid) := by
  refine h.go_on (fun u => ?_) (h.steady (kept_hangUp hnew))
  by_cases hu : u = sid
  · rw [hu, setSession_self]
    exact (h.session sid).hangUp hnew
  · rw [setSession_of_ne hu]
    exact (h.session u).emit nofun (by simpa using Ne.symm hu)

theorem kept_addObject : Kept s.sessions (s.addObject sid).sessions := by
  unfold addObject
  split
  · exact .refl _
  · exact kept_setSession (Or.inl ⟨rfl, fun _ => rfl⟩)

theorem addObject_pooled : ((s.addObject sid).sessions sid).pooled = true := by
  unfold addObject
  split
  · assumption
  · exact congrArg ServerSession.pooled setSession_self

theorem Lives.addObject (h : Lives s) (hnew : (s.sessions sid).link ≠ .new) :
    Lives (s.addObject sid) := by
  have hkept : Kept s.sessions (s.addObject sid).sessions := kept_addObject
  unfold ServerState.addObject at hkept ⊢
  split
  · exact h
  · next hp =>
    rw [if_neg hp] at hkept
    exact h.setSession ((h.session sid).pool fun _ => hnew) hkept

theorem kept_delObject (hdown : (s.sessions sid).link = .down) :
    Kept s.sessions (s.delObject sid).sessions := by
  refine kept_setSession (Or.inr ⟨fun hnew => ?_, hdown⟩)
  cases hdown.symm.trans hnew

theorem Lives.delObject (h : Lives s) (hdown : (s.sessions sid).link = .down) :
    Lives (s.delObject sid) :=
  h.setSession ((h.session sid).pool nofun) (kept_delObject hdown)

theorem kept_read {b : Bool} :
    Kept s.sessions (s.setSession sid { s.sessions sid with reading := b }).sessions :=
  kept_setSession (Or.inl ⟨rfl, id⟩)

theorem Lives.read {b : Bool} (h : Lives s) (hnew : (s.sessions sid).link ≠ .new) :
    Lives (s.setSession sid { s.sessions sid with reading := b }) :=
  h.setSession ((h.session sid).read fun _ => hnew) kept_read

theorem kept_setOwners {owners : Nat} : Kept s.sessions (s.setOwners sid owners).sessions :=
  kept_setSession (Or.inl ⟨rfl, id⟩)

theorem Lives.setOwners {owners : Nat} (h : Lives s) : Lives (s.setOwners sid owners) :=
  h.setSession (h.session sid).own kept_setOwners

theorem Lives.lock {a : Access} (h : Lives s) :
    Lives { s with
      mFlag := true
      inside := if s.mFlag then a :: s.inside else s.inside
      undefined := s.undefined || s.mFlag && s.races a } :=
  ⟨h.session, h.fresh, h.armed, h.io, h.callers⟩

theorem Lives.unlock {a : Access} (h : Lives s) : Lives (s.unlock a) :=
  ⟨h.session, h.fresh, h.armed, h.io, h.callers⟩

theorem Lives.clear (h : Lives s) : Lives s.clear :=
  h.go_on (fun sid => (h.session sid).pool nofun) fun _ => Or.inl rfl

/-- A step of `disconnect(sid)`, by whichever thread. -/
theorem Lives.tear (h : Lives s) (hpc : pc.Ok (s.sessions sid).link)
    (hs : s.tearNext sid pc = some (s', pc')) :
    Lives s' ∧ pc'.Ok (s'.sessions sid).link ∧ Kept s.sessions s'.sessions ∧
      s'.accepting = s.accepting := by
  cases pc with
  | lockFind =>
    simp only [tearNext, lock_eq, Option.some.injEq, Prod.mk.injEq] at hs
    obtain ⟨rfl, rfl⟩ := hs
    refine ⟨h.lock, ?_, .refl _, rfl⟩
    split <;> trivial
  | find =>
    simp only [tearNext] at hs
    split at hs
    · cases hs
      exact ⟨h.unlock.setOwners, trivial,
        kept_setOwners (s := s.unlock .reads), rfl⟩
    · cases hs
      exact ⟨h.unlock, trivial, .refl _, rfl⟩
  | test =>
    simp only [tearNext] at hs
    split at hs
    · next hconn =>
      cases hs
      have hup := (h.session sid).isConnected_iff.mp hconn
      refine ⟨h, fun hl => ?_, .refl _, rfl⟩
      cases hup.symm.trans hl
    · cases hs
      exact ⟨h.setOwners, trivial, kept_setOwners, rfl⟩
  | disconnect =>
    simp only [tearNext, Option.some.injEq, Prod.mk.injEq] at hs
    obtain ⟨rfl, rfl⟩ := hs
    exact ⟨h.hangUp hpc, congrArg ServerSession.link setSession_self, kept_hangUp hpc, rfl⟩
  | lockErase =>
    simp only [tearNext, lock_eq, Option.some.injEq, Prod.mk.injEq] at hs
    obtain ⟨rfl, rfl⟩ := hs
    refine ⟨h.lock, ?_, .refl _, rfl⟩
    split <;> exact hpc
  | erase =>
    simp only [tearNext, Option.some.injEq, Prod.mk.injEq] at hs
    obtain ⟨rfl, rfl⟩ := hs
    exact ⟨(h.delObject hpc).unlock, trivial, kept_delObject hpc, rfl⟩
  | leave =>
    simp only [tearNext, Option.some.injEq, Prod.mk.injEq] at hs
    obtain ⟨rfl, rfl⟩ := hs
    exact ⟨h.setOwners, trivial, kept_setOwners, rfl⟩
  | done | threw => cases hs

/-- The new session has its connection, and goes into the pool next. -/
theorem Lives.connect (h : Lives s) (hpc : s.io = .connect) :
    Lives { s.connect s.accepting with io := .lockAdd } ∧
      ((s.connect s.accepting).sessions s.accepting).link = .up ∧
      ((s.connect s.accepting).sessions s.accepting).pooled = false := by
  have hio := h.io
  rw [hpc] at hio
  obtain ⟨hunarmed, hnew⟩ := hio
  have hother : ∀ u, u ≠ s.accepting → (s.connect s.accepting).sessions u = s.sessions u :=
    fun _ => connect_of_ne
  have hself : (s.connect s.accepting).sessions s.accepting =
      { s.sessions s.accepting with
        link := (s.sessions s.accepting).link.connect, reading := true } := setSession_self
  have hup := connect_up hnew
  refine ⟨⟨fun u => ?_, fun u hlt => ?_, fun ha => ?_, ⟨hunarmed, ?_⟩,
    fun t => (h.callers t).onward (connect_onward hnew)⟩, hup, ?_⟩
  · by_cases hu : u = s.accepting
    · rw [hu]
      exact hself ▸ (h.session s.accepting).connect hnew
    · exact hother u hu ▸ (h.session u).emit (by simpa using Ne.symm hu) nofun
  · rw [hother u (Nat.ne_of_gt hlt)]
    exact h.fresh u hlt
  · cases hunarmed.symm.trans ha
  · exact fun hl => nomatch hup.symm.trans hl
  · rw [hself]
    by_contra hp
    rw [Bool.not_eq_false] at hp
    exact (h.session s.accepting).pooled hp hnew

/-- The handler of a read finds its session, or nothing is said any more. -/
theorem Lives.through (h : Lives s) (sid : Nat) (hm : Lives s')
    (hkept : Kept s.sessions s'.sessions) :
    Lives (s.through sid s') ∧ Kept s.sessions (s.through sid s').sessions := by
  unfold ServerState.through
  split
  · exact ⟨hm, hkept⟩
  · exact ⟨⟨h.session, h.fresh, h.armed, h.io, h.callers⟩, .refl _⟩

/-- A step of the io thread connects a session, or leaves those in the pool there. -/
theorem Lives.ioNext (h : Lives s) (hs : s.ioNext = some s') :
    Lives s' ∧ (s.io = .connect ∧ s' = { s.connect s.accepting with io := .lockAdd } ∨
      s.io ≠ .connect ∧ Kept s.sessions s'.sessions ∧
        (s.io = .lockAdd → (s'.io = .lockAdd ∨ s'.io = .add) ∧ s'.accepting = s.accepting) ∧
        (s.io = .add → (s'.sessions s.accepting).pooled = true)) := by
  unfold ServerState.ioNext at hs
  have hio := h.io
  cases hpc : s.io with
  | rest =>
    rw [hpc] at hs
    cases hs
  | accepted ec =>
    rw [hpc] at hio
    simp only [hpc] at hs
    split at hs
    · cases hs
      exact ⟨h.goes trivial, Or.inr ⟨nofun, .refl _, nofun, nofun⟩⟩
    · cases hs
      refine ⟨?_, Or.inr ⟨nofun, .refl _, nofun, nofun⟩⟩
      cases ec with
      | false => exact h.goes hio
      | true => exact h.goes hio.1
  | connect =>
    simp only [hpc] at hs
    cases hs
    exact ⟨(h.connect hpc).1, Or.inl ⟨rfl, rfl⟩⟩
  | lockAdd =>
    rw [hpc] at hio
    simp only [hpc, lock_eq, Option.some.injEq] at hs
    subst hs
    refine ⟨h.lock.goes ?_, Or.inr ⟨nofun, .refl _, fun _ => ⟨?_, rfl⟩, nofun⟩⟩
    · split <;> exact hio
    · cases s.mFlag
      · exact Or.inl rfl
      · exact Or.inr rfl
  | add =>
    rw [hpc] at hio
    simp only [hpc] at hs
    cases hs
    exact ⟨(h.addObject hio.2).unlock.goes (addObject_armed.trans hio.1),
      Or.inr ⟨nofun, kept_addObject, nofun, fun _ => addObject_pooled⟩⟩
  | lockCreate =>
    rw [hpc] at hio
    simp only [hpc, lock_eq, Option.some.injEq] at hs
    subst hs
    refine ⟨h.lock.goes ?_, Or.inr ⟨nofun, .refl _, nofun, nofun⟩⟩
    split <;> exact hio
  | create =>
    simp only [hpc] at hs
    cases hs
    exact ⟨⟨h.session, fun u hlt => h.fresh u (Nat.lt_of_succ_lt hlt),
      fun _ => h.fresh _ (Nat.lt_succ_self _), trivial, h.callers⟩,
      Or.inr ⟨nofun, .refl _, nofun, nofun⟩⟩
  | leave sid =>
    simp only [hpc] at hs
    cases hs
    exact ⟨h.setOwners.goes trivial, Or.inr ⟨nofun, kept_setOwners, nofun, nofun⟩⟩
  | first sid ec =>
    rw [hpc] at hio
    simp only [hpc] at hs
    cases hs
    have hnext : Lives (if (s.sessions sid).link.mStopped then { s with io := .rest }
        else { s with io := if ec then .error sid else .message sid }) := by
      split
      · exact h.goes trivial
      · cases ec with
        | false => exact h.goes hio
        | true => exact h.goes hio
    obtain ⟨hm, hkept⟩ := h.through sid hnext (by split <;> exact .refl _)
    exact ⟨hm, Or.inr ⟨nofun, hkept, nofun, nofun⟩⟩
  | error sid =>
    rw [hpc] at hio
    simp only [hpc] at hs
    cases hs
    have hemit : Lives (s.emit (.onReceiveError sid)) := h.emit nofun nofun
    have hnext : Lives { s.emit (.onReceiveError sid) with io := .tear sid .lockFind } :=
      hemit.goes ⟨hio, trivial⟩
    obtain ⟨hm, hkept⟩ := h.through sid hnext (.refl _)
    exact ⟨hm, Or.inr ⟨nofun, hkept, nofun, nofun⟩⟩
  | tear sid pc =>
    rw [hpc] at hio
    simp only [hpc, Option.map_eq_some_iff, Prod.exists] at hs
    obtain ⟨m, pc', htear, rfl⟩ := hs
    obtain ⟨hm, hok, hkept, -⟩ := h.tear hio.2 htear
    have hmio := hm.io
    rw [tearNext_io htear, hpc] at hmio
    cases pc' with
    | done => exact ⟨hm.goes hmio.1, Or.inr ⟨nofun, hkept, nofun, nofun⟩⟩
    | threw =>
      exact ⟨⟨hm.session, hm.fresh, hm.armed, hm.io, hm.callers⟩,
        Or.inr ⟨nofun, hkept, nofun, nofun⟩⟩
    | lockFind | find | test | disconnect | lockErase | erase | leave =>
      exact ⟨hm.goes ⟨hmio.1, hok⟩, Or.inr ⟨nofun, hkept, nofun, nofun⟩⟩
  | message sid =>
    rw [hpc] at hio
    simp only [hpc] at hs
    cases hs
    have hemit : Lives (s.emit (.onReceive sid)) := h.emit nofun nofun
    have hnext : Lives { s.emit (.onReceive sid) with io := .second sid } := hemit.goes hio
    obtain ⟨hm, hkept⟩ := h.through sid hnext (.refl _)
    exact ⟨hm, Or.inr ⟨nofun, hkept, nofun, nofun⟩⟩
  | second sid =>
    rw [hpc] at hio
    simp only [hpc] at hs
    cases hs
    have hnext : Lives (if (s.sessions sid).link.mStopped then { s with io := .rest }
        else { s.setSession sid { s.sessions sid with reading := true } with io := .rest }) := by
      split
      · exact h.goes trivial
      · exact (h.read hio).goes trivial
    obtain ⟨hm, hkept⟩ := h.through sid hnext (by
      split
      · exact .refl _
      · exact kept_read)
    exact ⟨hm, Or.inr ⟨nofun, hkept, nofun, nofun⟩⟩

variable [DecidableEq ι] {t : ι} {a : ServerAct ι} {as : List (ServerAct ι)}

theorem Lives.setCaller {pc : CallerPc} (h : Lives s) (hpc : pc.Ok s.sessions) :
    Lives (s.setCaller t pc) where
  session := h.session
  fresh := h.fresh
  armed := h.armed
  io := h.io
  callers := (Function.forall_update_iff s.callers fun _ pc => pc.Ok s.sessions).mpr
    ⟨hpc, fun u _ => h.callers u⟩

/-- A step of another thread clears the pool, or leaves the sessions in it there. -/
theorem Lives.callerNext (h : Lives s) (hs : s.callerNext t = some s') :
    Lives s' ∧ (s'.io = s.io ∧ s'.accepting = s.accepting) ∧
      (s.callers t = .clear ∧ s'.sessions = s.clear.sessions ∨ Kept s.sessions s'.sessions) := by
  unfold ServerState.callerNext at hs
  have hcaller := h.callers t
  cases hpc : s.callers t with
  | idle =>
    rw [hpc] at hs
    cases hs
  | tear sid pc =>
    rw [hpc] at hcaller
    simp only [hpc, Option.map_eq_some_iff, Prod.exists] at hs
    obtain ⟨m, pc', htear, rfl⟩ := hs
    obtain ⟨hm, hok, hkept, haccepting⟩ := h.tear hcaller htear
    have hio := tearNext_io htear
    cases pc' with
    | done | threw => exact ⟨hm.setCaller trivial, ⟨hio, haccepting⟩, Or.inr hkept⟩
    | lockFind | find | test | disconnect | lockErase | erase | leave =>
      exact ⟨hm.setCaller hok, ⟨hio, haccepting⟩, Or.inr hkept⟩
  | stop =>
    simp only [hpc] at hs
    cases hs
    have hm : Lives { s with mStopped := true } :=
      ⟨h.session, h.fresh, h.armed, h.io, h.callers⟩
    exact ⟨hm.setCaller trivial, ⟨rfl, rfl⟩, Or.inr (.refl _)⟩
  | lockEach | lockClear =>
    simp only [hpc, lock_eq, Option.some.injEq] at hs
    subst hs
    refine ⟨h.lock.setCaller ?_, ⟨rfl, rfl⟩, Or.inr (.refl _)⟩
    split <;> trivial
  | visit sids =>
    cases sids with
    | nil =>
      simp only [hpc] at hs
      cases hs
      exact ⟨h.unlock.setCaller trivial, ⟨rfl, rfl⟩, Or.inr (.refl _)⟩
    | cons sid sids =>
      simp only [hpc] at hs
      split at hs
      · next hconn =>
        cases hs
        refine ⟨h.setOwners.setCaller ?_, ⟨rfl, rfl⟩, Or.inr kept_setOwners⟩
        have hup := (h.session sid).isConnected_iff.mp hconn
        exact fun hl => nomatch hup.symm.trans (setOwners_link.symm.trans hl)
      · cases hs
        exact ⟨h.setCaller trivial, ⟨rfl, rfl⟩, Or.inr (.refl _)⟩
  | disconnect sid sids =>
    rw [hpc] at hcaller
    simp only [hpc] at hs
    cases hs
    exact ⟨(h.hangUp hcaller).setOwners.setCaller trivial, ⟨rfl, rfl⟩,
      Or.inr ((kept_hangUp hcaller).trans kept_setOwners)⟩
  | clear =>
    simp only [hpc] at hs
    cases hs
    exact ⟨h.clear.unlock.setCaller trivial, ⟨rfl, rfl⟩, Or.inl ⟨rfl, rfl⟩⟩

/-- What a step does to the sessions. -/
inductive Effect (s : ServerState ι) (a : ServerAct ι) (s' : ServerState ι) : Prop where
  /-- `connect`, in the handler of `async_accept` -/
  | connect (act : a = .io) (pc : s.io = .connect)
      (eq : s' = { s.connect s.accepting with io := .lockAdd })
  /-- `clear`, in `shutdown` -/
  | clear (t : ι) (act : a = .next t) (pc : s.callers t = .clear)
      (stays : s'.io = s.io ∧ s'.accepting = s.accepting)
      (eq : s'.sessions = s.clear.sessions)
  /-- everything else; `add_object` is the only way on from `Adding` -/
  | keep (other : ¬ (a = .io ∧ s.io = .connect)) (kept : Kept s.sessions s'.sessions)
      (adding : ∀ sid, s.Adding sid → s'.Adding sid ∨ (s'.sessions sid).pooled = true)

theorem Lives.step (h : Lives s) (hs : step s a = some s') : Lives s' ∧ Effect s a s' := by
  unfold ServerState.step at hs
  split at hs
  · cases hs
  · cases a with
    | io =>
      obtain ⟨hlives, ⟨hpc, heq⟩ | ⟨hpc, hkept, hlock, hadd⟩⟩ := h.ioNext hs
      · exact ⟨hlives, .connect rfl hpc heq⟩
      · refine ⟨hlives, .keep (fun hio => hpc hio.2) hkept ?_⟩
        rintro sid ⟨hio | hio, rfl⟩
        · exact Or.inl (hlock hio)
        · exact Or.inr (hadd hio)
    | next t =>
      obtain ⟨hlives, hstays, ⟨hpc, heq⟩ | hkept⟩ := h.callerNext hs
      · exact ⟨hlives, .clear t rfl hpc hstays heq⟩
      · refine ⟨hlives, .keep (fun hio => nomatch hio.1) hkept ?_⟩
        rintro sid ⟨hio, rfl⟩
        exact Or.inl ⟨hstays.1.symm ▸ hio, hstays.2⟩
    | accept ec =>
      simp only [Option.ite_none_right_eq_some, Option.some.injEq] at hs
      obtain ⟨⟨harmed, hrest⟩, rfl⟩ := hs
      refine ⟨⟨h.session, h.fresh, nofun, ⟨rfl, h.armed harmed⟩, h.callers⟩,
        .keep (fun hio => nomatch hio.1) (.refl _) ?_⟩
      rintro sid ⟨hio | hio, -⟩ <;> cases hrest.symm.trans hio
    | complete sid ec =>
      simp only [Option.ite_none_right_eq_some, Option.some.injEq] at hs
      obtain ⟨⟨hreading, hrest⟩, rfl⟩ := hs
      have hnew := (h.session sid).reading hreading
      refine ⟨(h.read hnew).goes ?_, .keep (fun hio => nomatch hio.1) kept_read ?_⟩
      · show ((s.setSession sid _).sessions sid).link ≠ .new
        rw [setSession_self]
        exact hnew
      · rintro sid ⟨hio | hio, -⟩ <;> cases hrest.symm.trans hio
    | disconnect t sid | shutdown t =>
      simp only [Option.ite_none_right_eq_some, Option.some.injEq] at hs
      obtain ⟨-, rfl⟩ := hs
      exact ⟨h.setCaller trivial, .keep (fun hio => nomatch hio.1) (.refl _)
        fun _ => Or.inl⟩

/-! ## A session that is connected is not served -/

theorem Lives.stays_new (h : Lives s) (hnew : (s.sessions sid).link = .new)
    (hc : Unconnected sid s a) (hs : ServerState.step s a = some s') :
    (s'.sessions sid).link = .new := by
  cases (h.step hs).2 with
  | connect act pc eq =>
    rw [eq]
    exact (congrArg ServerSession.link (connect_of_ne (hc act pc).symm)).trans hnew
  | clear t act pc stays eq => rw [eq]; exact hnew
  | keep other kept adding => exact (h.steady kept).new_iff.mpr hnew

theorem Lives.not_served (h : Lives s) (hc : ¬ Unconnected sid s a)
    (hs : ServerState.step s a = some s') : ¬ Served s' sid := by
  obtain ⟨hlives, heffect⟩ := h.step hs
  simp only [Unconnected, Classical.not_imp, not_not] at hc
  obtain ⟨hact, hpc, rfl⟩ := hc
  cases heffect with
  | connect act pc eq =>
    obtain ⟨-, hup, hp⟩ := h.connect hpc
    rw [hlives.served_iff_pooled, eq]
    exact fun hserved => nomatch (hserved hup).symm.trans hp
  | clear t act pc stays eq => cases hact.symm.trans act
  | keep other kept adding => exact absurd ⟨hact, hpc⟩ other

/-- **A session is served** all along exactly when it is never connected. -/
theorem served_iff (h : run step init as = some s) (sid : Nat) :
    (∀ bs s', bs <+: as → run step init bs = some s' → Served s' sid) ↔
      Guarded step (Unconnected sid) init as s :=
  forall_prefix_iff_guarded (I := fun s => Lives s ∧ (s.sessions sid).link = .new)
    (P := fun s => Served s sid) (C := Unconnected sid) ⟨lives_init, rfl⟩
    (fun _ hi => hi.1.served_iff_pooled.mpr fun hup => nomatch hi.2.symm.trans hup)
    (fun _ _ _ hi hc hs => ⟨(hi.1.step hs).1, hi.1.stays_new hi.2 hc hs⟩)
    (fun _ _ _ hi hc hs => hi.1.not_served hc hs) h

/-! ## A session that has been added is served -/

/-- Where the connected sessions are. -/
def Housed (s : ServerState ι) : Prop :=
  ∀ sid, (s.sessions sid).link = .up → (s.sessions sid).pooled = true ∨ s.Adding sid

theorem Housed.step (hh : Housed s) (h : Lives s) (hc : Emptied s a)
    (hs : ServerState.step s a = some s') : Housed s' := by
  intro sid hup
  cases (h.step hs).2 with
  | connect act pc eq =>
    by_cases hsid : sid = s.accepting
    · rw [hsid, eq]
      exact Or.inr ⟨Or.inl rfl, rfl⟩
    · rw [eq] at hup ⊢
      rw [show ({ s.connect s.accepting with io := .lockAdd } : ServerState ι).sessions sid =
        s.sessions sid from connect_of_ne hsid] at hup ⊢
      refine (hh sid hup).imp_right fun hadding => ?_
      rcases hadding.1 with hio | hio <;> cases pc.symm.trans hio
  | clear t act pc stays eq =>
    rw [eq] at hup
    rcases hh sid hup with hp | ⟨hio, haccepting⟩
    · rw [act] at hc
      have hconn := (h.session sid).isConnected_iff.mpr hup
      cases hconn.symm.trans (hc pc sid hp)
    · exact Or.inr ⟨stays.1.symm ▸ hio, stays.2.trans haccepting⟩
  | keep other kept adding =>
    rcases kept sid with ⟨heq, hpooled⟩ | ⟨-, hdown⟩
    · rcases hh sid (heq.symm.trans hup) with hp | hadding
      · exact Or.inl (hpooled hp)
      · exact (adding sid hadding).symm
    · cases hup.symm.trans hdown

/-- From `add_object` on the session is there, if `shutdown` leaves none connected. -/
theorem served_of_added (h : Guarded step Emptied init as s) (hadded : ¬ s.Adding sid) :
    Served s sid := by
  obtain ⟨hlives, hhoused⟩ := guarded_invariant (I := fun s => Lives s ∧ Housed s)
    ⟨lives_init, fun _ => nofun⟩
    (fun _ _ _ hi hc hs => ⟨(hi.1.step hs).1, hi.2.step hi.1 hc hs⟩) h
  exact hlives.served_iff_pooled.mpr fun hup => (hhoused sid hup).resolve_right hadded

/-! The first connection, as far as `on_connect`. -/

def reported : List (ServerAct Bool) := [.accept false, .io, .io]

theorem not_served_accepted :
    ¬ ∀ (as : List (ServerAct Bool)) (s : ServerState Bool) (sid : Nat),
      run step init as = some s → Served s sid := by
  intro h
  have hserved := h reported _ 0 rfl
  exact absurd (hserved (by decide) (by decide)).1 (by decide)

theorem served_iff_accepted :
    ∃ s : ServerState Bool, run step init reported = some s ∧
      ((∀ bs s', bs <+: reported → run step init bs = some s' → Served s' 0) ↔
        Guarded step (Unconnected 0) init reported s) :=
  ⟨_, rfl, served_iff rfl 0⟩

end ServerState

end Wish.Tcp
