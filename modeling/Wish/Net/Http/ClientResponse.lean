import Wish.Net.Http.Client

/-!
# Which responses `request` returns

A response that `request` returns ought to be built from a response received whole after the
call's `send_msg` (`Answered`). `request_answered` proves it for the runs in which nothing
else ends the wait, no handler is storing an older response when the request is sent, and
what ends as a response is the first thing `m_frame` parses, or comes in one fragment and
overwrites all that `m_frame` has kept. `not_request_answered` is a connection that closes
before the server answers.
-/

namespace Wish.Http

/-! ## Responses built from callbacks -/

/-- The callbacks of one whole response. -/
def WholeResponse (evs : List Event) : Prop :=
  ∃ b mid c, evs = b :: (mid ++ [c]) ∧ b.2 = .messageBegin ∧ c.2 = .messageComplete ∧
    (∀ e ∈ mid, e.2 ≠ .messageBegin ∧ e.2 ≠ .messageComplete) ∧
    ∃ e ∈ mid, e.status? .response ≠ none

/-- The first message of a response parser begins with `on_message_begin`, which does not
occur again in it, and has had its status when it is complete. -/
def HttpParser.Bracketed (hp : HttpParser) : Prop :=
  ∀ frags pre e post, hp.events (hp.init .response) frags = pre ++ e :: post →
    e.2 = .messageComplete → (∀ x ∈ pre, x.2 ≠ .messageComplete) → WholeResponse (pre ++ [e])

def Shown.response (sh : Shown) : Response :=
  ⟨Message.versionText sh.version, sh.status, sh.headers, sh.body⟩

/-- The response is what a new object shows after these callbacks. -/
def Builds (evs : List Event) (rsp : Response) : Prop :=
  ∀ status method,
    ((Shown.new status method).applyAll .response evs).map Shown.response = some rsp

/-- Every header name and the body kept in `base` are overwritten. -/
structure Covers (base : Shown) (evs : List Event) : Prop where
  headers : ∃ status method sh, (Shown.new status method).applyAll .response evs = some sh ∧
    ∀ k, base.headers.get? k ≠ none → sh.headers.get? k ≠ none
  body : base.body = [] ∨ ∃ e ∈ evs, e.body? ≠ none

namespace Shown

variable {type : ParserType} {evs : List Event} {sh sh' : Shown}

/-- A member that callbacks overwrite is what the last of them gave it. -/
theorem applyAll_latest {α : Type*} {field : Shown → α} {upd : Event → Option α}
    (hfield : ∀ sh e sh', sh.apply type e = some sh' → field sh' = (upd e).getD (field sh))
    (h : sh.applyAll type evs = some sh') :
    field sh' = evs.foldl (fun a e => (upd e).getD a) (field sh) := by
  induction evs generalizing sh with
  | nil => cases h; rfl
  | cons e evs ih =>
    obtain ⟨m, hm, h⟩ := Option.bind_eq_some_iff.mp h
    rw [ih h, List.foldl_cons, hfield sh e m hm]

theorem latest_congr {α : Type*} {upd : Event → Option α} (h : ∃ e ∈ evs, upd e ≠ none)
    (a b : α) : evs.foldl (fun a e => (upd e).getD a) a =
      evs.foldl (fun a e => (upd e).getD a) b := by
  induction evs generalizing a b with
  | nil => simp at h
  | cons e evs ih =>
    simp only [List.foldl_cons]
    cases hu : upd e with
    | some v => rfl
    | none =>
      obtain ⟨x, hx, hne⟩ := h
      rcases List.mem_cons.mp hx with rfl | hx
      · exact absurd hu hne
      · exact ih ⟨x, hx, hne⟩ a b

theorem apply_status {e : Event} (h : sh.apply type e = some sh') :
    sh'.status = (e.status? type).getD sh.status := by
  obtain ⟨st, -, rfl⟩ := Option.map_eq_some_iff.mp h
  rfl

theorem apply_version {e : Event} (h : sh.apply type e = some sh') :
    sh'.version = e.version?.getD sh.version := by
  obtain ⟨st, -, rfl⟩ := Option.map_eq_some_iff.mp h
  rfl

theorem apply_body {e : Event} (h : sh.apply type e = some sh') :
    sh'.body = e.body?.getD sh.body := by
  obtain ⟨st, hst, rfl⟩ := Option.map_eq_some_iff.mp h
  obtain ⟨fields, cb⟩ := e
  show st.body = _
  cases cb with
  | headerValue data =>
    simp only [Stored.apply, Option.ite_none_left_eq_some, Option.some.injEq] at hst
    obtain ⟨-, rfl⟩ := hst
    rfl
  | _ => cases hst; rfl

/-- `high` shows the headers of `low`, and below them those of `base`. -/
structure Over (base low high : Shown) : Prop where
  last : low.lastHeaderField ≠ [] → high.lastHeaderField = low.lastHeaderField
  headers : ∀ k, high.headers.get? k = (low.headers.get? k).or (base.headers.get? k)

theorem over_new (base : Shown) (status method : Nat) :
    Over base (Shown.new status method) base :=
  ⟨fun h => absurd rfl h, fun k => by simp [Shown.new, Stored.empty]⟩

theorem over_apply {base low high low' : Shown} {e : Event} (ho : Over base low high)
    (h : low.apply type e = some low') :
    ∃ high', high.apply type e = some high' ∧ Over base low' high' := by
  obtain ⟨st, hst, rfl⟩ := Option.map_eq_some_iff.mp h
  obtain ⟨fields, cb⟩ := e
  cases cb with
  | headerField data =>
    cases hst
    exact ⟨_, rfl, fun _ => rfl, ho.headers⟩
  | headerValue data =>
    simp only [Stored.apply, Option.ite_none_left_eq_some, Option.some.injEq] at hst
    obtain ⟨hne, rfl⟩ := hst
    have hlast := ho.last hne
    have hhigh : high.lastHeaderField ≠ [] := by rw [hlast]; exact hne
    refine ⟨_, congrArg _ (if_neg hhigh), fun _ => hlast, fun k => ?_⟩
    by_cases hk : k = low.lastHeaderField
    · simp [hlast, hk]
    · simp [hlast, hk, ho.headers k]
  | _ =>
    cases hst
    exact ⟨_, rfl, ho.last, ho.headers⟩

theorem over_applyAll {base low high low' : Shown} (ho : Over base low high)
    (h : low.applyAll type evs = some low') :
    ∃ high', high.applyAll type evs = some high' ∧ Over base low' high' := by
  induction evs generalizing low high with
  | nil =>
    cases h
    exact ⟨high, rfl, ho⟩
  | cons e evs ih =>
    obtain ⟨m, hm, h⟩ := Option.bind_eq_some_iff.mp h
    obtain ⟨high₁, h₁, ho₁⟩ := over_apply ho hm
    obtain ⟨high', h', ho'⟩ := ih ho₁ h
    exact ⟨high', by rw [applyAll_cons, h₁]; exact h', ho'⟩

end Shown

/-- What overwrites all that was kept shows what a new object would show. -/
theorem builds_of_covers {base sh : Shown} {evs : List Event} (hw : WholeResponse evs)
    (hc : Covers base evs) (h : base.applyAll .response evs = some sh) :
    Builds evs sh.response := by
  intro status method
  obtain ⟨s, m, low, hlow, hkeys⟩ := hc.headers
  obtain ⟨high, hhigh, hover⟩ := Shown.over_applyAll (Shown.over_new base s m) hlow
  obtain rfl : sh = high := Option.some.inj (h.symm.trans hhigh)
  obtain ⟨new, hnew, hover'⟩ :=
    Shown.over_applyAll (Shown.over_new (Shown.new status method) s m) hlow
  obtain ⟨b, mid, c, rfl, -, hcomplete, -, e, he, hstatus⟩ := hw
  have hev : ∃ e ∈ b :: (mid ++ [c]), e.status? .response ≠ none :=
    ⟨e, by simp [he], hstatus⟩
  have hcv : ∃ e ∈ b :: (mid ++ [c]), e.version? ≠ none := by
    refine ⟨c, by simp, ?_⟩
    obtain ⟨fields, cb⟩ := c
    obtain rfl : cb = .messageComplete := hcomplete
    simp [Event.version?]
  have hheaders : new.headers = sh.headers := by
    refine OrdMap.ext_get? fun k => ?_
    rw [hover.headers, hover'.headers]
    cases hk : low.headers.get? k with
    | some v => rfl
    | none =>
      have hbase : base.headers.get? k = none := by
        by_contra hne
        exact hkeys k hne hk
      simp [hbase, Shown.new, Stored.empty]
  have hbody : new.body = sh.body := by
    rw [Shown.applyAll_latest (fun _ _ _ => Shown.apply_body) hnew,
      Shown.applyAll_latest (fun _ _ _ => Shown.apply_body) h]
    rcases hc.body with hb | hb
    · rw [hb]
      rfl
    · exact Shown.latest_congr hb _ _
  have hst : new.status = sh.status := by
    rw [Shown.applyAll_latest (fun _ _ _ => Shown.apply_status) hnew,
      Shown.applyAll_latest (fun _ _ _ => Shown.apply_status) h]
    exact Shown.latest_congr hev _ _
  have hvs : new.version = sh.version := by
    rw [Shown.applyAll_latest (fun _ _ _ => Shown.apply_version) hnew,
      Shown.applyAll_latest (fun _ _ _ => Shown.apply_version) h]
    exact Shown.latest_congr hcv _ _
  rw [hnew]
  simp [Shown.response, hheaders, hbody, hst, hvs]

namespace Client

open Machine

variable {hp : HttpParser}

/-- The response was received whole among the callbacks `since`. -/
def Answered (rsp : Response) (since : List Event) : Prop :=
  ∃ evs, evs <:+: since ∧ WholeResponse evs ∧ Builds evs rsp

theorem Answered.append {rsp : Response} {since : List Event} (h : Answered rsp since)
    (evs : List Event) : Answered rsp (since ++ evs) := by
  obtain ⟨w, hw, hrest⟩ := h
  exact ⟨w, hw.trans (List.prefix_append since evs).isInfix, hrest⟩

/-! ## The condition -/

/-- Between `send_msg` and the end of the call. -/
def CallerPc.Outstanding : CallerPc → Prop
  | .wait | .waiting | .woken _ | .copyVersion | .copyStatus _ | .copyHeaders _ _
  | .copyBody _ _ _ => True
  | _ => False

/-- `on_receive` is writing `m_rsp`. -/
def IoPc.Storing : IoPc → Prop
  | .assignVersion | .assignStatus | .assignHeaders | .assignBody => True
  | _ => False

/-- `on_receive` of this fragment finds the message complete. -/
def Completes (s : State hp) (frag : Text) (stray : Bool) : Prop :=
  ∃ m, s.mFrame.parseFromArray frag = some (m, true) ∧ m.isCompleted.getD stray = true

/-- `m_frame` had parsed nothing before the request, and its first message ends where this
fragment ends. -/
structure First (s : State hp) (frag : Text) : Prop where
  fresh : s.fresh = true
  before : s.mFrame.mCompleted = false
  ends : ∃ evs e, s.mFrame.parseEvents frag = evs ++ [e] ∧ e.2 = .messageComplete ∧
    ∀ x ∈ evs, x.2 ≠ .messageComplete

/-- No handler is storing a response when the request is sent; a wait ends by a notification
or spuriously only when a response has been stored since; and only the first fragment that
completes a message is stored during the call, where the message is the first of `m_frame`, or
comes whole in the fragment and covers what `m_frame` has kept. -/
def Undisturbed (s : State hp) : Act → Prop
  | .caller _ => ∀ text, s.caller = .send text → ¬ s.io.Storing
  | .spurious | .onEvent => s.caller = .waiting → s.stored = true
  | .io => s.io = .notify → s.caller = .waiting → s.stored = true
  | .onReceive frag stray => s.caller.Outstanding → Completes s frag stray →
    s.stored = false ∧ (First s frag ∨
      WholeResponse (s.mFrame.parseEvents frag) ∧
        Covers s.mFrame.shown (s.mFrame.parseEvents frag))
  | _ => True

/-! ## The invariant -/

/-- The wait has ended without a timeout. -/
def CallerPc.Copying : CallerPc → Prop
  | .woken timedOut => timedOut = false
  | .copyVersion | .copyStatus _ | .copyHeaders _ _ | .copyBody _ _ _ => True
  | _ => False

/-- The members of `m_rsp` written so far. -/
def Assigned (rsp new : Response) : IoPc → Prop
  | .assignStatus => rsp.version = new.version
  | .assignHeaders => rsp.version = new.version ∧ rsp.status = new.status
  | .assignBody => rsp.version = new.version ∧ rsp.status = new.status ∧
    rsp.headers = new.headers
  | _ => True

/-- The members copied so far are those of `m_rsp`. -/
def Copied (rsp : Response) : CallerPc → Prop
  | .copyStatus version => version = rsp.version
  | .copyHeaders version status => version = rsp.version ∧ status = rsp.status
  | .copyBody version status headers => version = rsp.version ∧ status = rsp.status ∧
    headers = rsp.headers
  | _ => True

/-- `m_frame` is what the fragments made of a new object. -/
structure Parsed (status method : Nat) (s : State hp) : Prop where
  feed : (Message.new .response status method : Message hp).feed s.fed = some s.mFrame
  since : s.fresh = true →
    s.since = (Message.new .response status method : Message hp).events s.fed

structure Answers (s : State hp) : Prop where
  assigned : Assigned s.mRsp s.mFrame.response s.io
  copied : Copied s.mRsp s.caller
  storing : s.caller.Outstanding → s.io.Storing →
    s.stored = false ∧ Answered s.mFrame.response s.since
  stored : s.caller.Outstanding → s.stored = true → Answered s.mRsp s.since
  copying : s.caller.Copying → s.stored = true
  returned : ∀ a ∈ s.returned, Answered a.1 a.2

theorem Parsed.mType {status method : Nat} {s : State hp} (h : Parsed status method s) :
    s.mFrame.mType = .response := (Message.feed_spec h.feed).1

theorem CallerPc.Copying.outstanding {p : CallerPc} (h : p.Copying) : p.Outstanding := by
  cases p <;> trivial

/-- During the copying nothing is written. -/
theorem Answers.not_storing {s : State hp} (h : Answers s) (hc : s.caller.Copying) :
    ¬ s.io.Storing := by
  intro hio
  have hstored := h.copying hc
  rw [(h.storing hc.outstanding hio).1] at hstored
  cases hstored

/-! ## The steps -/

theorem parsed_wake {status method : Nat} {s : State hp} (h : Parsed status method s)
    (timedOut : Bool) : Parsed status method (wake s timedOut) := by
  unfold wake
  split <;> exact ⟨h.feed, h.since⟩

/-- Only `send_msg` touches what the handlers read and write. -/
theorem callerStep_frame {s s' : State hp} {answer : Answer} (hs : callerStep s answer = some s')
    (hsend : ∀ text, s.caller ≠ .send text) :
    s'.mRsp = s.mRsp ∧ s'.mFrame = s.mFrame ∧ s'.io = s.io ∧ s'.fed = s.fed ∧
      s'.since = s.since ∧ s'.fresh = s.fresh ∧ s'.stored = s.stored := by
  unfold callerStep at hs
  split at hs
  case h_11 text hc => exact absurd hc (hsend text)
  all_goals
    repeat' split at hs
    all_goals cases hs
    all_goals exact ⟨rfl, rfl, rfl, rfl, rfl, rfl, rfl⟩

theorem callerStep_send {s s' : State hp} {answer : Answer} {text : Text}
    (hc : s.caller = .send text) (hs : callerStep s answer = some s') :
    s' = { s with
      caller := .wait, sent := s.sent ++ [text], since := [], fresh := s.fed.isEmpty
      stored := false } := by
  simp only [callerStep, hc, Option.some.injEq] at hs
  exact hs.symm

theorem parsed_caller {status method : Nat} {s s' : State hp} {answer : Answer}
    (h : Parsed status method s) (hs : callerStep s answer = some s') :
    Parsed status method s' := by
  by_cases hsend : ∃ text, s.caller = .send text
  · obtain ⟨text, hc⟩ := hsend
    obtain rfl := callerStep_send hc hs
    refine ⟨h.feed, fun hf => ?_⟩
    have hnil : s.fed = [] := List.isEmpty_iff.mp hf
    show [] = Message.events _ s.fed
    rw [hnil]
    rfl
  · obtain ⟨-, hframe, -, hfed, hsince, hfresh, -⟩ :=
      callerStep_frame hs fun text hc => hsend ⟨text, hc⟩
    refine ⟨?_, fun hf => ?_⟩
    · rw [hfed, hframe]
      exact h.feed
    · rw [hfed, hsince]
      exact h.since (hfresh ▸ hf)

theorem parsed_io {status method : Nat} {s s' : State hp} (h : Parsed status method s)
    (hs : ioStep s = some s') : Parsed status method s' := by
  cases hio : s.io with
  | notify =>
    simp only [ioStep, hio, Option.some.injEq] at hs
    subst hs
    have hunlocked : Parsed status method { s with mMtx := none, io := .idle } :=
      ⟨h.feed, h.since⟩
    exact parsed_wake hunlocked false
  | lockNotify =>
    simp only [ioStep, hio, Option.ite_none_right_eq_some, Option.some.injEq] at hs
    obtain ⟨-, rfl⟩ := hs
    exact ⟨h.feed, h.since⟩
  | idle => simp [ioStep, hio] at hs
  | _ =>
    simp only [ioStep, hio, Option.some.injEq] at hs
    subst hs
    exact ⟨h.feed, h.since⟩

theorem onReceive_eq {s s' : State hp} {frag : Text} {stray : Bool}
    (hs : onReceive s frag stray = some s') :
    ∃ r, s.mFrame.parseFromArray frag = some r ∧ s' = { s with
      mFrame := r.1
      io := if r.2 && r.1.isCompleted.getD stray then .assignVersion else .idle
      fed := s.fed ++ [frag]
      since := s.since ++ s.mFrame.parseEvents frag } := by
  obtain ⟨r, hr, rfl⟩ := Option.map_eq_some_iff.mp hs
  exact ⟨r, hr, rfl⟩

theorem parsed_onReceive {status method : Nat} {s s' : State hp} {frag : Text} {stray : Bool}
    (h : Parsed status method s) (hs : onReceive s frag stray = some s') :
    Parsed status method s' := by
  obtain ⟨r, hr, rfl⟩ := onReceive_eq hs
  refine ⟨?_, fun hf => ?_⟩
  · show Message.feed _ (s.fed ++ [frag]) = _
    rw [Message.feed_snoc, h.feed, Option.bind_some, hr]
    rfl
  · show s.since ++ _ = Message.events _ (s.fed ++ [frag])
    rw [Message.events_snoc h.feed, h.since hf]

theorem parsed_step {status method : Nat} {s s' : State hp} {a : Act}
    (h : Parsed status method s) (hs : step s a = some s') : Parsed status method s' := by
  cases a with
  | request req =>
    simp only [step] at hs
    split at hs <;> cases hs
    exact ⟨h.feed, h.since⟩
  | caller answer => exact parsed_caller h hs
  | timeout =>
    cases hs
    exact parsed_wake h true
  | spurious =>
    cases hs
    exact parsed_wake h false
  | onReceive frag stray =>
    simp only [step, Option.ite_none_right_eq_some] at hs
    exact parsed_onReceive h hs.2
  | onEvent =>
    simp only [step, Option.ite_none_right_eq_some, Option.some.injEq] at hs
    obtain ⟨-, rfl⟩ := hs
    exact parsed_wake h false
  | io => exact parsed_io h hs

theorem answers_wake {s : State hp} {timedOut : Bool} (h : Answers s)
    (hc : s.caller = .waiting → timedOut = false → s.stored = true) :
    Answers (wake s timedOut) := by
  cases hw : s.caller with
  | connectWaiting req =>
    simp only [wake, hw]
    exact ⟨h.assigned, trivial, False.elim, False.elim, False.elim, h.returned⟩
  | waiting =>
    have hout : s.caller.Outstanding := by rw [hw]; trivial
    simp only [wake, hw]
    exact ⟨h.assigned, trivial, fun _ => h.storing hout, fun _ => h.stored hout, hc hw,
      h.returned⟩
  | _ =>
    simp only [wake, hw]
    exact h

/-- Steps of the calling thread that are not in a call's waiting end. -/
theorem answers_of_not_outstanding {s s' : State hp} (h : Answers s)
    (hrsp : s'.mRsp = s.mRsp) (hframe : s'.mFrame = s.mFrame) (hio : s'.io = s.io)
    (hcopied : Copied s'.mRsp s'.caller) (hout : ¬ s'.caller.Outstanding)
    (hreturned : ∀ a ∈ s'.returned, Answered a.1 a.2) : Answers s' where
  assigned := by rw [hrsp, hframe, hio]; exact h.assigned
  copied := hcopied
  storing ho := absurd ho hout
  stored ho := absurd ho hout
  copying hc := absurd hc.outstanding hout
  returned := hreturned

theorem answers_caller {s s' : State hp} {answer : Answer} (h : Answers s)
    (hc : ∀ text, s.caller = .send text → ¬ s.io.Storing)
    (hs : callerStep s answer = some s') : Answers s' := by
  cases hp : s.caller with
  | send text =>
    obtain rfl := callerStep_send hp hs
    exact ⟨h.assigned, trivial, fun _ hio => absurd hio (hc text hp), fun _ hf =>
      absurd hf Bool.false_ne_true, False.elim, h.returned⟩
  | wait =>
    have hout : s.caller.Outstanding := by rw [hp]; trivial
    simp only [callerStep, hp, Option.some.injEq] at hs
    subst hs
    exact ⟨h.assigned, trivial, fun _ => h.storing hout, fun _ => h.stored hout, False.elim,
      h.returned⟩
  | woken timedOut =>
    have hout : s.caller.Outstanding := by rw [hp]; trivial
    simp only [callerStep, hp, Option.ite_none_right_eq_some] at hs
    obtain ⟨-, hs⟩ := hs
    split at hs
    · cases hs
      exact answers_of_not_outstanding h rfl rfl rfl trivial id h.returned
    · rename_i hno
      cases hs
      have htimed : timedOut = false := by
        by_contra ht
        simp [ht] at hno
      have hcopy : s.caller.Copying := by rw [hp]; exact htimed
      exact ⟨h.assigned, trivial, fun _ => h.storing hout, fun _ => h.stored hout,
        fun _ => h.copying hcopy, h.returned⟩
  | copyVersion =>
    have hcopy : s.caller.Copying := by rw [hp]; trivial
    simp only [callerStep, hp, Option.some.injEq] at hs
    subst hs
    exact ⟨h.assigned, rfl, fun _ => h.storing hcopy.outstanding,
      fun _ => h.stored hcopy.outstanding, fun _ => h.copying hcopy, h.returned⟩
  | copyStatus version =>
    have hcopy : s.caller.Copying := by rw [hp]; trivial
    have hcopied := h.copied
    rw [hp] at hcopied
    simp only [callerStep, hp, Option.some.injEq] at hs
    subst hs
    exact ⟨h.assigned, ⟨hcopied, rfl⟩, fun _ => h.storing hcopy.outstanding,
      fun _ => h.stored hcopy.outstanding, fun _ => h.copying hcopy, h.returned⟩
  | copyHeaders version status =>
    have hcopy : s.caller.Copying := by rw [hp]; trivial
    have hcopied := h.copied
    rw [hp] at hcopied
    simp only [callerStep, hp, Option.some.injEq] at hs
    subst hs
    exact ⟨h.assigned, ⟨hcopied.1, hcopied.2, rfl⟩, fun _ => h.storing hcopy.outstanding,
      fun _ => h.stored hcopy.outstanding, fun _ => h.copying hcopy, h.returned⟩
  | copyBody version status headers =>
    have hcopy : s.caller.Copying := by rw [hp]; trivial
    have hcopied := h.copied
    rw [hp] at hcopied
    obtain ⟨rfl, rfl, rfl⟩ := hcopied
    simp only [callerStep, hp, Option.some.injEq] at hs
    subst hs
    refine answers_of_not_outstanding h rfl rfl rfl trivial id fun a ha => ?_
    rcases List.mem_append.mp ha with ha | ha
    · exact h.returned a ha
    · obtain rfl := List.mem_singleton.mp ha
      exact h.stored hcopy.outstanding (h.copying hcopy)
  | idle => simp [callerStep, hp] at hs
  | connectWaiting req => simp [callerStep, hp] at hs
  | waiting => simp [callerStep, hp] at hs
  | _ =>
    simp only [callerStep, hp] at hs
    repeat' split at hs
    all_goals cases hs
    all_goals
      refine answers_of_not_outstanding h rfl rfl rfl ?_ ?_ h.returned
      all_goals first | trivial | exact id

/-- What is stored is the response of the callbacks since the request. -/
theorem answered_onReceive {status method : Nat} {s : State hp} {frag : Text}
    {r : Message hp × Bool} (hb : hp.Bracketed) (h : Parsed status method s)
    (hr : s.mFrame.parseFromArray frag = some r)
    (hc : First s frag ∨ WholeResponse (s.mFrame.parseEvents frag) ∧
      Covers s.mFrame.shown (s.mFrame.parseEvents frag)) :
    Answered r.1.response (s.since ++ s.mFrame.parseEvents frag) := by
  obtain ⟨-, -, hshown⟩ := Message.parse_spec hr
  rw [h.mType] at hshown
  rcases hc with ⟨hfresh, hbefore, evs, e, hevs, he, hno⟩ | ⟨hw, hcov⟩
  · have hsnoc := Message.events_snoc h.feed frag
    rw [← h.since hfresh] at hsnoc
    have hfeed : (Message.new .response status method : Message hp).feed (s.fed ++ [frag]) =
        some r.1 := by
      rw [Message.feed_snoc, h.feed, Option.bind_some, hr]
      rfl
    have hparser : (Message.new .response status method : Message hp).events (s.fed ++ [frag]) =
        hp.events (hp.init .response) (s.fed ++ [frag]) := Message.events_eq nofun hfeed
    have hsplit : hp.events (hp.init .response) (s.fed ++ [frag]) =
        (s.since ++ evs) ++ e :: [] := by
      rw [← hparser, hsnoc, hevs, List.append_assoc]
    have hsince : ∀ x ∈ s.since, x.2 ≠ .messageComplete := by
      intro x hx hxe
      obtain ⟨-, hcompleted, -⟩ := Message.feed_spec h.feed
      rw [hbefore, ← h.since hfresh] at hcompleted
      have hany : s.since.any (·.2 = .messageComplete) = true :=
        List.any_eq_true.mpr ⟨x, hx, by simpa using hxe⟩
      simp [hany] at hcompleted
    have hw : WholeResponse (s.since ++ s.mFrame.parseEvents frag) := by
      rw [hevs, ← List.append_assoc]
      refine hb _ _ _ _ hsplit he fun x hx => ?_
      rcases List.mem_append.mp hx with hx | hx
      · exact hsince x hx
      · exact hno x hx
    obtain ⟨-, -, hall⟩ := Message.feed_spec hfeed
    rw [hsnoc] at hall
    refine ⟨_, List.infix_rfl, hw, builds_of_covers hw ⟨?_, Or.inl rfl⟩ hall⟩
    exact ⟨status, method, _, hall, fun k hk => absurd OrdMap.get?_empty hk⟩
  · exact ⟨_, (List.suffix_append _ _).isInfix, hw, builds_of_covers hw hcov hshown⟩

theorem answers_onReceive {status method : Nat} {s s' : State hp} {frag : Text} {stray : Bool}
    (hb : hp.Bracketed) (hp : Parsed status method s) (h : Answers s)
    (hc : Undisturbed s (.onReceive frag stray))
    (hs : onReceive s frag stray = some s') : Answers s' := by
  obtain ⟨r, hr, rfl⟩ := onReceive_eq hs
  by_cases hcomplete : (r.2 && r.1.isCompleted.getD stray) = true
  · have hcompletes : Completes s frag stray := by
      rw [Bool.and_eq_true] at hcomplete
      exact ⟨r.1, by rw [hr, ← hcomplete.1], hcomplete.2⟩
    simp only [hcomplete, if_true]
    refine ⟨trivial, h.copied, fun hout _ => ?_, fun hout hst => ?_, h.copying, h.returned⟩
    · exact ⟨(hc hout hcompletes).1, answered_onReceive hb hp hr (hc hout hcompletes).2⟩
    · exact (h.stored hout hst).append _
  · simp only [hcomplete]
    exact ⟨trivial, h.copied, fun _ hf => False.elim hf,
      fun hout hst => (h.stored hout hst).append _, h.copying, h.returned⟩

theorem copied_of_not_copying {p : CallerPc} (rsp : Response) (h : ¬ p.Copying) :
    Copied rsp p := by
  cases p <;> first | trivial | exact absurd trivial h

/-- A member is written, and there are more. -/
theorem answers_assign {s : State hp} {io : IoPc} {rsp : Response} (h : Answers s)
    (hio : s.io.Storing) (hrsp : Assigned rsp s.mFrame.response io) :
    Answers { s with io := io, mRsp := rsp } where
  assigned := hrsp
  copied := copied_of_not_copying rsp fun hc => h.not_storing hc hio
  storing hout _ := h.storing hout hio
  stored hout hst := by
    have hno : s.stored = false := (h.storing hout hio).1
    rw [show s.stored = true from hst] at hno
    cases hno
  copying hc := absurd hio (h.not_storing hc)
  returned := h.returned

theorem answers_io {s s' : State hp} (h : Answers s) (hc : Undisturbed s .io)
    (hs : ioStep s = some s') : Answers s' := by
  have hassigned := h.assigned
  cases hio : s.io with
  | idle => simp [ioStep, hio] at hs
  | assignVersion =>
    simp only [ioStep, hio, Option.some.injEq] at hs
    subst hs
    exact answers_assign h (by rw [hio]; trivial) rfl
  | assignStatus =>
    rw [hio] at hassigned
    simp only [ioStep, hio, Option.some.injEq] at hs
    subst hs
    exact answers_assign h (by rw [hio]; trivial) ⟨hassigned, rfl⟩
  | assignHeaders =>
    rw [hio] at hassigned
    simp only [ioStep, hio, Option.some.injEq] at hs
    subst hs
    exact answers_assign h (by rw [hio]; trivial) ⟨hassigned.1, hassigned.2, rfl⟩
  | assignBody =>
    have hstoring : s.io.Storing := by rw [hio]; trivial
    rw [hio] at hassigned
    obtain ⟨hversion, hstatus, hheaders⟩ := hassigned
    simp only [ioStep, hio, Option.some.injEq] at hs
    subst hs
    have hrsp : { s.mRsp with body := s.mFrame.body } = s.mFrame.response :=
      Response.ext hversion hstatus hheaders rfl
    refine ⟨trivial, copied_of_not_copying _ fun hc => h.not_storing hc hstoring,
      fun _ hf => False.elim hf, fun hout _ => ?_, fun _ => rfl, h.returned⟩
    show Answered { s.mRsp with body := s.mFrame.body } s.since
    rw [hrsp]
    exact (h.storing hout hstoring).2
  | lockNotify =>
    simp only [ioStep, hio, Option.ite_none_right_eq_some, Option.some.injEq] at hs
    obtain ⟨-, rfl⟩ := hs
    exact ⟨trivial, h.copied, fun _ hf => False.elim hf, h.stored, h.copying, h.returned⟩
  | notify =>
    simp only [ioStep, hio, Option.some.injEq] at hs
    subst hs
    have hunlocked : Answers { s with mMtx := none, io := .idle } :=
      ⟨trivial, h.copied, fun _ hf => False.elim hf, h.stored, h.copying, h.returned⟩
    exact answers_wake hunlocked fun hw _ => hc hio hw

theorem answers_step {status method : Nat} {s s' : State hp} {a : Act} (hb : hp.Bracketed)
    (hparsed : Parsed status method s) (h : Answers s) (hc : Undisturbed s a)
    (hs : step s a = some s') : Answers s' := by
  cases a with
  | request req =>
    simp only [step] at hs
    split at hs <;> cases hs
    exact answers_of_not_outstanding h rfl rfl rfl trivial id h.returned
  | caller answer => exact answers_caller h hc hs
  | timeout =>
    cases hs
    exact answers_wake h fun _ hf => absurd hf.symm Bool.false_ne_true
  | spurious =>
    cases hs
    exact answers_wake h fun hw _ => hc hw
  | onReceive frag stray =>
    simp only [step, Option.ite_none_right_eq_some] at hs
    exact answers_onReceive hb hparsed h hc hs.2
  | onEvent =>
    simp only [step, Option.ite_none_right_eq_some, Option.some.injEq] at hs
    obtain ⟨-, rfl⟩ := hs
    exact answers_wake h fun hw _ => hc hw
  | io => exact answers_io h hc hs

/-- In every run without a disturbance, each response returned was received whole after the
`send_msg` of its call, and is what a new object shows after its callbacks. -/
theorem request_answered {rspStatus status method : Nat} (hb : hp.Bracketed) {as : List Act}
    {s : State hp} (h : Guarded step Undisturbed (init rspStatus status method) as s) :
    ∀ a ∈ s.returned, Answered a.1 a.2 := by
  have hinv : Parsed status method s ∧ Answers s := by
    refine guarded_invariant (I := fun s => Parsed status method s ∧ Answers s) ?_ ?_ h
    · exact ⟨⟨rfl, fun hf => absurd hf Bool.false_ne_true⟩,
        ⟨trivial, trivial, False.elim, False.elim, False.elim, fun _ ha => nomatch ha⟩⟩
    · intro m a m' hm hc hs
      exact ⟨parsed_step hm.1 hs, answers_step hb hm.1 hm.2 hc hs⟩
  exact hinv.2.returned

/-! ## Two runs -/

namespace Sample

def okText : Text :=
  ['H', 'T', 'T', 'P', '/', '1', '.', '1', ' ', '2', '0', '0', ' ', 'O', 'K', '\r', '\n'] ++
    Request.contentLength ++ [':', ' ', '0', '\r', '\n', '\r', '\n']

def okCallbacks : List Callback :=
  [.messageBegin, .status ['O', 'K'], .headerField Request.contentLength, .headerValue ['0'],
    .headersComplete, .messageComplete]

def okFields : ParserFields := ⟨.response, 1, 1, 200, 0, 0⟩

/-- It knows `HTTP/1.1 200 OK` with an empty body. -/
def okParser : HttpParser := .ofTable [(okText, okFields, okCallbacks)]

/-- `GET / HTTP/1.1`. -/
def get : Request := ⟨[], ['/'], ['G', 'E', 'T'], .empty, []⟩

def send : List Act :=
  [.request get, .caller .yes, .caller .yes, .caller .yes, .caller .yes, .caller .yes]

def copy : List Act := [.caller .yes, .caller .yes, .caller .yes, .caller .yes, .caller .yes]

end Sample

open Sample

theorem okParser_trace (parser : Parser okParser.Priv) (data : Text) :
    (okParser.execute parser data).trace.1 =
      if data = okText then okCallbacks.map (Prod.mk okFields) else [] := by
  by_cases h : okText = data
  · subst h
    rfl
  · have hfind : [(okText, okFields, okCallbacks)].find? (fun row => row.1 = data) = none := by
      simp [h]
    rw [if_neg (Ne.symm h)]
    simp only [okParser, HttpParser.ofTable, hfind, Resume.trace]

/-- Two lists that agree up to the first element with a property. -/
theorem first_unique {α : Type*} {p : α → Prop} {xs ys xs' ys' : List α} {x y : α}
    (h : xs ++ x :: xs' = ys ++ y :: ys') (hx : p x) (hy : p y) (hxs : ∀ a ∈ xs, ¬ p a)
    (hys : ∀ a ∈ ys, ¬ p a) : xs = ys ∧ x = y := by
  induction xs generalizing ys with
  | nil =>
    cases ys with
    | nil => exact ⟨rfl, (List.cons.inj h).1⟩
    | cons b ys =>
      obtain rfl := (List.cons.inj h).1
      exact absurd hx (hys x List.mem_cons_self)
  | cons a xs ih =>
    cases ys with
    | nil =>
      obtain rfl := (List.cons.inj h).1
      exact absurd hy (hxs a List.mem_cons_self)
    | cons b ys =>
      obtain ⟨rfl, htail⟩ := List.cons.inj h
      obtain ⟨rfl, rfl⟩ := ih htail (fun c hc => hxs c (List.mem_cons_of_mem _ hc))
        fun c hc => hys c (List.mem_cons_of_mem _ hc)
      exact ⟨rfl, rfl⟩

theorem okEvents_whole : WholeResponse (okCallbacks.map (Prod.mk okFields)) :=
  ⟨_, okCallbacks.tail.dropLast.map (Prod.mk okFields), _, rfl, rfl, rfl, by decide, by decide⟩

theorem okParser_bracketed : okParser.Bracketed := by
  intro frags pre e post
  generalize okParser.init .response = parser
  induction frags generalizing parser with
  | nil => simp [HttpParser.events]
  | cons data rest ih =>
    intro h he hpre
    rw [HttpParser.events, okParser_trace] at h
    split at h
    · have hlast : okCallbacks.map (Prod.mk okFields) =
          okCallbacks.dropLast.map (Prod.mk okFields) ++ [(okFields, .messageComplete)] := rfl
      have hno : ∀ x ∈ okCallbacks.dropLast.map (Prod.mk okFields), x.2 ≠ .messageComplete := by
        decide
      rw [hlast, List.append_assoc, List.singleton_append] at h
      obtain ⟨rfl, rfl⟩ := first_unique (p := fun x : Event => x.2 = .messageComplete) h rfl he
        hno hpre
      exact okEvents_whole
    · exact ih _ h he hpre

namespace Sample

/-- `m_frame` after the answer. -/
def okFrame : Message okParser where
  mType := .response
  mUrl := []
  mLastHeaderField := Request.contentLength
  mHeaders := OrdMap.empty.set Request.contentLength ['0']
  mStatus := 200
  mMethod := 0
  mVersion := (1, 1)
  mBody := []
  mParser := ⟨okFields, ()⟩
  mCompleted := true

/-- The request waits. -/
def waiting : State okParser where
  mMtx := none
  mRsp := ⟨[], 0, .empty, []⟩
  mFrame := .new .response 0 0
  caller := .waiting
  io := .idle
  sent := [get.complete.text]
  fed := []
  since := []
  fresh := true
  stored := false
  returned := []

/-- The answer has been parsed. -/
def parsed : State okParser :=
  { waiting with
    mFrame := okFrame, io := .assignVersion, fed := [okText]
    since := okCallbacks.map (Prod.mk okFields) }

/-- The answer has been returned. -/
def answered : State okParser :=
  { parsed with
    mRsp := okFrame.response, caller := .idle, io := .idle, stored := true
    returned := [(okFrame.response, okCallbacks.map (Prod.mk okFields))] }

end Sample

theorem okFrame_execute :
    okParser.execute (okParser.init .response) okText =
      .script okText.length okCallbacks ⟨okFields, ()⟩ := by
  simp [okParser, HttpParser.ofTable]

theorem okFrame_parse :
    (Message.new .response 0 0 : Message okParser).parseFromArray okText = some (okFrame, true) ∧
    (Message.new .response 0 0 : Message okParser).parseEvents okText =
      okCallbacks.map (Prod.mk okFields) := by
  have hparse : (Message.new .response 0 0 : Message okParser).parseFromArray okText =
      some (okFrame, true) := by
    rw [Message.parseFromArray]
    show Option.map _ (Message.drive _ (okParser.execute (okParser.init .response) okText)) = _
    rw [okFrame_execute]
    rfl
  refine ⟨hparse, ?_⟩
  have hresponse : (Message.new .response 0 0 : Message okParser).mType ≠ .both := by
    intro hboth
    cases hboth
  rw [(Message.parse_trace hresponse hparse).1, okParser_trace, if_pos rfl]

theorem step_parsed : step waiting (.onReceive okText false) = some parsed := by
  show onReceive waiting okText false = _
  simp only [onReceive, waiting, okFrame_parse, Option.map_some]
  rfl

theorem undisturbed_parsed : Undisturbed waiting (.onReceive okText false) :=
  fun _ _ => ⟨rfl, Or.inl ⟨rfl, rfl, okCallbacks.dropLast.map (Prod.mk okFields),
    (okFields, .messageComplete), okFrame_parse.2, rfl, by decide⟩⟩

theorem guarded_answered : Guarded step Undisturbed parsed
    ([.io, .io, .io, .io, .io, .io] ++ copy) answered :=
  .cons nofun rfl <| .cons nofun rfl <| .cons nofun rfl <| .cons nofun rfl <|
    .cons nofun rfl <| .cons (fun _ _ => rfl) rfl <| .cons nofun rfl <| .cons nofun rfl <|
    .cons nofun rfl <| .cons nofun rfl <| .cons nofun rfl .nil

theorem guarded_waiting : Guarded step Undisturbed (init 0 0 0 : State okParser) send waiting :=
  .cons trivial rfl <| .cons nofun rfl <| .cons nofun rfl <| .cons nofun rfl <|
    .cons (fun _ _ => id) rfl <| .cons nofun rfl .nil

/-- The whole answer comes in one fragment after the request. -/
theorem request_answered_ok :
    Answered okFrame.response (okCallbacks.map (Prod.mk okFields)) :=
  request_answered okParser_bracketed
    (guarded_waiting.append (.cons undisturbed_parsed step_parsed guarded_answered))
    (okFrame.response, okCallbacks.map (Prod.mk okFields)) (List.mem_singleton.mpr rfl)

/-- `on_disconnect` ends the wait before anything has been received. -/
theorem not_request_answered :
    ∃ s, run step (init 0 0 0 : State (.ofTable [])) (send ++ [.onEvent] ++ copy) = some s ∧
      ∃ a ∈ s.returned, ¬ Answered a.1 a.2 := by
  refine ⟨_, rfl, _, List.mem_singleton.mpr rfl, ?_⟩
  rintro ⟨evs, hevs, ⟨b, mid, c, rfl, -⟩, -⟩
  have hnil := List.infix_nil.mp hevs
  cases hnil

end Client

end Wish.Http
