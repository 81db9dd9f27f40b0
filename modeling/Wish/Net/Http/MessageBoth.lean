import Wish.Net.Http.Message

/-!
# `HTTP_BOTH`

An object that is `HTTP_BOTH` and one of the type of the messages are given the same fragments.
The first one initialises its parser again after each message; the second one's parser goes on,
unless that message closes the connection, or asks for an upgrade. `agree_iff` says when the two
objects take up the same messages and look the same at the end of each and after each call:
`on_status` asks for the type of the object, and not for that of the parser.

`http_method_str` is a parameter.
-/

namespace Wish.Http

/-- What `status()`, `method()`, `version()`, `url()`, `headers()` and `body()` give. -/
structure Accessors where
  status : Nat
  method : Text
  version : Text
  url : Text
  headers : OrdMap Text Text
  body : Text

/-- What can be seen of an object that is given fragments. -/
inductive Observation where
  /-- it has taken up a message -/
  | begun
  /-- a message has ended -/
  | ended (accessors : Accessors)
  /-- `parse_from_array` has returned -/
  | returned (ret : Bool)
  /-- an assertion has failed -/
  | aborted

/-- An observation, whatever the accessors give. -/
inductive Sight where
  | begun
  | ended
  | returned (ret : Bool)
  | aborted
  deriving DecidableEq, Repr

def Observation.sight : Observation → Sight
  | .begun => .begun
  | .ended _ => .ended
  | .returned ret => .returned ret
  | .aborted => .aborted

/-- What is to be seen next of an object whose last name of a header is `field`. -/
def Resume.sight {π : Type} (field : Text) : Resume π → Sight
  | .stop parser _ => .returned (parser.fields.httpErrno = 0)
  | .callback parser cb k =>
    match cb with
    | .messageBegin => .begun
    | .messageComplete => .ended
    | .headerField data => (k parser).sight data
    | .headerValue _ => if field = [] then .aborted else (k parser).sight field
    | _ => (k parser).sight field

namespace Message

variable {hp : HttpParser} (methodStr : Nat → Text)

def method (m : Message hp) : Text := methodStr m.mMethod

def accessors (m : Message hp) : Accessors :=
  ⟨m.status, m.method methodStr, m.version, m.url, m.headers, m.body⟩

/-- What is seen of the object when it has handled a callback. -/
def seen (m : Message hp) : Callback → List Observation
  | .messageBegin => [.begun]
  | .messageComplete => [.ended (m.accessors methodStr)]
  | _ => []

/-- What is seen in one call. -/
def driveTranscript (m : Message hp) : Resume hp.Priv → List Observation
  | .stop parser _ => [.returned (parser.fields.httpErrno = 0)]
  | .callback parser cb k =>
    match handle { m with mParser := parser } cb with
    | none => [.aborted]
    | some m' => m'.seen methodStr cb ++ driveTranscript m' (k m'.mParser)

/-- What is seen in successive calls. -/
def transcript (m : Message hp) : List Text → List Observation
  | [] => []
  | data :: rest =>
    m.driveTranscript methodStr (hp.execute m.mParser data) ++
      match m.parseFromArray data with
      | none => []
      | some r => r.1.transcript rest

end Message

/-- What the parser has reported of a message: the last name of a header and the status code. -/
structure Reported where
  field : Text
  code : Option Nat

def Reported.after (rep : Reported) (fields : ParserFields) : Callback → Reported
  | .headerField data => { rep with field := data }
  | .status _ => { rep with code := some fields.statusCode }
  | _ => rep

/-- The runs of two parsers on the same messages of one type: one is initialised with `HTTP_BOTH`
before each of them, the other one with the type, and once. `codes` are the status codes reported
of the messages that have ended; the runs are `parted` when the two go different ways. -/
inductive Together (hp : HttpParser) (type : ParserType) : Reported → Resume hp.Priv →
    Resume hp.Priv → List Text → List (Option Nat) → Bool → Prop
  | done {rep : Reported} {p q : Parser hp.Priv} {m n : Nat}
    (errno : p.fields.httpErrno = 0 ↔ q.fields.httpErrno = 0) :
    Together hp type rep (.stop p m) (.stop q n) [] [] false
  | call {rep : Reported} {p q : Parser hp.Priv} {m n : Nat} {data : Text} {rest : List Text}
    {codes : List (Option Nat)} {parted : Bool}
    (errno : p.fields.httpErrno = 0 ↔ q.fields.httpErrno = 0)
    (next : Together hp type rep (hp.execute p data) (hp.execute q data) rest codes parted) :
    Together hp type rep (.stop p m) (.stop q n) (data :: rest) codes parted
  | item {rep : Reported} {p q : Parser hp.Priv} {cb : Callback}
    {k l : Parser hp.Priv → Resume hp.Priv} {rest : List Text} {codes : List (Option Nat)}
    {parted : Bool} (ne : cb ≠ .messageComplete)
    (named : ∀ data, cb = .headerValue data → rep.field ≠ [])
    (next : Together hp type (rep.after q.fields cb) (k p) (l q) rest codes parted) :
    Together hp type rep (.callback p cb k) (.callback q cb l) rest codes parted
  | ended {rep : Reported} {p q : Parser hp.Priv} {k l : Parser hp.Priv → Resume hp.Priv}
    {rest : List Text} {codes : List (Option Nat)} {parted : Bool}
    (hp_type : p.fields.type = type) (hq_type : q.fields.type = type)
    (version : (p.fields.httpMajor, p.fields.httpMinor) = (q.fields.httpMajor, q.fields.httpMinor))
    (method : p.fields.method = q.fields.method)
    (code : type = .response → rep.code ≠ none)
    (next : Together hp type { rep with code := none } (k (hp.init .both)) (l q) rest codes
      parted) :
    Together hp type rep (.callback p .messageComplete k) (.callback q .messageComplete l) rest
      (rep.code :: codes) parted
  /-- a name was cut off in front of its `:`, so it has been reported as empty -/
  | unnamed {rep : Reported} {r r' : Resume hp.Priv} {rest : List Text}
    (sight : r.sight rep.field = .aborted) (sight' : r'.sight rep.field = .aborted) :
    Together hp type rep r r' rest [] false
  /-- Both fail, and a parser that has failed parses nothing. -/
  | failed {rep : Reported} {r r' : Resume hp.Priv} {rest : List Text}
    (sight : r.sight rep.field = .returned false) (sight' : r'.sight rep.field = .returned false)
    (stuck : ∀ data, hp.execute r.trace.2 data = .stop r.trace.2 0)
    (stuck' : ∀ data, hp.execute r'.trace.2 data = .stop r'.trace.2 0) :
    Together hp type rep r r' rest [] false
  /-- The first parser takes up the next message. The second one refuses it behind one that closes
  the connection, and does not read it in the call in which a message with a body has asked for an
  upgrade. Or else a call begins in the middle of a message, whose beginning neither of them has
  read behind a message without a body that asks for an upgrade, and only one takes that text. -/
  | parted {rep : Reported} {r r' : Resume hp.Priv} {rest : List Text}
    (ne : r.sight rep.field ≠ r'.sight rep.field) :
    Together hp type rep r r' rest [] true

/-- A stream of messages of the type, in these fragments. -/
def Messages (hp : HttpParser) (type : ParserType) (frags : List Text) (codes : List (Option Nat))
    (parted : Bool) : Prop :=
  Together hp type ⟨[], none⟩ (.stop (hp.init .both) 0) (.stop (hp.init type) 0) frags codes
    parted

/-- The two objects look the same all the time; `m_status` and `m_method` start with what is in
memory. -/
def Agree (hp : HttpParser) (methodStr : Nat → Text) (type : ParserType) (s d s' d' : Nat)
    (frags : List Text) : Prop :=
  (Message.new .both s d : Message hp).transcript methodStr frags =
    (Message.new type s' d' : Message hp).transcript methodStr frags

/-- Where a message has this status code, the accessors that one of the objects does not set have
the right value by chance. -/
def Alike (methodStr : Nat → Text) (type : ParserType) (s d s' d' : Nat) (code : Option Nat) :
    Prop :=
  if type = .response then code = some s ∧ methodStr d = methodStr d' else s = s'

namespace Message

variable {hp : HttpParser} {type : ParserType} {s d s' d' : Nat} {rep : Reported}
  {b t b' t' m m' : Message hp} {p q : Parser hp.Priv} {cb : Callback}

/-- The two objects between two callbacks. -/
structure Coupled (type : ParserType) (s d s' d' : Nat) (rep : Reported) (b t : Message hp) :
    Prop where
  bType : b.mType = .both
  tType : t.mType = type
  stored : b.stored = t.stored
  field : b.mLastHeaderField = rep.field
  bStatus : b.mStatus = s
  tStatus : if type = .response then ∀ c, rep.code = some c → t.mStatus = c else t.mStatus = s'
  methods : type = .response → b.mMethod = d ∧ t.mMethod = d'

theorem coupled_new : Coupled type s d s' d' ⟨[], none⟩ (new .both s d : Message hp)
    (new type s' d') where
  bType := rfl
  tType := rfl
  stored := rfl
  field := rfl
  bStatus := rfl
  tStatus := by
    split
    · exact nofun
    · rfl
  methods _ := ⟨rfl, rfl⟩

theorem mParser_item (ne : cb ≠ .messageComplete)
    (h : handle { m with mParser := p } cb = some m') : m'.mParser = p := by
  cases cb with
  | headerValue data =>
    simp only [handle, onHeaderValue, Option.ite_none_left_eq_some, Option.some.injEq] at h
    obtain ⟨-, rfl⟩ := h
    rfl
  | status data =>
    simp only [handle, onStatus, Option.some.injEq] at h
    subst h
    split <;> rfl
  | messageComplete => exact absurd rfl ne
  | _ => cases h; rfl

/-- An item is stored, and the field name is what the parser has reported. -/
theorem Coupled.apply (h : Coupled type s d s' d' rep b t) (fields : ParserFields)
    (named : ∀ data, cb = .headerValue data → rep.field ≠ []) :
    ∃ st, b.stored.apply cb = some st ∧ st.lastHeaderField = (rep.after fields cb).field := by
  have hfield : b.stored.lastHeaderField = rep.field := h.field
  cases cb with
  | headerField data => exact ⟨_, rfl, rfl⟩
  | headerValue data =>
    have hne : b.stored.lastHeaderField ≠ [] := hfield ▸ named data rfl
    exact ⟨_, if_neg hne, hfield⟩
  | _ => exact ⟨_, rfl, hfield⟩

/-- What a callback leaves, where its item can be stored. -/
theorem handle_of_apply {st : Stored} (h : m.stored.apply cb = some st) :
    ∃ m', handle { m with mParser := p } cb = some m' ∧ m'.mType = m.mType ∧ m'.stored = st ∧
      m'.mStatus = (Event.status? m.mType (p.fields, cb)).getD m.mStatus ∧
      m'.mMethod = (Event.method? (p.fields, cb)).getD m.mMethod := by
  have hshown := shown_handle { m with mParser := p } cb
  have happly : ({ m with mParser := p } : Message hp).shown.apply m.mType (p.fields, cb) =
      (m.stored.apply cb).map fun st =>
        { toStored := st
          status := (Event.status? m.mType (p.fields, cb)).getD m.mStatus
          method := (Event.method? (p.fields, cb)).getD m.mMethod
          version := (Event.version? (p.fields, cb)).getD m.mVersion } := rfl
  rw [happly, h, Option.map_some] at hshown
  obtain ⟨m', hm', heq⟩ := Option.map_eq_some_iff.mp hshown
  have htype : m'.mType = m.mType := mType_handle (m := { m with mParser := p }) hm'
  exact ⟨m', hm', htype, congrArg Shown.toStored heq, congrArg Shown.status heq,
    congrArg Shown.method heq⟩

/-- Only an object that is `HTTP_RESPONSE` stores a status. -/
theorem status?_of_ne {e : Event} (h : type ≠ .response) : Event.status? type e = none := by
  obtain ⟨fields, cb⟩ := e
  cases cb with
  | status data => exact if_neg h
  | _ => rfl

theorem Coupled.item (h : Coupled type s d s' d' rep b t) (ne : cb ≠ .messageComplete)
    (named : ∀ data, cb = .headerValue data → rep.field ≠ []) :
    ∃ b' t', handle { b with mParser := p } cb = some b' ∧
      handle { t with mParser := q } cb = some t' ∧
      Coupled type s d s' d' (rep.after q.fields cb) b' t' := by
  obtain ⟨st, hst, hfield⟩ := h.apply q.fields named
  obtain ⟨b', hb', hbtype, hbstored, hbstatus, hbmethod⟩ := handle_of_apply (p := p) hst
  rw [h.stored] at hst
  obtain ⟨t', ht', httype, htstored, htstatus, htmethod⟩ := handle_of_apply (p := q) hst
  have hmethod : ∀ fields : ParserFields, Event.method? (fields, cb) = none := fun fields => by
    cases cb with
    | messageComplete => exact absurd rfl ne
    | _ => rfl
  rw [hmethod, Option.getD_none] at hbmethod htmethod
  refine ⟨b', t', hb', ht', hbtype.trans h.bType, httype.trans h.tType,
    hbstored.trans htstored.symm, ?_, ?_, ?_, ?_⟩
  · exact (congrArg Stored.lastHeaderField hbstored).trans hfield
  · rw [hbstatus, h.bType, status?_of_ne (by decide)]
    exact h.bStatus
  · have htstat := h.tStatus
    rw [htstatus, h.tType]
    by_cases htype : type = .response
    · rw [if_pos htype] at htstat ⊢
      intro c hc
      cases cb with
      | status data =>
        have hcode : q.fields.statusCode = c := Option.some.inj hc
        rw [← hcode, htype]
        rfl
      | _ => exact htstat c hc
    · rw [if_neg htype] at htstat ⊢
      rw [status?_of_ne htype]
      exact htstat
  · intro htype
    rw [hbmethod, htmethod]
    exact h.methods htype

theorem mMethod_ended (h : p.fields.type = .response) :
    ({ m with mParser := p }).onMessageComplete.mMethod = m.mMethod :=
  if_neg (by rw [h]; decide)

/-- A message has ended. -/
theorem Coupled.ended (h : Coupled type s d s' d' rep b t) (hp_type : p.fields.type = type)
    (hq_type : q.fields.type = type) :
    Coupled type s d s' d' { rep with code := none } ({ b with mParser := p }).onMessageComplete
      ({ t with mParser := q }).onMessageComplete where
  bType := h.bType
  tType := h.tType
  stored := h.stored
  field := h.field
  bStatus := h.bStatus
  tStatus := by
    have htstat := h.tStatus
    split
    · exact nofun
    · next htype =>
      rw [if_neg htype] at htstat
      exact htstat
  methods := fun htype => by
    rw [mMethod_ended (hp_type ▸ htype), mMethod_ended (hq_type ▸ htype)]
    exact h.methods htype

theorem accessors_ended (methodStr : Nat → Text) (h : Coupled type s d s' d' rep b t)
    (hp_type : p.fields.type = type) (hq_type : q.fields.type = type)
    (version : (p.fields.httpMajor, p.fields.httpMinor) = (q.fields.httpMajor, q.fields.httpMinor))
    (method : p.fields.method = q.fields.method) (code : type = .response → rep.code ≠ none)
    (hboth : type ≠ .both) :
    ({ b with mParser := p }).onMessageComplete.accessors methodStr =
      ({ t with mParser := q }).onMessageComplete.accessors methodStr ↔
        Alike methodStr type s d s' d' rep.code := by
  have hurl : b.mUrl = t.mUrl := congrArg Stored.url h.stored
  have hheaders : b.mHeaders = t.mHeaders := congrArg Stored.headers h.stored
  have hbody : b.mBody = t.mBody := congrArg Stored.body h.stored
  have hversion : versionText (p.fields.httpMajor, p.fields.httpMinor) =
      versionText (q.fields.httpMajor, q.fields.httpMinor) := congrArg versionText version
  have hiff : ({ b with mParser := p }).onMessageComplete.accessors methodStr =
      ({ t with mParser := q }).onMessageComplete.accessors methodStr ↔
        b.mStatus = t.mStatus ∧ methodStr ({ b with mParser := p }).onMessageComplete.mMethod =
          methodStr ({ t with mParser := q }).onMessageComplete.mMethod := by
    rw [accessors, accessors, Accessors.mk.injEq]
    constructor
    · intro ⟨hs, hm, _⟩
      exact ⟨hs, hm⟩
    · intro ⟨hs, hm⟩
      exact ⟨hs, hm, hversion, hurl, hheaders, hbody⟩
  have htstat := h.tStatus
  rw [hiff, Alike]
  cases type with
  | both => exact absurd rfl hboth
  | response =>
    rw [if_pos rfl] at htstat ⊢
    obtain ⟨c, hc⟩ := Option.ne_none_iff_exists'.mp (code rfl)
    obtain ⟨hd, hd'⟩ := h.methods rfl
    rw [mMethod_ended hp_type, mMethod_ended hq_type, hd, hd', h.bStatus, htstat c hc, hc,
      Option.some.injEq, eq_comm]
  | request =>
    rw [if_neg (by decide)] at htstat ⊢
    have hb : ({ b with mParser := p }).onMessageComplete.mMethod = p.fields.method :=
      if_pos hp_type
    have ht : ({ t with mParser := q }).onMessageComplete.mMethod = q.fields.method :=
      if_pos hq_type
    rw [hb, ht, method, h.bStatus, htstat]
    exact and_iff_left rfl

/-! ## The two runs -/

variable {methodStr : Nat → Text} {frags : List Text} {k : Parser hp.Priv → Resume hp.Priv}
  {n : Nat}

/-- What is seen in the rest of a call, and in the calls after it. -/
def seenFrom (methodStr : Nat → Text) (m : Message hp) (r : Resume hp.Priv) (frags : List Text) :
    List Observation :=
  m.driveTranscript methodStr r ++
    match m.drive r with
    | none => []
    | some q => q.1.transcript methodStr frags

theorem transcript_cons (m : Message hp) (data : Text) (frags : List Text) :
    m.transcript methodStr (data :: frags) =
      m.seenFrom methodStr (hp.execute m.mParser data) frags := by
  rw [transcript, seenFrom, parseFromArray]
  cases m.drive (hp.execute m.mParser data) with
  | none => rfl
  | some q => rfl

theorem seenFrom_stop : m.seenFrom methodStr (.stop p n) frags =
    .returned (p.fields.httpErrno = 0) :: ({ m with mParser := p }).transcript methodStr frags :=
  rfl

theorem seenFrom_callback (h : handle { m with mParser := p } cb = some m') :
    m.seenFrom methodStr (.callback p cb k) frags =
      m'.seen methodStr cb ++ m'.seenFrom methodStr (k m'.mParser) frags := by
  rw [seenFrom, driveTranscript, drive, h, seenFrom, List.append_assoc]
  rfl

theorem seenFrom_abort (h : handle { m with mParser := p } cb = none) :
    m.seenFrom methodStr (.callback p cb k) frags = [.aborted] := by
  rw [seenFrom, driveTranscript, drive, h]
  rfl

theorem seenFrom_ended : m.seenFrom methodStr (.callback p .messageComplete k) frags =
    .ended (({ m with mParser := p }).onMessageComplete.accessors methodStr) ::
      ({ m with mParser := p }).onMessageComplete.seenFrom methodStr
        (k ({ m with mParser := p }).onMessageComplete.mParser) frags :=
  seenFrom_callback rfl

/-- What is seen begins with the sight, and ends with an abort; behind the end of a call the parser
is the one that it has left. -/
inductive Shows (methodStr : Nat → Text) (frags : List Text) (q : Parser hp.Priv) :
    List Observation → Sight → Prop
  | begun (l : List Observation) : Shows methodStr frags q (.begun :: l) .begun
  | ended (accessors : Accessors) (l : List Observation) :
    Shows methodStr frags q (.ended accessors :: l) .ended
  | returned (m : Message hp) : Shows methodStr frags q
    (.returned (q.fields.httpErrno = 0) :: ({ m with mParser := q }).transcript methodStr frags)
    (.returned (q.fields.httpErrno = 0))
  | aborted : Shows methodStr frags q [.aborted] .aborted

theorem Shows.head {l : List Observation} {o : Sight} (h : Shows methodStr frags q l o) :
    l.head?.map Observation.sight = some o := by
  cases h <;> rfl

/-- A callback at which nothing is seen. -/
theorem sight_callback (methodStr : Nat → Text) (hbegin : cb ≠ .messageBegin) (hcomplete : cb ≠ .messageComplete)
    (h : handle { m with mParser := p } cb = some m') :
    (Resume.callback p cb k).sight m.mLastHeaderField = (k p).sight m'.mLastHeaderField ∧
      m'.seen methodStr cb = [] := by
  cases cb with
  | messageBegin => exact absurd rfl hbegin
  | messageComplete => exact absurd rfl hcomplete
  | headerValue data =>
    simp only [handle, onHeaderValue, Option.ite_none_left_eq_some, Option.some.injEq] at h
    obtain ⟨hfield, rfl⟩ := h
    exact ⟨if_neg hfield, rfl⟩
  | status data =>
    simp only [handle, onStatus, Option.some.injEq] at h
    subst h
    split
    · exact ⟨rfl, rfl⟩
    · exact ⟨rfl, rfl⟩
  | _ =>
    cases h
    exact ⟨rfl, rfl⟩

theorem sight_abort (h : handle { m with mParser := p } cb = none) :
    (Resume.callback p cb k).sight m.mLastHeaderField = .aborted := by
  cases cb with
  | headerValue data =>
    simp only [handle, onHeaderValue, ite_eq_left_iff, reduceCtorEq, imp_false, not_not] at h
    exact if_pos h
  | _ => cases h

theorem shows_seenFrom (methodStr : Nat → Text) (frags : List Text) (m : Message hp)
    (r : Resume hp.Priv) :
    Shows methodStr frags r.trace.2 (m.seenFrom methodStr r frags)
      (r.sight m.mLastHeaderField) := by
  induction r generalizing m with
  | stop parser parsed => exact .returned m
  | callback parser cb k ih =>
    by_cases hbegin : cb = .messageBegin
    · subst hbegin
      exact .begun _
    by_cases hcomplete : cb = .messageComplete
    · subst hcomplete
      exact .ended _ _
    cases hm : handle { m with mParser := parser } cb with
    | none =>
      rw [seenFrom_abort hm, sight_abort hm]
      exact .aborted
    | some m' =>
      obtain ⟨hsight, hseen⟩ := sight_callback methodStr hbegin hcomplete hm
      rw [seenFrom_callback hm, hsight, hseen, mParser_item hcomplete hm]
      exact ih parser m'

/-- A parser that has failed parses nothing. -/
theorem transcript_stuck (h : ∀ data, hp.execute p data = .stop p 0) (m : Message hp)
    (frags : List Text) : ({ m with mParser := p }).transcript methodStr frags =
      frags.map fun _ => .returned (p.fields.httpErrno = 0) := by
  induction frags with
  | nil => rfl
  | cons data rest ih =>
    rw [transcript_cons, h, seenFrom_stop, ih]
    rfl

theorem seenFrom_failed {r : Resume hp.Priv} (hsight : r.sight m.mLastHeaderField = .returned false)
    (h : ∀ data, hp.execute r.trace.2 data = .stop r.trace.2 0) :
    m.seenFrom methodStr r frags = .returned false :: frags.map fun _ => .returned false := by
  have hshows := shows_seenFrom methodStr frags m r
  rw [hsight] at hshows
  generalize hl : m.seenFrom methodStr r frags = l at hshows ⊢
  generalize ho : Sight.returned false = o at hshows
  cases hshows with
  | returned m' =>
    rw [transcript_stuck h, ← Sight.returned.inj ho]
  | _ => cases ho

theorem seenFrom_unnamed {r : Resume hp.Priv} (hsight : r.sight m.mLastHeaderField = .aborted) :
    m.seenFrom methodStr r frags = [.aborted] := by
  have hshows := shows_seenFrom methodStr frags m r
  rw [hsight] at hshows
  generalize m.seenFrom methodStr r frags = l at hshows
  cases hshows
  rfl

theorem Coupled.parser (h : Coupled type s d s' d' rep b t) :
    Coupled type s d s' d' rep { b with mParser := p } { t with mParser := q } :=
  ⟨h.bType, h.tType, h.stored, h.field, h.bStatus, h.tStatus, h.methods⟩

/-- Both keep the same name of a header. -/
theorem Coupled.tField (h : Coupled type s d s' d' rep b t) : t.mLastHeaderField = rep.field :=
  (congrArg Stored.lastHeaderField h.stored).symm.trans h.field

theorem seen_of_ne (ne : cb ≠ .messageComplete) : b.seen methodStr cb = t.seen methodStr cb := by
  cases cb with
  | messageComplete => exact absurd rfl ne
  | _ => rfl

theorem seenFrom_eq_iff {r r' : Resume hp.Priv} {codes : List (Option Nat)} {parted : Bool}
    (h : Together hp type rep r r' frags codes parted) (hboth : type ≠ .both)
    (hc : Coupled type s d s' d' rep b t) :
    b.seenFrom methodStr r frags = t.seenFrom methodStr r' frags ↔
      parted = false ∧ ∀ code ∈ codes, Alike methodStr type s d s' d' code := by
  induction h generalizing b t with
  | done errno =>
    simp [seenFrom_stop, errno, transcript]
  | call errno _ ih =>
    simp only [seenFrom_stop, errno]
    rw [transcript_cons, transcript_cons, List.cons.injEq, and_iff_right rfl]
    exact ih hc.parser
  | @item rep p q cb k l rest codes parted ne named _ ih =>
    obtain ⟨b', t', hb', ht', hnext⟩ := hc.item (p := p) (q := q) ne named
    rw [seenFrom_callback hb', seenFrom_callback ht', seen_of_ne (t := t') ne,
      List.append_cancel_left_eq, mParser_item ne hb', mParser_item ne ht']
    exact ih hnext
  | @ended rep p q k l rest codes parted hp_type hq_type version method code _ ih =>
    have hbparser : ({ b with mParser := p }).onMessageComplete.mParser = hp.init .both := by
      rw [onMessageComplete, hc.bType]
      rfl
    have htparser : ({ t with mParser := q }).onMessageComplete.mParser = q := by
      rw [onMessageComplete, hc.tType]
      exact if_neg hboth
    have hended := accessors_ended methodStr hc hp_type hq_type version method code hboth
    rw [seenFrom_ended, seenFrom_ended, hbparser, htparser, List.cons.injEq,
      Observation.ended.injEq, hended, ih (hc.ended hp_type hq_type), List.forall_mem_cons]
    exact and_left_comm
  | unnamed sight sight' =>
    rw [← hc.field] at sight
    rw [← hc.tField] at sight'
    rw [seenFrom_unnamed sight, seenFrom_unnamed sight']
    simp
  | failed sight sight' stuck stuck' =>
    rw [← hc.field] at sight
    rw [← hc.tField] at sight'
    rw [seenFrom_failed sight stuck, seenFrom_failed sight' stuck']
    simp
  | @parted rep r r' rest ne =>
    have hb := (shows_seenFrom methodStr rest b r).head
    have ht := (shows_seenFrom methodStr rest t r').head
    rw [hc.field] at hb
    rw [hc.tField] at ht
    refine iff_of_false (fun heq => ?_) fun h => Bool.noConfusion h.1
    rw [heq, ht] at hb
    exact ne (Option.some.inj hb).symm

end Message

/-- A request with a body asks for an upgrade, and another request begins in the same call. -/
def upgrading : HttpParser where
  Priv := Bool
  initPriv _ := false
  execute _ data :=
    .callback ⟨⟨.request, 1, 1, 0, 3, 0⟩, true⟩ .messageBegin fun parser =>
      .callback parser (.body ['a']) fun parser =>
        .callback parser .messageComplete fun parser =>
          -- `if (parser->upgrade)`
          if parser.priv then .stop parser 1
          else .callback parser .messageBegin fun parser => .stop parser data.length

example (data : Text) : Messages upgrading .request [data] [none] true :=
  .call Iff.rfl (.item nofun nofun (.item nofun nofun
    (.ended rfl rfl rfl rfl nofun (.parted nofun))))

/-! ## Responses without content -/

namespace NoContent

def response : Text :=
  ['H', 'T', 'T', 'P', '/', '1', '.', '1', ' ', '2', '0', '4', ' ', 'N', 'o', '\r', '\n',
    '\r', '\n']

def fields : ParserFields := ⟨.response, 1, 1, 204, 0, 0⟩

def parser : HttpParser := .ofTable [
  (response, fields, [.messageBegin, .status ['N', 'o'], .headersComplete, .messageComplete])]

theorem execute_response (p : Parser parser.Priv) : parser.execute p response =
    .callback ⟨fields, ()⟩ .messageBegin fun p => .callback p (.status ['N', 'o']) fun p =>
      .callback p .headersComplete fun p => .callback p .messageComplete fun p =>
        .stop p response.length := rfl

/-- One response after the other. -/
theorem messages (n : Nat) : Messages parser .response (.replicate n response)
    (.replicate n (some 204)) false := by
  have htogether : ∀ (p q : Parser parser.Priv) (m l : Nat),
      (p.fields.httpErrno = 0 ↔ q.fields.httpErrno = 0) →
        Together parser .response ⟨[], none⟩ (.stop p m) (.stop q l) (.replicate n response)
          (.replicate n (some 204)) false := by
    induction n with
    | zero => exact fun p q m l errno => .done errno
    | succ n ih =>
      intro p q m l errno
      refine .call errno ?_
      rw [execute_response, execute_response]
      exact .item nofun nofun (.item nofun nofun (.item nofun nofun
        (.ended rfl rfl rfl rfl (fun _ => nofun) (ih _ _ _ _ Iff.rfl))))
  exact htogether _ _ _ _ Iff.rfl

end NoContent

end Wish.Http
