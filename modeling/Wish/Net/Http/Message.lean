import Wish.OrdMap
import Wish.Net.Http.Parser

/-!
# `wish::http::message`

`net/app/http/message.cpp`: the callbacks of the parser store the items of a message in the
object. `Stored` is the part of the object behind `url()`, `headers()` and `body()`, `Shown`
the part behind all accessors; `stored_feed` and `parse_spec` say that they depend on the
callbacks made only, and `events_eq` that these are the parser's own unless the object is
`HTTP_BOTH`.
-/

namespace Wish.Http

/-- The members of `message`. -/
structure Message (hp : HttpParser) where
  mType : ParserType
  mUrl : Text
  mLastHeaderField : Text
  mHeaders : OrdMap Text Text
  mStatus : Nat
  mMethod : Nat
  mVersion : Nat × Nat
  mBody : Text
  mParser : Parser hp.Priv
  mCompleted : Bool

namespace Message

variable {hp : HttpParser}

/-- The constructor leaves `m_status` and `m_method` uninitialised. -/
def new (type : ParserType) (mStatus mMethod : Nat) : Message hp where
  mType := type
  mUrl := []
  mLastHeaderField := []
  mHeaders := .empty
  mStatus := mStatus
  mMethod := mMethod
  mVersion := (0, 0)
  mBody := []
  mParser := hp.init type
  mCompleted := false

def versionText (v : Nat × Nat) : Text := Nat.toDigits 10 v.1 ++ ['.'] ++ Nat.toDigits 10 v.2

def version (m : Message hp) : Text := versionText m.mVersion

def url (m : Message hp) : Text := m.mUrl

def status (m : Message hp) : Nat := m.mStatus

def headers (m : Message hp) : OrdMap Text Text := m.mHeaders

def body (m : Message hp) : Text := m.mBody

def connection : Text := ['C', 'o', 'n', 'n', 'e', 'c', 't', 'i', 'o', 'n']

def close : Text := ['c', 'l', 'o', 's', 'e']

/-- `none` where `cit->second` reads behind the end of the map. -/
def isCompleted (m : Message hp) : Option Bool :=
  if m.mCompleted then some true
  else (m.mHeaders.get? connection).map fun value => value = close

def onUrl (m : Message hp) (data : Text) : Message hp := { m with mUrl := data }

def onStatus (m : Message hp) (_data : Text) : Message hp :=
  if m.mType = .response then { m with mStatus := m.mParser.fields.statusCode } else m

def onHeaderField (m : Message hp) (data : Text) : Message hp :=
  { m with mLastHeaderField := data }

/-- `none` where the assertion `!m_last_header_field.empty()` fails. -/
def onHeaderValue (m : Message hp) (data : Text) : Option (Message hp) :=
  if m.mLastHeaderField = [] then none
  else some { m with mHeaders := m.mHeaders.set m.mLastHeaderField data }

def onBody (m : Message hp) (data : Text) : Message hp := { m with mBody := data }

def onMessageComplete (m : Message hp) : Message hp :=
  { m with
    mVersion := (m.mParser.fields.httpMajor, m.mParser.fields.httpMinor)
    mMethod := if m.mParser.fields.type = .request then m.mParser.fields.method else m.mMethod
    mParser := if m.mType = .both then hp.init m.mType else m.mParser
    mCompleted := true }

/-- The `on_..._cb` functions: what is called for a callback. -/
def handle (m : Message hp) : Callback → Option (Message hp)
  | .url data => some (m.onUrl data)
  | .status data => some (m.onStatus data)
  | .headerField data => some (m.onHeaderField data)
  | .headerValue data => m.onHeaderValue data
  | .body data => some (m.onBody data)
  | .messageComplete => some m.onMessageComplete
  | .messageBegin | .headersComplete | .chunkHeader | .chunkComplete => some m

/-- Run the parser, each callback on the object it belongs to. -/
def drive (m : Message hp) : Resume hp.Priv → Option (Message hp × Nat)
  | .stop parser parsed => some ({ m with mParser := parser }, parsed)
  | .callback parser cb k =>
    (handle { m with mParser := parser } cb).bind fun m' => drive m' (k m'.mParser)

/-- `none` where an assertion fails; the `Bool` is what the call returns. -/
def parseFromArray (m : Message hp) (data : Text) : Option (Message hp × Bool) :=
  (m.drive (hp.execute m.mParser data)).map fun r => (r.1, r.1.mParser.fields.httpErrno = 0)

/-- Successive calls of `parse_from_array`. -/
def feed (m : Message hp) : List Text → Option (Message hp)
  | [] => some m
  | data :: rest => (m.parseFromArray data).bind fun r => r.1.feed rest

/-! ## The callbacks made -/

/-- The callbacks a run of the parser makes on `m`, each with the parser's fields then. -/
def driveEvents (m : Message hp) : Resume hp.Priv → List Event
  | .stop _ _ => []
  | .callback parser cb k =>
    (parser.fields, cb) :: match handle { m with mParser := parser } cb with
      | none => []
      | some m' => driveEvents m' (k m'.mParser)

/-- The callbacks that a call of `parse_from_array` makes. -/
def parseEvents (m : Message hp) (data : Text) : List Event :=
  m.driveEvents (hp.execute m.mParser data)

/-- The callbacks that successive calls make. -/
def events (m : Message hp) : List Text → List Event
  | [] => []
  | data :: rest =>
    m.parseEvents data ++
      match m.parseFromArray data with
      | none => []
      | some r => r.1.events rest

def callbacks (m : Message hp) (frags : List Text) : List Callback :=
  (m.events frags).map Prod.snd

/-- A view of the object that the callbacks alone change. -/
theorem drive_view {α : Type*} {view : Message hp → α} {app : α → Event → Option α}
    (hparser : ∀ m parser, view { m with mParser := parser } = view m)
    (hhandle : ∀ m cb, (handle m cb).map view = app (view m) (m.mParser.fields, cb))
    (m : Message hp) (r : Resume hp.Priv) :
    (m.drive r).map (fun r => view r.1) = (m.driveEvents r).foldlM app (view m) := by
  induction r generalizing m with
  | stop parser parsed => exact congrArg some (hparser m parser)
  | callback parser cb k ih =>
    have hst := hhandle { m with mParser := parser } cb
    rw [hparser] at hst
    simp only [drive, driveEvents, List.foldlM_cons]
    cases hm : handle { m with mParser := parser } cb with
    | none =>
      rw [hm] at hst
      have hnone : app (view m) (parser.fields, cb) = none := hst.symm
      simp [hnone]
    | some m' =>
      rw [hm] at hst
      have hsome : app (view m) (parser.fields, cb) = some (view m') := hst.symm
      simp [hsome, ih]

theorem feed_view {α : Type*} {view : Message hp → α} {app : α → Event → Option α}
    (hparser : ∀ m parser, view { m with mParser := parser } = view m)
    (hhandle : ∀ m cb, (handle m cb).map view = app (view m) (m.mParser.fields, cb))
    (m : Message hp) (frags : List Text) :
    (m.feed frags).map view = (m.events frags).foldlM app (view m) := by
  induction frags generalizing m with
  | nil => rfl
  | cons data rest ih =>
    have hst := drive_view hparser hhandle m (hp.execute m.mParser data)
    simp only [feed, events, parseEvents, parseFromArray, List.foldlM_append]
    cases hm : m.drive (hp.execute m.mParser data) with
    | none =>
      rw [hm] at hst
      simp [← hst]
    | some r =>
      rw [hm] at hst
      simp [← hst, ih]

end Message

/-! ## What the object shows -/

/-- What `url()`, `headers()` and `body()` read, and the field name kept for the next value. -/
@[ext] structure Stored where
  url : Text
  lastHeaderField : Text
  headers : OrdMap Text Text
  body : Text

namespace Stored

def empty : Stored := ⟨[], [], .empty, []⟩

def apply (st : Stored) : Callback → Option Stored
  | .url data => some { st with url := data }
  | .headerField data => some { st with lastHeaderField := data }
  | .headerValue data =>
    if st.lastHeaderField = [] then none
    else some { st with headers := st.headers.set st.lastHeaderField data }
  | .body data => some { st with body := data }
  | _ => some st

def applyAll (st : Stored) (cbs : List Callback) : Option Stored := cbs.foldlM apply st

theorem applyAll_cons (st : Stored) (cb : Callback) (cbs : List Callback) :
    st.applyAll (cb :: cbs) = (st.apply cb).bind fun st' => st'.applyAll cbs := rfl

theorem applyAll_append (st : Stored) (xs ys : List Callback) :
    st.applyAll (xs ++ ys) = (st.applyAll xs).bind fun st' => st'.applyAll ys :=
  List.foldlM_append

end Stored

namespace Message

variable {hp : HttpParser}

def stored (m : Message hp) : Stored := ⟨m.mUrl, m.mLastHeaderField, m.mHeaders, m.mBody⟩

@[simp] theorem stored_new (type : ParserType) (s d : Nat) :
    (new type s d : Message hp).stored = .empty := rfl

theorem stored_handle (m : Message hp) (cb : Callback) :
    (m.handle cb).map stored = m.stored.apply cb := by
  cases cb with
  | headerValue data =>
    by_cases hf : m.mLastHeaderField = [] <;>
      simp [handle, onHeaderValue, Stored.apply, stored, hf]
  | status data =>
    simp only [handle, onStatus, Stored.apply, Option.map_some]
    split <;> rfl
  | _ => rfl

/-- `url()`, `headers()` and `body()` after any number of calls are a function of the
callbacks made. -/
theorem stored_feed (m : Message hp) (frags : List Text) :
    (m.feed frags).map stored = m.stored.applyAll (m.callbacks frags) := by
  rw [callbacks, Stored.applyAll, List.foldlM_map]
  exact @feed_view hp Stored stored (fun st e => st.apply e.2) (fun _ _ => rfl)
    (fun m cb => stored_handle m cb) m frags

end Message

/-- The value a callback gives to `m_status`. -/
def Event.status? (type : ParserType) : Event → Option Nat
  | (fields, .status _) => if type = .response then some fields.statusCode else none
  | _ => none

/-- The value a callback gives to `m_method`. -/
def Event.method? : Event → Option Nat
  | (fields, .messageComplete) => if fields.type = .request then some fields.method else none
  | _ => none

/-- The value a callback gives to `m_version`. -/
def Event.version? : Event → Option (Nat × Nat)
  | (fields, .messageComplete) => some (fields.httpMajor, fields.httpMinor)
  | _ => none

/-- The value a callback gives to `m_body`. -/
def Event.body? : Event → Option Text
  | (_, .body data) => some data
  | _ => none

/-- What all the accessors read, and the field name kept for the next value. -/
@[ext] structure Shown extends Stored where
  status : Nat
  method : Nat
  version : Nat × Nat

namespace Shown

/-- A new object's; `m_status` and `m_method` are uninitialised. -/
def new (status method : Nat) : Shown := ⟨.empty, status, method, (0, 0)⟩

def apply (type : ParserType) (sh : Shown) (e : Event) : Option Shown :=
  (sh.toStored.apply e.2).map fun st =>
    { toStored := st
      status := (e.status? type).getD sh.status
      method := e.method?.getD sh.method
      version := e.version?.getD sh.version }

def applyAll (type : ParserType) (sh : Shown) (evs : List Event) : Option Shown :=
  evs.foldlM (apply type) sh

theorem applyAll_cons (type : ParserType) (sh : Shown) (e : Event) (evs : List Event) :
    sh.applyAll type (e :: evs) = (sh.apply type e).bind fun sh' => sh'.applyAll type evs := rfl

end Shown

namespace Message

variable {hp : HttpParser}

def shown (m : Message hp) : Shown := ⟨m.stored, m.mStatus, m.mMethod, m.mVersion⟩

theorem mType_handle {m m' : Message hp} {cb : Callback} (h : m.handle cb = some m') :
    m'.mType = m.mType := by
  cases cb with
  | headerValue data =>
    simp only [handle, onHeaderValue, Option.ite_none_left_eq_some, Option.some.injEq] at h
    obtain ⟨-, rfl⟩ := h
    rfl
  | status data =>
    simp only [handle, onStatus, Option.some.injEq] at h
    subst h
    split <;> rfl
  | _ => cases h; rfl

/-- An object that is not `HTTP_BOTH` leaves the parser to itself. -/
theorem mParser_handle {m m' : Message hp} {cb : Callback} (hb : m.mType ≠ .both)
    (h : m.handle cb = some m') : m'.mParser = m.mParser := by
  cases cb with
  | headerValue data =>
    simp only [handle, onHeaderValue, Option.ite_none_left_eq_some, Option.some.injEq] at h
    obtain ⟨-, rfl⟩ := h
    rfl
  | status data =>
    simp only [handle, onStatus, Option.some.injEq] at h
    subst h
    split <;> rfl
  | messageComplete =>
    cases h
    exact if_neg hb
  | _ => cases h; rfl

theorem completed_handle {m m' : Message hp} {cb : Callback} (h : m.handle cb = some m') :
    m'.mCompleted = (m.mCompleted || cb = .messageComplete) := by
  cases cb with
  | headerValue data =>
    simp only [handle, onHeaderValue, Option.ite_none_left_eq_some, Option.some.injEq] at h
    obtain ⟨-, rfl⟩ := h
    simp
  | status data =>
    simp only [handle, onStatus, Option.some.injEq] at h
    subst h
    split <;> simp
  | messageComplete =>
    cases h
    simp [onMessageComplete]
  | _ => cases h; simp [onUrl, onHeaderField, onBody]

theorem shown_handle (m : Message hp) (cb : Callback) :
    (m.handle cb).map shown = m.shown.apply m.mType (m.mParser.fields, cb) := by
  cases cb with
  | headerValue data =>
    by_cases hf : m.mLastHeaderField = [] <;>
      simp [handle, onHeaderValue, Shown.apply, Stored.apply, shown, stored, hf, Event.status?,
        Event.method?, Event.version?]
  | status data =>
    by_cases ht : m.mType = .response <;>
      simp [handle, onStatus, Shown.apply, Stored.apply, shown, stored, ht, Event.status?,
        Event.method?, Event.version?]
  | messageComplete =>
    by_cases ht : m.mParser.fields.type = .request <;>
      simp [handle, onMessageComplete, Shown.apply, Stored.apply, shown, stored, ht,
        Event.status?, Event.method?, Event.version?]
  | _ => rfl

/-- What one call of `parse_from_array` does. -/
theorem parse_spec {m : Message hp} {data : Text} {r : Message hp × Bool}
    (h : m.parseFromArray data = some r) :
    r.1.mType = m.mType ∧
    r.1.mCompleted = (m.mCompleted || (m.parseEvents data).any (·.2 = .messageComplete)) ∧
    m.shown.applyAll m.mType (m.parseEvents data) = some r.1.shown := by
  obtain ⟨q, hq, rfl⟩ := Option.map_eq_some_iff.mp h
  rw [parseEvents]
  revert hq
  generalize hp.execute m.mParser data = res
  intro hq
  clear h
  induction res generalizing m with
  | stop parser parsed =>
    cases hq
    exact ⟨rfl, by simp [driveEvents], rfl⟩
  | callback parser cb k ih =>
    obtain ⟨m', hm', hq⟩ := Option.bind_eq_some_iff.mp hq
    obtain ⟨htype, hcompleted, hshown⟩ := ih m'.mParser hq
    have hsh := shown_handle { m with mParser := parser } cb
    rw [hm', Option.map_some] at hsh
    rw [mType_handle hm'] at htype hshown
    rw [completed_handle hm'] at hcompleted
    simp only [driveEvents, hm']
    refine ⟨htype, ?_, ?_⟩
    · rw [hcompleted, List.any_cons, Bool.or_assoc]
    · rw [Shown.applyAll_cons]
      have hfirst : m.shown.apply m.mType (parser.fields, cb) = some m'.shown := hsh.symm
      rw [hfirst]
      exact hshown

end Message

namespace Message

variable {hp : HttpParser}

theorem parse_trace {m : Message hp} {data : Text} {r : Message hp × Bool}
    (hb : m.mType ≠ .both) (h : m.parseFromArray data = some r) :
    m.parseEvents data = (hp.execute m.mParser data).trace.1 ∧
      r.1.mParser = (hp.execute m.mParser data).trace.2 := by
  obtain ⟨q, hq, rfl⟩ := Option.map_eq_some_iff.mp h
  rw [parseEvents]
  revert hq
  generalize hp.execute m.mParser data = res
  intro hq
  clear h
  induction res generalizing m with
  | stop parser parsed =>
    cases hq
    exact ⟨rfl, rfl⟩
  | callback parser cb k ih =>
    obtain ⟨m', hm', hq⟩ := Option.bind_eq_some_iff.mp hq
    have hb' : m'.mType ≠ .both := by rw [mType_handle hm']; exact hb
    have hparser : m'.mParser = parser :=
      mParser_handle (m := { m with mParser := parser }) hb hm'
    obtain ⟨htrace, hlast⟩ := ih m'.mParser hb' hq
    simp only [driveEvents, hm', Resume.trace]
    rw [hparser] at htrace hlast ⊢
    exact ⟨by rw [htrace], hlast⟩

/-- The callbacks of an object that is not `HTTP_BOTH` are those of the parser. -/
theorem events_eq {m m' : Message hp} {frags : List Text} (hb : m.mType ≠ .both)
    (h : m.feed frags = some m') : m.events frags = hp.events m.mParser frags := by
  induction frags generalizing m with
  | nil => rfl
  | cons data rest ih =>
    obtain ⟨r, hr, h⟩ := Option.bind_eq_some_iff.mp h
    obtain ⟨htrace, hparser⟩ := parse_trace hb hr
    have hb' : r.1.mType ≠ .both := by rw [(parse_spec hr).1]; exact hb
    rw [events, HttpParser.events, hr, htrace, ← hparser, ← ih hb' h]

theorem feed_snoc (m : Message hp) (frags : List Text) (data : Text) :
    m.feed (frags ++ [data]) =
      (m.feed frags).bind fun m' => (m'.parseFromArray data).map Prod.fst := by
  induction frags generalizing m with
  | nil =>
    simp only [List.nil_append, feed, Option.bind_some]
    cases m.parseFromArray data <;> rfl
  | cons d rest ih =>
    simp only [List.cons_append, feed, Option.bind_assoc]
    exact Option.bind_congr fun r _ => ih r.1

theorem events_snoc {m m' : Message hp} {frags : List Text} (h : m.feed frags = some m')
    (data : Text) : m.events (frags ++ [data]) = m.events frags ++ m'.parseEvents data := by
  induction frags generalizing m with
  | nil =>
    cases h
    simp only [List.nil_append, events]
    cases m'.parseFromArray data <;> simp
  | cons d rest ih =>
    obtain ⟨r, hr, h⟩ := Option.bind_eq_some_iff.mp h
    simp only [List.cons_append, events, hr, ih h, List.append_assoc]

/-- What successive calls of `parse_from_array` do. -/
theorem feed_spec {m m' : Message hp} {frags : List Text} (h : m.feed frags = some m') :
    m'.mType = m.mType ∧
    m'.mCompleted = (m.mCompleted || (m.events frags).any (·.2 = .messageComplete)) ∧
    m.shown.applyAll m.mType (m.events frags) = some m'.shown := by
  induction frags generalizing m with
  | nil =>
    cases h
    exact ⟨rfl, by simp [events], rfl⟩
  | cons data rest ih =>
    obtain ⟨r, hr, h⟩ := Option.bind_eq_some_iff.mp h
    obtain ⟨htype, hcompleted, hshown⟩ := parse_spec hr
    obtain ⟨htype', hcompleted', hshown'⟩ := ih h
    rw [htype] at htype' hshown'
    simp only [events, hr]
    refine ⟨htype', ?_, ?_⟩
    · rw [hcompleted', hcompleted, List.any_append, Bool.or_assoc]
    · rw [Shown.applyAll, List.foldlM_append]
      rw [Shown.applyAll] at hshown
      rw [hshown]
      exact hshown'

end Message

end Wish.Http
