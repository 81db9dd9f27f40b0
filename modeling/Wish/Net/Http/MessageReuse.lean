import Wish.Net.Http.MessageSplit

/-!
# One object for many messages

`on_message_begin_cb` does nothing, so what one message has left in the object is there for the
next one. `observed_again_iff`: what is seen of a message is what a new object would show of it
exactly when the message is the first one of its object.
-/

namespace Wish.Http

/-- What `url()`, `headers()`, `body()` and `is_completed()` give. -/
structure Observed where
  url : Text
  headers : OrdMap Text Text
  body : Text
  completed : Option Bool

/-- The callbacks for one message. -/
def Whole (cbs : List Callback) : Prop :=
  ∃ mid, cbs = .messageBegin :: mid ++ [.messageComplete] ∧ .messageBegin ∉ mid ∧
    .messageComplete ∉ mid

namespace Message

variable {hp : HttpParser}

def observed (m : Message hp) : Observed := ⟨m.url, m.headers, m.body, m.isCompleted⟩

/-- The members that the accessors of `Observed` read. -/
def kept (m : Message hp) : Stored × Bool := (m.stored, m.mCompleted)

theorem observed_eq {m m' : Message hp} (h : m.kept = m'.kept) : m.observed = m'.observed := by
  obtain ⟨hstored, hcompleted⟩ := Prod.mk.inj h
  have hurl : m.mUrl = m'.mUrl := congrArg Stored.url hstored
  have hheaders : m.mHeaders = m'.mHeaders := congrArg Stored.headers hstored
  have hbody : m.mBody = m'.mBody := congrArg Stored.body hstored
  simp only [observed, url, headers, body, isCompleted, hurl, hheaders, hbody, hcompleted]

def keep (st : Stored × Bool) (cb : Callback) : Option (Stored × Bool) :=
  (st.1.apply cb).map fun st' => (st', st.2 || cb = .messageComplete)

theorem kept_handle (m : Message hp) (cb : Callback) :
    (m.handle cb).map kept = keep m.kept cb := by
  have hstored := stored_handle m cb
  cases hm : m.handle cb with
  | none =>
    rw [hm] at hstored
    have hnone : m.stored.apply cb = none := hstored.symm
    simp [keep, kept, hnone]
  | some m' =>
    rw [hm] at hstored
    have hsome : m.stored.apply cb = some m'.stored := hstored.symm
    simp [keep, kept, hsome, completed_handle hm]

theorem kept_feed (m : Message hp) (frags : List Text) :
    (m.feed frags).map kept = (m.callbacks frags).foldlM keep m.kept := by
  rw [callbacks, List.foldlM_map]
  exact @feed_view hp (Stored × Bool) kept (fun st e => keep st e.2) (fun _ _ => rfl)
    (fun m cb => kept_handle m cb) m frags

theorem completed_feed {m m' : Message hp} {frags : List Text} (h : m.feed frags = some m') :
    m'.mCompleted = (m.mCompleted || (m.callbacks frags).any (· = .messageComplete)) := by
  rw [(feed_spec h).2.1, callbacks, List.any_map]
  rfl

end Message

/-- An object of the type `type` is given the fragments `fs`, in which the parser finds the
messages `before`, and then the fragments `gs` of another message, of which the first one is its
first byte. A parser that is behind whole messages goes on as a new one. -/
structure Stream (hp : HttpParser) (type : ParserType) (before : List (List Callback))
    (fs gs : List Text) : Prop where
  whole : ∀ cbs ∈ before, Whole cbs
  again : ∀ (s d s' d' n : Nat),
    (Message.new type s d : Message hp).callbacks (fs ++ gs.take n) =
      before.flatten ++ (Message.new type s' d' : Message hp).callbacks (gs.take n)
  first : ∀ s d, (Message.new type s d : Message hp).callbacks (gs.take 1) = [.messageBegin]
  fed : ∀ s d, ((Message.new type s d : Message hp).feed (fs ++ gs.take 1)).isSome ∧
    ((Message.new type s d : Message hp).feed (gs.take 1)).isSome

/-- From the first byte of the message on, the object shows what a new one would. -/
def Again (hp : HttpParser) (type : ParserType) (fs gs : List Text) : Prop :=
  ∀ s d s' d' n, 0 < n →
    ((Message.new type s d : Message hp).feed (fs ++ gs.take n)).map Message.observed =
      ((Message.new type s' d' : Message hp).feed (gs.take n)).map Message.observed

variable {hp : HttpParser} {type : ParserType} {before : List (List Callback)}
  {fs gs : List Text}

theorem Stream.map_kept (h : Stream hp type [] fs gs) (s d s' d' n : Nat) :
    ((Message.new type s d : Message hp).feed (fs ++ gs.take n)).map Message.kept =
      ((Message.new type s' d' : Message hp).feed (gs.take n)).map Message.kept := by
  rw [Message.kept_feed, Message.kept_feed, h.again s d s' d' n]
  rfl

/-- **Only the first message** of an object is seen as by a new object. -/
theorem observed_again_iff (h : Stream hp type before fs gs) :
    Again hp type fs gs ↔ before = [] := by
  constructor
  · intro hagain
    by_contra hne
    obtain ⟨cbs, rest, rfl⟩ := List.exists_cons_of_ne_nil hne
    obtain ⟨hfs, hgs⟩ := h.fed 0 0
    obtain ⟨m, hm⟩ := Option.isSome_iff_exists.mp hfs
    obtain ⟨m', hm'⟩ := Option.isSome_iff_exists.mp hgs
    -- the message before is complete, a new object has nothing
    have hdone : m.mCompleted = true := by
      obtain ⟨mid, hcbs, -, -⟩ := h.whole cbs List.mem_cons_self
      rw [Message.completed_feed hm, h.again 0 0 0 0 1, hcbs]
      simp
    have hnew : m'.isCompleted = none := by
      have hkept := Message.kept_feed (Message.new type 0 0 : Message hp) (gs.take 1)
      rw [hm', h.first] at hkept
      have heq : m'.kept = (.empty, false) := Option.some.inj hkept
      obtain ⟨hstored, hcompleted⟩ := Prod.mk.inj heq
      have hheaders : m'.mHeaders = .empty := congrArg Stored.headers hstored
      rw [Message.isCompleted, hcompleted, hheaders]
      rfl
    have hsame := hagain 0 0 0 0 1 Nat.zero_lt_one
    rw [hm, hm'] at hsame
    have hcompleted : m.isCompleted = m'.isCompleted :=
      congrArg Observed.completed (Option.some.inj hsame)
    rw [hnew, Message.isCompleted, hdone] at hcompleted
    cases hcompleted
  · rintro rfl s d s' d' n -
    have hkept := h.map_kept s d s' d' n
    cases hm : (Message.new type s d : Message hp).feed (fs ++ gs.take n) with
    | none =>
      rw [hm] at hkept
      rw [Option.map_none, Option.map_eq_none_iff.mp hkept.symm]
      rfl
    | some m =>
      rw [hm] at hkept
      obtain ⟨m', hm', heq⟩ := Option.map_eq_some_iff.mp hkept.symm
      rw [hm', Option.map_some, Option.map_some, Message.observed_eq heq]

/-! ## Two requests -/

namespace TwoRequests

open CutUrl (method version fields fieldsCut)

def get (url : Text) : Text := method ++ url ++ version

def callbacks (url : Text) : List Callback :=
  [.messageBegin, .url url, .headersComplete, .messageComplete]

/-- `GET /a`, `GET /b` and the first byte of another request. -/
def parser : HttpParser := .ofTable [
  (get ['/', 'a'], fields, callbacks ['/', 'a']),
  (get ['/', 'b'], fields, callbacks ['/', 'b']),
  (['G'], fieldsCut, [.messageBegin])]

def message : Message parser := .new .request 0 0

end TwoRequests

open TwoRequests in
theorem not_again_get : ¬ Again parser .request [get ['/', 'a']] [['G']] := by
  have hstream : Stream parser .request [callbacks ['/', 'a']] [get ['/', 'a']] [['G']] := by
    refine ⟨fun cbs hcbs => ?_, fun s d s' d' n => ?_, fun _ _ => rfl, fun _ _ => ⟨rfl, rfl⟩⟩
    · rw [List.mem_singleton.mp hcbs]
      exact ⟨[.url ['/', 'a'], .headersComplete], rfl, by decide, by decide⟩
    · cases n with
      | zero => rfl
      | succ n => cases n <;> rfl
  intro h
  cases (observed_again_iff hstream).mp h

open TwoRequests in
/-- At the first byte of a request, `url()` is that of the request before it. -/
theorem not_observed_again :
    (message.feed [get ['/', 'a'], ['G']]).map Message.url = some ['/', 'a'] ∧
    (message.feed [get ['/', 'b'], ['G']]).map Message.url = some ['/', 'b'] ∧
    ¬ Again parser .request [get ['/', 'a']] [['G']] := by
  refine ⟨by decide, by decide, fun h => ?_⟩
  have hurl := congrArg (Option.map Observed.url) (h 0 0 0 0 1 Nat.zero_lt_one)
  exact absurd hurl (by decide)

end Wish.Http
