import Wish.Net.Http.Message

/-!
# Items delivered in pieces

Each callback of `wish::http::message` overwrites what the one before it stored, and the
parser may deliver one item in several callbacks: `message_split` says when the item stored
is the item delivered, and when the cutting of a whole message does not show.
-/

namespace Wish.Http

/-- The items a message is delivered in. -/
inductive Item where
  | url
  | headerField
  | headerValue
  | body
  deriving DecidableEq, Repr

def Item.callback : Item → Text → Callback
  | .url => .url
  | .headerField => .headerField
  | .headerValue => .headerValue
  | .body => .body

/-- All pieces but the last are empty, so that the last one is the whole item. -/
def OnePiece (pieces : List Text) : Prop := ∀ p ∈ pieces.dropLast, p = []

/-- The pieces joined to one, if there are any. -/
def join (pieces : List Text) : List Text := if pieces = [] then [] else [pieces.flatten]

namespace Stored

/-- The item as it is stored. -/
def item (st : Stored) : Item → Option Text
  | .url => some st.url
  | .headerField => some st.lastHeaderField
  | .headerValue => st.headers.get? st.lastHeaderField
  | .body => some st.body

/-- One callback for each piece of an item. -/
def deliver (st : Stored) (item : Item) (pieces : List Text) : Option Stored :=
  st.applyAll (pieces.map item.callback)

theorem item_apply {st st' : Stored} {item : Item} {p : Text}
    (h : st.apply (item.callback p) = some st') : st'.item item = some p := by
  cases item with
  | headerValue =>
    simp only [Item.callback, apply, Option.ite_none_left_eq_some, Option.some.injEq] at h
    obtain ⟨-, rfl⟩ := h
    simp [Stored.item]
  | _ =>
    cases h
    rfl

/-- A piece overwrites the piece before it. -/
theorem apply_apply (st : Stored) (item : Item) (p q : Text) :
    ((st.apply (item.callback p)).bind fun st' => st'.apply (item.callback q)) =
      st.apply (item.callback q) := by
  cases item with
  | headerValue =>
    by_cases hf : st.lastHeaderField = []
    · simp [Item.callback, apply, hf]
    · have hset : (st.headers.set st.lastHeaderField p).set st.lastHeaderField q =
          st.headers.set st.lastHeaderField q :=
        OrdMap.ext_get? fun k => by by_cases hk : k = st.lastHeaderField <;> simp [hk]
      simp [Item.callback, apply, hf, hset]
  | _ => rfl

/-- Only the last piece counts. -/
theorem deliver_append (st : Stored) (item : Item) (pieces : List Text) (p : Text) :
    st.deliver item (pieces ++ [p]) = st.apply (item.callback p) := by
  induction pieces generalizing st with
  | nil => simp [deliver, applyAll]
  | cons q qs ih =>
    rw [List.cons_append]
    simp only [deliver, List.map_cons, applyAll_cons] at ih ⊢
    rw [← apply_apply st item q p]
    exact Option.bind_congr fun st' _ => ih st'

theorem apply_isSome {st : Stored} {item : Item} {p : Text}
    (h : item = .headerValue → st.lastHeaderField ≠ []) :
    ∃ st', st.apply (item.callback p) = some st' := by
  cases item with
  | headerValue => exact ⟨_, if_neg (h rfl)⟩
  | _ => exact ⟨_, rfl⟩

/-- The item stored is the concatenation of its pieces exactly when they come in one piece. -/
theorem item_deliver_iff {st : Stored} {item : Item} {pieces : List Text} (hne : pieces ≠ [])
    (hfield : item = .headerValue → st.lastHeaderField ≠ []) :
    ((st.deliver item pieces).bind fun st' => st'.item item) = some pieces.flatten ↔
      OnePiece pieces := by
  obtain ⟨qs, p, rfl⟩ : ∃ qs p, pieces = qs ++ [p] :=
    ⟨_, _, (List.dropLast_append_getLast hne).symm⟩
  obtain ⟨st', hst'⟩ := apply_isSome (p := p) hfield
  rw [deliver_append, hst', Option.bind_some, item_apply hst', Option.some.injEq, OnePiece,
    List.dropLast_concat, List.flatten_append, List.flatten_singleton]
  constructor
  · intro h
    have hlen := congrArg List.length h
    rw [List.length_append] at hlen
    exact List.flatten_eq_nil_iff.mp (List.length_eq_zero_iff.mp (by omega))
  · intro h
    rw [List.flatten_eq_nil_iff.mpr h, List.nil_append]

theorem deliver_join {st : Stored} {item : Item} {pieces : List Text} (h : OnePiece pieces) :
    st.deliver item pieces = st.deliver item (join pieces) := by
  by_cases hne : pieces = []
  · simp [hne, join]
  · obtain ⟨qs, p, rfl⟩ : ∃ qs p, pieces = qs ++ [p] :=
      ⟨_, _, (List.dropLast_append_getLast hne).symm⟩
    rw [OnePiece, List.dropLast_concat] at h
    have hjoin : join (qs ++ [p]) = [] ++ [p] := by
      simp [join, List.flatten_eq_nil_iff.mpr h]
    rw [hjoin, deliver_append, deliver_append]

end Stored

/-! ## A whole message -/

/-- The items of a message in the order in which they come (a body or a header after the body
included), each with the pieces it is delivered in. -/
abbrev Delivery := List (Item × List Text)

namespace Delivery

def callbacks (d : Delivery) : List Callback := d.flatMap fun e => e.2.map e.1.callback

/-- The same items, each in one callback. -/
def whole (d : Delivery) : Delivery := d.map fun e => (e.1, join e.2)

/-- Every item comes in one piece. -/
def InOnePiece (d : Delivery) : Prop := ∀ e ∈ d, OnePiece e.2

end Delivery

/-- The callbacks that carry an item. -/
def Callback.isData : Callback → Bool
  | .url _ | .headerField _ | .headerValue _ | .body _ => true
  | _ => false

namespace Stored

theorem apply_of_not_isData (st : Stored) {cb : Callback} (h : cb.isData = false) :
    st.apply cb = some st := by
  cases cb <;> first | rfl | cases h

theorem applyAll_filter (st : Stored) (cbs : List Callback) :
    st.applyAll (cbs.filter Callback.isData) = st.applyAll cbs := by
  induction cbs generalizing st with
  | nil => rfl
  | cons cb cbs ih =>
    by_cases hcb : cb.isData = true
    · rw [List.filter_cons_of_pos hcb, applyAll_cons, applyAll_cons]
      exact Option.bind_congr fun st' _ => ih st'
    · rw [List.filter_cons_of_neg hcb, applyAll_cons,
        apply_of_not_isData st (Bool.eq_false_of_not_eq_true hcb)]
      exact ih st

theorem applyAll_whole (st : Stored) {d : Delivery} (h : d.InOnePiece) :
    st.applyAll d.callbacks = st.applyAll d.whole.callbacks := by
  induction d generalizing st with
  | nil => rfl
  | cons e d ih =>
    have hitem : st.deliver e.1 e.2 = st.deliver e.1 (join e.2) :=
      deliver_join (h e List.mem_cons_self)
    simp only [Delivery.callbacks, Delivery.whole, List.map_cons, List.flatMap_cons,
      applyAll_append] at ih ⊢
    rw [deliver, deliver] at hitem
    rw [hitem]
    exact Option.bind_congr fun st' _ => ih st' fun e' he' => h e' (List.mem_cons_of_mem _ he')

end Stored

/-- The item stored is the concatenation of its pieces exactly when they come in one piece;
and if every item of a message does, `url()`, `headers()` and `body()` are the same as after
a delivery of each item in one callback, however the message was cut. -/
theorem message_split (hp : HttpParser) (type : ParserType) (s d : Nat) :
    (∀ (st : Stored) (item : Item) (pieces : List Text), pieces ≠ [] →
      (item = .headerValue → st.lastHeaderField ≠ []) →
      (((st.deliver item pieces).bind fun st' => st'.item item) = some pieces.flatten ↔
        OnePiece pieces)) ∧
    ∀ (frags frags' : List Text) (del : Delivery),
      ((Message.new type s d : Message hp).callbacks frags).filter Callback.isData =
        del.callbacks →
      ((Message.new type s d : Message hp).callbacks frags').filter Callback.isData =
        del.whole.callbacks →
      del.InOnePiece →
      ((Message.new type s d : Message hp).feed frags).map Message.stored =
        ((Message.new type s d : Message hp).feed frags').map Message.stored := by
  refine ⟨fun st item pieces hne hfield => Stored.item_deliver_iff hne hfield, ?_⟩
  intro frags frags' del hcut hwhole hone
  rw [Message.stored_feed, Message.stored_feed, ← Stored.applyAll_filter, hcut,
    ← Stored.applyAll_filter _ (Message.callbacks _ frags'), hwhole]
  exact Stored.applyAll_whole _ hone

/-! ## A request cut inside its url -/

namespace CutUrl

def method : Text := ['G', 'E', 'T', ' ']

def version : Text := [' ', 'H', 'T', 'T', 'P', '/', '1', '.', '1', '\r', '\n', '\r', '\n']

def fields : ParserFields := ⟨.request, 1, 1, 0, 1, 0⟩

/-- Before the version has been parsed. -/
def fieldsCut : ParserFields := ⟨.request, 0, 0, 0, 1, 0⟩

/-- `GET /ab HTTP/1.1`, in one buffer, cut after `/a` and cut after `GET `. -/
def parser : HttpParser := .ofTable [
  (method ++ ['/', 'a', 'b'] ++ version, fields,
    [.messageBegin, .url ['/', 'a', 'b'], .headersComplete, .messageComplete]),
  (method ++ ['/', 'a'], fieldsCut, [.messageBegin, .url ['/', 'a']]),
  (['b'] ++ version, fields, [.url ['b'], .headersComplete, .messageComplete]),
  (method, fieldsCut, [.messageBegin]),
  (['/', 'a', 'b'] ++ version, fields,
    [.url ['/', 'a', 'b'], .headersComplete, .messageComplete])]

def message : Message parser := .new .request 0 0

end CutUrl

open CutUrl in
theorem message_split_method :
    (CutUrl.message.feed [method, ['/', 'a', 'b'] ++ version]).map Message.stored =
      (CutUrl.message.feed [method ++ ['/', 'a', 'b'] ++ version]).map Message.stored ∧
    ((Stored.empty.deliver .url [['/', 'a']]).bind fun st => st.item .url) =
      some [['/', 'a']].flatten :=
  ⟨(message_split CutUrl.parser .request 0 0).2 _ _ [(.url, [['/', 'a', 'b']])]
      (by decide) (by decide) (by simp [Delivery.InOnePiece, OnePiece]),
    ((message_split CutUrl.parser .request 0 0).1 .empty .url [['/', 'a']] (by decide)
      (by decide)).mpr (by simp [OnePiece])⟩

open CutUrl in
/-- Cut after `/a`, the url is `b`. -/
theorem not_message_split_url :
    (CutUrl.message.feed [method ++ ['/', 'a'], ['b'] ++ version]).map Message.url =
      some ['b'] ∧
    (CutUrl.message.feed [method ++ ['/', 'a', 'b'] ++ version]).map Message.url =
      some ['/', 'a', 'b'] ∧
    ((Stored.empty.deliver .url [['/', 'a'], ['b']]).bind fun st => st.item .url) ≠
      some [['/', 'a'], ['b']].flatten := by
  refine ⟨?_, ?_, ?_⟩ <;> decide

end Wish.Http
