import Wish.Net.Http.MessageReuse
import Mathlib.Data.List.DropRight

/-!
# When `is_completed()` may be asked

The client calls it after every fragment. It reads behind the end of the map where no `Connection`
has been stored, takes a `Connection: close` for the end of the message, and stays true when
another message has begun. `truthful_iff` says in which states it does none of this.
-/

namespace Wish.Http

/-- The callbacks for the message that is being received. -/
def current (cbs : List Callback) : List Callback := cbs.rtakeWhile (· ≠ .messageBegin)

/-- The callbacks after the last `on_message_complete`. -/
def sinceComplete (cbs : List Callback) : List Callback := cbs.rtakeWhile (· ≠ .messageComplete)

/-- After a message either its end or the beginning of another one comes last. -/
theorem complete_mem_current {cbs : List Callback} (h : .messageComplete ∈ cbs) :
    .messageComplete ∈ current cbs ↔ .messageBegin ∉ sinceComplete cbs := by
  induction cbs using List.reverseRecOn with
  | nil => cases h
  | append_singleton cbs cb ih =>
    by_cases hc : cb = .messageComplete
    · subst hc
      simp [current, sinceComplete]
    by_cases hb : cb = .messageBegin
    · subst hb
      simp [current, sinceComplete]
    have hmem : .messageComplete ∈ cbs := by
      rcases List.mem_append.mp h with hmem | hlast
      · exact hmem
      · exact absurd (List.mem_singleton.mp hlast).symm hc
    have hcurrent : current (cbs ++ [cb]) = current cbs ++ [cb] :=
      List.rtakeWhile_concat_pos _ _ _ (decide_eq_true hb)
    have hsince : sinceComplete (cbs ++ [cb]) = sinceComplete cbs ++ [cb] :=
      List.rtakeWhile_concat_pos _ _ _ (decide_eq_true hc)
    rw [hcurrent, hsince, List.mem_append, List.mem_append, List.mem_singleton,
      List.mem_singleton, or_iff_left (Ne.symm hc), or_iff_left (Ne.symm hb)]
    exact ih hmem

namespace Message

variable {hp : HttpParser} {m : Message hp}

/-- `is_completed()` is defined after these callbacks, and true only if the message that is being
received has come to its end. -/
def Truthful (m : Message hp) (cbs : List Callback) : Prop :=
  ∃ b, m.isCompleted = some b ∧ (b = true → .messageComplete ∈ current cbs)

/-- No message has begun after a complete one, and before that there is a `Connection` other than
`close`. -/
def Answerable (m : Message hp) (cbs : List Callback) : Prop :=
  if .messageComplete ∈ cbs then .messageBegin ∉ sinceComplete cbs
  else ∃ value, m.headers.get? connection = some value ∧ value ≠ close

theorem isCompleted_of_completed (h : m.mCompleted = true) : m.isCompleted = some true := by
  rw [isCompleted, if_pos h]

theorem isCompleted_of_not_completed (h : ¬ m.mCompleted = true) :
    m.isCompleted = (m.headers.get? connection).map fun value => decide (value = close) := by
  rw [isCompleted, if_neg h]
  rfl

/-- **`is_completed()` is truthful** in exactly these states. -/
theorem truthful_iff {type : ParserType} {s d : Nat} {frags : List Text}
    (h : (Message.new type s d : Message hp).feed frags = some m) :
    Truthful m ((Message.new type s d : Message hp).callbacks frags) ↔
      Answerable m ((Message.new type s d : Message hp).callbacks frags) := by
  have hdone : m.mCompleted = true ↔
      .messageComplete ∈ (Message.new type s d : Message hp).callbacks frags := by
    rw [completed_feed h]
    simp [Message.new]
  generalize (Message.new type s d : Message hp).callbacks frags = cbs at hdone ⊢
  unfold Truthful Answerable
  by_cases hc : .messageComplete ∈ cbs
  · rw [if_pos hc, isCompleted_of_completed (hdone.mpr hc), ← complete_mem_current hc]
    constructor
    · intro ⟨b, hb, htrue⟩
      exact htrue (Option.some.inj hb).symm
    · exact fun hcurrent => ⟨true, rfl, fun _ => hcurrent⟩
  · rw [if_neg hc, isCompleted_of_not_completed (hdone.not.mpr hc)]
    have hcurrent : .messageComplete ∉ current cbs := fun hm =>
      hc ((List.rtakeWhile_suffix _ _).subset hm)
    cases m.headers.get? connection with
    | none =>
      constructor
      · intro ⟨b, hb, _⟩
        cases hb
      · intro ⟨value, hvalue, _⟩
        cases hvalue
    | some value =>
      constructor
      · intro ⟨b, hb, htrue⟩
        refine ⟨value, rfl, fun hclose => hcurrent (htrue ?_)⟩
        rw [← Option.some.inj hb]
        exact decide_eq_true hclose
      · intro ⟨w, hw, hne⟩
        cases hw
        refine ⟨false, ?_, nofun⟩
        rw [Option.map_some, decide_eq_false hne]

end Message

/-! ## Responses in pieces -/

namespace InPieces

def statusLine : Text :=
  ['H', 'T', 'T', 'P', '/', '1', '.', '1', ' ', '2', '0', '0', ' ', 'O', 'K', '\r', '\n']

def keepAlive : Text := ['k', 'e', 'e', 'p', '-', 'a', 'l', 'i', 'v', 'e']

/-- The header `Connection`. -/
def header (value : Text) : Text := Message.connection ++ [':', ' '] ++ value ++ ['\r', '\n']

def contentLength : Text :=
  ['C', 'o', 'n', 't', 'e', 'n', 't', '-', 'L', 'e', 'n', 'g', 't', 'h']

/-- The rest of a message without a body. -/
def rest : Text := contentLength ++ [':', ' ', '0', '\r', '\n', '\r', '\n']

def fields : ParserFields := ⟨.response, 1, 1, 200, 0, 0⟩

def parser : HttpParser := .ofTable [
  (statusLine, fields, [.messageBegin, .status ['O', 'K']]),
  (header keepAlive, fields, [.headerField Message.connection, .headerValue keepAlive]),
  (header Message.close, fields, [.headerField Message.connection, .headerValue Message.close]),
  (rest, fields, [.headerField contentLength, .headerValue ['0'], .headersComplete,
    .messageComplete])]

def message : Message parser := .new .response 0 0

/-- After these fragments `is_completed()` is not truthful. -/
def Misleading (frags : List Text) : Prop :=
  ∃ m, message.feed frags = some m ∧ ¬ m.Truthful (message.callbacks frags)

theorem misleading {frags : List Text} {c : Option Bool}
    (h : (message.feed frags).map Message.isCompleted = some c)
    (hc : c = some true → .messageComplete ∉ current (message.callbacks frags))
    (hfalse : c ≠ some false) : Misleading frags := by
  obtain ⟨m, hm, rfl⟩ := Option.map_eq_some_iff.mp h
  refine ⟨m, hm, fun ⟨b, hb, htrue⟩ => ?_⟩
  cases b with
  | false => exact hfalse hb
  | true => exact hc hb (htrue rfl)

end InPieces

open InPieces in
/-- Before any header, after a `Connection: close`, and at the beginning of a second message. -/
theorem not_truthful_pieces : Misleading [statusLine] ∧
    Misleading [statusLine, header Message.close] ∧
    Misleading [statusLine, rest, statusLine] := by
  refine ⟨?_, ?_, ?_⟩
  · exact misleading (c := none) (by decide +kernel) nofun nofun
  · exact misleading (c := some true) (by decide +kernel) (fun _ => by decide +kernel) nofun
  · exact misleading (c := some true) (by decide +kernel) (fun _ => by decide +kernel) nofun

open InPieces in
theorem truthful_iff_keepAlive : ∃ m, message.feed [statusLine, header keepAlive] = some m ∧
    m.isCompleted = some false ∧
      m.Truthful (message.callbacks [statusLine, header keepAlive]) := by
  refine ⟨_, rfl, by decide, (Message.truthful_iff rfl).mpr ?_⟩
  exact (if_neg (by decide)).mpr ⟨keepAlive, by decide, by decide⟩

end Wish.Http
