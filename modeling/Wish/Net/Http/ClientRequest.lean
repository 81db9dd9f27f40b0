import Wish.Net.Http.Client
import Wish.Net.Http.UriQuery
import Mathlib.Data.List.DropRight

/-!
# The requests of `wish::http::client`

`request` in its two forms, as one thread calls them one after the other. The first form composes
an object of a URL, without looking at what `parse_from_array` returns; the second one gets an
object of the caller by reference and fills it in.

* `targeted_iff`: the URLs that give a request line its target.
* `framed_iff`: the runs in which every text sent has one `Content-Length`, which is that of its
  body. The texts of the caller may have line ends in them, so the lines of a message are counted,
  not its headers.
-/

namespace Wish.Http

/-- `c_str()` -/
def cStr (s : Text) : Text := s.takeWhile (· != NUL)

namespace Request

/-- The object that `request(method, url, headers, body)` makes. It has no use for `path` and
`params`, and neither does the other form. -/
def ofUri (_uri : Uri) (method : Text) (headers : OrdMap Text Text) (body : Text) : Request where
  version := ['1', '.', '1']
  url := _uri.url
  method := method
  headers := headers
  body := body

/-- `request(ip, port, req)`: the object as it is left, and the text given to `send_msg`. Where
there is no session and `sync_connect` fails, it throws at once. -/
def request (connected : Bool) (req : Request) : Request × Option Text :=
  if connected then (req.complete, some req.complete.text) else (req, none)

/-- `request(method, url, headers, body)`: whether it gets a connection depends on the host and
the port. -/
def requestUrl (connects : Text → UInt16 → Bool) (mPort : UInt16) (method url : Text)
    (headers : OrdMap Text Text) (body : Text) : Option Text :=
  let _uri := ((Uri.new mPort).parseFromArray (cStr url)).2
  (request (connects _uri.host _uri.port) (ofUri _uri method headers body)).2

/-- What that one sends, if it sends anything. -/
def ofUrl (mPort : UInt16) (method url : Text) (headers : OrdMap Text Text) (body : Text) :
    Request :=
  (ofUri ((Uri.new mPort).parseFromArray (cStr url)).2 method headers body).complete

/-! ## The request line -/

def line (method target version : Text) : Text :=
  method ++ [' '] ++ target ++ [' ', 'H', 'T', 'T', 'P', '/'] ++ version ++ crlf

/-- What follows the request line. -/
def rest (req : Request) : Text :=
  (req.headers.entries.flatMap fun head => head.1 ++ [':', ' '] ++ head.2 ++ crlf) ++
    crlf ++ req.body

theorem text_eq (req : Request) : req.text = line req.method req.url req.version ++ req.rest := by
  simp only [text, line, rest, List.append_assoc]

end Request

def isControl (c : Char) : Bool := c.toNat < 32 || c.toNat = 127

/-- What a request may ask for. -/
structure Target (t : Text) : Prop where
  absolute : t.head? = some '/'
  clean : ∀ c ∈ t, c ≠ ' ' ∧ c ≠ '#' ∧ ¬ isControl c

/-- The text has a target between the method and the version. -/
def Targeted (req : Request) (text : Text) : Prop :=
  ∃ target, text = Request.line req.method target req.version ++ req.rest ∧ Target target

theorem targeted_text_iff (req : Request) : Targeted req req.text ↔ Target req.url := by
  constructor
  · intro ⟨target, heq, htarget⟩
    rw [Request.text_eq, List.append_cancel_right_eq, Request.line, Request.line] at heq
    simp only [List.append_assoc, List.append_cancel_left_eq] at heq
    simp only [← List.append_assoc, List.append_cancel_right_eq] at heq
    rwa [heq]
  · intro htarget
    exact ⟨req.url, req.text_eq, htarget⟩

theorem url_parse (m : UInt16) (url : Text) : ((Uri.new m).parseFromArray url).2.url =
    if (found url).accepted then behind url else [] := by
  rw [parse_eq]
  unfold Uri.url Uri.assign found
  simp only
  cases (Found.queryPairs url).1 with
  | true => rfl
  | false => rfl

theorem requestUrl_eq (connects : Text → UInt16 → Bool) (m : UInt16) (method url : Text)
    (headers : OrdMap Text Text) (body : Text) :
    Request.requestUrl connects m method url headers body =
      if connects (found (cStr url)).host (found (cStr url)).port then
        some (Request.ofUrl m method url headers body).text
      else none := by
  have hhost : ((Uri.new m).parseFromArray (cStr url)).2.host = (found (cStr url)).host := by
    rw [parse_eq]
    rfl
  have hport : ((Uri.new m).parseFromArray (cStr url)).2.port = (found (cStr url)).port := by
    rw [parse_eq]
    rfl
  unfold Request.requestUrl Request.request
  simp only [hhost, hport]
  split
  · rfl
  · rfl

theorem not_target_nil : ¬ Target [] := fun h => by cases h.absolute

/-- The text behind the first `?`. -/
def queryOf (r : Text) : Text := (r.dropWhile (· != '?')).drop 1

/-- Behind the last `'@'` or `"://"` of the URL, or from its beginning where it has none, there are
the host and its port and then, from a `'/'` on, a target whose query is made of pairs. -/
def Sendable (url : Text) : Prop :=
  ∃ pre host r, url = pre ++ (host ++ r) ∧ MarkEnd pre ∧ Unmarked (host ++ r) ∧
    (∀ c ∈ host, ¬ Uri.isDelimiter c) ∧ Target r ∧ ∀ s ∈ segments (queryOf r), Taken s

theorem dropWhile_of_not_mem {t : Text} (h : '#' ∉ t) :
    t.dropWhile (fun c => c != '?' && c != '#') = t.dropWhile (· != '?') := by
  induction t with
  | nil => rfl
  | cons c t ih =>
    have hc : c ≠ '#' := by
      rintro rfl
      exact h List.mem_cons_self
    rw [List.dropWhile_cons, List.dropWhile_cons, ih fun hmem => h (List.mem_cons_of_mem c hmem),
      bne_iff_ne.mpr hc, Bool.and_true]

/-- Without a fragment the query goes on to the end. -/
theorem seen_eq_queryOf {url : Text} (h : Target (behind url)) :
    seen url = queryOf (behind url) := by
  unfold seen Found.queryPart Found.pathPart queryOf
  have habsolute := h.absolute
  have hhash : '#' ∉ behind url := fun hmem => (h.clean '#' hmem).2.1 rfl
  generalize behind url = r at habsolute hhash
  cases r with
  | nil => rfl
  | cons c p =>
    obtain rfl : c = '/' := Option.some.inj habsolute
    have hp : '#' ∉ p := fun hmem => hhash (List.mem_cons_of_mem _ hmem)
    have hslash : ('/' :: p).dropWhile (· != '?') = p.dropWhile (· != '?') := rfl
    rw [Found.part, dropWhile_of_not_mem hp, hslash]
    have hdrop : '#' ∉ p.dropWhile (· != '?') := fun hmem => hp ((List.dropWhile_sublist _).mem hmem)
    generalize p.dropWhile (· != '?') = q at hdrop
    cases q with
    | nil => rfl
    | cons c q =>
      rw [Found.part, Option.getD_some, List.drop_one, List.tail_cons,
        List.takeWhile_eq_self_iff]
      intro d hd
      rw [bne_iff_ne]
      rintro rfl
      exact hdrop (List.mem_cons_of_mem c hd)

theorem found_accepted_iff (url : Text) :
    (found url).accepted = true ↔ ∀ s ∈ segments (seen url), Taken s := by
  have hiff := accepted_iff (Uri.new 0) url
  rwa [parse_eq] at hiff

/-- What the parser finds is what there is. -/
theorem sendable_iff (url : Text) :
    Sendable url ↔ (found url).accepted = true ∧ Target (behind url) := by
  constructor
  · rintro ⟨pre, host, r, rfl, hpre, hun, hhost, htarget, hpairs⟩
    have hdelimiter : ∀ c ∈ r.head?, Uri.isDelimiter c := by
      intro c hc
      rw [htarget.absolute] at hc
      cases hc
      decide
    have hbehind : behind (pre ++ (host ++ r)) = r := by
      rw [behind, head_eq_of_markEnd hpre hun]
      refine (span_append (fun c hc => ?_) fun c hc => ?_).2
      · simpa using hhost c hc
      · simpa using hdelimiter c hc
    rw [found_accepted_iff, seen_eq_queryOf (by rwa [hbehind]), hbehind]
    exact ⟨hpairs, htarget⟩
  · rintro ⟨haccepted, htarget⟩
    obtain ⟨pre, hpre, hhead, hun⟩ := Found.head_text (.nil url)
    rw [← authority_behind] at hpre hun
    rw [found_accepted_iff, seen_eq_queryOf htarget] at haccepted
    exact ⟨pre, authority url, behind url, hpre, hhead.markEnd, hun, authority_plain url, htarget,
      haccepted⟩

/-- **The request line has its target** exactly when nothing is sent, or the URL is sendable. -/
theorem targeted_iff (connects : Text → UInt16 → Bool) (m : UInt16) (method url : Text)
    (headers : OrdMap Text Text) (body : Text) :
    (∀ text ∈ Request.requestUrl connects m method url headers body,
      Targeted (.ofUrl m method url headers body) text) ↔
      (connects (found (cStr url)).host (found (cStr url)).port → Sendable (cStr url)) := by
  have hurl : (Request.ofUrl m method url headers body).url =
      if (found (cStr url)).accepted then behind (cStr url) else [] := url_parse m (cStr url)
  rw [requestUrl_eq, sendable_iff]
  cases connects (found (cStr url)).host (found (cStr url)).port with
  | false => simp
  | true =>
    simp only [if_true, Option.mem_some_iff, forall_eq', true_imp_iff, targeted_text_iff, hurl]
    cases (found (cStr url)).accepted with
    | true => simp
    | false => simpa using not_target_nil

/-- The host `h` alone: `GET  HTTP/1.1`. -/
theorem not_targeted :
    ¬ ∀ text ∈ Request.requestUrl (fun _ _ => true) 0 ['G', 'E', 'T'] ['h'] .empty [],
      Targeted (.ofUrl 0 ['G', 'E', 'T'] ['h'] .empty []) text := by
  intro h
  have htarget := (targeted_text_iff _).mp (h _ rfl)
  exact absurd htarget.absolute (by decide)

/-! ## The message -/

/-- The lines in front of the first empty one, and what is behind it, with the text of a line up
to here. A line ends in CRLF. -/
def linesFrom (cur : Text) : Text → List Text × Text
  | [] => ([cur], [])
  | '\r' :: '\n' :: p =>
    if cur = [] then ([], p) else (cur :: (linesFrom [] p).1, (linesFrom [] p).2)
  | c :: p => linesFrom (cur ++ [c]) p

/-- The name of a field, in lower case. -/
def fieldName (line : Text) : Text := (line.takeWhile (· != ':')).map Char.toLower

def isBlank (c : Char) : Bool := c = ' ' || c = '\t'

def fieldValue (line : Text) : Text :=
  (((line.dropWhile (· != ':')).drop 1).dropWhile isBlank).rdropWhile isBlank

/-- The value of a text of digits. -/
def decimal (t : Text) : Option Nat :=
  if t ≠ [] ∧ t.all Char.isDigit then some (Nat.ofDigitChars 10 t 0) else none

def IsContentLength (line : Text) : Prop := fieldName line = Request.contentLength.map Char.toLower

instance : DecidablePred IsContentLength := fun _ => inferInstanceAs (Decidable (_ = _))

/-- Behind the first empty line there is the body, and in front of it one `Content-Length`, which
says how long the body is. -/
def Framed (body text : Text) : Prop :=
  (linesFrom [] text).2 = body ∧
    ∃ line, (linesFrom [] text).1.tail.filter IsContentLength = [line] ∧
      decimal (fieldValue line) = some body.length

/-- The lines of a text, cut at each CRLF, with the text of a line up to here. -/
def cutFrom (cur : Text) : Text → List Text
  | [] => [cur]
  | '\r' :: '\n' :: p => cur :: cutFrom [] p
  | c :: p => cutFrom (cur ++ [c]) p

def cut (t : Text) : List Text := cutFrom [] t

theorem cutFrom_ne_nil (cur t : Text) : cutFrom cur t ≠ [] := by
  fun_induction cutFrom cur t with
  | case1 | case2 => exact List.cons_ne_nil _ _
  | case3 cur c p hcrlf ih => exact ih

theorem cutFrom_append (cur a b : Text) :
    cutFrom cur (a ++ (Request.crlf ++ b)) = cutFrom cur a ++ cut b := by
  fun_induction cutFrom cur a with
  | case1 cur => rfl
  | case2 cur p ih =>
    rw [List.cons_append, List.cons_append, cutFrom, ih]
    rfl
  | case3 cur c p hcrlf ih =>
    rw [List.cons_append, cutFrom, ih]
    intro q hc hq
    cases p with
    | nil => cases hq
    | cons d p =>
      obtain ⟨rfl, -⟩ := List.cons.inj hq
      exact hcrlf p hc rfl

theorem cut_append (a b : Text) : cut (a ++ (Request.crlf ++ b)) = cut a ++ cut b :=
  cutFrom_append [] a b

/-- A text without empty lines is in front of the first one. -/
theorem linesFrom_of_forall {cur t body : Text} (h : ∀ l ∈ cutFrom cur t, l ≠ []) :
    linesFrom cur (t ++ (Request.crlf ++ (Request.crlf ++ body))) = (cutFrom cur t, body) := by
  fun_induction cutFrom cur t with
  | case1 cur => exact if_neg (h cur List.mem_cons_self)
  | case2 cur p ih =>
    obtain ⟨hcur, hp⟩ := List.forall_mem_cons.mp h
    rw [List.cons_append, List.cons_append, linesFrom, if_neg hcur, ih hp]
  | case3 cur c p hcrlf ih =>
    rw [List.cons_append, linesFrom, ih h]
    intro q hc hq
    cases p with
    | nil => cases hq
    | cons d p =>
      obtain ⟨rfl, -⟩ := List.cons.inj hq
      exact hcrlf p hc rfl

/-- Behind an empty line within the text there is more than what follows the text. -/
theorem length_linesFrom_lt {cur t : Text} (body : Text) (h : [] ∈ cutFrom cur t) :
    body.length <
      (linesFrom cur (t ++ (Request.crlf ++ (Request.crlf ++ body)))).2.length := by
  fun_induction cutFrom cur t with
  | case1 cur =>
    obtain rfl := List.mem_singleton.mp h
    exact Nat.lt_succ_of_lt (Nat.lt_succ_self _)
  | case2 cur p ih =>
    rw [List.cons_append, List.cons_append, linesFrom]
    split
    · simp only [List.length_append]
      have hcrlf : 0 < Request.crlf.length := by decide
      omega
    · next hcur =>
      rcases List.mem_cons.mp h with rfl | h
      · exact absurd rfl hcur
      · exact ih h
  | case3 cur c p hcrlf ih =>
    rw [List.cons_append, linesFrom]
    · exact ih h
    · intro q hc hq
      cases p with
      | nil => cases hq
      | cons d p =>
        obtain ⟨rfl, -⟩ := List.cons.inj hq
        exact hcrlf p hc rfl

/-- One of a list is of a kind, and which. -/
theorem filter_eq_singleton {p : Text → Prop} [DecidablePred p] {xs ys : List Text} {x l : Text}
    (hx : p x) : (xs ++ x :: ys).filter p = [l] ↔ (∀ y ∈ xs, ¬ p y) ∧ (∀ y ∈ ys, ¬ p y) ∧ l = x := by
  have hcons : (x :: ys).filter p = x :: ys.filter p :=
    List.filter_cons_of_pos (by simpa using hx)
  rw [List.filter_append, hcons]
  constructor
  · intro h
    cases hxs : xs.filter p with
    | nil =>
      rw [hxs, List.nil_append] at h
      obtain ⟨rfl, hys⟩ := List.cons.inj h
      rw [List.filter_eq_nil_iff] at hxs hys
      exact ⟨by simpa using hxs, by simpa using hys, rfl⟩
    | cons y zs =>
      rw [hxs] at h
      have hlength := congrArg List.length h
      simp at hlength
  · rintro ⟨hxs, hys, rfl⟩
    rw [List.filter_eq_nil_iff.mpr (by simpa using hxs),
      List.filter_eq_nil_iff.mpr (by simpa using hys), List.nil_append]

namespace Request

/-- The text of a field. -/
def fieldLine (head : Text × Text) : Text := head.1 ++ [':', ' '] ++ head.2

/-- The request line, the version filled in. -/
def requestLine (req : Request) : Text :=
  req.method ++ [' '] ++ req.url ++ [' ', 'H', 'T', 'T', 'P', '/'] ++ req.complete.version

/-- No empty line in the head, in which the texts of the caller may end lines. -/
def Unbroken (req : Request) : Prop :=
  (∀ l ∈ cut req.requestLine, l ≠ []) ∧
    ∀ e ∈ req.headers.entries, ∀ l ∈ cut (fieldLine e), l ≠ []

/-- Of the lines of the head only the one that begins a field with the spelling of the client says
how long the body is, and says it right. -/
structure Consistent (req : Request) : Prop where
  line : ∀ l ∈ (cut req.requestLine).tail, ¬ IsContentLength l
  others : ∀ e ∈ req.headers.entries, e.1 ≠ contentLength →
    ∀ l ∈ cut (fieldLine e), ¬ IsContentLength l
  own : ∀ e ∈ req.headers.entries, e.1 = contentLength →
    (∀ l ∈ (cut (fieldLine e)).tail, ¬ IsContentLength l) ∧
      decimal (fieldValue ((cut (fieldLine e)).headD [])) = some req.body.length

/-- All lines of the head. -/
def headLines (req : Request) : List Text :=
  cut req.requestLine ++ req.complete.headers.entries.flatMap fun e => cut (fieldLine e)

/-- The head, its last CRLF left out. -/
def head (req : Request) : Text :=
  req.requestLine ++ req.complete.headers.entries.flatMap fun e => crlf ++ fieldLine e

theorem flatMap_crlf (es : List (Text × Text)) (t : Text) :
    crlf ++ ((es.flatMap fun e => fieldLine e ++ crlf) ++ t) =
      (es.flatMap fun e => crlf ++ fieldLine e) ++ (crlf ++ t) := by
  induction es with
  | nil => rfl
  | cons e es ih => simp only [List.flatMap_cons, List.append_assoc, ih]

theorem text_complete (req : Request) :
    req.complete.text = req.head ++ (crlf ++ (crlf ++ req.body)) := by
  show req.method ++ [' '] ++ req.url ++ [' ', 'H', 'T', 'T', 'P', '/'] ++ req.complete.version ++
    crlf ++ (req.complete.headers.entries.flatMap fun e => fieldLine e ++ crlf) ++ crlf ++
      req.body = _
  rw [head, requestLine]
  simp only [List.append_assoc]
  rw [flatMap_crlf]

theorem cut_flatMap (t : Text) (es : List (Text × Text)) :
    cut (t ++ es.flatMap fun e => crlf ++ fieldLine e) =
      cut t ++ es.flatMap fun e => cut (fieldLine e) := by
  induction es generalizing t with
  | nil => simp
  | cons e es ih =>
    rw [List.flatMap_cons, List.append_assoc, cut_append, ih, List.flatMap_cons]

theorem cut_head (req : Request) : cut req.head = req.headLines := cut_flatMap _ _

theorem isContentLength_line (v : Text) : IsContentLength (fieldLine (contentLength, v)) := rfl

theorem isBlank_of_isDigit {c : Char} (h : c.isDigit) : isBlank c = false := by
  by_contra hb
  simp only [Bool.not_eq_false, isBlank, Bool.or_eq_true, decide_eq_true_eq] at hb
  rcases hb with rfl | rfl
  all_goals exact absurd h (by decide)

theorem decimal_toDigits (n : Nat) :
    decimal (fieldValue (fieldLine (contentLength, Nat.toDigits 10 n))) = some n := by
  have hdigit : ∀ c ∈ Nat.toDigits 10 n, c.isDigit := fun c hc =>
    Nat.isDigit_of_mem_toDigits (by omega) (Nat.le_refl _) hc
  have hleft : (Nat.toDigits 10 n).dropWhile isBlank = Nat.toDigits 10 n := by
    rw [List.dropWhile_eq_self_iff]
    intro hl hb
    rw [isBlank_of_isDigit (hdigit _ (List.getElem_mem hl))] at hb
    cases hb
  have hright : (Nat.toDigits 10 n).rdropWhile isBlank = Nat.toDigits 10 n := by
    rw [List.rdropWhile_eq_self_iff]
    intro hl hb
    rw [isBlank_of_isDigit (hdigit _ (List.getLast_mem hl))] at hb
    cases hb
  have hvalue : fieldValue (fieldLine (contentLength, Nat.toDigits 10 n)) =
      ((Nat.toDigits 10 n).dropWhile isBlank).rdropWhile isBlank := rfl
  rw [hvalue, hleft, hright, decimal, if_pos ⟨Nat.toDigits_ne_nil, List.all_eq_true.mpr hdigit⟩,
    Nat.ofDigitChars_ten_toDigits]

theorem mem_complete {req : Request} {e : Text × Text} : e ∈ req.complete.headers.entries ↔
    e ∈ req.headers.entries ∨ req.headers.get? contentLength = none ∧
      e = (contentLength, Nat.toDigits 10 req.body.length) := by
  obtain ⟨k, v⟩ := e
  rw [← OrdMap.get?_eq_some_iff, ← OrdMap.get?_eq_some_iff, complete]
  simp only
  by_cases habsent : req.headers.get? contentLength = none
  · rw [if_pos habsent, OrdMap.get?_set]
    by_cases hk : k = contentLength
    · simp [hk, habsent, eq_comm]
    · simp [hk]
  · simp [habsent]

theorem exists_contentLength (req : Request) :
    ∃ v, (contentLength, v) ∈ req.complete.headers.entries := by
  cases h : req.headers.get? contentLength with
  | none => exact ⟨_, mem_complete.mpr (Or.inr ⟨h, rfl⟩)⟩
  | some v => exact ⟨v, mem_complete.mpr (Or.inl (OrdMap.get?_eq_some_iff.mp h))⟩

/-- A text of digits is one line. -/
theorem cut_digits {cur t : Text} (h : '\r' ∉ t) : cutFrom cur t = [cur ++ t] := by
  induction t generalizing cur with
  | nil => rw [List.append_nil, cutFrom]
  | cons c t ih =>
    rw [cutFrom, ih fun hmem => h (List.mem_cons_of_mem c hmem), ← List.append_cons]
    rintro q rfl -
    exact h List.mem_cons_self

theorem cut_contentLength (n : Nat) : cut (fieldLine (contentLength, Nat.toDigits 10 n)) =
    [fieldLine (contentLength, Nat.toDigits 10 n)] := by
  refine cut_digits fun hmem => ?_
  have hname : '\r' ∉ contentLength ++ [':', ' '] := by decide
  rw [fieldLine, List.mem_append] at hmem
  rcases hmem with hmem | hmem
  · exact hname hmem
  · exact absurd (Nat.isDigit_of_mem_toDigits (by omega) (Nat.le_refl _) hmem) (by decide)

/-- The first line of a text begins as the text does, up to its first CRLF. -/
theorem exists_cutFrom (cur t : Text) : ∃ l ls, cutFrom cur t = (cur ++ l) :: ls := by
  fun_induction cutFrom cur t with
  | case1 cur => exact ⟨[], [], by rw [List.append_nil]⟩
  | case2 cur p ih => exact ⟨[], cutFrom [] p, by rw [List.append_nil]⟩
  | case3 cur c p hcrlf ih =>
    obtain ⟨l, ls, h⟩ := ih
    exact ⟨c :: l, ls, by rw [h, List.append_assoc, List.singleton_append]⟩

/-- The first line of the client's field is one of its kind. -/
theorem cut_own (v : Text) : ∃ l ls, cut (fieldLine (contentLength, v)) = l :: ls ∧
    IsContentLength l := by
  obtain ⟨l, ls, h⟩ := exists_cutFrom (contentLength ++ [':', ' ']) v
  exact ⟨_, ls, h, isContentLength_line l⟩

theorem head_eq_own {req : Request} {v : Text} {e : Text × Text}
    (hv : (contentLength, v) ∈ req.complete.headers.entries)
    (he : e ∈ req.complete.headers.entries) (hkey : e.1 = contentLength) :
    e = (contentLength, v) := by
  have hget := OrdMap.get?_eq_some_iff.mpr he
  rw [hkey, OrdMap.get?_eq_some_iff.mpr hv] at hget
  exact Prod.ext hkey (Option.some.inj hget).symm

/-- There is no empty line in the head that is sent, if there is none in the caller's. -/
theorem forall_headLines_iff (req : Request) :
    (∀ l ∈ req.headLines, l ≠ []) ↔ req.Unbroken := by
  rw [headLines, List.forall_mem_append, Unbroken]
  refine and_congr_right fun _ => ?_
  simp only [List.forall_mem_flatMap]
  constructor
  · exact fun h e he => h e (mem_complete.mpr (Or.inl he))
  · intro h e he
    rcases mem_complete.mp he with he | ⟨-, rfl⟩
    · exact h e he
    · rw [cut_contentLength]
      intro l hl
      rw [List.mem_singleton.mp hl]
      exact List.append_ne_nil_of_left_ne_nil (by simp) _

/-- What is said of the other fields is said of those of the caller. -/
theorem forall_others_iff (req : Request) (P : Text × Text → Prop) :
    (∀ e ∈ req.complete.headers.entries, e.1 ≠ contentLength → P e) ↔
      ∀ e ∈ req.headers.entries, e.1 ≠ contentLength → P e := by
  constructor
  · exact fun h e he hne => h e (mem_complete.mpr (Or.inl he)) hne
  · intro h e he hne
    rcases mem_complete.mp he with he | ⟨-, rfl⟩
    · exact h e he hne
    · exact absurd rfl hne

/-- The lines of the `Content-Length` that is sent, and those of the caller's. -/
theorem own_iff {req : Request} {v l : Text} {ls : List Text}
    (hv : (contentLength, v) ∈ req.complete.headers.entries)
    (hcut : cut (fieldLine (contentLength, v)) = l :: ls) :
    (∀ e ∈ req.headers.entries, e.1 = contentLength →
      (∀ l ∈ (cut (fieldLine e)).tail, ¬ IsContentLength l) ∧
        decimal (fieldValue ((cut (fieldLine e)).headD [])) = some req.body.length) ↔
      (∀ l ∈ ls, ¬ IsContentLength l) ∧ decimal (fieldValue l) = some req.body.length := by
  constructor
  · intro h
    rcases mem_complete.mp hv with hreq | ⟨-, heq⟩
    · have hown := h _ hreq rfl
      rwa [hcut] at hown
    · obtain rfl := (Prod.mk.inj heq).2
      rw [cut_contentLength] at hcut
      obtain ⟨rfl, rfl⟩ := List.cons.inj hcut
      exact ⟨fun l hl => absurd hl List.not_mem_nil, decimal_toDigits _⟩
  · intro h e he hkey
    rw [head_eq_own hv (mem_complete.mpr (Or.inl he)) hkey, hcut]
    exact h

/-- The `Content-Length` is somewhere in the list, and there only. -/
theorem exists_own (req : Request) : ∃ v as bs,
    req.complete.headers.entries = as ++ (contentLength, v) :: bs ∧
      ∀ e, e ∈ as ∨ e ∈ bs ↔ e ∈ req.complete.headers.entries ∧ e.1 ≠ contentLength := by
  obtain ⟨v, hv⟩ := exists_contentLength req
  obtain ⟨as, bs, hsplit⟩ := List.append_of_mem hv
  have hsorted := req.complete.headers.sorted
  rw [hsplit, List.pairwise_append, List.pairwise_cons] at hsorted
  refine ⟨v, as, bs, hsplit, fun e => ?_⟩
  rw [hsplit, List.mem_append, List.mem_cons]
  constructor
  · rintro (he | he)
    · exact ⟨Or.inl he, (hsorted.2.2 e he _ List.mem_cons_self).ne⟩
    · exact ⟨Or.inr (Or.inr he), (hsorted.2.1.1 e he).ne'⟩
  · rintro ⟨he | rfl | he, hne⟩
    · exact Or.inl he
    · exact absurd rfl hne
    · exact Or.inr he

/-- One line of the head is a `Content-Length` that says how long the body is, exactly when the
fields of the caller are consistent. -/
theorem exists_line_iff (req : Request) :
    (∃ line, req.headLines.tail.filter IsContentLength = [line] ∧
      decimal (fieldValue line) = some req.body.length) ↔ req.Consistent := by
  obtain ⟨v, as, bs, hsplit, hmem⟩ := exists_own req
  obtain ⟨l₀, ls, hcut, hl₀⟩ := cut_own v
  obtain ⟨r, rs, hline⟩ := List.exists_cons_of_ne_nil (cutFrom_ne_nil [] req.requestLine)
  have hlines : req.headLines.tail =
      ((cut req.requestLine).tail ++ as.flatMap fun e => cut (fieldLine e)) ++
        l₀ :: (ls ++ bs.flatMap fun e => cut (fieldLine e)) := by
    rw [headLines, hsplit, List.flatMap_append, List.flatMap_cons, hcut, cut, hline]
    simp
  have hothers := forall_others_iff req fun e => ∀ l ∈ cut (fieldLine e), ¬ IsContentLength l
  have hown := own_iff (hsplit ▸ List.mem_append_right as List.mem_cons_self) hcut
  simp only [hlines, filter_eq_singleton hl₀, List.forall_mem_append, List.forall_mem_flatMap]
  constructor
  · rintro ⟨line, ⟨⟨hextra, has⟩, ⟨hls, hbs⟩, rfl⟩, hvalue⟩
    refine ⟨hextra, hothers.mp fun e he hne => ?_, hown.mpr ⟨hls, hvalue⟩⟩
    exact ((hmem e).mpr ⟨he, hne⟩).elim (has e) (hbs e)
  · intro h
    obtain ⟨hls, hvalue⟩ := hown.mp h.own
    have hall : ∀ e, e ∈ as ∨ e ∈ bs → ∀ l ∈ cut (fieldLine e), ¬ IsContentLength l := fun e he =>
      hothers.mpr h.others e ((hmem e).mp he).1 ((hmem e).mp he).2
    exact ⟨l₀, ⟨⟨h.line, fun e he => hall e (Or.inl he)⟩, ⟨hls, fun e he => hall e (Or.inr he)⟩,
      rfl⟩, hvalue⟩

/-- **A message is framed** exactly when its head has no empty line and the fields of the caller are
consistent. -/
theorem framed_complete_iff (req : Request) :
    Framed req.body req.complete.text ↔ req.Unbroken ∧ req.Consistent := by
  rw [Framed, text_complete, ← forall_headLines_iff, ← exists_line_iff, ← cut_head]
  by_cases hbroken : [] ∈ cut req.head
  · have hlt := length_linesFrom_lt req.body hbroken
    refine iff_of_false (fun h => ?_) fun h => h.1 [] hbroken rfl
    rw [h.1] at hlt
    exact Nat.lt_irrefl _ hlt
  · have hall : ∀ l ∈ cutFrom [] req.head, l ≠ [] := by
      rintro l hl rfl
      exact hbroken hl
    rw [linesFrom_of_forall hall, iff_true_intro rfl, true_and]
    exact (and_iff_right hall).symm

end Request

/-! ## The caller's objects -/

namespace Requests

open Machine

structure State where
  /-- the objects of the caller -/
  objects : Nat → Request
  /-- the texts given to `send_msg`, and the bodies that they were made for -/
  sent : List (Text × Text)

def init (objects : Nat → Request) : State := ⟨objects, []⟩

inductive Act where
  /-- the caller changes an object of its own -/
  | edit (i : Nat) (req : Request)
  | request (i : Nat) (connected : Bool)
  | requestUrl (connects : Text → UInt16 → Bool) (mPort : UInt16) (method url : Text)
    (headers : OrdMap Text Text) (body : Text)

def step (s : State) : Act → Option State
  | .edit i req => some { s with objects := Function.update s.objects i req }
  | .request i connected =>
    let body := (s.objects i).body
    let (req, text) := (s.objects i).request connected
    some ⟨Function.update s.objects i req, s.sent ++ (text.map fun text => (body, text)).toList⟩
  | .requestUrl connects mPort method url headers body =>
    let text := Request.requestUrl connects mPort method url headers body
    some { s with sent := s.sent ++ (text.map fun text => (body, text)).toList }

/-- The object of a call that sends something. -/
def called (s : State) : Act → Option Request
  | .edit _ _ => none
  | .request i connected => if connected then some (s.objects i) else none
  | .requestUrl connects mPort method url headers body =>
    let _uri := ((Uri.new mPort).parseFromArray (cStr url)).2
    if connects _uri.host _uri.port then some (.ofUri _uri method headers body) else none

/-- The texts of a call that sends something. -/
def Fitting (s : State) (a : Act) : Prop := ∀ req ∈ called s a, req.Unbroken ∧ req.Consistent

variable {s s' : State} {a : Act} {as : List Act} {objects : Nat → Request}

/-- What a step sends. -/
theorem step_sent (h : step s a = some s') :
    s'.sent = s.sent ++ ((called s a).map fun req => (req.body, req.complete.text)).toList := by
  cases a with
  | edit i req =>
    cases h
    exact (List.append_nil _).symm
  | request i connected =>
    cases h
    cases connected with
    | true => rfl
    | false => rfl
  | requestUrl connects mPort method url headers body =>
    cases h
    simp only [called, Request.requestUrl, Request.request]
    split
    · rfl
    · rfl

/-- Every text sent is framed. -/
def AllFramed (s : State) : Prop := ∀ m ∈ s.sent, Framed m.1 m.2

theorem framed_step_iff (h : step s a = some s') :
    AllFramed s' ↔ AllFramed s ∧ Fitting s a := by
  rw [AllFramed, step_sent h, List.forall_mem_append]
  refine and_congr_right fun _ => ?_
  rw [Fitting]
  cases called s a with
  | none => simp
  | some req => simpa using Request.framed_complete_iff req

/-- `GET / HTTP/1.1` with the body `a`, and a header whose value is two lines. -/
def get : Request :=
  ⟨[], ['/'], ['G', 'E', 'T'], OrdMap.empty.set ['A'] "b\r\nC: d".toList, ['a']⟩

/-- The object as it is left, and the body and its length changed. -/
def again : Request :=
  { get.complete with
    headers := get.complete.headers.set Request.contentLength ['2'], body := ['a', 'b'] }

def twice : List Act := [.request 0 true, .edit 0 again, .request 0 true]

end Requests

end Wish.Http
