import Wish.OrdMap
import Wish.Net.Http.Parser
import Mathlib.Data.Set.Insert

/-!
# `wish::http::uri`

`net/app/http/uri.cpp`: `parse_from_array` in three loops. The first one looks for `"://"` and
`'@'`, the second one for the end of the authority and its last colon, the third one takes the
path, the query and the fragment. The input is the text of the C string.

What the first loop finds it finds anywhere in the text. `indistinct_iff` says of which tails a
URL gets its schema, user info, host and port from the authority alone; it makes a difference
whether the authority ends in a colon.
-/

namespace Wish

open Http (Text)

/-- `split` of `string_util.cpp`, from `last_it` on. -/
def splitFrom (separator : Char) (last : Text) : Text → List Text
  | [] => if last = [] then [] else [last]
  | c :: it =>
    if c = separator then last :: splitFrom separator [] it
    else splitFrom separator (last ++ [c]) it

def split (str : Text) (separator : Char) : List Text := splitFrom separator [] str

end Wish

namespace Wish.Http

/-- The members of `uri`. -/
structure Uri where
  mHost : Text
  mPort : UInt16
  mPath : Text
  mUserInfo : Text
  mSchema : Text
  mFragment : Text
  mQuery : Text
  mQueryMap : OrdMap Text Text
  mUrl : Text

/-- `isspace` -/
def isSpace (c : Char) : Bool :=
  c = ' ' || c = '\t' || c = '\n' || c = '\x0b' || c = '\x0c' || c = '\r'

/-- The value of the digits in front. -/
def digits (s : Text) : Int := Nat.ofDigitChars 10 (s.takeWhile Char.isDigit) 0

def signed : Text → Int
  | '-' :: s => -digits s
  | '+' :: s => digits s
  | s => digits s

/-- `strtol` to the base ten, which keeps to the range of a `long`. -/
def strtol (s : Text) : Int := max (-2 ^ 63) (min (signed (s.dropWhile isSpace)) (2 ^ 63 - 1))

/-- `m_port = atoi(...)`: an `int`, of which `m_port` takes the low bits. -/
def atoi (s : Text) : UInt16 := UInt16.ofInt (strtol s)

namespace Uri

/-- The constructor leaves `m_port` uninitialised. -/
def new (mPort : UInt16) : Uri := ⟨[], mPort, [], [], [], [], [], .empty, []⟩

/-- The first loop, with the text from `start` to `p`; on the right the text from `start` on
when it is over. (`skip_space` gets a copy of `p` and does nothing.) -/
def scanHead (u : Uri) (start : Text) : Text → Uri × Text
  | [] => (u, start)
  | ':' :: '/' :: '/' :: p => scanHead { u with mSchema := start } [] p
  | '@' :: p => scanHead { u with mUserInfo := start } [] p
  | c :: p => scanHead u (start ++ [c]) p

def isDelimiter (c : Char) : Bool := c = '/' || c = '?' || c = '#'

/-- The texts in front of `split_pos`, the last colon, and behind it. -/
def splitPos : Text → Option (Text × Text)
  | [] => none
  | c :: p =>
    match splitPos p with
    | some (host, port) => some (c :: host, port)
    | none => if c = ':' then some ([], p) else none

/-- `addr` goes up to `addr_end`, where `p` begins. -/
def setAddress (u : Uri) (addr p : Text) : Uri :=
  match splitPos addr with
  | none => { u with mHost := addr, mPort := 80 }
  | some (host, port) =>
    -- `addr_end - split_pos + 1` characters from `split_pos + 1` on
    { u with mHost := host, mPort := atoi ((port ++ p).take (port.length + 1 + 1)) }

/-- `m_query_map.insert` for each part of the query; `false` as soon as one is not `k=v`. -/
def insertParams (m : OrdMap Text Text) : List Text → Bool × OrdMap Text Text
  | [] => (true, m)
  | ret :: rets =>
    match split ret '=' with
    | [k, v] => insertParams (m.insert k v) rets
    | _ => (false, m)

/-- The stages of the third loop: whether it is left by a `break`, and where `p` is then. -/
def parseFragment (u : Uri) : Text → Bool × Uri × Text
  | '#' :: p => (true, { u with mFragment := p }, [])
  | p => (true, u, p)

def parseQuery (u : Uri) : Text → Bool × Uri × Text
  | [] => (true, u, [])
  | c :: p =>
    if c = '?' ∨ c = '#' then
      let query := p.takeWhile (· != '#')
      let p := p.dropWhile (· != '#')
      let u := { u with mQuery := query }
      if query = [] then u.parseFragment p
      else
        match insertParams u.mQueryMap (split query '&') with
        | (true, m) => { u with mQueryMap := m }.parseFragment p
        | (false, m) => (false, { u with mQueryMap := m }, p)
    else (true, u, c :: p)

def parsePath (u : Uri) : Text → Bool × Uri × Text
  | [] => (true, u, [])
  | c :: p =>
    if isDelimiter c then
      { u with mPath := p.takeWhile fun c => c != '?' && c != '#' }.parseQuery
        (p.dropWhile fun c => c != '?' && c != '#')
    else (true, u, c :: p)

/-- What is read before the third loop, and where it begins. -/
def parseAuthority (u : Uri) (url : Text) : Uri × Text :=
  let (u, start) := u.scanHead [] url
  let addr := start.takeWhile fun c => !isDelimiter c
  let p := start.dropWhile fun c => !isDelimiter c
  (u.setAddress addr p, p)

def parseFromArray (u : Uri) (url : Text) : Bool × Uri :=
  let (u, url_start) := u.parseAuthority url
  match u.parsePath url_start with
  | (true, u, p) => (true, { u with mUrl := url_start.take (url_start.length - p.length) })
  | (false, u, _) => (false, u)

def schema (u : Uri) : Text := u.mSchema

def userInfo (u : Uri) : Text := u.mUserInfo

def host (u : Uri) : Text := u.mHost

def port (u : Uri) : UInt16 := u.mPort

def path (u : Uri) : Text := u.mPath

def query (u : Uri) : Text := u.mQuery

def fragment (u : Uri) : Text := u.mFragment

def url (u : Uri) : Text := u.mUrl

def params (u : Uri) : OrdMap Text Text := u.mQueryMap

/-- What the client connects to, and how. -/
def endpoint (u : Uri) : Text × Text × Text × UInt16 := (u.schema, u.userInfo, u.host, u.port)

end Uri

/-! ## Numbers -/

/-- What may follow the authority: nothing, or a text that a delimiter begins. -/
def Tail (r : Text) : Prop := ∀ c ∈ r.head?, Uri.isDelimiter c

theorem isDelimiter_iff {c : Char} : Uri.isDelimiter c ↔ c = '/' ∨ c = '?' ∨ c = '#' := by
  simp [Uri.isDelimiter, or_assoc]

theorem tail_nil : Tail [] := nofun

theorem Tail.take {r : Text} (h : Tail r) (n : Nat) : Tail (r.take n) := by
  intro c hc
  cases r with
  | nil =>
    rw [List.take_nil] at hc
    cases hc
  | cons d r =>
    cases n with
    | zero => cases hc
    | succ n => exact h c hc

theorem digits_append {s r : Text} (hr : Tail r) : digits (s ++ r) = digits s := by
  have hnone : r.takeWhile Char.isDigit = [] := by
    cases r with
    | nil => rfl
    | cons c r =>
      have hc : c.isDigit = false := by
        rcases isDelimiter_iff.mp (hr c rfl) with rfl | rfl | rfl <;> rfl
      rw [List.takeWhile_cons, hc]
      rfl
  rw [digits, digits, List.takeWhile_append, hnone, List.append_nil]
  split
  · next hlen => rw [(List.takeWhile_prefix Char.isDigit).eq_of_length hlen]
  · rfl

theorem signed_append {s r : Text} (hr : Tail r) : signed (s ++ r) = signed s := by
  unfold signed
  split
  · next heq =>
    cases s with
    | nil => exact absurd (hr '-' (congrArg List.head? heq)) (by decide)
    | cons c s =>
      cases heq
      exact congrArg Neg.neg (digits_append hr)
  · next heq =>
    cases s with
    | nil => exact absurd (hr '+' (congrArg List.head? heq)) (by decide)
    | cons c s =>
      cases heq
      exact digits_append hr
  · next hminus hplus =>
    rw [digits_append hr]
    split
    · exact absurd rfl (hminus _)
    · exact absurd rfl (hplus _)
    · rfl

/-- The number ends before a delimiter. -/
theorem strtol_append {s r : Text} (hr : Tail r) : strtol (s ++ r) = strtol s := by
  have hspace : r.dropWhile isSpace = r := by
    cases r with
    | nil => rfl
    | cons c r =>
      have hc : isSpace c = false := by
        rcases isDelimiter_iff.mp (hr c rfl) with rfl | rfl | rfl <;> rfl
      rw [List.dropWhile_cons, hc]
      rfl
  have hdrop : (s ++ r).dropWhile isSpace = s.dropWhile isSpace ++ r := by
    rw [List.dropWhile_append, hspace]
    split
    · next hnil => rw [List.isEmpty_iff.mp hnil, List.nil_append]
    · rfl
  rw [strtol, strtol, hdrop, signed_append hr]

theorem atoi_append {s r : Text} (hr : Tail r) : atoi (s ++ r) = atoi s :=
  congrArg UInt16.ofInt (strtol_append hr)

/-! ## The first loop -/

/-- The first loop finds nothing in it. -/
def Unmarked (p : Text) : Prop := '@' ∉ p ∧ ¬ [':', '/', '/'] <:+: p

theorem Unmarked.tail {c : Char} {p : Text} (h : Unmarked (c :: p)) : Unmarked p :=
  ⟨fun hmem => h.1 (List.mem_cons_of_mem c hmem), fun hi => h.2 (List.infix_cons hi)⟩

namespace Uri

variable {u : Uri} {start p t : Text}

theorem scanHead_cons {c : Char} (hat : c ≠ '@') (hcolon : c = ':' → ¬ ['/', '/'] <+: p) :
    u.scanHead start (c :: p) = u.scanHead (start ++ [c]) p := by
  rw [scanHead]
  · rintro q rfl rfl
    exact hcolon rfl ⟨q, rfl⟩
  · exact hat

theorem scanHead_append (ht : Unmarked t) (hp : ∀ c ∈ p.head?, c ≠ '/') :
    u.scanHead start (t ++ p) = u.scanHead (start ++ t) p := by
  induction t generalizing start with
  | nil => rw [List.nil_append, List.append_nil]
  | cons c t ih =>
    have hat : c ≠ '@' := by
      rintro rfl
      exact ht.1 List.mem_cons_self
    rw [List.cons_append, scanHead_cons hat, ih ht.tail, List.append_assoc, List.singleton_append]
    rintro rfl ⟨q, hq⟩
    -- both slashes come from `t`, or the text `p` begins with one
    match t, hq with
    | [], hq => exact hp '/' (by rw [← List.nil_append p, ← hq]; rfl) rfl
    | [d], hq =>
      cases hq
      exact hp '/' rfl rfl
    | d :: e :: t, hq =>
      cases hq
      exact ht.2 ⟨[], t, rfl⟩

/-- A text without colons and marks is passed over, whatever follows it. -/
theorem scanHead_plain (ht : ∀ c ∈ t, c ≠ '@' ∧ c ≠ ':') :
    u.scanHead start (t ++ p) = u.scanHead (start ++ t) p := by
  induction t generalizing start with
  | nil => rw [List.nil_append, List.append_nil]
  | cons c t ih =>
    obtain ⟨⟨hat, hcolon⟩, ht⟩ := List.forall_mem_cons.mp ht
    rw [List.cons_append, scanHead_cons hat fun hc => absurd hc hcolon, ih ht, List.append_assoc,
      List.singleton_append]

theorem scanHead_unmarked (hp : Unmarked p) : u.scanHead start p = (u, start ++ p) := by
  have happ : u.scanHead start (p ++ []) = u.scanHead (start ++ p) [] := scanHead_append hp nofun
  rw [List.append_nil] at happ
  exact happ

theorem length_scanHead_le (u : Uri) (start p : Text) :
    (u.scanHead start p).2.length ≤ start.length + p.length := by
  fun_induction scanHead u start p with
  | case1 => exact Nat.le_refl _
  | case2 u start p ih =>
    simp only [List.length_cons, List.length_nil] at ih ⊢
    omega
  | case3 u start p ih =>
    simp only [List.length_cons, List.length_nil] at ih ⊢
    omega
  | case4 u start c p _ _ ih =>
    simp only [List.length_cons, List.length_append, List.length_nil] at ih ⊢
    omega

/-- What is in front of a mark is lost. -/
theorem length_scanHead_lt (hp : ¬ Unmarked p) (u : Uri) (start : Text) :
    (u.scanHead start p).2.length < p.length := by
  fun_induction scanHead u start p with
  | case1 => exact absurd ⟨List.not_mem_nil, by simp⟩ hp
  | case2 u start p =>
    have hle := length_scanHead_le { u with mSchema := start } [] p
    simp only [List.length_cons, List.length_nil] at hle ⊢
    omega
  | case3 u start p =>
    have hle := length_scanHead_le { u with mUserInfo := start } [] p
    simp only [List.length_cons, List.length_nil] at hle ⊢
    omega
  | case4 u start c p hslash hat ih =>
    refine Nat.lt_succ_of_lt (ih fun hun => hp ⟨fun hmem => ?_, fun hi => ?_⟩)
    · rcases List.mem_cons.mp hmem with rfl | hmem
      · exact hat rfl
      · exact hun.1 hmem
    · rcases List.infix_cons_iff.mp hi with ⟨q, hq⟩ | hi
      · cases hq
        exact hslash q rfl rfl
      · exact hun.2 hi

/-! ## The second loop -/

theorem splitPos_eq {host port : Text} (h : splitPos t = some (host, port)) :
    t = host ++ ':' :: port := by
  induction t generalizing host with
  | nil => cases h
  | cons c t ih =>
    rw [splitPos] at h
    split at h
    · next heq =>
      cases h
      rw [ih heq, List.cons_append]
    · split at h
      · next hc =>
        cases h
        rw [hc, List.nil_append]
      · cases h

theorem splitPos_eq_none (h : ':' ∉ t) : splitPos t = none := by
  cases hs : splitPos t with
  | none => rfl
  | some r =>
    obtain ⟨host, port⟩ := r
    refine absurd ?_ h
    rw [splitPos_eq hs]
    exact List.mem_append_right _ List.mem_cons_self

theorem splitPos_append {host port : Text} (h : ':' ∉ port) :
    splitPos (host ++ ':' :: port) = some (host, port) := by
  induction host with
  | nil => simp [splitPos, splitPos_eq_none h]
  | cons c host ih => rw [List.cons_append, splitPos, ih]

theorem setAddress_tail {addr : Text} (hr : Tail p) :
    u.setAddress addr p = u.setAddress addr [] := by
  unfold setAddress
  split
  · rfl
  · next host port _ =>
    rw [List.take_append, List.take_append, atoi_append (hr.take _), List.take_nil, List.append_nil]

theorem length_host_le {addr : Text} : (u.setAddress addr p).host.length ≤ addr.length := by
  unfold setAddress
  split
  · exact Nat.le_refl _
  · next host port heq =>
    rw [splitPos_eq heq, List.length_append]
    exact Nat.le_add_right _ _

theorem endpoint_setAddress {v : Uri} {addr : Text} (hs : u.mSchema = v.mSchema)
    (hu : u.mUserInfo = v.mUserInfo) :
    (u.setAddress addr p).endpoint = (v.setAddress addr p).endpoint := by
  unfold setAddress
  split
  · simp only [endpoint, schema, userInfo, host, port, hs, hu]
  · simp only [endpoint, schema, userInfo, host, port, hs, hu]

/-! ## The third loop -/

theorem endpoint_parseFragment : (u.parseFragment p).2.1.endpoint = u.endpoint := by
  unfold parseFragment
  split
  · rfl
  · rfl

theorem endpoint_parseQuery : (u.parseQuery p).2.1.endpoint = u.endpoint := by
  unfold parseQuery
  split
  · rfl
  · split
    · simp only
      split
      · exact endpoint_parseFragment
      · split
        · exact endpoint_parseFragment
        · rfl
    · rfl

theorem endpoint_parsePath : (u.parsePath p).2.1.endpoint = u.endpoint := by
  unfold parsePath
  split
  · rfl
  · split
    · exact endpoint_parseQuery
    · rfl

/-- The third loop does not change what the first two have found. -/
theorem endpoint_parse (u : Uri) (url : Text) :
    (u.parseFromArray url).2.endpoint = (u.parseAuthority url).1.endpoint := by
  have hpath := endpoint_parsePath (u := (u.parseAuthority url).1) (p := (u.parseAuthority url).2)
  unfold parseFromArray
  simp only
  split
  · next heq =>
    rw [heq] at hpath
    exact hpath
  · next heq =>
    rw [heq] at hpath
    exact hpath

end Uri

/-! ## Authorities -/

/-- The text of an optional part, between what stands before and behind it. -/
def between (before after : Text) : Option Text → Text
  | none => []
  | some t => before ++ t ++ after

theorem span_append {f : Char → Bool} {t r : Text} (ht : ∀ c ∈ t, f c) (hr : ∀ c ∈ r.head?, ¬ f c) :
    (t ++ r).takeWhile f = t ∧ (t ++ r).dropWhile f = r := by
  rw [List.takeWhile_append_of_pos ht, List.dropWhile_append_of_pos ht]
  cases r with
  | nil => exact ⟨List.append_nil t, rfl⟩
  | cons c r =>
    have hc : ¬ f c := hr c rfl
    rw [List.takeWhile_cons_of_neg hc, List.dropWhile_cons_of_neg hc]
    exact ⟨List.append_nil t, rfl⟩

/-- The first two loops on a text whose marks are where they belong. -/
theorem parseAuthority_parts {u : Uri} {schema userInfo : Option Text} {addr r : Text}
    (hs : ∀ t ∈ schema, Unmarked t) (hu : ∀ t ∈ userInfo, Unmarked t)
    (haddr : ∀ c ∈ addr, ¬ Uri.isDelimiter c) (hr : Tail r) (hmark : Unmarked (addr ++ r)) :
    u.parseAuthority (between [] [':', '/', '/'] schema ++ (between [] ['@'] userInfo ++
        (addr ++ r))) =
      ({ u with
        mSchema := schema.getD u.mSchema
        mUserInfo := userInfo.getD u.mUserInfo }.setAddress addr [], r) := by
  have hscan : ∀ (u : Uri), u.scanHead [] (between [] ['@'] userInfo ++ (addr ++ r)) =
      ({ u with mUserInfo := userInfo.getD u.mUserInfo }, addr ++ r) := by
    intro u
    cases userInfo with
    | none => exact Uri.scanHead_unmarked hmark
    | some t =>
      rw [between, List.nil_append, List.append_assoc,
        Uri.scanHead_append (hu t rfl) (by simp), List.nil_append, List.singleton_append,
        Uri.scanHead, Uri.scanHead_unmarked hmark, List.nil_append]
      rfl
  have hhead : u.scanHead [] (between [] [':', '/', '/'] schema ++ (between [] ['@'] userInfo ++
      (addr ++ r))) =
      ({ u with mSchema := schema.getD u.mSchema, mUserInfo := userInfo.getD u.mUserInfo },
        addr ++ r) := by
    cases schema with
    | none => exact hscan u
    | some t =>
      rw [between, List.nil_append, List.append_assoc,
        Uri.scanHead_append (hs t rfl) (by simp), List.nil_append, List.cons_append,
        List.cons_append, List.cons_append, List.nil_append, Uri.scanHead, hscan]
      rfl
  obtain ⟨htake, hdrop⟩ := span_append (f := fun c => !Uri.isDelimiter c) (t := addr) (r := r)
    (fun c hc => by simpa using haddr c hc) (fun c hc => by simpa using hr c hc)
  rw [Uri.parseAuthority, hhead]
  simp only
  rw [htake, hdrop, Uri.setAddress_tail hr]

/-- Nothing in it ends a part of the authority but a colon. -/
def Plain (t : Text) : Prop := ∀ c ∈ t, ¬ Uri.isDelimiter c ∧ c ≠ '@'

/-- A text up to the end of the authority. -/
structure Authority where
  schema : Option Text
  userInfo : Option Text
  host : Text
  port : Option Text
  schema_plain : ∀ t ∈ schema, Plain t
  userInfo_plain : ∀ t ∈ userInfo, Plain t
  host_plain : Plain host
  host_ne_nil : host ≠ []
  port_plain : ∀ t ∈ port, Plain t

namespace Authority

/-- The host and the port. -/
def address (a : Authority) : Text := a.host ++ between [':'] [] a.port

def text (a : Authority) : Text :=
  between [] [':', '/', '/'] a.schema ++ (between [] ['@'] a.userInfo ++ a.address)

end Authority

/-- It ends in a colon, as `h:` does. -/
def Authority.endsInColon (a : Authority) : Bool := a.address.getLast? = some ':'

/-- Texts that follow an authority have no influence on what is in front of them. -/
def Indistinct (colon : Bool) (tails : Set Text) : Prop :=
  ∀ a : Authority, a.endsInColon = colon → ∀ (r r' : Text) (m m' : UInt16),
    r ∈ tails → r' ∈ tails →
      ((Uri.new m).parseFromArray (a.text ++ r)).2.endpoint =
        ((Uri.new m').parseFromArray (a.text ++ r')).2.endpoint

/-- A tail with the colon in front of it, if there is one. -/
def behindColon (colon : Bool) (r : Text) : Text := if colon then ':' :: r else r

/-- The first loop finds nothing in the tail, nor where the authority ends. -/
def Clean (colon : Bool) (r : Text) : Prop := Unmarked (behindColon colon r)

theorem Plain.unmarked {t : Text} (h : Plain t) : Unmarked t := by
  refine ⟨fun hmem => (h '@' hmem).2 rfl, fun hi => (h '/' (hi.subset ?_)).1 rfl⟩
  exact List.mem_cons_of_mem _ List.mem_cons_self

theorem Clean.unmarked {colon : Bool} {r : Text} (h : Clean colon r) : Unmarked r := by
  cases colon with
  | false => exact h
  | true => exact Unmarked.tail h

/-- In other words. -/
theorem clean_iff_unmarked {colon : Bool} {r : Text} :
    Clean colon r ↔ Unmarked r ∧ (colon = true → ¬ ['/', '/'] <+: r) := by
  cases colon with
  | false => simp [Clean, behindColon]
  | true =>
    constructor
    · intro h
      refine ⟨h.unmarked, fun _ hpre => h.2 ?_⟩
      obtain ⟨q, rfl⟩ := hpre
      exact ⟨[], q, rfl⟩
    · intro ⟨hun, hpre⟩
      refine ⟨fun hmem => ?_, fun hi => ?_⟩
      · rcases List.mem_cons.mp hmem with hc | hmem
        · cases hc
        · exact hun.1 hmem
      · rcases List.infix_cons_iff.mp hi with ⟨q, hq⟩ | hi
        · exact hpre rfl ⟨q, (List.cons.inj hq).2⟩
        · exact hun.2 hi

theorem Plain.unmarked_append {t r : Text} (h : Plain t)
    (hr : Clean (t.getLast? = some ':') r) : Unmarked (t ++ r) := by
  induction t with
  | nil => exact hr
  | cons c t ih =>
    have ht : Plain t := fun d hd => h d (List.mem_cons_of_mem c hd)
    cases t with
    | nil =>
      have hc : c ≠ '@' := (h c List.mem_cons_self).2
      refine ⟨fun hmem => ?_, fun hi => ?_⟩
      · rcases List.mem_cons.mp hmem with he | hmem
        · exact hc he.symm
        · exact hr.unmarked.1 hmem
      · rcases List.infix_cons_iff.mp hi with ⟨q, hq⟩ | hi
        · obtain ⟨hc', hrest⟩ := List.cons.inj hq
          subst hc'
          exact (clean_iff_unmarked.mp hr).2 rfl ⟨q, hrest⟩
        · exact hr.unmarked.2 hi
    | cons d t =>
      rw [List.getLast?_cons_cons] at hr
      have hun := ih ht hr
      refine ⟨fun hmem => ?_, fun hi => ?_⟩
      · rcases List.mem_cons.mp hmem with hc | hmem
        · exact (h c List.mem_cons_self).2 hc.symm
        · exact hun.1 hmem
      · rcases List.infix_cons_iff.mp hi with ⟨q, hq⟩ | hi
        · obtain ⟨-, hq⟩ := List.cons.inj hq
          obtain ⟨rfl, -⟩ := List.cons.inj hq
          exact (ht '/' List.mem_cons_self).1 rfl
        · exact hun.2 hi

namespace Authority

theorem address_plain (a : Authority) : Plain a.address := by
  intro c hc
  rcases List.mem_append.mp hc with hc | hc
  · exact a.host_plain c hc
  · cases hp : a.port with
    | none =>
      rw [hp] at hc
      cases hc
    | some t =>
      rw [hp, between, List.append_nil] at hc
      rcases List.mem_cons.mp hc with rfl | hc
      · exact ⟨by decide, by decide⟩
      · exact a.port_plain t hp c hc

/-- What a new object gets from the authority. -/
theorem endpoint_parse {a : Authority} {r : Text} (hr : Tail r) (hclean : Clean a.endsInColon r)
    (m : UInt16) :
    ((Uri.new m).parseFromArray (a.text ++ r)).2.endpoint =
      ({ Uri.new 0 with
        mSchema := a.schema.getD []
        mUserInfo := a.userInfo.getD [] }.setAddress a.address []).endpoint := by
  have htext : a.text ++ r = between [] [':', '/', '/'] a.schema ++
      (between [] ['@'] a.userInfo ++ (a.address ++ r)) := by
    simp only [text, List.append_assoc]
  rw [Uri.endpoint_parse, htext, parseAuthority_parts (fun t ht => (a.schema_plain t ht).unmarked)
    (fun t ht => (a.userInfo_plain t ht).unmarked) (fun c hc => (a.address_plain c hc).1) hr
    (a.address_plain.unmarked_append hclean)]
  exact Uri.endpoint_setAddress rfl rfl

/-- A host that is longer than the tail. -/
def long (colon : Bool) (n : Nat) : Authority where
  schema := none
  userInfo := none
  host := List.replicate (n + 1) 'a'
  port := if colon then some [] else none
  schema_plain := nofun
  userInfo_plain := nofun
  host_plain := fun c hc => by
    rw [(List.mem_replicate.mp hc).2]
    exact ⟨by decide, by decide⟩
  host_ne_nil := nofun
  port_plain := fun t ht c hc => by
    cases colon with
    | false => cases ht
    | true =>
      cases ht
      cases hc

theorem address_long (colon : Bool) (n : Nat) :
    (long colon n).address = List.replicate (n + 1) 'a' ++ behindColon colon [] := by
  cases colon <;> rfl

theorem endsInColon_long (colon : Bool) (n : Nat) : (long colon n).endsInColon = colon := by
  rw [endsInColon, address_long, List.replicate_succ']
  cases colon <;> simp [behindColon]

theorem text_long (colon : Bool) (n : Nat) (r : Text) :
    (long colon n).text ++ r = List.replicate (n + 1) 'a' ++ behindColon colon r := by
  cases colon <;> simp [text, address, between, long, behindColon]

theorem host_long (colon : Bool) (n : Nat) (m : UInt16) :
    ((Uri.new m).parseFromArray ((long colon n).text ++ [])).2.host =
      List.replicate (n + 1) 'a' := by
  have hplain : ':' ∉ List.replicate (n + 1) 'a' := fun hmem => by
    cases (List.mem_replicate.mp hmem).2
  have hclean : Clean colon [] := by cases colon <;> exact ⟨by decide, by decide⟩
  have hset : ∀ u : Uri, (u.setAddress (long colon n).address []).host =
      List.replicate (n + 1) 'a' := by
    intro u
    rw [address_long, Uri.setAddress]
    cases colon with
    | false =>
      have hsplit : Uri.splitPos (List.replicate (n + 1) 'a' ++ behindColon false []) = none := by
        rw [behindColon, if_neg Bool.false_ne_true, List.append_nil]
        exact Uri.splitPos_eq_none hplain
      rw [hsplit]
      exact List.append_nil _
    | true =>
      have hsplit : Uri.splitPos (List.replicate (n + 1) 'a' ++ behindColon true []) =
          some (List.replicate (n + 1) 'a', []) := Uri.splitPos_append List.not_mem_nil
      rw [hsplit]
      rfl
  rw [← endsInColon_long colon n] at hclean
  exact (congrArg (·.2.2.1) (endpoint_parse (a := long colon n) tail_nil hclean m)).trans (hset _)

/-- With a mark in the tail the host is taken from behind the mark. -/
theorem length_host_long {colon : Bool} {r : Text} (h : ¬ Clean colon r) (n : Nat) (m : UInt16) :
    ((Uri.new m).parseFromArray ((long colon n).text ++ r)).2.host.length ≤ r.length := by
  have hplain : ∀ c ∈ List.replicate (n + 1) 'a', c ≠ '@' ∧ c ≠ ':' := fun c hc => by
    rw [(List.mem_replicate.mp hc).2]
    exact ⟨by decide, by decide⟩
  have hscan : (Uri.new m).scanHead [] ((long colon n).text ++ r) =
      (Uri.new m).scanHead (List.replicate (n + 1) 'a') (behindColon colon r) := by
    rw [text_long, Uri.scanHead_plain hplain, List.nil_append]
  have hlt := Uri.length_scanHead_lt h (Uri.new m) (List.replicate (n + 1) 'a')
  have hle : (behindColon colon r).length ≤ r.length + 1 := by
    cases colon with
    | false => exact Nat.le_succ _
    | true => exact Nat.le_refl _
  have hhost : ((Uri.new m).parseFromArray ((long colon n).text ++ r)).2.host =
      ((Uri.new m).parseAuthority ((long colon n).text ++ r)).1.host :=
    congrArg (·.2.2.1) (Uri.endpoint_parse _ _)
  rw [hhost, Uri.parseAuthority, hscan]
  refine Nat.le_trans Uri.length_host_le ?_
  have htake := (List.takeWhile_prefix (fun c => !Uri.isDelimiter c)
    (l := ((Uri.new m).scanHead (List.replicate (n + 1) 'a') (behindColon colon r)).2)).length_le
  omega

end Authority

/-- **Exactly the tails without marks** leave schema, user info, host and port alone, behind the
authorities that end in a colon and behind those that do not. -/
theorem indistinct_iff (colon : Bool) (tails : Set Text) (htail : ∀ r ∈ tails, Tail r)
    (hnil : [] ∈ tails) : Indistinct colon tails ↔ ∀ r ∈ tails, Clean colon r := by
  constructor
  · intro h r hr
    by_contra hclean
    have hhost := congrArg (·.2.2.1)
      (h (.long colon r.length) (Authority.endsInColon_long colon r.length) r [] 0 0 hr hnil)
    have hlen := Authority.length_host_long hclean r.length 0
    have hlong := Authority.host_long colon r.length 0
    have heq : ((Uri.new 0).parseFromArray ((Authority.long colon r.length).text ++ r)).2.host =
        List.replicate (r.length + 1) 'a' := hhost.trans hlong
    rw [heq, List.length_replicate] at hlen
    omega
  · intro h a ha r r' m m' hr hr'
    subst ha
    rw [Authority.endpoint_parse (htail r hr) (h r hr),
      Authority.endpoint_parse (htail r' hr') (h r' hr')]

/-- `h//x` and `h/y`, behind any authority that does not end in a colon; behind one that does,
`h:/y` and `h:?x`. -/
theorem indistinct_paths : Indistinct false {[], "//x".toList, "/y".toList} ∧
    Indistinct true {[], "/y".toList, "?x".toList} := by
  constructor
  · refine (indistinct_iff false _ (fun r hr => ?_) (Set.mem_insert _ _)).mpr fun r hr => ?_
    · rcases hr with rfl | rfl | rfl
      · exact tail_nil
      all_goals exact fun c hc => by cases hc; decide
    · rcases hr with rfl | rfl | rfl
      all_goals exact ⟨by decide, by decide⟩
  · refine (indistinct_iff true _ (fun r hr => ?_) (Set.mem_insert _ _)).mpr fun r hr => ?_
    · rcases hr with rfl | rfl | rfl
      · exact tail_nil
      all_goals exact fun c hc => by cases hc; decide
    · rcases hr with rfl | rfl | rfl
      all_goals exact ⟨by decide, by decide⟩

/-- The host `h` and nothing else. -/
def Authority.bare : Authority where
  schema := none
  userInfo := none
  host := ['h']
  port := none
  schema_plain := nofun
  userInfo_plain := nofun
  host_plain := fun c hc => by
    cases List.mem_singleton.mp hc
    exact ⟨by decide, by decide⟩
  host_ne_nil := nofun
  port_plain := nofun

/-- `h/@e` has the host `e`. -/
theorem not_indistinct : ¬ Indistinct false {r | Tail r} := by
  intro h
  have heq := h .bare (by decide) ['/', '@', 'e'] [] 0 0 (fun c hc => by cases hc; decide) tail_nil
  exact absurd (congrArg (·.2.2.1) heq) (by decide)

end Wish.Http
