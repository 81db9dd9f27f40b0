import Mathlib.Algebra.Group.Int.Defs
import Mathlib.Data.String.Basic

/-!
# The vendored `http_parser`

`net/app/http/parser/http_parser.h`: `message` hands buffers to `http_parser_execute` and is
called back. The parser is a parameter, `HttpParser`: running it on a buffer gives a
`Resume`, which either ends or makes one callback and goes on with the parser state that the
callback leaves behind (`on_message_complete` may re-initialise it). A `char` is a `Char`.

`HttpParser.events` are the callbacks made when no callback changes the parser.
-/

namespace Wish.Http

abbrev Text := List Char

/-- The character that ends a C string. -/
def NUL : Char := '\x00'

/-- `enum http_parser_type`. -/
inductive ParserType where
  | request
  | response
  | both
  deriving DecidableEq, Repr

/-- The members of `struct http_parser` that `message` reads. -/
structure ParserFields where
  type : ParserType
  httpMajor : Nat
  httpMinor : Nat
  statusCode : Nat
  method : Nat
  httpErrno : Nat
  deriving DecidableEq, Repr

/-- The callbacks of `http_parser_settings`, with the data they are given. -/
inductive Callback where
  | messageBegin
  | url (data : Text)
  | status (data : Text)
  | headerField (data : Text)
  | headerValue (data : Text)
  | headersComplete
  | body (data : Text)
  | messageComplete
  | chunkHeader
  | chunkComplete
  deriving DecidableEq, Repr

/-- A callback, with the parser's fields when it is made. -/
abbrev Event := ParserFields × Callback

/-- A `struct http_parser` whose private members are a `π`. -/
structure Parser (π : Type) where
  fields : ParserFields
  priv : π

/-- `http_parser_execute` between two callbacks: it returns how many bytes it has parsed, or
makes a callback and goes on with the parser as the callback leaves it. -/
inductive Resume (π : Type) where
  | stop (parser : Parser π) (parsed : Nat)
  | callback (parser : Parser π) (cb : Callback) (k : Parser π → Resume π)

/-- The vendored parser. -/
structure HttpParser where
  Priv : Type
  initPriv : ParserType → Priv
  execute : Parser Priv → Text → Resume Priv

/-- `http_parser_init`. -/
def HttpParser.init (hp : HttpParser) (type : ParserType) : Parser hp.Priv :=
  ⟨⟨type, 0, 0, 0, 0, 0⟩, hp.initPriv type⟩

/-! ## The parser on its own -/

/-- The callbacks made when no callback changes the parser, and the parser at the end. -/
def Resume.trace {π : Type} : Resume π → List Event × Parser π
  | .stop parser _ => ([], parser)
  | .callback parser cb k => ((parser.fields, cb) :: (k parser).trace.1, (k parser).trace.2)

def HttpParser.events (hp : HttpParser) (parser : Parser hp.Priv) : List Text → List Event
  | [] => []
  | data :: rest =>
    (hp.execute parser data).trace.1 ++ hp.events (hp.execute parser data).trace.2 rest

/-! ## Parsers given by a table -/

/-- A parser that makes the callbacks `cbs` and no more. -/
def Resume.script {π : Type} (parsed : Nat) : List Callback → Parser π → Resume π
  | [], parser => .stop parser parsed
  | cb :: cbs, parser => .callback parser cb (script parsed cbs)

/-- A parser that knows the texts of a table, and the fields and callbacks for them. -/
def HttpParser.ofTable (table : List (Text × ParserFields × List Callback)) : HttpParser where
  Priv := Unit
  initPriv _ := ()
  execute parser data :=
    match table.find? fun row => row.1 = data with
    | none => .stop { parser with fields := { parser.fields with httpErrno := 1 } } 0
    | some row => .script data.length row.2.2 ⟨row.2.1, ()⟩

end Wish.Http
