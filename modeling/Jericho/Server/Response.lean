import Jericho.Iris.Sources
import Jericho.Library.LexicalPath

/-! Serving files of the public directory: `resource::serve_cxx` and `Response::generate`. -/
namespace Jericho.Server
open StdText Util

/-- The file system, and the parsers that templates are interpreted with. `fopen` gives the contents of what it
opens. -/
structure Files where
  fopen : Bytes → Option Bytes
  getDir : Bytes → List Bytes
  parseForm : Iris.Lex → Exec Bytes
  parseTemp : Bytes → Iris.Lex → Exec Bytes
  strftime : Int → Bytes

/-- What reaches the client, in order, with the calls of route functions in between. `parts` are the files that
were put into an interpreted page. -/
inductive Event where
  | callback (path : Bytes)
  | file (fullPath : Bytes) (parts : List Bytes) (bytes : Bytes)
  | error (code : Bytes)
  | http (content type : Bytes)
  | raw (bytes : Bytes)
  deriving DecidableEq

def Event.isResponse : Event → Bool
  | .callback _ => false
  | _ => true

def contentTypes : List (Bytes × Bytes) :=
  [(lit ".css", lit "text/css"), (lit ".csv", lit "text/csv"), (lit ".gif", lit "text/gif"),
    (lit ".htm", lit "text/htm"), (lit ".iris", lit "text/html"), (lit ".html", lit "text/html"),
    (lit ".ico", lit "image/x-icon"), (lit ".jpeg", lit "image/jpeg"), (lit ".jpg", lit "image/jpeg"),
    (lit ".js", lit "application/javascript"), (lit ".json", lit "application/json"),
    (lit ".png", lit "image/png"), (lit ".pdf", lit "application/pdf"), (lit ".svg", lit "image/svg+xml"),
    (lit ".txt", lit "text/plain")]

/-- `get_content_type`: by the text from the last dot on. -/
def getContentType (path : Bytes) : Bytes :=
  let lastDot := 46 :: (path.reverse.takeWhile (· ≠ 46)).reverse
  if 46 ∈ path then (contentTypes.lookup lastDot).getD (lit "application/octet-stream")
  else lit "application/octet-stream"

/-- `SSL_write`: the first bytes of a buffer, none for a count that is not positive. -/
def sslWrite (buf : Bytes) (num : Int) : Bytes := buf.take num.toNat

variable {σ : Type} (router : Router σ) (files : Files)

/-- What pages are interpreted with. A file that does not open reads as empty. -/
def Files.env : Iris.Env σ where
  router := router
  disk := ⟨files.getDir, fun path => (files.fopen path).getD []⟩
  parseForm := files.parseForm
  parseTemp := files.parseTemp

/-- The page has the mark of a template. -/
def isTemplate (contents : Bytes) : Bool := (Occurrence.find (lit "$[idoc]$") contents).isSome

/-- The text of an opened file; a template is interpreted. -/
def fileContents (fullPath contents : Bytes) : Exec Bytes :=
  if isTemplate contents then Iris.interpret (files.env router) fullPath else .ok contents

/-- The files that an opened file is put together from, as far as they exist. -/
def fileParts (fullPath contents : Bytes) : List Bytes :=
  if isTemplate contents then
    (Iris.sources (files.env router) fullPath).filter fun path => (files.fopen path).isSome
  else []

/-- The page behind an empty path. -/
def indexPage (p : Bytes) : Bytes := if p = [] ∨ p = lit "/" then lit "/index.html" else p

/-- A header section with a length in it. -/
def lengthHead (front : Bytes) (length : Nat) (back : Bytes) : Bytes :=
  front ++ lit "Content-Length: " ++ decimal length ++ crlf ++ back

/-- What both servers write before the length. -/
def keepAlive : Bytes := lit "HTTP/1.1 200 OK\r\nConnection: keep-alive\r\n"

/-- The headers of `serve_cxx` behind the length, and the blank line. -/
def cxxHeaders (fullPath : Bytes) : Bytes :=
  lit "Content-Type: " ++ getContentType fullPath ++ crlf ++
    lit "Access-Control-Allow-Origin: https://localhost" ++ crlf ++ crlf

/-- The body that `serve_cxx` writes: the text as a C string, or the opened file in pieces. -/
def cxxBody (fullPath contents text : Bytes) : Bytes :=
  if getContentType fullPath = lit "text/html" then sslWrite text (asInt (cstr text).length) else contents

/-- Everything `serve_cxx` writes for a file. -/
def cxxBytes (fullPath contents text : Bytes) : Bytes :=
  lengthHead keepAlive text.length (cxxHeaders fullPath) ++ cxxBody fullPath contents text

/-- `resource::serve_cxx` -/
def serveCxx (dir path : Bytes) : Exec Event :=
  let path := cstr path
  let fullPath := cstr (dir ++ indexPage path)
  match files.fopen fullPath with
  | none => .ok (.error (lit "404"))
  | some contents =>
    if (Occurrence.find (lit "..") path).isSome then .ok (.error (lit "404"))
    else if 100 < path.length then .ok (.error (lit "404"))
    else do
      let text ← fileContents router files fullPath contents
      return .file fullPath (fileParts router files fullPath contents) (cxxBytes fullPath contents text)

/-- The headers of `Response::generate` behind the length, and the blank line. -/
def responseHeaders (fullPath : Bytes) (cookies : List Bytes) : Bytes :=
  lit "Content-Type: " ++ getContentType fullPath ++ crlf ++
    cookies.flatMap (fun cook => lit "Set-Cookie: " ++ cook ++ crlf) ++ crlf

/-- `std::string::pop_back` -/
def popBack (s : Bytes) : Exec Bytes := if s = [] then .error .undefined else .ok s.dropLast

/-- `Response::generate`: what it sends itself, or the opened file, and the string it returns. That string is read
from an array without terminator, so whatever follows the array is part of it. -/
def generate (dir : Bytes) (req : Request) (resp : Response) (stack : Bytes) : Exec (Event × Bytes) :=
  let fullPath := cstr (dir ++ indexPage req.path)
  match files.fopen fullPath with
  | none => .ok (.error (lit "404"), lit "ERROR")
  | some contents =>
    if (Occurrence.find (lit "..") (cstr req.path)).isSome then .ok (.error (lit "404"), lit "ERROR")
    else if 100 < (cstr req.path).length then .ok (.error (lit "404"), lit "ERROR")
    else do
      let text ← fileContents router files fullPath contents
      let cookies ← resp.cookies.mapM fun cookie => popBack (cookie.generate files.strftime)
      let buffer := lengthHead keepAlive text.length (responseHeaders fullPath cookies) ++ text
      let s := cstr (buffer ++ stack)
      return (.file fullPath (fileParts router files fullPath contents) s, s)

/-- `Response::serve`: the result of `generate` is sent, after the 404 that `generate` may have sent. -/
def serveResponse (dir : Bytes) (req : Request) (resp : Response) (stack : Bytes) : Exec (List Event) := do
  let (e, res) ← generate router files dir req resp stack
  let sent := sslWrite res (asInt res.length)
  match e with
  | .file fullPath parts _ => return [.file fullPath parts sent]
  | e => return [e, .raw sent]

end Jericho.Server
