import Mathlib.Data.List.Basic
import Pineapple.Numerals
import Pineapple.Lib.Search

/-! # Reading requests from a connection (`server.cpp`, `read_http_request` and the keep-alive loop)

A byte is a character. The network is the bytes sent and not received yet and, call by call, how many of them
`recv` finds: a cut `c` lets it take up to `c + 1`, and after the last cut they come one by one. -/

namespace Pineapple.Http

open Search

structure Socket where
  unread : List Char
  cuts : List Nat

/-- What `recv` returns, empty only when nothing is left. -/
def Socket.recv (want : Nat) (s : Socket) : List Char × Socket :=
  let n := min want (s.cuts.headD 0 + 1)
  (s.unread.take n, { unread := s.unread.drop n, cuts := s.cuts.tail })

structure HttpRequest where
  method : List Char
  path : List Char
  queryString : List Char
  body : List Char
  contentLength : Int
  connectionClose : Bool
  httpVersion : List Char
  connectionKeepAlive : Bool
deriving DecidableEq

def chunkSize : Nat := 4096

def maxHeaderSize : Nat := 1024 * 1024

/-- The loop of the header phase: where the headers end in the buffer, the buffer and what is left. Each round
but the last takes a byte. -/
def readHeader : Nat → List Char → Socket → Option (Nat × List Char × Socket)
  | 0, _, _ => none
  | fuel + 1, buffer, s =>
    let (chunk, s) := s.recv chunkSize
    if chunk = [] then none
    else
      let buffer := buffer ++ chunk
      if maxHeaderSize < buffer.length then none
      else
        match find (crlf ++ crlf) buffer with
        | some headerEnd => some (headerEnd, buffer, s)
        | none => readHeader fuel buffer s

/-! ## Parsing -/

/-- The method, the URI and the version. -/
def parseRequestLine (line : List Char) : Option (List Char × List Char × List Char) := do
  let space1 ← find [' '] line
  let rest := line.drop (space1 + 1)
  let space2 ← find [' '] rest
  return (line.take space1, rest.take space2, rest.drop (space2 + 1))

def splitUri (uri : List Char) : List Char × List Char :=
  match find ['?'] uri with
  | some q => (uri.take q, uri.drop (q + 1))
  | none => (uri, [])

/-- What the header lines have told. -/
structure HeaderScan where
  contentLength : Int := 0
  invalidContentLength : Bool := false
  connectionClose : Bool := false
  connectionKeepAlive : Bool := false

def HeaderScan.field (scan : HeaderScan) (key val : List Char) : HeaderScan :=
  let lowerKey := key.map Char.toLower
  if lowerKey = "content-length".toList then
    match stoll val with
    | none => { scan with invalidContentLength := true }
    | some (parsed, consumed) =>
      if consumed ≠ val.length ∨ parsed < 0 then { scan with invalidContentLength := true }
      else { scan with contentLength := parsed }
  else if lowerKey = "connection".toList then
    let lowerVal := val.map Char.toLower
    if lowerVal = "close".toList then { scan with connectionClose := true }
    else if lowerVal = "keep-alive".toList then { scan with connectionKeepAlive := true }
    else scan
  else scan

/-- One round of the loop over the header lines. -/
def HeaderScan.line (scan : HeaderScan) (line : List Char) : HeaderScan :=
  let line := if line.getLast? = some '\r' then line.dropLast else line
  if line = [] then scan
  else
    match find [':'] line with
    | none => scan
    | some colon => scan.field (line.take colon) ((line.drop (colon + 1)).dropWhile (· = ' '))

/-- The header lines of the buffer. Without any, `header_end - first_line_end - 2` wraps around and `substr`
takes the rest of the buffer. -/
def headersOf (buffer : List Char) (firstLineEnd headerEnd : Nat) : List Char :=
  let rest := buffer.drop (firstLineEnd + 2)
  if headerEnd < firstLineEnd + 2 then rest else rest.take (headerEnd - firstLineEnd - 2)

def scanHeaders (headers : List Char) : HeaderScan := (headers.splitOn '\n').foldl HeaderScan.line {}

/-! ## One request -/

/-- The loop that reads the body. -/
def readBody (contentLength hardCap : Nat) : Nat → List Char → Socket → List Char × Socket
  | 0, body, s => (body, s)
  | fuel + 1, body, s =>
    if contentLength ≤ body.length ∨ hardCap ≤ body.length then (body, s)
    else
      let want := min chunkSize (contentLength - body.length)
      let want := if hardCap < body.length + want then hardCap - body.length else want
      let (chunk, s) := s.recv want
      if chunk = [] then (body, s) else readBody contentLength hardCap fuel (body ++ chunk) s

/-- The end of `read_http_request`: `req` without its body, and the bytes of it that came with the headers. A
length of -2 tells of a malformed field, one past the limit of a body that is too large. -/
def takeBody (maxBodySize : Nat) (req : HttpRequest) (invalidContentLength : Bool) (bodySoFar : List Char)
    (s : Socket) : HttpRequest × Socket :=
  let tooLarge := { req with contentLength := maxBodySize + 1 }
  if invalidContentLength then ({ req with contentLength := -2 }, s)
  else if (maxBodySize : Int) < req.contentLength then (tooLarge, s)
  else
    let (body, s) := readBody req.contentLength.toNat (maxBodySize + 1) (s.unread.length + 1) bodySoFar s
    if maxBodySize < body.length then (tooLarge, s) else ({ req with body }, s)

/-- `read_http_request`: nothing where it returns false. -/
def readHttpRequest (maxBodySize : Nat) (s : Socket) : Option (HttpRequest × Socket) := do
  let (headerEnd, buffer, s) ← readHeader (s.unread.length + 1) [] s
  let firstLineEnd ← find crlf buffer
  let (method, uri, httpVersion) ← parseRequestLine (buffer.take firstLineEnd)
  let (path, queryString) := splitUri uri
  let scan := scanHeaders (headersOf buffer firstLineEnd headerEnd)
  let req : HttpRequest :=
    { method, path, queryString, body := [], contentLength := scan.contentLength
      connectionClose := scan.connectionClose, httpVersion, connectionKeepAlive := scan.connectionKeepAlive }
  return takeBody maxBodySize req scan.invalidContentLength (buffer.drop (headerEnd + 4)) s

/-! ## The keep-alive loop -/

def HttpRequest.keepAlive (req : HttpRequest) : Bool :=
  if req.httpVersion = "HTTP/1.0".toList then req.connectionKeepAlive && !req.connectionClose
  else !req.connectionClose

/-- The requests handed to the dispatch, in order. -/
def serveLoop (maxBodySize : Nat) : Nat → Socket → List HttpRequest
  | 0, _ => []
  | fuel + 1, s =>
    match readHttpRequest maxBodySize s with
    | none => []
    | some (req, s) =>
      if req.contentLength = -2 then []
      else if (maxBodySize : Int) < req.contentLength then []
      else req :: if req.keepAlive then serveLoop maxBodySize fuel s else []

def serve (maxBodySize : Nat) (s : Socket) : List HttpRequest := serveLoop maxBodySize (s.unread.length + 1) s

end Pineapple.Http
