import Hcproxy.Bits

set_option autoImplicit false

namespace Hcproxy.Parser

abbrev Bytes := List UInt8

/-- `"CONNECT "` -/
def kConnectPrefix : Bytes := [0x43, 0x4F, 0x4E, 0x4E, 0x45, 0x43, 0x54, 0x20]

/-- `"\r\n\r\n"` -/
def terminator : Bytes := [0x0D, 0x0A, 0x0D, 0x0A]

def space : UInt8 := 0x20

def carriageReturn : UInt8 := 0x0D

def endsWith (s suffix : Bytes) : Bool :=
  decide (suffix.length ≤ s.length) && s.drop (s.length - suffix.length) == suffix

/-- `string_view::find_first_of`; `none` is `npos`. -/
def findFirstOf (s set : Bytes) (pos : ℕ) : Option ℕ :=
  ((s.drop pos).findIdx? (· ∈ set)).map (pos + ·)

/-- `string_view::substr`, whose count may be `npos`; `none` is the exception `out_of_range`. -/
def substr (s : Bytes) (pos : ℕ) (count : Option ℕ) : Option Bytes :=
  if s.length < pos then none
  else match count with
    | some n => some ((s.drop pos).take n)
    | none => some (s.drop pos)

/-- `req.substr(start, req.find_first_of(" \r", start) - start)`; the difference is past the end
of `req` when nothing is found. -/
def hostPort (req : Bytes) : Option Bytes :=
  let start := kConnectPrefix.length
  substr req start ((findFirstOf req [space, carriageReturn] start).map (· - start))

/-- What `read()` answers. No bytes mean the end of the stream. -/
inductive ReadResult
  | bytes (data : Bytes)
  | again
  | error
  deriving DecidableEq

/-- Where one pass of the loop in `Read` leaves the handler: `content` is what it has of
`content_`, the first `size_` bytes. -/
inductive Pass
  | goesOn (content : Bytes)
  | returns (value : Option Bytes) (content : Bytes)
  | throws
  deriving DecidableEq

/-- One pass of `while (true)` in `Read`; `capacity` is `content_.size()`. -/
def pass (capacity : ℕ) (content : Bytes) : ReadResult → Pass
  | .again => .returns none content
  | .error => .returns (some []) content
  | .bytes data =>
    let n := min data.length (kConnectPrefix.length - content.length)
    if content.length < kConnectPrefix.length ∧
        data.take n ≠ (kConnectPrefix.drop content.length).take n then
      .returns (some []) content
    else
      let req := content ++ data
      if endsWith req terminator then
        match hostPort req with
        | some host_port => .returns (some host_port) req
        | none => .throws
      else if data = [] then .returns (some []) req
      else if req.length = capacity then .returns (some []) req
      else .goesOn req

/-- How a call of `Read` ends. The results it did not ask for are left over. -/
inductive Read
  | pending (content : Bytes)
  | returned (value : Option Bytes) (content : Bytes) (rest : List ReadResult)
  | aborted
  deriving DecidableEq

def readLoop (capacity : ℕ) : Bytes → List ReadResult → Read
  | content, [] => .pending content
  | content, result :: rest =>
    match pass capacity content result with
    | .goesOn content => readLoop capacity content rest
    | .returns value content => .returned value content rest
    | .throws => .aborted

/-- `ParseEventHandler::Read`, given what its calls of `read()` answer. -/
def read (capacity : ℕ) (content : Bytes) (results : List ReadResult) : Read :=
  if content.length < capacity then readLoop capacity content results else .aborted

/-- The handler as the callback sees it. Once it has called `Finish` it never reads again. -/
inductive Handler
  | listening (content : Bytes)
  | finished (host_port : Bytes) (taken : ℕ)
  | aborted
  deriving DecidableEq

/-- `OnEvent`. -/
def onEvent (capacity : ℕ) (content : Bytes) (events : Events) (results : List ReadResult) :
    Handler × List ReadResult :=
  if hasBits events EPOLLERR then (.finished [] content.length, results)
  else if hasBits events EPOLLIN then
    match read capacity content results with
    | .pending content => (.listening content, [])
    | .returned none content rest => (.listening content, rest)
    | .returned (some host_port) content rest => (.finished host_port content.length, rest)
    | .aborted => (.aborted, results)
  else (.listening content, results)

/-- `OnTimeout`. -/
def onTimeout : Handler → Handler
  | .listening content => .finished [] content.length
  | handler => handler

/-- One call of `OnEvent(EPOLLIN)` for each list of results; none after `Finish`. -/
def serve (capacity : ℕ) : Handler → List (List ReadResult) → Handler
  | .listening content, results :: calls =>
    serve capacity (onEvent capacity content EPOLLIN results).1 calls
  | handler, _ => handler

end Hcproxy.Parser
