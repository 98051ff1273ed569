import LinkScheduling.Kernel

/-! The wire protocol, after `protocol.cpp`: the request and response lines, the reading of
a header line and of a counted body, and `send_all`. -/

namespace LinkScheduling
open Effect

/-- `std::to_string` of an unsigned number. -/
def decimal (n : Nat) : Bytes :=
  if n = 0 then [48] else (Nat.digits 10 n).reverse.map fun d => (48 + d).toUInt8

def isDigit (c : UInt8) : Bool := 48 ≤ c && c ≤ 57

/-- The value `strtoull` reads off a string of digits, before the check for overflow. -/
def digitsValue (tok : Bytes) : Nat := tok.foldl (fun v c => 10 * v + (c.toNat - 48)) 0

/-- The token that starts at the first byte that is not a space, and what follows it. -/
def splitToken (s : Bytes) : Bytes × Bytes := (s.dropWhile (· == space)).span (· != space)

def splitWsFrom : Nat → Bytes → List Bytes
  | 0, _ => []
  | fuel + 1, s =>
    if s = [] then []
    else
      let (tok, rest) := splitToken s
      if tok = [] then splitWsFrom fuel rest else tok :: splitWsFrom fuel rest

/-- Every turn of the loop consumes a byte, so the length bounds the turns. -/
def splitWs (s : Bytes) : List Bytes := splitWsFrom s.length s

def parseU64 (tok : Bytes) : Option UInt64 :=
  if tok = [] then none
  else if tok.all isDigit then
    if digitsValue tok < 2 ^ 64 then some (UInt64.ofNat (digitsValue tok)) else none
  else none

inductive ReqType
  | get
  | put
  | health
  | malformed
  deriving DecidableEq

structure ParsedRequestLine where
  type : ReqType := .malformed
  filename : Bytes := []
  byteCount : UInt64 := 0
  error : Bytes := []
  deriving DecidableEq

def parseRequestLine (line : Bytes) : ParsedRequestLine :=
  match splitWs line with
  | [] => { error := ascii "malformed request line" }
  | op :: rest =>
    if op = ascii "GET" then
      match rest with
      | [filename] => { type := .get, filename := filename }
      | _ => { error := ascii "GET requires exactly one filename" }
    else if op = ascii "PUT" then
      match rest with
      | [filename, count] =>
        match parseU64 count with
        | some bytes => { type := .put, filename := filename, byteCount := bytes }
        | none => { error := ascii "missing or non-numeric byte count" }
      | _ => { error := ascii "PUT requires a filename and a byte count" }
    else if op = ascii "HEALTH" then
      match rest with
      | [] => { type := .health }
      | _ => { error := ascii "malformed request line" }
    else { error := ascii "unknown request line" }

def formatOk (n : Nat) : Bytes := ascii "OK " ++ decimal n ++ [newline]

def formatErr (reason : Bytes) : Bytes := ascii "ERR " ++ reason ++ [newline]

structure ParsedResponseLine where
  ok : Bool := false
  malformed : Bool := false
  n : UInt64 := 0
  reason : Bytes := []
  deriving DecidableEq

def parseResponseLine (line : Bytes) : ParsedResponseLine :=
  match splitWs line with
  | [] => { malformed := true }
  | op :: rest =>
    if op = ascii "OK" then
      match rest with
      | [count] =>
        match parseU64 count with
        | some n => { ok := true, n := n }
        | none => { malformed := true }
      | _ => { malformed := true }
    else if op = ascii "ERR" then
      { reason := (line.dropWhile (· != space)).drop 1 }
    else { malformed := true }

def isFilenameSafe (name : Bytes) : Bool :=
  name != [] && name != ascii "." && name != ascii ".." && !name.contains 47 && !name.contains 0

/-- `SO_RCVTIMEO` is set to what is left of the deadline in whole milliseconds. Nothing left
is reported, since a timeout of zero would mean to wait for ever. -/
def armRemaining (fd : Int) (deadline : Nat) : Sys Bool := fun os =>
  let left := (deadline - os.now) / 1000000
  if left = 0 then ⟨.ok false, os, [.expired fd]⟩
  else
    let tv := (left / 1000, left % 1000 * 1000)
    ⟨.ok true, { os with rcvtimeo := Function.update os.rcvtimeo fd tv }, [.armed fd tv.1 tv.2]⟩

def setRecvTimeout (fd : Int) (ms : Nat) : Sys Unit :=
  Prog.modify fun os => { os with rcvtimeo := Function.update os.rcvtimeo fd (ms / 1000, ms % 1000 * 1000) }

/-- A negative timeout means that there is no deadline. -/
def armed (fd : Int) (timeoutMs : Int) (deadline : Nat) : Sys Bool :=
  if 0 ≤ timeoutMs then armRemaining fd deadline else pure true

structure HeaderReadResult where
  ok : Bool := false
  line : Bytes := []
  leftover : Bytes := []
  error : Bytes := []
  deriving DecidableEq

/-- What one received chunk makes of a header line read so far. -/
def HeaderReadResult.feed (line buf : Bytes) : Bytes ⊕ HeaderReadResult :=
  if newline ∈ buf then
    let part := buf.takeWhile (· != newline)
    .inr { ok := true, line := line ++ part, leftover := buf.drop (part.length + 1) }
  else if 8192 < (line ++ buf).length then .inr { error := ascii "header line too long" }
  else .inl (line ++ buf)

def headerTurn (fd : Int) (timeoutMs : Int) (deadline : Nat) (line : Bytes) :
    Sys (Bytes ⊕ HeaderReadResult) := do
  if ← armed fd timeoutMs deadline then
    match ← recv fd 512 with
    | .error .again => pure (.inr { error := ascii "header read timeout" })
    | .error _ => pure (.inr { error := ascii "recv error" })
    | .ok [] => pure (.inr { error := ascii "peer closed before header line completed" })
    | .ok buf =>
      match HeaderReadResult.feed line buf with
      | .inl line => pure (.inl line)
      | .inr r =>
        if r.ok && decide (0 ≤ timeoutMs) then setRecvTimeout fd timeoutMs.toNat
        pure (.inr r)
  else pure (.inr { error := ascii "header read timeout" })

/-- Every turn but the last adds a byte to a line of at most 8192. -/
def readHeaderLine (fd : Int) (timeoutMs : Int) : Sys HeaderReadResult := do
  let os ← Prog.get
  Prog.loop .spent (headerTurn fd timeoutMs (os.now + timeoutMs.toNat * 1000000)) 8194 []

/-- `out` is the filled part of the caller's buffer, `leftover` what is left of the vector. -/
structure ReadExact where
  ok : Bool
  out : Bytes
  leftover : Bytes

def exactTurn (fd : Int) (n : Nat) (timeoutMs : Int) (deadline : Nat) (out : Bytes) :
    Sys (Bytes ⊕ (Bool × Bytes)) := do
  if out.length < n then
    if ← armed fd timeoutMs deadline then
      match ← recv fd (n - out.length) with
      | .error _ | .ok [] => pure (.inr (false, out))
      | .ok part => pure (.inl (out ++ part))
    else pure (.inr (false, out))
  else pure (.inr (true, out))

def readExact (fd : Int) (leftover : Bytes) (n : Nat) (totalTimeoutMs : Int) : Sys ReadExact := do
  let os ← Prog.get
  let deadline := os.now + totalTimeoutMs.toNat * 1000000
  let (ok, out) ← Prog.loop .spent (exactTurn fd n totalTimeoutMs deadline) (n + 1) (leftover.take n)
  pure ⟨ok, out, leftover.drop n⟩

def sendTurn (fd : Int) (data : Bytes) (sent : Nat) : Sys (Nat ⊕ Bool) := do
  if sent < data.length then
    match ← send fd (data.drop sent) with
    | .error .intr => pure (.inl sent)
    | .error _ | .ok 0 => pure (.inr false)
    | .ok s => pure (.inl (sent + s))
  else pure (.inr true)

/-- A turn moves a byte or, interrupted, takes a reply from the script. -/
def sendAll (fd : Int) (data : Bytes) : Sys Bool := do
  Prog.emit (.handed fd data)
  let os ← Prog.get
  Prog.loop .spent (sendTurn fd data) (data.length + os.script.length + 1) 0

end LinkScheduling
