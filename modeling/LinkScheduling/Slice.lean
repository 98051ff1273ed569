import LinkScheduling.Protocol

/-! One round of service, after `slice.cpp` and `request.h`: `serve_get`, `serve_put`,
`serve_slice` and `release_request`. The `uint64_t` accounting is `UInt64`; `rounds` counts
in `Nat`. Allocations that the standard library may refuse are calls of `alloc`. -/

namespace LinkScheduling
open Effect

inductive Op
  | get
  | put
  deriving DecidableEq

structure Request where
  id : Nat := 0
  op : Op := .get
  filename : Bytes := []
  bytes : UInt64 := 0
  arrivalNs : Nat := 0
  startNs : Nat := 0
  finishNs : Nat := 0
  rounds : Nat := 0
  forfeitedBytes : UInt64 := 0
  deficit : UInt64 := 0
  byteOffset : UInt64 := 0
  leftover : Bytes := []
  clientFd : Int := -1
  path : Path := []
  tmpPath : Path := []
  fileFd : Int := -1
  started : Bool := false
  deriving DecidableEq

namespace Request

/-- What the `int` holds after as many increments as the request has had. -/
def counter (r : Request) : Int := (BitVec.ofNat 32 r.rounds).toInt

theorem counter_eq {r : Request} {n : Nat} (h : r.rounds = n) : r.counter = n ↔ n < 2 ^ 31 := by
  have top := Nat.mod_lt n (show 0 < 2 ^ 32 by decide)
  rw [counter, h, BitVec.toInt_eq_toNat_cond, BitVec.toNat_ofNat]
  omega

def waitingNs (r : Request) : Int := r.startNs - r.arrivalNs

def responseNs (r : Request) : Int := r.finishNs - r.arrivalNs

end Request

inductive Policy
  | fcfs
  | sjf
  | rr
  | drr
  deriving DecidableEq

structure SliceParams where
  policy : Policy := .fcfs
  quantum : UInt64 := 0
  pLines : Int := 1

def SliceParams.linesPerWrite (sp : SliceParams) : Int := max 1 sp.pLines

inductive SliceResult
  | done
  | preempted
  | failed
  deriving DecidableEq

/-- A request in service, and the world it is served in. -/
structure Job where
  req : Request
  os : Os

abbrev Slice (α : Type) := Prog Fault Job Event α

def onOs {α : Type} (x : Sys α) : Slice α := Prog.zoom Job.os (fun os j => { j with os := os }) x

def request : Slice Request := fun j => ⟨.ok j.req, j, []⟩

def setRequest (f : Request → Request) : Slice Unit := Prog.modify fun j => { j with req := f j.req }

def kUnbounded : UInt64 := 0xffffffffffffffff
def kChunk : UInt64 := 65536
def kBodyChunkTimeoutMs : Int := 10000

def bounded : Policy → Bool
  | .rr | .drr => true
  | .fcfs | .sjf => false

def sendError (fd : Int) (reason : Bytes) : Sys Unit := do
  alloc
  let _ ← sendAll fd (formatErr reason)

def lineTurn (fd : Int) (offset fileSize pos : UInt64) : Sys (UInt64 ⊕ UInt64) := do
  if pos < fileSize then
    let buf ← pread fd (min 16384 (fileSize - pos)).toNat pos.toNat
    if buf = [] then pure (.inr 0)
    else if newline ∈ buf then pure (.inr (pos - offset + UInt64.ofNat (buf.idxOf newline) + 1))
    else pure (.inl (pos + UInt64.ofNat buf.length))
  else pure (.inr (fileSize - offset))

def lineLengthAt (fd : Int) (offset fileSize : UInt64) : Sys UInt64 :=
  Prog.loop .spent (lineTurn fd offset fileSize) ((fileSize - offset).toNat + 1) offset

/-- `got` is what the loop has stored behind the old end of the string. -/
def appendTurn (fd : Int) (offset len : UInt64) (got : Bytes) : Sys (Bytes ⊕ Option Bytes) := do
  if UInt64.ofNat got.length < len then
    let buf ← pread fd (len - UInt64.ofNat got.length).toNat (offset + UInt64.ofNat got.length).toNat
    if buf = [] then pure (.inr none) else pure (.inl (got ++ buf))
  else pure (.inr (some got))

def appendRange (fd : Int) (offset len : UInt64) (out : Bytes) : Sys (Bool × Bytes) := do
  alloc
  match ← Prog.loop .spent (appendTurn fd offset len) (len.toNat + 1) [] with
  | some got => pure (true, out ++ got)
  | none => pure (false, out)

def streamTurn (fileFd sock : Int) (offset len size done : UInt64) : Sys (UInt64 ⊕ Bool) := do
  if done < len then
    let buf ← pread fileFd (min size (len - done)).toNat (offset + done).toNat
    if buf = [] then pure (.inr false)
    else if ← sendAll sock buf then pure (.inl (done + UInt64.ofNat buf.length))
    else pure (.inr false)
  else pure (.inr true)

def streamRange (fileFd sock : Int) (offset len : UInt64) : Sys Bool := do
  alloc
  Prog.loop .spent (streamTurn fileFd sock offset len (min len kChunk)) (len.toNat + 1) 0

structure Batch where
  data : Bytes := []
  lines : Nat := 0

/-- The batch is empty after a flush, whatever comes of it. -/
def Batch.flush (b : Batch) (sock : Int) : Sys Bool :=
  if b.data = [] then pure true else sendAll sock b.data

def logA14Fire (requestId : Nat) (filename : Bytes) (lineBytes quantum : UInt64) : Sys Unit := do
  alloc
  Prog.emit (.a14 requestId filename lineBytes quantum)

def sendHeader (fd : Int) : Slice Bool := do
  let r ← request
  if r.started then pure true
  else
    onOs alloc
    if ← onOs (sendAll fd (formatOk r.bytes.toNat)) then
      setRequest fun r => { r with started := true }
      pure true
    else pure false

def allowance (sp : SliceParams) (deficit : UInt64) : UInt64 :=
  if bounded sp.policy then
    let carried := if sp.policy = .drr then deficit else 0
    if carried > kUnbounded - sp.quantum then kUnbounded else carried + sp.quantum
  else kUnbounded

structure GetLocals where
  batch : Batch := {}
  left : UInt64
  sentThisRound : UInt64 := 0

/-- The A14 escape: a line longer than the quantum that starts a round goes out alone. -/
def sendLongLine (fd : Int) (sp : SliceParams) (v : GetLocals) (len : UInt64) :
    Slice SliceResult := do
  let r ← request
  if ← onOs (v.batch.flush fd) then
    if ← onOs (streamRange r.fileFd fd r.byteOffset len) then
      setRequest fun r => { r with byteOffset := r.byteOffset + len }
      onOs (logA14Fire r.id r.filename len sp.quantum)
      let r ← request
      pure (if r.byteOffset ≥ r.bytes then .done else .preempted)
    else pure .failed
  else pure .failed

def endRound (fd : Int) (sp : SliceParams) (v : GetLocals) : Slice SliceResult := do
  if ← onOs (v.batch.flush fd) then
    if sp.policy = .rr then
      setRequest fun r => { r with forfeitedBytes := r.forfeitedBytes + v.left }
    else setRequest fun r => { r with deficit := v.left }
    pure .preempted
  else pure .failed

/-- Put one line into the batch, or stream it when it is too long for that. -/
def emitLine (fd : Int) (sp : SliceParams) (b : Batch) (len : UInt64) : Slice (Option Batch) := do
  let r ← request
  if len > kChunk then
    if ← onOs (b.flush fd) then
      if ← onOs (streamRange r.fileFd fd r.byteOffset len) then pure (some {}) else pure none
    else pure none
  else
    let (ok, data) ← onOs (appendRange r.fileFd r.byteOffset len b.data)
    if ok then
      let b : Batch := { data := data, lines := b.lines + 1 }
      if (b.lines : Int) ≥ sp.linesPerWrite then
        if ← onOs (b.flush fd) then pure (some {}) else pure none
      else pure (some b)
    else pure none

def sendLine (fd : Int) (sp : SliceParams) (v : GetLocals) (len : UInt64) :
    Slice (GetLocals ⊕ SliceResult) := do
  match ← emitLine fd sp v.batch len with
  | none => pure (.inr .failed)
  | some b =>
    setRequest fun r => { r with byteOffset := r.byteOffset + len }
    pure (.inl
      { batch := b
        left := if bounded sp.policy then v.left - len else v.left
        sentThisRound := v.sentThisRound + len })

def finishGet (fd : Int) (v : GetLocals) : Slice SliceResult := do
  if ← onOs (v.batch.flush fd) then
    setRequest fun r => { r with deficit := 0 }
    pure .done
  else pure .failed

def getTurn (fd : Int) (sp : SliceParams) (v : GetLocals) : Slice (GetLocals ⊕ SliceResult) := do
  let r ← request
  if r.byteOffset < r.bytes then
    let len ← onOs (lineLengthAt r.fileFd r.byteOffset r.bytes)
    if len = 0 then pure (.inr .failed)
    else if sp.policy = .rr ∧ v.sentThisRound = 0 ∧ len > sp.quantum then
      .inr <$> sendLongLine fd sp v len
    else if bounded sp.policy ∧ len > v.left then
      .inr <$> endRound fd sp v
    else sendLine fd sp v len
  else .inr <$> finishGet fd v

def serveGet (fd : Int) (sp : SliceParams) : Slice SliceResult := do
  setRequest fun r => { r with rounds := r.rounds + 1 }
  if ← sendHeader fd then
    let r ← request
    Prog.loop .spent (getTurn fd sp) ((r.bytes - r.byteOffset).toNat + 1)
      { left := allowance sp r.deficit }
  else pure .failed

def writeTurn (fd : Int) (data : Bytes) (done : Nat) : Sys (Nat ⊕ Bool) := do
  if done < data.length then
    match ← write fd (data.drop done) with
    | .error .intr => pure (.inl done)
    | .error _ | .ok 0 => pure (.inr false)
    | .ok w => pure (.inl (done + w))
  else pure (.inr true)

def writeAll (fd : Int) (data : Bytes) : Sys Bool := do
  let os ← Prog.get
  Prog.loop .spent (writeTurn fd data) (data.length + os.script.length + 1) 0

/-- Open the temp file and answer the header, in the first round only. -/
def beginPut (fd : Int) : Slice Bool := do
  let r ← request
  if r.started then pure true
  else
    onOs alloc
    let tmp := r.path ++ ascii ".tmp." ++ decimal r.id
    setRequest fun r => { r with tmpPath := tmp }
    match ← onOs (openTrunc tmp) with
    | none =>
      setRequest fun r => { r with fileFd := -1, tmpPath := [] }
      onOs (sendError fd (ascii "cannot write file"))
      pure false
    | some n =>
      setRequest fun r => { r with fileFd := n }
      onOs alloc
      if ← onOs (sendAll fd (formatOk 0)) then
        setRequest fun r => { r with started := true }
        pure true
      else pure false

def putTurn (fd : Int) (take size done : UInt64) : Slice (UInt64 ⊕ Bool) := do
  if done < take then
    let n := min size (take - done)
    let r ← request
    let x ← onOs (readExact fd r.leftover n.toNat kBodyChunkTimeoutMs)
    setRequest fun r => { r with leftover := x.leftover }
    if x.ok then
      if ← onOs (writeAll r.fileFd x.out) then
        setRequest fun r => { r with byteOffset := r.byteOffset + n }
        pure (.inl (done + n))
      else
        onOs (sendError fd (ascii "cannot write file"))
        pure (.inr false)
    else
      onOs (sendError fd (ascii "body shorter than declared"))
      pure (.inr false)
  else pure (.inr true)

def installPut (fd : Int) : Slice SliceResult := do
  let r ← request
  onOs (close r.fileFd)
  setRequest fun r => { r with fileFd := -1 }
  if ← onOs (rename r.tmpPath r.path) then
    setRequest fun r => { r with tmpPath := [] }
    onOs alloc
    if ← onOs (sendAll fd (formatOk 0)) then pure .done else pure .failed
  else
    onOs (sendError fd (ascii "cannot write file"))
    pure .failed

def servePut (fd : Int) (sp : SliceParams) : Slice SliceResult := do
  setRequest fun r => { r with rounds := r.rounds + 1 }
  if ← beginPut fd then
    let r ← request
    let remaining := r.bytes - r.byteOffset
    let take := if bounded sp.policy then min sp.quantum remaining else remaining
    onOs alloc
    if ← Prog.loop .spent (putTurn fd take (min take kChunk)) (take.toNat + 1) 0 then
      let r ← request
      if r.byteOffset < r.bytes then pure .preempted else installPut fd
    else pure .failed
  else pure .failed

def serveSlice (fd : Int) (sp : SliceParams) : Slice SliceResult := do
  let r ← request
  match r.op with
  | .get => serveGet fd sp
  | .put => servePut fd sp

def releaseRequest : Slice Unit := do
  let r ← request
  if r.fileFd ≥ 0 then
    onOs (close r.fileFd)
    setRequest fun r => { r with fileFd := -1 }
  if r.tmpPath ≠ [] then
    let _ ← onOs (unlink r.tmpPath)
    setRequest fun r => { r with tmpPath := [] }

end LinkScheduling
